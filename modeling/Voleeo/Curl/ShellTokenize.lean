import Voleeo.Curl.Serialize

/-!
# The shell tokenizer

What the address bar reads out of a pasted command. A backslash before a line break
is removed first, before the tokenizer knows which quotes it stands in.
-/
namespace Voleeo.Curl

/-- The first pass: `\\\r?\n` goes. -/
def collapse : Text → Text
  | [] => []
  | '\\' :: '\n' :: rest => collapse rest
  | '\\' :: '\r' :: '\n' :: rest => collapse rest
  | c :: rest => c :: collapse rest

attribute [local simp] collapse

/-- The loop that the tokenizer is in. -/
inductive Quoting
  | bare
  | single
  | double
  | ansi

structure Scan where
  tokens : List Text
  current : Text
  inToken : Bool

namespace Scan

def enter (st : Scan) : Scan := { st with inToken := true }

def add (st : Scan) (c : Char) : Scan := { st with current := st.current ++ [c], inToken := true }

def pushToken (st : Scan) : Scan :=
  if st.inToken then ⟨st.tokens ++ [st.current], [], false⟩ else st

end Scan

/-- What a backslash keeps of its successor in double quotes. -/
def isDoubleEscape (c : Char) : Bool := ['"', '\\', '$', Char.ofNat 96, '\n'].contains c

def ansiEscape : Char → Option Char
  | 'n' => some '\n'
  | 't' => some '\t'
  | 'r' => some '\r'
  | '\\' => some '\\'
  | '\'' => some '\''
  | '"' => some '"'
  | '0' => some (Char.ofNat 0)
  | _ => none

/-- `none` when a quote is not closed. -/
def scan : Quoting → Scan → Text → Option (List Text)
  | .bare, st, [] => some st.pushToken.tokens
  | .bare, st, '\'' :: rest => scan .single st.enter rest
  | .bare, st, '"' :: rest => scan .double st.enter rest
  | .bare, st, '$' :: '\'' :: rest => scan .ansi st.enter rest
  | .bare, st, '\\' :: c :: rest => scan .bare (st.add c) rest
  | .bare, st, c :: rest =>
    if isJsSpace c then scan .bare st.pushToken rest else scan .bare (st.add c) rest
  | .single, _, [] => none
  | .single, st, '\'' :: '\\' :: '\'' :: '\'' :: rest => scan .single (st.add '\'') rest
  | .single, st, '\'' :: rest => scan .bare st rest
  | .single, st, c :: rest => scan .single (st.add c) rest
  | .double, _, [] => none
  | .double, st, '"' :: rest => scan .bare st rest
  | .double, st, '\\' :: c :: rest =>
    if isDoubleEscape c then scan .double (st.add c) rest
    else scan .double (st.add '\\') (c :: rest)
  | .double, st, c :: rest => scan .double (st.add c) rest
  | .ansi, _, [] => none
  | .ansi, st, '\'' :: rest => scan .bare st rest
  | .ansi, st, '\\' :: c :: rest =>
    match ansiEscape c with
    | some meant => scan .ansi (st.add meant) rest
    | none => scan .ansi (st.add '\\') (c :: rest)
  | .ansi, st, c :: rest => scan .ansi (st.add c) rest

def shellTokenize (input : Text) : Option (List Text) :=
  scan .bare ⟨[], [], false⟩ (collapse input)

example : shellTokenize "curl $'a\\tb' \"it's\\\"\" c\\ d".toList =
    some ["curl".toList, "a\tb".toList, "it's\"".toList, "c d".toList] := by decide

/-! ## The first pass -/

/-- A backslash stands directly before a line break. -/
def Continued (s : Text) : Prop := ['\\', '\n'] <:+: s ∨ ['\\', '\r', '\n'] <:+: s

theorem Continued.cons {c : Char} {s : Text} (h : Continued s) : Continued (c :: s) :=
  h.imp List.infix_cons List.infix_cons

theorem length_collapse_le (s : Text) : (collapse s).length ≤ s.length := by
  induction s using collapse.induct with
  | case1 => simp [collapse]
  | case2 rest ih => simp only [collapse, List.length_cons]; omega
  | case3 rest ih => simp only [collapse, List.length_cons]; omega
  | case4 c rest hlf hcrlf ih =>
    rw [collapse.eq_4 c rest hlf hcrlf]
    exact Nat.succ_le_succ ih

/-- A line break after the first character leaves that character alone, unless it continues. -/
theorem collapse_cons {c : Char} {s : Text} (h : c ≠ '\\' ∨ ¬ Continued (c :: s)) :
    collapse (c :: s) = c :: collapse s := by
  rw [collapse] <;> rintro rest rfl rfl <;> rcases h with h | h
  · exact h rfl
  · exact h (Or.inl ⟨[], rest, rfl⟩)
  · exact h rfl
  · exact h (Or.inr ⟨[], rest, rfl⟩)

/-- The first pass keeps exactly the texts without a continued line. -/
theorem collapse_eq_self_iff (s : Text) : collapse s = s ↔ ¬ Continued s := by
  constructor
  · intro h hcontinued
    suffices hlt : ∀ t, Continued t → (collapse t).length < t.length from
      absurd (hlt s hcontinued) (by simp [h])
    clear h hcontinued s
    intro t ht
    induction t using collapse.induct with
    | case1 => simp [Continued] at ht
    | case2 rest ih =>
      have := length_collapse_le rest
      simp only [collapse, List.length_cons]
      omega
    | case3 rest ih =>
      have := length_collapse_le rest
      simp only [collapse, List.length_cons]
      omega
    | case4 c rest hlf hcrlf ih =>
      rw [collapse.eq_4 c rest hlf hcrlf, List.length_cons, List.length_cons]
      refine Nat.succ_lt_succ (ih ?_)
      rcases ht with ht | ht
      all_goals
        rcases List.infix_cons_iff.mp ht with ⟨tail, htail⟩ | ht
        · simp only [List.cons_append, List.nil_append, List.cons.injEq] at htail
          grind
      · exact Or.inl ht
      · exact Or.inr ht
  · intro h
    induction s with
    | nil => rfl
    | cons c s ih => rw [collapse_cons (Or.inr h), ih fun hs => h hs.cons]

/-- The two passes meet only in a backslash before a line break. -/
theorem collapse_append {s t : Text} (h : ∀ c ∈ t.head?, c ≠ '\n' ∧ c ≠ '\r') :
    collapse (s ++ t) = collapse s ++ collapse t := by
  induction s using collapse.induct with
  | case1 => rfl
  | case2 rest ih => simpa [collapse] using ih
  | case3 rest ih => simpa [collapse] using ih
  | case4 c rest hlf hcrlf ih =>
    rw [collapse.eq_4 c rest hlf hcrlf, List.cons_append, List.cons_append, ← ih]
    rw [collapse]
    · rintro tail rfl htail
      rcases rest with _ | ⟨d, rest⟩
      · exact (h '\n' (by simp [show t = _ from htail])).1 rfl
      · exact hlf rest rfl (by rw [List.cons.inj htail |>.1])
    · rintro tail rfl htail
      rcases rest with _ | ⟨d, _ | ⟨e, rest⟩⟩
      · exact (h '\r' (by simp [show t = _ from htail])).2 rfl
      · exact (h '\n' (by simp [show t = _ from (List.cons.inj htail).2])).1 rfl
      · obtain ⟨rfl, hrest⟩ := List.cons.inj htail
        exact hcrlf rest rfl (by rw [List.cons.inj hrest |>.1])

/-! ## Single quotes -/

/-- What stands between the quotes. -/
def quoteBody (s : Text) : Text :=
  s.flatMap fun c => if c = '\'' then ['\'', '\\', '\'', '\''] else [c]

theorem shellQuote_eq (s : Text) : shellQuote s = '\'' :: quoteBody s ++ ['\''] := rfl

theorem quoteBody_quote (s : Text) :
    quoteBody ('\'' :: s) = '\'' :: '\\' :: '\'' :: '\'' :: quoteBody s := rfl

theorem quoteBody_cons {c : Char} (s : Text) (h : c ≠ '\'') :
    quoteBody (c :: s) = c :: quoteBody s := by
  simp [quoteBody, h]

/-- Any other character of the body is one of the text. -/
theorem cons_of_quoteBody {c : Char} {s tail : Text} (h : quoteBody s = c :: tail)
    (hc : c ≠ '\'') : ∃ rest, s = c :: rest ∧ quoteBody rest = tail := by
  rcases s with _ | ⟨d, rest⟩
  · cases h
  · by_cases hd : d = '\''
    · subst hd
      exact absurd (List.cons.inj h).1.symm hc
    · rw [quoteBody_cons rest hd] at h
      obtain ⟨rfl, htail⟩ := List.cons.inj h
      exact ⟨rest, rfl, htail⟩

theorem collapse_quoteBody (s : Text) : collapse (quoteBody s) = quoteBody (collapse s) := by
  induction s using collapse.induct with
  | case1 => rfl
  | case2 rest ih => exact ih
  | case3 rest ih => exact ih
  | case4 c rest hlf hcrlf ih =>
    rw [collapse.eq_4 c rest hlf hcrlf]
    by_cases hc : c = '\''
    · subst hc
      rw [quoteBody_quote, quoteBody_quote, ← ih]
      rfl
    · rw [quoteBody_cons rest hc, quoteBody_cons _ hc, ← ih]
      rw [collapse]
      · rintro tail rfl htail
        obtain ⟨rest, rfl, -⟩ := cons_of_quoteBody htail (by decide)
        exact hlf rest rfl rfl
      · rintro tail rfl htail
        obtain ⟨rest, rfl, hrest⟩ := cons_of_quoteBody htail (by decide)
        obtain ⟨rest, rfl, -⟩ := cons_of_quoteBody hrest (by decide)
        exact hcrlf rest rfl rfl

/-- Quoting and the first pass commute. -/
theorem collapse_shellQuote (s : Text) : collapse (shellQuote s) = shellQuote (collapse s) := by
  rw [shellQuote_eq, shellQuote_eq, List.cons_append, collapse_cons (Or.inl (by decide)),
    collapse_append (by simp), collapse_quoteBody]
  rfl

/-! ## Reading quotes back -/

/-- Between two tokens. -/
def outside (tokens : List Text) : Scan := ⟨tokens, [], false⟩

/-- The end of a token: the end of the text or a blank. -/
def Ends (rest : Text) : Prop := ∀ c ∈ rest.head?, isJsSpace c = true

/-- What the loop does with a character, by what it stands in. -/
theorem scan_step (st : Scan) (c : Char) (rest : Text) :
    (c ≠ '\'' → scan .single st (c :: rest) = scan .single (st.add c) rest) ∧
      (rest.head? ≠ some '\\' → scan .single st ('\'' :: rest) = scan .bare st rest) ∧
      (isJsSpace c = false ∧ c ≠ '\'' ∧ c ≠ '"' ∧ c ≠ '\\' → rest.head? ≠ some '\'' →
        scan .bare st (c :: rest) = scan .bare (st.add c) rest) ∧
      (isJsSpace c = true → c ≠ '\'' ∧ c ≠ '"' ∧ c ≠ '$' ∧ c ≠ '\\' →
        scan .bare st (c :: rest) = scan .bare st.pushToken rest) := by
  refine ⟨fun hc => ?_, fun hrest => ?_, fun hc hnext => ?_, fun hc hplain => ?_⟩
  · rw [scan.eq_def]
    split <;> simp_all
  · rw [scan.eq_def]
    split <;> grind
  · rw [scan.eq_def]
    split <;> simp_all
  · rw [scan.eq_def]
    split <;> simp_all

theorem scan_single_cons {st : Scan} {c : Char} {rest : Text} (hc : c ≠ '\'') :
    scan .single st (c :: rest) = scan .single (st.add c) rest :=
  (scan_step st c rest).1 hc

theorem scan_single_close {st : Scan} {rest : Text} (h : Ends rest) :
    scan .single st ('\'' :: rest) = scan .bare st rest :=
  (scan_step st '\'' rest).2.1 fun hd => absurd (h '\\' hd) (by decide)

theorem scan_bare_cons {st : Scan} {c : Char} {rest : Text}
    (hc : isJsSpace c = false ∧ c ≠ '\'' ∧ c ≠ '"' ∧ c ≠ '\\') (hnext : rest.head? ≠ some '\'') :
    scan .bare st (c :: rest) = scan .bare (st.add c) rest :=
  (scan_step st c rest).2.2.1 hc hnext

theorem scan_bare_space {st : Scan} {c : Char} {rest : Text} (hc : isJsSpace c = true) :
    scan .bare st (c :: rest) = scan .bare st.pushToken rest := by
  have hplain : c ≠ '\'' ∧ c ≠ '"' ∧ c ≠ '$' ∧ c ≠ '\\' := by
    refine ⟨?_, ?_, ?_, ?_⟩ <;>
    · rintro rfl
      exact absurd hc (by decide)
  exact (scan_step st c rest).2.2.2 hc hplain

/-- The loop for single quotes returns what was quoted. -/
theorem scan_quoteBody (s : Text) (st : Scan) {rest : Text} (h : Ends rest) :
    scan .single st (quoteBody s ++ '\'' :: rest) =
      scan .bare { st with current := st.current ++ s, inToken := st.inToken || s ≠ [] } rest := by
  induction s generalizing st with
  | nil => simpa [quoteBody] using scan_single_close h
  | cons c s ih =>
    have hst : ∀ d, (st.add d).current = st.current ++ [d] := fun d => rfl
    by_cases hc : c = '\''
    · subst hc
      rw [quoteBody_quote]
      refine Eq.trans (b := scan .single (st.add '\'') (quoteBody s ++ '\'' :: rest)) rfl ?_
      rw [ih]
      simp [Scan.add]
    · rw [quoteBody_cons s hc, List.cons_append, scan_single_cons hc, ih]
      simp [Scan.add]

/-- `text` is read as `words` between any two tokens. -/
structure Spells (text : Text) (words : List Text) : Prop where
  starts : ∀ c ∈ text.head?, c ≠ '\n' ∧ c ≠ '\r'
  reads : ∀ tokens rest, Ends rest → scan .bare (outside tokens) (collapse text ++ rest) =
    scan .bare (outside (tokens ++ words)) rest

/-- What stands between two arguments: blanks and continued lines. -/
structure IsGap (gap : Text) : Prop where
  starts : ∀ c ∈ gap.head?, c ≠ '\n' ∧ c ≠ '\r'
  nonempty : collapse gap ≠ []
  blank : ∀ c ∈ collapse gap, isJsSpace c = true

theorem scan_blank {gap : Text} (h : ∀ c ∈ gap, isJsSpace c = true) (tokens : List Text)
    (rest : Text) : scan .bare (outside tokens) (gap ++ rest) = scan .bare (outside tokens) rest := by
  induction gap with
  | nil => rfl
  | cons c gap ih =>
    rw [List.cons_append, scan_bare_space (h c List.mem_cons_self)]
    exact ih fun d hd => h d (List.mem_cons_of_mem c hd)

theorem Ends.append {gap : Text} (hne : gap ≠ []) (h : ∀ c ∈ gap, isJsSpace c = true)
    (rest : Text) : Ends (gap ++ rest) := by
  obtain ⟨c, gap, rfl⟩ := List.exists_cons_of_ne_nil hne
  intro d hd
  obtain rfl : c = d := by simpa using hd
  exact h c List.mem_cons_self

/-- A token ends where a blank stands. -/
theorem scan_push {tokens : List Text} {current rest : Text} (h : Ends rest) :
    scan .bare ⟨tokens, current, true⟩ rest = scan .bare (outside (tokens ++ [current])) rest := by
  rcases rest with _ | ⟨c, rest⟩
  · rfl
  · have hc := h c rfl
    rw [scan_bare_space hc, scan_bare_space hc]
    rfl

theorem Spells.quote (s : Text) : Spells (shellQuote s) [collapse s] := by
  refine ⟨by simp [shellQuote_eq], fun tokens rest hrest => ?_⟩
  rw [collapse_shellQuote, shellQuote_eq, List.cons_append, List.cons_append, List.append_assoc]
  calc scan .bare (outside tokens) ('\'' :: (quoteBody (collapse s) ++ (['\''] ++ rest)))
      = scan .single ⟨tokens, [], true⟩ (quoteBody (collapse s) ++ '\'' :: rest) := rfl
    _ = scan .bare ⟨tokens, collapse s, true⟩ rest := by rw [scan_quoteBody _ _ hrest]; rfl
    _ = scan .bare (outside (tokens ++ [collapse s])) rest := scan_push hrest

/-- Characters that mean themselves outside quotes. -/
def IsBare (c : Char) : Prop := c ≠ '\'' ∧ c ≠ '"' ∧ c ≠ '\\'

theorem collapse_of_bare {s : Text} (h : ∀ c ∈ s, IsBare c) : collapse s = s := by
  refine (collapse_eq_self_iff s).mpr ?_
  rintro (hs | hs) <;> exact (h '\\' (hs.mem (by simp))).2.2 rfl

/-- A plain character before a plain text or the end of a token. -/
theorem scan_plain {c : Char} {w rest : Text} (h : ∀ d ∈ c :: w, IsBare d)
    (hc : isJsSpace c = false) (hrest : Ends rest) (st : Scan) :
    scan .bare st (c :: w ++ rest) = scan .bare (st.add c) (w ++ rest) := by
  refine scan_bare_cons ⟨hc, h c List.mem_cons_self⟩ ?_
  rcases w with _ | ⟨d, w⟩
  · exact fun hq => absurd (hrest '\'' hq) (by decide)
  · simpa using (h d (by simp)).1

/-- Without quotes a text is read as the same words wherever it stands. -/
theorem scan_words {w : Text} (h : ∀ c ∈ w, IsBare c) (current : Text) (inToken : Bool)
    (hout : inToken = false → current = []) : ∃ words, ∀ tokens rest, Ends rest →
      scan .bare ⟨tokens, current, inToken⟩ (w ++ rest) =
        scan .bare (outside (tokens ++ words)) rest := by
  induction w generalizing current inToken with
  | nil => cases inToken with
    | true => exact ⟨[current], fun tokens rest hrest => scan_push hrest⟩
    | false => exact ⟨[], fun tokens rest _ => by simp [hout rfl, outside]⟩
  | cons c w ih =>
    have htail : ∀ d ∈ w, IsBare d := fun d hd => h d (List.mem_cons_of_mem c hd)
    cases hspace : isJsSpace c with
    | false =>
      obtain ⟨words, hwords⟩ := ih htail (current ++ [c]) true (by simp)
      refine ⟨words, fun tokens rest hrest => ?_⟩
      rw [scan_plain h hspace hrest]
      exact hwords tokens rest hrest
    | true =>
      obtain ⟨words, hwords⟩ := ih htail [] false (fun _ => rfl)
      cases inToken with
      | true =>
        refine ⟨current :: words, fun tokens rest hrest => ?_⟩
        rw [List.cons_append, scan_bare_space hspace]
        simpa [Scan.pushToken] using hwords (tokens ++ [current]) rest hrest
      | false =>
        refine ⟨words, fun tokens rest hrest => ?_⟩
        rw [List.cons_append, scan_bare_space hspace]
        simpa [Scan.pushToken, hout rfl] using hwords tokens rest hrest

theorem Spells.words {w : Text} (hhead : ∀ c ∈ w.head?, c ≠ '\n' ∧ c ≠ '\r')
    (h : ∀ c ∈ w, IsBare c) : ∃ words, Spells w words := by
  obtain ⟨words, hwords⟩ := scan_words h [] false (fun _ => rfl)
  exact ⟨words, hhead, by rw [collapse_of_bare h]; exact hwords⟩

/-- A word in one piece. -/
theorem scan_word {w : Text} (h : ∀ c ∈ w, IsBare c ∧ isJsSpace c = false) (tokens : List Text)
    {rest : Text} (hrest : Ends rest) (current : Text) :
    scan .bare ⟨tokens, current, true⟩ (w ++ rest) =
      scan .bare ⟨tokens, current ++ w, true⟩ rest := by
  induction w generalizing current with
  | nil => simp
  | cons c w ih =>
    rw [scan_plain (fun d hd => (h d hd).1) (h c List.mem_cons_self).2 hrest]
    refine (ih (fun d hd => h d (List.mem_cons_of_mem c hd)) _).trans ?_
    simp

theorem Spells.nil : Spells [] [] := ⟨by simp, fun tokens rest _ => by simp [collapse]⟩

theorem Spells.word {w : Text} (hne : w ≠ []) (h : ∀ c ∈ w, IsBare c ∧ isJsSpace c = false) :
    Spells w [w] := by
  refine ⟨?_, fun tokens rest hrest => ?_⟩
  · intro c hc
    have hspace := (h c (List.mem_of_mem_head? hc)).2
    constructor <;> rintro rfl <;> exact absurd hspace (by decide)
  · rw [collapse_of_bare fun c hc => (h c hc).1, ← scan_push hrest]
    obtain ⟨c, w, rfl⟩ := List.exists_cons_of_ne_nil hne
    rw [scan_plain (fun d hd => (h d hd).1) (h c List.mem_cons_self).2 hrest]
    exact scan_word (fun d hd => h d (List.mem_cons_of_mem c hd)) tokens hrest [c]

/-- Two texts with a gap between them. -/
theorem Spells.append {s t gap : Text} {ws vs : List Text} (hs : Spells s ws) (ht : Spells t vs)
    (hgap : IsGap gap) : Spells (s ++ gap ++ t) (ws ++ vs) := by
  have hgapHead : ∀ c ∈ (gap ++ t).head?, c ≠ '\n' ∧ c ≠ '\r' := by
    have hne : gap ≠ [] := fun h => hgap.nonempty (by rw [h]; rfl)
    rw [List.head?_append_of_ne_nil _ hne]
    exact hgap.starts
  refine ⟨?_, fun tokens rest hrest => ?_⟩
  · rw [List.append_assoc]
    rcases s with _ | ⟨c, s⟩
    · exact hgapHead
    · exact hs.starts
  · rw [List.append_assoc, collapse_append hgapHead, collapse_append ht.starts,
      List.append_assoc, List.append_assoc, hs.reads tokens _ (.append hgap.nonempty hgap.blank _),
      scan_blank hgap.blank, ht.reads _ rest hrest, List.append_assoc]

/-- A text that is indented. -/
theorem Spells.indent {t gap : Text} {ws : List Text} (ht : Spells t ws) (hgap : IsGap gap) :
    Spells (gap ++ t) ws := by
  simpa using Spells.nil.append ht hgap

/-- Texts that are joined. -/
theorem Spells.intercalate {gap : Text} (hgap : IsGap gap) {texts : List Text}
    {words : List (List Text)} (h : List.Forall₂ Spells texts words) :
    Spells (List.intercalate gap texts) words.flatten := by
  induction h with
  | nil => exact Spells.nil
  | @cons t ws texts words ht htail ih =>
    cases htail with
    | nil => simpa using ht
    | @cons u vs texts words hu htail =>
      rw [List.intercalate_cons_cons]
      exact ht.append ih hgap

/-- The words of a text are its tokens. -/
theorem Spells.tokenize {text : Text} {words : List Text} (h : Spells text words) :
    shellTokenize text = some words := by
  have hreads := h.reads [] [] (by simp [Ends])
  rw [List.append_nil] at hreads
  exact hreads

/-! ## A list of arguments -/

theorem isGap_blank : IsGap [' '] := ⟨by simp, by simp [collapse], by simp [collapse]; decide⟩

theorem isGap_newline : IsGap ['\\', '\n', ' ', ' '] :=
  ⟨by simp, by simp [collapse], by simp [collapse]; decide⟩

theorem isGap_continued : IsGap [' ', '\\', '\n'] :=
  ⟨by simp, by simp [collapse], by simp [collapse]; decide⟩

theorem tokenize_quoted (s : Text) : shellTokenize (shellQuote s) = some [collapse s] :=
  (Spells.quote s).tokenize

/-- Each argument is read back without its continued lines. -/
theorem tokenize_join {gap : Text} (hgap : IsGap gap) (ss : List Text) :
    shellTokenize (List.intercalate gap (ss.map shellQuote)) = some (ss.map collapse) := by
  have hall : List.Forall₂ Spells (ss.map shellQuote) (ss.map fun s => [collapse s]) := by
    rw [List.forall₂_map_left_iff, List.forall₂_map_right_iff]
    exact List.forall₂_same.mpr fun s _ => Spells.quote s
  rw [(Spells.intercalate hgap hall).tokenize]
  rw [← List.flatMap_def, List.map_eq_flatMap]

/-! ## The copied command -/

/-- An option of the command, with the value that is quoted. -/
structure CurlOption where
  flag : Text
  value : Option Text

namespace CurlOption

def text (o : CurlOption) : Text :=
  match o.value with
  | none => o.flag
  | some value => o.flag ++ ' ' :: shellQuote value

def words (o : CurlOption) : List Text := o.flag :: o.value.toList

end CurlOption

def credOptions (mode : Option Text) (cred : Credentials) : List CurlOption :=
  mode.toList.map (⟨·, none⟩) ++
    [⟨"-u".toList, some (cred.username ++ ':' :: cred.password)⟩]

def authOptions (req : CurlRequest) : List CurlOption :=
  match req.digestAuth, req.ntlmAuth, req.basicAuth with
  | some cred, _, _ => credOptions (some "--digest".toList) cred
  | none, some cred, _ => credOptions (some "--ntlm".toList) cred
  | none, none, some cred => credOptions none cred
  | none, none, none => []

def cookieOptions (req : CurlRequest) : List CurlOption :=
  if req.cookies = [] then []
  else [⟨"-b".toList, some
    (List.intercalate [';', ' '] (req.cookies.map fun c => c.name ++ '=' :: c.value))⟩]

def headerOptions (headers : List CurlHeader) : List CurlOption :=
  headers.map fun h => ⟨"-H".toList, some (h.name ++ ": ".toList ++ h.value)⟩

def bodyOptions (body : Option CurlBody) : List CurlOption :=
  body.toList.map fun body => ⟨"--data-raw".toList, some body.text⟩

/-- What the command says after its URL. -/
def curlOptions (lower : Text → Text) (req : CurlRequest) : List CurlOption :=
  let body := req.body.filter fun body => decide (body.text ≠ [])
  headerOptions (body.elim req.headers (headersWithType lower req)) ++ authOptions req ++
    cookieOptions req ++ bodyOptions body

/-- The URL, the headers, the credentials, the cookies and the body, as they are quoted. -/
def quotedArguments (lower : Text → Text) (req : CurlRequest) : List Text :=
  req.url :: (curlOptions lower req).flatMap CurlOption.words

/-- The method is the one part of the command that is not quoted. -/
def methodFlag (req : CurlRequest) : List Text :=
  if req.method ≠ "GET".toList ∨ req.body.filter (fun body => decide (body.text ≠ [])) ≠ none then
    ["-X ".toList ++ req.method]
  else []

theorem text_credOptions (mode : Option Text) (cred : Credentials) :
    (credOptions mode cred).map CurlOption.text = credFlag mode cred := by
  cases mode <;> rfl

theorem text_authOptions (req : CurlRequest) :
    (authOptions req).map CurlOption.text = authFlags req := by
  rw [authOptions, authFlags]
  cases req.digestAuth <;> cases req.ntlmAuth <;> cases req.basicAuth <;>
    first | exact text_credOptions _ _ | rfl

theorem text_cookieOptions (req : CurlRequest) :
    (cookieOptions req).map CurlOption.text = cookieLines req := by
  rw [cookieOptions, cookieLines]
  split <;> rfl

/-- The command is its head and its options. -/
theorem formatCurl_eq (lower : Text → Text) (req : CurlRequest) : formatCurl lower req =
    List.intercalate [' ', '\\', '\n']
      (List.intercalate [' '] ("curl".toList :: methodFlag req ++ [shellQuote req.url]) ::
        (curlOptions lower req).map fun o => [' ', ' '] ++ o.text) := by
  have hbody : ∀ body : Option CurlBody,
      (bodyOptions body).map CurlOption.text =
        body.toList.map fun body => "--data-raw ".toList ++ shellQuote body.text := by
    intro body
    cases body <;> rfl
  have hheaders : ∀ headers : List CurlHeader, (headerOptions headers).map CurlOption.text =
      headers.map fun h => "-H ".toList ++ shellQuote (h.name ++ ": ".toList ++ h.value) := by
    intro headers
    rw [headerOptions, List.map_map]
    rfl
  have hindent : ∀ os : List CurlOption, (os.map fun o => [' ', ' '] ++ o.text) =
      (os.map CurlOption.text).map (' ' :: ' ' :: ·) := by
    intro os
    rw [List.map_map]
    rfl
  have htext : ∀ body : Option CurlBody, ∀ headers : List CurlHeader,
      (headerOptions headers ++ authOptions req ++ cookieOptions req ++ bodyOptions body).map
        CurlOption.text =
      (headers.map fun h => "-H ".toList ++ shellQuote (h.name ++ ": ".toList ++ h.value)) ++
        authFlags req ++ cookieLines req ++
        body.toList.map fun body => "--data-raw ".toList ++ shellQuote body.text := by
    intro body headers
    rw [List.map_append, List.map_append, List.map_append, hbody, hheaders, text_authOptions,
      text_cookieOptions]
  rw [hindent, curlOptions, htext, formatCurl, methodFlag]
  simp only [ne_eq, List.map_eq_nil_iff, Option.toList_eq_nil_iff]
  rfl

/-- A word that needs no quotes. -/
def isPlainWord (w : Text) : Bool :=
  w ≠ [] && w.all fun c => c ≠ '\'' && c ≠ '"' && c ≠ '\\' && !isJsSpace c

theorem isBare_of_isPlainWord {w : Text} (hw : isPlainWord w = true) :
    ∀ c ∈ w, IsBare c ∧ isJsSpace c = false := by
  intro c hc
  rw [isPlainWord, Bool.and_eq_true, List.all_eq_true] at hw
  simpa [IsBare, and_assoc] using hw.2 c hc

theorem Spells.plain {w : Text} (hw : isPlainWord w = true) : Spells w [w] :=
  .word (by rintro rfl; exact absurd hw (by decide)) (isBare_of_isPlainWord hw)

theorem collapse_plain {w : Text} (hw : isPlainWord w = true) : collapse w = w :=
  collapse_of_bare fun c hc => (isBare_of_isPlainWord hw c hc).1

/-- The flags of the command need no quotes. -/
theorem isPlainWord_flag {lower : Text → Text} {req : CurlRequest} {o : CurlOption}
    (h : o ∈ curlOptions lower req) : isPlainWord o.flag = true := by
  have hcred : ∀ mode cred, (mode = none ∨ mode = some "--digest".toList ∨
      mode = some "--ntlm".toList) → ∀ o ∈ credOptions mode cred, isPlainWord o.flag = true := by
    rintro mode cred (rfl | rfl | rfl) o ho <;> simp [credOptions] at ho
    · subst ho
      exact (by decide : isPlainWord "-u".toList = true)
    · rcases ho with rfl | rfl
      · exact (by decide : isPlainWord "--digest".toList = true)
      · exact (by decide : isPlainWord "-u".toList = true)
    · rcases ho with rfl | rfl
      · exact (by decide : isPlainWord "--ntlm".toList = true)
      · exact (by decide : isPlainWord "-u".toList = true)
  simp only [curlOptions, List.mem_append] at h
  rcases h with ((h | h) | h) | h
  · obtain ⟨header, -, rfl⟩ := List.mem_map.mp h
    exact (by decide : isPlainWord "-H".toList = true)
  · rw [authOptions] at h
    split at h
    · exact hcred _ _ (by simp) o h
    · exact hcred _ _ (by simp) o h
    · exact hcred _ _ (by simp) o h
    · cases h
  · rw [cookieOptions] at h
    split_ifs at h
    · cases h
    · obtain rfl := List.mem_singleton.mp h
      exact (by decide : isPlainWord "-b".toList = true)
  · obtain ⟨body, -, rfl⟩ := List.mem_map.mp h
    exact (by decide : isPlainWord "--data-raw".toList = true)

theorem CurlOption.spells {o : CurlOption} (h : isPlainWord o.flag = true) :
    Spells o.text (o.words.map collapse) := by
  rcases o with ⟨flag, value⟩
  rw [words, List.map_cons, collapse_plain h]
  cases value with
  | none => exact .plain h
  | some value => simpa [CurlOption.text] using (Spells.plain h).append (.quote value) isGap_blank

/-- The URL, the headers, the credentials, the cookies and the body are read back without their
continued lines. -/
theorem tokenize_formatCurl (lower : Text → Text) (req : CurlRequest)
    (hmethod : ∀ c ∈ req.method, IsBare c) : ∃ words, shellTokenize (formatCurl lower req) =
      some ("curl".toList :: words ++ (quotedArguments lower req).map collapse) := by
  have hflag : ∃ words, List.Forall₂ Spells (methodFlag req) words := by
    rw [methodFlag]
    split
    · have hbare : ∀ c ∈ "-X ".toList ++ req.method, IsBare c := by
        intro c hc
        rcases List.mem_append.mp hc with hc | hc
        · simp only [String.reduceToList, List.mem_cons, List.not_mem_nil, or_false] at hc
          rcases hc with rfl | rfl | rfl <;> exact ⟨by decide, by decide, by decide⟩
        · exact hmethod c hc
      obtain ⟨words, hwords⟩ := Spells.words (by simp) hbare
      exact ⟨[words], .cons hwords .nil⟩
    · exact ⟨[], .nil⟩
  obtain ⟨words, hwords⟩ := hflag
  have hparts : List.Forall₂ Spells ("curl".toList :: methodFlag req ++ [shellQuote req.url])
      (["curl".toList] :: words ++ [[collapse req.url]]) :=
    .cons (.plain (by decide)) (List.rel_append hwords (.cons (.quote req.url) .nil))
  have hhead := Spells.intercalate isGap_blank hparts
  have hoptions : List.Forall₂ Spells ((curlOptions lower req).map fun o => [' ', ' '] ++ o.text)
      ((curlOptions lower req).map fun o => o.words.map collapse) := by
    rw [List.forall₂_map_left_iff, List.forall₂_map_right_iff]
    refine List.forall₂_same.mpr fun o ho => ?_
    exact (CurlOption.spells (isPlainWord_flag ho)).indent
      ⟨by simp, by simp [collapse], by simp [collapse]; decide⟩
  refine ⟨words.flatten, ?_⟩
  rw [formatCurl_eq, (Spells.intercalate isGap_continued (.cons hhead hoptions)).tokenize]
  simp [quotedArguments, List.flatMap_def, List.map_flatten]
  rfl

theorem map_collapse_eq_iff (ss : List Text) : ss.map collapse = ss ↔ ∀ s ∈ ss, ¬ Continued s := by
  induction ss with
  | nil => simp
  | cons s ss ih => simp [collapse_eq_self_iff, ih]

/-- What is quoted and joined comes back exactly when no text has a backslash directly before a
line break: the first pass deletes these also between quotes. -/
theorem copied_tokens_iff (s : Text) (ss : List Text) (gap : Text)
    (hgap : gap = [' '] ∨ gap = ['\\', '\n', ' ', ' ']) (lower : Text → Text) (req : CurlRequest)
    (hmethod : ∀ c ∈ req.method, IsBare c) :
    (shellTokenize (shellQuote s) = some [s] ↔ ¬ Continued s) ∧
    (shellTokenize (List.intercalate gap (ss.map shellQuote)) = some ss ↔
      ∀ s ∈ ss, ¬ Continued s) ∧
    ((∃ words, shellTokenize (formatCurl lower req) =
        some ("curl".toList :: words ++ quotedArguments lower req)) ↔
      ∀ s ∈ quotedArguments lower req, ¬ Continued s) := by
  refine ⟨?_, ?_, ?_⟩
  · simp [tokenize_quoted, collapse_eq_self_iff]
  · have hgap : IsGap gap := by
      rcases hgap with rfl | rfl
      · exact isGap_blank
      · exact isGap_newline
    rw [tokenize_join hgap, Option.some_inj, map_collapse_eq_iff]
  · obtain ⟨words, hwords⟩ := tokenize_formatCurl lower req hmethod
    rw [← map_collapse_eq_iff, hwords]
    constructor
    · rintro ⟨others, h⟩
      exact (List.append_inj' (Option.some.inj h) (by simp)).2
    · intro h
      exact ⟨words, by rw [h]⟩

/-- The body has a continued line. -/
def scriptRequest : CurlRequest where
  method := "POST".toList
  url := "https://x.dev/run".toList
  headers := []
  body := some ⟨.text, "make \\\n all".toList⟩
  basicAuth := none
  digestAuth := none
  ntlmAuth := none

theorem copied_tokens_script :
    (shellTokenize (shellQuote "it's".toList) = some ["it's".toList] ↔ ¬ Continued "it's".toList) ∧
    (shellTokenize (List.intercalate [' '] (["a b".toList, []].map shellQuote)) =
      some ["a b".toList, []] ↔ ∀ s ∈ ["a b".toList, []], ¬ Continued s) ∧
    ((∃ words, shellTokenize (formatCurl (List.map Char.toLower) scriptRequest) =
        some ("curl".toList :: words ++
          quotedArguments (List.map Char.toLower) scriptRequest)) ↔
      ∀ s ∈ quotedArguments (List.map Char.toLower) scriptRequest, ¬ Continued s) :=
  copied_tokens_iff "it's".toList ["a b".toList, []] [' '] (Or.inl rfl) (List.map Char.toLower)
    scriptRequest (by
      intro c hc
      simp only [scriptRequest, String.reduceToList, List.mem_cons, List.not_mem_nil,
        or_false] at hc
      rcases hc with rfl | rfl | rfl | rfl <;> exact ⟨by decide, by decide, by decide⟩)

/-- A text with a continued line is pasted without it. -/
theorem continued_text_is_joined : ¬ ∀ s, shellTokenize (shellQuote s) = some [s] := by
  intro h
  exact absurd (h "make \\\n all".toList) (by decide)

/-- The method is not quoted: one with a quote leaves the command unreadable. -/
example : shellTokenize (formatCurl (List.map Char.toLower)
    { scriptRequest with method := "A'B".toList, body := none }) = none := by decide

end Voleeo.Curl
