import Voleeo.AuthSyntax
import Voleeo.Resolve.Str

/-!
# The parameters of a Digest challenge

The scanner goes over the text once. A backslash in a quoted value keeps its successor,
and neither of them is taken off.
-/
namespace Voleeo.Digest
open AuthSyntax OrderedMap
open Resolve (isWhitespace strTrim)

/-- The value behind an opening quote, and the text behind the closing one. -/
def readQuoted : Text → Text × Text
  | [] => ([], [])
  | '"' :: rest => ([], rest)
  | '\\' :: c :: rest => ('\\' :: c :: (readQuoted rest).1, (readQuoted rest).2)
  | c :: rest => (c :: (readQuoted rest).1, (readQuoted rest).2)

attribute [local simp] readQuoted

def readValue : Text → Text × Text
  | '"' :: rest => readQuoted rest
  | rest => (strTrim (rest.takeWhile (· ≠ ',')), rest.dropWhile (· ≠ ','))

/-- One round of the loop: a key, its value, and what is left. -/
def readParam (input : Text) : Option ((Text × Text) × Text) :=
  let input := input.dropWhile isListChar
  match input.dropWhile (· ≠ '=') with
  | [] => none
  | _ :: rest =>
    some (((strTrim (input.takeWhile (· ≠ '='))).map Char.toLower, (readValue rest).1),
      (readValue rest).2)

def paramRows : ℕ → Text → List (Text × Text)
  | 0, _ => []
  | fuel + 1, input =>
    match readParam input with
    | none => []
    | some (row, rest) => row :: paramRows fuel rest

attribute [local simp] paramRows

def parseParams (input : Text) : OrderedMap Text Text :=
  ofList ((paramRows input.length input).filter fun row => row.1 ≠ [])

example : (parseParams " realm=\"a, b\", QOP = x ,nonce=\"n\\\"\"".toList).entries =
    [("realm".toList, "a, b".toList), ("qop".toList, "x".toList),
      ("nonce".toList, "n\\\"".toList)] := by decide

/-! ## Fuel -/

theorem readQuoted_length (s : Text) : (readQuoted s).2.length ≤ s.length := by
  induction s using readQuoted.induct with
  | case1 => simp [readQuoted]
  | case2 rest => simp [readQuoted]
  | case3 c rest ih =>
    simp only [readQuoted, List.length_cons]
    omega
  | case4 c rest hquote hescape ih =>
    rw [readQuoted.eq_4 c rest hquote hescape]
    exact ih.trans (Nat.le_succ _)

theorem readValue_length (s : Text) : (readValue s).2.length ≤ s.length := by
  rw [readValue.eq_def]
  split
  · exact (readQuoted_length _).trans (Nat.le_succ _)
  · exact (List.dropWhile_sublist _).length_le

theorem readParam_length {input rest : Text} {row : Text × Text}
    (h : readParam input = some (row, rest)) : rest.length < input.length := by
  have hfront := (List.dropWhile_sublist isListChar (l := input)).length_le
  have hkey := (List.dropWhile_sublist (fun c : Char => c ≠ '=')
    (l := input.dropWhile isListChar)).length_le
  simp only [readParam] at h
  split at h
  · cases h
  · rename_i c value heq
    cases h
    have hvalue := readValue_length value
    rw [heq, List.length_cons] at hkey
    omega

/-- The rows of a text, with as much fuel as it needs. -/
def rows (input : Text) : List (Text × Text) := paramRows input.length input

theorem paramRows_fuel {input : Text} :
    ∀ {fuel : ℕ}, input.length ≤ fuel → paramRows fuel input = rows input := by
  suffices h : ∀ (n m : ℕ) (input : Text), input.length ≤ n → input.length ≤ m →
      paramRows n input = paramRows m input from fun {fuel} hfuel => h _ _ _ hfuel le_rfl
  intro n
  induction n with
  | zero =>
    intro m input hn _
    obtain rfl := List.length_eq_zero_iff.mp (Nat.le_zero.mp hn)
    cases m <;> rfl
  | succ n ih =>
    intro m input hn hm
    cases m with
    | zero =>
      obtain rfl := List.length_eq_zero_iff.mp (Nat.le_zero.mp hm)
      rfl
    | succ m =>
      rw [paramRows, paramRows]
      cases hread : readParam input with
      | none => rfl
      | some read =>
        obtain ⟨row, rest⟩ := read
        have hlt := readParam_length hread
        exact congrArg (row :: ·) (ih m rest (by omega) (by omega))

theorem rows_of_none {input : Text} (h : readParam input = none) : rows input = [] := by
  rw [← paramRows_fuel (Nat.le_succ input.length), paramRows, h]

theorem rows_of_some {input rest : Text} {row : Text × Text}
    (h : readParam input = some (row, rest)) : rows input = row :: rows rest := by
  have hlt := readParam_length h
  rw [← paramRows_fuel (Nat.le_succ input.length), paramRows, h]
  exact congrArg (row :: ·) (paramRows_fuel (by omega))

theorem parseParams_eq (input : Text) :
    parseParams input = ofList ((rows input).filter fun row => row.1 ≠ []) := rfl

/-! ## Trimming -/

theorem isWhitespace_of_token {c : Char} (h : isTokenChar c = true) : isWhitespace c = false := by
  obtain ⟨hlow, hhigh⟩ := isTokenChar_range h
  simp only [isWhitespace, Bool.or_eq_false_iff, Bool.and_eq_false_iff, decide_eq_false_iff_not,
    beq_eq_false_iff_ne]
  omega

theorem rdropWhile_append {p : Char → Bool} {s blanks : Text} (hblanks : ∀ c ∈ blanks, p c = true) :
    (s ++ blanks).rdropWhile p = s.rdropWhile p := by
  rw [List.rdropWhile, List.reverse_append,
    List.dropWhile_append_of_pos fun c hc => hblanks c (List.mem_reverse.mp hc)]
  rfl

theorem strTrim_of_edges {s : Text} (hne : s ≠ []) (hhead : isWhitespace (s.head hne) = false)
    (hlast : isWhitespace (s.getLast hne) = false) : strTrim s = s := by
  have hfront : s.dropWhile isWhitespace = s := by
    cases s with
    | nil => rfl
    | cons c s => exact List.dropWhile_cons_of_neg (by simpa using hhead)
  rw [strTrim, hfront, List.rdropWhile_eq_self_iff]
  intro _
  simpa using hlast

/-- A text that ends in blanks loses exactly these. -/
theorem strTrim_append {s blanks : Text} (hne : s ≠ []) (hs : ∀ c ∈ s, isWhitespace c = false)
    (hblanks : ∀ c ∈ blanks, isWhitespace c = true) : strTrim (s ++ blanks) = s := by
  have hfront : (s ++ blanks).dropWhile isWhitespace = s ++ blanks := by
    cases s with
    | nil => exact absurd rfl hne
    | cons c s => exact List.dropWhile_cons_of_neg (by simp [hs c List.mem_cons_self])
  rw [strTrim, hfront, rdropWhile_append hblanks, List.rdropWhile_eq_self_iff]
  intro hs'
  simpa using hs _ (List.getLast_mem hs')

theorem strTrim_token {s blanks : Text} (hs : IsToken s)
    (hblanks : ∀ c ∈ blanks, isWhitespace c = true) : strTrim (s ++ blanks) = s :=
  strTrim_append hs.1 (fun c hc => isWhitespace_of_token (hs.2 c hc)) hblanks

/-! ## Parameters in a row -/

theorem readQuoted_append {raw : Text} (hraw : IsQuoted raw) (rest : Text) :
    readQuoted (raw ++ '"' :: rest) = (raw, rest) := by
  induction hraw with
  | nil => rfl
  | plain hquote hescape _ ih =>
    rw [List.cons_append, readQuoted.eq_4 _ _ hquote fun c _ h => absurd h hescape, ih]
  | escaped _ ih => rw [List.cons_append, List.cons_append, readQuoted, ih]

theorem takeWhile_append_stop {p : Char → Bool} {s : Text} (hs : ∀ c ∈ s, p c = true) {stop : Char}
    (hstop : p stop = false) (rest : Text) : (s ++ stop :: rest).takeWhile p = s := by
  rw [List.takeWhile_append_of_pos hs, List.takeWhile_cons_of_neg (by simp [hstop]),
    List.append_nil]

theorem dropWhile_append_stop {p : Char → Bool} {s : Text} (hs : ∀ c ∈ s, p c = true) {stop : Char}
    (hstop : p stop = false) (rest : Text) : (s ++ stop :: rest).dropWhile p = stop :: rest := by
  rw [List.dropWhile_append_of_pos hs, List.dropWhile_cons_of_neg (by simp [hstop])]

/-- What may follow a parameter: nothing, or blanks and a comma. -/
def Follows (tail : Text) : Prop :=
  tail = [] ∨ ∃ blanks rest, tail = blanks ++ ',' :: rest ∧ ∀ c ∈ blanks, c = ' ' ∨ c = '\t'

/-- What a parameter leaves for the next round. -/
def leaves (value : AuthValue) (tail : Text) : Text :=
  match value with
  | .token .. => tail.dropWhile (· ≠ ',')
  | .quoted .. => tail

theorem readValue_text {value : AuthValue} {tail : Text} (htail : Follows tail) :
    readValue (value.text ++ tail) = (value.content, leaves value tail) := by
  cases value with
  | quoted raw hraw =>
    simp only [AuthValue.text, AuthValue.content, leaves, List.cons_append, List.append_assoc,
      List.nil_append, readValue]
    exact readQuoted_append hraw tail
  | token s hs =>
    have hcomma : ∀ c ∈ s, decide (c ≠ ',') = true := fun c hc =>
      decide_eq_true (hs.ne hc (by decide))
    have hread : readValue (s ++ tail) =
        (strTrim ((s ++ tail).takeWhile (· ≠ ',')), (s ++ tail).dropWhile (· ≠ ',')) := by
      cases s with
      | nil => exact absurd rfl hs.1
      | cons c s =>
        rw [List.cons_append, readValue]
        rintro rest heq
        exact hs.ne (c := c) (d := '"') List.mem_cons_self (by decide) (List.cons.inj heq).1
    simp only [AuthValue.text, AuthValue.content, leaves]
    rw [hread, List.takeWhile_append_of_pos hcomma, List.dropWhile_append_of_pos hcomma]
    refine congrArg (·, _) (strTrim_token hs ?_)
    rcases htail with rfl | ⟨blanks, rest, rfl, hblanks⟩
    · simp
    · rw [takeWhile_append_stop (fun c hc => ?_) (by decide)]
      · intro c hc
        rcases hblanks c hc with rfl | rfl <;> decide
      · rcases hblanks c hc with rfl | rfl <;> decide

theorem isListChar_of_token {c : Char} (h : isTokenChar c = true) : isListChar c = false := by
  rw [Bool.eq_false_iff]
  intro hlist
  rw [isListChar, Bool.or_eq_true, Bool.or_eq_true, beq_iff_eq, beq_iff_eq, beq_iff_eq] at hlist
  rcases hlist with (rfl | rfl) | rfl <;> exact absurd h (by decide)

/-- Whatever stands before `=` is the key. -/
theorem readParam_front {front : Text} (hlist : front.dropWhile isListChar = front)
    (hequals : ∀ c ∈ front, c ≠ '=') (value : AuthValue) {tail : Text} (htail : Follows tail) :
    readParam (front ++ '=' :: (value.text ++ tail)) =
      some (((strTrim front).map Char.toLower, value.content), leaves value tail) := by
  have hfront : (front ++ '=' :: (value.text ++ tail)).dropWhile isListChar =
      front ++ '=' :: (value.text ++ tail) := by
    cases front with
    | nil => rfl
    | cons c front =>
      rw [List.dropWhile_eq_self_iff] at hlist
      exact List.dropWhile_cons_of_neg (hlist (Nat.succ_pos _))
  have hkey : ∀ c ∈ front, decide (c ≠ '=') = true := fun c hc => decide_eq_true (hequals c hc)
  simp only [readParam]
  rw [hfront, dropWhile_append_stop hkey (by decide), takeWhile_append_stop hkey (by decide)]
  dsimp only
  rw [readValue_text htail]

theorem dropWhile_isListChar_of_token {c : Char} (h : isTokenChar c = true) (s : Text) :
    (c :: s).dropWhile isListChar = c :: s :=
  List.dropWhile_cons_of_neg (by simp [isListChar_of_token h])

theorem readParam_gap {gap : Text} (hgap : ∀ c ∈ gap, isListChar c = true) (input : Text) :
    readParam (gap ++ input) = readParam input := by
  simp only [readParam]
  rw [List.dropWhile_append_of_pos hgap]

theorem readParam_text {gap : Text} (hgap : ∀ c ∈ gap, isListChar c = true) (p : AuthParam)
    {tail : Text} (htail : Follows tail) :
    readParam (gap ++ (p.text ++ tail)) = some (p.row, leaves p.value tail) := by
  have hlist : p.name.dropWhile isListChar = p.name := by
    cases hname : p.name with
    | nil => rfl
    | cons c name =>
      exact dropWhile_isListChar_of_token (p.isToken.2 c (hname ▸ List.mem_cons_self)) name
  have htrim : strTrim p.name = p.name := by
    simpa using strTrim_token p.isToken (List.forall_mem_nil _)
  rw [readParam_gap hgap, AuthParam.text, List.append_assoc, List.cons_append,
    readParam_front hlist (fun c hc => p.isToken.ne hc (by decide)) p.value htail, htrim]
  rfl

theorem comma_split (sep : Comma) : ∃ blanks rest, sep.text = blanks ++ ',' :: rest ∧
    (∀ c ∈ blanks, c = ' ' ∨ c = '\t') ∧ ∀ c ∈ ',' :: rest, isListChar c = true := by
  obtain ⟨blanks, rest, heq, hfirst⟩ := List.eq_append_cons_of_mem sep.comma
  refine ⟨blanks, rest, heq, fun c hc => ?_, fun c hc => ?_⟩
  · have hlist := sep.listChars c (heq ▸ List.mem_append_left _ hc)
    rw [isListChar, Bool.or_eq_true, Bool.or_eq_true, beq_iff_eq, beq_iff_eq, beq_iff_eq] at hlist
    rcases hlist with h | rfl
    · exact h
    · exact absurd hc hfirst
  · exact sep.listChars c (heq ▸ List.mem_append_right _ hc)

theorem follows_moreText (more : List (Comma × AuthParam)) : Follows (moreText more) := by
  cases more with
  | nil => exact Or.inl rfl
  | cons next more =>
    obtain ⟨blanks, rest, heq, hblanks, _⟩ := comma_split next.1
    refine Or.inr ⟨blanks, rest ++ next.2.text ++ moreText more, ?_, hblanks⟩
    simp [moreText, heq]

/-- What a parameter leaves is read as the parameters behind it. -/
theorem rows_leaves (value : AuthValue) (more : List (Comma × AuthParam)) :
    rows (leaves value (moreText more)) = more.map fun next => next.2.row := by
  induction more generalizing value with
  | nil => cases value <;> rfl
  | cons next more ih =>
    obtain ⟨blanks, rest, heq, hblanks, hrest⟩ := comma_split next.1
    have hmore : moreText (next :: more) =
        next.1.text ++ (next.2.text ++ moreText more) := by simp [moreText]
    obtain ⟨gap, hgap, hleaves⟩ : ∃ gap : Text, (∀ c ∈ gap, isListChar c = true) ∧
        leaves value (moreText (next :: more)) = gap ++ (next.2.text ++ moreText more) := by
      cases value with
      | quoted raw hraw => exact ⟨next.1.text, next.1.listChars, hmore⟩
      | token s hs =>
        have hpos : ∀ c ∈ blanks, decide (c ≠ ',') = true := fun c hc => by
          rcases hblanks c hc with rfl | rfl <;> decide
        refine ⟨',' :: rest, hrest, ?_⟩
        rw [leaves, hmore, heq, List.append_assoc, List.cons_append,
          dropWhile_append_stop hpos (by decide)]
    rw [hleaves, rows_of_some (readParam_text hgap next.2 (follows_moreText more)), ih]
    rfl

/-- The scanner reads the parameters one after another, with their contents as they stand. -/
theorem rows_params {gap : Text} (hgap : ∀ c ∈ gap, isListChar c = true) (p : AuthParam)
    (more : List (Comma × AuthParam)) :
    rows (gap ++ (p.text ++ moreText more)) = p.row :: more.map fun next => next.2.row := by
  rw [rows_of_some (readParam_text hgap p (follows_moreText more)), rows_leaves]

/-- Without quotes and commas there is one parameter at most. -/
theorem rows_of_one {s : Text} (hquote : '"' ∉ s) (hcomma : ',' ∉ s) : (rows s).length ≤ 1 := by
  cases hread : readParam s with
  | none =>
    rw [rows_of_none hread]
    exact Nat.zero_le _
  | some read =>
    obtain ⟨row, rest⟩ := read
    have hrest : rest = [] := by
      simp only [readParam] at hread
      split at hread
      · cases hread
      · rename_i c value heq
        have hsub : ∀ d ∈ value, d ∈ s := fun d hd =>
          (List.dropWhile_sublist _).mem ((List.dropWhile_sublist _).mem
            (heq ▸ List.mem_cons_of_mem _ hd))
        cases hread
        rw [readValue.eq_def]
        split
        · exact absurd (hsub _ List.mem_cons_self) hquote
        · exact List.dropWhile_eq_nil_iff.mpr fun d hd =>
            decide_eq_true fun h => hcomma (h ▸ hsub d hd)
    rw [rows_of_some hread, hrest]
    exact le_rfl

end Voleeo.Digest
