import Voleeo.FormUrlEncoded
import Voleeo.Send.Auth

/-!
# Pieces of the query of the web app

The web app encodes a name, and a value except for the templates that are left in
it. A piece is read back unless such a template holds something that a parser of
the query does not take for itself, and no piece is read behind a fragment.
-/
namespace Voleeo.Send

/-- The matches of `{{[^}]*}}`, which the web app does not encode. `skip` counts the characters
that the last one still covers. -/
def queryTemplatesFrom : ℕ → Text → List Text
  | _, [] => []
  | skip + 1, _ :: rest => queryTemplatesFrom skip rest
  | 0, c :: rest =>
    match templateLength (c :: rest) with
    | some n => (c :: rest).take n :: queryTemplatesFrom (n - 1) rest
    | none => queryTemplatesFrom 0 rest

def queryTemplates (value : Text) : List Text := queryTemplatesFrom 0 value

/-- Nothing that a parser of the query does not take for itself. -/
def QuietTemplate (m : Text) : Prop := '&' ∉ m ∧ '#' ∉ m ∧ PlainComponent m

/-! ## What a parser reads in an encoded value -/

theorem encodeQueryFrom_skip (skip : ℕ) (s : Text) :
    encodeQueryFrom skip s = s.take skip ++ encodeQueryValue (s.drop skip) := by
  induction skip generalizing s with
  | zero => rfl
  | succ skip ih =>
    cases s with
    | nil => simp [encodeQueryFrom, encodeQueryValue]
    | cons c rest => rw [encodeQueryFrom, ih]; rfl

theorem queryTemplatesFrom_skip (skip : ℕ) (s : Text) :
    queryTemplatesFrom skip s = queryTemplates (s.drop skip) := by
  induction skip generalizing s with
  | zero => rfl
  | succ skip ih =>
    cases s with
    | nil => simp [queryTemplatesFrom, queryTemplates]
    | cons c rest => rw [queryTemplatesFrom, ih]; rfl

/-- A match is not empty and ends with two closing braces. -/
theorem templateLength_eq_some {s : Text} {n : ℕ} (h : templateLength s = some n) :
    ∃ front rest, s = front ++ '}' :: rest ∧ n = front.length + 1 := by
  unfold templateLength at h
  split at h
  · rename_i inner
    dsimp only at h
    split_ifs at h with hclose
    obtain ⟨rest, hrest⟩ := hclose
    cases h
    have hinner := List.take_append_drop (inner.takeWhile (· ≠ '}')).length inner
    rw [← hrest] at hinner
    refine ⟨'{' :: '{' :: inner.takeWhile (· ≠ '}') ++ ['}'], rest, ?_, by simp⟩
    conv_lhs => rw [← hinner]
    rw [← List.prefix_iff_eq_take.mp (List.takeWhile_prefix _)]
    simp
  · cases h

/-- A value is a template in front of a value, or a character in front of one. -/
theorem value_induction {P : Text → Prop} (nil : P [])
    (template : ∀ front rest, P rest →
      encodeQueryValue (front ++ '}' :: rest) = front ++ '}' :: encodeQueryValue rest →
      queryTemplates (front ++ '}' :: rest) = (front ++ ['}']) :: queryTemplates rest →
      P (front ++ '}' :: rest))
    (char : ∀ c rest, P rest →
      encodeQueryValue (c :: rest) = percentEncodeChar isUriMark c ++ encodeQueryValue rest →
      queryTemplates (c :: rest) = queryTemplates rest → P (c :: rest)) (s : Text) : P s := by
  induction hn : s.length using Nat.strong_induction_on generalizing s with
  | _ n ih =>
    subst hn
    match s with
    | [] => exact nil
    | c :: rest =>
      cases hlen : templateLength (c :: rest) with
      | none =>
        refine char c rest (ih rest.length (by simp) rest rfl) ?_ ?_
        · rw [encodeQueryValue, encodeQueryFrom, hlen]
          rfl
        · rw [queryTemplates, queryTemplatesFrom, hlen]
          rfl
      | some k =>
        obtain ⟨front, tail, hs, rfl⟩ := templateLength_eq_some hlen
        have hvalue : encodeQueryValue (c :: rest) = (c :: rest).take (front.length + 1) ++
            encodeQueryValue ((c :: rest).drop (front.length + 1)) := by
          rw [encodeQueryValue, encodeQueryFrom, hlen]
          exact congrArg (c :: ·) (encodeQueryFrom_skip front.length rest)
        have htemplates : queryTemplates (c :: rest) = (c :: rest).take (front.length + 1) ::
            queryTemplates ((c :: rest).drop (front.length + 1)) := by
          rw [queryTemplates, queryTemplatesFrom, hlen]
          exact congrArg (_ :: ·) (queryTemplatesFrom_skip front.length rest)
        rw [hs] at hvalue htemplates ih ⊢
        have htake : (front ++ '}' :: tail).take (front.length + 1) = front ++ ['}'] := by
          simp [List.take_append]
        have hdrop : (front ++ '}' :: tail).drop (front.length + 1) = tail := by
          simp [List.drop_append]
        rw [htake, hdrop] at hvalue htemplates
        exact template front tail (ih tail.length (by simp; omega) tail rfl)
          (by rw [hvalue, List.append_assoc, List.singleton_append]) htemplates

theorem hexValue_brace : Crypto.hexValue '}' = none := by decide

theorem decodeComponent_brace (front rest : Text) :
    decodeComponent (front ++ '}' :: rest) =
      decodeComponent front ++ (String.utf8EncodeChar '}' ++ decodeComponent rest) := by
  have hhead : ∀ c ∈ ('}' :: rest).head?, Crypto.hexValue c = none := by
    intro c hc
    obtain rfl : '}' = c := by simpa using hc
    exact hexValue_brace
  rw [decodeComponent_append hhead, decodeComponent_cons (by decide) (by decide)]

theorem quietTemplate_brace {front : Text} :
    QuietTemplate (front ++ ['}']) ↔ '&' ∉ front ∧ '#' ∉ front ∧ PlainComponent front := by
  have hplain : PlainComponent (front ++ ['}']) ↔ PlainComponent front := by
    rw [← decodeComponent_eq_utf8_iff, ← decodeComponent_eq_utf8_iff, decodeComponent_brace,
      utf8_append, utf8_cons, utf8_nil, decodeComponent, List.append_left_inj]
  rw [QuietTemplate, hplain]
  simp

theorem not_mem_encodedChar {d : Char} (hkeep : isUriMark d = false) (hpercent : d ≠ '%')
    (c : Char) : d ∉ percentEncodeChar isUriMark c := by
  intro hd
  rcases mem_percentEncodeChar hd with h | h | h
  · rw [hkeep] at h
    cases h
  · exact hpercent h
  · rw [isUriMark, isUnreserved, h] at hkeep
    simp at hkeep

theorem cut_encodedChar (c : Char) (t : Text) :
    cut (percentEncodeChar isUriMark c ++ t) = percentEncodeChar isUriMark c ++ cut t :=
  cut_append (not_mem_encodedChar (by decide) (by decide) c)
    (not_mem_encodedChar (by decide) (by decide) c)

theorem decode_encodedChar (c : Char) (t : Text) :
    decodeComponent (percentEncodeChar isUriMark c ++ t) =
      String.utf8EncodeChar c ++ decodeComponent t :=
  decodeComponent_percentEncodeChar (by decide) (by decide) c t

/-- A template that is cut is shorter than the value. -/
theorem length_cut_lt {front t : Text} (h : '&' ∈ front ∨ '#' ∈ front) (rest : Text) :
    (decodeComponent (cut (front ++ t))).length < (utf8 (front ++ '}' :: rest)).length := by
  have hle := length_decodeComponent_le (cut (front ++ t))
  obtain ⟨tail, htail⟩ := cut_prefix h t
  have hpos := length_utf8EncodeChar_pos '}'
  rw [utf8_append, utf8_cons, List.length_append, List.length_append]
  conv_rhs => rw [← htail, utf8_append, List.length_append]
  omega

theorem length_readValue_le (v : Text) :
    (decodeComponent (cut (encodeQueryValue v))).length ≤ (utf8 v).length := by
  induction v using value_induction with
  | nil => rfl
  | template front rest ih hvalue _ =>
    rw [hvalue]
    by_cases hcut : '&' ∈ front ∨ '#' ∈ front
    · exact (length_cut_lt hcut rest).le
    · rw [not_or] at hcut
      rw [cut_append hcut.1 hcut.2, ← List.singleton_append,
        cut_append (by decide) (by decide), List.singleton_append, decodeComponent_brace,
        utf8_append, utf8_cons]
      have hle := length_decodeComponent_le front
      simp only [List.length_append]
      omega
  | char c rest ih hvalue _ =>
    rw [hvalue, cut_encodedChar, decode_encodedChar, utf8_cons, List.length_append,
      List.length_append]
    omega

/-- A value is read back exactly when nothing but quiet templates is left in it. -/
theorem readValue_iff (v : Text) :
    decodeComponent (cut (encodeQueryValue v)) = utf8 v ↔
      ∀ m ∈ queryTemplates v, QuietTemplate m := by
  induction v using value_induction with
  | nil => exact iff_of_true rfl (by simp [queryTemplates, queryTemplatesFrom])
  | template front rest ih hvalue htemplates =>
    rw [hvalue, htemplates, List.forall_mem_cons, quietTemplate_brace]
    by_cases hcut : '&' ∈ front ∨ '#' ∈ front
    · refine iff_of_false (fun heq => ?_) fun h => ?_
      · have hlt := @length_cut_lt _ ('}' :: encodeQueryValue rest) hcut rest
        rw [heq] at hlt
        omega
      · exact hcut.elim h.1.1 h.1.2.1
    · rw [not_or] at hcut
      rw [cut_append hcut.1 hcut.2, ← List.singleton_append,
        cut_append (by decide) (by decide), List.singleton_append, decodeComponent_brace,
        utf8_append, utf8_cons, ← ih, ← decodeComponent_eq_utf8_iff]
      have hfront := length_decodeComponent_le front
      have hrest := length_readValue_le rest
      constructor
      · intro heq
        have hlen := congrArg List.length heq
        simp only [List.length_append] at hlen
        obtain ⟨h1, h2⟩ := List.append_inj heq (by omega)
        exact ⟨⟨hcut.1, hcut.2, h1⟩, List.append_cancel_left h2⟩
      · rintro ⟨⟨-, -, h1⟩, h2⟩
        rw [h1, h2]
  | char c rest ih hvalue htemplates =>
    rw [hvalue, htemplates, cut_encodedChar, decode_encodedChar, utf8_cons,
      List.append_right_inj, ih]

theorem not_mem_encodeQueryValue {d : Char} (hkeep : isUriMark d = false) (hpercent : d ≠ '%')
    (hbrace : d ≠ '}') {v : Text} (h : ∀ m ∈ queryTemplates v, d ∉ m) :
    d ∉ encodeQueryValue v := by
  induction v using value_induction with
  | nil => simp [encodeQueryValue, encodeQueryFrom]
  | template front rest ih hvalue htemplates =>
    rw [htemplates, List.forall_mem_cons] at h
    rw [hvalue, List.mem_append, List.mem_cons, not_or, not_or]
    exact ⟨fun hd => h.1 (List.mem_append_left _ hd), hbrace, ih h.2⟩
  | char c rest ih hvalue htemplates =>
    rw [htemplates] at h
    rw [hvalue, List.mem_append, not_or]
    exact ⟨not_mem_encodedChar hkeep hpercent c, ih h⟩

/-! ## Pieces of the query of the web app -/

/-- A piece with the name and the value that it stands for. A parameter without a value has no
equals sign. -/
structure QueryPiece where
  name : Text
  value : Text
  text : Text
  text_eq : text = encodeURIComponent name ++ '=' :: encodeQueryValue value ∨
    (text = encodeURIComponent name ∧ value = [] ∧ name ≠ [])

namespace QueryPiece

def pair (q : QueryPiece) : QueryPair := (utf8 q.name, utf8 q.value)

def Quiet (q : QueryPiece) : Prop := ∀ m ∈ queryTemplates q.value, QuietTemplate m

theorem not_mem_name {d : Char} (hkeep : isUriMark d = false) (hpercent : d ≠ '%') (name : Text) :
    d ∉ encodeURIComponent name := by
  intro hd
  obtain ⟨c, -, hc⟩ := List.mem_flatMap.mp hd
  exact not_mem_encodedChar hkeep hpercent c hc

theorem decode_name (name : Text) : decodeComponent (encodeURIComponent name) = utf8 name := by
  have h := decodeComponent_percentEncode
    (show isUriMark '+' = false by decide) (show isUriMark '%' = false by decide) name []
  rwa [List.append_nil, decodeComponent, List.append_nil] at h

theorem cut_name (name t : Text) :
    cut (encodeURIComponent name ++ t) = encodeURIComponent name ++ cut t :=
  cut_append (not_mem_name (by decide) (by decide) name) (not_mem_name (by decide) (by decide) name)

theorem cut_value (name value : Text) :
    cut (encodeURIComponent name ++ '=' :: encodeQueryValue value) =
      encodeURIComponent name ++ '=' :: cut (encodeQueryValue value) := by
  rw [cut_name, ← List.singleton_append, cut_append (by decide) (by decide)]
  rfl

theorem cut_ne_nil (q : QueryPiece) : cut q.text ≠ [] := by
  rcases q.text_eq with h | ⟨h, -, hne⟩
  · rw [h, cut_value]
    simp
  · have hcut := cut_name q.name []
    rw [List.append_nil] at hcut
    rw [h, hcut]
    exact List.append_ne_nil_of_left_ne_nil (percentEncode_ne_nil hne) _

/-- A piece is read as its pair exactly when it is quiet. -/
theorem formPair_cut_iff (q : QueryPiece) : formPair (cut q.text) = q.pair ↔ q.Quiet := by
  have hsign : '=' ∉ encodeURIComponent q.name := not_mem_name (by decide) (by decide) q.name
  rcases q.text_eq with h | ⟨h, hvalue, -⟩
  · rw [h, cut_value, formPair_append hsign, decode_name, pair, Prod.mk.injEq, readValue_iff]
    exact and_iff_right rfl
  · have hcut := cut_name q.name []
    rw [List.append_nil] at hcut
    rw [h, hcut, pair, Quiet, hvalue]
    refine iff_of_true ?_ (by simp [queryTemplates, queryTemplatesFrom])
    rw [show cut [] = [] from rfl, List.append_nil, formPair_name hsign, decode_name]
    rfl

theorem robust (q : QueryPiece) : Robust q.text q.pair := by
  refine ⟨q.cut_ne_nil, fun h => ?_⟩
  have hquiet := q.formPair_cut_iff.mp h
  have hvalue : ∀ d : Char, isUriMark d = false → d ≠ '%' → d ≠ '}' → d ≠ '=' →
      (∀ m, QuietTemplate m → d ∉ m) → d ∉ q.text := by
    intro d hkeep hpercent hbrace hsign hm
    have hname := not_mem_name hkeep hpercent q.name
    rcases q.text_eq with htext | ⟨htext, -, -⟩
    · rw [htext, List.mem_append, List.mem_cons, not_or, not_or]
      exact ⟨hname, hsign, not_mem_encodeQueryValue hkeep hpercent hbrace
        fun m hmem => hm m (hquiet m hmem)⟩
    · rwa [htext]
  exact ⟨hvalue '&' (by decide) (by decide) (by decide) (by decide) fun m hm => hm.1,
    hvalue '#' (by decide) (by decide) (by decide) (by decide) fun m hm => hm.2.1⟩

theorem parseQuery_iff (qs : List QueryPiece) :
    parseQuery ((List.intercalate ['&'] (qs.map text)).takeWhile (· ≠ '#')) = qs.map pair ↔
      ∀ q ∈ qs, q.Quiet := by
  rw [parseQuery_pieces_iff, List.forall₂_map_left_iff, List.forall₂_map_right_iff,
    List.forall₂_same]
  · exact forall₂_congr fun q _ => q.formPair_cut_iff
  · rw [List.forall₂_map_left_iff, List.forall₂_map_right_iff, List.forall₂_same]
    exact fun q _ => q.robust

/-- Behind an embedded query and a second question mark, the first piece is not read. -/
theorem parseQuery_glued_ne (query : Text) (q : QueryPiece) (qs : List QueryPiece)
    (pairs : List QueryPair) :
    parseQuery (query ++ ('?' :: List.intercalate ['&'] ((q :: qs).map text)).takeWhile
      (· ≠ '#')) ≠ parseQuery query ++ (q.pair :: pairs) := by
  obtain ⟨tail, htail⟩ : ∃ tail, List.intercalate ['&'] ((q :: qs).map text) =
      encodeURIComponent q.name ++ tail := by
    have hfirst : ∃ tail, List.intercalate ['&'] ((q :: qs).map text) = q.text ++ tail := by
      cases qs with
      | nil => exact ⟨[], by simp⟩
      | cons q' qs =>
        exact ⟨['&'] ++ List.intercalate ['&'] ((q' :: qs).map text), by
          rw [List.map_cons, List.map_cons, List.intercalate_cons_cons, List.append_assoc]⟩
    obtain ⟨tail, htail⟩ := hfirst
    rcases q.text_eq with h | ⟨h, -, -⟩
    · exact ⟨_, by rw [htail, h, List.append_assoc]⟩
    · exact ⟨tail, by rw [htail, h]⟩
  have hhead : ∀ last, '&' ∉ last → (parseQuery (last ++ ('?' ::
      List.intercalate ['&'] ((q :: qs).map text)).takeWhile (· ≠ '#'))).head? =
      some (formPair (last ++ '?' :: (encodeURIComponent q.name ++ cut tail))) := by
    intro last hlast
    have htake : (last ++ ('?' :: List.intercalate ['&'] ((q :: qs).map text)).takeWhile
        (· ≠ '#')).takeWhile (· ≠ '&') =
        last ++ '?' :: (encodeURIComponent q.name ++ cut tail) := by
      rw [List.takeWhile_append_of_pos fun c hc => decide_eq_true (ne_of_mem_of_not_mem hc hlast),
        takeWhile_takeWhile_eq_cut, htail, ← List.singleton_append,
        cut_append (by decide) (by decide), cut_name]
      rfl
    rw [← htake]
    exact head?_parseQuery (by rw [htake]; simp)
  have hpiece : ∀ last, '&' ∉ last → parseQuery (last ++ ('?' ::
      List.intercalate ['&'] ((q :: qs).map text)).takeWhile (· ≠ '#')) ≠
      parseQuery last ++ (q.pair :: pairs) := by
    intro last hlast heq
    have hfirst := hhead last hlast
    rw [heq] at hfirst
    by_cases hne : last = []
    · subst hne
      have hname := congrArg Prod.fst (Option.some.inj hfirst)
      have hlen := congrArg List.length hname
      have hsign : ∀ c ∈ encodeURIComponent q.name, decide (c ≠ '=') = true := fun c hc =>
        decide_eq_true (ne_of_mem_of_not_mem hc (not_mem_name (by decide) (by decide) q.name))
      rw [List.nil_append, formPair, List.takeWhile_cons_of_pos (by decide),
        List.takeWhile_append_of_pos hsign, decodeComponent_cons (by decide) (by decide),
        encodeURIComponent, decodeComponent_percentEncode (by decide) (by decide)] at hlen
      have hpos := length_utf8EncodeChar_pos '?'
      simp only [pair, List.length_append] at hlen
      omega
    · rw [parseQuery_piece hlast hne] at hfirst
      exact formPair_question_ne _ _ (Option.some.inj hfirst).symm
  obtain ⟨last, hlast, rfl | ⟨front, rfl⟩⟩ := exists_last_piece query
  · exact hpiece query hlast
  · rw [List.append_assoc, List.cons_append, parseQuery_append, parseQuery_append,
      List.append_assoc]
    exact fun heq => hpiece last hlast (List.append_cancel_left heq)

end QueryPiece

/-! ## A URL with pieces behind it -/

def keyPiece (key value : Text) : QueryPiece where
  name := key
  value := value
  text := encodeURIComponent key ++ '=' :: encodeQueryValue value
  text_eq := Or.inl rfl

/-- The piece of a parameter. -/
def paramPiece (name value : Text) (hne : name ≠ []) : QueryPiece where
  name := name
  value := value
  text :=
    if value = [] then encodeURIComponent name
    else encodeURIComponent name ++ '=' :: encodeQueryValue value
  text_eq := by
    split_ifs with h
    · exact Or.inr ⟨rfl, h, hne⟩
    · exact Or.inl rfl

/-- The URL with the pieces of the parameters and of the key behind it. -/
def withPieces (url : Text) (ps : List QueryPiece) (key : Option QueryPiece) : Text :=
  appendQuery (url ++ if (ps.map (·.text)).isEmpty then []
    else '?' :: List.intercalate ['&'] (ps.map (·.text))) (key.map (·.text))

theorem QueryPiece.text_ne_nil (q : QueryPiece) : q.text ≠ [] := by
  intro h
  exact q.cut_ne_nil (by rw [h]; rfl)

@[simp] theorem withPieces_nil (url : Text) : withPieces url [] none = url := by
  simp [withPieces, appendQuery]

/-- An embedded query goes on with the key. -/
theorem withPieces_key {url : Text} (h : '?' ∈ url) (q : QueryPiece) :
    withPieces url [] (some q) = url ++ '&' :: q.text := by
  simp [withPieces, appendQuery, h, q.text_ne_nil]

theorem withPieces_params (url : Text) {ps : List QueryPiece} (hps : ps ≠ [])
    (key : Option QueryPiece) :
    withPieces url ps key =
      url ++ '?' :: List.intercalate ['&'] ((ps ++ key.toList).map (·.text)) := by
  cases key with
  | none => simp [withPieces, appendQuery, hps]
  | some q =>
    have hjoin : List.intercalate ['&'] (ps.map (·.text) ++ [q.text]) =
        List.intercalate ['&'] (ps.map (·.text)) ++ '&' :: q.text :=
      intercalate_concat '&' (by simpa using hps) q.text
    simp [withPieces, appendQuery, hps, q.text_ne_nil, hjoin]

theorem withPieces_no_question {url : Text} (h : '?' ∉ url) {ps : List QueryPiece}
    {key : Option QueryPiece} (hne : ps ++ key.toList ≠ []) :
    withPieces url ps key =
      url ++ '?' :: List.intercalate ['&'] ((ps ++ key.toList).map (·.text)) := by
  by_cases hps : ps = []
  · subst hps
    cases key with
    | none => exact absurd rfl hne
    | some q => simp [withPieces, appendQuery, h, q.text_ne_nil]
  · exact withPieces_params url hps key

theorem exists_withPieces (url : Text) (ps : List QueryPiece) (key : Option QueryPiece) :
    ∃ t, withPieces url ps key = url ++ t := by
  cases key with
  | none => exact ⟨_, rfl⟩
  | some q =>
    rw [withPieces, Option.map_some, appendQuery, if_neg q.text_ne_nil, List.append_assoc]
    exact ⟨_, rfl⟩

/-- All pieces are read exactly when none is put behind a fragment or glued to an embedded query,
and each of them is quiet. -/
theorem parseQuery_withPieces_iff (url : Text) (ps : List QueryPiece) (key : Option QueryPiece) :
    parseQuery (queryComponent (withPieces url ps key)) =
        parseQuery (queryComponent url) ++ (ps ++ key.toList).map (·.pair) ↔
      (ps = [] ∧ key = none) ∨ ('#' ∉ url ∧ ('?' ∉ url ∨ ps = []) ∧
        ∀ q ∈ ps ++ key.toList, q.Quiet) := by
  by_cases hnone : ps = [] ∧ key = none
  · obtain ⟨rfl, rfl⟩ := hnone
    exact iff_of_true (by simp) (Or.inl ⟨rfl, rfl⟩)
  have hne : ps ++ key.toList ≠ [] := by
    cases key <;> simp_all
  rw [or_iff_right hnone]
  by_cases hsharp : '#' ∈ url
  · obtain ⟨t, ht⟩ := exists_withPieces url ps key
    rw [ht, queryComponent_of_sharp hsharp]
    refine iff_of_false (fun heq => hne ?_) fun h => h.1 hsharp
    simpa using heq
  rw [and_iff_right hsharp]
  by_cases hquestion : '?' ∈ url
  · by_cases hps : ps = []
    · subst hps
      cases key with
      | none => exact absurd rfl hne
      | some q =>
        rw [withPieces_key hquestion, queryComponent_append hsharp hquestion,
          List.takeWhile_cons_of_pos (by decide), parseQuery_append, List.append_right_inj,
          ← QueryPiece.parseQuery_iff]
        simp
    · obtain ⟨q, ps, rfl⟩ := List.exists_cons_of_ne_nil hps
      rw [withPieces_params url hps, queryComponent_append hsharp hquestion]
      refine iff_of_false (QueryPiece.parseQuery_glued_ne _ q (ps ++ key.toList) _) ?_
      rintro ⟨h | h, -⟩
      · exact h hquestion
      · exact hps h
  · have hquery : queryComponent url = [] := queryComponent_of_no_question fun hmem =>
      hquestion ((List.takeWhile_prefix _).subset hmem)
    rw [withPieces_no_question hquestion hne, queryComponent_question hsharp hquestion, hquery,
      parseQuery_nil, List.nil_append, QueryPiece.parseQuery_iff]
    simp [hquestion]

end Voleeo.Send
