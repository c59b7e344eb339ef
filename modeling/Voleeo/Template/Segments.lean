import Voleeo.Template.CallSyntax

/-!
# Segments of a template

A template is cut into single characters, openings that are never closed, and
expressions. The tokenizer's output is determined by the segments, and the
search for the end of an expression is an automaton with three states.
-/
namespace Voleeo.Template

/-! ## The search for the end -/

/-- State of the search: outside quotes, inside, or behind a backslash inside. -/
inductive Quote
  | out
  | quoted
  | escaped
  deriving DecidableEq, Repr

def Quote.next : Quote → Char → Quote
  | .out, c => if c = '"' then .quoted else .out
  | .quoted, c => if c = '\\' then .escaped else if c = '"' then .out else .quoted
  | .escaped, _ => .quoted

/-- The number of characters in front of the first `}}` outside quotes. -/
def closeAt : Quote → Text → Option ℕ
  | _, [] => none
  | q, c :: rest =>
    if q = .out ∧ c = '}' ∧ rest.head? = some '}' then some 0
    else (closeAt (q.next c) rest).map (· + 1)

theorem closeAt_cons (q : Quote) (c : Char) (rest : Text) :
    closeAt q (c :: rest) = if q = .out ∧ c = '}' ∧ rest.head? = some '}' then some 0
      else (closeAt (q.next c) rest).map (· + 1) := by
  cases q <;> rfl

theorem closeAt_quoted (c : Char) (rest : Text) :
    closeAt .quoted (c :: rest) = (closeAt (Quote.quoted.next c) rest).map (· + 1) := by
  simp [closeAt_cons]

theorem closeAt_escaped (c : Char) (rest : Text) :
    closeAt .escaped (c :: rest) = (closeAt .quoted rest).map (· + 1) := by
  simp [closeAt_cons, Quote.next]

theorem closeAt_braces (rest : Text) : closeAt .out ('}' :: '}' :: rest) = some 0 := by
  simp [closeAt_cons]

theorem findTokenEnd_eq (inQuotes : Bool) (text : Text) :
    findTokenEnd inQuotes text = closeAt (if inQuotes then .quoted else .out) text := by
  induction inQuotes, text using findTokenEnd.induct with
  | case1 b => cases b <;> rfl
  | case2 => rfl
  | case3 c rest ih =>
    rw [findTokenEnd, ih]
    simp only [if_true, closeAt_quoted, Quote.next, closeAt_escaped, Option.map_map]
    rfl
  | case4 b rest ih =>
    rw [findTokenEnd, ih]
    cases b <;> simp [closeAt_cons, Quote.next]
  | case5 rest =>
    simp [findTokenEnd, closeAt_braces]
  | case6 b c rest h1 h2 h3 h4 ih =>
    rw [findTokenEnd, ih]
    · cases b with
      | true =>
        have hs : c ≠ '\\' := by
          rintro rfl
          cases rest with
          | nil => exact h1 rfl rfl rfl
          | cons d rest => exact h2 d rest rfl rfl rfl
        have hq : c ≠ '"' := fun h => h3 h
        simp [closeAt_quoted, Quote.next, hs, hq]
      | false =>
        have hq : c ≠ '"' := fun h => h3 h
        have hno : ¬ (c = '}' ∧ rest.head? = some '}') := by
          rintro ⟨rfl, hhead⟩
          cases rest with
          | nil => cases hhead
          | cons d rest =>
            obtain rfl : d = '}' := Option.some.inj hhead
            exact h4 rest rfl rfl rfl
        simp only [Bool.false_eq_true, if_false, closeAt_cons, true_and, if_neg hno,
          Quote.next, if_neg hq]
    all_goals assumption

/-- From this state the text ends exactly where it is followed by `}}`. -/
def Ends (q : Quote) (text : Text) : Prop :=
  ∀ rest, closeAt q (text ++ '}' :: '}' :: rest) = some text.length

theorem closeAt_eq_some {q : Quote} {text : Text} {n : ℕ} (h : closeAt q text = some n) :
    ∃ inner rest, text = inner ++ '}' :: '}' :: rest ∧ inner.length = n ∧ Ends q inner := by
  induction text generalizing q n with
  | nil => cases h
  | cons c text ih =>
    rw [closeAt_cons] at h
    split_ifs at h with hclose
    · obtain ⟨rfl, rfl, hhead⟩ := hclose
      cases h
      cases text with
      | nil => cases hhead
      | cons d rest =>
        obtain rfl : d = '}' := Option.some.inj hhead
        exact ⟨[], rest, rfl, rfl, fun r => closeAt_braces r⟩
    · rw [Option.map_eq_some_iff] at h
      obtain ⟨m, hm, rfl⟩ := h
      obtain ⟨inner, rest, rfl, rfl, hends⟩ := ih hm
      refine ⟨c :: inner, rest, rfl, rfl, fun r => ?_⟩
      have hno : ¬ (q = .out ∧ c = '}' ∧ (inner ++ '}' :: '}' :: r).head? = some '}') := by
        rintro ⟨hq, hc, hhead⟩
        apply hclose
        refine ⟨hq, hc, ?_⟩
        cases inner with
        | nil => rfl
        | cons d inner => exact hhead
      rw [List.cons_append, closeAt_cons, if_neg hno, hends r]
      rfl

/-- A search that passes a pair of braces is inside quotes behind it. -/
theorem closeAt_through {q : Quote} {text rest : Text}
    (h : closeAt q (text ++ '}' :: '}' :: rest) = none) (rest' : Text) :
    closeAt q (text ++ '}' :: '}' :: rest') =
      (closeAt .quoted rest').map (· + (text.length + 2)) := by
  induction text generalizing q with
  | nil =>
    cases q with
    | out =>
      rw [List.nil_append, closeAt_braces] at h
      cases h
    | quoted =>
      simp [closeAt_quoted, Quote.next]
    | escaped =>
      simp [closeAt_escaped, closeAt_quoted, Quote.next]
  | cons c text ih =>
    have hhead : (text ++ '}' :: '}' :: rest').head? = (text ++ '}' :: '}' :: rest).head? := by
      cases text <;> rfl
    rw [List.cons_append, closeAt_cons] at h
    rw [List.cons_append, closeAt_cons, hhead]
    split_ifs at h with hclose
    rw [Option.map_eq_none_iff] at h
    rw [if_neg hclose, ih h, Option.map_map]
    rfl

theorem closeAt_quoted_of_none {q : Quote} {text rest : Text}
    (h : closeAt q (text ++ '}' :: '}' :: rest) = none) : closeAt .quoted rest = none := by
  have hthrough := closeAt_through h rest
  rw [h] at hthrough
  exact Option.map_eq_none_iff.mp hthrough.symm

/-! ## Cutting a template -/

inductive Segment
  | char (c : Char)
  /-- The first brace of an opening without an end. -/
  | unclosed
  /-- The text between `{{` and its `}}`. -/
  | expr (inner : Text)
  deriving DecidableEq, Repr

def segmentsFrom : ℕ → Text → List Segment
  | _, [] => []
  | skip + 1, _ :: rest => segmentsFrom skip rest
  | 0, c :: rest =>
    match look (c :: rest) with
    | .char => .char c :: segmentsFrom 0 rest
    | .unclosed => .unclosed :: segmentsFrom 0 rest
    | .expr n => .expr ((rest.drop 1).take n) :: segmentsFrom (n + 3) rest

def segments (text : Text) : List Segment := segmentsFrom 0 text

theorem segmentsFrom_skip (skip : ℕ) (text : Text) :
    segmentsFrom skip text = segments (text.drop skip) := by
  induction text generalizing skip with
  | nil => cases skip <;> rfl
  | cons c text ih =>
    cases skip with
    | zero => rfl
    | succ skip => rw [segmentsFrom, ih, List.drop_succ_cons]

/-- How a template is cut. -/
inductive Segmented : Text → List Segment → Prop
  | nil : Segmented [] []
  | char {c : Char} {rest : Text} {segs : List Segment}
      (hc : ¬ (c = '{' ∧ rest.head? = some '{')) (h : Segmented rest segs) :
      Segmented (c :: rest) (.char c :: segs)
  | unclosed {rest : Text} {segs : List Segment} (hclose : closeAt .out rest = none)
      (h : Segmented ('{' :: rest) segs) : Segmented ('{' :: '{' :: rest) (.unclosed :: segs)
  | expr {inner rest : Text} {segs : List Segment} (hends : Ends .out inner)
      (h : Segmented rest segs) :
      Segmented ('{' :: '{' :: (inner ++ '}' :: '}' :: rest)) (.expr inner :: segs)

theorem look_opening (inside : Text) :
    look ('{' :: '{' :: inside) = match closeAt .out inside with
      | none => .unclosed
      | some n => .expr n := by
  rw [look, findTokenEnd_eq]
  rfl

theorem look_char {c : Char} {rest : Text} (hc : ¬ (c = '{' ∧ rest.head? = some '{')) :
    look (c :: rest) = .char := by
  unfold look
  split
  · rename_i inside heq
    cases heq
    exact absurd ⟨rfl, rfl⟩ hc
  · rfl

theorem segments_of_segmented {text : Text} {segs : List Segment} (h : Segmented text segs) :
    segments text = segs := by
  induction h with
  | nil => rfl
  | char hc _ ih =>
    rw [segments, segmentsFrom, look_char hc]
    exact congrArg _ ih
  | unclosed hclose _ ih =>
    rw [segments, segmentsFrom, look_opening, hclose]
    exact congrArg _ ih
  | @expr inner rest segs hends _ ih =>
    have hdrop : ('{' :: (inner ++ '}' :: '}' :: rest)).drop (inner.length + 3) = rest := by
      have hsplit : '{' :: (inner ++ '}' :: '}' :: rest) =
          ('{' :: (inner ++ ['}', '}'])) ++ rest := by simp
      have hlen : inner.length + 3 = ('{' :: (inner ++ ['}', '}'])).length := by simp
      rw [hsplit, hlen, List.drop_left]
    rw [segments, segmentsFrom, look_opening, hends rest]
    simp only
    rw [segmentsFrom_skip, hdrop, ih]
    simp

theorem exists_segmented (text : Text) : ∃ segs, Segmented text segs := by
  induction hn : text.length using Nat.strong_induction_on generalizing text with
  | _ n ih =>
    cases text with
    | nil => exact ⟨[], .nil⟩
    | cons c rest =>
      by_cases hc : c = '{' ∧ rest.head? = some '{'
      · obtain ⟨rfl, hhead⟩ := hc
        obtain ⟨inside, rfl⟩ : ∃ inside, rest = '{' :: inside := by
          cases rest with
          | nil => cases hhead
          | cons d inside => exact ⟨inside, by rw [Option.some.inj hhead]⟩
        cases hclose : closeAt .out inside with
        | none =>
          obtain ⟨segs, h⟩ := ih _ (by simp at hn ⊢; omega) ('{' :: inside) rfl
          exact ⟨_, .unclosed hclose h⟩
        | some m =>
          obtain ⟨inner, after, rfl, -, hends⟩ := closeAt_eq_some hclose
          obtain ⟨segs, h⟩ := ih after.length (by
            simp only [List.length_cons, List.length_append] at hn
            omega) after rfl
          exact ⟨_, .expr hends h⟩
      · obtain ⟨segs, h⟩ := ih rest.length (by
          rw [List.length_cons] at hn
          omega) rest rfl
        exact ⟨_, .char hc h⟩

theorem segmented_segments (text : Text) : Segmented text (segments text) := by
  obtain ⟨segs, h⟩ := exists_segmented text
  rwa [segments_of_segmented h]

/-! ## Pieces -/

/-- A character of plain text, or a variable or call. -/
inductive Piece
  | char (c : Char)
  | token (t : TemplateToken)

def pieces : TemplateToken → List Piece
  | .plain text => text.map .char
  | t => [.token t]

/-- The same tokens, up to how plain text is divided among adjacent plain tokens. -/
def SameUpToMerging (ts ts' : List TemplateToken) : Prop := ts.flatMap pieces = ts'.flatMap pieces

def segmentPieces : Segment → List Piece
  | .char c => [.char c]
  | .unclosed => [.char '{']
  | .expr inner => pieces (exprToken inner)

def renderPiece : Piece → Text
  | .char c => [c]
  | .token t => serializeToken t

theorem render_pieces (t : TemplateToken) : (pieces t).flatMap renderPiece = serializeToken t := by
  cases t with
  | plain text =>
    show (text.map Piece.char).flatMap renderPiece = text
    induction text with
    | nil => rfl
    | cons c text ih =>
      rw [List.map_cons, List.flatMap_cons, ih]
      rfl
  | var name => simp [pieces, renderPiece]
  | func name args => simp [pieces, renderPiece]

theorem serialize_eq (ts : List TemplateToken) :
    serialize ts = (ts.flatMap pieces).flatMap renderPiece := by
  rw [serialize, List.flatMap_assoc]
  simp only [render_pieces]

theorem pieces_pushPlain (plain : Text) (ts : List TemplateToken) :
    (pushPlain plain ts).flatMap pieces = plain.map .char ++ ts.flatMap pieces := by
  unfold pushPlain
  split_ifs with h
  · subst h
    rfl
  · rfl

theorem pieces_tokenizeFrom (plain : Text) (skip : ℕ) (text : Text) :
    (tokenizeFrom plain skip text).flatMap pieces =
      plain.map .char ++ (segmentsFrom skip text).flatMap segmentPieces := by
  induction text generalizing plain skip with
  | nil =>
    cases skip <;> simp only [tokenizeFrom, segmentsFrom, pieces_pushPlain, List.flatMap_nil]
  | cons c text ih =>
    cases skip with
    | succ skip => exact ih plain skip
    | zero =>
      rw [tokenizeFrom, segmentsFrom]
      cases hlook : look (c :: text) with
      | char =>
        simp only [ih, List.flatMap_cons, segmentPieces]
        simp
      | unclosed =>
        have hc : c = '{' := by
          unfold look at hlook
          split at hlook
          · rename_i heq
            cases heq
            rfl
          · cases hlook
        simp only [ih, List.flatMap_cons, segmentPieces, hc]
        simp
      | expr n =>
        simp only [pieces_pushPlain, List.flatMap_cons, ih, segmentPieces]
        rfl

/-- The tokenizer's output, cut into pieces, is read off the segments. -/
theorem pieces_tokenize (text : Text) :
    (tokenize text).flatMap pieces = (segments text).flatMap segmentPieces := by
  rw [tokenize, pieces_tokenizeFrom]
  rfl

/-- The text that the serializer writes for a segment. -/
def renderSegment : Segment → Text
  | .char c => [c]
  | .unclosed => ['{']
  | .expr inner => serializeToken (exprToken inner)

theorem renderSegment_eq (seg : Segment) :
    (segmentPieces seg).flatMap renderPiece = renderSegment seg := by
  cases seg with
  | char c => rfl
  | unclosed => rfl
  | expr inner => exact render_pieces _

/-- The normal form of a template, segment by segment. -/
theorem serialize_tokenize (text : Text) :
    serialize (tokenize text) = (segments text).flatMap renderSegment := by
  rw [serialize_eq, pieces_tokenize, List.flatMap_assoc]
  simp only [renderSegment_eq]

end Voleeo.Template
