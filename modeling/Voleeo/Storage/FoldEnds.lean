import Voleeo.PrettyJson
import Voleeo.Storage.BodySearch

/-!
# The ends of blocks

On a text that was pretty-printed, the matcher of the first and last characters finds for each
block the line that closes it. On any text at all, the blocks that it finds are nested.
-/
namespace Voleeo.BodyWindow
open Resolve (isWhitespace strTrim)

/-! ## Lines that were joined -/

theorem lineRangesFrom_line {l : Text} (h : '\n' ∉ l) (start i : ℕ) (t : Text) :
    lineRangesFrom start i (l ++ '\n' :: t) =
      (start, i + l.length) :: lineRangesFrom (i + l.length + 1) (i + l.length + 1) t := by
  induction l generalizing i with
  | nil => rw [List.nil_append, lineRangesFrom, if_pos rfl]; rfl
  | cons c l ih =>
    rw [List.mem_cons, not_or] at h
    rw [List.cons_append, lineRangesFrom, if_neg (Ne.symm h.1), ih h.2, List.length_cons]
    simp only [Nat.add_assoc, Nat.add_comm 1]

theorem lineRangesFrom_last {l : Text} (h : '\n' ∉ l) (start i : ℕ) :
    lineRangesFrom start i l = if start < i + l.length then [(start, i + l.length)] else [] := by
  induction l generalizing i with
  | nil => rfl
  | cons c l ih =>
    rw [List.mem_cons, not_or] at h
    rw [lineRangesFrom, if_neg (Ne.symm h.1), ih h.2, List.length_cons]
    simp only [Nat.add_assoc, Nat.add_comm 1]

theorem slice_append (front l back : Text) :
    slice (front ++ (l ++ back)) (front.length, front.length + l.length) = l := by
  rw [slice, ← List.append_assoc, List.take_left' (by simp), List.drop_left]

/-- The lines of a joined text are those that were joined, unless the last one is empty. -/
theorem map_slice_lineRanges (front : Text) {ls : List Text} (hls : ∀ l ∈ ls, '\n' ∉ l)
    (hlast : ∀ l ∈ ls.getLast?, l ≠ []) :
    (lineRangesFrom front.length front.length (List.intercalate ['\n'] ls)).map
      (slice (front ++ List.intercalate ['\n'] ls)) = ls := by
  induction ls generalizing front with
  | nil => simp [lineRangesFrom]
  | cons l ls ih =>
    rw [List.forall_mem_cons] at hls
    obtain _ | ⟨l', ls⟩ := ls
    · have hne : l ≠ [] := hlast l rfl
      have hpos := List.length_pos_iff.mpr hne
      have hslice := slice_append front l []
      rw [List.append_nil] at hslice
      rw [List.intercalate_singleton, lineRangesFrom_last hls.1, if_pos (by omega),
        List.map_singleton, hslice]
    · have hrest := ih (front ++ (l ++ ['\n'])) hls.2 (by
        rwa [List.getLast?_cons_cons] at hlast)
      have hlength : (front ++ (l ++ ['\n'])).length = front.length + l.length + 1 := by
        simp only [List.length_append, List.length_singleton, Nat.add_assoc]
      have htext : front ++ (l ++ '\n' :: List.intercalate ['\n'] (l' :: ls)) =
          front ++ (l ++ ['\n']) ++ List.intercalate ['\n'] (l' :: ls) := by simp
      rw [List.intercalate_cons_cons, List.append_assoc, List.singleton_append,
        lineRangesFrom_line hls.1, List.map_cons, slice_append, htext, ← hlength, hrest]

/-! ## One line -/

theorem strTrim_indented {body : Text} {c d : Char} (n : ℕ) (hc : body.head? = some c)
    (hd : body.getLast? = some d) (hcblank : isWhitespace c = false)
    (hdblank : isWhitespace d = false) : strTrim (List.replicate n ' ' ++ body) = body := by
  obtain ⟨rest, rfl⟩ := List.head?_eq_some_iff.mp hc
  rw [strTrim, List.dropWhile_append_of_pos fun b hb => by
    rw [List.eq_of_mem_replicate hb]; decide]
  rw [List.dropWhile_cons, if_neg (by simp [hcblank]), List.rdropWhile_eq_self_iff]
  intro hne
  have hlast : (c :: rest).getLast hne = d := by
    rw [List.getLast?_eq_some_getLast hne] at hd
    exact Option.some.inj hd
  simp [hlast, hdblank]

/-- A line with an indentation in front, from its first character to its last. -/
structure Spans (body : Text) (c d : Char) : Prop where
  first : body.head? = some c
  last : body.getLast? = some d
  first_visible : isWhitespace c = false
  last_visible : isWhitespace d = false

variable {body : Text} {c d : Char} {depth i : ℕ}

theorem Spans.trim (h : Spans body c d) (depth : ℕ) : strTrim (indentation depth ++ body) = body :=
  strTrim_indented _ h.first h.last h.first_visible h.last_visible

theorem Spans.startsClosed (h : Spans body c d) :
    startsClosed body = (c == '\x7d' || c == ']') := by
  rw [BodyWindow.startsClosed, h.first]
  rfl

theorem Spans.endsOpen (h : Spans body c d) : endsOpen body = (d == '\x7b' || d == '[') := by
  rw [BodyWindow.endsOpen, h.last]
  rfl

/-- A line that neither begins with a closing nor ends with an opening bracket changes nothing. -/
theorem foldLine_plain (h : Spans body c d) (hc : (c == '\x7d' || c == ']') = false)
    (hd : (d == '\x7b' || d == '[') = false) (s : FoldState) :
    foldLine i (indentation depth ++ body) s = s := by
  rw [foldLine, h.trim, h.startsClosed, h.endsOpen, hc, hd]
  rfl

theorem foldLine_opener (h : Spans body c d) (hc : (c == '\x7d' || c == ']') = false)
    (hd : (d == '\x7b' || d == '[') = true) (s : FoldState) :
    foldLine i (indentation depth ++ body) s = { s with opened := i :: s.opened } := by
  rw [foldLine, h.trim, h.startsClosed, h.endsOpen, hc, hd]
  rfl

theorem foldLine_closer (h : Spans body c d) (hc : (c == '\x7d' || c == ']') = true)
    (hd : (d == '\x7b' || d == '[') = false) (s : FoldState) :
    foldLine i (indentation depth ++ body) s = closeBlock i s := by
  rw [foldLine, h.trim, h.startsClosed, h.endsOpen, hc, hd]
  rfl

theorem foldLines_append (xs ys : List Text) (i : ℕ) (s : FoldState) :
    foldLines i (xs ++ ys) s = foldLines (i + xs.length) ys (foldLines i xs s) := by
  induction xs generalizing i s with
  | nil => rfl
  | cons x xs ih =>
    rw [List.cons_append, foldLines, ih, foldLines, List.length_cons, Nat.add_right_comm,
      Nat.add_assoc]

/-! ## Documents that fit -/

/-- On one line, from a character that closes nothing to one that opens nothing. -/
structure IsInline (text : Text) : Prop where
  one_line : '\n' ∉ text
  begins : ∃ c ∈ text.head?, isWhitespace c = false ∧ (c == '\x7d' || c == ']') = false
  ends : ∃ d ∈ text.getLast?, isWhitespace d = false ∧ (d == '\x7b' || d == '[') = false

/-- What may stand in front of a member. -/
structure IsLabel (label : Text) : Prop where
  one_line : '\n' ∉ label
  begins : ∀ c ∈ label.head?, isWhitespace c = false ∧ (c == '\x7d' || c == ']') = false

inductive IsBlock : Char → Char → Prop
  | array : IsBlock '[' ']'
  | object : IsBlock '\x7b' '\x7d'

mutual

def DocFits : Doc → Prop
  | .scalar text => IsInline text
  | .block opening closing items => IsBlock opening closing ∧ DocsFit items

def DocsFit : Docs → Prop
  | .nil => True
  | .cons label doc rest => IsLabel label ∧ DocFits doc ∧ DocsFit rest

end

/-- Behind the last line of an item stands a comma or nothing. -/
def IsTail (tail : Text) : Prop := tail = [] ∨ tail = [',']

theorem isTail_ite (p : Prop) [Decidable p] : IsTail (if p then [] else [',']) := by
  by_cases hp : p
  · exact Or.inl (if_pos hp)
  · exact Or.inr (if_neg hp)

theorem spans_of_parts {label body tail : Text} (hlabel : IsLabel label) (htail : IsTail tail)
    (hbegins : ∃ c ∈ body.head?, isWhitespace c = false ∧ (c == '\x7d' || c == ']') = false)
    (hends : ∃ d ∈ body.getLast?, isWhitespace d = false ∧ (d == '\x7b' || d == '[') = false) :
    ∃ c d, Spans (label ++ body ++ tail) c d ∧ (c == '\x7d' || c == ']') = false ∧
      (d == '\x7b' || d == '[') = false := by
  obtain ⟨c, hc, hcblank, hcclosed⟩ := hbegins
  obtain ⟨d, hd, hdblank, hdopen⟩ := hends
  have hlast : ∃ d ∈ (label ++ body ++ tail).getLast?, isWhitespace d = false ∧
      (d == '\x7b' || d == '[') = false := by
    obtain rfl | rfl := htail
    · exact ⟨d, by rw [List.append_nil, List.getLast?_append, hd]; rfl, hdblank, hdopen⟩
    · exact ⟨',', by rw [List.getLast?_append]; rfl, by decide, by decide⟩
  have hfirst : ∃ c ∈ (label ++ body ++ tail).head?, isWhitespace c = false ∧
      (c == '\x7d' || c == ']') = false := by
    cases label with
    | nil => exact ⟨c, by rw [List.nil_append, List.head?_append, hc]; rfl, hcblank, hcclosed⟩
    | cons b label => exact ⟨b, rfl, hlabel.begins b rfl⟩
  obtain ⟨c', hc', hcblank', hcclosed'⟩ := hfirst
  obtain ⟨d', hd', hdblank', hdopen'⟩ := hlast
  exact ⟨c', d', ⟨hc', hd', hcblank', hdblank'⟩, hcclosed', hdopen'⟩

/-- The line that opens a block. -/
theorem spans_opener {label : Text} (hlabel : IsLabel label) {opening closing : Char}
    (hblock : IsBlock opening closing) :
    ∃ c, Spans (label ++ [opening]) c opening ∧ (c == '\x7d' || c == ']') = false := by
  have hblank : isWhitespace opening = false := by cases hblock <;> decide
  have hclosed : (opening == '\x7d' || opening == ']') = false := by cases hblock <;> decide
  have hlast : (label ++ [opening]).getLast? = some opening := by rw [List.getLast?_append]; rfl
  cases label with
  | nil => exact ⟨opening, ⟨rfl, rfl, hblank, hblank⟩, hclosed⟩
  | cons b label =>
    obtain ⟨hbblank, hbclosed⟩ := hlabel.begins b rfl
    exact ⟨b, ⟨rfl, hlast, hbblank, hblank⟩, hbclosed⟩

/-- The line that closes a block. -/
theorem spans_closer {tail : Text} (htail : IsTail tail) {opening closing : Char}
    (hblock : IsBlock opening closing) :
    ∃ d, Spans (closing :: tail) closing d ∧ (d == '\x7b' || d == '[') = false := by
  have hblank : isWhitespace closing = false := by cases hblock <;> decide
  have hopen : (closing == '\x7b' || closing == '[') = false := by cases hblock <;> decide
  obtain rfl | rfl := htail
  · exact ⟨closing, ⟨rfl, rfl, hblank, hblank⟩, hopen⟩
  · exact ⟨',', ⟨rfl, rfl, hblank, by decide⟩, by decide⟩

theorem IsTail.one_line {tail : Text} (h : IsTail tail) : '\n' ∉ tail := by
  obtain rfl | rfl := h <;> simp

theorem not_mem_indentation (depth : ℕ) : '\n' ∉ indentation depth := by
  simp [indentation]

/-! ## The line that closes a block -/

mutual

def docHeight : Doc → ℕ
  | .scalar _ => 1
  | .block _ _ items => if items.isNil then 1 else docsHeight items + 2

def docsHeight : Docs → ℕ
  | .nil => 0
  | .cons _ doc rest => docHeight doc + docsHeight rest

end

mutual

/-- For each line of a document that begins at line `base`: the line that closes the block opened
on it, or zero where it opens none. -/
def docClosings (base : ℕ) : Doc → List ℕ
  | .scalar _ => [0]
  | .block _ _ items =>
    if items.isNil then [0]
    else (base + 1 + docsHeight items) :: docsClosings (base + 1) items ++ [0]

def docsClosings (base : ℕ) : Docs → List ℕ
  | .nil => []
  | .cons _ doc rest => docClosings base doc ++ docsClosings (base + docHeight doc) rest

end

mutual

theorem length_lines_doc (depth : ℕ) (label tail : Text) : ∀ doc : Doc,
    (doc.lines depth label tail).length = docHeight doc
  | .scalar text => by rw [Doc.lines, docHeight]; rfl
  | .block opening closing items => by
      rw [Doc.lines, docHeight]
      split_ifs
      · rfl
      · rw [List.length_append, List.length_cons, length_lines_docs (depth + 1) items]
        rfl

theorem length_lines_docs (depth : ℕ) : ∀ docs : Docs, (docs.lines depth).length = docsHeight docs
  | .nil => rfl
  | .cons label doc rest => by
      rw [Docs.lines, docsHeight, List.length_append, length_lines_doc, length_lines_docs]

end

mutual

theorem length_docClosings (base : ℕ) : ∀ doc : Doc, (docClosings base doc).length = docHeight doc
  | .scalar text => rfl
  | .block opening closing items => by
      rw [docClosings, docHeight]
      split_ifs
      · rfl
      · rw [List.length_append, List.length_cons, length_docsClosings (base + 1) items]
        rfl

theorem length_docsClosings (base : ℕ) : ∀ docs : Docs,
    (docsClosings base docs).length = docsHeight docs
  | .nil => rfl
  | .cons label doc rest => by
      rw [docsClosings, docsHeight, List.length_append, length_docClosings, length_docsClosings]

end

theorem set_behind (front rest : List ℕ) (x v : ℕ) :
    (front ++ [x] ++ rest).set front.length v = front ++ v :: rest := by
  rw [List.append_assoc, List.set_append_right _ _ le_rfl, Nat.sub_self]
  rfl

mutual

theorem foldLines_doc (depth : ℕ) {label tail : Text} (hlabel : IsLabel label)
    (htail : IsTail tail) : ∀ doc : Doc, DocFits doc → ∀ (front back opened : List ℕ),
      foldLines front.length (doc.lines depth label tail)
          ⟨front ++ (List.replicate (docHeight doc) 0 ++ back), opened⟩ =
        ⟨front ++ ((docClosings front.length doc).map toU32 ++ back), opened⟩
  | .scalar text, hfits, front, back, opened => by
      rw [DocFits] at hfits
      obtain ⟨c, d, hspans, hc, hd⟩ := spans_of_parts hlabel htail hfits.begins hfits.ends
      rw [Doc.lines, docHeight, docClosings, foldLines, foldLine_plain hspans hc hd]
      rfl
  | .block opening closing items, hfits, front, back, opened => by
      rw [DocFits] at hfits
      obtain ⟨hblock, hitems⟩ := hfits
      rw [Doc.lines, docHeight, docClosings]
      split_ifs with hnil
      · have hbegins : ∃ c ∈ [opening, closing].head?, isWhitespace c = false ∧
            (c == '\x7d' || c == ']') = false := ⟨opening, rfl, by cases hblock <;> decide⟩
        have hends : ∃ d ∈ [opening, closing].getLast?, isWhitespace d = false ∧
            (d == '\x7b' || d == '[') = false := ⟨closing, rfl, by cases hblock <;> decide⟩
        obtain ⟨c, d, hspans, hc, hd⟩ := spans_of_parts hlabel htail hbegins hends
        rw [foldLines, foldLine_plain hspans hc hd]
        rfl
      · obtain ⟨c, hopener, hc⟩ := spans_opener hlabel hblock
        obtain ⟨d, hcloser, hd⟩ := spans_closer htail hblock
        have hopening : (opening == '\x7b' || opening == '[') = true := by
          cases hblock <;> decide
        have hclosing : (closing == '\x7d' || closing == ']') = true := by
          cases hblock <;> decide
        have hzeros : front ++ (List.replicate (docsHeight items + 2) 0 ++ back) =
            (front ++ [0]) ++ (List.replicate (docsHeight items) 0 ++ 0 :: back) := by
          rw [List.replicate_succ, List.replicate_succ']
          simp
        have hlength : front.length + 1 = (front ++ [0]).length := by
          rw [List.length_append, List.length_singleton]
        rw [List.cons_append, foldLines, foldLine_opener hopener hc hopening, foldLines_append,
          hzeros, hlength, foldLines_docs (depth + 1) items hitems, length_lines_docs, foldLines,
          foldLine_closer hcloser hclosing hd]
        have hzero : toU32 0 = 0 := rfl
        simp only [closeBlock, set_behind]
        rw [List.map_append, List.map_cons, List.map_singleton, hzero, ← hlength]
        simp [foldLines]

theorem foldLines_docs (depth : ℕ) : ∀ docs : Docs, DocsFit docs →
    ∀ (front back opened : List ℕ),
      foldLines front.length (docs.lines depth)
          ⟨front ++ (List.replicate (docsHeight docs) 0 ++ back), opened⟩ =
        ⟨front ++ ((docsClosings front.length docs).map toU32 ++ back), opened⟩
  | .nil, _, _, _, _ => rfl
  | .cons label doc rest, hfits, front, back, opened => by
      rw [DocsFit] at hfits
      obtain ⟨hlabel, hdoc, hrest⟩ := hfits
      have hlength : front.length + docHeight doc =
          (front ++ (docClosings front.length doc).map toU32).length := by
        rw [List.length_append, List.length_map, length_docClosings]
      rw [Docs.lines, docsHeight, docsClosings, foldLines_append, ← List.replicate_append_replicate,
        List.append_assoc, foldLines_doc depth hlabel (isTail_ite _) doc hdoc, length_lines_doc,
        ← List.append_assoc front, hlength, foldLines_docs depth rest hrest, ← hlength,
        List.map_append]
      simp only [List.append_assoc]

end

/-! ## Lines of a document -/

mutual

theorem one_line_doc (depth : ℕ) {label tail : Text} (hlabel : IsLabel label)
    (htail : IsTail tail) : ∀ doc : Doc, DocFits doc → ∀ l ∈ doc.lines depth label tail, '\n' ∉ l
  | .scalar text, hfits, l, hl => by
      rw [DocFits] at hfits
      rw [Doc.lines, List.mem_singleton] at hl
      rw [hl]
      simp only [List.mem_append, not_or]
      exact ⟨not_mem_indentation depth, ⟨hlabel.one_line, hfits.one_line⟩, htail.one_line⟩
  | .block opening closing items, hfits, l, hl => by
      rw [DocFits] at hfits
      obtain ⟨hblock, hitems⟩ := hfits
      have hopening : '\n' ≠ opening := by cases hblock <;> decide
      have hclosing : '\n' ≠ closing := by cases hblock <;> decide
      rw [Doc.lines] at hl
      split_ifs at hl
      · rw [List.mem_singleton] at hl
        rw [hl]
        simp only [List.mem_append, List.mem_pair, not_or]
        exact ⟨not_mem_indentation depth, ⟨hlabel.one_line, hopening, hclosing⟩, htail.one_line⟩
      · rw [List.mem_append, List.mem_cons, List.mem_singleton] at hl
        obtain (rfl | hl) | rfl := hl
        · simp only [List.mem_append, List.mem_singleton, not_or]
          exact ⟨not_mem_indentation depth, hlabel.one_line, hopening⟩
        · exact one_line_docs (depth + 1) items hitems l hl
        · simp only [List.mem_append, List.mem_cons, not_or]
          exact ⟨not_mem_indentation depth, hclosing, htail.one_line⟩

theorem one_line_docs (depth : ℕ) : ∀ docs : Docs, DocsFit docs → ∀ l ∈ docs.lines depth, '\n' ∉ l
  | .nil, _, l, hl => absurd hl List.not_mem_nil
  | .cons label doc rest, hfits, l, hl => by
      rw [DocsFit] at hfits
      obtain ⟨hlabel, hdoc, hrest⟩ := hfits
      rw [Docs.lines, List.mem_append] at hl
      obtain hl | hl := hl
      · exact one_line_doc depth hlabel (isTail_ite _) doc hdoc l hl
      · exact one_line_docs depth rest hrest l hl

end

theorem last_line_ne_nil {depth : ℕ} {label tail : Text} {doc : Doc} (hfits : DocFits doc) :
    ∀ l ∈ (doc.lines depth label tail).getLast?, l ≠ [] := by
  intro l hl
  cases doc with
  | scalar text =>
    rw [DocFits] at hfits
    rw [Doc.lines, List.getLast?_singleton] at hl
    cases hl
    obtain ⟨c, hc, -⟩ := hfits.begins
    intro hnil
    simp only [List.append_eq_nil_iff] at hnil
    rw [hnil.2.1.2] at hc
    cases hc
  | block opening closing items =>
    rw [Doc.lines] at hl
    split_ifs at hl
    · rw [List.getLast?_singleton] at hl
      cases hl
      simp
    · rw [List.getLast?_append, List.getLast?_singleton] at hl
      cases hl
      simp

/-! ## JSON values -/

/-- Its numbers are numerals. -/
inductive IsValue : Json → Prop
  | null : IsValue .null
  | bool (b : Bool) : IsValue (.bool b)
  | number {text : String} (hchars : ∀ c ∈ text.toList, Json.isNumberChar c = true)
      (h : Json.isNumeral text.toList = true) : IsValue (.number text)
  | string (s : String) : IsValue (.string s)
  | array {values : List Json} (h : ∀ v ∈ values, IsValue v) : IsValue (.array values)
  | object {members : List (String × Json)} (h : ∀ e ∈ members, IsValue e.2) :
      IsValue (.object members)

theorem isInline_quote (s : String) : IsInline (Json.quote s) := by
  refine ⟨Json.newline_not_mem_quote s, ⟨'"', rfl, by decide, by decide⟩,
    '"', ?_, by decide, by decide⟩
  rw [Json.quote, List.getLast?_append]
  rfl

theorem isNumberChar_visible {c : Char} (h : Json.isNumberChar c = true) :
    c ≠ '\n' ∧ isWhitespace c = false ∧ (c == '\x7d' || c == ']') = false ∧
      (c == '\x7b' || c == '[') = false := by
  have hascii : ∀ n < 128, Json.isNumberChar (Char.ofNat n) = true → Char.ofNat n ≠ '\n' ∧
      isWhitespace (Char.ofNat n) = false ∧
      (Char.ofNat n == '\x7d' || Char.ofNat n == ']') = false ∧
      (Char.ofNat n == '\x7b' || Char.ofNat n == '[') = false := by decide
  have hlt : c.toNat < 128 := by
    rw [Json.isNumberChar, Bool.or_eq_true] at h
    obtain hdigit | hsign := h
    · have hle : c.toNat ≤ 57 := (Char.isDigit_iff_toNat.mp hdigit).2
      omega
    · simp only [List.contains_eq_mem, decide_eq_true_eq, List.mem_cons, List.not_mem_nil,
        or_false] at hsign
      obtain rfl | rfl | rfl | rfl | rfl := hsign <;> decide
  have hc := hascii c.toNat hlt
  rw [Char.ofNat_toNat] at hc
  exact hc h

theorem IsValue.docFits {v : Json} (h : IsValue v) : DocFits v.toDoc := by
  induction h with
  | null => exact ⟨by decide, ⟨'n', rfl, by decide, by decide⟩, 'l', rfl, by decide, by decide⟩
  | bool b =>
    cases b with
    | true => exact ⟨by decide, ⟨'t', rfl, by decide, by decide⟩, 'e', rfl, by decide, by decide⟩
    | false => exact ⟨by decide, ⟨'f', rfl, by decide, by decide⟩, 'e', rfl, by decide, by decide⟩
  | @number text hchars h =>
    have hne : text.toList ≠ [] := by
      intro hnil
      rw [hnil] at h
      cases h
    refine ⟨fun hmem => (isNumberChar_visible (hchars _ hmem)).1 rfl, ?_, ?_⟩
    · obtain ⟨c, rest, hc⟩ := List.exists_cons_of_ne_nil hne
      have hvisible := isNumberChar_visible (hchars c (by rw [hc]; exact List.mem_cons_self))
      exact ⟨c, by rw [hc]; rfl, hvisible.2.1, hvisible.2.2.1⟩
    · have hvisible := isNumberChar_visible (hchars _ (List.getLast_mem hne))
      exact ⟨_, List.getLast?_eq_some_getLast hne, hvisible.2.1, hvisible.2.2.2⟩
  | string s => exact isInline_quote s
  | @array values hvalues ih =>
    refine ⟨.array, ?_⟩
    clear hvalues
    induction values with
    | nil => exact trivial
    | cons v vs ihv =>
      rw [List.forall_mem_cons] at ih
      exact ⟨⟨by simp, by simp⟩, ih.1, ihv ih.2⟩
  | @object members hmembers ih =>
    refine ⟨.object, ?_⟩
    clear hmembers
    induction members with
    | nil => exact trivial
    | cons e es ihe =>
      rw [List.forall_mem_cons] at ih
      have hdoc : Json.memberDoc e = e.2.toDoc := by rw [Json.memberDoc]
      refine ⟨⟨?_, ?_⟩, by rw [hdoc]; exact ih.1, ihe ih.2⟩
      · rw [List.mem_append, not_or]
        exact ⟨Json.newline_not_mem_quote e.1, by decide⟩
      · intro c hc
        cases hc
        exact ⟨by decide, by decide⟩

/-- On the lines of a value, each block ends where its bracket is. -/
theorem foldEnds_pretty {v : Json} (h : IsValue v) :
    foldEnds v.pretty (lineRanges v.pretty) = (docClosings 0 v.toDoc).map toU32 := by
  have hlabel : IsLabel [] := ⟨by simp, by simp⟩
  have htext : v.pretty = List.intercalate ['\n'] (v.toDoc.lines 0 [] []) := by
    rw [← Doc.pretty_eq_lines]
    simp [Json.pretty, indentation]
  have hlines := map_slice_lineRanges [] (one_line_doc 0 hlabel (Or.inl rfl) _ h.docFits)
    (last_line_ne_nil h.docFits)
  rw [List.nil_append, List.length_nil, ← htext] at hlines
  have hlength : (lineRanges v.pretty).length = docHeight v.toDoc := by
    rw [← length_lines_doc 0 [] [] v.toDoc, ← hlines, List.length_map]
    rfl
  have hrun := foldLines_doc 0 hlabel (Or.inl rfl) v.toDoc h.docFits [] [] []
  rw [foldEnds, lineRanges, hlines, ← lineRanges, hlength]
  simp only [List.nil_append, List.append_nil, List.length_nil] at hrun
  rw [hrun]

/-! ## Any text -/

/-- The block that opens on line `a` closes on line `e`. -/
def Folds (ends : List ℕ) (a e : ℕ) : Prop := ends[a]? = some e ∧ e ≠ 0

/-- Blocks close below the line on which they open, and no two of them cross. -/
structure IsNested (ends : List ℕ) : Prop where
  forward : ∀ a e, Folds ends a e → a < e
  nested : ∀ a e b f, Folds ends a e → Folds ends b f → a < b → e ≤ b ∨ f < e

/-- The open blocks lie above line `i`, the closed ones end above line `j`, and each of these is
inside an open one or behind where it would begin. -/
structure Tracks (s : FoldState) (i j : ℕ) : Prop where
  opened_lt : ∀ o ∈ s.opened, o < i
  opened_desc : s.opened.Pairwise (· > ·)
  ends_lt : ∀ a e, Folds s.ends a e → e < j
  outside : ∀ o ∈ s.opened, ∀ a e, Folds s.ends a e → o < a ∨ e ≤ o
  folds : IsNested s.ends

theorem toU32_eq {n : ℕ} (h : toU32 n ≠ 0) : toU32 n = n := by
  rw [toU32] at h ⊢
  split_ifs at h ⊢ with hn
  · rfl
  · exact absurd rfl h

/-- Setting one end adds at most that block. -/
theorem folds_set {ends : List ℕ} {start i a e : ℕ} (h : Folds (ends.set start (toU32 i)) a e) :
    a = start ∧ e = i ∨ a ≠ start ∧ Folds ends a e := by
  obtain ⟨hget, hne⟩ := h
  by_cases ha : a = start
  · subst ha
    rw [List.getElem?_set_self'] at hget
    obtain ⟨x, -, hx⟩ := Option.map_eq_some_iff.mp hget
    have he : toU32 i = e := hx
    rw [← he] at hne ⊢
    exact Or.inl ⟨rfl, toU32_eq hne⟩
  · rw [List.getElem?_set_ne (Ne.symm ha)] at hget
    exact Or.inr ⟨ha, hget, hne⟩

theorem Tracks.closeBlock {s : FoldState} {i : ℕ} (h : Tracks s i i) :
    Tracks (closeBlock i s) i (i + 1) := by
  obtain ⟨ends, opened⟩ := s
  obtain _ | ⟨start, rest⟩ := opened
  · exact ⟨h.opened_lt, h.opened_desc, fun a e he => Nat.lt_succ_of_lt (h.ends_lt a e he),
      h.outside, h.folds⟩
  have hstart : start < i := h.opened_lt start List.mem_cons_self
  have hdesc := List.pairwise_cons.mp h.opened_desc
  refine ⟨fun o ho => h.opened_lt o (List.mem_cons_of_mem _ ho), hdesc.2, ?_, ?_, ?_, ?_⟩
  · intro a e he
    obtain ⟨-, rfl⟩ | ⟨-, hold⟩ := folds_set he
    · omega
    · exact Nat.lt_succ_of_lt (h.ends_lt a e hold)
  · intro o ho a e he
    obtain ⟨rfl, -⟩ | ⟨-, hold⟩ := folds_set he
    · exact Or.inl (hdesc.1 o ho)
    · exact h.outside o (List.mem_cons_of_mem _ ho) a e hold
  · intro a e he
    obtain ⟨rfl, rfl⟩ | ⟨-, hold⟩ := folds_set he
    · exact hstart
    · exact h.folds.forward a e hold
  · intro a e b f ha hb hab
    obtain ⟨rfl, rfl⟩ | ⟨-, hold⟩ := folds_set ha
    · obtain ⟨rfl, rfl⟩ | ⟨-, hold'⟩ := folds_set hb
      · omega
      · exact Or.inr (h.ends_lt b f hold')
    · obtain ⟨rfl, rfl⟩ | ⟨-, hold'⟩ := folds_set hb
      · -- The closed block was not inside the one that closes now, so it ended before it began.
        obtain hinside | hbefore := h.outside b List.mem_cons_self a e hold
        · omega
        · exact Or.inl hbefore
      · exact h.folds.nested a e b f hold hold' hab

theorem Tracks.opens {s : FoldState} {i : ℕ} (h : Tracks s i (i + 1)) :
    Tracks { s with opened := i :: s.opened } (i + 1) (i + 1) := by
  refine ⟨?_, ?_, h.ends_lt, ?_, h.folds⟩
  · intro o ho
    rcases List.mem_cons.mp ho with rfl | ho
    · omega
    · exact Nat.lt_succ_of_lt (h.opened_lt o ho)
  · exact List.pairwise_cons.mpr ⟨fun o ho => h.opened_lt o ho, h.opened_desc⟩
  · intro o ho a e he
    rcases List.mem_cons.mp ho with rfl | ho
    · exact Or.inr (Nat.lt_succ_iff.mp (h.ends_lt a e he))
    · exact h.outside o ho a e he

theorem Tracks.mono {s : FoldState} {i j i' j' : ℕ} (h : Tracks s i j) (hi : i ≤ i')
    (hj : j ≤ j') : Tracks s i' j' :=
  ⟨fun o ho => (h.opened_lt o ho).trans_le hi, h.opened_desc,
    fun a e he => (h.ends_lt a e he).trans_le hj, h.outside, h.folds⟩

theorem Tracks.foldLine {s : FoldState} {i : ℕ} (h : Tracks s i i) (line : Text) :
    Tracks (foldLine i line s) (i + 1) (i + 1) := by
  have hclosed : Tracks (if startsClosed (strTrim line) then BodyWindow.closeBlock i s else s)
      i (i + 1) := by
    split_ifs
    · exact h.closeBlock
    · exact h.mono le_rfl (Nat.le_succ i)
  by_cases hopen : endsOpen (strTrim line) = true
  · have heq : BodyWindow.foldLine i line s =
        { (if startsClosed (strTrim line) then BodyWindow.closeBlock i s else s) with
          opened := i ::
            (if startsClosed (strTrim line) then BodyWindow.closeBlock i s else s).opened } :=
      if_pos hopen
    rw [heq]
    exact hclosed.opens
  · have heq : BodyWindow.foldLine i line s =
        if startsClosed (strTrim line) then BodyWindow.closeBlock i s else s := if_neg hopen
    rw [heq]
    exact hclosed.mono (Nat.le_succ i) le_rfl

theorem Tracks.foldLines {s : FoldState} {i : ℕ} (h : Tracks s i i) (lines : List Text) :
    Tracks (foldLines i lines s) (i + lines.length) (i + lines.length) := by
  induction lines generalizing i s with
  | nil => exact h
  | cons line lines ih =>
    have hrest := ih (h.foldLine line)
    rwa [Nat.add_right_comm, Nat.add_assoc] at hrest

theorem isNested_foldEnds (text : Text) (lines : List (ℕ × ℕ)) :
    IsNested (foldEnds text lines) := by
  have hnone : ∀ a e, ¬ Folds (List.replicate lines.length 0) a e := by
    rintro a e ⟨hget, hne⟩
    exact hne (List.eq_of_mem_replicate (List.mem_of_getElem? hget))
  have hstart : Tracks ⟨List.replicate lines.length 0, []⟩ 0 0 := by
    refine ⟨by simp, List.Pairwise.nil, fun a e h => absurd h (hnone a e), by simp, ?_, ?_⟩
    · exact fun a e h => absurd h (hnone a e)
    · exact fun a e b f h => absurd h (hnone a e)
  exact (hstart.foldLines (lines.map (slice text))).folds

/-- The ends of the blocks of a value that is printed over several lines, as far as their numbers
have 32 bits; and on any text the blocks are nested. -/
theorem foldEnds_spec {v : Json} (h : IsValue v) (text : Text) :
    foldEnds v.pretty (lineRanges v.pretty) = (docClosings 0 v.toDoc).map toU32 ∧
      IsNested (foldEnds text (lineRanges text)) :=
  ⟨foldEnds_pretty h, isNested_foldEnds text _⟩

theorem foldEnds_flag :
    foldEnds (Json.array [.bool true]).pretty (lineRanges (Json.array [.bool true]).pretty) =
        (docClosings 0 (Json.array [.bool true]).toDoc).map toU32 ∧
      IsNested (foldEnds "\x7d\n\x7b".toList (lineRanges "\x7d\n\x7b".toList)) :=
  foldEnds_spec (.array (by simpa using IsValue.bool true)) _

/-! ## Very long texts -/

def nulls (n : ℕ) : Json := .array (List.replicate n .null)

theorem docsHeight_nulls (n : ℕ) : docsHeight (Json.valueDocs (List.replicate n .null)) = n := by
  induction n with
  | zero => rfl
  | succ n ih =>
    rw [List.replicate_succ, Json.valueDocs, docsHeight, ih, Json.toDoc, docHeight]
    omega

theorem docClosings_nulls (n : ℕ) : (docClosings 0 (nulls (n + 1)).toDoc).head? = some (n + 2) := by
  have hheight := docsHeight_nulls (n + 1)
  rw [List.replicate_succ] at hheight
  rw [nulls, Json.toDoc, List.replicate_succ, docClosings, hheight, Json.valueDocs, Docs.isNil,
    if_neg Bool.false_ne_true, List.cons_append, List.head?_cons]
  congr 1
  omega

theorem foldEnds_nulls {n : ℕ} (h : 2 ^ 32 ≤ n + 2) :
    foldEnds (nulls (n + 1)).pretty (lineRanges (nulls (n + 1)).pretty) ≠
      docClosings 0 (nulls (n + 1)).toDoc := by
  have hvalue : IsValue (nulls (n + 1)) :=
    .array fun v hv => by rw [List.eq_of_mem_replicate hv]; exact .null
  intro heq
  have hhead := congrArg List.head? heq
  rw [foldEnds_pretty hvalue, List.head?_map, docClosings_nulls, Option.map_some, toU32,
    if_neg (Nat.not_lt.mpr h)] at hhead
  cases hhead

/-- An array that takes more lines than 32 bits can count is not folded. -/
theorem long_array_not_folded : ¬ ∀ v, IsValue v →
    foldEnds v.pretty (lineRanges v.pretty) = docClosings 0 v.toDoc := by
  intro h
  have hvalue : IsValue (nulls (2 ^ 32 + 1)) :=
    .array fun v hv => by rw [List.eq_of_mem_replicate hv]; exact .null
  exact foldEnds_nulls (by omega) (h _ hvalue)

end Voleeo.BodyWindow
