import Voleeo.Sse.Chunking

/-!
# The end of an event stream

A stream may end without the line end and the blank line of its last frame. The rest is then read
by a second copy of the line handling. It leaves a carriage return at the end of the line, so that
the last line of a stream that was cut between CR and LF has one character too many.
-/
namespace Voleeo.Sse

/-! ## A last byte below 128 -/

theorem not_isContinuation_of_ascii {b : UInt8} (hb : b.toNat < 0x80) :
    isContinuation b = false := by
  rw [Bool.eq_false_iff, ne_eq, isContinuation_iff]
  omega

theorem not_isSecondOf3_of_ascii {first b : UInt8} (hb : b.toNat < 0x80) :
    isSecondOf3 first b = false := by
  simp only [isSecondOf3, Bool.or_eq_false_iff, Bool.and_eq_false_iff, decide_eq_false_iff_not]
  omega

theorem not_isSecondOf4_of_ascii {first b : UInt8} (hb : b.toNat < 0x80) :
    isSecondOf4 first b = false := by
  simp only [isSecondOf4, Bool.or_eq_false_iff, Bool.and_eq_false_iff, decide_eq_false_iff_not]
  omega

/-- Such a byte ends a sequence like the end of the input. -/
theorem decodeFirst_concat (first : UInt8) (rest : List UInt8) {b : UInt8} (hb : b.toNat < 0x80) :
    decodeFirst first (rest ++ [b]) = decodeFirst first rest := by
  have hc := not_isContinuation_of_ascii hb
  have h3 : isSecondOf3 first b = false := not_isSecondOf3_of_ascii hb
  have h4 : isSecondOf4 first b = false := not_isSecondOf4_of_ascii hb
  match rest with
  | [] => simp [decodeFirst, hc, h3, h4]
  | [x] => simp [decodeFirst, hc]
  | [x, y] => simp [decodeFirst, hc]
  | x :: y :: z :: rest => simp [decodeFirst]

theorem decodeFirst_le (first : UInt8) (rest : List UInt8) :
    (decodeFirst first rest).2 ≤ rest.length := by
  match rest with
  | [] => simp only [decodeFirst]; split_ifs <;> simp
  | [x] => simp only [decodeFirst]; split_ifs <;> simp
  | [x, y] => simp only [decodeFirst]; split_ifs <;> simp
  | x :: y :: z :: rest => simp only [decodeFirst]; split_ifs <;> simp

theorem decodeFrom_concat {skip : ℕ} {bytes : List UInt8} {b : UInt8} (hb : b.toNat < 0x80)
    (hskip : skip ≤ bytes.length) :
    decodeFrom skip (bytes ++ [b]) = decodeFrom skip bytes ++ [Char.ofNat b.toNat] := by
  induction bytes generalizing skip with
  | nil =>
    obtain rfl : skip = 0 := Nat.le_zero.mp hskip
    exact decodeFrom_one rfl hb
  | cons first bytes ih =>
    match skip with
    | 0 =>
      rw [List.cons_append, decodeFrom, decodeFrom, decodeFirst_concat first bytes hb,
        ih (decodeFirst_le first bytes)]
      rfl
    | skip + 1 =>
      rw [List.cons_append, decodeFrom, decodeFrom]
      exact ih (Nat.le_of_succ_le_succ hskip)

theorem fromUtf8Lossy_concat_cr (line : List UInt8) :
    fromUtf8Lossy (line ++ [carriageReturn]) = fromUtf8Lossy line ++ ['\r'] :=
  decodeFrom_concat (by decide) (Nat.zero_le _)

/-! ## One line -/

def fieldNames : List Text := ["event".toList, "data".toList, "id".toList, "retry".toList]

/-- The fields after a line with this field and value. -/
def applyField (p : Pending) (field value : Text) : Pending :=
  if field = "event".toList then { p with event := some value, dirty := true }
  else if field = "data".toList then { p with data := p.data ++ [value], dirty := true }
  else if field = "id".toList then { p with id := some value, dirty := true }
  else if field = "retry".toList then { p with retry := parseU32 value, dirty := true }
  else p

def readLine (p : Pending) (text : Text) : Pending :=
  applyField p (splitField text).1 (splitField text).2

/-- The frame that is due when no more lines follow. -/
def flush (p : Pending) : List RawFrame := if p.dirty then [takeFrame p] else []

variable {p : Pending} {field value text : Text}

theorem applyField_of_unknown (h : field ∉ fieldNames) (value : Text) :
    applyField p field value = p := by
  simp only [fieldNames, List.mem_cons, List.not_mem_nil, or_false, not_or] at h
  rw [applyField, if_neg h.1, if_neg h.2.1, if_neg h.2.2.1, if_neg h.2.2.2]

theorem readLine_nil (p : Pending) : readLine p [] = p := applyField_of_unknown (by decide) _

theorem feedLine_eq (p : Pending) {line : List UInt8} (h : line ≠ []) :
    feedLine p line = (readLine p (fromUtf8Lossy line), none) := by
  match line with
  | [] => exact absurd rfl h
  | first :: rest =>
    by_cases hcomment : first = colonByte
    · have hcolon : fromUtf8Lossy (first :: rest) = ':' :: decodeFrom 0 rest :=
        decodeFrom_one (hcomment ▸ rfl) (by decide)
      have hfield : (splitField (fromUtf8Lossy (first :: rest))).1 = [] := by
        rw [hcolon]
        rfl
      rw [feedLine, if_pos hcomment, readLine, hfield, applyField_of_unknown (by decide)]
    · rw [feedLine, if_neg hcomment, readLine]
      simp only [applyField]
      split_ifs <;> rfl

theorem finish_eq (d : SseDecoder) : finish d = flush (readLine d.pending (fromUtf8Lossy d.buf)) := by
  by_cases hbuf : d.buf = []
  · rw [finish, if_pos hbuf, hbuf, fromUtf8Lossy, decodeFrom, readLine_nil]
    rfl
  · rw [finish, if_neg hbuf, feedLine_eq d.pending hbuf]
    rfl

/-- A line and a blank line. -/
theorem feedLines_blank (p : Pending) (line : List UInt8) :
    (feedLines p [line, []]).2 = flush (readLine p (fromUtf8Lossy (stripCr line))) := by
  have hblank : ∀ q, (feedLine q (stripCr [])).2.toList = flush q := by
    intro q
    rw [stripCr, flush]
    dsimp only [List.getLast?_nil, feedLine]
    split_ifs <;> rfl
  rw [feedLines, feedLines, feedLines, List.append_nil, hblank]
  by_cases hline : stripCr line = []
  · rw [hline, fromUtf8Lossy, decodeFrom, readLine_nil, feedLine]
    cases hdirty : p.dirty <;> simp [flush, hdirty]
  · rw [feedLine_eq p hline]
    rfl

/-! ## A carriage return at the end of a line -/

theorem splitField_of_not_mem (h : ':' ∉ text) : splitField text = (text, []) := by
  have hdrop : text.dropWhile (fun c => decide (c ≠ ':')) = [] := by
    rw [List.dropWhile_eq_nil_iff]
    intro c hc
    exact decide_eq_true fun heq => h (heq ▸ hc)
  rw [splitField, hdrop]

def withoutSpace : Text → Text
  | ' ' :: rest => rest
  | value => value

theorem splitField_colon {name : Text} (h : ':' ∉ name) (value : Text) :
    splitField (name ++ ':' :: value) = (name, withoutSpace value) := by
  have hname : ∀ c ∈ name, decide (c ≠ ':') = true := fun c hc =>
    decide_eq_true fun heq => h (heq ▸ hc)
  rw [splitField, List.dropWhile_append_of_pos hname, List.takeWhile_append_of_pos hname,
    List.dropWhile_cons_of_neg (by decide), List.takeWhile_cons_of_neg (by decide), List.append_nil]
  rfl

theorem withoutSpace_concat_cr (value : Text) :
    withoutSpace (value ++ ['\r']) = withoutSpace value ++ ['\r'] := by
  match value with
  | [] => rfl
  | c :: rest =>
    by_cases hc : c = ' '
    · rw [hc]
      rfl
    · simp [withoutSpace, hc]

/-- Behind a colon the field is settled, and the value grows. -/
theorem splitField_concat_cr (h : ':' ∈ text) :
    splitField (text ++ ['\r']) = ((splitField text).1, (splitField text).2 ++ ['\r']) := by
  obtain ⟨name, value, rfl, hname⟩ := List.eq_append_cons_of_mem h
  rw [List.append_assoc, List.cons_append, splitField_colon hname, splitField_colon hname,
    withoutSpace_concat_cr]

theorem parseU32_concat_cr (value : Text) : parseU32 (value ++ ['\r']) = none := by
  have hlast : ∀ digits : Text, '\r' ∈ digits →
      ¬ (digits ≠ [] ∧ digits.all Char.isDigit ∧ digitsValue digits < 2 ^ 32) := by
    rintro digits hmem ⟨-, hall, -⟩
    exact absurd (List.all_eq_true.mp hall _ hmem) (by decide)
  refine if_neg (hlast _ ?_)
  split
  · rename_i rest heq
    have hin : '\r' ∈ '+' :: rest := heq ▸ List.mem_append_right _ List.mem_cons_self
    exact (List.mem_cons.mp hin).resolve_left (by decide)
  · exact List.mem_append_right _ List.mem_cons_self

theorem takeFrame_data_concat_cr (p : Pending) (value : Text) :
    List.intercalate ['\n'] (p.data ++ [value ++ ['\r']]) =
      List.intercalate ['\n'] (p.data ++ [value]) ++ ['\r'] := by
  by_cases hdata : p.data = []
  · simp [hdata]
  · rw [intercalate_concat _ hdata, intercalate_concat _ hdata]
    simp

/-! ## When the carriage return does not matter -/

/-- A field name without a colon that adds nothing to the frame. -/
def AddsNothing (p : Pending) (field : Text) : Prop :=
  p.dirty = true ∧ (field = "event".toList → p.event = some []) ∧
    (field = "data".toList → p.data = []) ∧ (field = "id".toList → p.id = some []) ∧
    (field = "retry".toList → p.retry = none)

/-- The line is read the same with a carriage return behind it: its field is unknown, it is a
`retry` without a number, or it is a bare field name that adds nothing. -/
def CrHarmless (p : Pending) (text : Text) : Prop :=
  (splitField text).1 ∉ fieldNames ∨
    if ':' ∈ text then (splitField text).1 = "retry".toList ∧ parseU32 (splitField text).2 = none
    else AddsNothing p text

theorem flush_value_iff (p : Pending) (hfield : field ∈ fieldNames) (value : Text) :
    flush (applyField p field (value ++ ['\r'])) = flush (applyField p field value) ↔
      field = "retry".toList ∧ parseU32 value = none := by
  simp only [fieldNames, List.mem_cons, List.not_mem_nil, or_false] at hfield
  rcases hfield with rfl | rfl | rfl | rfl
  · simp [applyField, flush, takeFrame]
  · simp [applyField, flush, takeFrame, takeFrame_data_concat_cr]
  · simp [applyField, flush, takeFrame]
  · have hnone : none = parseU32 value ↔ parseU32 value = none := eq_comm
    simpa [applyField, flush, takeFrame, parseU32_concat_cr] using hnone

theorem flush_bare_iff (p : Pending) (hfield : field ∈ fieldNames) :
    flush p = flush (applyField p field []) ↔ AddsNothing p field := by
  have hjoin : List.intercalate ['\n'] p.data = List.intercalate ['\n'] (p.data ++ [[]]) ↔
      p.data = [] := by
    refine ⟨fun h => by_contra fun hdata => ?_, fun h => by simp [h]⟩
    rw [intercalate_concat _ hdata] at h
    simp at h
  have hretry : parseU32 [] = none := by decide
  simp only [fieldNames, List.mem_cons, List.not_mem_nil, or_false] at hfield
  cases hdirty : p.dirty with
  | false =>
    rcases hfield with rfl | rfl | rfl | rfl <;>
      simp [applyField, flush, takeFrame, AddsNothing, hdirty]
  | true =>
    rcases hfield with rfl | rfl | rfl | rfl
    · simp [applyField, flush, takeFrame, AddsNothing, hdirty]
    · simp [applyField, flush, takeFrame, AddsNothing, hdirty, hjoin]
    · simp [applyField, flush, takeFrame, AddsNothing, hdirty]
    · simp [applyField, flush, takeFrame, AddsNothing, hdirty, hretry]

theorem crHarmless_iff (p : Pending) (text : Text) :
    flush (readLine p (text ++ ['\r'])) = flush (readLine p text) ↔ CrHarmless p text := by
  by_cases hcolon : ':' ∈ text
  · rw [CrHarmless, if_pos hcolon, readLine, readLine, splitField_concat_cr hcolon]
    by_cases hfield : (splitField text).1 ∈ fieldNames
    · rw [flush_value_iff p hfield]
      exact (or_iff_right (not_not.mpr hfield)).symm
    · rw [applyField_of_unknown hfield, applyField_of_unknown hfield]
      exact iff_of_true rfl (Or.inl hfield)
  · have hcr : text ++ ['\r'] ∉ fieldNames := by
      intro hmem
      have hlast : ∀ name ∈ fieldNames, name.getLast? ≠ some '\r' := by decide
      exact hlast _ hmem List.getLast?_concat
    have hcolon' : ':' ∉ text ++ ['\r'] := by simpa using hcolon
    rw [CrHarmless, if_neg hcolon, readLine, readLine, splitField_of_not_mem hcolon,
      splitField_of_not_mem hcolon', applyField_of_unknown hcr]
    dsimp only
    by_cases hfield : text ∈ fieldNames
    · rw [flush_bare_iff p hfield]
      exact (or_iff_right (not_not.mpr hfield)).symm
    · rw [applyField_of_unknown hfield]
      exact iff_of_true rfl (Or.inl hfield)

/-! ## Whole streams -/

theorem stripCr_concat (line : List UInt8) : stripCr (line ++ [carriageReturn]) = line := by
  rw [stripCr, if_pos List.getLast?_concat, List.dropLast_concat]

/-- Two line ends cannot complete a byte order mark. -/
theorem stripsBom_terminated (s : List UInt8) :
    stripsBom {} (s ++ [newline, newline]) = stripsBom {} s := by
  match s with
  | [] => rfl
  | [_] => simp [stripsBom, checksBom, byteOrderMark, newline, List.isPrefixOf]
  | [_, _] => simp [stripsBom, checksBom, byteOrderMark, newline, List.isPrefixOf]
  | a :: b :: c :: s => simp [stripsBom, checksBom, byteOrderMark, List.isPrefixOf]

/-- What the fresh decoder reads of a stream that comes at once. -/
def readBytes (s : List UInt8) : List UInt8 := if stripsBom {} s then s.drop 3 else s

theorem push_fresh (s : List UInt8) :
    push {} s = (⟨restOf (readBytes s), pendingAfter (readBytes s), checksBom {} s⟩,
      framesOf (readBytes s)) := by
  simp only [push, List.nil_append, drainLines_eq, Bool.false_or]
  rfl

theorem readBytes_terminated (s : List UInt8) :
    readBytes (s ++ [newline, newline]) = readBytes s ++ [newline, newline] := by
  rw [readBytes, readBytes, stripsBom_terminated]
  split_ifs with hbom
  · have hlen : 3 ≤ s.length := by
      simp only [stripsBom, checksBom, Bool.and_eq_true, decide_eq_true_eq] at hbom
      exact hbom.1.2
    rw [List.drop_append_of_le_length hlen]
  · rfl

/-- The lines that the terminators close are the rest of the stream and a blank line. -/
theorem framesOf_terminated (t : List UInt8) :
    framesOf (t ++ [newline, newline]) =
      framesOf t ++ flush (readLine (pendingAfter t) (fromUtf8Lossy (stripCr (restOf t)))) := by
  have hrest : newline ∉ restOf t := sep_not_mem_rest newline t
  have hlines : linesOf (restOf t ++ [newline, newline]) = [restOf t, []] := by
    rw [linesOf, splitLines_line hrest, splitLines_sep]
    rfl
  rw [framesOf, linesOf_append, feedLines_append, hlines, feedLines_blank]
  rfl

/-- Finishing a stream gives the frames of the stream with its last frame terminated exactly when
the line that is left does not end in a carriage return, or would be read the same without it. -/
theorem finish_iff_terminated (s : List UInt8) :
    (push {} s).2 ++ finish (push {} s).1 = (push {} (s ++ [newline, newline])).2 ↔
      ∀ line, (push {} s).1.buf = line ++ [carriageReturn] →
        CrHarmless (push {} s).1.pending (fromUtf8Lossy line) := by
  rw [push_fresh, push_fresh, readBytes_terminated, framesOf_terminated, List.append_cancel_left_eq,
    finish_eq]
  dsimp only
  by_cases hcr : (restOf (readBytes s)).getLast? = some carriageReturn
  · obtain ⟨line, hline⟩ := List.getLast?_eq_some_iff.mp hcr
    rw [hline, stripCr_concat, fromUtf8Lossy_concat_cr, crHarmless_iff]
    refine ⟨fun h other hother => ?_, fun h => h line rfl⟩
    rwa [← (List.append_left_inj _).mp hother]
  · rw [stripCr, if_neg hcr]
    refine iff_of_true rfl fun line hline => absurd ?_ hcr
    rw [hline, List.getLast?_concat]

/-- `data: x` with its carriage return, cut before the line feed. -/
theorem finish_keeps_cr : ¬ ∀ s : List UInt8,
    (push {} s).2 ++ finish (push {} s).1 = (push {} (s ++ [newline, newline])).2 := by
  intro h
  have hcr := h [0x64, 0x61, 0x74, 0x61, 0x3A, 0x20, 0x78, 0x0D]
  rw [push_fresh, push_fresh] at hcr
  revert hcr
  decide

end Voleeo.Sse
