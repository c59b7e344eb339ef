import Voleeo.Sse.Decoder

/-!
# Chunking of an event stream

The frames should not depend on how the network cut the stream. The decoder
follows the whole stream line by line, except for the byte order mark: as long
as each buffer stays below three bytes the mark has not been looked for, so it
can still be dropped behind a few very short lines.
-/
namespace Voleeo.Sse

/-! ## The frames of a stream of lines -/

/-- Feed terminated lines one after another. -/
def feedLines (p : Pending) : List (List UInt8) → Pending × List RawFrame
  | [] => (p, [])
  | line :: lines =>
    let fed := feedLine p (stripCr line)
    let after := feedLines fed.1 lines
    (after.1, fed.2.toList ++ after.2)

theorem feedLines_append (p : Pending) (ls ls' : List (List UInt8)) :
    feedLines p (ls ++ ls') =
      ((feedLines (feedLines p ls).1 ls').1,
        (feedLines p ls).2 ++ (feedLines (feedLines p ls).1 ls').2) := by
  induction ls generalizing p with
  | nil => rfl
  | cons l ls ih => simp [feedLines, ih]

def linesOf (s : List UInt8) : List (List UInt8) := (splitLines newline s).1

def restOf (s : List UInt8) : List UInt8 := (splitLines newline s).2

/-- The fields of the unfinished frame after a stream. -/
def pendingAfter (s : List UInt8) : Pending := (feedLines {} (linesOf s)).1

/-- The frames that a stream completes. -/
def framesOf (s : List UInt8) : List RawFrame := (feedLines {} (linesOf s)).2

theorem linesOf_append (s t : List UInt8) :
    linesOf (s ++ t) = linesOf s ++ linesOf (restOf s ++ t) := by
  unfold linesOf restOf
  rw [splitLines_append]

theorem restOf_append (s t : List UInt8) : restOf (s ++ t) = restOf (restOf s ++ t) := by
  unfold restOf
  rw [splitLines_append]

/-- The loop of `push` feeds the lines of its buffer. -/
theorem drainLines_eq (p : Pending) (buf : List UInt8) :
    drainLines p buf =
      ((feedLines p (linesOf buf)).1, restOf buf, (feedLines p (linesOf buf)).2) := by
  induction p, buf using drainLines.induct with
  | case1 p buf h =>
    have hsplit := nextLine_eq_none h
    rw [drainLines]
    split
    · simp [linesOf, restOf, hsplit, feedLines]
    · simp_all
  | case2 p buf line rest h fed ih =>
    obtain ⟨hsplit, -⟩ := nextLine_eq_some h
    rw [drainLines]
    split
    · simp_all
    · rename_i line' rest' h'
      obtain ⟨rfl, rfl⟩ : line = line' ∧ rest = rest' := by
        simpa using h.symm.trans h'
      simp only [fed] at ih
      simp [ih, linesOf, restOf, hsplit, feedLines]

/-- The decoder has read `s`, all of it as lines. -/
structure Tracks (s : List UInt8) (d : SseDecoder) : Prop where
  buf : d.buf = restOf s
  pending : d.pending = pendingAfter s

/-- A chunk that drops nothing extends the stream that has been read. -/
theorem drainLines_of_tracks {s : List UInt8} {d : SseDecoder} (h : Tracks s d)
    (chunk : List UInt8) :
    ∃ frames, drainLines d.pending (d.buf ++ chunk) =
        (pendingAfter (s ++ chunk), restOf (s ++ chunk), frames) ∧
      framesOf (s ++ chunk) = framesOf s ++ frames := by
  refine ⟨(feedLines d.pending (linesOf (d.buf ++ chunk))).2, ?_, ?_⟩
  · rw [drainLines_eq, h.buf, h.pending, restOf_append s]
    simp only [pendingAfter, linesOf_append s, feedLines_append]
  · rw [h.buf, h.pending]
    simp only [framesOf, pendingAfter, linesOf_append s, feedLines_append]

/-- The frames of a stream without a byte order mark, cut into lines at once. -/
def decodePlain (s : List UInt8) : List RawFrame :=
  framesOf s ++ finish ⟨restOf s, pendingAfter s, true⟩

def withoutBom (s : List UInt8) : List UInt8 :=
  if byteOrderMark.isPrefixOf s then s.drop 3 else s

/-- The frames of a whole stream: drop a leading mark, cut into lines, finish. -/
def decodeStream (s : List UInt8) : List RawFrame := decodePlain (withoutBom s)

theorem finish_congr {d d' : SseDecoder} (hbuf : d.buf = d'.buf)
    (hpending : d.pending = d'.pending) : finish d = finish d' := by
  unfold finish
  rw [hbuf, hpending]

/-! ## After the check -/

theorem push_of_checked {s : List UInt8} {d : SseDecoder} (h : Tracks s d)
    {chunk : List UInt8} (hno : stripsBom d chunk = false) :
    Tracks (s ++ chunk) (push d chunk).1 ∧ framesOf (s ++ chunk) = framesOf s ++ (push d chunk).2 ∧
      (push d chunk).1.bomChecked = (d.bomChecked || checksBom d chunk) := by
  obtain ⟨frames, hdrain, hframes⟩ := drainLines_of_tracks h chunk
  have hpush : push d chunk = (⟨restOf (s ++ chunk), pendingAfter (s ++ chunk),
      d.bomChecked || checksBom d chunk⟩, frames) := by
    simp only [push, hno, Bool.false_eq_true, if_false, hdrain]
  rw [hpush]
  exact ⟨⟨rfl, rfl⟩, hframes, rfl⟩

theorem stripsBom_of_checked {d : SseDecoder} (h : d.bomChecked = true) (chunk : List UInt8) :
    stripsBom d chunk = false := by
  simp [stripsBom, checksBom, h]

/-- Once the mark has been looked for, the chunks are one stream. -/
theorem decodeChunks_of_checked {s : List UInt8} {d : SseDecoder} (h : Tracks s d)
    (hbom : d.bomChecked = true) (chunks : List (List UInt8)) :
    framesOf s ++ decodeChunks d chunks = decodePlain (s ++ chunks.flatten) ∧
      stripsSomeBom d chunks = false := by
  induction chunks generalizing s d with
  | nil =>
    refine ⟨?_, rfl⟩
    rw [List.flatten_nil, List.append_nil, decodeChunks, decodePlain]
    congr 1
    exact finish_congr h.buf h.pending
  | cons chunk chunks ih =>
    have hno := stripsBom_of_checked hbom chunk
    obtain ⟨htracks, hframes, hchecked⟩ := push_of_checked h hno
    obtain ⟨hdecode, hstrips⟩ := ih htracks (by rw [hchecked, hbom]; rfl)
    constructor
    · rw [decodeChunks, ← List.append_assoc, ← hframes, hdecode, List.flatten_cons,
        List.append_assoc]
    · rw [stripsSomeBom, hno, hstrips]
      rfl

/-! ## Before the check -/

/-- A byte order mark follows one or more lines of at most one byte. -/
def lateBom : List UInt8 → Bool
  | [] => false
  | b :: rest =>
    if b = newline then byteOrderMark.isPrefixOf rest || lateBom rest
    else
      match rest with
      | [] => false
      | c :: rest => c = newline && (byteOrderMark.isPrefixOf rest || lateBom rest)

theorem lateBom_newline (rest : List UInt8) :
    lateBom (newline :: rest) = (byteOrderMark.isPrefixOf rest || lateBom rest) := by
  rw [lateBom.eq_def]
  simp

theorem lateBom_cons_newline {b : UInt8} (hb : b ≠ newline) (rest : List UInt8) :
    lateBom (b :: newline :: rest) = (byteOrderMark.isPrefixOf rest || lateBom rest) := by
  rw [lateBom.eq_def]
  simp [hb]

/-- What the decoder can have read before it looks for the mark. -/
structure Short (s : List UInt8) : Prop where
  lines : ∀ line ∈ linesOf s, line.length ≤ 1
  rest : (restOf s).length ≤ 2

theorem join_of_splitLines (s : List UInt8) : joinLines newline (linesOf s) ++ restOf s = s :=
  joinLines_splitLines newline s

theorem bom_no_short_line {line : List UInt8} (h : line.length ≤ 1) (rest : List UInt8) :
    byteOrderMark.isPrefixOf (line ++ newline :: rest) = false := by
  match line with
  | [] => simp [byteOrderMark, newline, List.isPrefixOf]
  | [b] => simp [byteOrderMark, newline, List.isPrefixOf]
  | _ :: _ :: _ => simp at h

theorem lateBom_line {line : List UInt8} (h : line.length ≤ 1) (rest : List UInt8)
    (hrest : byteOrderMark.isPrefixOf rest = true ∨ lateBom rest = true) :
    lateBom (line ++ newline :: rest) = true := by
  have hor : (byteOrderMark.isPrefixOf rest || lateBom rest) = true := by
    rcases hrest with hrest | hrest <;> rw [hrest] <;> simp
  match line with
  | [] => rwa [List.nil_append, lateBom_newline]
  | [b] =>
    by_cases hb : b = newline
    · rw [hb, List.singleton_append, lateBom_newline, lateBom_newline, hor, Bool.or_true]
    · rwa [List.singleton_append, lateBom_cons_newline hb]
  | _ :: _ :: _ => simp at h

theorem lateBom_joinLines {lines : List (List UInt8)} (hne : lines ≠ [])
    (hshort : ∀ line ∈ lines, line.length ≤ 1) {rest : List UInt8}
    (hrest : byteOrderMark.isPrefixOf rest = true) :
    lateBom (joinLines newline lines ++ rest) = true := by
  induction lines with
  | nil => exact absurd rfl hne
  | cons line lines ih =>
    have hline := hshort line List.mem_cons_self
    have hjoin : joinLines newline (line :: lines) ++ rest =
        line ++ newline :: (joinLines newline lines ++ rest) := by
      simp [joinLines]
    rw [hjoin]
    apply lateBom_line hline
    by_cases hnil : lines = []
    · subst hnil
      exact Or.inl (by simpa [joinLines] using hrest)
    · exact Or.inr (ih hnil fun l hl => hshort l (List.mem_cons_of_mem _ hl))

/-- A stream that begins with a short line has no leading mark. -/
theorem bom_of_short {s t : List UInt8} (h : Short s) (hne : linesOf s ≠ []) :
    byteOrderMark.isPrefixOf (s ++ t) = false := by
  obtain ⟨line, lines, hlines⟩ := List.exists_cons_of_ne_nil hne
  have hjoin : s ++ t = line ++ newline :: (joinLines newline lines ++ (restOf s ++ t)) := by
    conv_lhs => rw [← join_of_splitLines s, hlines]
    simp [joinLines]
  rw [hjoin]
  exact bom_no_short_line (h.lines line (by rw [hlines]; exact List.mem_cons_self)) _

theorem short_append {s : List UInt8} (h : Short s) {chunk : List UInt8}
    (hlen : (restOf s ++ chunk).length ≤ 2) : Short (s ++ chunk) := by
  have hjoin := join_of_splitLines (restOf s ++ chunk)
  constructor
  · intro line hmem
    rw [linesOf_append, List.mem_append] at hmem
    rcases hmem with hmem | hmem
    · exact h.lines line hmem
    · -- a terminated line of the buffer is shorter than the buffer
      have hsub : (line ++ [newline]).length ≤
          (joinLines newline (linesOf (restOf s ++ chunk))).length := by
        have hmap : line ++ [newline] ∈ (linesOf (restOf s ++ chunk)).map (· ++ [newline]) :=
          List.mem_map.mpr ⟨line, hmem, rfl⟩
        rw [joinLines, List.flatMap_def]
        exact (List.sublist_flatten_of_mem hmap).length_le
      have hle := congrArg List.length hjoin
      rw [List.length_append] at hle
      rw [List.length_append, List.length_singleton] at hsub
      omega
  · rw [restOf_append]
    have hle := congrArg List.length hjoin
    rw [List.length_append] at hle
    omega

theorem short_of_tracks {s : List UInt8} {d : SseDecoder} (h : Tracks s d) (hshort : Short s)
    (hbom : d.bomChecked = false) {chunk : List UInt8} (hcheck : checksBom d chunk = false) :
    Short (s ++ chunk) := by
  apply short_append hshort
  rw [← h.buf]
  simp only [checksBom, hbom, Bool.not_false, Bool.true_and, decide_eq_false_iff_not] at hcheck
  omega

/-- A mark behind short lines is dropped only in front of the first line, unless it is late. -/
theorem linesOf_eq_nil_of_strips {s t : List UInt8} {d : SseDecoder} {chunk : List UInt8}
    (h : Tracks s d) (hshort : Short s) (hlate : lateBom (s ++ chunk ++ t) = false)
    (hstrips : stripsBom d chunk = true) : linesOf s = [] := by
  by_contra hne
  have hprefix : byteOrderMark.isPrefixOf (restOf s ++ chunk ++ t) = true := by
    rw [List.isPrefixOf_iff_prefix]
    simp only [stripsBom, Bool.and_eq_true, List.isPrefixOf_iff_prefix, h.buf] at hstrips
    exact hstrips.2.trans (List.prefix_append _ _)
  have hjoin : s ++ chunk ++ t = joinLines newline (linesOf s) ++ (restOf s ++ chunk ++ t) := by
    conv_lhs => rw [← join_of_splitLines s]
    simp only [List.append_assoc]
  rw [hjoin, lateBom_joinLines hne hshort.lines hprefix] at hlate
  cases hlate

theorem restOf_of_no_lines {s : List UInt8} (h : linesOf s = []) : restOf s = s := by
  have hjoin := join_of_splitLines s
  rwa [h] at hjoin

/-- The leading mark is decided by the first three bytes. -/
theorem isPrefixOf_bom_append {s : List UInt8} (h : 3 ≤ s.length) (t : List UInt8) :
    byteOrderMark.isPrefixOf (s ++ t) = byteOrderMark.isPrefixOf s := by
  match s with
  | a :: b :: c :: s => simp [byteOrderMark, List.isPrefixOf]
  | [] | [_] | [_, _] => simp at h

theorem isPrefixOf_bom_of_short {s : List UInt8} (h : s.length < 3) :
    byteOrderMark.isPrefixOf s = false := by
  match s with
  | [] | [_] | [_, _] => simp [byteOrderMark, List.isPrefixOf]
  | _ :: _ :: _ :: _ =>
    simp only [List.length_cons] at h
    omega

theorem withoutBom_append {s : List UInt8} (h : 3 ≤ s.length) (t : List UInt8) :
    withoutBom (s ++ t) = withoutBom s ++ t := by
  unfold withoutBom
  rw [isPrefixOf_bom_append h]
  split_ifs
  · rw [List.drop_append_of_le_length h]
  · rfl

/-- Without a late mark the decoder gives the frames of the whole stream, and drops a mark exactly
when the stream begins with one. -/
theorem decodeChunks_of_unchecked {s : List UInt8} {d : SseDecoder} (h : Tracks s d)
    (hshort : Short s) (hbom : d.bomChecked = false) (chunks : List (List UInt8))
    (hlate : lateBom (s ++ chunks.flatten) = false) :
    framesOf s ++ decodeChunks d chunks = decodeStream (s ++ chunks.flatten) ∧
      stripsSomeBom d chunks = byteOrderMark.isPrefixOf (s ++ chunks.flatten) := by
  induction chunks generalizing s d with
  | nil =>
    have hno : byteOrderMark.isPrefixOf s = false := by
      by_cases hne : linesOf s = []
      · apply isPrefixOf_bom_of_short
        have hrest := hshort.rest
        rw [restOf_of_no_lines hne] at hrest
        omega
      · simpa using bom_of_short (t := []) hshort hne
    simp only [List.flatten_nil, List.append_nil]
    refine ⟨?_, hno.symm⟩
    rw [decodeChunks, decodeStream, decodePlain, withoutBom, hno]
    congr 1
    exact finish_congr h.buf h.pending
  | cons chunk chunks ih =>
    rw [List.flatten_cons, ← List.append_assoc] at hlate ⊢
    cases hcheck : checksBom d chunk with
    | false =>
      have hno : stripsBom d chunk = false := by simp [stripsBom, hcheck]
      obtain ⟨htracks, hframes, hchecked⟩ := push_of_checked h hno
      have hshort' := short_of_tracks h hshort hbom hcheck
      obtain ⟨hdecode, hstrips⟩ := ih htracks hshort' (by rw [hchecked, hbom, hcheck]; rfl) hlate
      constructor
      · rw [decodeChunks, ← List.append_assoc, ← hframes, hdecode]
      · rw [stripsSomeBom, hno, hstrips, Bool.false_or]
    | true =>
      have hlen : 3 ≤ (restOf s ++ chunk).length := by
        rw [← h.buf]
        simp only [checksBom, hbom, Bool.not_false, Bool.true_and, decide_eq_true_eq] at hcheck
        exact hcheck
      cases hstrips : stripsBom d chunk with
      | false =>
        obtain ⟨htracks, hframes, hchecked⟩ := push_of_checked h hstrips
        obtain ⟨hdecode, hrest⟩ := decodeChunks_of_checked htracks
          (by rw [hchecked, hcheck, Bool.or_true]) chunks
        have hno : byteOrderMark.isPrefixOf (s ++ chunk ++ chunks.flatten) = false := by
          by_cases hne : linesOf s = []
          · have hs := restOf_of_no_lines hne
            rw [hs] at hlen
            rw [isPrefixOf_bom_append hlen]
            simpa [stripsBom, hcheck, h.buf, hs] using hstrips
          · rw [List.append_assoc]
            exact bom_of_short hshort hne
        constructor
        · rw [decodeChunks, ← List.append_assoc, ← hframes, hdecode, decodeStream, withoutBom, hno]
          rfl
        · rw [stripsSomeBom, hstrips, hrest, hno]
          rfl
      | true =>
        have hnil := linesOf_eq_nil_of_strips h hshort hlate hstrips
        have hs := restOf_of_no_lines hnil
        have hbuf : d.buf = s := h.buf.trans hs
        have hpending : d.pending = {} := by
          rw [h.pending, pendingAfter, hnil]
          rfl
        have hprefix : byteOrderMark.isPrefixOf (s ++ chunk) = true := by
          simp only [stripsBom, Bool.and_eq_true, hbuf] at hstrips
          exact hstrips.2
        rw [hs] at hlen
        -- the chunk starts the stream of the lines after the mark
        have hpush : push d chunk = (⟨restOf (withoutBom (s ++ chunk)),
            pendingAfter (withoutBom (s ++ chunk)), true⟩,
            framesOf (withoutBom (s ++ chunk))) := by
          simp only [push, hstrips, if_true, hbuf, hpending, hcheck, Bool.or_true,
            drainLines_eq, withoutBom, hprefix, pendingAfter, framesOf]
        have hframes : framesOf s = [] := by
          rw [framesOf, hnil]
          rfl
        obtain ⟨hdecode, hrest⟩ := decodeChunks_of_checked
          (s := withoutBom (s ++ chunk)) (d := (push d chunk).1)
          (by rw [hpush]; exact ⟨rfl, rfl⟩) (by rw [hpush]) chunks
        constructor
        · rw [decodeChunks, hframes, List.nil_append, decodeStream, withoutBom_append hlen,
            ← hdecode, hpush]
        · rw [stripsSomeBom, hstrips, isPrefixOf_bom_append hlen, hprefix, Bool.true_or]

/-! ## The law and its exact condition -/

/-- Every chunking of the stream gives the same frames, and a byte order mark is dropped exactly
when the stream begins with it. -/
def ChunkingInvariant (s : List UInt8) : Prop :=
  ∀ chunks chunks' : List (List UInt8), chunks.flatten = s → chunks'.flatten = s →
    decodeChunks {} chunks = decodeChunks {} chunks' ∧
      (stripsSomeBom {} chunks = true ↔ byteOrderMark <+: s)

theorem tracks_fresh : Tracks [] {} := ⟨rfl, rfl⟩

theorem short_nil : Short [] := ⟨by simp [linesOf], by simp [restOf]⟩

theorem lines_of_lateBom {s : List UInt8} (h : lateBom s = true) :
    ∃ lines rest, lines ≠ [] ∧ (∀ line ∈ lines, line.length ≤ 1 ∧ newline ∉ line) ∧
      s = joinLines newline lines ++ rest ∧ byteOrderMark.isPrefixOf rest = true := by
  induction s using lateBom.induct with
  | case1 => cases h
  | case2 rest ih =>
    rw [lateBom_newline, Bool.or_eq_true] at h
    rcases h with h | h
    · exact ⟨[[]], rest, by simp, by simp, by simp [joinLines], h⟩
    · obtain ⟨lines, rest', -, hshort, rfl, hprefix⟩ := ih h
      refine ⟨[] :: lines, rest', by simp, ?_, by simp [joinLines], hprefix⟩
      intro line hmem
      rcases List.mem_cons.mp hmem with rfl | hmem
      · simp
      · exact hshort line hmem
  | case3 b hb =>
    rw [lateBom.eq_def] at h
    simp [hb] at h
  | case4 b hb c rest ih =>
    have hc : c = newline := by
      rw [lateBom.eq_def] at h
      simp only [hb, if_false, Bool.and_eq_true, decide_eq_true_eq] at h
      exact h.1
    subst hc
    rw [lateBom_cons_newline hb, Bool.or_eq_true] at h
    rcases h with h | h
    · exact ⟨[[b]], rest, by simp, by simpa using Ne.symm hb, by simp [joinLines], h⟩
    · obtain ⟨lines, rest', -, hshort, rfl, hprefix⟩ := ih h
      refine ⟨[b] :: lines, rest', by simp, ?_, by simp [joinLines], hprefix⟩
      intro line hmem
      rcases List.mem_cons.mp hmem with rfl | hmem
      · exact ⟨by simp, by simpa using Ne.symm hb⟩
      · exact hshort line hmem

/-- Fed one short line at a time, the decoder never looks for the mark. -/
theorem stripsSomeBom_of_short {lines : List (List UInt8)}
    (hshort : ∀ line ∈ lines, line.length ≤ 1 ∧ newline ∉ line) {rest : List UInt8}
    (hrest : byteOrderMark.isPrefixOf rest = true) {d : SseDecoder} (hbuf : d.buf = [])
    (hbom : d.bomChecked = false) :
    stripsSomeBom d (lines.map (· ++ [newline]) ++ [rest]) = true := by
  induction lines generalizing d with
  | nil =>
    have hlen : 3 ≤ rest.length := by
      by_contra hlt
      rw [isPrefixOf_bom_of_short (by omega)] at hrest
      cases hrest
    simp [stripsSomeBom, stripsBom, checksBom, hbuf, hbom, hlen,
      List.isPrefixOf_iff_prefix.mp hrest]
  | cons line lines ih =>
    obtain ⟨hlen, hno⟩ := hshort line List.mem_cons_self
    have hcheck : checksBom d (line ++ [newline]) = false := by
      simp only [checksBom, hbom, hbuf, List.nil_append, List.length_append,
        List.length_singleton, Bool.not_false, Bool.true_and, decide_eq_false_iff_not]
      omega
    have hstrips : stripsBom d (line ++ [newline]) = false := by simp [stripsBom, hcheck]
    have hrestOf : restOf (line ++ [newline]) = [] := by
      unfold restOf
      rw [splitLines_line hno, splitLines_nil]
    rw [List.map_cons, List.cons_append, stripsSomeBom, hstrips, Bool.false_or]
    apply ih fun l hl => hshort l (List.mem_cons_of_mem _ hl)
    · simp [push, hstrips, drainLines_eq, hbuf, hrestOf]
    · simp [push, hbom, hcheck]

/-- A stream decodes the same under every chunking exactly when no mark is late. -/
theorem chunkingInvariant_iff (s : List UInt8) : ChunkingInvariant s ↔ lateBom s = false := by
  constructor
  · intro h
    by_contra hlate
    obtain ⟨lines, rest, hne, hshort, rfl, hprefix⟩ :=
      lines_of_lateBom (Bool.eq_true_of_not_eq_false hlate)
    have hflatten : (lines.map (· ++ [newline]) ++ [rest]).flatten =
        joinLines newline lines ++ rest := by
      simp [joinLines, List.flatMap_def]
    have hleading := (h _ _ hflatten hflatten).2.mp
      (stripsSomeBom_of_short hshort hprefix rfl rfl)
    obtain ⟨line, lines, rfl⟩ := List.exists_cons_of_ne_nil hne
    have hno := bom_no_short_line (hshort line List.mem_cons_self).1
      (joinLines newline lines ++ rest)
    rw [← List.isPrefixOf_iff_prefix] at hleading
    simp only [joinLines, List.flatMap_cons, List.append_assoc, List.cons_append,
      List.nil_append] at hleading hno
    rw [hno] at hleading
    cases hleading
  · intro hlate chunks chunks' hchunks hchunks'
    have hrun : ∀ cs : List (List UInt8), cs.flatten = s →
        decodeChunks {} cs = decodeStream s ∧
          stripsSomeBom {} cs = byteOrderMark.isPrefixOf s := by
      intro cs hcs
      have hlate' : lateBom ([] ++ cs.flatten) = false := by rwa [List.nil_append, hcs]
      have hdecode := decodeChunks_of_unchecked tracks_fresh short_nil rfl cs hlate'
      rwa [List.nil_append, hcs] at hdecode
    refine ⟨(hrun chunks hchunks).1.trans (hrun chunks' hchunks').1.symm, ?_⟩
    rw [(hrun chunks hchunks).2, List.isPrefixOf_iff_prefix]

/-- An empty line, a byte order mark and one data line. -/
def lateMarkStream : List UInt8 :=
  newline :: byteOrderMark ++ [0x64, 0x61, 0x74, 0x61, 0x3A, 0x78, newline]

/-- In one chunk the data line is an unknown field, and behind the empty line it is a frame. -/
theorem lateMarkStream_depends_on_chunks : ¬ ChunkingInvariant lateMarkStream := by
  intro h
  have hframes := (h [lateMarkStream] [[newline], lateMarkStream.tail] (by decide) (by decide)).1
  simp only [decodeChunks, push, drainLines_eq] at hframes
  exact absurd hframes (by decide)

end Voleeo.Sse
