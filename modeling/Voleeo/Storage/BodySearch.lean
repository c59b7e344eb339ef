import Voleeo.JsString
import Voleeo.Resolve.Str
import Voleeo.Scan

/-!
# Windows on a stored body

A body is indexed once: the range of each line, and for each line that opens a block the line
that closes it. Offsets count characters here. The source counts bytes, and all its offsets lie
between characters.
-/
namespace Voleeo.BodyWindow

/-- `u32::try_from(n).unwrap_or(0)`. -/
def toU32 (n : ℕ) : ℕ := if n < 2 ^ 32 then n else 0

/-! ## Lines -/

/-- The lines from offset `i` on, where the first of them has begun at `start`. -/
def lineRangesFrom (start i : ℕ) : Text → List (ℕ × ℕ)
  | [] => if start < i then [(start, i)] else []
  | c :: rest =>
    if c = '\n' then (start, i) :: lineRangesFrom (i + 1) (i + 1) rest
    else lineRangesFrom start (i + 1) rest

/-- Start and end of each line without its line feed; no empty line behind the last one. -/
def lineRanges (text : Text) : List (ℕ × ℕ) := lineRangesFrom 0 0 text

def slice (text : Text) (range : ℕ × ℕ) : Text := (text.take range.2).drop range.1

/-! ## Blocks -/

/-- The ends that are known, and the lines of the open blocks, the innermost first. -/
structure FoldState where
  ends : List ℕ
  opened : List ℕ

def startsClosed (line : Text) : Bool := line.head? == some '\x7d' || line.head? == some ']'

def endsOpen (line : Text) : Bool := line.getLast? == some '\x7b' || line.getLast? == some '['

def closeBlock (i : ℕ) (s : FoldState) : FoldState :=
  match s.opened with
  | [] => s
  | start :: rest => { ends := s.ends.set start (toU32 i), opened := rest }

def foldLine (i : ℕ) (line : Text) (s : FoldState) : FoldState :=
  let line := Resolve.strTrim line
  let s := if startsClosed line then closeBlock i s else s
  if endsOpen line then { s with opened := i :: s.opened } else s

def foldLines (i : ℕ) : List Text → FoldState → FoldState
  | [], s => s
  | line :: rest, s => foldLines (i + 1) rest (foldLine i line s)

def foldEnds (text : Text) (lines : List (ℕ × ℕ)) : List ℕ :=
  (foldLines 0 (lines.map (slice text)) ⟨List.replicate lines.length 0, []⟩).ends

/-- A body with its index. -/
structure Parsed where
  text : Text
  lines : List (ℕ × ℕ)
  folds : List ℕ

def parse (text : Text) : Parsed :=
  let lines := lineRanges text
  { text, lines, folds := foldEnds text lines }

/-! ## Windows -/

structure Window where
  lines : List Text
  totalLines : ℕ
  foldEnds : List ℕ

/-- The lines from a number on; `total_lines` is cut to 32 bits. -/
def window (parsed : Parsed) (startLine count : ℕ) : Window :=
  let total := parsed.lines.length
  let start := min startLine total
  let stop := min (start + count) total
  { lines := ((parsed.lines.take stop).drop start).map (slice parsed.text)
    totalLines := min total (2 ^ 32 - 1)
    foldEnds := (parsed.folds.take stop).drop start }

/-! ## Searching -/

structure SearchOpts where
  caseSensitive : Bool
  wholeWord : Bool
  deriving DecidableEq, Repr

structure BodyMatch where
  line : ℕ
  col : ℕ
  len : ℕ
  deriving DecidableEq, Repr

structure SearchResult where
  found : List BodyMatch
  total : ℕ
  truncated : Bool

def matchCap : ℕ := 5000

def isWord (c : Char) : Bool := c.isAlphanum || c == '_'

/-- No word character in front of the occurrence or behind it. -/
def isWordBounded (text : Text) (start length : ℕ) : Bool :=
  (start == 0 || !(text[start - 1]?.any isWord)) && !(text[start + length]?.any isWord)

/-- `match_indices`: the next occurrence is looked for behind the last one. -/
def matchIndices (needle : Text) (i skip : ℕ) : Text → List ℕ
  | [] => []
  | c :: rest =>
    if skip = 0 ∧ needle <+: c :: rest then
      i :: matchIndices needle (i + 1) (needle.length - 1) rest
    else matchIndices needle (i + 1) (skip - 1) rest

def foldCase (opts : SearchOpts) (text : Text) : Text :=
  if opts.caseSensitive then text else text.map Char.toLower

/-- The last line that begins at the position or in front of it, and the characters between. -/
def placeOf (parsed : Parsed) (query : Text) (pos : ℕ) : BodyMatch :=
  let li := (parsed.lines.takeWhile fun range => range.1 ≤ pos).length - 1
  let start := (parsed.lines.getD li (0, 0)).1
  { line := toU32 li, col := toU32 (slice parsed.text (start, pos)).length
    len := toU32 query.length }

/-- The total wraps at 32 bits. -/
def addMatch (parsed : Parsed) (query : Text) (r : List BodyMatch × ℕ) (pos : ℕ) :
    List BodyMatch × ℕ :=
  (if r.1.length < matchCap then r.1 ++ [placeOf parsed query pos] else r.1, (r.2 + 1) % 2 ^ 32)

def search (parsed : Parsed) (query : Text) (opts : SearchOpts) : SearchResult :=
  if query = [] then { found := [], total := 0, truncated := false }
  else
    let needle := foldCase opts query
    let candidates := matchIndices needle 0 0 (foldCase opts parsed.text)
    let kept := candidates.filter fun pos =>
      !opts.wholeWord || isWordBounded parsed.text pos needle.length
    let (found, total) := kept.foldl (addMatch parsed query) ([], 0)
    { found, total, truncated := decide (found.length < total) }

end Voleeo.BodyWindow

/-!
## Searching a stored body

The occurrences of a query are looked for without overlaps, and those that are no whole words are
left out afterwards. The search misses occurrences where one of those that it leaves out overlaps
them.
-/
namespace Voleeo.BodyWindow

/-! ## Positions and places -/

/-- The number of line feeds in front of a position. -/
def lineOf : Text → ℕ → ℕ
  | [], _ => 0
  | _ :: _, 0 => 0
  | c :: rest, pos + 1 => lineOf rest pos + if c = '\n' then 1 else 0

/-- The number of characters between the last line feed and the position, when `col` of them have
been passed. -/
def colFrom (col : ℕ) : Text → ℕ → ℕ
  | [], _ => col
  | _ :: _, 0 => col
  | c :: rest, pos + 1 => colFrom (if c = '\n' then 0 else col + 1) rest pos

def colOf (text : Text) (pos : ℕ) : ℕ := colFrom 0 text pos

theorem lineOf_le (text : Text) (pos : ℕ) : lineOf text pos ≤ pos := by
  induction text generalizing pos with
  | nil => exact Nat.zero_le _
  | cons c rest ih =>
    obtain _ | pos := pos
    · exact Nat.zero_le _
    · have hrest := ih pos
      rw [lineOf]
      split <;> omega

theorem colFrom_le (col : ℕ) (text : Text) (pos : ℕ) : colFrom col text pos ≤ col + pos := by
  induction text generalizing col pos with
  | nil => rw [colFrom]; exact Nat.le_add_right _ _
  | cons c rest ih =>
    obtain _ | pos := pos
    · rw [colFrom]; exact Nat.le_add_right _ _
    · have hrest := ih (if c = '\n' then 0 else col + 1) pos
      rw [colFrom]
      split at hrest <;> split <;> first | omega | contradiction

theorem start_of_mem {start i : ℕ} {text : Text} {range : ℕ × ℕ}
    (h : range ∈ lineRangesFrom start i text) : range.1 = start ∨ i < range.1 := by
  induction text generalizing start i with
  | nil =>
    rw [lineRangesFrom] at h
    split at h
    · rw [List.mem_singleton] at h
      exact Or.inl (by rw [h])
    · cases h
  | cons c rest ih =>
    rw [lineRangesFrom] at h
    split at h
    · rw [List.mem_cons] at h
      obtain rfl | h := h
      · exact Or.inl rfl
      · obtain heq | hlt := ih h <;> exact Or.inr (by omega)
    · obtain heq | hlt := ih h
      · exact Or.inl heq
      · exact Or.inr (by omega)

/-- The line on which a text begins comes first, and the others begin further on. -/
theorem lineRangesFrom_head {start i : ℕ} {text : Text} (hi : start ≤ i) (hne : text ≠ []) :
    ∃ stop tail, lineRangesFrom start i text = (start, stop) :: tail ∧ i ≤ stop ∧
      ∀ range ∈ tail, i < range.1 := by
  induction text generalizing i with
  | nil => exact absurd rfl hne
  | cons c rest ih =>
    rw [lineRangesFrom]
    split
    · refine ⟨i, _, rfl, le_rfl, fun range hrange => ?_⟩
      obtain heq | hlt := start_of_mem hrange <;> omega
    · by_cases hrest : rest = []
      · subst hrest
        rw [lineRangesFrom, if_pos (by omega)]
        exact ⟨i + 1, [], rfl, by omega, by simp⟩
      · obtain ⟨stop, tail, heq, hstop, htail⟩ := ih (Nat.le_succ_of_le hi) hrest
        exact ⟨stop, tail, heq, by omega, fun range hrange => by
          have := htail range hrange
          omega⟩

/-- The lines that begin at a position or in front of it are those up to the one it is on. -/
theorem lineRangesFrom_place {start i pos : ℕ} {text : Text} (hi : start ≤ i)
    (hpos : pos < text.length) :
    ((lineRangesFrom start i text).takeWhile fun range => range.1 ≤ i + pos).length =
        lineOf text pos + 1 ∧
      ∃ s e, (lineRangesFrom start i text)[lineOf text pos]? = some (s, e) ∧
        s + colFrom (i - start) text pos = i + pos ∧ i + pos ≤ e := by
  induction text generalizing start i pos with
  | nil => cases hpos
  | cons c rest ih =>
    obtain _ | pos := pos
    · obtain ⟨stop, tail, heq, hstop, htail⟩ :=
        lineRangesFrom_head hi (List.cons_ne_nil c rest)
      have hnone : tail.takeWhile (fun range => decide (range.1 ≤ i + 0)) = [] := by
        obtain _ | ⟨range, tail⟩ := tail
        · rfl
        · have := htail range List.mem_cons_self
          rw [List.takeWhile_cons, if_neg (by simp; omega)]
      rw [heq, List.takeWhile_cons, if_pos (by simpa using hi), hnone]
      exact ⟨rfl, start, stop, rfl, by rw [colFrom]; omega, hstop⟩
    · have hpos' : pos < rest.length := Nat.lt_of_succ_lt_succ hpos
      rw [lineRangesFrom, lineOf, colFrom]
      by_cases hc : c = '\n'
      · obtain ⟨hcount, s, e, hget, hs, he⟩ := ih (le_refl (i + 1)) hpos'
        have hpos : i + 1 + pos = i + (pos + 1) := by omega
        rw [hpos] at hcount hs he
        rw [Nat.sub_self] at hs
        rw [if_pos hc, if_pos hc, if_pos hc, List.takeWhile_cons,
          if_pos (by simp; omega), List.length_cons, hcount]
        exact ⟨rfl, s, e, by rw [List.getElem?_cons_succ]; exact hget, hs, he⟩
      · obtain ⟨hcount, s, e, hget, hs, he⟩ := ih (Nat.le_succ_of_le hi) hpos'
        have hpos : i + 1 + pos = i + (pos + 1) := by omega
        have hcol : i + 1 - start = i - start + 1 := by omega
        rw [hpos] at hcount hs he
        rw [hcol] at hs
        rw [if_neg hc, if_neg hc, if_neg hc, Nat.add_zero]
        exact ⟨hcount, s, e, hget, hs, he⟩

/-! ## Occurrences -/

/-- The query is at the position, where case may be left aside for ASCII letters. An empty query
is nowhere. -/
def occursAt (text query : Text) (opts : SearchOpts) (pos : ℕ) : Bool :=
  decide (query ≠ []) && decide (foldCase opts query <+: (foldCase opts text).drop pos)

/-- An occurrence that is a whole word where only these are looked for. -/
def accepted (text query : Text) (opts : SearchOpts) (pos : ℕ) : Bool :=
  occursAt text query opts pos && (!opts.wholeWord || isWordBounded text pos query.length)

@[simp] theorem length_foldCase (opts : SearchOpts) (text : Text) :
    (foldCase opts text).length = text.length := by
  rw [foldCase]
  split
  · rfl
  · exact List.length_map _

theorem occursAt_of_accepted {text query : Text} {opts : SearchOpts} {pos : ℕ}
    (h : accepted text query opts pos = true) : occursAt text query opts pos = true :=
  (Bool.and_eq_true_iff.mp h).1

theorem lt_length_of_occursAt {text query : Text} {opts : SearchOpts} {pos : ℕ}
    (h : occursAt text query opts pos = true) : pos < text.length := by
  rw [occursAt, Bool.and_eq_true, decide_eq_true_eq, decide_eq_true_eq] at h
  have hle := h.2.length_le
  rw [List.length_drop, length_foldCase, length_foldCase] at hle
  have hpos := List.length_pos_iff.mpr h.1
  omega

theorem occursAt_nil (text : Text) (opts : SearchOpts) (pos : ℕ) :
    occursAt text [] opts pos = false := rfl

theorem matchIndices_eq_places (needle front hay : Text) (skip : ℕ) :
    matchIndices needle front.length skip hay =
      Scan.places (fun pos => decide (needle <+: (front ++ hay).drop pos)) needle.length hay.length
        front.length skip := by
  induction hay generalizing front skip with
  | nil => rfl
  | cons c rest ih =>
    have hdrop : (front ++ c :: rest).drop front.length = c :: rest := List.drop_left
    have hrest := ih (front ++ [c])
    rw [List.length_append, List.length_singleton, List.append_assoc,
      List.singleton_append] at hrest
    rw [matchIndices, List.length_cons, Scan.places, hrest, hrest]
    simp only [hdrop, decide_eq_true_eq]

theorem matchIndices_eq_found {text query : Text} (hne : query ≠ []) (opts : SearchOpts) :
    matchIndices (foldCase opts query) 0 0 (foldCase opts text) =
      Scan.found (occursAt text query opts) query.length text.length 0 := by
  have hplaces := matchIndices_eq_places (foldCase opts query) [] (foldCase opts text) 0
  rw [length_foldCase, length_foldCase] at hplaces
  have hoccurs : (fun pos => decide (foldCase opts query <+: (foldCase opts text).drop pos)) =
      occursAt text query opts := by
    funext pos
    rw [occursAt, decide_eq_true hne, Bool.true_and]
  rw [List.length_nil, List.nil_append, hoccurs] at hplaces
  exact hplaces

/-! ## The matches -/

theorem foldl_addMatch (parsed : Parsed) (query : Text) (kept : List ℕ) (acc : List BodyMatch)
    {n : ℕ} (hacc : acc.length ≤ matchCap) (hn : n < 2 ^ 32) :
    kept.foldl (addMatch parsed query) (acc, n) =
      (acc ++ (kept.take (matchCap - acc.length)).map (placeOf parsed query),
        (n + kept.length) % 2 ^ 32) := by
  induction kept generalizing acc n with
  | nil => simp only [List.take_nil, List.map_nil, List.append_nil, List.foldl_nil,
      List.length_nil, Nat.add_zero, Nat.mod_eq_of_lt hn]
  | cons pos kept ih =>
    have htotal : ((n + 1) % 2 ^ 32 + kept.length) % 2 ^ 32 = (n + (kept.length + 1)) % 2 ^ 32 := by
      rw [Nat.mod_add_mod]
      congr 1
      omega
    have hlt : (n + 1) % 2 ^ 32 < 2 ^ 32 := Nat.mod_lt _ (by norm_num)
    rw [List.foldl_cons, addMatch]
    by_cases hroom : acc.length < matchCap
    · have hlength : (acc ++ [placeOf parsed query pos]).length = acc.length + 1 := by simp
      obtain ⟨room, hleft⟩ := Nat.exists_eq_succ_of_ne_zero (Nat.sub_ne_zero_of_lt hroom)
      have hleft' : matchCap - (acc.length + 1) = room := by omega
      have hacc' : (acc ++ [placeOf parsed query pos]).length ≤ matchCap := by omega
      rw [if_pos hroom, ih _ hacc' hlt, htotal, hlength, hleft', hleft, List.length_cons,
        Nat.succ_eq_add_one, List.take_succ_cons, List.map_cons, List.append_assoc,
        List.singleton_append]
    · have hfull : matchCap - acc.length = 0 := by omega
      rw [if_neg hroom, ih _ hacc hlt, htotal, hfull, List.length_cons]
      rfl

/-- The positions that the search keeps. -/
def keptAt (text query : Text) (opts : SearchOpts) : List ℕ :=
  Scan.kept (occursAt text query opts) (accepted text query opts) query.length text.length 0

theorem keptAt_nil (text : Text) (opts : SearchOpts) : keptAt text [] opts = [] := by
  rw [keptAt, Scan.kept, Scan.found_of_none (occursAt_nil text opts)]
  rfl

theorem search_eq (text query : Text) (opts : SearchOpts) :
    (search (parse text) query opts).found =
        ((keptAt text query opts).take matchCap).map (placeOf (parse text) query) ∧
      (search (parse text) query opts).total = (keptAt text query opts).length % 2 ^ 32 := by
  by_cases hne : query = []
  · subst hne
    rw [keptAt_nil]
    exact ⟨rfl, rfl⟩
  · have hkept : (matchIndices (foldCase opts query) 0 0 (foldCase opts (parse text).text)).filter
        (fun pos => !opts.wholeWord ||
          isWordBounded (parse text).text pos (foldCase opts query).length) =
        keptAt text query opts := by
      have htext : (parse text).text = text := rfl
      rw [htext, matchIndices_eq_found hne, keptAt, Scan.kept, length_foldCase]
      refine List.filter_congr fun pos hpos => ?_
      have hfound := Scan.mem_found (List.length_pos_iff.mpr hne) 0 pos hpos
      rw [accepted, hfound.2.2, Bool.true_and]
    rw [search, if_neg hne]
    simp only [hkept]
    rw [foldl_addMatch _ _ _ [] (Nat.zero_le _) (by norm_num)]
    exact ⟨rfl, by rw [List.length_nil]; simp⟩

/-! ## Where a match is -/

theorem placeOf_parse {text : Text} {pos : ℕ} (hpos : pos < text.length) (query : Text) :
    placeOf (parse text) query pos =
      ⟨toU32 (lineOf text pos), toU32 (colOf text pos), toU32 query.length⟩ := by
  obtain ⟨hcount, s, e, hget, hs, -⟩ := lineRangesFrom_place (le_refl 0) hpos
  rw [Nat.zero_add] at hcount hs
  rw [Nat.sub_self, ← colOf] at hs
  have hline : ((parse text).lines.takeWhile fun range => range.1 ≤ pos).length - 1 =
      lineOf text pos := by
    have hlines : (parse text).lines = lineRangesFrom 0 0 text := rfl
    rw [hlines, hcount, Nat.add_sub_cancel]
  have hstart : ((parse text).lines.getD (lineOf text pos) (0, 0)).1 = s := by
    have hget' : (parse text).lines[lineOf text pos]? = some (s, e) := hget
    rw [List.getD_eq_getElem?_getD, hget']
    rfl
  have hcol : (slice text (s, pos)).length = colOf text pos := by
    have hlength : (slice text (s, pos)).length = pos - s := by
      rw [slice, List.length_drop, List.length_take, Nat.min_eq_left hpos.le]
    rw [hlength]
    omega
  rw [placeOf]
  simp only [hline, hstart]
  have htext : (parse text).text = text := rfl
  rw [htext, hcol]

/-- The line of a match, its column, and any window on the line point at the position. -/
structure Addresses (text : Text) (m : BodyMatch) (pos : ℕ) : Prop where
  line : m.line = lineOf text pos
  col : m.col = colOf text pos
  shown : ∀ start count, start ≤ m.line → m.line < start + count →
    ∃ l, (window (parse text) start count).lines[m.line - start]? = some l ∧ m.col ≤ l.length ∧
      ∃ front back, text = front ++ (l ++ back) ∧ pos = front.length + m.col

theorem slice_between {text : Text} {s e : ℕ} (h : s ≤ e) :
    text = text.take s ++ (slice text (s, e) ++ text.drop e) := by
  have htake : text.take s ++ slice text (s, e) = text.take e := by
    have hfront : text.take s = (text.take e).take s := by
      rw [List.take_take, Nat.min_eq_left h]
    rw [hfront, slice, List.take_append_drop]
  rw [← List.append_assoc, htake, List.take_append_drop]

theorem window_line {parsed : Parsed} {line start count : ℕ} {range : ℕ × ℕ}
    (hget : parsed.lines[line]? = some range) (hstart : start ≤ line)
    (hline : line < start + count) :
    (window parsed start count).lines[line - start]? = some (slice parsed.text range) := by
  obtain ⟨hlt, -⟩ := List.getElem?_eq_some_iff.mp hget
  have hfrom : min start parsed.lines.length = start := by omega
  have hindex : start + (line - start) = line := by omega
  have hstop : line < min (start + count) parsed.lines.length := by omega
  rw [window]
  simp only [hfrom]
  rw [List.getElem?_map, List.getElem?_drop, hindex, List.getElem?_take_of_lt hstop, hget]
  rfl

theorem addresses_of_place {text : Text} {m : BodyMatch} {pos : ℕ} (hpos : pos < text.length)
    (hline : m.line = lineOf text pos) (hcol : m.col = colOf text pos) :
    Addresses text m pos := by
  refine ⟨hline, hcol, fun start count hstart hcount => ?_⟩
  obtain ⟨-, s, e, hget, hs, he⟩ := lineRangesFrom_place (le_refl 0) hpos
  rw [Nat.zero_add] at hs he
  rw [Nat.sub_self, ← colOf, ← hcol] at hs
  refine ⟨slice text (s, e), ?_, ?_, text.take s, text.drop e, slice_between (by omega), ?_⟩
  · rw [hline] at hstart hcount ⊢
    exact window_line hget hstart hcount
  · rw [slice, List.length_drop, List.length_take]
    omega
  · rw [List.length_take]
    omega

/-! ## Complete searches -/

/-- The total is the number of occurrences that a scan for accepted ones finds, it is zero only if
there is none, and every match points at one. -/
structure SearchComplete (text query : Text) (opts : SearchOpts) (r : SearchResult) : Prop where
  counted : r.total =
    Scan.count (accepted text query opts) query.length text.length 0
  none_missed : r.total = 0 → ∀ pos, accepted text query opts pos = false
  addressed : ∀ m ∈ r.found, ∃ pos, accepted text query opts pos = true ∧ Addresses text m pos

/-- No occurrence that is left out hides others that would count, and 32 bits suffice for the
number of occurrences and for the places of those that are reported. -/
structure SearchFits (text query : Text) (opts : SearchOpts) : Prop where
  hidesNothing : Scan.HidesNothing (occursAt text query opts) (accepted text query opts)
    query.length text.length 0
  few : Scan.count (accepted text query opts) query.length text.length 0 < 2 ^ 32
  placed : ∀ pos ∈ (keptAt text query opts).take matchCap, ∃ at32,
    accepted text query opts at32 = true ∧ lineOf text at32 = toU32 (lineOf text pos) ∧
      colOf text at32 = toU32 (colOf text pos)

theorem accepted_of_mem_keptAt {text query : Text} {opts : SearchOpts} {pos : ℕ}
    (h : pos ∈ keptAt text query opts) : accepted text query opts pos = true :=
  (List.mem_filter.mp h).2

theorem lt_length_of_accepted {text query : Text} {opts : SearchOpts} {pos : ℕ}
    (h : accepted text query opts pos = true) : pos < text.length :=
  lt_length_of_occursAt (occursAt_of_accepted h)

theorem length_keptAt_le (text query : Text) (opts : SearchOpts) :
    (keptAt text query opts).length ≤
        Scan.count (accepted text query opts) query.length text.length 0 ∧
      ((keptAt text query opts).length =
          Scan.count (accepted text query opts) query.length text.length 0 ↔
        Scan.HidesNothing (occursAt text query opts) (accepted text query opts) query.length
          text.length 0) := by
  by_cases hne : query = []
  · subst hne
    have hfalse : ∀ pos, accepted text [] opts pos = false := fun pos => by
      rw [accepted, occursAt_nil, Bool.false_and]
    rw [keptAt_nil, Scan.count, Scan.found_of_none hfalse, Scan.HidesNothing,
      Scan.found_of_none (occursAt_nil text opts)]
    exact ⟨le_rfl, iff_of_true rfl (by simp)⟩
  · have hwidth := List.length_pos_iff.mpr hne
    have hsub : ∀ pos, accepted text query opts pos = true → occursAt text query opts pos = true :=
      fun pos => occursAt_of_accepted
    exact ⟨Scan.length_kept_le hwidth hsub 0, Scan.length_kept_eq_iff hwidth hsub 0⟩

theorem none_accepted {text query : Text} {opts : SearchOpts}
    (h : Scan.count (accepted text query opts) query.length text.length 0 = 0) (pos : ℕ) :
    accepted text query opts pos = false := by
  refine Bool.eq_false_iff.mpr fun haccepted => ?_
  by_cases hne : query = []
  · subst hne
    rw [accepted, occursAt_nil, Bool.false_and] at haccepted
    cases haccepted
  · have hfalse := (Scan.count_eq_zero_iff (List.length_pos_iff.mpr hne) 0).mp h pos
      (Nat.zero_le _) (lt_length_of_accepted haccepted)
    rw [haccepted] at hfalse
    cases hfalse

/-- Every match points at an accepted occurrence exactly where 32 bits suffice for the places. -/
theorem addressed_iff (text query : Text) (opts : SearchOpts) :
    (∀ m ∈ (search (parse text) query opts).found,
        ∃ pos, accepted text query opts pos = true ∧ Addresses text m pos) ↔
      ∀ pos ∈ (keptAt text query opts).take matchCap, ∃ at32,
        accepted text query opts at32 = true ∧ lineOf text at32 = toU32 (lineOf text pos) ∧
          colOf text at32 = toU32 (colOf text pos) := by
  rw [(search_eq text query opts).1, List.forall_mem_map]
  refine forall₂_congr fun pos hpos => ?_
  have hlt := lt_length_of_accepted (accepted_of_mem_keptAt (List.mem_of_mem_take hpos))
  rw [placeOf_parse hlt]
  constructor
  · rintro ⟨at32, haccepted, haddress⟩
    exact ⟨at32, haccepted, haddress.line.symm, haddress.col.symm⟩
  · rintro ⟨at32, haccepted, hline, hcol⟩
    exact ⟨at32, haccepted,
      addresses_of_place (lt_length_of_accepted haccepted) hline.symm hcol.symm⟩

/-- Searching a body is complete exactly where no rejected occurrence hides others. -/
theorem search_complete_iff (text query : Text) (opts : SearchOpts) :
    SearchComplete text query opts (search (parse text) query opts) ↔
      SearchFits text query opts := by
  obtain ⟨hle, hiff⟩ := length_keptAt_le text query opts
  have htotal := (search_eq text query opts).2
  have hmod := Nat.mod_le (keptAt text query opts).length (2 ^ 32)
  constructor
  · rintro ⟨hcounted, -, haddressed⟩
    rw [htotal] at hcounted
    refine ⟨hiff.mp (by omega), ?_, (addressed_iff text query opts).mp haddressed⟩
    rw [← hcounted]
    exact Nat.mod_lt _ (by norm_num)
  · rintro ⟨hhides, hfew, hplaced⟩
    have hlength := hiff.mpr hhides
    rw [← hlength] at hfew
    have hcounted : (search (parse text) query opts).total =
        Scan.count (accepted text query opts) query.length text.length 0 := by
      rw [htotal, Nat.mod_eq_of_lt hfew, hlength]
    refine ⟨hcounted, fun hzero => ?_, (addressed_iff text query opts).mpr hplaced⟩
    exact none_accepted (hcounted.symm.trans hzero)

/-- In "xa a a" the query "a a" is found behind the "x", which is no whole word, and the scan goes
on behind the whole word at position 3. -/
theorem overlapped_word_missed : ¬ ∀ text query opts,
    SearchComplete text query opts (search (parse text) query opts) := by
  intro h
  have hmissed := (h "xa a a".toList "a a".toList ⟨true, true⟩).none_missed (by decide) 3
  revert hmissed
  decide

/-! ## Searches that are complete -/

/-- In a body that 32 bits can count, only hidden occurrences are missed. -/
theorem searchFits_iff_of_short {text : Text} (h : text.length < 2 ^ 32) (query : Text)
    (opts : SearchOpts) :
    SearchFits text query opts ↔ Scan.HidesNothing (occursAt text query opts)
      (accepted text query opts) query.length text.length 0 := by
  refine ⟨SearchFits.hidesNothing, fun hhides => ⟨hhides, ?_, fun pos hpos => ?_⟩⟩
  · have hcount : Scan.count (accepted text query opts) query.length text.length 0 ≤
        text.length - 0 := Scan.count_le 0
    omega
  · have haccepted := accepted_of_mem_keptAt (List.mem_of_mem_take hpos)
    have hlt := lt_length_of_accepted haccepted
    have hline := lineOf_le text pos
    have hcol : colOf text pos ≤ 0 + pos := colFrom_le 0 text pos
    refine ⟨pos, haccepted, ?_, ?_⟩ <;> rw [toU32, if_pos (by omega)]

theorem isWord_toLower (c : Char) : isWord c.toLower = isWord c := by
  rw [Char.toLower]
  split_ifs with h
  · -- Upper case letters become lower case ones, and both are word characters.
    obtain ⟨hlow, hhigh⟩ := h
    have hupper : c.isUpper = true := by simpa [Char.isUpper] using ⟨hlow, hhigh⟩
    simp only [isWord, Char.isAlphanum, Char.isAlpha, hupper, Char.isLower, Bool.true_or,
      Bool.or_eq_true, Bool.and_eq_true, decide_eq_true_eq]
    refine Or.inl (Or.inl (Or.inr ?_))
    constructor <;> simp only [ge_iff_le, UInt32.le_iff_toNat_le] at * <;> simp at * <;> omega
  · rfl

theorem any_isWord_foldCase (opts : SearchOpts) (text : Text) (i : ℕ) :
    (foldCase opts text)[i]?.any isWord = text[i]?.any isWord := by
  rw [foldCase]
  split
  · rfl
  · rw [List.getElem?_map, Option.any_map]
    congr 1
    funext c
    exact isWord_toLower c

/-- The characters of an occurrence of words are word characters. -/
theorem isWord_of_occursAt {text query : Text} {opts : SearchOpts} {pos j : ℕ}
    (hwords : ∀ c ∈ query, isWord c = true) (h : occursAt text query opts pos = true)
    (hj : j < query.length) : text[pos + j]?.any isWord = true := by
  rw [occursAt, Bool.and_eq_true, decide_eq_true_eq, decide_eq_true_eq] at h
  obtain ⟨back, hback⟩ := h.2
  have hget : (foldCase opts text)[pos + j]? = (foldCase opts query)[j]? := by
    rw [← List.getElem?_drop, ← hback, List.getElem?_append_left (by simpa using hj)]
  rw [← any_isWord_foldCase opts, hget, any_isWord_foldCase, List.getElem?_eq_getElem hj,
    Option.any_some]
  exact hwords _ (List.getElem_mem hj)

theorem hidesNothing_of_words {text query : Text} {opts : SearchOpts}
    (hwords : ∀ c ∈ query, isWord c = true) :
    Scan.HidesNothing (occursAt text query opts) (accepted text query opts) query.length
      text.length 0 := by
  intro c hc hrejected
  by_cases hne : query = []
  · subst hne
    rw [Scan.found_of_none (occursAt_nil text opts)] at hc
    cases hc
  have hwidth := List.length_pos_iff.mpr hne
  have hoccurs := (Scan.mem_found hwidth 0 c hc).2.2
  have hwhole : opts.wholeWord = true := by
    by_contra hno
    rw [accepted, hoccurs, Bool.eq_false_iff.mpr hno] at hrejected
    cases hrejected
  have hstep : c + 1 ≤ c + query.length := by omega
  -- In front of a position inside the occurrence there is one of its word characters.
  refine Nat.le_of_eq (Scan.count_eq_of_none hstep fun k hck hk => ?_)
  have hbefore := isWord_of_occursAt (j := k - 1 - c) hwords hoccurs (by omega)
  have hindex : c + (k - 1 - c) = k - 1 := by omega
  have hzero : (k == 0) = false := beq_eq_false_iff_ne.mpr (by omega)
  rw [hindex] at hbefore
  rw [accepted, isWordBounded, hbefore, hwhole, hzero]
  simp

/-- Searches that take any occurrence, and searches for one word, miss nothing. -/
theorem search_complete_of_words {text query : Text} {opts : SearchOpts}
    (hlength : text.length < 2 ^ 32)
    (hwords : opts.wholeWord = false ∨ ∀ c ∈ query, isWord c = true) :
    SearchComplete text query opts (search (parse text) query opts) := by
  have hhides : Scan.HidesNothing (occursAt text query opts) (accepted text query opts) query.length
      text.length 0 := by
    obtain hany | hwords := hwords
    · intro c hc hrejected
      have hoccurs : occursAt text query opts c = true := by
        by_cases hne : query = []
        · subst hne
          rw [Scan.found_of_none (occursAt_nil text opts)] at hc
          cases hc
        · exact (Scan.mem_found (List.length_pos_iff.mpr hne) 0 c hc).2.2
      rw [accepted, hoccurs, hany] at hrejected
      cases hrejected
    · exact hidesNothing_of_words hwords
  obtain ⟨-, hfew, hplaced⟩ := (searchFits_iff_of_short hlength query opts).mpr hhides
  have hkept := (length_keptAt_le text query opts).2.mpr hhides
  rw [← hkept] at hfew
  have hcounted : (search (parse text) query opts).total =
      Scan.count (accepted text query opts) query.length text.length 0 := by
    rw [(search_eq text query opts).2, Nat.mod_eq_of_lt hfew, hkept]
  exact ⟨hcounted, fun hzero => none_accepted (hcounted.symm.trans hzero),
    (addressed_iff text query opts).mpr hplaced⟩

theorem search_complete_of_words_id :
    SearchComplete "id, ID\nids".toList "id".toList ⟨false, true⟩
      (search (parse "id, ID\nids".toList) "id".toList ⟨false, true⟩) :=
  search_complete_of_words (by decide) (.inr (by decide))

end Voleeo.BodyWindow
