import Mathlib.Order.Monotone.Basic
import Mathlib.Algebra.Order.Ring.Int
import Voleeo.StableSort

/-!
# Folded lines

A viewer hides runs of lines. The runs are merged first; then rows on the screen and lines of the
body are translated by two loops over the runs, each of which stops at the first run behind the
line.
-/
namespace Voleeo.Web

/-- First and last of a run of hidden lines. -/
abbrev HiddenRange := ℤ × ℤ

/-- A run goes into the last one that was taken if it overlaps it or is next to it. -/
def mergeRange (out : List HiddenRange) (range : HiddenRange) : List HiddenRange :=
  match out.getLast? with
  | none => out ++ [range]
  | some last =>
    if range.1 ≤ last.2 + 1 then out.dropLast ++ [(last.1, max last.2 range.2)]
    else out ++ [range]

def mergeRanges (ranges : List HiddenRange) : List HiddenRange :=
  (sortBy Prod.fst ranges).foldl mergeRange []

/-- The loop of `toRealLine`. -/
def realFrom : List HiddenRange → ℤ → ℤ
  | [], real => real
  | (s, e) :: ranges, real => if real < s then real else realFrom ranges (real + (e - s + 1))

def toRealLine (ranges : List HiddenRange) (visual : ℤ) : ℤ := realFrom ranges visual

/-- The loop of `toVisualLine`. -/
def visualFrom (real : ℤ) : List HiddenRange → ℤ → ℤ
  | [], visual => visual
  | (s, e) :: ranges, visual =>
    if real < s then visual else visualFrom real ranges (visual - (min e real - s + 1))

def toVisualLine (ranges : List HiddenRange) (real : ℤ) : ℤ := visualFrom real ranges real

/-! ## Merged runs -/

/-- The line lies in one of the runs. -/
def Hidden (ranges : List HiddenRange) (line : ℤ) : Prop :=
  ∃ range ∈ ranges, range.1 ≤ line ∧ line ≤ range.2

/-- Each run ends before the next begins, with a line between that is not hidden. -/
structure Merged (ranges : List HiddenRange) : Prop where
  nonempty : ∀ range ∈ ranges, range.1 ≤ range.2
  apart : ranges.Pairwise fun range range' => range.2 + 1 < range'.1

variable {ranges out : List HiddenRange} {range last : HiddenRange} {line s e : ℤ}

theorem Merged.nil : Merged [] := ⟨nofun, .nil⟩

theorem Merged.tail (h : Merged (range :: ranges)) : Merged ranges :=
  ⟨fun r hr => h.nonempty r (List.mem_cons_of_mem _ hr), (List.pairwise_cons.mp h.apart).2⟩

theorem Merged.head_le (h : Merged (range :: ranges)) : range.1 ≤ range.2 :=
  h.nonempty range List.mem_cons_self

theorem Merged.head_lt (h : Merged (range :: ranges)) : ∀ r ∈ ranges, range.2 + 1 < r.1 :=
  (List.pairwise_cons.mp h.apart).1

theorem hidden_cons : Hidden (range :: ranges) line ↔
    range.1 ≤ line ∧ line ≤ range.2 ∨ Hidden ranges line := by
  simp only [Hidden, List.mem_cons, exists_eq_or_imp]

theorem hidden_append : Hidden (out ++ ranges) line ↔ Hidden out line ∨ Hidden ranges line := by
  simp only [Hidden, List.mem_append, or_and_right, exists_or]

theorem hidden_singleton : Hidden [range] line ↔ range.1 ≤ line ∧ line ≤ range.2 := by
  rw [hidden_cons]
  exact or_iff_left fun ⟨_, h, _⟩ => nomatch h

/-- A merged list whose last run is made longer. -/
theorem Merged.extend (h : Merged (out ++ [last])) (hle : last.2 ≤ e) :
    Merged (out ++ [(last.1, e)]) := by
  have hlast := h.nonempty last (List.mem_append_right _ List.mem_cons_self)
  have hapart := List.pairwise_append.mp h.apart
  refine ⟨fun r hr => ?_, List.pairwise_append.mpr ⟨hapart.1, List.pairwise_singleton _ _,
    fun r hr r' hr' => ?_⟩⟩
  · rcases List.mem_append.mp hr with hr | hr
    · exact h.nonempty r (List.mem_append_left _ hr)
    · rw [List.mem_singleton.mp hr]
      exact hlast.trans hle
  · rw [List.mem_singleton.mp hr']
    exact hapart.2.2 r hr last List.mem_cons_self

/-- A run behind the last one is added. -/
theorem Merged.concat (h : Merged (out ++ [last])) (hlt : last.2 + 1 < range.1)
    (hrange : range.1 ≤ range.2) : Merged (out ++ [last] ++ [range]) := by
  refine ⟨fun r hr => ?_, List.pairwise_append.mpr ⟨h.apart, List.pairwise_singleton _ _,
    fun r hr r' hr' => ?_⟩⟩
  · rcases List.mem_append.mp hr with hr | hr
    · exact h.nonempty r hr
    · rwa [List.mem_singleton.mp hr]
  · rw [List.mem_singleton.mp hr']
    rcases List.mem_append.mp hr with hr | hr
    · have hr₁ := (List.pairwise_append.mp h.apart).2.2 r hr last List.mem_cons_self
      have hlast := h.nonempty last (List.mem_append_right _ List.mem_cons_self)
      omega
    · rwa [List.mem_singleton.mp hr]

/-! ## Merging -/

/-- What the loop has made of some runs: it is merged, and what comes next begins no earlier than
its last run. -/
structure MergedUpTo (out : List HiddenRange) (line : ℤ) : Prop where
  merged : Merged out
  starts : ∀ range ∈ out, range.1 ≤ line

theorem MergedUpTo.mergeRange (h : MergedUpTo out range.1) (hrange : range.1 ≤ range.2) :
    MergedUpTo (mergeRange out range) range.1 ∧
      ∀ line, Hidden (mergeRange out range) line ↔ Hidden (out ++ [range]) line := by
  rcases List.eq_nil_or_concat out with rfl | ⟨front, last, rfl⟩
  · refine ⟨⟨⟨?_, List.pairwise_singleton _ _⟩, ?_⟩, fun _ => Iff.rfl⟩
    · exact List.forall_mem_singleton.mpr hrange
    · exact List.forall_mem_singleton.mpr le_rfl
  · rw [List.concat_eq_append] at h ⊢
    rw [Web.mergeRange, List.getLast?_concat]
    have hstart := h.starts last (List.mem_append_right _ List.mem_cons_self)
    have hfront : ∀ r ∈ front, r.1 ≤ range.1 := fun r hr =>
      h.starts r (List.mem_append_left _ hr)
    dsimp only
    split_ifs with hle
    · rw [List.dropLast_concat]
      refine ⟨⟨h.merged.extend (le_max_left _ _), ?_⟩, fun line => ?_⟩
      · exact List.forall_mem_append.mpr ⟨hfront, List.forall_mem_singleton.mpr hstart⟩
      · have hlast := h.merged.nonempty last (List.mem_append_right _ List.mem_cons_self)
        rw [hidden_append, hidden_append, hidden_append, hidden_singleton, hidden_singleton,
          hidden_singleton, or_assoc]
        refine or_congr_right ?_
        dsimp only
        omega
    · have hlt : last.2 + 1 < range.1 := not_le.mp hle
      refine ⟨⟨h.merged.concat hlt hrange, ?_⟩, fun _ => Iff.rfl⟩
      exact List.forall_mem_append.mpr ⟨h.starts, List.forall_mem_singleton.mpr le_rfl⟩

theorem foldl_mergeRange (h : MergedUpTo out s) (hstart : ∀ range ∈ ranges, s ≤ range.1)
    (hsorted : ranges.Pairwise fun range range' => range.1 ≤ range'.1)
    (hranges : ∀ range ∈ ranges, range.1 ≤ range.2) :
    Merged (ranges.foldl mergeRange out) ∧
      ∀ line, Hidden (ranges.foldl mergeRange out) line ↔ Hidden (out ++ ranges) line := by
  induction ranges generalizing out s with
  | nil => exact ⟨h.merged, fun line => by rw [List.append_nil]; rfl⟩
  | cons range ranges ih =>
    have hout : MergedUpTo out range.1 := ⟨h.merged, fun r hr =>
      (h.starts r hr).trans (hstart range List.mem_cons_self)⟩
    obtain ⟨hmerged, hhidden⟩ := hout.mergeRange (hranges range List.mem_cons_self)
    obtain ⟨hrest, hsorted⟩ := List.pairwise_cons.mp hsorted
    obtain ⟨hfold, hline⟩ := ih hmerged hrest hsorted
      fun r hr => hranges r (List.mem_cons_of_mem _ hr)
    refine ⟨hfold, fun line => ?_⟩
    rw [List.foldl_cons, hline, hidden_append, hhidden, ← hidden_append, List.append_assoc,
      List.singleton_append]

/-- Merging hides the same lines. -/
theorem mergeRanges_spec (h : ∀ range ∈ ranges, range.1 ≤ range.2) :
    Merged (mergeRanges ranges) ∧
      ∀ line, Hidden (mergeRanges ranges) line ↔ Hidden ranges line := by
  have hperm := sortBy_perm Prod.fst ranges
  have hsame : ∀ line, Hidden (sortBy Prod.fst ranges) line ↔ Hidden ranges line := fun line => by
    simp only [Hidden, hperm.mem_iff]
  cases hsort : sortBy Prod.fst ranges with
  | nil =>
    rw [mergeRanges, hsort]
    exact ⟨.nil, fun line => by rw [← hsame, hsort]; rfl⟩
  | cons first rest =>
    have hsorted := pairwise_sortBy Prod.fst ranges
    rw [hsort] at hsorted
    have hfirst : ∀ r ∈ first :: rest, first.1 ≤ r.1 := by
      rw [List.forall_mem_cons]
      exact ⟨le_rfl, (List.pairwise_cons.mp hsorted).1⟩
    obtain ⟨hmerged, hhidden⟩ := foldl_mergeRange ⟨.nil, nofun⟩ hfirst hsorted fun r hr =>
      h r (hperm.mem_iff.mp (hsort ▸ hr))
    rw [mergeRanges, hsort]
    refine ⟨hmerged, fun line => ?_⟩
    rw [hhidden, List.nil_append, ← hsame, hsort]

/-! ## The two maps -/

theorem realFrom_cons (s e : ℤ) (ranges : List HiddenRange) (line : ℤ) :
    realFrom ((s, e) :: ranges) line =
      if line < s then line else realFrom ranges (line + (e - s + 1)) := rfl

theorem le_realFrom (h : ∀ range ∈ ranges, range.1 ≤ range.2) (line : ℤ) :
    line ≤ realFrom ranges line := by
  induction ranges generalizing line with
  | nil => exact le_rfl
  | cons range ranges ih =>
    obtain ⟨hrange, hranges⟩ := List.forall_mem_cons.mp h
    obtain ⟨s, e⟩ := range
    rw [realFrom_cons]
    split_ifs
    · exact le_rfl
    · have hle := ih hranges (line + (e - s + 1))
      dsimp only at hrange
      omega

theorem realFrom_strictMono (h : ∀ range ∈ ranges, range.1 ≤ range.2) :
    StrictMono (realFrom ranges) := by
  induction ranges with
  | nil => exact strictMono_id
  | cons range ranges ih =>
    obtain ⟨hrange, hranges⟩ := List.forall_mem_cons.mp h
    obtain ⟨s, e⟩ := range
    intro line line' hlt
    rw [realFrom_cons, realFrom_cons]
    split_ifs
    · exact hlt
    · have hle := le_realFrom hranges (line' + (e - s + 1))
      dsimp only at hrange
      omega
    · omega
    · exact ih hranges (by omega)

/-- No run begins before the line. -/
theorem realFrom_not_hidden (h : Merged ranges) (line : ℤ) :
    ¬ Hidden ranges (realFrom ranges line) := by
  induction ranges generalizing line with
  | nil => rintro ⟨_, h, _⟩; cases h
  | cons range ranges ih =>
    have hrange := h.head_le
    have hapart := h.head_lt
    obtain ⟨s, e⟩ := range
    rw [hidden_cons, realFrom_cons, not_or]
    dsimp only at hrange hapart ⊢
    split_ifs with hlt
    · refine ⟨by omega, ?_⟩
      rintro ⟨r, hr, hle, -⟩
      have := hapart r hr
      omega
    · have hle := le_realFrom h.tail.nonempty (line + (e - s + 1))
      exact ⟨by omega, ih h.tail _⟩

/-- The rows above count the same from any row on. -/
theorem visualFrom_add (real : ℤ) (ranges : List HiddenRange) (visual d : ℤ) :
    visualFrom real ranges (visual + d) = visualFrom real ranges visual + d := by
  induction ranges generalizing visual with
  | nil => rfl
  | cons range ranges ih =>
    obtain ⟨s, e⟩ := range
    rw [visualFrom, visualFrom]
    split_ifs
    · rfl
    · rw [← ih]
      congr 1
      omega

/-- The loop stops at once in front of all runs. -/
theorem visualFrom_of_lt {real : ℤ} (h : ∀ range ∈ ranges, real < range.1) (visual : ℤ) :
    visualFrom real ranges visual = visual := by
  cases ranges with
  | nil => rfl
  | cons range ranges =>
    obtain ⟨s, e⟩ := range
    rw [visualFrom, if_pos (h _ List.mem_cons_self)]

theorem toVisualLine_before (hlt : line < s) : toVisualLine ((s, e) :: ranges) line = line := by
  rw [toVisualLine, visualFrom, if_pos hlt]

theorem toVisualLine_inside (h : Merged ((s, e) :: ranges)) (hs : s ≤ line) (he : line ≤ e) :
    toVisualLine ((s, e) :: ranges) line = s - 1 := by
  have hrest : ∀ range ∈ ranges, line < range.1 := fun r hr => by
    have hlt := h.head_lt r hr
    dsimp only at hlt
    omega
  rw [toVisualLine, visualFrom, if_neg (not_lt.mpr hs), visualFrom_of_lt hrest, min_eq_right he]
  omega

theorem toVisualLine_behind (h : Merged ((s, e) :: ranges)) (hlt : e < line) :
    toVisualLine ((s, e) :: ranges) line = toVisualLine ranges line - (e - s + 1) := by
  have hse := h.head_le
  dsimp only at hse
  rw [toVisualLine, visualFrom, if_neg (by omega), min_eq_left hlt.le, sub_eq_add_neg,
    visualFrom_add, ← sub_eq_add_neg, toVisualLine]

/-- A line behind a line in front of all runs is shown behind it. -/
theorem lt_toVisualLine (h : Merged ranges) {bound : ℤ} (hlt : bound < line)
    (hranges : ∀ range ∈ ranges, bound + 1 < range.1) : bound < toVisualLine ranges line := by
  induction ranges generalizing bound with
  | nil => exact hlt
  | cons range ranges ih =>
    have hstart := hranges range List.mem_cons_self
    have hse := h.head_le
    have hrest := h.head_lt
    obtain ⟨s, e⟩ := range
    dsimp only at hstart hse hrest
    rcases lt_or_ge line s with hs | hs
    · rwa [toVisualLine_before hs]
    · rcases le_or_gt line e with he | he
      · rw [toVisualLine_inside h hs he]
        omega
      · have hvisual := ih h.tail he hrest
        rw [toVisualLine_behind h he]
        omega

/-- The first run behind a row that is shown below its first line. -/
theorem toRealLine_behind (hs : s ≤ line) : toRealLine ((s, e) :: ranges) line =
    toRealLine ranges (line + (e - s + 1)) := by
  rw [toRealLine, realFrom_cons, if_neg (not_lt.mpr hs), toRealLine]

theorem toRealLine_before (hlt : line < s) : toRealLine ((s, e) :: ranges) line = line := by
  rw [toRealLine, realFrom_cons, if_pos hlt]

theorem toVisualLine_toRealLine (h : Merged ranges) (visual : ℤ) :
    toVisualLine ranges (toRealLine ranges visual) = visual := by
  induction ranges generalizing visual with
  | nil => rfl
  | cons range ranges ih =>
    have hse := h.head_le
    obtain ⟨s, e⟩ := range
    dsimp only at hse
    rcases lt_or_ge visual s with hs | hs
    · rw [toRealLine_before hs, toVisualLine_before hs]
    · have hle := le_realFrom h.tail.nonempty (visual + (e - s + 1))
      rw [toRealLine_behind hs, toVisualLine_behind h (by rw [toRealLine]; omega), ih h.tail]
      omega

/-- A line that is not hidden is shown at its row; one in a run at the row of the line before. -/
theorem toRealLine_toVisualLine (h : Merged ranges) (line : ℤ) :
    (¬ Hidden ranges line → toRealLine ranges (toVisualLine ranges line) = line) ∧
      ∀ range ∈ ranges, range.1 ≤ line → line ≤ range.2 →
        toRealLine ranges (toVisualLine ranges line) = range.1 - 1 := by
  induction ranges with
  | nil => exact ⟨fun _ => rfl, nofun⟩
  | cons range ranges ih =>
    have hse := h.head_le
    have hrest := h.head_lt
    obtain ⟨s, e⟩ := range
    dsimp only at hse hrest
    rcases lt_or_ge line s with hs | hs
    · rw [toVisualLine_before hs, toRealLine_before hs]
      refine ⟨fun _ => rfl, List.forall_mem_cons.mpr ⟨fun hle => ?_, fun r hr hle => ?_⟩⟩
      · exact absurd hs (not_lt.mpr hle)
      · have hlt := hrest r hr
        omega
    · rcases le_or_gt line e with he | he
      · rw [toVisualLine_inside h hs he, toRealLine_before (by omega)]
        refine ⟨fun hnot => absurd (hidden_cons.mpr (.inl ⟨hs, he⟩)) hnot,
          List.forall_mem_cons.mpr ⟨fun _ _ => rfl, fun r hr hle => ?_⟩⟩
        have hlt := hrest r hr
        omega
      · have hvisual := lt_toVisualLine h.tail he hrest
        have hback : toRealLine ((s, e) :: ranges) (toVisualLine ((s, e) :: ranges) line) =
            toRealLine ranges (toVisualLine ranges line) := by
          rw [toVisualLine_behind h he, toRealLine_behind (by omega)]
          congr 1
          omega
        obtain ⟨hshown, hrun⟩ := ih h.tail
        rw [hback]
        refine ⟨fun hnot => hshown fun hhidden => hnot (hidden_cons.mpr (.inr hhidden)),
          List.forall_mem_cons.mpr ⟨fun _ hle => ?_, hrun⟩⟩
        exact absurd he (not_lt.mpr hle)

/-- Merging gives separate runs that hide the same lines. Over them the lines that are not hidden
are listed in order by their rows, and a hidden line stands for the row above its run. -/
theorem lineMaps_inverse (ranges : List HiddenRange)
    (h : ∀ range ∈ ranges, 1 ≤ range.1 ∧ range.1 ≤ range.2) :
    (mergeRanges ranges).Pairwise (fun range range' => range.2 + 1 < range'.1) ∧
      (∀ range ∈ mergeRanges ranges, range.1 ≤ range.2) ∧
      (∀ line, Hidden (mergeRanges ranges) line ↔ Hidden ranges line) ∧
      StrictMono (toRealLine (mergeRanges ranges)) ∧
      (∀ line, 0 ≤ line ∧ ¬ Hidden ranges line ↔
        ∃ visual, 0 ≤ visual ∧ toRealLine (mergeRanges ranges) visual = line) ∧
      (∀ visual, toVisualLine (mergeRanges ranges) (toRealLine (mergeRanges ranges) visual) =
        visual) ∧
      ∀ range ∈ mergeRanges ranges, ∀ line, range.1 ≤ line → line ≤ range.2 →
        toRealLine (mergeRanges ranges) (toVisualLine (mergeRanges ranges) line) = range.1 - 1 := by
  obtain ⟨hmerged, hhidden⟩ := mergeRanges_spec fun range hrange => (h range hrange).2
  have hpos : ∀ range ∈ mergeRanges ranges, 0 < range.1 := by
    intro range hrange
    have hin : Hidden (mergeRanges ranges) range.1 :=
      ⟨range, hrange, le_rfl, hmerged.nonempty range hrange⟩
    obtain ⟨r, hr, hle, -⟩ := (hhidden range.1).mp hin
    have hone := (h r hr).1
    omega
  refine ⟨hmerged.apart, hmerged.nonempty, hhidden, realFrom_strictMono hmerged.nonempty,
    fun line => ?_, toVisualLine_toRealLine hmerged,
    fun range hrange line => (toRealLine_toVisualLine hmerged line).2 range hrange⟩
  rw [← hhidden]
  constructor
  · rintro ⟨hline, hnot⟩
    refine ⟨toVisualLine (mergeRanges ranges) line, ?_,
      (toRealLine_toVisualLine hmerged line).1 hnot⟩
    have hlt := lt_toVisualLine hmerged (show -1 < line by omega) hpos
    omega
  · rintro ⟨visual, hvisual, rfl⟩
    exact ⟨hvisual.trans (le_realFrom hmerged.nonempty visual),
      realFrom_not_hidden hmerged visual⟩

/-- Runs that are neither sorted nor apart. -/
theorem lineMaps_inverse_nested :
    toVisualLine (mergeRanges [(5, 6), (2, 9), (3, 4)])
      (toRealLine (mergeRanges [(5, 6), (2, 9), (3, 4)]) 2) = 2 :=
  (lineMaps_inverse [(5, 6), (2, 9), (3, 4)] (by decide)).2.2.2.2.2.1 2

end Voleeo.Web
