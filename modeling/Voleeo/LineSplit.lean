import Mathlib.Tactic

/-!
# Splitting a stream into lines

A stream is cut at a separator into its terminated lines and an unterminated
rest. Cutting a stream that arrives in two parts only needs the rest of the
first part, which is what an incremental reader keeps.
-/
namespace Voleeo

variable {α : Type*} [DecidableEq α]

/-- The terminated lines without their separators, and what follows the last separator. -/
def splitLines (sep : α) : List α → List (List α) × List α
  | [] => ([], [])
  | c :: cs =>
    let r := splitLines sep cs
    if c = sep then ([] :: r.1, r.2)
    else
      match r.1 with
      | [] => ([], c :: r.2)
      | l :: ls => ((c :: l) :: ls, r.2)

def joinLines (sep : α) (lines : List (List α)) : List α := lines.flatMap (· ++ [sep])

@[simp] theorem splitLines_nil (sep : α) : splitLines sep [] = ([], []) := rfl

@[simp] theorem splitLines_sep (sep : α) (cs : List α) :
    splitLines sep (sep :: cs) = ([] :: (splitLines sep cs).1, (splitLines sep cs).2) := by
  simp [splitLines]

theorem splitLines_cons_of_nil {sep c : α} (hc : c ≠ sep) {cs : List α}
    (h : (splitLines sep cs).1 = []) :
    splitLines sep (c :: cs) = ([], c :: (splitLines sep cs).2) := by
  simp [splitLines, hc, h]

theorem splitLines_cons_of_cons {sep c : α} (hc : c ≠ sep) {cs l : List α} {ls : List (List α)}
    (h : (splitLines sep cs).1 = l :: ls) :
    splitLines sep (c :: cs) = ((c :: l) :: ls, (splitLines sep cs).2) := by
  simp [splitLines, hc, h]

/-- The second part of a stream is cut together with the rest of the first part. -/
theorem splitLines_append (sep : α) (s t : List α) :
    splitLines sep (s ++ t) =
      ((splitLines sep s).1 ++ (splitLines sep ((splitLines sep s).2 ++ t)).1,
        (splitLines sep ((splitLines sep s).2 ++ t)).2) := by
  induction s with
  | nil => rfl
  | cons c cs ih =>
    rw [List.cons_append]
    by_cases hc : c = sep
    · subst hc
      rw [splitLines_sep, splitLines_sep, ih]
      rfl
    cases hl : (splitLines sep cs).1 with
    | nil =>
      rw [hl, List.nil_append] at ih
      rw [splitLines_cons_of_nil hc hl, List.cons_append, List.nil_append]
      simp only [splitLines, if_neg hc, ih]
    | cons l ls =>
      rw [hl] at ih
      have hls : (splitLines sep (cs ++ t)).1 = l :: (ls ++
          (splitLines sep ((splitLines sep cs).2 ++ t)).1) := by
        rw [ih]
        rfl
      rw [splitLines_cons_of_cons hc hl, splitLines_cons_of_cons hc hls, ih]
      rfl

theorem splitLines_line {sep : α} {l : List α} (h : sep ∉ l) (t : List α) :
    splitLines sep (l ++ sep :: t) = (l :: (splitLines sep t).1, (splitLines sep t).2) := by
  induction l with
  | nil => exact splitLines_sep sep t
  | cons c l ih =>
    rw [List.mem_cons, not_or] at h
    have hl := ih h.2
    rw [List.cons_append, splitLines_cons_of_cons (Ne.symm h.1) (by rw [hl]), hl]

theorem splitLines_of_not_mem {sep : α} {s : List α} (h : sep ∉ s) :
    splitLines sep s = ([], s) := by
  induction s with
  | nil => rfl
  | cons c cs ih =>
    rw [List.mem_cons, not_or] at h
    have hcs := ih h.2
    rw [splitLines_cons_of_nil (Ne.symm h.1) (by rw [hcs]), hcs]

theorem sep_not_mem_rest (sep : α) (s : List α) : sep ∉ (splitLines sep s).2 := by
  induction s with
  | nil => simp
  | cons c cs ih =>
    by_cases hc : c = sep
    · subst hc
      simpa using ih
    cases hl : (splitLines sep cs).1 with
    | nil =>
      rw [splitLines_cons_of_nil hc hl]
      simp only [List.mem_cons, not_or]
      exact ⟨Ne.symm hc, ih⟩
    | cons l ls => rwa [splitLines_cons_of_cons hc hl]

theorem sep_not_mem_lines (sep : α) (s : List α) : ∀ l ∈ (splitLines sep s).1, sep ∉ l := by
  induction s with
  | nil => simp
  | cons c cs ih =>
    by_cases hc : c = sep
    · subst hc
      simpa using ih
    cases hl : (splitLines sep cs).1 with
    | nil => simp [splitLines_cons_of_nil hc hl]
    | cons l ls =>
      rw [hl, List.forall_mem_cons] at ih
      rw [splitLines_cons_of_cons hc hl, List.forall_mem_cons]
      exact ⟨by simpa using ⟨Ne.symm hc, ih.1⟩, ih.2⟩

theorem splitLines_joinLines {sep : α} {ls : List (List α)} (h : ∀ l ∈ ls, sep ∉ l) :
    splitLines sep (joinLines sep ls) = (ls, []) := by
  induction ls with
  | nil => rfl
  | cons l ls ih =>
    rw [List.forall_mem_cons] at h
    rw [joinLines, List.flatMap_cons, List.append_assoc, List.singleton_append,
      splitLines_line h.1, ← joinLines, ih h.2]

theorem joinLines_splitLines (sep : α) (s : List α) :
    joinLines sep (splitLines sep s).1 ++ (splitLines sep s).2 = s := by
  induction s with
  | nil => rfl
  | cons c cs ih =>
    by_cases hc : c = sep
    · subst hc
      rw [splitLines_sep]
      simpa [joinLines] using ih
    cases hl : (splitLines sep cs).1 with
    | nil =>
      rw [splitLines_cons_of_nil hc hl]
      rw [hl] at ih
      simpa [joinLines] using ih
    | cons l ls =>
      rw [splitLines_cons_of_cons hc hl]
      rw [hl] at ih
      simpa [joinLines] using ih

/-- Joined texts are cut where each of them is cut, and between them. -/
theorem splitOn_intercalate_flatMap (sep : α) {texts : List (List α)} (h : texts ≠ []) :
    (List.intercalate [sep] texts).splitOn sep = texts.flatMap (·.splitOn sep) := by
  induction texts with
  | nil => exact absurd rfl h
  | cons s texts ih =>
    cases texts with
    | nil => simp
    | cons t texts =>
      rw [List.intercalate_cons_cons, List.append_assoc, List.singleton_append,
        List.splitOn_append_cons_self, ih (List.cons_ne_nil _ _)]
      rfl

omit [DecidableEq α] in
theorem intercalate_concat (sep : α) {texts : List (List α)} (h : texts ≠ []) (t : List α) :
    List.intercalate [sep] (texts ++ [t]) = List.intercalate [sep] texts ++ sep :: t := by
  induction texts with
  | nil => exact absurd rfl h
  | cons s texts ih =>
    rw [List.cons_append, List.intercalate_cons_of_ne_nil (by simp)]
    cases texts with
    | nil => simp
    | cons s' texts =>
      rw [ih (List.cons_ne_nil _ _), List.intercalate_cons_cons]
      simp only [List.append_assoc]

omit [DecidableEq α] in
theorem mem_intercalate {sep c : α} {texts : List (List α)}
    (h : c ∈ List.intercalate [sep] texts) : c = sep ∨ ∃ t ∈ texts, c ∈ t := by
  induction texts with
  | nil => cases h
  | cons t texts ih =>
    cases texts with
    | nil => exact Or.inr ⟨t, List.mem_cons_self, by simpa using h⟩
    | cons t' texts =>
      rw [List.intercalate_cons_cons, List.append_assoc, List.mem_append, List.mem_append,
        List.mem_singleton] at h
      rcases h with h | h | h
      · exact Or.inr ⟨t, List.mem_cons_self, h⟩
      · exact Or.inl h
      · exact (ih h).imp_right fun ⟨t, ht, hc⟩ => ⟨t, List.mem_cons_of_mem _ ht, hc⟩

/-! ## Reading one line at a time -/

/-- The first line and what follows its separator. -/
def nextLine (sep : α) : List α → Option (List α × List α)
  | [] => none
  | c :: cs =>
    if c = sep then some ([], cs)
    else (nextLine sep cs).map fun r => (c :: r.1, r.2)

theorem nextLine_eq_none {sep : α} {s : List α} (h : nextLine sep s = none) :
    splitLines sep s = ([], s) := by
  induction s with
  | nil => rfl
  | cons c cs ih =>
    unfold nextLine at h
    split_ifs at h with hc
    rw [Option.map_eq_none_iff] at h
    have hcs := ih h
    rw [splitLines_cons_of_nil hc (by rw [hcs]), hcs]

theorem nextLine_eq_some {sep : α} {s l t : List α} (h : nextLine sep s = some (l, t)) :
    splitLines sep s = (l :: (splitLines sep t).1, (splitLines sep t).2) ∧ t.length < s.length := by
  induction s generalizing l with
  | nil => cases h
  | cons c cs ih =>
    unfold nextLine at h
    split_ifs at h with hc
    · cases h
      subst hc
      exact ⟨splitLines_sep c t, by simp⟩
    · rw [Option.map_eq_some_iff] at h
      obtain ⟨⟨l', t'⟩, hnext, heq⟩ := h
      cases heq
      obtain ⟨hsplit, hlen⟩ := ih hnext
      refine ⟨?_, by rw [List.length_cons]; omega⟩
      rw [splitLines_cons_of_cons hc (by rw [hsplit]), hsplit]

end Voleeo
