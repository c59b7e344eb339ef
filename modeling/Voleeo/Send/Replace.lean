import Voleeo.Send.Places
import Mathlib.Logic.Relation

/-!
# Replacing a path parameter

What one step of either resolver does to the places of the parameters: which
text it gives, and how many places of each name are left.
-/
namespace Voleeo.Send
open Resolve (UnicodeTables isBoundary replacePathParam replacePathParamFrom)

variable {tables : UnicodeTables} {name value : Text}

/-! ## The Rust resolver -/

theorem replacePathParamFrom_skip (skip : ℕ) (s : Text) :
    replacePathParamFrom tables name value skip s =
      replacePathParam tables (s.drop skip) name value := by
  induction s generalizing skip with
  | nil => cases skip <;> rfl
  | cons c s ih =>
    cases skip with
    | zero => rfl
    | succ skip => exact ih skip

theorem replacePathParam_cons (hname : IsWord tables name) (c : Char) (rest : Text) :
    replacePathParam tables (c :: rest) name value =
      if c = ':' ∧ rest.takeWhile tables.isWord = name then
        value ++ replacePathParam tables (rest.drop name.length) name value
      else c :: replacePathParam tables rest name value := by
  rw [replacePathParam, replacePathParamFrom, replacePathParamFrom_skip]
  simp only [match_iff hname]
  rfl

theorem replacePathParam_of_zero (hname : IsWord tables name) {s : Text}
    (h : countPlaces tables name s = 0) : replacePathParam tables s name value = s := by
  induction s with
  | nil => rfl
  | cons c rest ih =>
    rw [countPlaces, Nat.add_eq_zero_iff] at h
    have hno : ¬ (c = ':' ∧ rest.takeWhile tables.isWord = name) := by
      intro hmatch
      rw [if_pos hmatch] at h
      cases h.1
    rw [replacePathParam_cons hname, if_neg hno, ih h.2]

/-- The only place of a name is replaced. -/
theorem replacePathParam_place (hname : IsWord tables name) {before after : Text}
    (hafter : isBoundary tables after = true)
    (hcount : countPlaces tables name (before ++ ':' :: (name ++ after)) = 1) :
    replacePathParam tables (before ++ ':' :: (name ++ after)) name value =
      before ++ value ++ after := by
  induction before with
  | nil =>
    have hmatch : ':' = ':' ∧ (name ++ after).takeWhile tables.isWord = name :=
      ⟨rfl, takeWhile_word hname hafter⟩
    rw [countPlaces_split name hname hafter, if_pos rfl] at hcount
    have hzero : countPlaces tables name after = 0 := by
      simp only [countPlaces] at hcount
      omega
    rw [List.nil_append, replacePathParam_cons hname, if_pos hmatch, List.drop_left,
      replacePathParam_of_zero hname hzero]
    rfl
  | cons c before ih =>
    have hpos : 0 < countPlaces tables name (before ++ ':' :: (name ++ after)) :=
      countPlaces_pos hname ⟨rfl, hafter⟩
    rw [List.cons_append, countPlaces] at hcount
    have hno : ¬ (c = ':' ∧ (before ++ ':' :: (name ++ after)).takeWhile tables.isWord = name) := by
      intro hmatch
      rw [if_pos hmatch] at hcount
      omega
    rw [if_neg hno, Nat.zero_add] at hcount
    rw [List.cons_append, replacePathParam_cons hname, if_neg hno, ih hcount]
    rfl

/-- One place of a parameter is replaced. -/
def Subst (tables : UnicodeTables) (name value s s' : Text) : Prop :=
  ∃ before after, IsPlace tables name s before after ∧ s' = before ++ value ++ after

/-- The Rust resolver replaces one place after another. -/
theorem replacePathParam_reach (hname : IsWord tables name) (front s : Text) :
    Relation.ReflTransGen (Subst tables name value) (front ++ s)
      (front ++ replacePathParam tables s name value) := by
  induction hn : s.length using Nat.strong_induction_on generalizing front s with
  | _ n ih =>
    cases s with
    | nil => exact .refl
    | cons c rest =>
      rw [replacePathParam_cons hname]
      split_ifs with hmatch
      · obtain ⟨-, hsplit, hboundary⟩ := @word_split tables rest
        rw [hmatch.2] at hsplit hboundary
        have hstep : Subst tables name value (front ++ c :: rest)
            (front ++ value ++ rest.drop name.length) :=
          ⟨front, _, ⟨by rw [hmatch.1, ← hsplit], hboundary⟩, rfl⟩
        have hlen : (rest.drop name.length).length < n := by
          rw [List.length_drop, ← hn, List.length_cons]
          omega
        rw [← List.append_assoc]
        exact .head hstep (ih _ hlen _ _ rfl)
      · have hlen : rest.length < n := by
          rw [← hn, List.length_cons]
          omega
        have hrest := ih _ hlen (front ++ [c]) rest rfl
        simpa using hrest

/-! ## The web app -/

theorem replaceFirstParam_cases (name value s : Text) :
    replaceFirstParam name value s = s ∨
      ∃ before after, s = before ++ ':' :: (name ++ after) ∧ isSegmentEnd after = true ∧
        replaceFirstParam name value s = before ++ value ++ after := by
  induction s with
  | nil => exact Or.inl rfl
  | cons c rest ih =>
    rw [replaceFirstParam]
    split_ifs with hmatch
    · obtain ⟨hmatch, hend⟩ := hmatch
      obtain ⟨hc, after, rfl⟩ := List.cons_prefix_cons.mp hmatch
      rw [List.drop_left] at hend ⊢
      exact Or.inr ⟨[], after, by rw [← hc]; rfl, hend, rfl⟩
    · rcases ih with ih | ⟨before, after, hrest, hend, heq⟩
      · exact Or.inl (by rw [ih])
      · refine Or.inr ⟨c :: before, after, by rw [hrest]; rfl, hend, ?_⟩
        rw [heq]
        rfl

theorem replaceFirstParam_of_zero (hname : IsWord tables name) {s : Text}
    (h : countPlaces tables name s = 0) : replaceFirstParam name value s = s := by
  rcases replaceFirstParam_cases name value s with heq | ⟨before, after, hs, hend, -⟩
  · exact heq
  · have := countPlaces_pos hname ⟨hs, boundary_of_segmentEnd hend⟩
    omega

theorem replaceFirstParam_ne {before after : Text} (hend : isSegmentEnd after = true) :
    ∃ before' after', before ++ ':' :: (name ++ after) = before' ++ ':' :: (name ++ after') ∧
      isSegmentEnd after' = true ∧
      replaceFirstParam name value (before ++ ':' :: (name ++ after)) =
        before' ++ value ++ after' := by
  induction before with
  | nil =>
    refine ⟨[], after, rfl, hend, ?_⟩
    have hmatch : (':' :: name) <+: ':' :: (name ++ after) ∧
        isSegmentEnd ((name ++ after).drop name.length) = true := by
      rw [List.drop_left]
      exact ⟨⟨after, rfl⟩, hend⟩
    rw [List.nil_append, replaceFirstParam, if_pos hmatch, List.drop_left]
    rfl
  | cons c before ih =>
    rw [List.cons_append, replaceFirstParam]
    split_ifs with hmatch
    · obtain ⟨hmatch, hend'⟩ := hmatch
      obtain ⟨hc, after', htail⟩ := List.cons_prefix_cons.mp hmatch
      rw [← htail, List.drop_left] at hend'
      refine ⟨[], after', by rw [← hc, ← htail]; rfl, hend', ?_⟩
      rw [← htail, List.drop_left]
      rfl
    · obtain ⟨before', after', hrest, hend', heq⟩ := ih
      refine ⟨c :: before', after', by rw [hrest]; rfl, hend', ?_⟩
      rw [heq]
      rfl

/-- The only place of a name is replaced when a segment ends behind it. -/
theorem replaceFirstParam_place (hname : IsWord tables name) {before after : Text}
    (hend : isSegmentEnd after = true)
    (hcount : countPlaces tables name (before ++ ':' :: (name ++ after)) = 1) :
    replaceFirstParam name value (before ++ ':' :: (name ++ after)) = before ++ value ++ after := by
  obtain ⟨before', after', hsplit, hend', heq⟩ :=
    @replaceFirstParam_ne name value before after hend
  obtain ⟨rfl, rfl⟩ := place_unique hname hcount.le
    ⟨rfl, boundary_of_segmentEnd hend⟩ ⟨hsplit, boundary_of_segmentEnd hend'⟩
  exact heq

/-- The web app replaces at most one place. -/
theorem replaceFirstParam_reach (tables : UnicodeTables) (name value s : Text) :
    replaceFirstParam name value s = s ∨
      Subst tables name value s (replaceFirstParam name value s) := by
  rcases replaceFirstParam_cases name value s with heq | ⟨before, after, hs, hend, heq⟩
  · exact Or.inl heq
  · exact Or.inr ⟨before, after, ⟨hs, boundary_of_segmentEnd hend⟩, heq⟩

end Voleeo.Send
