import Voleeo.Resolve.Text
import Voleeo.Send.Url

/-!
# Places of a path parameter

A place is a colon with the name behind it, and no further letter, digit or
underscore behind the name. The Rust resolver replaces a parameter at all its
places, the web app at the first one that a segment ends with.
-/
namespace Voleeo.Send
open Resolve (UnicodeTables isBoundary replacePathParam replacePathParamFrom)

variable {tables : UnicodeTables}

/-! ## Words -/

def IsWord (tables : UnicodeTables) (w : Text) : Prop := ∀ c ∈ w, tables.isWord c = true

theorem not_word_of_ascii {c : Char} (hc : c.toNat < 128) (hw : isWordChar c = false) :
    tables.isWord c = false := by rw [tables.isWord_ascii hc, hw]

@[simp] theorem isWord_colon : tables.isWord ':' = false :=
  not_word_of_ascii (by decide) (by decide)

@[simp] theorem isWord_slash : tables.isWord '/' = false :=
  not_word_of_ascii (by decide) (by decide)

@[simp] theorem isWord_dash : tables.isWord '-' = false :=
  not_word_of_ascii (by decide) (by decide)

theorem colon_not_mem {w : Text} (hw : IsWord tables w) : ':' ∉ w := by
  intro hmem
  have := hw _ hmem
  simp at this

@[simp] theorem isBoundary_colon (rest : Text) : isBoundary tables (':' :: rest) = true := by
  simp [isBoundary]

theorem isBoundary_append {s : Text} (hs : s ≠ []) (t : Text) :
    isBoundary tables (s ++ t) = isBoundary tables s := by
  cases s with
  | nil => exact absurd rfl hs
  | cons c s => rfl

theorem boundary_of_segmentEnd {s : Text} (h : isSegmentEnd s = true) :
    isBoundary tables s = true := by
  cases s with
  | nil => rfl
  | cons c s =>
    simp only [isSegmentEnd, Bool.or_eq_true, beq_iff_eq] at h
    have hc : tables.isWord c = false := by
      rcases h with (rfl | rfl) | rfl <;> exact not_word_of_ascii (by decide) (by decide)
    simp [isBoundary, hc]

/-- In front of a boundary the word is read back. -/
theorem takeWhile_word {w : Text} (hw : IsWord tables w) {t : Text}
    (ht : isBoundary tables t = true) : (w ++ t).takeWhile tables.isWord = w := by
  rw [List.takeWhile_append_of_pos hw]
  cases t with
  | nil => simp
  | cons c t =>
    have hc : tables.isWord c = false := by simpa [isBoundary] using ht
    simp [hc]

theorem takeWhile_boundary (s : Text) {t : Text} (ht : isBoundary tables t = true) :
    (s ++ t).takeWhile tables.isWord = s.takeWhile tables.isWord := by
  induction s with
  | nil =>
    cases t with
    | nil => rfl
    | cons c t =>
      have hc : tables.isWord c = false := by simpa [isBoundary] using ht
      simp [hc]
  | cons c s ih =>
    cases hc : tables.isWord c with
    | false => simp [hc]
    | true => simp [hc, ih]

theorem word_split (t : Text) : IsWord tables (t.takeWhile tables.isWord) ∧
    t = t.takeWhile tables.isWord ++ t.drop (t.takeWhile tables.isWord).length ∧
    isBoundary tables (t.drop (t.takeWhile tables.isWord).length) = true := by
  have hsplit := List.takeWhile_append_dropWhile (p := tables.isWord) (l := t)
  have hdrop : t.drop (t.takeWhile tables.isWord).length = t.dropWhile tables.isWord := by
    conv_lhs => arg 2; rw [← hsplit]
    exact List.drop_left
  refine ⟨fun c hc => List.mem_takeWhile_imp hc, by rw [hdrop, hsplit], ?_⟩
  rw [hdrop]
  cases hrest : t.dropWhile tables.isWord with
  | nil => rfl
  | cons c rest =>
    have hnot := List.head?_dropWhile_not tables.isWord t
    rw [hrest] at hnot
    simpa [isBoundary] using hnot

/-! ## Places -/

def IsPlace (tables : UnicodeTables) (name s before after : Text) : Prop :=
  s = before ++ ':' :: (name ++ after) ∧ isBoundary tables after = true

/-- The pattern matches where a place begins. -/
theorem match_iff {name : Text} (hname : IsWord tables name) {c : Char} {rest : Text} :
    ((':' :: name) <+: c :: rest ∧ isBoundary tables (rest.drop name.length) = true) ↔
      c = ':' ∧ rest.takeWhile tables.isWord = name := by
  constructor
  · rintro ⟨hmatch, hboundary⟩
    obtain ⟨hc, htail, rfl⟩ := List.cons_prefix_cons.mp hmatch
    rw [List.drop_left] at hboundary
    exact ⟨hc.symm, takeWhile_word hname hboundary⟩
  · rintro ⟨rfl, hword⟩
    obtain ⟨-, hsplit, hboundary⟩ := @word_split tables rest
    rw [hword] at hsplit hboundary
    exact ⟨List.cons_prefix_cons.mpr ⟨rfl, ⟨_, hsplit.symm⟩⟩, hboundary⟩

def countPlaces (tables : UnicodeTables) (name : Text) : Text → ℕ
  | [] => 0
  | c :: rest =>
    (if c = ':' ∧ rest.takeWhile tables.isWord = name then 1 else 0) + countPlaces tables name rest

theorem countPlaces_append (name s : Text) {t : Text} (ht : isBoundary tables t = true) :
    countPlaces tables name (s ++ t) = countPlaces tables name s + countPlaces tables name t := by
  induction s with
  | nil => simp [countPlaces]
  | cons c s ih =>
    rw [List.cons_append, countPlaces, countPlaces, takeWhile_boundary s ht, ih, Nat.add_assoc]

theorem countPlaces_of_no_colon (name : Text) {s : Text} (hs : ':' ∉ s) :
    countPlaces tables name s = 0 := by
  induction s with
  | nil => rfl
  | cons c s ih =>
    rw [List.mem_cons, not_or] at hs
    rw [countPlaces, if_neg fun h => hs.1 h.1.symm, ih hs.2]

theorem countPlaces_colon {name w : Text} (hw : IsWord tables w) :
    countPlaces tables name (':' :: w) = if w = name then 1 else 0 := by
  have hself := takeWhile_word hw (t := []) rfl
  rw [List.append_nil] at hself
  rw [countPlaces, hself, countPlaces_of_no_colon name (colon_not_mem hw), Nat.add_zero]
  simp

/-- The places of a name in front of, at and behind a place of another one. -/
theorem countPlaces_split (name : Text) {w before after : Text} (hw : IsWord tables w)
    (hafter : isBoundary tables after = true) :
    countPlaces tables name (before ++ ':' :: (w ++ after)) =
      countPlaces tables name before + (if w = name then 1 else 0) +
        countPlaces tables name after := by
  rw [countPlaces_append name before (isBoundary_colon _), ← List.cons_append,
    countPlaces_append name (':' :: w) hafter, countPlaces_colon hw, Nat.add_assoc]

theorem countPlaces_pos {name s before after : Text} (hname : IsWord tables name)
    (h : IsPlace tables name s before after) : 0 < countPlaces tables name s := by
  rw [h.1, countPlaces_split name hname h.2, if_pos rfl]
  omega

theorem exists_place {name s : Text} (h : 0 < countPlaces tables name s) :
    ∃ before after, IsPlace tables name s before after := by
  induction s with
  | nil => cases h
  | cons c rest ih =>
    rw [countPlaces] at h
    split_ifs at h with hc
    · obtain ⟨-, hsplit, hboundary⟩ := @word_split tables rest
      rw [hc.2] at hsplit hboundary
      exact ⟨[], _, by rw [hc.1, List.nil_append, ← hsplit], hboundary⟩
    · obtain ⟨before, after, hplace, hboundary⟩ := ih (by omega)
      exact ⟨c :: before, after, by rw [hplace]; rfl, hboundary⟩

theorem place_unique {name s before after before' after' : Text} (hname : IsWord tables name)
    (hcount : countPlaces tables name s ≤ 1) (h : IsPlace tables name s before after)
    (h' : IsPlace tables name s before' after') : before = before' ∧ after = after' := by
  induction s generalizing before before' with
  | nil =>
    have := congrArg List.length h.1
    simp at this
  | cons c rest ih =>
    -- A place at the head leaves no further one in the rest.
    have hfirst : ∀ {a b : Text}, IsPlace tables name (c :: rest) [] a →
        ¬ IsPlace tables name rest b after ∧ ¬ IsPlace tables name rest b after' := by
      intro a b hplace
      obtain ⟨hc, hrest⟩ := List.cons.inj hplace.1
      have hhead : c = ':' ∧ rest.takeWhile tables.isWord = name :=
        ⟨hc, by rw [hrest]; exact takeWhile_word hname hplace.2⟩
      rw [countPlaces, if_pos hhead] at hcount
      constructor <;>
        · intro hlater
          have := countPlaces_pos hname hlater
          omega
    cases before with
    | nil =>
      cases before' with
      | nil =>
        have heq := h.1.symm.trans h'.1
        exact ⟨rfl, List.append_cancel_left (List.cons.inj heq).2⟩
      | cons d before' =>
        obtain ⟨-, hrest⟩ := List.cons.inj h'.1
        exact absurd ⟨hrest, h'.2⟩ (hfirst h).2
    | cons d before =>
      obtain ⟨rfl, hrest⟩ := List.cons.inj h.1
      cases before' with
      | nil => exact absurd ⟨hrest, h.2⟩ (hfirst h').1
      | cons d' before' =>
        obtain ⟨rfl, hrest'⟩ := List.cons.inj h'.1
        have hle : countPlaces tables name rest ≤ 1 := by
          rw [countPlaces] at hcount
          omega
        obtain ⟨rfl, rfl⟩ := ih hle ⟨hrest, h.2⟩ ⟨hrest', h'.2⟩
        exact ⟨rfl, rfl⟩

/-- Places that all begin at one position are one place. -/
theorem countPlaces_le_one {name s : Text} (hname : IsWord tables name)
    (h : ∀ before after before' after', IsPlace tables name s before after →
      IsPlace tables name s before' after' → before' = before) : countPlaces tables name s ≤ 1 := by
  induction s with
  | nil => simp [countPlaces]
  | cons c rest ih =>
    rw [countPlaces]
    split_ifs with hmatch
    · obtain ⟨hhead, hboundary⟩ := (match_iff hname).mpr hmatch
      obtain ⟨hc, after, rfl⟩ := List.cons_prefix_cons.mp hhead
      rw [List.drop_left] at hboundary
      by_contra hmore
      obtain ⟨before', after', hplace, hboundary'⟩ :=
        @exists_place tables name (name ++ after) (by omega)
      have hsame := h [] after (c :: before') after' ⟨by rw [← hc]; rfl, hboundary⟩
        ⟨by rw [hplace]; rfl, hboundary'⟩
      cases hsame
    · rw [Nat.zero_add]
      apply ih
      rintro before after before' after' ⟨hs, hafter⟩ ⟨hs', hafter'⟩
      have hsame := h (c :: before) after (c :: before') after' ⟨by rw [hs]; rfl, hafter⟩
        ⟨by rw [hs']; rfl, hafter'⟩
      exact (List.cons.inj hsame).2

end Voleeo.Send
