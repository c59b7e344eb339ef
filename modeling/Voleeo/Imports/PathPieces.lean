import Voleeo.Imports.PathTemplate
import Voleeo.Send.Paths
import Voleeo.Send.Segments

/-!
# Path templates in pieces

A path template is literal text with placeholders in it. Its URL is the text with the names of the
placeholders behind colons, and what is sent is the text with values in their places.
-/
namespace Voleeo.Imports.PathTemplate
open Send (isSeparator Segment IsSegment glue isNameStart paramMatches EndsIn)

inductive Piece
  | lit (c : Char)
  | hole (name : Text)
  deriving DecidableEq, Repr

/-- A brace that is not closed is text. -/
def templateFrom : Option Text → Text → List Piece
  | none, [] => []
  | some name, [] => .lit '\x7b' :: name.map .lit
  | none, c :: rest =>
    if c = '\x7b' then templateFrom (some []) rest else .lit c :: templateFrom none rest
  | some name, c :: rest =>
    if c = '\x7d' then .hole name :: templateFrom none rest
    else templateFrom (some (name ++ [c])) rest

/-- The pieces of a path template. -/
def template (path : Text) : List Piece := templateFrom none path

def Piece.write (value : Text → Text) : Piece → Text
  | .lit c => [c]
  | .hole name => value name

/-- The template with each placeholder replaced. -/
def fill (value : Text → Text) (ps : List Piece) : Text := ps.flatMap (Piece.write value)

def Piece.lit? : Piece → Option Char
  | .lit c => some c
  | .hole _ => none

def Piece.hole? : Piece → Option Text
  | .lit _ => none
  | .hole name => some name

/-- The literal text of the pieces. -/
def lits (ps : List Piece) : Text := ps.filterMap Piece.lit?

/-- The placeholders of the pieces. -/
def holes (ps : List Piece) : List Text := ps.filterMap Piece.hole?

/-- The pieces of each segment, with what ends it. -/
def segmentsOf : List Piece → List (List Piece × Char)
  | [] => [([], '/')]
  | .lit c :: rest =>
    if isSeparator c then ([], c) :: segmentsOf rest
    else (segmentsOf rest).modifyHead fun s => (.lit c :: s.1, s.2)
  | .hole name :: rest => (segmentsOf rest).modifyHead fun s => (.hole name :: s.1, s.2)

/-- The segments of the path proper, in front of a query or a fragment. -/
def frontOf {α : Type} : List (α × Char) → List (α × Char)
  | [] => []
  | s :: rest => if s.2 = '/' then s :: frontOf rest else [s]

/-- A segment of literal text, or literal text with one placeholder behind it. -/
def Ended (ps : List Piece) : Prop :=
  ps = (lits ps).map .lit ++ (holes ps).map .hole ∧ (holes ps).length ≤ 1

instance (ps : List Piece) : Decidable (Ended ps) :=
  inferInstanceAs (Decidable (_ ∧ _))

def IsIdentifier (name : Text) : Prop :=
  name.head?.any isNameStart = true ∧ ∀ c ∈ name, isWordChar c = true

/-! ## The text of the pieces -/

section
variable {value : Text → Text} {ps qs : List Piece}

theorem fill_append : fill value (ps ++ qs) = fill value ps ++ fill value qs :=
  List.flatMap_append

theorem fill_lits (text : Text) : fill value (text.map .lit) = text := by
  induction text with
  | nil => rfl
  | cons c text ih => exact congrArg (c :: ·) ih

theorem fill_holes (names : List Text) : fill value (names.map .hole) = names.flatMap value := by
  rw [fill, List.flatMap_map]
  rfl

theorem fill_of_ended (h : Ended ps) : fill value ps = lits ps ++ (holes ps).flatMap value := by
  conv_lhs => rw [h.1]
  rw [fill_append, fill_lits, fill_holes]

theorem lits_append : lits (ps ++ qs) = lits ps ++ lits qs := List.filterMap_append

theorem holes_append : holes (ps ++ qs) = holes ps ++ holes qs := List.filterMap_append

theorem lits_map_lit (text : Text) : lits (text.map .lit) = text := by
  induction text with
  | nil => rfl
  | cons c text ih => exact congrArg (c :: ·) ih

theorem holes_map_lit (text : Text) : holes (text.map .lit) = [] := by
  induction text with
  | nil => rfl
  | cons c text ih => exact ih

theorem mem_lits {c : Char} : c ∈ lits ps ↔ Piece.lit c ∈ ps := by
  rw [lits, List.mem_filterMap]
  constructor
  · rintro ⟨p, hp, hc⟩
    cases p with
    | lit d =>
      obtain rfl := Option.some.inj hc
      exact hp
    | hole name => cases hc
  · exact fun h => ⟨_, h, rfl⟩

theorem mem_holes {name : Text} : name ∈ holes ps ↔ Piece.hole name ∈ ps := by
  rw [holes, List.mem_filterMap]
  constructor
  · rintro ⟨p, hp, hname⟩
    cases p with
    | lit d => cases hname
    | hole name' =>
      obtain rfl := Option.some.inj hname
      exact hp
  · exact fun h => ⟨_, h, rfl⟩

end

/-! ## The URL -/

theorem sanitizeVar_word (name : Text) : ∀ c ∈ sanitizeVar name, isWordChar c = true := by
  have hmap : ∀ c ∈ name.map fun c => if isWordChar c then c else '_', isWordChar c = true := by
    intro c hc
    obtain ⟨d, -, rfl⟩ := List.mem_map.mp hc
    split_ifs with h
    · exact h
    · rfl
  rw [sanitizeVar]
  split_ifs
  · decide
  · exact List.forall_mem_cons.mpr ⟨rfl, hmap⟩
  · exact hmap

/-- A name that is an identifier stays as it is. -/
theorem sanitizeVar_of_identifier {name : Text} (h : IsIdentifier name) :
    sanitizeVar name = name := by
  obtain ⟨hstart, hword⟩ := h
  have hmap : (name.map fun c => if isWordChar c then c else '_') = name := by
    conv_rhs => rw [← List.map_id name]
    exact List.map_congr_left fun c hc => if_pos (hword c hc)
  cases name with
  | nil => cases hstart
  | cons c rest =>
    have hdigit : c.isDigit = false := Send.not_digit_of_nameStart hstart
    rw [sanitizeVar, hmap]
    simp [hdigit]

theorem segmentsFrom_eq : ∀ (name : Option Text) (s : Text),
    Piece.lit '\x7b' ∉ templateFrom name s →
      segmentsFrom name s = fill (fun n => ':' :: sanitizeVar n) (templateFrom name s)
  | none, [], _ => rfl
  | some name, [], h => absurd List.mem_cons_self h
  | none, c :: rest, h => by
      rw [templateFrom] at h ⊢
      rw [segmentsFrom]
      by_cases hc : c = '\x7b'
      · rw [if_pos hc] at h ⊢
        rw [if_pos hc]
        exact segmentsFrom_eq (some []) rest h
      · rw [if_neg hc] at h ⊢
        rw [if_neg hc, segmentsFrom_eq none rest fun hmem => h (List.mem_cons_of_mem _ hmem)]
        rfl
  | some name, c :: rest, h => by
      rw [templateFrom] at h ⊢
      rw [segmentsFrom]
      by_cases hc : c = '\x7d'
      · rw [if_pos hc] at h ⊢
        rw [if_pos hc, segmentsFrom_eq none rest fun hmem => h (List.mem_cons_of_mem _ hmem)]
        rfl
      · rw [if_neg hc] at h ⊢
        rw [if_neg hc]
        exact segmentsFrom_eq (some (name ++ [c])) rest h

/-- The URL has no brace, closed or not. -/
theorem brace_not_mem_segmentsFrom : ∀ (name : Option Text) (s : Text), '\x7b' ∉ segmentsFrom name s
  | none, [] => List.not_mem_nil
  | some name, [] => by
      rw [segmentsFrom, List.mem_cons, not_or]
      exact ⟨by decide, fun h => absurd (sanitizeVar_word name _ h) (by decide)⟩
  | none, c :: rest => by
      rw [segmentsFrom]
      split_ifs with hc
      · exact brace_not_mem_segmentsFrom (some []) rest
      · rw [List.mem_cons, not_or]
        exact ⟨Ne.symm hc, brace_not_mem_segmentsFrom none rest⟩
  | some name, c :: rest => by
      rw [segmentsFrom]
      split_ifs with hc
      · rw [List.mem_cons, List.mem_append, not_or, not_or]
        exact ⟨by decide, fun h => absurd (sanitizeVar_word name _ h) (by decide),
          brace_not_mem_segmentsFrom none rest⟩
      · exact brace_not_mem_segmentsFrom (some (name ++ [c])) rest

/-! ## Segments -/

theorem segmentsOf_ne_nil (ps : List Piece) : segmentsOf ps ≠ [] := by
  induction ps with
  | nil => exact List.cons_ne_nil _ _
  | cons p ps ih =>
    obtain ⟨s, rest, h⟩ := List.exists_cons_of_ne_nil ih
    cases p with
    | lit c =>
      rw [segmentsOf]
      split_ifs <;> simp [h]
    | hole name => simp [segmentsOf, h]

/-- The text of the pieces is glued together from the texts of the segments. -/
theorem fill_end (value : Text → Text) (ps : List Piece) :
    fill value ps ++ ['/'] = glue ((segmentsOf ps).map fun s => (fill value s.1, s.2)) := by
  induction ps with
  | nil => rfl
  | cons p ps ih =>
    obtain ⟨s, rest, h⟩ := List.exists_cons_of_ne_nil (segmentsOf_ne_nil ps)
    have hcons : fill value (p :: ps) = p.write value ++ fill value ps := rfl
    rw [hcons, List.append_assoc, ih, h]
    cases p with
    | lit c =>
      rw [segmentsOf, h]
      split_ifs with hc
      · rfl
      · simp [Send.glue_cons, fill, Piece.write]
    | hole name => simp [segmentsOf, h, Send.glue_cons, fill, Piece.write]

theorem separator_of_mem {ps : List Piece} {s : List Piece × Char} (h : s ∈ segmentsOf ps) :
    (∀ c, Piece.lit c ∈ s.1 → isSeparator c = false) ∧ isSeparator s.2 = true := by
  induction ps generalizing s with
  | nil =>
    obtain rfl := List.mem_singleton.mp h
    exact ⟨by simp, rfl⟩
  | cons p ps ih =>
    obtain ⟨t, rest, ht⟩ := List.exists_cons_of_ne_nil (segmentsOf_ne_nil ps)
    rw [ht] at ih
    have hfirst := ih List.mem_cons_self
    have hrest : ∀ u ∈ rest, _ := fun u hu => ih (List.mem_cons_of_mem t hu)
    cases p with
    | lit c =>
      rw [segmentsOf, ht] at h
      split_ifs at h with hc
      · rcases List.mem_cons.mp h with rfl | h
        · exact ⟨by simp, hc⟩
        · exact ih h
      · rcases List.mem_cons.mp h with rfl | h
        · refine ⟨fun d hd => ?_, hfirst.2⟩
          rcases List.mem_cons.mp hd with hd | hd
          · cases hd
            simpa using hc
          · exact hfirst.1 d hd
        · exact hrest s h
    | hole name =>
      rw [segmentsOf, ht] at h
      rcases List.mem_cons.mp h with rfl | h
      · refine ⟨fun d hd => ?_, hfirst.2⟩
        rcases List.mem_cons.mp hd with hd | hd
        · cases hd
        · exact hfirst.1 d hd
      · exact hrest s h

theorem flatMap_holes (ps : List Piece) : (segmentsOf ps).flatMap (fun s => holes s.1) = holes ps := by
  induction ps with
  | nil => rfl
  | cons p ps ih =>
    obtain ⟨s, rest, h⟩ := List.exists_cons_of_ne_nil (segmentsOf_ne_nil ps)
    rw [h] at ih
    cases p with
    | lit c =>
      rw [segmentsOf, h]
      split_ifs
      · exact ih
      · exact ih
    | hole name =>
      rw [segmentsOf, h]
      exact congrArg (name :: ·) ih

theorem isSegment_fill {value : Text → Text} {ps : List Piece}
    (hvalue : ∀ name ∈ holes ps, ∀ c ∈ value name, isSeparator c = false) :
    ∀ s ∈ (segmentsOf ps).map fun s => (fill value s.1, s.2), IsSegment s := by
  intro s hs
  obtain ⟨t, ht, rfl⟩ := List.mem_map.mp hs
  obtain ⟨hlits, hend⟩ := separator_of_mem ht
  refine ⟨fun c hc => ?_, hend⟩
  obtain ⟨p, hp, hwrite⟩ := List.mem_flatMap.mp hc
  cases p with
  | lit d =>
    obtain rfl := List.mem_singleton.mp hwrite
    exact hlits c hp
  | hole name =>
    refine hvalue name ?_ c hwrite
    rw [← flatMap_holes]
    exact List.mem_flatMap.mpr ⟨t, ht, mem_holes.mpr hp⟩

end Voleeo.Imports.PathTemplate
