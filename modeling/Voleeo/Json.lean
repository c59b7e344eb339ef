import Mathlib.Data.List.Basic
import Mathlib.Logic.Relation

/-!
# JSON values

A value with the accessors of its reader: each is an option, and asks for the
kind of value that it returns.
-/
namespace Voleeo

/-- A number keeps its text. An object lists its members. -/
inductive Json
  | null
  | bool (b : Bool)
  | number (text : String)
  | string (s : String)
  | array (values : List Json)
  | object (members : List (String × Json))
  deriving Repr

namespace Json

def get : Json → String → Option Json
  | .object members, key => (members.find? fun e => e.1 = key).map (·.2)
  | _, _ => none

def asStr : Json → Option String
  | .string s => some s
  | _ => none

def asBool : Json → Option Bool
  | .bool b => some b
  | _ => none

def asArray : Json → Option (List Json)
  | .array values => some values
  | _ => none

def asObject : Json → Option (List (String × Json))
  | .object members => some members
  | _ => none

/-- The value behind a path of member names. -/
def pointer (v : Json) (path : List String) : Option Json := path.foldlM get v

/-- A text member, and the empty text where there is none. -/
def strOr (v : Json) (key default : String) : String := ((v.get key).bind asStr).getD default

def strAtOr (v : Json) (path : List String) : String := ((v.pointer path).bind asStr).getD ""

theorem sizeOf_get_lt {v w : Json} {key : String} (h : v.get key = some w) :
    sizeOf w < sizeOf v := by
  cases v with
  | object members =>
    obtain ⟨e, he, rfl⟩ := Option.map_eq_some_iff.mp h
    have hmem := List.sizeOf_lt_of_mem (List.mem_of_find?_eq_some he)
    have hsnd : sizeOf e.2 < sizeOf e := by
      cases e
      simp only [Prod.mk.sizeOf_spec]
      omega
    simp only [object.sizeOf_spec]
    omega
  | _ => cases h

theorem sizeOf_asArray_lt {v : Json} {values : List Json} (h : v.asArray = some values) :
    sizeOf values < sizeOf v := by
  cases v with
  | array values' =>
    cases h
    simp only [array.sizeOf_spec]
    omega
  | _ => cases h

end Json

end Voleeo

/-!
## The nodes of a JSON value

The values inside a value are finitely many, and each is smaller than the one it lies in.
-/
namespace Voleeo.Json

/-- The values directly inside. -/
def parts : Json → List Json
  | .array values => values
  | .object members => members.map (·.2)
  | _ => []

theorem sizeOf_part_lt {v w : Json} (h : w ∈ v.parts) : sizeOf w < sizeOf v := by
  cases v with
  | array values =>
    have hmem : sizeOf w < sizeOf values := List.sizeOf_lt_of_mem h
    simp only [array.sizeOf_spec]
    omega
  | object members =>
    obtain ⟨e, he, rfl⟩ := List.mem_map.mp h
    have hmem := List.sizeOf_lt_of_mem he
    have hsnd : sizeOf e.2 < sizeOf e := by
      cases e
      simp only [Prod.mk.sizeOf_spec]
      omega
    simp only [object.sizeOf_spec]
    omega
  | _ => cases h

theorem mem_parts_of_get {v w : Json} {key : String} (h : v.get key = some w) : w ∈ v.parts := by
  cases v with
  | object members =>
    obtain ⟨e, he, rfl⟩ := Option.map_eq_some_iff.mp h
    exact List.mem_map_of_mem (List.mem_of_find?_eq_some he)
  | _ => cases h

theorem mem_parts_of_asArray {v w : Json} {values : List Json} (h : v.asArray = some values)
    (hw : w ∈ values) : w ∈ v.parts := by
  cases v with
  | array values' =>
    cases h
    exact hw
  | _ => cases h

theorem mem_parts_of_asObject {v : Json} {members : List (String × Json)} {e : String × Json}
    (h : v.asObject = some members) (he : e ∈ members) : e.2 ∈ v.parts := by
  cases v with
  | object members' =>
    cases h
    exact List.mem_map_of_mem he
  | _ => cases h

/-- Somewhere inside. -/
def Inside (v w : Json) : Prop := Relation.TransGen (fun v w => w ∈ v.parts) v w

theorem Inside.sizeOf_lt {v w : Json} (h : v.Inside w) : sizeOf w < sizeOf v := by
  induction h with
  | single hpart => exact sizeOf_part_lt hpart
  | tail _ hpart ih => exact Nat.lt_trans (sizeOf_part_lt hpart) ih

/-- The value with all that is inside it. -/
def nodes (v : Json) : List Json := v :: v.parts.attach.flatMap fun w => nodes w.1
termination_by sizeOf v
decreasing_by exact sizeOf_part_lt w.2

theorem mem_nodes {v w : Json} : w ∈ v.nodes ↔ w = v ∨ ∃ u ∈ v.parts, w ∈ u.nodes := by
  rw [nodes, List.mem_cons, List.mem_flatMap]
  refine or_congr_right ⟨?_, ?_⟩
  · rintro ⟨u, -, hw⟩
    exact ⟨u.1, u.2, hw⟩
  · rintro ⟨u, hu, hw⟩
    exact ⟨⟨u, hu⟩, List.mem_attach _ _, hw⟩

theorem self_mem_nodes (v : Json) : v ∈ v.nodes := mem_nodes.mpr (.inl rfl)

theorem nodes_subset {v w : Json} (h : w ∈ v.nodes) : w.nodes ⊆ v.nodes := by
  rcases mem_nodes.mp h with rfl | ⟨p, hp, hw⟩
  · exact List.Subset.refl _
  · intro u hu
    exact mem_nodes.mpr (.inr ⟨p, hp, nodes_subset hw hu⟩)
termination_by sizeOf v
decreasing_by exact sizeOf_part_lt hp

theorem part_mem_nodes {v w u : Json} (h : w ∈ v.nodes) (hu : u ∈ w.parts) : u ∈ v.nodes := by
  exact nodes_subset h (mem_nodes.mpr (.inr ⟨u, hu, self_mem_nodes u⟩))

theorem inside_mem_nodes {v w u : Json} (h : w ∈ v.nodes) (hu : w.Inside u) : u ∈ v.nodes := by
  induction hu with
  | single hpart => exact part_mem_nodes h hpart
  | tail _ hpart ih => exact part_mem_nodes ih hpart

theorem pointer_mem_nodes {v w u : Json} {path : List String} (h : w ∈ v.nodes)
    (hpath : w.pointer path = some u) : u ∈ v.nodes := by
  induction path generalizing w with
  | nil =>
    cases hpath
    exact h
  | cons key path ih =>
    obtain ⟨next, hnext, hrest⟩ := Option.bind_eq_some_iff.mp hpath
    exact ih (part_mem_nodes h (mem_parts_of_get hnext)) hrest

end Voleeo.Json
