import Voleeo.Imports.Commit
import Voleeo.Imports.PathGroups

/-!
# Choosing what to import

The preview numbers the items by their positions, and the choice comes back as a set of these
ids. Both walks count in the same way, so an id names the same item in both.
-/
namespace Voleeo.Imports
open Postman

/-- One row of the preview. -/
structure ImportNode where
  id : String
  kind : String
  name : String
  method : Option String
  path : Option String
  description : Option String
  children : List ImportNode

mutual

def buildNode (id : String) : ImportedItem → ImportNode
  | .folder f items =>
    { id, kind := "folder", name := f.name, method := none, path := none
      description := f.description, children := buildNodes (id ++ ".") 0 items }
  | .request r =>
    { id, kind := "request", name := r.name, method := some r.method, path := some r.path
      description := none, children := [] }

def buildNodes (place : String) (i : ℕ) : List ImportedItem → List ImportNode
  | [] => []
  | item :: rest =>
    buildNode (place ++ toString i) item :: buildNodes place (i + 1) rest

end

def previewNodes (items : List ImportedItem) : List ImportNode := buildNodes "" 0 items

def filterItems (items : List ImportedItem) (selected : List String) : List ImportedItem :=
  filterInner selected "" 0 items

/-! ## The rows of a preview -/

mutual

/-- The ids and kinds of a row and of all rows below it, from the top. -/
def ImportNode.rows : ImportNode → List (String × String)
  | ⟨id, kind, _, _, _, _, children⟩ => (id, kind) :: rowsOf children

def rowsOf : List ImportNode → List (String × String)
  | [] => []
  | node :: rest => node.rows ++ rowsOf rest

end

def previewIds (nodes : List ImportNode) : List String := (rowsOf nodes).map Prod.fst

def requestIds (nodes : List ImportNode) : List String :=
  ((rowsOf nodes).filter (·.2 = "request")).map Prod.fst

/-- The ids of the requests in one row and below it. -/
def ImportNode.requestIds (node : ImportNode) : List String := Imports.requestIds [node]

theorem requestIds_cons (node : ImportNode) (rest : List ImportNode) :
    requestIds (node :: rest) = node.requestIds ++ requestIds rest := by
  simp [ImportNode.requestIds, requestIds, rowsOf]

theorem rows_folder (id : String) (f : ImportedFolder) (items : List ImportedItem) :
    (buildNode id (.folder f items)).rows =
      (id, "folder") :: rowsOf (buildNodes (id ++ ".") 0 items) := by
  rw [buildNode, ImportNode.rows]

theorem rows_request (id : String) (r : ImportedRequest) :
    (buildNode id (.request r)).rows = [(id, "request")] := by
  rw [buildNode, ImportNode.rows, rowsOf]

theorem requestIds_folder (id : String) (f : ImportedFolder) (items : List ImportedItem) :
    (buildNode id (.folder f items)).requestIds = requestIds (buildNodes (id ++ ".") 0 items) := by
  rw [ImportNode.requestIds, requestIds, rowsOf, rows_folder, rowsOf, List.append_nil,
    List.filter_cons_of_neg (by simp), requestIds]

theorem requestIds_request (id : String) (r : ImportedRequest) :
    (buildNode id (.request r)).requestIds = [id] := by
  rw [ImportNode.requestIds, requestIds, rowsOf, rows_request, rowsOf]
  rfl

mutual

theorem length_requestIds_item (id : String) : ∀ item : ImportedItem,
    (buildNode id item).requestIds.length = (itemLeaves item).length
  | .request r => by rw [requestIds_request, itemLeaves]; rfl
  | .folder f items => by
      rw [requestIds_folder, length_requestIds _ _ items, itemLeaves, List.length_map]

theorem length_requestIds (place : String) (i : ℕ) : ∀ items : List ImportedItem,
    (requestIds (buildNodes place i items)).length = (leaves items).length
  | [] => rfl
  | item :: rest => by
      rw [buildNodes, requestIds_cons, List.length_append, length_requestIds_item,
        length_requestIds place (i + 1) rest, leaves_cons, List.length_append]

end

/-! ## The chosen requests -/

/-- The requests whose ids are selected. -/
def chosen (selected : List String)
    (rows : List ((List ImportedFolder × ImportedRequest) × String)) :
    List (List ImportedFolder × ImportedRequest) :=
  (rows.filter (·.2 ∈ selected)).map Prod.fst

theorem chosen_append (selected : List String)
    (rows rows' : List ((List ImportedFolder × ImportedRequest) × String)) :
    chosen selected (rows ++ rows') = chosen selected rows ++ chosen selected rows' := by
  simp [chosen]

theorem chosen_underKey (selected : List String) (f : ImportedFolder)
    (ls : List (List ImportedFolder × ImportedRequest)) (ids : List String) :
    chosen selected ((ls.map (underKey f)).zip ids) =
      (chosen selected (ls.zip ids)).map (underKey f) := by
  rw [List.zip_map_left, chosen, chosen, List.filter_map, List.map_map, List.map_map]
  rfl

mutual

theorem leaves_filterItem (selected : List String) (id : String) : ∀ item : ImportedItem,
    leaves (filterItem selected id item).toList =
      chosen selected ((itemLeaves item).zip (buildNode id item).requestIds)
  | .request r => by
      rw [requestIds_request, filterItem, itemLeaves, List.zip_cons_cons, chosen]
      by_cases h : id ∈ selected
      · rw [if_pos h, List.filter_cons_of_pos (by simpa using h)]
        rfl
      · rw [if_neg h, List.filter_cons_of_neg (by simpa using h)]
        rfl
  | .folder f items => by
      have hkids := leaves_filterInner selected (id ++ ".") 0 items
      rw [requestIds_folder, itemLeaves, chosen_underKey, ← hkids, filterItem]
      split_ifs with hkept
      · rw [Option.toList_some, leaves_cons, leaves_nil, List.append_nil, itemLeaves]
      · -- A folder is left out with nothing in it.
        rw [Bool.or_eq_true, not_or, Bool.not_eq_true', Bool.not_eq_false] at hkept
        rw [List.isEmpty_iff.mp hkept.1]
        rfl

theorem leaves_filterInner (selected : List String) (place : String) (i : ℕ) :
    ∀ items : List ImportedItem, leaves (filterInner selected place i items) =
      chosen selected ((leaves items).zip (requestIds (buildNodes place i items)))
  | [] => rfl
  | item :: rest => by
      rw [filterInner, leaves_append, leaves_filterItem, leaves_filterInner, buildNodes,
        requestIds_cons, leaves_cons, List.zip_append, chosen_append]
      exact (length_requestIds_item _ item).symm

end

/-! ## The shape of what is kept -/

/-- Items were left out, and nothing else was changed. -/
inductive Pruned : List ImportedItem → List ImportedItem → Prop
  | nil : Pruned [] []
  | drop {item items kept} : Pruned items kept → Pruned (item :: items) kept
  | request {r items kept} : Pruned items kept → Pruned (.request r :: items) (.request r :: kept)
  | folder {f inside kids items kept} : Pruned inside kids → Pruned items kept →
      Pruned (.folder f inside :: items) (.folder f kids :: kept)

mutual

theorem pruned_filterItem (selected : List String) (id : String) :
    ∀ (item : ImportedItem) {rest kept : List ImportedItem}, Pruned rest kept →
      Pruned (item :: rest) ((filterItem selected id item).toList ++ kept)
  | .request r, _, _, h => by
      rw [filterItem]
      split_ifs
      · exact .request h
      · exact .drop h
  | .folder f items, _, _, h => by
      rw [filterItem]
      split_ifs
      · exact .folder (pruned_filterInner selected _ 0 items) h
      · exact .drop h

theorem pruned_filterInner (selected : List String) (place : String) (i : ℕ) :
    ∀ items : List ImportedItem, Pruned items (filterInner selected place i items)
  | [] => .nil
  | item :: rest => by
      rw [filterInner]
      exact pruned_filterItem selected _ item (pruned_filterInner selected place (i + 1) rest)

end

/-! ## Choosing everything -/

mutual

theorem filterItem_all {selected : List String} (id : String) : ∀ item : ImportedItem,
    (∀ row ∈ (buildNode id item).rows, row.1 ∈ selected) → filterItem selected id item = some item
  | .request r, h => by
      rw [rows_request, List.forall_mem_singleton] at h
      rw [filterItem, if_pos h]
  | .folder f items, h => by
      rw [rows_folder, List.forall_mem_cons] at h
      rw [filterItem, filterInner_all (id ++ ".") 0 items h.2, if_pos]
      simp [h.1]

theorem filterInner_all {selected : List String} (place : String) (i : ℕ) :
    ∀ items : List ImportedItem, (∀ row ∈ rowsOf (buildNodes place i items), row.1 ∈ selected) →
      filterInner selected place i items = items
  | [], _ => rfl
  | item :: rest, h => by
      rw [buildNodes, rowsOf, List.forall_mem_append] at h
      rw [filterInner, filterItem_all _ item h.1, filterInner_all place (i + 1) rest h.2]
      rfl

end

/-! ## Ids -/

/-- The id is that of the item at a position, or lies below it. -/
def AtPlace (place : String) (i : ℕ) (id : String) : Prop :=
  ∃ rest : Text, id.toList = place.toList ++ (Nat.toDigits 10 i ++ rest) ∧
    (rest = [] ∨ rest.head? = some '.')

theorem toList_place (place : String) (i : ℕ) :
    (place ++ toString i).toList = place.toList ++ Nat.toDigits 10 i := by
  rw [String.toList_append, Nat.toString_eq_repr, Nat.toList_repr]

theorem atPlace_self (place : String) (i : ℕ) : AtPlace place i (place ++ toString i) :=
  ⟨[], by rw [toList_place, List.append_nil], Or.inl rfl⟩

/-- The digits end where the next dot is. -/
theorem takeWhile_digits {i : ℕ} {rest : Text} (h : rest = [] ∨ rest.head? = some '.') :
    (Nat.toDigits 10 i ++ rest).takeWhile Char.isDigit = Nat.toDigits 10 i := by
  have hdigits : ∀ c ∈ Nat.toDigits 10 i, c.isDigit = true := fun c hc =>
    Nat.isDigit_of_mem_toDigits (by decide) le_rfl hc
  have hrest : rest.takeWhile Char.isDigit = [] := by
    obtain rfl | hdot := h
    · rfl
    · obtain ⟨tail, rfl⟩ := List.head?_eq_some_iff.mp hdot
      rfl
  rw [List.takeWhile_append_of_pos hdigits, hrest, List.append_nil]

theorem AtPlace.inj {place : String} {i j : ℕ} {id : String} (h : AtPlace place i id)
    (h' : AtPlace place j id) : i = j := by
  obtain ⟨rest, hid, hrest⟩ := h
  obtain ⟨rest', hid', hrest'⟩ := h'
  rw [hid, List.append_cancel_left_eq] at hid'
  have hdigits : Nat.toDigits 10 i = Nat.toDigits 10 j := by
    rw [← takeWhile_digits hrest, hid', takeWhile_digits hrest']
  have hread := congrArg (fun digits => Nat.ofDigitChars 10 digits 0) hdigits
  simpa using hread

/-- What lies below an item also lies below the folder of the item. -/
theorem AtPlace.of_inside {place : String} {i j : ℕ} {id : String}
    (h : AtPlace (place ++ toString i ++ ".") j id) : AtPlace place i id := by
  obtain ⟨rest, hid, -⟩ := h
  refine ⟨'.' :: (Nat.toDigits 10 j ++ rest), ?_, Or.inr rfl⟩
  rw [hid, String.toList_append, toList_place]
  simp

theorem AtPlace.ne {place : String} {i : ℕ} {id : String} (h : AtPlace (place ++ ".") i id) :
    id ≠ place := by
  rintro rfl
  obtain ⟨rest, hid, -⟩ := h
  have hlength := congrArg List.length hid
  rw [String.toList_append] at hlength
  simp at hlength

mutual

theorem atPlace_rows (place : String) (i : ℕ) : ∀ item : ImportedItem,
    ∀ row ∈ (buildNode (place ++ toString i) item).rows, AtPlace place i row.1
  | .request r, row, h => by
      rw [rows_request, List.mem_singleton] at h
      rw [h]
      exact atPlace_self place i
  | .folder f items, row, h => by
      rw [rows_folder, List.mem_cons] at h
      obtain rfl | h := h
      · exact atPlace_self place i
      · obtain ⟨j, -, hj⟩ := atPlace_rowsOf _ 0 items row h
        exact hj.of_inside

theorem atPlace_rowsOf (place : String) (i : ℕ) : ∀ items : List ImportedItem,
    ∀ row ∈ rowsOf (buildNodes place i items), ∃ j ≥ i, AtPlace place j row.1
  | [], _, h => absurd h List.not_mem_nil
  | item :: rest, row, h => by
      rw [buildNodes, rowsOf, List.mem_append] at h
      obtain h | h := h
      · exact ⟨i, le_rfl, atPlace_rows place i item row h⟩
      · obtain ⟨j, hj, hrow⟩ := atPlace_rowsOf place (i + 1) rest row h
        exact ⟨j, by omega, hrow⟩

end

mutual

theorem nodup_rows (place : String) (i : ℕ) : ∀ item : ImportedItem,
    ((buildNode (place ++ toString i) item).rows.map Prod.fst).Nodup
  | .request r => by
      rw [rows_request]
      exact List.nodup_singleton _
  | .folder f items => by
      rw [rows_folder, List.map_cons, List.nodup_cons]
      refine ⟨?_, nodup_rowsOf _ 0 items⟩
      intro hmem
      obtain ⟨row, hrow, hid⟩ := List.mem_map.mp hmem
      obtain ⟨j, -, hj⟩ := atPlace_rowsOf _ 0 items row hrow
      exact hj.ne hid

theorem nodup_rowsOf (place : String) (i : ℕ) : ∀ items : List ImportedItem,
    ((rowsOf (buildNodes place i items)).map Prod.fst).Nodup
  | [] => List.nodup_nil
  | item :: rest => by
      rw [buildNodes, rowsOf, List.map_append, List.nodup_append]
      refine ⟨nodup_rows place i item, nodup_rowsOf place (i + 1) rest, ?_⟩
      rintro id hid id' hid' rfl
      obtain ⟨row, hrow, rfl⟩ := List.mem_map.mp hid
      obtain ⟨row', hrow', heq⟩ := List.mem_map.mp hid'
      obtain ⟨j, hj, hplace⟩ := atPlace_rowsOf place (i + 1) rest row' hrow'
      rw [heq] at hplace
      have hsame := hplace.inj (atPlace_rows place i item row hrow)
      omega

end

end Voleeo.Imports
