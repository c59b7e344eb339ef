import Mathlib.Data.List.Induction
import Voleeo.Tree.Siblings

/-!
# What a drop does to the items

A drop splits the siblings at its destination into those in front of the gap and
those behind it. The update takes its order from the two items at the gap, and
the store stays a forest.
-/
namespace Voleeo.Tree

/-- The elements in front of the gap beside a zone item, and those behind it. -/
def DropZone.split {α : Type} (zone : DropZone) (key : α → String) (xs : List α) :
    List α × List α :=
  match zone with
  | .before id => (xs.takeWhile fun a => key a ≠ id, xs.dropWhile fun a => key a ≠ id)
  | .after id =>
    let behind := xs.dropWhile fun a => key a ≠ id
    ((xs.takeWhile fun a => key a ≠ id) ++ behind.take 1, behind.drop 1)
  | .into _ => (xs, [])

section Split
variable {α β : Type} {key : α → String}

theorem split_append (zone : DropZone) (key : α → String) (xs : List α) :
    (zone.split key xs).1 ++ (zone.split key xs).2 = xs := by
  cases zone with
  | before id => exact List.takeWhile_append_dropWhile
  | after id =>
    simp only [DropZone.split]
    rw [List.append_assoc, List.take_append_drop, List.takeWhile_append_dropWhile]
  | into id => exact List.append_nil _

theorem map_split (zone : DropZone) (key : β → String) (f : α → β) (xs : List α) :
    zone.split key (xs.map f) =
      ((zone.split (fun a => key (f a)) xs).1.map f,
        (zone.split (fun a => key (f a)) xs).2.map f) := by
  cases zone with
  | before id => simp [DropZone.split, List.takeWhile_map, List.dropWhile_map, Function.comp_def]
  | after id =>
    simp [DropZone.split, List.takeWhile_map, List.dropWhile_map, Function.comp_def, List.map_take]
  | into id => rfl

theorem exists_first {xs : List α} {id : String} (h : ∃ a ∈ xs, key a = id) :
    ∃ front a back, xs = front ++ a :: back ∧ key a = id ∧ ∀ b ∈ front, key b ≠ id := by
  induction xs with
  | nil => simp at h
  | cons x xs ih =>
    by_cases hx : key x = id
    · exact ⟨[], x, xs, rfl, hx, by simp⟩
    · obtain ⟨a, ha, hid⟩ := h
      rcases List.mem_cons.mp ha with rfl | ha
      · exact absurd hid hx
      · obtain ⟨front, b, back, rfl, hb, hfront⟩ := ih ⟨a, ha, hid⟩
        exact ⟨x :: front, b, back, rfl, hb, by simpa [hx] using hfront⟩

variable {front back : List α} {a : α} {id : String}

theorem takeWhile_first (ha : key a = id) (hfront : ∀ b ∈ front, key b ≠ id) :
    (front ++ a :: back).takeWhile (fun b => key b ≠ id) = front := by
  rw [List.takeWhile_append_of_pos (by simpa using hfront), List.takeWhile_cons_of_neg (by simpa),
    List.append_nil]

theorem dropWhile_first (ha : key a = id) (hfront : ∀ b ∈ front, key b ≠ id) :
    (front ++ a :: back).dropWhile (fun b => key b ≠ id) = a :: back := by
  rw [List.dropWhile_append_of_pos (by simpa using hfront), List.dropWhile_cons_of_neg (by simpa)]

theorem findIdx_first (ha : key a = id) (hfront : ∀ b ∈ front, key b ≠ id) :
    (front ++ a :: back).findIdx? (fun b => key b = id) = some front.length := by
  rw [List.findIdx?_append, List.findIdx?_eq_none_iff.mpr (by simpa using hfront)]
  simp [List.findIdx?_cons, ha]

end Split

/-! ## The orders at the gap -/

variable {dateParse : String → ℚ}

/-- The neighbours of the gap: the last item in front of it and the first one behind it. -/
def gapOrders (dateParse : String → ℚ) (zone : DropZone) (sibs : List Item) :
    Option ℚ × Option ℚ :=
  let gap := zone.split Item.id sibs
  (gap.1.getLast?.map (Item.effectiveOrder dateParse),
    gap.2.head?.map (Item.effectiveOrder dateParse))

theorem maxOrder_sorted {orders : List ℚ} (h : orders.Pairwise (· ≤ ·)) :
    maxOrder orders = orders.getLast? := by
  cases orders with
  | nil => rfl
  | cons q qs =>
    change some (qs.foldl max q) = _
    induction qs generalizing q with
    | nil => rfl
    | cons r qs ih =>
      rw [List.pairwise_cons] at h
      have hmax : max q r = r := max_eq_right (h.1 r List.mem_cons_self)
      rw [List.foldl_cons, hmax, ih r h.2, List.getLast?_cons_cons]

/-- The orders that `computeUpdate` takes are those at the gap. -/
theorem neighbours_eq {zone : DropZone} {sibs : List TreeNode}
    (hzone : (∃ id, zone = .into id) ∨ ∃ n ∈ sibs, getId n = zone.id)
    (hsorted : (sibs.map (effectiveOrder dateParse)).Pairwise (· ≤ ·)) :
    neighbours dateParse zone sibs = gapOrders dateParse zone (sibs.map TreeNode.item) := by
  have hkey : (fun n : TreeNode => n.item.id) = getId := funext fun n => (getId_eq n).symm
  have horders : ∀ xs : List TreeNode, xs.map (effectiveOrder dateParse) =
      (xs.map TreeNode.item).map (Item.effectiveOrder dateParse) := fun xs => by
    rw [List.map_map]
    rfl
  rw [gapOrders, map_split, hkey]
  cases zone with
  | into id =>
    simp only [neighbours, DropZone.split]
    rw [maxOrder_sorted hsorted, horders, List.getLast?_map]
    rfl
  | before id =>
    obtain ⟨front, n, back, rfl, hn, hfront⟩ := exists_first (hzone.resolve_left (by simp))
    simp only [neighbours, DropZone.split, DropZone.id] at hn hfront ⊢
    rw [findIdx_first hn hfront, takeWhile_first hn hfront, dropWhile_first hn hfront]
    refine Prod.ext ?_ ?_
    · cases front using List.reverseRecOn with
      | nil => rfl
      | append_singleton front m => simp [effectiveOrder]
    · simp [effectiveOrder]
  | after id =>
    obtain ⟨front, n, back, rfl, hn, hfront⟩ := exists_first (hzone.resolve_left (by simp))
    simp only [neighbours, DropZone.split, DropZone.id] at hn hfront ⊢
    rw [findIdx_first hn hfront, takeWhile_first hn hfront, dropWhile_first hn hfront]
    refine Prod.ext ?_ ?_
    · simp [effectiveOrder]
    · cases back with
      | nil => simp
      | cons m back => simp [effectiveOrder]

/-! ## Moved items -/

def moveItem (u : MoveItemUpdate) (i : Item) : Item :=
  if i.id = u.id ∧ i.kind = u.kind then { i with folderId := u.folderId, order := u.order } else i

theorem updateFor_singleton (u : MoveItemUpdate) (id : String) (kind : ItemKind) :
    updateFor [u] id kind = if id = u.id ∧ kind = u.kind then some u else none := by
  rw [updateFor, List.find?_singleton]
  simp only [Bool.and_eq_true, decide_eq_true_eq, @eq_comm _ u.id, @eq_comm _ u.kind]

theorem folderItem_move (u : MoveItemUpdate) (f : ApiFolder) :
    folderItem (moveFolder [u] f) = moveItem u (folderItem f) := by
  rw [moveFolder, updateFor_singleton]
  by_cases h : f.id = u.id ∧ ItemKind.folder = u.kind <;> simp [moveItem, folderItem, h]

theorem requestItem_move (u : MoveItemUpdate) (r : HttpRequest) :
    requestItem (moveRequest [u] r) = moveItem u (requestItem r) := by
  rw [moveRequest, updateFor_singleton]
  by_cases h : r.id = u.id ∧ ItemKind.request = u.kind <;> simp [moveItem, requestItem, h]

theorem connectionItem_move (u : MoveItemUpdate) (c : WsConnection) :
    connectionItem (moveConnection [u] c) = moveItem u (connectionItem c) := by
  rw [moveConnection, updateFor_singleton]
  by_cases h : c.id = u.id ∧ ItemKind.webSocket = u.kind <;> simp [moveItem, connectionItem, h]

theorem grpcItem_move (u : MoveItemUpdate) (g : GrpcRequest) :
    grpcItem (moveGrpcRequest [u] g) = moveItem u (grpcItem g) := by
  rw [moveGrpcRequest, updateFor_singleton]
  by_cases h : g.id = u.id ∧ ItemKind.grpc = u.kind <;> simp [moveItem, grpcItem, h]

/-- One update moves the items that it names, and keeps the order of the lists. -/
theorem items_moveItems (s : RequestState) (u : MoveItemUpdate) :
    (moveItems s [u]).items = s.items.map (moveItem u) := by
  simp only [RequestState.items, moveItems, List.map_append, List.map_map]
  simp only [Function.comp_def, folderItem_move, requestItem_move, connectionItem_move,
    grpcItem_move]

@[simp] theorem moveItem_id (u : MoveItemUpdate) (i : Item) : (moveItem u i).id = i.id := by
  rw [moveItem]
  split_ifs <;> rfl

@[simp] theorem moveItem_kind (u : MoveItemUpdate) (i : Item) : (moveItem u i).kind = i.kind := by
  rw [moveItem]
  split_ifs <;> rfl

theorem moveItem_of_ne {u : MoveItemUpdate} {i : Item} (h : i.id ≠ u.id) : moveItem u i = i := by
  rw [moveItem, if_neg fun hboth => h hboth.1]

theorem ids_moveItems (s : RequestState) (u : MoveItemUpdate) : (moveItems s [u]).ids = s.ids := by
  rw [RequestState.ids, items_moveItems, List.map_map]
  exact List.map_congr_left fun i _ => moveItem_id u i

variable {s : RequestState}

/-- A folder that is listed names its parent, and nothing else does. -/
theorem parentOf_eq_some_iff (hnodup : s.ids.Nodup) {id : String} {place : Option String} :
    s.parentOf id = some place ↔ ∃ i ∈ s.items, i.kind = .folder ∧ i.id = id ∧ i.folderId = place := by
  constructor
  · intro h
    obtain ⟨f, hf, rfl, rfl⟩ := parentOf_eq_some h
    exact ⟨folderItem f, folder_mem_items hf, rfl, rfl, rfl⟩
  · rintro ⟨i, hi, hkind, rfl, rfl⟩
    obtain ⟨f, hf, rfl⟩ := mem_items_folder hi hkind
    exact parentOf_folder hnodup hf

/-! ## Legal drops -/

/-- Where a drop beside or into an item goes. -/
def DropZone.place (zone : DropZone) (z : Item) : Option String :=
  match zone with
  | .into _ => some z.id
  | .before _ => z.folderId
  | .after _ => z.folderId

/-- A drag of an item of the tree to a zone outside its subtree. Only folders take items. -/
structure Legal (s : RequestState) (drag : Drag) : Prop where
  dragged : ∃ i ∈ s.items, i.id = drag.draggingId
  zone : ∃ z ∈ s.items, z.id = drag.zone.id ∧ z.id ≠ drag.draggingId ∧
    (drag.zone = .into z.id → z.kind = .folder) ∧ Avoids s.parentOf drag.draggingId z.folderId

theorem avoids_place (h : s.ids.Nodup) {drag : Drag} {z : Item} (hz : z ∈ s.items)
    (hid : z.id = drag.zone.id) (hne : z.id ≠ drag.draggingId)
    (hkind : drag.zone = .into z.id → z.kind = .folder)
    (havoids : Avoids s.parentOf drag.draggingId z.folderId) :
    Avoids s.parentOf drag.draggingId (drag.zone.place z) := by
  cases hzone : drag.zone with
  | before id => exact havoids
  | after id => exact havoids
  | into id =>
    rw [hzone] at hid hkind
    have hfolder : s.parentOf z.id = some z.folderId := (parentOf_eq_some_iff h).mpr
      ⟨z, hz, hkind (congrArg DropZone.into hid.symm), rfl, rfl⟩
    exact .link (by rwa [Function.update_of_ne hne]) havoids

/-- Moving an item to a place whose chain avoids it leaves a forest. -/
theorem Forest.moveItems (h : Forest s) {u : MoveItemUpdate} {i : Item} (hi : i ∈ s.items)
    (hid : i.id = u.id) (havoids : Avoids s.parentOf u.id u.folderId) :
    Forest (Tree.moveItems s [u]) := by
  have hnodup : (Tree.moveItems s [u]).ids.Nodup := by
    rw [ids_moveItems]
    exact h.nodup
  have hrooted : ∀ place, Rooted s.parentOf place →
      Rooted (Tree.moveItems s [u]).parentOf place := by
    intro place hplace
    have hkeep : ∀ k place, k ≠ u.id → s.parentOf k = some place →
        (Tree.moveItems s [u]).parentOf k = some place := by
      intro k place hk hparent
      obtain ⟨f, hf, hkind, rfl, rfl⟩ := (parentOf_eq_some_iff h.nodup).mp hparent
      refine (parentOf_eq_some_iff hnodup).mpr ⟨f, ?_, hkind, rfl, rfl⟩
      rw [items_moveItems]
      exact List.mem_map.mpr ⟨f, hf, moveItem_of_ne hk⟩
    by_cases hmoved : i.kind = .folder ∧ i.kind = u.kind
    · refine (hplace.update havoids).mono fun k place' hparent => ?_
      by_cases hk : k = u.id
      · rw [hk, Function.update_self] at hparent
        cases hparent
        refine (parentOf_eq_some_iff hnodup).mpr ⟨moveItem u i, ?_, ?_, ?_, ?_⟩
        · rw [items_moveItems]
          exact List.mem_map_of_mem hi
        · rw [moveItem_kind, hmoved.1]
        · rw [moveItem_id, hid, hk]
        · rw [moveItem, if_pos ⟨hid, hmoved.2⟩]
      · rw [Function.update_of_ne hk] at hparent
        exact hkeep k place' hk hparent
    · refine hplace.mono fun k place' hparent => ?_
      obtain ⟨f, hf, hkind, rfl, rfl⟩ := (parentOf_eq_some_iff h.nodup).mp hparent
      have hstays : moveItem u f = f := by
        rw [moveItem, if_neg]
        rintro ⟨hfid, hfkind⟩
        have heq := eq_of_id h.nodup hf hi (hfid.trans hid.symm)
        exact hmoved (heq ▸ ⟨hkind, hfkind⟩)
      refine (parentOf_eq_some_iff hnodup).mpr ⟨f, ?_, hkind, rfl, rfl⟩
      rw [items_moveItems]
      exact List.mem_map.mpr ⟨f, hf, hstays⟩
  refine ⟨hnodup, fun j hj => ?_⟩
  rw [items_moveItems] at hj
  obtain ⟨i', hi', rfl⟩ := List.mem_map.mp hj
  rw [moveItem]
  split_ifs with hmoved
  · exact hrooted _ havoids.rooted
  · exact hrooted _ (h.rooted i' hi')

end Voleeo.Tree
