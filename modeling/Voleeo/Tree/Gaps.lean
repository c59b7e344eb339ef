import Mathlib.Tactic.Linarith
import Voleeo.Tree.Drops

/-!
# Gaps between siblings

The update of a legal drag puts the item into the middle of a gap. At its new
place it is sorted by that order, or by the time of its creation if the order is
zero, which counts as unset.
-/
namespace Voleeo.Tree

variable (dateParse : String → ℚ)

/-- Siblings with pairwise distinct effective orders. -/
def DistinctIn (s : RequestState) (place : Option String) : Prop :=
  ((siblings dateParse s place).map (Item.effectiveOrder dateParse)).Nodup

/-! ## Gaps whose order is zero -/

/-- The middle of the gap is zero. -/
def gapAtZero : Option ℚ → Option ℚ → Bool
  | none, none => false
  | none, some next => next = 500
  | some prev, none => prev = -1000
  | some prev, some next => prev + next = 0

/-- The siblings that a dragged item meets at a place. -/
def meets (s : RequestState) (drag : Drag) (place : Option String) : List Item :=
  (siblings dateParse s place).filter fun i => i.id ≠ drag.draggingId

def ZeroGap (s : RequestState) (drag : Drag) (place : Option String) : Prop :=
  let orders := gapOrders dateParse drag.zone (meets dateParse s drag place)
  gapAtZero orders.1 orders.2 = true

/-- An item comes before an order at a position of the lists. -/
def comesBefore (s : RequestState) (y : Item) (order : ℚ) (id : String) : Prop :=
  y.effectiveOrder dateParse < order ∨
    y.effectiveOrder dateParse = order ∧ s.ids.idxOf y.id < s.ids.idxOf id

def comesAfter (s : RequestState) (y : Item) (order : ℚ) (id : String) : Prop :=
  order < y.effectiveOrder dateParse ∨
    order = y.effectiveOrder dateParse ∧ s.ids.idxOf id < s.ids.idxOf y.id

theorem midOrder_eq_zero {prev next : Option ℚ} :
    midOrder prev next = 0 ↔ gapAtZero prev next = true := by
  cases prev with
  | none =>
    cases next with
    | none => simp [midOrder, gapAtZero]
    | some next => simp [midOrder, gapAtZero, sub_eq_zero]
  | some prev =>
    cases next with
    | none => simp [midOrder, gapAtZero, add_eq_zero_iff_eq_neg]
    | some next => simp [midOrder, gapAtZero]

theorem lt_midOrder {α : Type} {key : α → ℚ} {front back : List α}
    (h : (front ++ back).Pairwise fun a b => key a < key b) :
    (∀ y ∈ front, key y < midOrder (front.getLast?.map key) (back.head?.map key)) ∧
      ∀ y ∈ back, midOrder (front.getLast?.map key) (back.head?.map key) < key y := by
  rw [List.pairwise_append] at h
  obtain ⟨hfront, hback, hcross⟩ := h
  have hlast : ∀ prev ∈ front.getLast?, ∀ y ∈ front, key y ≤ key prev := by
    intro prev hprev y hy
    cases front using List.reverseRecOn with
    | nil => cases hy
    | append_singleton front last =>
      rw [List.getLast?_concat, Option.mem_some] at hprev
      rcases List.mem_append.mp hy with hy | hy
      · rw [← hprev]
        exact ((List.pairwise_append.mp hfront).2.2 y hy last List.mem_cons_self).le
      · rw [List.mem_singleton.mp hy, hprev]
  have hhead : ∀ next ∈ back.head?, ∀ y ∈ back, key next ≤ key y := by
    intro next hnext y hy
    cases back with
    | nil => cases hy
    | cons first back =>
      cases hnext
      rcases List.mem_cons.mp hy with rfl | hy
      · exact le_refl _
      · exact (List.rel_of_pairwise_cons hback hy).le
  cases hp : front.getLast? with
  | none =>
    rw [List.getLast?_eq_none_iff] at hp
    cases hn : back.head? with
    | none =>
      rw [List.head?_eq_none_iff] at hn
      simp [hp, hn]
    | some next =>
      refine ⟨by simp [hp], fun y hy => ?_⟩
      have hle := hhead next hn y hy
      simp only [Option.map_none, Option.map_some, midOrder]
      linarith
  | some prev =>
    cases hn : back.head? with
    | none =>
      rw [List.head?_eq_none_iff] at hn
      refine ⟨fun y hy => ?_, by simp [hn]⟩
      have hle := hlast prev hp y hy
      simp only [Option.map_none, Option.map_some, midOrder]
      linarith
    | some next =>
      have hlt := hcross prev (List.mem_of_getLast? hp) next (List.mem_of_head? hn)
      simp only [Option.map_some, midOrder]
      refine ⟨fun y hy => ?_, fun y hy => ?_⟩
      · have hle := hlast prev hp y hy
        linarith
      · have hle := hhead next hn y hy
        linarith

/-! ## The tree and the lists -/

variable {dateParse} {s : RequestState} {drag : Drag} {i z : Item}

theorem rooted_iff_folder (h : Forest s) {id : String} :
    Rooted s.parentOf (some id) ↔ ∃ i ∈ s.items, i.kind = .folder ∧ i.id = id := by
  constructor
  · intro hrooted
    obtain ⟨place, hparent, -⟩ := hrooted.exists_parent
    obtain ⟨i, hi, hkind, hid, -⟩ := (parentOf_eq_some_iff h.nodup).mp hparent
    exact ⟨i, hi, hkind, hid⟩
  · rintro ⟨i, hi, hkind, rfl⟩
    exact .link ((parentOf_eq_some_iff h.nodup).mpr ⟨i, hi, hkind, rfl, rfl⟩) (h.rooted i hi)

theorem dropParent_tree (h : Forest s) {zone : DropZone} (hz : z ∈ s.items)
    (hid : z.id = zone.id) : dropParent (tree dateParse s) zone = some (zone.place z) := by
  cases zone with
  | into id => exact congrArg (fun id => some (some id)) hid.symm
  | before id | after id =>
    rw [DropZone.id] at hid
    rw [dropParent, ← hid, findParent_tree h hz]
    rfl

/-- The update of a drag that is legal. -/
def legalUpdate (dateParse : String → ℚ) (s : RequestState) (drag : Drag) (i z : Item) :
    MoveItemUpdate :=
  let orders := gapOrders dateParse drag.zone (meets dateParse s drag (drag.zone.place z))
  ⟨drag.draggingId, i.kind, drag.zone.place z, midOrder orders.1 orders.2⟩

theorem mem_meets {y : Item} {place : Option String} :
    y ∈ meets dateParse s drag place ↔
      (y ∈ s.items ∧ y.folderId = place) ∧ y.id ≠ drag.draggingId := by
  rw [meets, List.mem_filter, mem_siblings, decide_eq_true_eq]

theorem pairwise_meets (s : RequestState) (drag : Drag) (place : Option String) :
    (meets dateParse s drag place).Pairwise fun a b =>
      a.effectiveOrder dateParse ≤ b.effectiveOrder dateParse :=
  (pairwise_sortBy _ _).filter _

theorem computeUpdate_tree (h : Forest s) (hi : i ∈ s.items) (hid : i.id = drag.draggingId)
    (hz : z ∈ s.items) (hzid : z.id = drag.zone.id) (hne : z.id ≠ drag.draggingId)
    (hplace : Rooted s.parentOf (drag.zone.place z)) :
    computeUpdate dateParse (tree dateParse s) drag.draggingId drag.zone =
      some (legalUpdate dateParse s drag i z) := by
  obtain ⟨own, hown, hownItems⟩ := @getChildren_tree dateParse s h _ (h.rooted i hi)
  obtain ⟨children, hchildren, hitems⟩ := @getChildren_tree dateParse s h _ hplace
  have hparent : findParent (tree dateParse s) drag.draggingId none = some i.folderId := by
    rw [← hid, findParent_tree h hi]
  have hdragged : ∃ n, own.find? (fun n => getId n = drag.draggingId) = some n ∧ n.item = i := by
    have hmem : i ∈ own.map TreeNode.item := by
      rw [hownItems]
      exact mem_siblings.mpr ⟨hi, rfl⟩
    obtain ⟨m, hm, rfl⟩ := List.mem_map.mp hmem
    obtain ⟨n, hn⟩ : ∃ n, own.find? (fun n => decide (getId n = drag.draggingId)) = some n :=
      Option.isSome_iff_exists.mp (by simpa using ⟨m, hm, by rw [getId_eq, hid]⟩)
    have hnid : getId n = drag.draggingId := by simpa using List.find?_some hn
    have hnmem : n.item ∈ siblings dateParse s m.item.folderId :=
      hownItems ▸ List.mem_map_of_mem (List.mem_of_find?_eq_some hn)
    rw [getId_eq] at hnid
    exact ⟨n, hn, eq_of_id h.nodup (mem_siblings.mp hnmem).1 hi (hnid.trans hid.symm)⟩
  obtain ⟨n, hfind, hitem⟩ := hdragged
  have hmeets : (children.filter fun n => getId n ≠ drag.draggingId).map TreeNode.item =
      meets dateParse s drag (drag.zone.place z) := by
    rw [meets, ← hitems, List.filter_map]
    exact congrArg _ (List.filter_congr fun n _ => by simp [getId_eq])
  have hzone : (∃ id, drag.zone = .into id) ∨
      ∃ n ∈ children.filter fun n => getId n ≠ drag.draggingId, getId n = drag.zone.id := by
    by_cases hinto : ∃ id, drag.zone = .into id
    · exact .inl hinto
    · have hfolder : drag.zone.place z = z.folderId := by
        cases hcase : drag.zone with
        | into id => exact absurd ⟨id, hcase⟩ hinto
        | before id | after id => rfl
      have hmem : z ∈ (children.filter fun n => getId n ≠ drag.draggingId).map TreeNode.item := by
        rw [hmeets, hfolder]
        exact mem_meets.mpr ⟨⟨hz, rfl⟩, hne⟩
      obtain ⟨m, hm, rfl⟩ := List.mem_map.mp hmem
      exact .inr ⟨m, hm, by rw [getId_eq, hzid]⟩
  have hsorted : ((children.filter fun n => getId n ≠ drag.draggingId).map
      (effectiveOrder dateParse)).Pairwise (· ≤ ·) := by
    have horders : (children.filter fun n => getId n ≠ drag.draggingId).map
        (effectiveOrder dateParse) =
        (meets dateParse s drag (drag.zone.place z)).map (Item.effectiveOrder dateParse) := by
      rw [← hmeets, List.map_map]
      rfl
    rw [horders, List.pairwise_map]
    exact pairwise_meets s drag _
  have hzne : ¬ drag.zone.id = drag.draggingId := hzid ▸ hne
  rw [computeUpdate, if_neg hzne, hparent]
  simp only [Option.bind_eq_bind, Option.bind_some, hown, Option.getD_some, hfind,
    dropParent_tree h hz hzid, hchildren, neighbours_eq hzone hsorted, hmeets, hitem]
  rfl

/-! ## Siblings after the move -/

section Moved
variable {u : MoveItemUpdate}

theorem filter_moveItems (s : RequestState) (u : MoveItemUpdate) (place : Option String) :
    ((moveItems s [u]).items.filter fun j => j.folderId = place).filter (fun j => j.id ≠ u.id) =
      (s.items.filter fun j => j.folderId = place).filter fun j => j.id ≠ u.id := by
  rw [items_moveItems, List.filter_filter, List.filter_filter]
  induction s.items with
  | nil => rfl
  | cons j js ih =>
    rw [List.map_cons]
    by_cases hj : j.id = u.id
    · rw [List.filter_cons_of_neg (by simp [hj]), List.filter_cons_of_neg (by simp [hj]), ih]
    · rw [moveItem_of_ne hj, List.filter_cons, List.filter_cons, ih]

/-- The other siblings keep their order, at every place. -/
theorem siblings_moveItems_filter (s : RequestState) (u : MoveItemUpdate) (place : Option String) :
    (siblings dateParse (moveItems s [u]) place).filter (fun j => j.id ≠ u.id) =
      (siblings dateParse s place).filter fun j => j.id ≠ u.id := by
  rw [siblings, filter_sortBy, filter_moveItems, ← filter_sortBy, siblings]

theorem siblings_moveItems_other (h : s.ids.Nodup) (hi : i ∈ s.items) (hid : i.id = u.id)
    (hkind : i.kind = u.kind) {place : Option String} (hplace : u.folderId ≠ place) :
    siblings dateParse (moveItems s [u]) place =
      (siblings dateParse s place).filter fun j => j.id ≠ u.id := by
  rw [← siblings_moveItems_filter, List.filter_eq_self.mpr]
  intro j hj
  obtain ⟨hmem, hfolder⟩ := mem_siblings.mp hj
  rw [items_moveItems] at hmem
  obtain ⟨j', hj', rfl⟩ := List.mem_map.mp hmem
  rw [moveItem_id, decide_eq_true_eq]
  intro heq
  obtain rfl := eq_of_id h hj' hi (heq.trans hid.symm)
  rw [moveItem, if_pos ⟨hid, hkind⟩] at hfolder
  exact hplace hfolder

/-- At its new place the moved item splits the other siblings by its order, and by the position
in the lists where the orders are equal. -/
theorem siblings_moveItems_place (h : s.ids.Nodup) (hi : i ∈ s.items) (hid : i.id = u.id)
    (hkind : i.kind = u.kind) :
    ∃ front back, siblings dateParse (moveItems s [u]) u.folderId = front ++ moveItem u i :: back ∧
      front ++ back = (siblings dateParse s u.folderId).filter (fun j => j.id ≠ u.id) ∧
      (∀ y ∈ front, comesBefore dateParse s y ((moveItem u i).effectiveOrder dateParse) u.id) ∧
      ∀ y ∈ back, comesAfter dateParse s y ((moveItem u i).effectiveOrder dateParse) u.id := by
  obtain ⟨before, after, hsplit⟩ := List.append_of_mem hi
  have hids : s.ids = before.map Item.id ++ u.id :: after.map Item.id := by
    rw [RequestState.ids, hsplit, List.map_append, List.map_cons, hid]
  have hnodup := h
  rw [hids, List.nodup_append, List.nodup_cons] at hnodup
  have hbefore : ∀ y ∈ before, y.id ≠ u.id := fun y hy heq =>
    hnodup.2.2 _ (List.mem_map_of_mem hy) _ List.mem_cons_self heq
  have hafter : ∀ y ∈ after, y.id ≠ u.id := fun y hy heq =>
    hnodup.2.1.1 (heq ▸ List.mem_map_of_mem hy)
  have hkeep : ∀ ys : List Item, (∀ y ∈ ys, y.id ≠ u.id) → ys.map (moveItem u) = ys :=
    fun ys hys => (List.map_congr_left fun y hy => moveItem_of_ne (hys y hy)).trans (List.map_id _)
  have hfolder : (moveItem u i).folderId = u.folderId := by rw [moveItem, if_pos ⟨hid, hkind⟩]
  have hmoved : (moveItems s [u]).items.filter (fun j => decide (j.folderId = u.folderId)) =
      (before.filter fun j => j.folderId = u.folderId) ++
        moveItem u i :: after.filter fun j => j.folderId = u.folderId := by
    rw [items_moveItems, hsplit, List.map_append, List.map_cons, hkeep before hbefore,
      hkeep after hafter, List.filter_append, List.filter_cons_of_pos (by simpa using hfolder)]
  have hpos : s.ids.idxOf u.id = before.length := by
    rw [hids, List.idxOf_append_of_notMem, List.idxOf_cons_self, List.length_map, Nat.add_zero]
    intro hmem
    obtain ⟨y, hy, hyid⟩ := List.mem_map.mp hmem
    exact hbefore y hy hyid
  have hposBefore : ∀ y ∈ before, s.ids.idxOf y.id < s.ids.idxOf u.id := by
    intro y hy
    have hmem : y.id ∈ before.map Item.id := List.mem_map_of_mem hy
    rw [hpos, hids, List.idxOf_append_of_mem hmem, ← List.length_map (f := Item.id)]
    exact List.idxOf_lt_length_iff.mpr hmem
  have hposAfter : ∀ y ∈ after, s.ids.idxOf u.id < s.ids.idxOf y.id := by
    intro y hy
    have hnot : y.id ∉ before.map Item.id := fun hmem =>
      hnodup.2.2 _ hmem _ (List.mem_cons_of_mem _ (List.mem_map_of_mem hy)) rfl
    rw [hpos, hids, List.idxOf_append_of_notMem hnot, List.length_map,
      List.idxOf_cons_ne _ (hafter y hy).symm]
    omega
  have hnodup' : ((before.filter fun j => j.folderId = u.folderId) ++
      moveItem u i :: after.filter fun j => j.folderId = u.folderId).Nodup := by
    rw [← hmoved]
    refine List.Nodup.filter _ (List.Nodup.of_map Item.id ?_)
    change (moveItems s [u]).ids.Nodup
    rwa [ids_moveItems]
  have hmem : moveItem u i ∈ siblings dateParse (moveItems s [u]) u.folderId := by
    rw [siblings, hmoved, mem_sortBy]
    exact List.mem_append_right _ List.mem_cons_self
  obtain ⟨front, back, hsibs⟩ := List.append_of_mem hmem
  have hsort := hsibs
  rw [siblings, hmoved] at hsort
  obtain ⟨hfront, hback⟩ := sortBy_split hnodup' hsort
  have hall : ∀ y ∈ front ++ back, y ≠ moveItem u i → y.id ≠ u.id := by
    intro y hy hne heq
    have hin : y ∈ sortBy (Item.effectiveOrder dateParse)
        ((before.filter fun j => j.folderId = u.folderId) ++
          moveItem u i :: after.filter fun j => j.folderId = u.folderId) := by
      rw [hsort, List.mem_append, List.mem_cons]
      exact (List.mem_append.mp hy).imp_right Or.inr
    rw [mem_sortBy, List.mem_append, List.mem_cons, List.mem_filter, List.mem_filter] at hin
    rcases hin with hin | hin | hin
    · exact hbefore y hin.1 heq
    · exact hne hin
    · exact hafter y hin.1 heq
  have hself : moveItem u i ∉ front ++ back := by
    have hperm := (sortBy_perm (Item.effectiveOrder dateParse) _).nodup_iff.mpr hnodup'
    rw [hsort] at hperm
    exact (List.nodup_cons.mp (List.perm_middle.nodup_iff.mp hperm)).1
  refine ⟨front, back, hsibs, ?_, ?_, ?_⟩
  · rw [← siblings_moveItems_filter, hsibs, List.filter_append,
      List.filter_cons_of_neg (by simpa using hid), ← List.filter_append, List.filter_eq_self.mpr]
    intro y hy
    rw [decide_eq_true_eq]
    exact hall y hy fun heq => hself (heq ▸ hy)
  · intro y hy
    exact (hfront y hy).imp_right fun hin =>
      ⟨hin.1, hposBefore y (List.mem_of_mem_filter hin.2)⟩
  · intro y hy
    exact (hback y hy).imp_right fun hin => ⟨hin.1, hposAfter y (List.mem_of_mem_filter hin.2)⟩

theorem rooted_moveItems (h : Forest s) (h' : Forest (moveItems s [u])) {place : Option String} :
    Rooted (moveItems s [u]).parentOf place ↔ Rooted s.parentOf place := by
  cases place with
  | none => exact ⟨fun _ => .root, fun _ => .root⟩
  | some id =>
    rw [rooted_iff_folder h, rooted_iff_folder h', items_moveItems]
    simp

end Moved

end Voleeo.Tree
