import Voleeo.Tree.Gaps

/-!
# A drag lands where it was dropped

The dragged item takes its place at the gap if the order that it gets is not
zero: an order of zero counts as unset, and the item is sorted by the time of
its creation instead.
-/
namespace Voleeo.Tree

variable (dateParse : String → ℚ)

/-- The ids that the tree shows below a place. -/
def childIds (s : RequestState) (place : Option String) : Option (List String) :=
  (getChildren (tree dateParse s) place).map fun children => children.map getId

/-- The siblings with the dragged item at the gap, in their old order otherwise. -/
def Drag.landed (drag : Drag) (old : List String) : List String :=
  let gap := drag.zone.split id (old.filter fun a => a ≠ drag.draggingId)
  gap.1 ++ drag.draggingId :: gap.2

/-- What the tree shows below a place after a drop. -/
def LandsIn (s : RequestState) (drag : Drag) (place : Option String) : Prop :=
  childIds dateParse (drop dateParse s drag) place =
    (childIds dateParse s place).map fun old =>
      if dropParent (tree dateParse s) drag.zone = some place then drag.landed old
      else old.filter fun a => a ≠ drag.draggingId

def Lands (s : RequestState) (drag : Drag) : Prop := ∀ place, LandsIn dateParse s drag place

/-- At a gap around zero, the creation time of the dragged item lies in the gap as well. -/
def Fits (s : RequestState) (drag : Drag) : Prop :=
  ∀ i ∈ s.items, i.id = drag.draggingId →
    ∀ place, dropParent (tree dateParse s) drag.zone = some place → ZeroGap dateParse s drag place →
      let gap := drag.zone.split Item.id (meets dateParse s drag place)
      (∀ y ∈ gap.1, comesBefore dateParse s y (dateParse i.createdAt) drag.draggingId) ∧
        ∀ y ∈ gap.2, comesAfter dateParse s y (dateParse i.createdAt) drag.draggingId

/-- At a gap around zero, no sibling has the creation time of the dragged item as its order. -/
def Apart (s : RequestState) (drag : Drag) : Prop :=
  ∀ i ∈ s.items, i.id = drag.draggingId →
    ∀ place, dropParent (tree dateParse s) drag.zone = some place → ZeroGap dateParse s drag place →
      ∀ y ∈ meets dateParse s drag place, y.effectiveOrder dateParse ≠ dateParse i.createdAt

variable {dateParse} {s : RequestState} {drag : Drag} {i z : Item}

theorem childIds_of_rooted (h : Forest s) {place : Option String}
    (hplace : Rooted s.parentOf place) :
    childIds dateParse s place = some ((siblings dateParse s place).map Item.id) := by
  obtain ⟨children, hchildren, hitems⟩ := @getChildren_tree dateParse s h place hplace
  rw [childIds, hchildren, ← hitems, List.map_map]
  exact congrArg some (List.map_congr_left fun n _ => getId_eq n)

theorem childIds_of_not_rooted (h : Forest s) {place : Option String}
    (hplace : ¬ Rooted s.parentOf place) : childIds dateParse s place = none := by
  cases place with
  | none => exact absurd .root hplace
  | some id =>
    rw [childIds, getChildren, Option.map_eq_none_iff, Option.eq_none_iff_forall_ne_some]
    intro children hchildren
    obtain ⟨f, rfl, hf⟩ := getFolderChildren_sound hchildren
    have hmem := (children_of_mem_tree h hf).1
    exact hplace ((rooted_iff_folder h).mpr ⟨folderItem f, folder_mem_items hmem, rfl, rfl⟩)

/-! ## One drop -/

/-- A legal drag moves its item by one update, to a place of the tree, and leaves a forest. -/
theorem Legal.exists_update (h : Forest s) (hlegal : Legal s drag) :
    ∃ i z, i ∈ s.items ∧ i.id = drag.draggingId ∧
      dropParent (tree dateParse s) drag.zone = some (drag.zone.place z) ∧
      Rooted s.parentOf (drag.zone.place z) ∧
      drop dateParse s drag = moveItems s [legalUpdate dateParse s drag i z] ∧
      Forest (drop dateParse s drag) := by
  obtain ⟨i, hi, hid⟩ := hlegal.dragged
  obtain ⟨z, hz, hzid, hne, hkind, havoids⟩ := hlegal.zone
  have hplace := avoids_place h.nodup hz hzid hne hkind havoids
  have hdrop : drop dateParse s drag = moveItems s [legalUpdate dateParse s drag i z] := by
    rw [drop, computeUpdate_tree h hi hid hz hzid hne hplace.rooted]
  refine ⟨i, z, hi, hid, dropParent_tree h hz hzid, hplace.rooted, hdrop, ?_⟩
  rw [hdrop]
  exact h.moveItems hi hid hplace

theorem Legal.forest (h : Forest s) (hlegal : Legal s drag) : Forest (drop dateParse s drag) := by
  obtain ⟨i, z, -, -, -, -, -, hforest⟩ := @Legal.exists_update dateParse s drag h hlegal
  exact hforest

theorem effectiveOrder_moved (i z : Item) (hid : i.id = drag.draggingId) :
    (moveItem (legalUpdate dateParse s drag i z) i).effectiveOrder dateParse =
      if (legalUpdate dateParse s drag i z).order = 0 then dateParse i.createdAt
      else (legalUpdate dateParse s drag i z).order := by
  rw [moveItem, if_pos ⟨hid, rfl⟩, Item.effectiveOrder]

theorem not_comesBefore {y : Item} {order : ℚ} {id : String}
    (h : comesAfter dateParse s y order id) : ¬ comesBefore dateParse s y order id := by
  rintro (hlt | ⟨heq, hpos⟩)
  · rcases h with hlt' | ⟨heq', -⟩
    · exact lt_asymm hlt hlt'
    · exact hlt.ne heq'.symm
  · rcases h with hlt' | ⟨-, hpos'⟩
    · exact hlt'.ne heq.symm
    · omega

/-- Two splits of the siblings are one if the order tells both in the same way. -/
theorem front_eq_iff {front back front' back' : List Item} {order : ℚ} {id : String}
    (happend : front ++ back = front' ++ back')
    (hfront : ∀ y ∈ front, comesBefore dateParse s y order id)
    (hback : ∀ y ∈ back, comesAfter dateParse s y order id) :
    front = front' ↔ (∀ y ∈ front', comesBefore dateParse s y order id) ∧
      ∀ y ∈ back', comesAfter dateParse s y order id := by
  constructor
  · rintro rfl
    rw [List.append_cancel_left happend] at hback
    exact ⟨hfront, hback⟩
  · rintro ⟨hfront', hback'⟩
    exact (append_inj_of_split happend hfront
      (fun y hy => not_comesBefore (hback y (List.mem_of_mem_head? hy))) hfront'
      fun y hy => not_comesBefore (hback' y (List.mem_of_mem_head? hy))).1

/-- A drop leaves the other places as they are, without the dragged item. -/
theorem landsIn_other (h : Forest s) (hlegal : Legal s drag) {place : Option String}
    (hplace : dropParent (tree dateParse s) drag.zone ≠ some place) :
    LandsIn dateParse s drag place := by
  obtain ⟨i, z, hi, hid, hparent, -, hdrop, hforest⟩ :=
    @Legal.exists_update dateParse s drag h hlegal
  simp only [LandsIn, if_neg hplace]
  rw [hparent] at hplace
  rw [hdrop] at hforest ⊢
  by_cases hrooted : Rooted s.parentOf place
  · rw [childIds_of_rooted h hrooted,
      childIds_of_rooted hforest ((rooted_moveItems h hforest).mpr hrooted),
      siblings_moveItems_other h.nodup hi hid rfl fun heq => hplace (congrArg some heq),
      Option.map_some, List.filter_map]
    rfl
  · rw [childIds_of_not_rooted h hrooted,
      childIds_of_not_rooted hforest (mt (rooted_moveItems h hforest).mp hrooted)]
    rfl

theorem pairwise_lt_meets {place : Option String} (hdistinct : DistinctIn dateParse s place) :
    (meets dateParse s drag place).Pairwise fun a b =>
      a.effectiveOrder dateParse < b.effectiveOrder dateParse := by
  refine List.Pairwise.filter _ ?_
  rw [DistinctIn, List.Nodup, List.pairwise_map] at hdistinct
  exact hdistinct.imp₂ (fun _ _ hne hle => lt_of_le_of_ne hle hne) (pairwise_sortBy _ _)

/-- The ids are in place if the moved item splits its siblings where the gap does. -/
theorem landsIn_iff_front (h : Forest s) (hforest : Forest (drop dateParse s drag))
    {place : Option String} (hrooted : Rooted s.parentOf place)
    (hrooted' : Rooted (drop dateParse s drag).parentOf place)
    (hplace : dropParent (tree dateParse s) drag.zone = some place) {front back : List Item}
    {moved : Item} (hid : moved.id = drag.draggingId)
    (hsibs : siblings dateParse (drop dateParse s drag) place = front ++ moved :: back)
    (happend : front ++ back = meets dateParse s drag place) :
    LandsIn dateParse s drag place ↔
      front = (drag.zone.split Item.id (meets dateParse s drag place)).1 := by
  have hsplit := split_append drag.zone Item.id (meets dateParse s drag place)
  have hnot : ∀ ys : List Item, (∀ y ∈ ys, y ∈ meets dateParse s drag place) →
      drag.draggingId ∉ ys.map Item.id := by
    intro ys hys hmem
    obtain ⟨y, hy, hyid⟩ := List.mem_map.mp hmem
    exact (mem_meets.mp (hys y hy)).2 hyid
  have hfilter : ((siblings dateParse s place).map Item.id).filter
      (fun a => decide (a ≠ drag.draggingId)) = (meets dateParse s drag place).map Item.id :=
    List.filter_map
  have hlanded : drag.landed ((siblings dateParse s place).map Item.id) =
      (drag.zone.split Item.id (meets dateParse s drag place)).1.map Item.id ++
        drag.draggingId ::
          (drag.zone.split Item.id (meets dateParse s drag place)).2.map Item.id := by
    rw [Drag.landed, hfilter, map_split]
    rfl
  have hafter : (siblings dateParse (drop dateParse s drag) place).map Item.id =
      front.map Item.id ++ drag.draggingId :: back.map Item.id := by
    rw [hsibs, List.map_append, List.map_cons, hid]
  simp only [LandsIn, if_pos hplace]
  rw [childIds_of_rooted h hrooted, childIds_of_rooted hforest hrooted', Option.map_some,
    Option.some.injEq, hafter, hlanded]
  constructor
  · intro heq
    have hparts := (List.append_cons_inj_of_notMem
      (hnot _ fun y hy => hsplit ▸ List.mem_append_left _ hy)
      (hnot _ fun y hy => hsplit ▸ List.mem_append_right _ hy)).mp heq.symm
    have hlen := congrArg List.length hparts.1
    rw [List.length_map, List.length_map] at hlen
    exact (List.append_inj (happend.trans hsplit.symm) hlen.symm).1
  · intro heq
    have hback := List.append_cancel_left
      ((congrArg (· ++ back) heq).symm.trans (happend.trans hsplit.symm))
    rw [hback, ← heq]

theorem fits_iff (h : Forest s) {place : Option String} (hi : i ∈ s.items)
    (hid : i.id = drag.draggingId)
    (hplace : dropParent (tree dateParse s) drag.zone = some place) :
    Fits dateParse s drag ↔ (ZeroGap dateParse s drag place →
      (∀ y ∈ (drag.zone.split Item.id (meets dateParse s drag place)).1,
        comesBefore dateParse s y (dateParse i.createdAt) drag.draggingId) ∧
      ∀ y ∈ (drag.zone.split Item.id (meets dateParse s drag place)).2,
        comesAfter dateParse s y (dateParse i.createdAt) drag.draggingId) := by
  constructor
  · exact fun hfits hzero => hfits i hi hid _ hplace hzero
  · intro hcond i' hi' hid' place' hplace' hzero
    obtain rfl := eq_of_id h.nodup hi' hi (hid'.trans hid.symm)
    obtain rfl := Option.some.inj (hplace.symm.trans hplace')
    exact hcond hzero

/-- At its destination the drop lands exactly if it fits. -/
theorem landsIn_place (h : Forest s) (hlegal : Legal s drag) {place : Option String}
    (hplace : dropParent (tree dateParse s) drag.zone = some place)
    (hdistinct : DistinctIn dateParse s place) :
    LandsIn dateParse s drag place ↔ Fits dateParse s drag := by
  obtain ⟨i, z, hi, hid, hparent, hrooted, hdrop, hforest⟩ :=
    @Legal.exists_update dateParse s drag h hlegal
  obtain rfl : drag.zone.place z = place := Option.some.inj (hparent.symm.trans hplace)
  obtain ⟨front, back, hsibs, happend, hfront, hback⟩ :=
    @siblings_moveItems_place dateParse s i _ h.nodup hi
      (show i.id = (legalUpdate dateParse s drag i z).id from hid) rfl
  rw [effectiveOrder_moved i z hid] at hfront hback
  have hrooted' : Rooted (drop dateParse s drag).parentOf (drag.zone.place z) := by
    rw [hdrop] at hforest ⊢
    exact (rooted_moveItems h hforest).mpr hrooted
  have hsibs' : siblings dateParse (drop dateParse s drag) (drag.zone.place z) =
      front ++ moveItem (legalUpdate dateParse s drag i z) i :: back := by
    rw [hdrop]
    exact hsibs
  have hsplit := split_append drag.zone Item.id (meets dateParse s drag (drag.zone.place z))
  rw [landsIn_iff_front h hforest hrooted hrooted' hplace ((moveItem_id _ _).trans hid) hsibs'
    happend, front_eq_iff (happend.trans hsplit.symm) hfront hback, fits_iff h hi hid hplace,
    ZeroGap, ← midOrder_eq_zero]
  by_cases hzero : (legalUpdate dateParse s drag i z).order = 0
  · rw [if_pos hzero]
    exact ⟨fun hcond _ => hcond, fun hcond => hcond hzero⟩
  · have hstrict := @pairwise_lt_meets dateParse s drag _ hdistinct
    rw [← hsplit] at hstrict
    have hmid := lt_midOrder hstrict
    rw [if_neg hzero]
    exact ⟨fun _ heq => absurd heq hzero,
      fun _ => ⟨fun y hy => .inl (hmid.1 y hy), fun y hy => .inl (hmid.2 y hy)⟩⟩

/-! ## Runs of drops -/

/-- Every drag is legal, and those into the place fit, apart from its siblings. -/
def Careful (dateParse : String → ℚ) (place : Option String) : RequestState → List Drag → Prop
  | _, [] => True
  | s, drag :: rest =>
    Legal s drag ∧
      (dropParent (tree dateParse s) drag.zone = some place →
        Fits dateParse s drag ∧ Apart dateParse s drag) ∧
      Careful dateParse place (drop dateParse s drag) rest

/-- After every drag of a run the place shows what it should. -/
def AllLand (dateParse : String → ℚ) (place : Option String) : RequestState → List Drag → Prop
  | _, [] => True
  | s, drag :: rest =>
    LandsIn dateParse s drag place ∧ AllLand dateParse place (drop dateParse s drag) rest

/-- A drop that keeps apart leaves distinct orders. -/
theorem distinctIn_drop (h : Forest s) (hlegal : Legal s drag) {place : Option String}
    (hdistinct : DistinctIn dateParse s place)
    (hapart : dropParent (tree dateParse s) drag.zone = some place → Apart dateParse s drag) :
    DistinctIn dateParse (drop dateParse s drag) place := by
  obtain ⟨i, z, hi, hid, hparent, -, hdrop, -⟩ := @Legal.exists_update dateParse s drag h hlegal
  rw [hdrop]
  by_cases hplace : drag.zone.place z = place
  · obtain ⟨front, back, hsibs, happend, -, -⟩ :=
      @siblings_moveItems_place dateParse s i _ h.nodup hi
        (show i.id = (legalUpdate dateParse s drag i z).id from hid) rfl
    have hsplit := split_append drag.zone Item.id (meets dateParse s drag place)
    have hstrict := @pairwise_lt_meets dateParse s drag _ hdistinct
    have hmeets : front ++ back = meets dateParse s drag place := by
      rw [← hplace]
      exact happend
    have hsibs' : siblings dateParse (moveItems s [legalUpdate dateParse s drag i z]) place =
        front ++ moveItem (legalUpdate dateParse s drag i z) i :: back := by
      rw [← hplace]
      exact hsibs
    rw [DistinctIn, hsibs', List.map_append, List.map_cons, List.perm_middle.nodup_iff,
      List.nodup_cons, ← List.map_append, hmeets, effectiveOrder_moved i z hid]
    refine ⟨fun hmem => ?_, ?_⟩
    · obtain ⟨y, hy, heq⟩ := List.mem_map.mp hmem
      rw [← hplace] at hapart hy hsplit hstrict
      by_cases hzero : (legalUpdate dateParse s drag i z).order = 0
      · rw [if_pos hzero] at heq
        exact hapart hparent i hi hid _ hparent (midOrder_eq_zero.mp hzero) y hy heq
      · rw [if_neg hzero] at heq
        rw [← hsplit] at hstrict hy
        have hmid := lt_midOrder hstrict
        rcases List.mem_append.mp hy with hy | hy
        · exact (hmid.1 y hy).ne heq
        · exact (hmid.2 y hy).ne heq.symm
    · rw [List.Nodup, List.pairwise_map]
      exact hstrict.imp fun hlt => hlt.ne
  · rw [DistinctIn, siblings_moveItems_other h.nodup hi hid rfl hplace]
    exact hdistinct.sublist (List.filter_sublist.map _)

theorem allLand_of_careful {place : Option String} (drags : List Drag) (h : Forest s)
    (hdistinct : DistinctIn dateParse s place) (hcareful : Careful dateParse place s drags) :
    AllLand dateParse place s drags := by
  induction drags generalizing s with
  | nil => trivial
  | cons drag rest ih =>
    obtain ⟨hlegal, hfits, hrest⟩ := hcareful
    have hlands : LandsIn dateParse s drag place := by
      by_cases hplace : dropParent (tree dateParse s) drag.zone = some place
      · exact (landsIn_place h hlegal hplace hdistinct).mpr (hfits hplace).1
      · exact landsIn_other h hlegal hplace
    exact ⟨hlands, ih (hlegal.forest h)
      (distinctIn_drop h hlegal hdistinct fun hplace => (hfits hplace).2) hrest⟩

/-- One drop among siblings with distinct orders lands exactly if it fits. Over a run of drags,
each of which fits and keeps apart, a place shows after every drag what it should; nothing is
asked of the other places. -/
theorem drags_land (h : Forest s) :
    (∀ drag, Legal s drag →
      (∀ place, dropParent (tree dateParse s) drag.zone = some place →
        DistinctIn dateParse s place) →
      (Lands dateParse s drag ↔ Fits dateParse s drag)) ∧
    ∀ place drags, DistinctIn dateParse s place → Careful dateParse place s drags →
      AllLand dateParse place s drags := by
  refine ⟨fun drag hlegal hdistinct => ?_, fun place drags hdistinct hcareful =>
    allLand_of_careful drags h hdistinct hcareful⟩
  obtain ⟨i, z, -, -, hparent, -⟩ := @Legal.exists_update dateParse s drag h hlegal
  have hplace := landsIn_place h hlegal hparent (hdistinct _ hparent)
  constructor
  · exact fun hlands => hplace.mp (hlands _)
  · intro hfits place
    by_cases heq : dropParent (tree dateParse s) drag.zone = some place
    · obtain rfl := Option.some.inj (hparent.symm.trans heq)
      exact hplace.mpr hfits
    · exact landsIn_other h hlegal heq

/-! Two requests with the orders that two drops into an empty folder give: 1000, and 500 for the
one in front of it. A drop in front of both gets the order zero. -/

def firstAndSecond : RequestState where
  folders := []
  requests := [{ HttpRequest.blank with id := "a", order := 500 },
    { HttpRequest.blank with id := "b", order := 1000 }]
  connections := []
  grpcRequests := []

/-- Every request was created at the same time. -/
def createdLate : String → ℚ := fun _ => 1700000000000

theorem forest_firstAndSecond : Forest firstAndSecond := by
  refine ⟨by decide, fun i hi => ?_⟩
  have hroot : i.folderId = none := by
    simp only [firstAndSecond, RequestState.items, List.map_cons, List.map_nil, List.nil_append,
      List.append_nil, List.mem_cons, List.not_mem_nil, or_false] at hi
    rcases hi with rfl | rfl <;> rfl
  rw [hroot]
  exact .root

theorem distinctIn_firstAndSecond : DistinctIn createdLate firstAndSecond none := by
  rw [DistinctIn, siblings, ((sortBy_perm _ _).map _).nodup_iff]
  simp [firstAndSecond, RequestState.items, requestItem, Item.effectiveOrder, HttpRequest.blank]

theorem legal_firstAndSecond {zone : DropZone} (hid : zone.id = "a")
    (hzone : zone ≠ .into "a") : Legal firstAndSecond ⟨"b", zone⟩ := by
  refine ⟨⟨⟨"b", .request, none, 1000, ""⟩, ?_, rfl⟩,
    ⟨⟨"a", .request, none, 500, ""⟩, ?_, hid.symm, show "a" ≠ "b" by decide, ?_, .root⟩⟩
  · simp [firstAndSecond, RequestState.items, requestItem, HttpRequest.blank]
  · simp [firstAndSecond, RequestState.items, requestItem, HttpRequest.blank]
  · exact fun hinto => absurd hinto hzone

theorem dropParent_firstAndSecond {zone : DropZone} (hid : zone.id = "a")
    (hzone : zone ≠ .into "a") :
    dropParent (tree createdLate firstAndSecond) zone = some none := by
  have hmem : ⟨"a", .request, none, 500, ""⟩ ∈ firstAndSecond.items := by
    simp [firstAndSecond, RequestState.items, requestItem, HttpRequest.blank]
  rw [dropParent_tree forest_firstAndSecond hmem hid.symm]
  cases zone with
  | into id => exact absurd (congrArg DropZone.into hid) hzone
  | before id | after id => rfl

theorem meets_firstAndSecond (zone : DropZone) :
    meets createdLate firstAndSecond ⟨"b", zone⟩ none = [⟨"a", .request, none, 500, ""⟩] := by
  rw [meets, siblings, filter_sortBy]
  simp [firstAndSecond, RequestState.items, requestItem, HttpRequest.blank, sortBy]

theorem drags_land_behind :
    (Lands createdLate firstAndSecond ⟨"b", .after "a"⟩ ↔
      Fits createdLate firstAndSecond ⟨"b", .after "a"⟩) ∧
    AllLand createdLate none firstAndSecond [⟨"b", .after "a"⟩] := by
  have hlegal := @legal_firstAndSecond (.after "a") rfl (by decide)
  have hparent := @dropParent_firstAndSecond (.after "a") rfl (by decide)
  have hgap : ¬ ZeroGap createdLate firstAndSecond ⟨"b", .after "a"⟩ none := by
    rw [ZeroGap, meets_firstAndSecond]
    simp [gapOrders, DropZone.split, gapAtZero, Item.effectiveOrder]
    norm_num
  refine ⟨(drags_land forest_firstAndSecond).1 _ hlegal fun place hplace => ?_,
    (drags_land forest_firstAndSecond).2 none _ distinctIn_firstAndSecond
      ⟨hlegal, fun _ => ⟨?_, ?_⟩, trivial⟩⟩
  · rw [← Option.some.inj (hparent.symm.trans hplace)]
    exact distinctIn_firstAndSecond
  · rintro i - - place hplace hzero
    rw [← Option.some.inj (hparent.symm.trans hplace)] at hzero
    exact absurd hzero hgap
  · rintro i - - place hplace hzero
    rw [← Option.some.inj (hparent.symm.trans hplace)] at hzero
    exact absurd hzero hgap

theorem drop_in_front_of_500 :
    ¬ Lands createdLate firstAndSecond ⟨"b", .before "a"⟩ := by
  have hlegal := @legal_firstAndSecond (.before "a") rfl (by decide)
  have hparent := @dropParent_firstAndSecond (.before "a") rfl (by decide)
  intro hlands
  have hfits := (landsIn_place forest_firstAndSecond hlegal hparent
    distinctIn_firstAndSecond).mp (hlands none)
  have hzero : ZeroGap createdLate firstAndSecond ⟨"b", .before "a"⟩ none := by
    rw [ZeroGap, meets_firstAndSecond]
    simp [gapOrders, DropZone.split, gapAtZero, Item.effectiveOrder]
  have hafter := (hfits ⟨"b", .request, none, 1000, ""⟩ (by
    simp [firstAndSecond, RequestState.items, requestItem, HttpRequest.blank]) rfl none hparent
    hzero).2 ⟨"a", .request, none, 500, ""⟩ (by
      rw [meets_firstAndSecond]
      simp [DropZone.split])
  simp [comesAfter, createdLate, Item.effectiveOrder] at hafter
  norm_num at hafter

end Voleeo.Tree
