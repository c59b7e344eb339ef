import Mathlib.Data.List.Perm.Basic
import Voleeo.Imports.GroupAuth
import Voleeo.Imports.PathGroups
import Voleeo.Imports.Insomnia

/-!
# Trees of flat exports

The resources of a flat export name the groups they are in. What an importer makes of them is the
image of a tree of these resources.
-/
namespace Voleeo.Imports
open Postman

/-! ## Lists that are filtered -/

theorem filter_or_perm {α : Type} {p q : α → Bool} (h : ∀ x, p x = true → q x = false)
    (xs : List α) : (xs.filter p ++ xs.filter q).Perm (xs.filter fun x => p x || q x) := by
  induction xs with
  | nil => exact .refl _
  | cons x xs ih =>
    by_cases hp : p x = true
    · rw [List.filter_cons_of_pos hp, List.filter_cons_of_neg (by simp [h x hp]),
        List.filter_cons_of_pos (by simp [hp]), List.cons_append]
      exact ih.cons x
    · by_cases hq : q x = true
      · rw [List.filter_cons_of_neg hp, List.filter_cons_of_pos hq,
          List.filter_cons_of_pos (by simp [hq])]
        exact List.perm_middle.trans (ih.cons x)
      · rw [List.filter_cons_of_neg hp, List.filter_cons_of_neg hq,
          List.filter_cons_of_neg (by simp [hp, hq])]
        exact ih

/-- Filters of which no two keep the same element keep together what one of them keeps. -/
theorem flatMap_filter_perm {α β : Type} {p : α → β → Bool} {keys : List α}
    (h : keys.Pairwise fun a b => ∀ x, p a x = true → p b x = false) (xs : List β) :
    (keys.flatMap fun a => xs.filter (p a)).Perm (xs.filter fun x => keys.any fun a => p a x) := by
  induction keys with
  | nil => simp
  | cons a keys ih =>
    rw [List.pairwise_cons] at h
    have hapart : ∀ x, p a x = true → (keys.any fun b => p b x) = false := by
      intro x hx
      rw [List.any_eq_false]
      exact fun b hb => Bool.eq_false_iff.mp (h.1 b hb x hx)
    rw [List.flatMap_cons]
    refine ((ih h.2).append_left _).trans ((filter_or_perm hapart xs).trans (.of_eq ?_))
    simp only [List.any_cons]

/-! ## Trees of resources -/

/-- How one format reads a group and a request, and by what it sorts them. -/
structure FlatFormat where
  folder : Json → Bool → ImportedFolder
  request : Json → Bool → ImportedRequest
  hasAuth : Json → Bool
  key : Json → ℚ

inductive SourceNode
  | group (g : Json) (children : List SourceNode)
  | request (r : Json)

namespace SourceNode

def value : SourceNode → Json
  | .group g _ => g
  | .request r => r

end SourceNode

mutual

/-- What an importer makes of a node; `inherit` says that a group around it has auth. -/
def SourceNode.item (F : FlatFormat) (inherit : Bool) : SourceNode → ImportedItem
  | .group g children => .folder (F.folder g inherit) (itemsOf F (inherit || F.hasAuth g) children)
  | .request r => .request (F.request r inherit)

def itemsOf (F : FlatFormat) (inherit : Bool) : List SourceNode → List ImportedItem
  | [] => []
  | n :: rest => n.item F inherit :: itemsOf F inherit rest

end

mutual

/-- The requests of a node, each with the groups around it from the inside outwards. -/
def SourceNode.placed (chain : List Json) : SourceNode → List (Json × List Json)
  | .group g children => placedIn (g :: chain) children
  | .request r => [(r, chain)]

def placedIn (chain : List Json) : List SourceNode → List (Json × List Json)
  | [] => []
  | n :: rest => n.placed chain ++ placedIn chain rest

end

mutual

/-- The siblings on each level are in the order of their keys. -/
def SourceNode.Ordered (key : Json → ℚ) : SourceNode → Prop
  | .group _ children => OrderedAll key children
  | .request _ => True

def OrderedAll (key : Json → ℚ) : List SourceNode → Prop
  | [] => True
  | n :: rest => (∀ m ∈ rest, key n.value ≤ key m.value) ∧ n.Ordered key ∧ OrderedAll key rest

end

theorem orderedAll_iff {key : Json → ℚ} {nodes : List SourceNode} : OrderedAll key nodes ↔
    ((nodes.map SourceNode.value).Pairwise fun a b => key a ≤ key b) ∧
      ∀ n ∈ nodes, n.Ordered key := by
  induction nodes with
  | nil => simp [OrderedAll]
  | cons n rest ih =>
    rw [OrderedAll, ih, List.map_cons, List.pairwise_cons, List.forall_mem_map,
      List.forall_mem_cons]
    tauto

mutual

theorem SourceNode.length_leaves (F : FlatFormat) (inherit : Bool) (chain : List Json) :
    ∀ n : SourceNode, (itemLeaves (n.item F inherit)).length = (n.placed chain).length
  | .group g children => by
      rw [SourceNode.item, SourceNode.placed, itemLeaves, List.length_map, length_leaves_itemsOf]
  | .request r => by rw [SourceNode.item, SourceNode.placed]; rfl

theorem length_leaves_itemsOf (F : FlatFormat) (inherit : Bool) (chain : List Json) :
    ∀ nodes : List SourceNode, (leaves (itemsOf F inherit nodes)).length =
      (placedIn chain nodes).length
  | [] => rfl
  | n :: rest => by
      rw [itemsOf, placedIn, leaves_cons, List.length_append, List.length_append,
        SourceNode.length_leaves F inherit chain n, length_leaves_itemsOf F inherit chain rest]

end

open Classical in
/-- The items come from a tree of the resources: the siblings are in the order of their keys, each
request is under the groups of a chain of its own, and the requests that have a chain to the root
are in it, each once. -/
def Rebuilt {κ : Type} (F : FlatFormat) (inherit : Bool) (keyOf parentOf : Json → κ)
    (groups requests : List Json) (root : κ) (items : List ImportedItem) : Prop :=
  ∃ nodes, items = itemsOf F inherit nodes ∧ OrderedAll F.key nodes ∧
    (∀ x ∈ placedIn [] nodes, Around keyOf parentOf groups root x.1 x.2) ∧
    ((placedIn [] nodes).map Prod.fst).Perm
      (requests.filter fun r => ∃ chain, Around keyOf parentOf groups root r chain)

end Voleeo.Imports

/-!
## The tree of an Insomnia export

The walk enters each group that hangs below the root once. It lists the requests of the root and
of every group that it enters, so it loses none, and lists one twice only where a group that it
enters has the id of the root.
-/
namespace Voleeo.Imports.Insomnia
open Postman

def flat (readers : Readers) : FlatFormat where
  folder := importGroup readers
  request := buildRequest readers
  hasAuth := hasAuth
  key := sortKey readers

def requestsOf (resources : List Json) : List Json :=
  resources.filter fun r => typeOf r = "request"

def requestsIn (resources : List Json) (place : String) : List Json :=
  (requestsOf resources).filter fun r => parentOf r = place

/-- The groups around a resource, up to the root. -/
abbrev Hangs (resources : List Json) (r : Json) (chain : List Json) : Prop :=
  Around idOf parentOf (groupsOf resources) (rootIdOf resources) r chain

section
variable {readers : Readers} {resources : List Json}

/-- What a walk over `kids` builds: the nodes it is the image of, and the groups it enters, the
last one first. -/
structure Walked (readers : Readers) (resources kids chain : List Json) (inherit : Bool)
    (seen : List String) (built : Built) (nodes : List SourceNode) (entered : List String) :
    Prop where
  items : built.1 = itemsOf (flat readers) inherit nodes
  seen_eq : built.2 = entered ++ seen
  values : (nodes.map SourceNode.value).Sublist kids
  ordered : ∀ n ∈ nodes, n.Ordered (sortKey readers)
  hangs : ∀ x ∈ placedIn chain nodes, Hangs resources x.1 x.2
  requests : ((placedIn chain nodes).map Prod.fst).Perm
    ((kids.filter fun r => !isGroup r) ++ entered.flatMap (requestsIn resources))
  fresh : entered.Nodup ∧ ∀ id ∈ entered, id ∉ seen
  below : ∀ id ∈ entered, ∃ g ∈ groupsOf resources, idOf g = id ∧ ∃ above, Hangs resources g above
  all_kids : ∀ g ∈ kids, isGroup g = true → idOf g ∈ entered ++ seen
  closed : ∀ id ∈ entered, ∀ g ∈ groupsOf resources, parentOf g = id → idOf g ∈ entered ++ seen

theorem walked_nil (chain : List Json) (inherit : Bool) (seen : List String) :
    Walked readers resources [] chain inherit seen ([], seen) [] [] where
  items := rfl
  seen_eq := rfl
  values := .refl _
  ordered := by simp
  hangs := by simp [placedIn]
  requests := .refl _
  fresh := ⟨List.nodup_nil, by simp⟩
  below := by simp
  all_kids := by simp
  closed := by simp

/-- A group that was entered before is left out. -/
theorem Walked.skip {r : Json} {kids chain : List Json} {inherit : Bool} {seen : List String}
    {built : Built} {nodes : List SourceNode} {entered : List String}
    (h : Walked readers resources kids chain inherit seen built nodes entered)
    (hgroup : isGroup r = true) (hseen : idOf r ∈ seen) :
    Walked readers resources (r :: kids) chain inherit seen built nodes entered where
  items := h.items
  seen_eq := h.seen_eq
  values := h.values.cons r
  ordered := h.ordered
  hangs := h.hangs
  requests := by
    rw [List.filter_cons_of_neg (by simp [hgroup])]
    exact h.requests
  fresh := h.fresh
  below := h.below
  all_kids := by
    intro g hg hkind
    rcases List.mem_cons.mp hg with rfl | hg
    · exact List.mem_append_right _ hseen
    · exact h.all_kids g hg hkind
  closed := h.closed

theorem Walked.request {r : Json} {kids chain : List Json} {inherit : Bool} {seen : List String}
    {items : List ImportedItem} {seen' : List String} {nodes : List SourceNode}
    {entered : List String}
    (h : Walked readers resources kids chain inherit seen (items, seen') nodes entered)
    (hrequest : isGroup r = false) (hr : Hangs resources r chain) :
    Walked readers resources (r :: kids) chain inherit seen
      (.request (buildRequest readers r inherit) :: items, seen') (.request r :: nodes)
      entered where
  items := congrArg (.request (buildRequest readers r inherit) :: ·) h.items
  seen_eq := h.seen_eq
  values := h.values.cons_cons r
  ordered := List.forall_mem_cons.mpr ⟨trivial, h.ordered⟩
  hangs := List.forall_mem_cons.mpr ⟨hr, h.hangs⟩
  requests := by
    rw [List.filter_cons_of_pos (by simp [hrequest])]
    exact h.requests.cons r
  fresh := h.fresh
  below := h.below
  all_kids := by
    intro g hg hkind
    rcases List.mem_cons.mp hg with rfl | hg
    · rw [hrequest] at hkind
      cases hkind
    · exact h.all_kids g hg hkind
  closed := h.closed

theorem requests_kidsOf (place : String) :
    ((kidsOf readers resources place).filter fun r => !isGroup r).Perm
      (requestsIn resources place) := by
  refine ((sortBy_perm _ _).filter _).trans (.of_eq ?_)
  rw [requestsIn, requestsOf, List.filter_filter, List.filter_filter]
  refine List.filter_congr fun r _ => ?_
  rw [isGroup]
  by_cases hr : typeOf r = "request"
  · simp [hr]
  · by_cases hg : typeOf r = "request_group" <;> simp [hr, hg]

/-- A group that has not been entered, with the walk through it and the walk over the rest. -/
theorem Walked.group {r : Json} {kids chain : List Json} {inherit : Bool} {seen : List String}
    {inner rest : Built} {nodes nodes' : List SourceNode} {entered entered' : List String}
    (hmem : r ∈ resources) (hgroup : isGroup r = true) (hr : Hangs resources r chain)
    (hseen : idOf r ∉ seen)
    (hin : Walked readers resources (kidsOf readers resources (idOf r)) (r :: chain)
      (inherit || hasAuth r) (idOf r :: seen) inner nodes entered)
    (hrest : Walked readers resources kids chain inherit inner.2 rest nodes' entered') :
    Walked readers resources (r :: kids) chain inherit seen
      (.folder (importGroup readers r inherit) inner.1 :: rest.1, rest.2)
      (.group r nodes :: nodes') (entered' ++ (entered ++ [idOf r])) where
  items := by
    rw [hin.items, hrest.items]
    rfl
  seen_eq := by
    have hseen' : rest.2 = entered' ++ inner.2 := hrest.seen_eq
    rw [hin.seen_eq] at hseen'
    simpa using hseen'
  values := hrest.values.cons_cons r
  ordered := by
    refine List.forall_mem_cons.mpr ⟨?_, hrest.ordered⟩
    have hkids : (kidsOf readers resources (idOf r)).Pairwise fun a b =>
        sortKey readers a ≤ sortKey readers b := pairwise_sortBy _ _
    exact orderedAll_iff.mpr ⟨hkids.sublist hin.values, hin.ordered⟩
  hangs := by
    intro x hx
    rcases List.mem_append.mp hx with hx | hx
    · exact hin.hangs x hx
    · exact hrest.hangs x hx
  requests := by
    have hinside := hin.requests.trans ((requests_kidsOf (idOf r)).append_right _)
    rw [placedIn, SourceNode.placed, List.map_append, List.filter_cons_of_neg (by simp [hgroup]),
      List.flatMap_append, List.flatMap_append, List.flatMap_singleton]
    refine (hinside.append hrest.requests).trans (List.perm_append_comm.trans ?_)
    rw [List.append_assoc]
    exact (List.perm_append_comm.append_left _).append_left _
  fresh := by
    have hin' := hin.fresh
    have hrest' := hrest.fresh
    rw [hin.seen_eq] at hrest'
    simp only [List.mem_append, List.mem_cons, not_or] at hin' hrest'
    simp only [List.nodup_append, List.mem_append, List.mem_singleton, List.nodup_singleton]
    refine ⟨⟨hrest'.1, ⟨hin'.1, trivial, ?_⟩, ?_⟩, ?_⟩
    · rintro id hid - rfl heq
      exact (hin'.2 id hid).1 heq
    · rintro id hid id' (hid' | hid') rfl
      · exact (hrest'.2 id hid).1 hid'
      · exact (hrest'.2 id hid).2.1 hid'
    · rintro id (hid | hid | rfl)
      · exact (hrest'.2 id hid).2.2
      · exact (hin'.2 id hid).2
      · exact hseen
  below := by
    intro id hid
    rcases List.mem_append.mp hid with hid | hid
    · exact hrest.below id hid
    rcases List.mem_append.mp hid with hid | hid
    · exact hin.below id hid
    · obtain rfl := List.mem_singleton.mp hid
      exact ⟨r, List.mem_filter.mpr ⟨hmem, hgroup⟩, rfl, chain, hr⟩
  all_kids := by
    have hall := hrest.all_kids
    rw [hin.seen_eq] at hall
    intro g hg hkind
    rcases List.mem_cons.mp hg with rfl | hg
    · simp
    · simpa using hall g hg hkind
  closed := by
    have hclosed := hrest.closed
    rw [hin.seen_eq] at hclosed
    intro id hid g hg hparent
    rcases List.mem_append.mp hid with hid | hid
    · simpa using hclosed id hid g hg hparent
    rcases List.mem_append.mp hid with hid | hid
    · have := hin.closed id hid g hg hparent
      simp only [List.mem_append, List.mem_cons, List.not_mem_nil, or_false] at this ⊢
      tauto
    · obtain rfl := List.mem_singleton.mp hid
      rw [groupsOf, List.mem_filter] at hg
      have hkid : g ∈ kidsOf readers resources (idOf r) := by
        rw [kidsOf, mem_sortBy, List.mem_filter, decide_eq_true_eq]
        exact ⟨hg.1, hparent, Or.inl hg.2⟩
      have := hin.all_kids g hkid hg.2
      simp only [List.mem_append, List.mem_cons, List.not_mem_nil, or_false] at this ⊢
      tauto

/-- Each kid adds to the walk over those behind it. -/
theorem buildKids_walked {down : String → Bool → List String → Option Built}
    {chain : List Json} {inherit : Bool}
    (hdown : ∀ r ∈ resources, isGroup r = true → Hangs resources r chain → ∀ inherit seen built,
      down (idOf r) inherit seen = some built → ∃ nodes entered,
        Walked readers resources (kidsOf readers resources (idOf r)) (r :: chain) inherit seen built
          nodes entered)
    (kids : List Json) (hkids : ∀ r ∈ kids, r ∈ resources ∧ Hangs resources r chain)
    (seen : List String) (built : Built)
    (h : buildKids readers down inherit kids seen = some built) :
    ∃ nodes entered, Walked readers resources kids chain inherit seen built nodes entered := by
  induction kids generalizing seen built with
  | nil =>
    cases h
    exact ⟨[], [], walked_nil chain inherit seen⟩
  | cons r kids ih =>
    rw [List.forall_mem_cons] at hkids
    obtain ⟨⟨hmem, hr⟩, hkids⟩ := hkids
    rw [buildKids] at h
    split_ifs at h with hgroup hseen
    · obtain ⟨nodes, entered, hrest⟩ := ih hkids seen built h
      exact ⟨nodes, entered, hrest.skip hgroup hseen⟩
    · obtain ⟨⟨items, seen'⟩, hitems, h⟩ := Option.bind_eq_some_iff.mp h
      obtain ⟨⟨rest, seen''⟩, hrest, h⟩ := Option.bind_eq_some_iff.mp h
      cases h
      obtain ⟨nodes, entered, hin⟩ := hdown r hmem hgroup hr _ _ _ hitems
      obtain ⟨nodes', entered', hout⟩ := ih hkids seen' _ hrest
      exact ⟨_, _, hin.group hmem hgroup hr hseen hout⟩
    · obtain ⟨⟨rest, seen'⟩, hrest, h⟩ := Option.bind_eq_some_iff.mp h
      cases h
      obtain ⟨nodes, entered, hout⟩ := ih hkids seen _ hrest
      exact ⟨_, _, hout.request (Bool.eq_false_iff.mpr hgroup) hr⟩

theorem buildChildren_walked (fuel : ℕ) (place : String) (chain : List Json)
    (hplace : ∀ r, parentOf r = place → Hangs resources r chain) (inherit : Bool)
    (seen : List String) (built : Built)
    (h : buildChildren readers resources fuel place inherit seen = some built) :
    ∃ nodes entered,
      Walked readers resources (kidsOf readers resources place) chain inherit seen built nodes
        entered := by
  induction fuel generalizing place chain inherit seen built with
  | zero => cases h
  | succ fuel ih =>
    refine buildKids_walked (fun r hmem hgroup hr inherit seen built hdown => ?_) _
      (fun r hr => ?_) seen built h
    · exact ih (idOf r) (r :: chain)
        (fun v hv => .inside (List.mem_filter.mpr ⟨hmem, hgroup⟩) hv hr) inherit seen built hdown
    · obtain ⟨hmem, hparent, -⟩ := mem_of_mem_kidsOf hr
      exact ⟨hmem, hplace r hparent⟩

/-! ## What the walk from the root finds -/

/-- The groups that are entered from the root are those that hang below it. -/
theorem mem_entered_iff {built : Built} {nodes : List SourceNode} {entered : List String}
    (h : Walked readers resources (kidsOf readers resources (rootIdOf resources)) [] false [] built
      nodes entered) (id : String) :
    id ∈ entered ↔ ∃ g ∈ groupsOf resources, idOf g = id ∧ ∃ above, Hangs resources g above := by
  refine ⟨h.below id, ?_⟩
  rintro ⟨g, hg, rfl, above, hangs⟩
  have hall : ∀ g' ∈ groupsOf resources, parentOf g' = rootIdOf resources → idOf g' ∈ entered := by
    intro g' hg' hparent
    rw [groupsOf, List.mem_filter] at hg'
    have hkid : g' ∈ kidsOf readers resources (rootIdOf resources) := by
      rw [kidsOf, mem_sortBy, List.mem_filter, decide_eq_true_eq]
      exact ⟨hg'.1, hparent, Or.inl hg'.2⟩
    simpa using h.all_kids g' hkid hg'.2
  induction hangs with
  | top hparent => exact hall _ hg hparent
  | @inside v g' above hg' hparent _ ih =>
    simpa using h.closed _ (ih hg') v hg hparent

/-- A resource hangs at the root, or in a group that does. -/
theorem hangs_iff {r : Json} : (∃ chain, Hangs resources r chain) ↔
    parentOf r = rootIdOf resources ∨
      ∃ g ∈ groupsOf resources, idOf g = parentOf r ∧ ∃ above, Hangs resources g above := by
  constructor
  · rintro ⟨chain, hr⟩
    cases hr with
    | top hparent => exact Or.inl hparent
    | inside hg hparent habove => exact Or.inr ⟨_, hg, hparent.symm, _, habove⟩
  · rintro (hparent | ⟨g, hg, hparent, above, habove⟩)
    · exact ⟨[], .top hparent⟩
    · exact ⟨g :: above, .inside hg hparent.symm habove⟩

/-- A group below the root has the id of the root, and a request names that id. -/
def RootTwice (resources : List Json) : Prop :=
  (∃ g ∈ groupsOf resources, idOf g = rootIdOf resources ∧ ∃ above, Hangs resources g above) ∧
    ∃ r ∈ requestsOf resources, parentOf r = rootIdOf resources

theorem flatMap_requestsIn {ids : List String} (hids : ids.Nodup) :
    (ids.flatMap (requestsIn resources)).Perm
      ((requestsOf resources).filter fun r => decide (parentOf r ∈ ids)) := by
  have hapart : ids.Pairwise fun a b => ∀ r, decide (parentOf r = a) = true →
      decide (parentOf r = b) = false := hids.imp fun hne r ha =>
    decide_eq_false fun hb => hne ((of_decide_eq_true ha).symm.trans hb)
  refine (flatMap_filter_perm hapart (requestsOf resources)).trans (.of_eq ?_)
  refine List.filter_congr fun r _ => ?_
  rw [Bool.eq_iff_iff, List.any_eq_true, decide_eq_true_eq]
  exact ⟨fun ⟨id, hid, h⟩ => of_decide_eq_true h ▸ hid, fun h => ⟨_, h, decide_eq_true rfl⟩⟩

open Classical in
/-- The walk from the root rebuilds the tree unless the root is found twice. -/
theorem rebuilt_iff {fuel : ℕ} {built : Built}
    (h : buildChildren readers resources fuel (rootIdOf resources) false [] = some built) :
    Rebuilt (flat readers) false idOf parentOf (groupsOf resources) (requestsOf resources)
      (rootIdOf resources) built.1 ↔ ¬ RootTwice resources := by
  obtain ⟨nodes, entered, hwalk⟩ := buildChildren_walked fuel _ [] (fun r hr => .top hr) false []
    built h
  have hentered := mem_entered_iff hwalk
  have hrequests := hwalk.requests.trans ((requests_kidsOf _).append
    (flatMap_requestsIn hwalk.fresh.1))
  have hhangs : ∀ r, (∃ chain, Hangs resources r chain) ↔
      parentOf r = rootIdOf resources ∨ parentOf r ∈ entered := fun r => by
    rw [hangs_iff, hentered]
  constructor
  · rintro ⟨nodes', hitems, -, -, hperm⟩ ⟨⟨g, hg, hid, above, habove⟩, r, hr, hroot⟩
    -- The requests of the root are listed twice, so there is one more than there should be.
    have hmem : rootIdOf resources ∈ entered := (hentered _).mpr ⟨g, hg, hid, above, habove⟩
    have hlength : (placedIn [] nodes').length = (placedIn [] nodes).length := by
      rw [← length_leaves_itemsOf (flat readers) false, ← hitems, hwalk.items,
        length_leaves_itemsOf (flat readers) false]
    have hall := hperm.length_eq
    have htwice := hrequests.length_eq
    have hsame : (requestsOf resources).filter (fun r => decide (parentOf r ∈ entered)) =
        (requestsOf resources).filter fun r => decide (∃ chain, Hangs resources r chain) := by
      refine List.filter_congr fun r _ => decide_eq_decide.mpr ?_
      rw [hhangs]
      exact ⟨Or.inr, fun h => h.elim (fun hroot => hroot ▸ hmem) id⟩
    rw [List.length_map, hlength] at hall
    rw [List.length_map, List.length_append, hsame, ← hall] at htwice
    have hpos : 0 < (requestsIn resources (rootIdOf resources)).length :=
      List.length_pos_iff.mpr (List.ne_nil_of_mem (List.mem_filter.mpr ⟨hr, decide_eq_true hroot⟩))
    omega
  · intro honce
    have hnodes : OrderedAll (sortKey readers) nodes := orderedAll_iff.mpr
      ⟨(pairwise_sortBy (sortKey readers) _).sublist hwalk.values, hwalk.ordered⟩
    refine ⟨nodes, hwalk.items, hnodes, hwalk.hangs, hrequests.trans ?_⟩
    by_cases hmem : rootIdOf resources ∈ entered
    · -- The group with the id of the root adds no requests, since none names the root.
      have hnone : requestsIn resources (rootIdOf resources) = [] := by
        rw [requestsIn, List.filter_eq_nil_iff]
        intro r hr hroot
        exact honce ⟨(hentered _).mp hmem, r, hr, of_decide_eq_true hroot⟩
      rw [hnone, List.nil_append]
      refine .of_eq (List.filter_congr fun r _ => decide_eq_decide.mpr ?_)
      rw [hhangs]
      exact ⟨Or.inr, fun h => h.elim (fun hroot => hroot ▸ hmem) id⟩
    · have hapart : ∀ r, decide (parentOf r = rootIdOf resources) = true →
          decide (parentOf r ∈ entered) = false := fun r hr =>
        decide_eq_false fun hin => hmem (of_decide_eq_true hr ▸ hin)
      refine (filter_or_perm hapart (requestsOf resources)).trans
        (.of_eq (List.filter_congr fun r _ => ?_))
      rw [Bool.eq_iff_iff, Bool.or_eq_true, decide_eq_true_eq, decide_eq_true_eq,
        decide_eq_true_eq, hhangs]

end

end Voleeo.Imports.Insomnia
