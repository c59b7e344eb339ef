import Voleeo.Imports.PreviewTree
import Voleeo.Postman.ImportedAuth
import Voleeo.StableSort

/-!
# The tree in a plan

A plan is flat: its folders and requests name the folder that they are in and carry a running
number. Grouped by folder and sorted by number they are the items that were planned.
-/
namespace Voleeo.Imports
open Postman

abbrev Placed := ApiFolder ⊕ HttpRequest

def placedParent : Placed → Option String
  | .inl folder => folder.folderId
  | .inr request => request.folderId

def placedOrder : Placed → ℚ
  | .inl folder => folder.order
  | .inr request => request.order

/-- What a plan has in a folder, in the order in which it is shown. -/
def childrenOf (plan : ConvertedPlan) (parent : Option String) : List Placed :=
  sortBy placedOrder ((plan.folders.filter (·.folderId = parent)).map .inl ++
    (plan.requests.filter (·.folderId = parent)).map .inr)

section
variable (source : Source) (ws : String) (base : ℚ)

/-- The folder or request is what an item was converted to, somewhere in the tree. -/
def IsConverted : ImportedItem → Placed → Prop
  | .folder f _, .inl folder =>
    ∃ parent plan, folder = convertFolder source ws base f parent plan
  | .request r, .inr request =>
    ∃ parent plan, request = convertRequest source ws base r parent plan
  | _, _ => False

mutual

/-- The item stands in the tree with all that is in it, and nothing else is in it. -/
def Rebuilds (children : Option String → List Placed) : ImportedItem → Placed → Prop
  | .folder f items, .inl folder =>
    IsConverted source ws base (.folder f items) (.inl folder) ∧
      RebuildsAll children items (children (some folder.id))
  | item, placed => IsConverted source ws base item placed

def RebuildsAll (children : Option String → List Placed) :
    List ImportedItem → List Placed → Prop
  | [], placed => placed = []
  | item :: rest, placed =>
    ∃ first others, placed = first :: others ∧ Rebuilds children item first ∧
      RebuildsAll children rest others

end

/-! ## What a conversion adds -/

def folderPlan (f : ImportedFolder) (parent : Option String) (plan : Plan) : Plan :=
  { plan with
    folders := plan.folders ++ [convertFolder source ws base f parent plan]
    counter := plan.counter + 1
    drawn := plan.drawn + 1 + f.headers.length }

theorem drawn_folderPlan (f : ImportedFolder) (parent : Option String) (plan : Plan) :
    (folderPlan source ws base f parent plan).drawn = plan.drawn + 1 + f.headers.length := rfl

mutual

/-- What is added for an item, in the order in which it is numbered. -/
def itemTrace (parent : Option String) : ImportedItem → Plan → List Placed
  | .folder f items, plan =>
    .inl (convertFolder source ws base f parent plan) ::
      itemsTrace (some (source.newId plan.drawn)) items (folderPlan source ws base f parent plan)
  | .request r, plan => [.inr (convertRequest source ws base r parent plan)]

def itemsTrace (parent : Option String) : List ImportedItem → Plan → List Placed
  | [], _ => []
  | item :: rest, plan =>
    itemTrace parent item plan ++
      itemsTrace parent rest (convertItem source ws base parent item plan)

end

theorem convertItem_folder (parent : Option String) (f : ImportedFolder)
    (items : List ImportedItem) (plan : Plan) :
    convertItem source ws base parent (.folder f items) plan =
      convertItems source ws base (some (source.newId plan.drawn)) items
        (folderPlan source ws base f parent plan) := by
  rw [convertItem]
  rfl

end

variable {source : Source} {ws : String} {base : ℚ}

/-- The plan has grown by these folders and requests. -/
structure Grows (base : ℚ) (plan plan' : Plan) (trace : List Placed) : Prop where
  folders : plan'.folders = plan.folders ++ trace.filterMap Sum.getLeft?
  requests : plan'.requests = plan.requests ++ trace.filterMap Sum.getRight?
  counter : plan'.counter = plan.counter + trace.length
  drawn : plan.drawn ≤ plan'.drawn
  orders : trace.map placedOrder =
    (List.range' plan.counter trace.length).map fun n : ℕ => base + (n : ℚ)

theorem Grows.append {plan plan' plan'' : Plan} {trace trace' : List Placed}
    (h : Grows base plan plan' trace) (h' : Grows base plan' plan'' trace') :
    Grows base plan plan'' (trace ++ trace') := by
  refine ⟨?_, ?_, ?_, h.drawn.trans h'.drawn, ?_⟩
  · rw [h'.folders, h.folders, List.filterMap_append, List.append_assoc]
  · rw [h'.requests, h.requests, List.filterMap_append, List.append_assoc]
  · rw [h'.counter, h.counter, List.length_append, Nat.add_assoc]
  · rw [List.map_append, h.orders, h'.orders, h.counter, ← List.map_append, List.length_append,
      ← List.range'_append_1]

mutual

theorem grows_convertItem (parent : Option String) : ∀ (item : ImportedItem) (plan : Plan),
    Grows base plan (convertItem source ws base parent item plan)
      (itemTrace source ws base parent item plan)
  | .folder f items, plan => by
      have hstep : Grows base plan (folderPlan source ws base f parent plan)
          [.inl (convertFolder source ws base f parent plan)] :=
        ⟨rfl, (List.append_nil _).symm, rfl, by rw [folderPlan]; simp only; omega, rfl⟩
      rw [convertItem_folder, itemTrace]
      exact hstep.append (grows_convertItems _ items _)
  | .request r, plan => by
      rw [convertItem, itemTrace]
      exact ⟨(List.append_nil _).symm, rfl, rfl, by simp only; omega, rfl⟩

theorem grows_convertItems (parent : Option String) :
    ∀ (items : List ImportedItem) (plan : Plan),
      Grows base plan (convertItems source ws base parent items plan)
        (itemsTrace source ws base parent items plan)
  | [], plan => ⟨(List.append_nil _).symm, (List.append_nil _).symm, rfl, le_rfl, rfl⟩
  | item :: rest, plan => by
      rw [convertItems, itemsTrace]
      exact (grows_convertItem parent item plan).append (grows_convertItems parent rest _)

end

/-! ## Parents -/

/-- Drawn between two plans. -/
def IsNewId (source : Source) (plan plan' : Plan) (parent : Option String) : Prop :=
  ∃ k, plan.drawn ≤ k ∧ k < plan'.drawn ∧ parent = some (source.newId k)

mutual

/-- What an item becomes is in the folder of the item, or in one that the item has drawn. -/
theorem parent_of_mem_itemTrace (parent : Option String) :
    ∀ (item : ImportedItem) (plan : Plan), ∀ x ∈ itemTrace source ws base parent item plan,
      placedParent x = parent ∨
        IsNewId source plan (convertItem source ws base parent item plan) (placedParent x)
  | .folder f items, plan, x, hx => by
      rw [itemTrace, List.mem_cons] at hx
      obtain rfl | hx := hx
      · exact Or.inl rfl
      · right
        rw [convertItem_folder]
        have hgrows := @grows_convertItems source ws base
          (some (source.newId plan.drawn)) items (folderPlan source ws base f parent plan)
        have hdrawn := hgrows.drawn
        rw [drawn_folderPlan] at hdrawn
        obtain hself | ⟨k, hk, hk', heq⟩ := parent_of_mem_itemsTrace _ items _ x hx
        · exact ⟨plan.drawn, le_rfl, by omega, hself⟩
        · rw [drawn_folderPlan] at hk
          exact ⟨k, by omega, hk', heq⟩
  | .request r, plan, x, hx => by
      rw [itemTrace, List.mem_singleton] at hx
      rw [hx]
      exact Or.inl rfl

theorem parent_of_mem_itemsTrace (parent : Option String) :
    ∀ (items : List ImportedItem) (plan : Plan), ∀ x ∈ itemsTrace source ws base parent items plan,
      placedParent x = parent ∨
        IsNewId source plan (convertItems source ws base parent items plan) (placedParent x)
  | [], _, x, hx => absurd hx List.not_mem_nil
  | item :: rest, plan, x, hx => by
      have hfirst := (@grows_convertItem source ws base parent item plan).drawn
      have hothers := (@grows_convertItems source ws base parent rest
        (convertItem source ws base parent item plan)).drawn
      rw [itemsTrace, List.mem_append] at hx
      rw [convertItems]
      obtain hx | hx := hx
      · obtain hparent | ⟨k, hk, hk', heq⟩ := parent_of_mem_itemTrace parent item plan x hx
        · exact Or.inl hparent
        · exact Or.inr ⟨k, hk, by omega, heq⟩
      · obtain hparent | ⟨k, hk, hk', heq⟩ := parent_of_mem_itemsTrace parent rest _ x hx
        · exact Or.inl hparent
        · exact Or.inr ⟨k, by omega, hk', heq⟩

end

def inFolder (parent : Option String) (trace : List Placed) : List Placed :=
  trace.filter (placedParent · = parent)

theorem inFolder_cons_pos {parent : Option String} {x : Placed} (trace : List Placed)
    (h : placedParent x = parent) : inFolder parent (x :: trace) = x :: inFolder parent trace :=
  List.filter_cons_of_pos (by simpa using h)

theorem inFolder_cons_neg {parent : Option String} {x : Placed} (trace : List Placed)
    (h : placedParent x ≠ parent) : inFolder parent (x :: trace) = inFolder parent trace :=
  List.filter_cons_of_neg (by simpa using h)

theorem inFolder_append (parent : Option String) (trace trace' : List Placed) :
    inFolder parent (trace ++ trace') = inFolder parent trace ++ inFolder parent trace' :=
  List.filter_append ..

/-- An id from before the folder of these items was drawn, or from after them, is no parent. -/
theorem inFolder_eq_nil {trace : List Placed} {plan plan' : Plan} {parent : Option String}
    (hinj : Function.Injective source.newId)
    (htrace : ∀ x ∈ trace, placedParent x = parent ∨ IsNewId source plan plan' (placedParent x))
    {k : ℕ} (hparent : parent ≠ some (source.newId k))
    (hk : k < plan.drawn ∨ plan'.drawn ≤ k) : inFolder (some (source.newId k)) trace = [] := by
  rw [inFolder, List.filter_eq_nil_iff]
  intro x hx
  rw [decide_eq_true_eq]
  intro heq
  obtain hself | ⟨k', hk', hk'', hnew⟩ := htrace x hx
  · exact hparent (hself.symm.trans heq)
  · have hsame : k' = k := hinj (Option.some.inj (hnew.symm.trans heq))
    omega

/-! ## The tree comes back -/

section
variable (hinj : Function.Injective source.newId) (children : Option String → List Placed)
include hinj

mutual

theorem rebuilds_item (parent : Option String) : ∀ (item : ImportedItem) (plan : Plan),
    (∀ k, plan.drawn ≤ k → parent ≠ some (source.newId k)) →
    (∀ k, plan.drawn ≤ k → k < (convertItem source ws base parent item plan).drawn →
      children (some (source.newId k)) =
        inFolder (some (source.newId k)) (itemTrace source ws base parent item plan)) →
    ∃ x, inFolder parent (itemTrace source ws base parent item plan) = [x] ∧
      Rebuilds source ws base children item x
  | .folder f items, plan, hparent, hchildren => by
      rw [convertItem_folder] at hchildren
      have htrace := @parent_of_mem_itemsTrace source ws base
        (some (source.newId plan.drawn)) items (folderPlan source ws base f parent plan)
      have hgrows := (@grows_convertItems source ws base
        (some (source.newId plan.drawn)) items (folderPlan source ws base f parent plan)).drawn
      have hplan := drawn_folderPlan source ws base f parent plan
      -- The folder itself is in no folder that is drawn from here on.
      have hother : ∀ k, plan.drawn ≤ k → inFolder (some (source.newId k))
          (itemTrace source ws base parent (.folder f items) plan) =
          inFolder (some (source.newId k)) (itemsTrace source ws base
            (some (source.newId plan.drawn)) items (folderPlan source ws base f parent plan)) := by
        intro k hk
        rw [itemTrace]
        exact inFolder_cons_neg _ (hparent k hk)
      refine ⟨.inl (convertFolder source ws base f parent plan), ?_, ⟨parent, plan, rfl⟩, ?_⟩
      · rw [itemTrace]
        refine (inFolder_cons_pos _ rfl).trans (congrArg _ (List.filter_eq_nil_iff.mpr ?_))
        intro x hx
        rw [decide_eq_true_eq]
        intro heq
        obtain hself | ⟨k, hk, -, hnew⟩ := htrace x hx
        · exact hparent plan.drawn le_rfl (heq.symm.trans hself)
        · exact hparent k (by omega) (heq.symm.trans hnew)
      · have hid : (convertFolder source ws base f parent plan).id = source.newId plan.drawn := rfl
        rw [hid, hchildren plan.drawn le_rfl (by omega), hother plan.drawn le_rfl]
        refine rebuildsAll_items _ items _ ?_ ?_
        · intro k hk heq
          have hsame : plan.drawn = k := hinj (Option.some.inj heq)
          omega
        · intro k hk hk'
          rw [hchildren k (by omega) hk', hother k (by omega)]
  | .request r, plan, hparent, hchildren => by
      refine ⟨.inr (convertRequest source ws base r parent plan), ?_, parent, plan, rfl⟩
      rw [itemTrace]
      exact inFolder_cons_pos [] rfl

theorem rebuildsAll_items (parent : Option String) : ∀ (items : List ImportedItem) (plan : Plan),
    (∀ k, plan.drawn ≤ k → parent ≠ some (source.newId k)) →
    (∀ k, plan.drawn ≤ k → k < (convertItems source ws base parent items plan).drawn →
      children (some (source.newId k)) =
        inFolder (some (source.newId k)) (itemsTrace source ws base parent items plan)) →
    RebuildsAll source ws base children items
      (inFolder parent (itemsTrace source ws base parent items plan))
  | [], plan, hparent, hchildren => rfl
  | item :: rest, plan, hparent, hchildren => by
      rw [convertItems] at hchildren
      have hfirst := @parent_of_mem_itemTrace source ws base parent item plan
      have hothers := @parent_of_mem_itemsTrace source ws base parent
        rest (convertItem source ws base parent item plan)
      have hdrawn := (@grows_convertItem source ws base parent item plan).drawn
      have hdrawn' := (@grows_convertItems source ws base parent rest
        (convertItem source ws base parent item plan)).drawn
      simp only [itemsTrace, inFolder_append] at hchildren ⊢
      obtain ⟨x, hx, hrebuilds⟩ := rebuilds_item parent item plan hparent (by
        intro k hk hk'
        rw [hchildren k hk (by omega), inFolder_eq_nil hinj hothers (hparent k hk)
          (Or.inl hk'), List.append_nil])
      refine ⟨x, _, by rw [hx]; rfl, hrebuilds, rebuildsAll_items parent rest _ ?_ ?_⟩
      · exact fun k hk => hparent k (by omega)
      · intro k hk hk'
        rw [hchildren k (by omega) hk', inFolder_eq_nil hinj hfirst (hparent k (by omega))
          (Or.inr hk), List.nil_append]

end

end

/-! ## Grouping a plan -/

theorem perm_of_sides (p : Placed → Bool) (trace : List Placed) :
    (trace.filter p).Perm
      (((trace.filterMap Sum.getLeft?).filter (p ∘ .inl)).map .inl ++
        ((trace.filterMap Sum.getRight?).filter (p ∘ .inr)).map .inr) := by
  induction trace with
  | nil => exact List.Perm.refl _
  | cons x trace ih =>
    obtain folder | request := x
    · have hleft : (Sum.inl folder :: trace).filterMap Sum.getLeft? =
          folder :: trace.filterMap Sum.getLeft? := rfl
      have hright : (Sum.inl folder :: trace).filterMap Sum.getRight? =
          trace.filterMap Sum.getRight? := rfl
      rw [hleft, hright]
      by_cases hp : p (.inl folder)
      · rw [List.filter_cons_of_pos hp, List.filter_cons_of_pos (p := p ∘ .inl) hp]
        exact ih.cons _
      · rw [List.filter_cons_of_neg hp, List.filter_cons_of_neg (p := p ∘ .inl) hp]
        exact ih
    · have hleft : (Sum.inr request :: trace).filterMap Sum.getLeft? =
          trace.filterMap Sum.getLeft? := rfl
      have hright : (Sum.inr request :: trace).filterMap Sum.getRight? =
          request :: trace.filterMap Sum.getRight? := rfl
      rw [hleft, hright]
      by_cases hp : p (.inr request)
      · rw [List.filter_cons_of_pos hp, List.filter_cons_of_pos (p := p ∘ .inr) hp]
        exact (ih.cons _).trans List.perm_middle.symm
      · rw [List.filter_cons_of_neg hp, List.filter_cons_of_neg (p := p ∘ .inr) hp]
        exact ih

/-- The numbers grow along the trace. -/
theorem pairwise_order {trace : List Placed} {n : ℕ}
    (h : trace.map placedOrder = (List.range' n trace.length).map fun k : ℕ => base + (k : ℚ)) :
    trace.Pairwise fun x y => placedOrder x < placedOrder y := by
  rw [← List.pairwise_map (f := placedOrder) (R := (· < ·)), h, List.pairwise_map]
  refine (List.pairwise_lt_range' ..).imp ?_
  intro i j hij
  simpa using hij

/-- The plan of a collection, as one list. -/
def planTrace (source : Source) (ws : String) (base : ℚ) (col : ImportedCollection) :
    List Placed :=
  itemsTrace source ws base none col.items ⟨[], [], 0, 0⟩

theorem childrenOf_buildPlan (col : ImportedCollection) (parent : Option String) :
    childrenOf (buildPlan source ws base col) parent =
      inFolder parent (planTrace source ws base col) := by
  have hgrows := @grows_convertItems source ws base none col.items ⟨[], [], 0, 0⟩
  have hfolders : (buildPlan source ws base col).folders =
      (planTrace source ws base col).filterMap Sum.getLeft? := hgrows.folders
  have hrequests : (buildPlan source ws base col).requests =
      (planTrace source ws base col).filterMap Sum.getRight? := hgrows.requests
  rw [childrenOf, hfolders, hrequests]
  exact sortBy_eq_of_strict (perm_of_sides (placedParent · = parent) _)
    ((pairwise_order hgrows.orders).filter _)

/-- Grouped by folder and sorted by order, a plan is the items again. -/
theorem rebuildsAll_buildPlan (hinj : Function.Injective source.newId) (ws : String) (base : ℚ)
    (col : ImportedCollection) :
    RebuildsAll source ws base (childrenOf (buildPlan source ws base col)) col.items
      (childrenOf (buildPlan source ws base col) none) := by
  rw [childrenOf_buildPlan]
  refine rebuildsAll_items hinj _ none col.items _ ?_ ?_
  · intro k hk heq
    cases heq
  · intro k hk hk'
    rw [childrenOf_buildPlan, planTrace]

/-! ## Nothing besides the tree -/

mutual

def itemFolders : ImportedItem → ℕ
  | .folder _ items => foldersIn items + 1
  | .request _ => 0

def foldersIn : List ImportedItem → ℕ
  | [] => 0
  | item :: rest => itemFolders item + foldersIn rest

end

mutual

theorem counts_itemTrace (parent : Option String) : ∀ (item : ImportedItem) (plan : Plan),
    ((itemTrace source ws base parent item plan).filterMap Sum.getLeft?).length = itemFolders item ∧
      ((itemTrace source ws base parent item plan).filterMap Sum.getRight?).length =
        (itemLeaves item).length
  | .folder f items, plan => by
      obtain ⟨hfolders, hrequests⟩ := counts_itemsTrace (some (source.newId plan.drawn)) items
        (folderPlan source ws base f parent plan)
      rw [itemTrace, itemFolders, itemLeaves, List.length_map, ← hfolders, ← hrequests]
      exact ⟨rfl, rfl⟩
  | .request r, plan => ⟨rfl, rfl⟩

theorem counts_itemsTrace (parent : Option String) :
    ∀ (items : List ImportedItem) (plan : Plan),
      ((itemsTrace source ws base parent items plan).filterMap Sum.getLeft?).length =
          foldersIn items ∧
        ((itemsTrace source ws base parent items plan).filterMap Sum.getRight?).length =
          (leaves items).length
  | [], _ => ⟨rfl, rfl⟩
  | item :: rest, plan => by
      obtain ⟨hfolders, hrequests⟩ := counts_itemTrace parent item plan
      obtain ⟨hfolders', hrequests'⟩ := counts_itemsTrace parent rest
        (convertItem source ws base parent item plan)
      rw [itemsTrace, List.filterMap_append, List.filterMap_append, List.length_append,
        List.length_append, foldersIn, leaves_cons, List.length_append, hfolders, hrequests,
        hfolders', hrequests']
      exact ⟨rfl, rfl⟩

end

/-- The plan has as many folders and requests as the items. -/
theorem counts_buildPlan (source : Source) (ws : String) (base : ℚ) (col : ImportedCollection) :
    (buildPlan source ws base col).folders.length = foldersIn col.items ∧
      (buildPlan source ws base col).requests.length = (leaves col.items).length := by
  have hgrows := @grows_convertItems source ws base none col.items ⟨[], [], 0, 0⟩
  obtain ⟨hfolders, hrequests⟩ := @counts_itemsTrace source ws base none col.items ⟨[], [], 0, 0⟩
  exact ⟨(congrArg List.length hgrows.folders).trans hfolders,
    (congrArg List.length hgrows.requests).trans hrequests⟩

/-! ## Choice and plan -/

/-- The choice keeps the requests whose ids are selected, in order and in their folders. -/
structure KeepsSelected (items : List ImportedItem) (selected : List String) : Prop where
  pruned : Pruned items (filterItems items selected)
  numbered : (requestIds (previewNodes items)).length = (leaves items).length
  kept : leaves (filterItems items selected) =
    chosen selected ((leaves items).zip (requestIds (previewNodes items)))

/-- The plan has the folders and requests of the items and no others, and its links and orders
give the tree of the items. -/
structure ReproducesTree (source : Source) (ws : String) (base : ℚ) (col : ImportedCollection) :
    Prop where
  folders : (buildPlan source ws base col).folders.length = foldersIn col.items
  requests : (buildPlan source ws base col).requests.length = (leaves col.items).length
  tree : RebuildsAll source ws base (childrenOf (buildPlan source ws base col)) col.items
    (childrenOf (buildPlan source ws base col) none)

theorem choice_and_plan_faithful (source : Source) (hinj : Function.Injective source.newId)
    (ws : String) (base : ℚ) (col : ImportedCollection) (selected : List String) :
    KeepsSelected col.items selected ∧
      filterItems col.items (previewIds (previewNodes col.items)) = col.items ∧
      (previewIds (previewNodes col.items)).Nodup ∧ ReproducesTree source ws base col := by
  refine ⟨⟨?_, ?_, ?_⟩, ?_, ?_, ?_⟩
  · exact pruned_filterInner selected "" 0 col.items
  · exact length_requestIds "" 0 col.items
  · exact leaves_filterInner selected "" 0 col.items
  · exact filterInner_all "" 0 col.items fun row hrow => List.mem_map_of_mem hrow
  · exact nodup_rowsOf "" 0 col.items
  · obtain ⟨hfolders, hrequests⟩ := counts_buildPlan source ws base col
    exact ⟨hfolders, hrequests, rebuildsAll_buildPlan hinj ws base col⟩

/-- A request beside a folder that holds another one. -/
def twoRequests : ImportedCollection where
  name := "pets"
  version := none
  «variables» := []
  rootAuth := .none
  items := [.request { name := "list", method := "GET" },
    .folder (pathFolder "pet") [.request { name := "add", method := "POST" }]]
  warnings := []

theorem twoRequests_faithful :
    KeepsSelected twoRequests.items ["1.0"] ∧
      filterItems twoRequests.items (previewIds (previewNodes twoRequests.items)) =
        twoRequests.items ∧
      (previewIds (previewNodes twoRequests.items)).Nodup ∧
      ReproducesTree tally "ws" 0 twoRequests :=
  choice_and_plan_faithful tally injective_tally "ws" 0 twoRequests ["1.0"]

end Voleeo.Imports
