import Voleeo.Tree.Siblings

/-!
# The tree is complete

The four lists may hold links to folders that are gone, and cycles of folders. From
the root the recursion still ends, and it finds exactly what hangs there.
-/
namespace Voleeo.Tree

/-- What a node shows, without its children. -/
inductive Entry
  | folder (folder : ApiFolder)
  | request (request : HttpRequest)
  | webSocket (connection : WsConnection)
  | grpc (request : GrpcRequest)

def Entry.item : Entry → Item
  | .folder f => folderItem f
  | .request r => requestItem r
  | .webSocket c => connectionItem c
  | .grpc g => grpcItem g

def TreeNode.entry : TreeNode → Entry
  | .folder f _ => .folder f
  | .request r => .request r
  | .webSocket c => .webSocket c
  | .grpc g => .grpc g

/-- What stands in the four lists. -/
def RequestState.entries (s : RequestState) : List Entry :=
  s.folders.map .folder ++ s.requests.map .request ++ s.connections.map .webSocket ++
    s.grpcRequests.map .grpc

/-- The entries of a tree, each with the place it stands at. -/
def placed : Option String → List TreeNode → List (Option String × Entry)
  | _, [] => []
  | place, .folder f children :: rest =>
    (place, .folder f) :: (placed (some f.id) children ++ placed place rest)
  | place, n :: rest => (place, n.entry) :: placed place rest

/-- The lists of siblings of a tree. -/
inductive IsSiblings : List TreeNode → List TreeNode → Prop
  | top {nodes : List TreeNode} : IsSiblings nodes nodes
  | inside {f : ApiFolder} {children nodes sibs : List TreeNode} :
      .folder f children ∈ nodes → IsSiblings children sibs → IsSiblings nodes sibs

section
variable (dateParse : String → ℚ)

/-- The recursion of `buildTree`. It has no bound of its own: `none` when it is cut off. -/
def runBuildTree (s : RequestState) : ℕ → Option String → Option (List TreeNode)
  | 0, _ => none
  | depth + 1, parentId => do
      let folderNodes ← (s.folders.filter fun f => f.folderId = parentId).mapM fun folder => do
        let children ← runBuildTree s depth (some folder.id)
        return TreeNode.folder folder children
      let requestNodes := (s.requests.filter fun r => r.folderId = parentId).map TreeNode.request
      let connectionNodes :=
        (s.connections.filter fun c => c.folderId = parentId).map TreeNode.webSocket
      let grpcNodes := (s.grpcRequests.filter fun g => g.folderId = parentId).map TreeNode.grpc
      return sortBy (effectiveOrder dateParse)
        (folderNodes ++ requestNodes ++ connectionNodes ++ grpcNodes)

end

variable {dateParse : String → ℚ} {s : RequestState}

/-! ## Termination -/

theorem mapM_eq_some_map {α β : Type*} {f : α → Option β} {g : α → β} {xs : List α}
    (h : ∀ x ∈ xs, f x = some (g x)) : xs.mapM f = some (xs.map g) := by
  induction xs with
  | nil => rfl
  | cons x xs ih =>
    rw [List.mapM_cons, h x List.mem_cons_self, ih fun y hy => h y (List.mem_cons_of_mem x hy)]
    rfl

/-- Below a place that hangs at the root the recursion is no deeper than there are folders. -/
theorem runBuildTree_eq (hnodup : s.ids.Nodup) {place : Option String} {n fuel : ℕ}
    (hdepth : Depth s.parentOf place n) (hfuel : s.folders.length < fuel + n) :
    runBuildTree dateParse s fuel place = some (buildTree dateParse s fuel place) := by
  have hle := depth_le hdepth
  induction fuel generalizing place n with
  | zero => omega
  | succ fuel ih =>
    have hfolders : ((s.folders.filter fun f => f.folderId = place).mapM fun folder => do
        let children ← runBuildTree dateParse s fuel (some folder.id)
        return TreeNode.folder folder children) =
        some ((s.folders.filter fun f => f.folderId = place).map fun folder =>
          TreeNode.folder folder (buildTree dateParse s fuel (some folder.id))) := by
      refine mapM_eq_some_map fun f hf => ?_
      rw [List.mem_filter, decide_eq_true_eq] at hf
      have hchild : Depth s.parentOf (some f.id) (n + 1) :=
        .link (by rw [parentOf_folder hnodup hf.1, hf.2]) hdepth
      rw [ih hchild (by omega) (depth_le hchild)]
      rfl
    rw [runBuildTree, hfolders]
    rfl

/-! ## What is placed -/

/-- What stands under a node. -/
def TreeNode.inner : TreeNode → List (Option String × Entry)
  | .folder f children => placed (some f.id) children
  | _ => []

theorem placed_eq_flatMap (place : Option String) (nodes : List TreeNode) :
    placed place nodes = nodes.flatMap fun n => (place, n.entry) :: n.inner := by
  induction nodes with
  | nil => rw [placed, List.flatMap_nil]
  | cons n rest ih => cases n <;> simp [placed, TreeNode.entry, TreeNode.inner, ih]

/-- The siblings at a place are the entries that name it. -/
theorem entry_buildTree (fuel : ℕ) (place : Option String) :
    ((buildTree dateParse s (fuel + 1) place).map TreeNode.entry).Perm
      (s.entries.filter fun e => e.item.folderId = place) := by
  refine ((sortBy_perm _ _).map TreeNode.entry).trans (List.Perm.of_eq ?_)
  simp only [RequestState.entries, List.filter_append, List.filter_map, List.map_append,
    List.map_map]
  rfl

theorem map_item_entries : s.entries.map Entry.item = s.items := by
  simp only [RequestState.entries, RequestState.items, List.map_append, List.map_map]
  rfl

theorem nodup_entries (hnodup : s.ids.Nodup) : s.entries.Nodup := by
  rw [RequestState.ids, ← map_item_entries] at hnodup
  exact .of_map _ (.of_map _ hnodup)

theorem entry_eq_of_id (hnodup : s.ids.Nodup) {d e : Entry} (hd : d ∈ s.entries)
    (he : e ∈ s.entries) (hid : d.item.id = e.item.id) : d = e := by
  rw [RequestState.ids, ← map_item_entries, List.map_map] at hnodup
  exact List.inj_on_of_nodup_map hnodup hd he hid

theorem mem_entries_folder {f : ApiFolder} : Entry.folder f ∈ s.entries ↔ f ∈ s.folders := by
  simp [RequestState.entries]

theorem mem_placed {p : Option String} {e : Entry} {place : Option String}
    {nodes : List TreeNode} : (p, e) ∈ placed place nodes ↔
      (p = place ∧ e ∈ nodes.map TreeNode.entry) ∨
        ∃ f children, .folder f children ∈ nodes ∧ (p, e) ∈ placed (some f.id) children := by
  rw [placed_eq_flatMap, List.mem_flatMap]
  constructor
  · rintro ⟨n, hn, hmem⟩
    rcases List.mem_cons.mp hmem with heq | hmem
    · obtain ⟨rfl, rfl⟩ := Prod.mk.inj heq
      exact .inl ⟨rfl, List.mem_map_of_mem hn⟩
    · cases n with
      | folder f children => exact .inr ⟨f, children, hn, hmem⟩
      | _ => cases hmem
  · rintro (⟨rfl, he⟩ | ⟨f, children, hn, hmem⟩)
    · obtain ⟨n, hn, rfl⟩ := List.mem_map.mp he
      exact ⟨n, hn, List.mem_cons_self⟩
    · exact ⟨_, hn, List.mem_cons_of_mem _ hmem⟩

/-- A folder node of a place, and its children. -/
theorem folder_mem_buildTree {fuel : ℕ} {place : Option String} {f : ApiFolder}
    (hf : f ∈ s.folders) (hplace : f.folderId = place) :
    .folder f (buildTree dateParse s fuel (some f.id)) ∈ buildTree dateParse s (fuel + 1) place := by
  rw [buildTree, mem_sortBy]
  simp only [List.mem_append, List.mem_map, List.mem_filter, decide_eq_true_eq]
  exact .inl (.inl (.inl ⟨f, ⟨hf, hplace⟩, rfl⟩))

/-- An entry is placed under a folder exactly when its own chain passes there. -/
theorem mem_placed_buildTree (hnodup : s.ids.Nodup) {place : Option String} {n fuel : ℕ}
    (hdepth : Depth s.parentOf place n) (hfuel : s.folders.length < fuel + n)
    {p : Option String} {e : Entry} : (p, e) ∈ placed place (buildTree dateParse s fuel place) ↔
      e ∈ s.entries ∧ e.item.folderId = p ∧ Passes s.parentOf place p := by
  have hle := depth_le hdepth
  induction fuel generalizing place n with
  | zero => omega
  | succ fuel ih =>
    have hchild : ∀ {f : ApiFolder}, f ∈ s.folders → f.folderId = place →
        s.parentOf f.id = some place ∧ Depth s.parentOf (some f.id) (n + 1) := by
      intro f hf hplace
      have hparent : s.parentOf f.id = some place := by rw [parentOf_folder hnodup hf, hplace]
      exact ⟨hparent, .link hparent hdepth⟩
    rw [mem_placed, (entry_buildTree fuel place).mem_iff, List.mem_filter, decide_eq_true_eq,
      passes_iff]
    constructor
    · rintro (⟨rfl, he, hfolder⟩ | ⟨f, children, hf, hmem⟩)
      · exact ⟨he, hfolder, .inl rfl⟩
      · obtain ⟨hfolders, hplace, rfl⟩ := children_of_mem_buildTree hf
        obtain ⟨hparent, hdepth'⟩ := hchild hfolders hplace
        obtain ⟨he, hfolder, hpasses⟩ := (ih hdepth' (by omega) (depth_le hdepth')).mp hmem
        exact ⟨he, hfolder, .inr ⟨f.id, hparent, hpasses⟩⟩
    · rintro ⟨he, hfolder, rfl | ⟨k, hparent, hpasses⟩⟩
      · exact .inl ⟨rfl, he, hfolder⟩
      · obtain ⟨f, hf, rfl, hplace⟩ := parentOf_eq_some hparent
        have hdepth' := (hchild hf hplace).2
        exact .inr ⟨f, _, folder_mem_buildTree hf hplace,
          (ih hdepth' (by omega) (depth_le hdepth')).mpr ⟨he, hfolder, hpasses⟩⟩

/-- No entry is placed twice: one chain does not pass two folders of one place. -/
theorem nodup_placed_buildTree (hnodup : s.ids.Nodup) {place : Option String} {n fuel : ℕ}
    (hdepth : Depth s.parentOf place n) (hfuel : s.folders.length < fuel + n) :
    (placed place (buildTree dateParse s fuel place)).Nodup := by
  have hle := depth_le hdepth
  induction fuel generalizing place n with
  | zero => omega
  | succ fuel ih =>
    -- what stands under a node of this place hangs under its folder, one level deeper
    have hinner : ∀ m ∈ buildTree dateParse s (fuel + 1) place, m.inner.Nodup ∧
        ∀ x ∈ m.inner, ∃ f ∈ s.folders, m.entry = .folder f ∧
          Depth s.parentOf (some f.id) (n + 1) ∧ Passes s.parentOf (some f.id) x.1 := by
      intro m hm
      cases m with
      | folder f children =>
        obtain ⟨hf, hplace, rfl⟩ := children_of_mem_buildTree hm
        have hdepth' : Depth s.parentOf (some f.id) (n + 1) :=
          .link (by rw [parentOf_folder hnodup hf, hplace]) hdepth
        refine ⟨ih hdepth' (by omega) (depth_le hdepth'), fun x hx => ?_⟩
        have hx' := (mem_placed_buildTree hnodup hdepth' (by omega)).mp hx
        exact ⟨f, hf, rfl, hdepth', hx'.2.2⟩
      | _ => exact ⟨List.nodup_nil, by simp [TreeNode.inner]⟩
    have hentries : ((buildTree dateParse s (fuel + 1) place).map TreeNode.entry).Nodup :=
      (entry_buildTree fuel place).nodup_iff.mpr ((nodup_entries hnodup).filter _)
    have hdeeper : ∀ m ∈ buildTree dateParse s (fuel + 1) place, ∀ x ∈ m.inner, x.1 ≠ place := by
      rintro m hm x hx rfl
      obtain ⟨f, -, -, hdepth', hpasses⟩ := (hinner m hm).2 x hx
      obtain ⟨k, hk, hdepth''⟩ := hpasses.exists_depth hdepth'
      have := hdepth.unique hdepth''
      omega
    rw [placed_eq_flatMap, List.nodup_flatMap]
    refine ⟨fun m hm => List.nodup_cons.mpr ⟨fun hx => hdeeper m hm _ hx rfl, (hinner m hm).1⟩, ?_⟩
    rw [List.nodup_iff_pairwise_ne, List.pairwise_map] at hentries
    refine List.Pairwise.imp_of_mem (fun {a b} ha hb hne => ?_) hentries
    rintro x hxa hxb
    rcases List.mem_cons.mp hxa with rfl | hxa
    · rcases List.mem_cons.mp hxb with heq | hxb
      · exact hne (Prod.mk.inj heq).2
      · exact hdeeper b hb _ hxb rfl
    · rcases List.mem_cons.mp hxb with rfl | hxb
      · exact hdeeper a ha _ hxa rfl
      · obtain ⟨f, hf, hfa, hfdepth, hfpasses⟩ := (hinner a ha).2 x hxa
        obtain ⟨g, hg, hgb, hgdepth, hgpasses⟩ := (hinner b hb).2 x hxb
        have hid := Option.some.inj (hfpasses.unique hgpasses hfdepth hgdepth)
        refine hne (hfa.trans (.trans ?_ hgb.symm))
        exact entry_eq_of_id hnodup (mem_entries_folder.mpr hf) (mem_entries_folder.mpr hg) hid

/-! ## Sorted siblings -/

/-- Every list of siblings of the tree is one `buildTree` has sorted. -/
theorem pairwise_siblings {fuel : ℕ} {place : Option String} {sibs : List TreeNode}
    (h : IsSiblings (buildTree dateParse s fuel place) sibs) :
    sibs.Pairwise fun a b => effectiveOrder dateParse a ≤ effectiveOrder dateParse b := by
  induction fuel generalizing place with
  | zero =>
    rw [buildTree] at h
    cases h with
    | top => exact .nil
    | inside hmem _ => cases hmem
  | succ fuel ih =>
    cases h with
    | top => exact pairwise_sortBy (effectiveOrder dateParse) _
    | inside hmem hsibs =>
      obtain ⟨-, -, rfl⟩ := children_of_mem_buildTree hmem
      exact ih hsibs

/-- From the root the recursion ends. The tree holds the entries whose chain of folders ends at
the root, each once and at the place it names, and its siblings are sorted. -/
theorem buildTree_complete (dateParse : String → ℚ) (s : RequestState) (hnodup : s.ids.Nodup) :
    ∃ depth nodes, (∀ depth' ≥ depth, runBuildTree dateParse s depth' none = some nodes) ∧
      ((placed none nodes).map Prod.snd).Nodup ∧
      (∀ place e, (place, e) ∈ placed none nodes ↔
        e ∈ s.entries ∧ e.item.folderId = place ∧ Rooted s.parentOf place) ∧
      ∀ sibs, IsSiblings nodes sibs →
        sibs.Pairwise fun a b => effectiveOrder dateParse a ≤ effectiveOrder dateParse b := by
  refine ⟨s.folders.length + 1, tree dateParse s, ?_, ?_, ?_, fun sibs => pairwise_siblings⟩
  · intro depth' hdepth
    rw [runBuildTree_eq hnodup .root (by omega), tree]
    exact congrArg some (fuel_irrelevant hnodup .root (by omega) (by omega))
  · refine List.Nodup.map_on ?_ (nodup_placed_buildTree hnodup .root (by omega))
    rintro ⟨p, d⟩ hp ⟨q, e⟩ hq heq
    obtain rfl : d = e := heq
    obtain ⟨-, hp, -⟩ := (mem_placed_buildTree hnodup .root (by omega)).mp hp
    obtain ⟨-, hq, -⟩ := (mem_placed_buildTree hnodup .root (by omega)).mp hq
    rw [← hp, ← hq]
  · intro place e
    rw [tree, mem_placed_buildTree hnodup .root (by omega), passes_root_iff]

def folderAt (id : String) (folderId : Option String) : ApiFolder where
  id := id
  folderType := "api"
  model := "folder"
  workspaceId := "ws_1"
  folderId := folderId
  name := "Folder"
  headers := []
  auth := .none
  «variables» := []
  color := none
  order := 0
  createdAt := "1970-01-01T00:00:00.000Z"
  updatedAt := "1970-01-01T00:00:00.000Z"

/-- A folder with a request, and one that is its own parent. -/
def loopedState : RequestState where
  folders := [folderAt "f1" none, folderAt "f2" (some "f2")]
  requests := [{ HttpRequest.blank with folderId := some "f1", order := 2 }]
  connections := []
  grpcRequests := []

theorem buildTree_complete_looped :
    ∃ depth nodes,
      (∀ depth' ≥ depth, runBuildTree (fun _ => 0) loopedState depth' none = some nodes) ∧
      ((placed none nodes).map Prod.snd).Nodup ∧
      (∀ place e, (place, e) ∈ placed none nodes ↔ e ∈ loopedState.entries ∧
        e.item.folderId = place ∧ Rooted loopedState.parentOf place) ∧
      ∀ sibs, IsSiblings nodes sibs →
        sibs.Pairwise fun a b => effectiveOrder (fun _ => 0) a ≤ effectiveOrder (fun _ => 0) b :=
  buildTree_complete (fun _ => 0) loopedState (by decide)

end Voleeo.Tree
