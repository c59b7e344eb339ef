import Mathlib.Data.List.Perm.Basic
import Voleeo.Imports.Bundle
import Voleeo.Imports.PreviewTree
import Voleeo.Tree.Completeness

/-!
# The preview of a bundle

Before a bundle is imported its workspaces are shown as trees. The rows are grouped by the folders
they name, and the recursion from the root takes out the group of each folder that it reaches.
What names a missing folder is in no group that is ever taken out, while the import puts it at the
root.
-/
namespace Voleeo.Imports
open Voleeo.Tree (RequestState Item ItemKind buildTree placed)

/-! ## The tree of the preview -/

/-- A row that has no rows below it, with its order. -/
def leafNode (order : ℚ) (id name method path : String) : ℚ × ImportNode :=
  (order, { id, kind := "request", name, method := some method, path := some path
            description := none, children := [] })

def folderNode (f : ApiFolder) (children : List ImportNode) : ImportNode :=
  { id := f.id, kind := "folder", name := f.name, method := none, path := none
    description := none, children }

def grpcPath (g : GrpcRequest) : String :=
  match g.service, g.method with
  | none, _ => ""
  | some s, some m => s ++ "/" ++ m
  | some s, none => s

def requestLeaf (r : HttpRequest) : ℚ × ImportNode := leafNode r.order r.id r.name r.method r.url
def connectionLeaf (w : WsConnection) : ℚ × ImportNode := leafNode w.order w.id w.name "WS" w.url
def grpcLeaf (g : GrpcRequest) : ℚ × ImportNode := leafNode g.order g.id g.name "GRPC" (grpcPath g)

/-- The rows that have not been taken out, under the folders they name. -/
abbrev Leaves := Option String → List (ℚ × ImportNode)

def Leaves.push (leaves : Leaves) (place : Option String) (leaf : ℚ × ImportNode) : Leaves :=
  Function.update leaves place (leaves place ++ [leaf])

def leavesOf (vw : VoleeoWorkspace) : Leaves :=
  let leaves : Leaves := vw.requests.foldl
    (fun leaves r => leaves.push r.folderId (requestLeaf r)) fun _ => []
  let leaves := vw.websockets.foldl
    (fun leaves w => Leaves.push leaves w.folderId (connectionLeaf w)) leaves
  vw.grpc.foldl (fun leaves g => Leaves.push leaves g.folderId (grpcLeaf g)) leaves

/-- One more folder with the rows below it, where `visit` finds the rows of a place. -/
def visitFolder (visit : Option String → Leaves → Option (List ImportNode × Leaves))
    (state : List (ℚ × ImportNode) × Leaves) (f : ApiFolder) :
    Option (List (ℚ × ImportNode) × Leaves) := do
  let (children, leaves) ← visit (some f.id) state.2
  return (state.1 ++ [(f.order, folderNode f children)], leaves)

/-- The rows of a place, and the leaves that are left behind. The recursion has no bound of its
own: `none` when it is cut off. -/
def folderNodes (folders : List ApiFolder) :
    ℕ → Option String → Leaves → Option (List ImportNode × Leaves)
  | 0, _, _ => none
  | depth + 1, parent, leaves => do
      let (out, leaves) ← (folders.filter fun f => f.folderId = parent).foldlM
        (visitFolder (folderNodes folders depth)) ([], leaves)
      let out := out ++ leaves parent
      return ((sortBy Prod.fst out).map Prod.snd, Function.update leaves parent [])

def bundleTree (vw : VoleeoWorkspace) (depth : ℕ) : Option (List ImportNode) :=
  (folderNodes vw.folders depth none (leavesOf vw)).map Prod.fst

/-- `request_count`, as a number of 32 bits. -/
def requestCount (vw : VoleeoWorkspace) : ℕ :=
  (vw.requests.length + vw.websockets.length + vw.grpc.length) % 2 ^ 32

/-! ## The leaves -/

/-- All leaves with the folders they name, in the order of the document. -/
def allLeaves (vw : VoleeoWorkspace) : List (Option String × (ℚ × ImportNode)) :=
  vw.requests.map (fun r => (r.folderId, requestLeaf r)) ++
    vw.websockets.map (fun w => (w.folderId, connectionLeaf w)) ++
    vw.grpc.map (fun g => (g.folderId, grpcLeaf g))

theorem push_foldl {α : Type} (place : α → Option String) (leaf : α → ℚ × ImportNode)
    (xs : List α) (leaves : Leaves) (p : Option String) :
    xs.foldl (fun leaves x => Leaves.push leaves (place x) (leaf x)) leaves p =
      leaves p ++ ((xs.map fun x => (place x, leaf x)).filter (·.1 = p)).map Prod.snd := by
  induction xs generalizing leaves with
  | nil => simp
  | cons x xs ih =>
    rw [List.foldl_cons, ih, Leaves.push, List.map_cons]
    by_cases hp : place x = p
    · subst hp
      rw [Function.update_self, List.filter_cons_of_pos (by simp), List.map_cons,
        List.append_assoc, List.singleton_append]
    · rw [Function.update_of_ne (Ne.symm hp), List.filter_cons_of_neg (by simpa using hp)]

theorem leavesOf_eq (vw : VoleeoWorkspace) (p : Option String) :
    leavesOf vw p = ((allLeaves vw).filter (·.1 = p)).map Prod.snd := by
  rw [leavesOf, push_foldl, push_foldl, push_foldl]
  simp only [allLeaves, List.filter_append, List.map_append, List.nil_append]

/-! ## The recursion -/

/-- The rows of a place when no leaf is ever taken out. -/
def nodesUnder (folders : List ApiFolder) (leaves : Leaves) :
    ℕ → Option String → List ImportNode
  | 0, _ => []
  | fuel + 1, place =>
    (sortBy Prod.fst ((folders.filter fun f => f.folderId = place).map (fun f =>
      (f.order, folderNode f (nodesUnder folders leaves fuel (some f.id)))) ++
        leaves place)).map Prod.snd

/-- Folders that are visited in turn do not get into each other's way when what lies under one
does not lie under another. -/
theorem foldlM_folders (visit : Option String → Leaves → Option (List ImportNode × Leaves))
    (children : ApiFolder → List ImportNode) (under : ApiFolder → Option String → Prop)
    (all : Leaves) {fs : List ApiFolder}
    (hvisit : ∀ f ∈ fs, ∀ leaves : Leaves, (∀ p, under f p → leaves p = all p) →
      ∃ rest, visit (some f.id) leaves = some (children f, rest) ∧ ∀ p, ¬ under f p → rest p = leaves p)
    (hapart : fs.Pairwise fun f g => ∀ p, under g p → ¬ under f p)
    (out : List (ℚ × ImportNode)) (leaves : Leaves)
    (hleaves : ∀ f ∈ fs, ∀ p, under f p → leaves p = all p) :
    ∃ rest, fs.foldlM (visitFolder visit) (out, leaves) =
          some (out ++ fs.map (fun f => (f.order, folderNode f (children f))), rest) ∧
      ∀ p, (∀ f ∈ fs, ¬ under f p) → rest p = leaves p := by
  induction fs generalizing out leaves with
  | nil => exact ⟨leaves, by simp, fun _ _ => rfl⟩
  | cons f fs ih =>
    rw [List.forall_mem_cons] at hvisit hleaves
    rw [List.pairwise_cons] at hapart
    obtain ⟨rest, hrun, hrest⟩ := hvisit.1 leaves hleaves.1
    obtain ⟨rest', hrun', hrest'⟩ := ih hvisit.2 hapart.2
      (out ++ [(f.order, folderNode f (children f))]) rest fun g hg p hp => by
        rw [hrest p (hapart.1 g hg p hp), hleaves.2 g hg p hp]
    refine ⟨rest', ?_, fun p hp => ?_⟩
    · rw [List.foldlM_cons, visitFolder, hrun]
      refine Eq.trans hrun' ?_
      rw [List.map_cons, List.append_assoc, List.singleton_append]
    · rw [List.forall_mem_cons] at hp
      rw [hrest' p hp.2, hrest p hp.1]

section
variable {s : RequestState} {all : Leaves} {place : Option String} {n fuel : ℕ}

theorem nodup_folderIds (hnodup : s.ids.Nodup) : (s.folders.map (·.id)).Nodup := by
  have hids : s.ids = s.folders.map (·.id) ++ (s.requests.map (·.id) ++
      (s.connections.map (·.id) ++ s.grpcRequests.map (·.id))) := by
    simp only [RequestState.ids, RequestState.items, List.map_append, List.map_map,
      List.append_assoc]
    rfl
  rw [hids] at hnodup
  exact hnodup.of_append_left

theorem depth_child (hnodup : s.ids.Nodup) (hdepth : Depth s.parentOf place n) {f : ApiFolder}
    (hf : f ∈ s.folders.filter fun f => f.folderId = place) :
    s.parentOf f.id = some place ∧ Depth s.parentOf (some f.id) (n + 1) := by
  rw [List.mem_filter, decide_eq_true_eq] at hf
  have hparent : s.parentOf f.id = some place := by
    rw [Tree.parentOf_folder hnodup hf.1, hf.2]
  exact ⟨hparent, .link hparent hdepth⟩

/-- The recursion takes out what lies under its place, and nothing else. -/
theorem folderNodes_eq (hnodup : s.ids.Nodup) (hdepth : Depth s.parentOf place n)
    (hfuel : s.folders.length < fuel + n) {leaves : Leaves}
    (hleaves : ∀ p, Passes s.parentOf place p → leaves p = all p) :
    ∃ rest, folderNodes s.folders fuel place leaves =
        some (nodesUnder s.folders all fuel place, rest) ∧
      ∀ p, ¬ Passes s.parentOf place p → rest p = leaves p := by
  have hle := Tree.depth_le hdepth
  induction fuel generalizing place n leaves with
  | zero => omega
  | succ fuel ih =>
    have hpasses : ∀ f ∈ s.folders.filter fun f => f.folderId = place, ∀ p,
        Passes s.parentOf (some f.id) p → Passes s.parentOf place p := fun f hf p hp =>
      passes_iff.mpr (Or.inr ⟨f.id, (depth_child hnodup hdepth hf).1, hp⟩)
    have hapart : (s.folders.filter fun f => f.folderId = place).Pairwise fun f g =>
        ∀ p, Passes s.parentOf (some g.id) p → ¬ Passes s.parentOf (some f.id) p := by
      have hids := (List.pairwise_map.mp (nodup_folderIds hnodup)).filter
        fun f => f.folderId = place
      refine hids.imp_of_mem fun hf hg hne p hgp hfp => hne ?_
      exact Option.some.inj (hfp.unique hgp (depth_child hnodup hdepth hf).2
        (depth_child hnodup hdepth hg).2)
    obtain ⟨rest, hrun, hrest⟩ := foldlM_folders
      (folderNodes s.folders fuel) (fun f => nodesUnder s.folders all fuel (some f.id))
      (fun f => Passes s.parentOf (some f.id)) all
      (fun f hf leaves hleaves => by
        have hchild := (depth_child hnodup hdepth hf).2
        exact ih hchild (by omega) hleaves (Tree.depth_le hchild))
      hapart [] leaves fun f hf p hp => hleaves p (hpasses f hf p hp)
    -- The place itself lies under none of its folders.
    have hself : rest place = all place := by
      rw [hrest place fun f hf hp => ?_, hleaves place .self]
      obtain ⟨m, hm, hm'⟩ := hp.exists_depth (depth_child hnodup hdepth hf).2
      have heq := hdepth.unique hm'
      omega
    rw [folderNodes, hrun, nodesUnder, ← hself]
    refine ⟨Function.update rest place [], rfl, fun p hp => ?_⟩
    have hne : p ≠ place := fun heq => hp (heq ▸ .self)
    rw [Function.update_of_ne hne, hrest p fun f hf hfp => hp (hpasses f hf p hfp)]

/-- More fuel than there are folders below a place changes nothing. -/
theorem nodesUnder_fuel (hnodup : s.ids.Nodup) (hdepth : Depth s.parentOf place n)
    {fuel' : ℕ} (hfuel : s.folders.length < fuel + n) (hfuel' : s.folders.length < fuel' + n) :
    nodesUnder s.folders all fuel place = nodesUnder s.folders all fuel' place := by
  have hle := Tree.depth_le hdepth
  induction fuel generalizing place n fuel' with
  | zero => omega
  | succ fuel ih =>
    obtain ⟨fuel', rfl⟩ : ∃ m, fuel' = m + 1 := ⟨fuel' - 1, by omega⟩
    have hfolders : (s.folders.filter fun f => f.folderId = place).map (fun f =>
        (f.order, folderNode f (nodesUnder s.folders all fuel (some f.id)))) =
        (s.folders.filter fun f => f.folderId = place).map (fun f =>
          (f.order, folderNode f (nodesUnder s.folders all fuel' (some f.id)))) := by
      refine List.map_congr_left fun f hf => ?_
      have hchild := (depth_child hnodup hdepth hf).2
      have hfewer : s.folders.length < fuel' + (n + 1) := by omega
      rw [ih hchild (by omega) hfewer (Tree.depth_le hchild)]
    rw [nodesUnder, nodesUnder, hfolders]

end

/-! ## Where the rows stand -/

/-- The lists of the document, as the app would hold them. -/
def VoleeoWorkspace.state (vw : VoleeoWorkspace) : RequestState :=
  ⟨vw.folders, vw.requests, vw.websockets, vw.grpc⟩

mutual

/-- The rows of a preview without those below them, each with the place it stands at. -/
def ImportNode.placed (place : Option String) : ImportNode → List (Option String × ImportNode)
  | ⟨id, kind, name, method, path, description, children⟩ =>
    (place, ⟨id, kind, name, method, path, description, []⟩) :: placedRows (some id) children

def placedRows (place : Option String) : List ImportNode → List (Option String × ImportNode)
  | [] => []
  | node :: rest => node.placed place ++ placedRows place rest

end

theorem placedRows_eq_flatMap (place : Option String) (nodes : List ImportNode) :
    placedRows place nodes = nodes.flatMap (ImportNode.placed place) := by
  induction nodes with
  | nil => rw [placedRows, List.flatMap_nil]
  | cons node rest ih => rw [placedRows, List.flatMap_cons, ih]

/-- The row of an entry. -/
def rowOf : Tree.Entry → ImportNode
  | .folder f => folderNode f []
  | .request r => (requestLeaf r).2
  | .webSocket w => (connectionLeaf w).2
  | .grpc g => (grpcLeaf g).2

def placedRow (x : Option String × Tree.Entry) : Option String × ImportNode := (x.1, rowOf x.2)

theorem flatMap_placed_leaves {α : Type} (place : Option String) (folderId : α → Option String)
    (leaf : α → ℚ × ImportNode) (toNode : α → Tree.TreeNode) (xs : List α)
    (hleaf : ∀ x, (leaf x).2.placed place = [(place, rowOf (toNode x).entry)])
    (hinner : ∀ x, (toNode x).inner = []) :
    (((xs.map fun x => (folderId x, leaf x)).filter (·.1 = place)).map (·.2.2)).flatMap
        (ImportNode.placed place) =
      (((xs.filter fun x => folderId x = place).map toNode).flatMap fun n =>
        (place, n.entry) :: n.inner).map placedRow := by
  rw [List.filter_map, List.map_map, List.flatMap_map, List.flatMap_map, List.map_flatMap]
  refine List.flatMap_congr fun x _ => ?_
  change (leaf x).2.placed place = List.map placedRow ((place, (toNode x).entry) :: (toNode x).inner)
  rw [hleaf, hinner]
  rfl

/-- The preview has the rows of the tree that the app would build from the document itself. -/
theorem placedRows_nodesUnder (dateParse : String → ℚ) (vw : VoleeoWorkspace) (fuel : ℕ)
    (place : Option String) :
    (placedRows place (nodesUnder vw.folders (leavesOf vw) fuel place)).Perm
      ((placed place (buildTree dateParse vw.state fuel place)).map placedRow) := by
  induction fuel generalizing place with
  | zero =>
    rw [nodesUnder, buildTree, placedRows, placed]
    exact .refl _
  | succ fuel ih =>
    have hfolders : (((vw.folders.filter fun f => f.folderId = place).map fun f =>
        (f.order, folderNode f (nodesUnder vw.folders (leavesOf vw) fuel (some f.id)))).map
          Prod.snd).flatMap (ImportNode.placed place) =
        (vw.folders.filter fun f => f.folderId = place).flatMap fun f =>
          (place, folderNode f []) ::
            placedRows (some f.id) (nodesUnder vw.folders (leavesOf vw) fuel (some f.id)) := by
      rw [List.map_map, List.flatMap_map]
      exact List.flatMap_congr fun f _ => by
        simp only [Function.comp_apply, folderNode, ImportNode.placed]
    have hfolders' : ((((vw.folders.filter fun f => f.folderId = place).map fun f =>
        Tree.TreeNode.folder f (buildTree dateParse vw.state fuel (some f.id))).flatMap fun n =>
          (place, n.entry) :: n.inner).map placedRow) =
        (vw.folders.filter fun f => f.folderId = place).flatMap fun f =>
          (place, folderNode f []) ::
            (placed (some f.id) (buildTree dateParse vw.state fuel (some f.id))).map placedRow := by
      rw [List.flatMap_map, List.map_flatMap]
      rfl
    rw [placedRows_eq_flatMap, nodesUnder, Tree.placed_eq_flatMap, buildTree]
    refine (((sortBy_perm _ _).map _).flatMap_right _).trans
      (List.Perm.trans ?_ (((sortBy_perm _ _).flatMap_right _).map placedRow).symm)
    simp only [List.map_append, List.flatMap_append]
    rw [hfolders, leavesOf_eq, List.map_map, allLeaves, List.filter_append, List.filter_append]
    simp only [List.map_append, List.flatMap_append, List.append_assoc]
    have hleaves := congrArg₂ (· ++ ·)
      (flatMap_placed_leaves place (·.folderId) requestLeaf .request vw.requests
        (fun _ => rfl) fun _ => rfl)
      (congrArg₂ (· ++ ·)
        (flatMap_placed_leaves place (·.folderId) connectionLeaf .webSocket vw.websockets
          (fun _ => rfl) fun _ => rfl)
        (flatMap_placed_leaves place (·.folderId) grpcLeaf .grpc vw.grpc
          (fun _ => rfl) fun _ => rfl))
    refine List.Perm.append ?_ (.of_eq hleaves)
    refine .trans (List.Perm.flatMap_left _ fun f _ => ?_) (.of_eq hfolders'.symm)
    exact (ih (some f.id)).cons _

/-! ## Preview and import -/

/-- A connection and a gRPC request are shown as requests. -/
def rowKind : ItemKind → String
  | .folder => "folder"
  | _ => "request"

/-- The rows of a preview: the place, the id and the kind of each. -/
def nesting (nodes : List ImportNode) : List (Option String × String × String) :=
  (placedRows none nodes).map fun x => (x.1, x.2.id, x.2.kind)

def itemNest (i : Item) : Option String × String × String := (i.folderId, i.id, rowKind i.kind)

/-- The nodes of the app's tree: the place, the id and the kind of each. -/
def treeNesting (nodes : List Tree.TreeNode) : List (Option String × String × String) :=
  (placed none nodes).map fun x => (x.1, x.2.item.id, rowKind x.2.item.kind)

def requestRows (nodes : List ImportNode) : List ImportNode :=
  ((placedRows none nodes).map Prod.snd).filter fun row => row.kind = "request"

/-- The app's lists hold what the import of the document into a workspace stores. -/
structure IsStored (wid : String) (vw : VoleeoWorkspace) (s : RequestState) : Prop where
  folders : s.folders.Perm (vw.folders.map (restoredFolder wid vw.folderIds))
  requests : s.requests.Perm (vw.requests.map (restoredRequest wid vw.folderIds))
  connections : s.connections.Perm (vw.websockets.map (restoredConnection wid vw.folderIds))
  grpc : s.grpcRequests.Perm (vw.grpc.map (restoredGrpc wid vw.folderIds))

/-- A preview shows each request, connection and gRPC request once, as many as are counted, and
everything where the app's tree has it after the import. -/
structure ShowsImport (vw : VoleeoWorkspace) (nodes : List ImportNode) : Prop where
  leaves : (requestRows nodes).Perm ((allLeaves vw).map (·.2.2))
  count : (requestRows nodes).length = requestCount vw
  nested : ∀ dateParse wid s, IsStored wid vw s →
    (nesting nodes).Perm (treeNesting (Tree.tree dateParse s))

def reparentItem (known : List String) (i : Item) : Item :=
  { i with folderId := reparent known i.folderId }

section
variable {vw : VoleeoWorkspace} {wid : String} {s : RequestState}

theorem items_of_stored (h : IsStored wid vw s) :
    s.items.Perm (vw.state.items.map (reparentItem vw.folderIds)) := by
  have hitems : vw.state.items.map (reparentItem vw.folderIds) =
      (vw.folders.map (restoredFolder wid vw.folderIds)).map Tree.folderItem ++
        (vw.requests.map (restoredRequest wid vw.folderIds)).map Tree.requestItem ++
        (vw.websockets.map (restoredConnection wid vw.folderIds)).map Tree.connectionItem ++
        (vw.grpc.map (restoredGrpc wid vw.folderIds)).map Tree.grpcItem := by
    simp only [RequestState.items, List.map_append, List.map_map]
    rfl
  rw [hitems]
  exact (((h.folders.map _).append (h.requests.map _)).append (h.connections.map _)).append
    (h.grpc.map _)

theorem nodup_of_stored (hnodup : vw.state.ids.Nodup) (h : IsStored wid vw s) : s.ids.Nodup := by
  have hids := (items_of_stored h).map Item.id
  rw [List.map_map] at hids
  exact hids.nodup_iff.mpr hnodup

theorem exists_stored (wid : String) (vw : VoleeoWorkspace) : ∃ s, IsStored wid vw s :=
  ⟨⟨_, _, _, _⟩, .refl _, .refl _, .refl _, .refl _⟩

/-- The entries at rooted places are in the tree, each once. -/
theorem placed_perm (dateParse : String → ℚ) (hnodup : s.ids.Nodup)
    (hrooted : ∀ i ∈ s.items, Rooted s.parentOf i.folderId) :
    (placed none (Tree.tree dateParse s)).Perm (s.entries.map fun e => (e.item.folderId, e)) := by
  have hplaced : (placed none (Tree.tree dateParse s)).Nodup :=
    Tree.nodup_placed_buildTree hnodup .root (by omega)
  have hentries : (s.entries.map fun e => (e.item.folderId, e)).Nodup :=
    (Tree.nodup_entries hnodup).map fun d e h => (Prod.mk.inj h).2
  refine (List.perm_ext_iff_of_nodup hplaced hentries).mpr ?_
  rintro ⟨p, e⟩
  rw [Tree.tree, Tree.mem_placed_buildTree hnodup .root (by omega), List.mem_map, passes_root_iff]
  constructor
  · rintro ⟨he, hp, -⟩
    exact ⟨e, he, by rw [hp]⟩
  · rintro ⟨e', he, heq⟩
    obtain ⟨hp, rfl⟩ := Prod.mk.inj heq
    have hitem : e'.item ∈ s.items := by
      rw [← Tree.map_item_entries]
      exact List.mem_map_of_mem he
    exact ⟨he, hp, hp ▸ hrooted _ hitem⟩

theorem treeNesting_perm (dateParse : String → ℚ) (hnodup : s.ids.Nodup)
    (hrooted : ∀ i ∈ s.items, Rooted s.parentOf i.folderId) :
    (treeNesting (Tree.tree dateParse s)).Perm (s.items.map itemNest) := by
  refine ((placed_perm dateParse hnodup hrooted).map _).trans (.of_eq ?_)
  rw [← Tree.map_item_entries, List.map_map, List.map_map]
  rfl

theorem nest_rowOf (e : Tree.Entry) :
    (rowOf e).id = e.item.id ∧ (rowOf e).kind = rowKind e.item.kind := by
  cases e <;> exact ⟨rfl, rfl⟩

/-- Whatever is stored hangs at the root, when no folder of the document is on a cycle. -/
theorem rooted_of_stored (hnodup : vw.state.ids.Nodup)
    (hacyclic : ∀ f ∈ vw.folders, ¬ OnCycle vw.state.parentOf f.id) (h : IsStored wid vw s)
    (place : Option String) : Rooted s.parentOf (reparent vw.folderIds place) := by
  have hnodup' := nodup_of_stored hnodup h
  have hall : ∀ k, (vw.state.parentOf k).isSome → k ∈ vw.folderIds := by
    intro k hk
    obtain ⟨p, hp⟩ := Option.isSome_iff_exists.mp hk
    obtain ⟨f, hf, rfl, -⟩ := Tree.parentOf_eq_some hp
    exact List.mem_map_of_mem hf
  have hfolder : ∀ k, k ∈ vw.folderIds → Rooted s.parentOf (some k) := by
    intro k
    refine @induction_of_no_cycle _ vw.state.parentOf k _ hall
      (fun k => k ∈ vw.folderIds → Rooted s.parentOf (some k)) ?_ ?_
    · intro k ih hk
      obtain ⟨f, hf, rfl⟩ := List.mem_map.mp hk
      have hstored : restoredFolder wid vw.folderIds f ∈ s.folders :=
        h.folders.mem_iff.mpr (List.mem_map_of_mem hf)
      have hparent : s.parentOf f.id = some (reparent vw.folderIds f.folderId) :=
        Tree.parentOf_folder hnodup' hstored
      have hparent' : vw.state.parentOf f.id = some f.folderId :=
        Tree.parentOf_folder hnodup hf
      refine .link hparent ?_
      cases hplace : f.folderId with
      | none => exact .root
      | some p =>
        by_cases hp : p ∈ vw.folderIds
        · rw [reparent, Option.filter_some, if_pos (by simpa using hp)]
          exact ih p (by rw [hparent', hplace]) hp
        · rw [reparent, Option.filter_some, if_neg (by simpa using hp)]
          exact .root
    · rintro a - ⟨p, hp, hunder⟩
      obtain ⟨f, hf, rfl, -⟩ := Tree.parentOf_eq_some hp
      exact hacyclic f hf ⟨p, hp, hunder⟩
  cases hplace : reparent vw.folderIds place with
  | none => exact .root
  | some k =>
    have hk := (Option.mem_filter_iff.mp hplace).2
    exact hfolder k (of_decide_eq_true hk)

/-- No item names a folder that is not in the document. -/
def LinksLead (vw : VoleeoWorkspace) : Prop :=
  ∀ place ∈ vw.places, ∀ id, place = some id → id ∈ vw.folderIds

theorem folderId_mem_places {i : Item} (hi : i ∈ vw.state.items) : i.folderId ∈ vw.places := by
  have hplaces : vw.places = vw.state.items.map Item.folderId := by
    simp only [VoleeoWorkspace.places, RequestState.items, List.map_append, List.map_map]
    rfl
  rw [hplaces]
  exact List.mem_map_of_mem hi

theorem exists_of_mem_places {place : Option String} (h : place ∈ vw.places) :
    ∃ i ∈ vw.state.items, i.folderId = place := by
  have hplaces : vw.places = vw.state.items.map Item.folderId := by
    simp only [VoleeoWorkspace.places, RequestState.items, List.map_append, List.map_map]
    rfl
  rw [hplaces] at h
  exact List.mem_map.mp h

theorem reparent_of_links (h : LinksLead vw) {i : Item} (hi : i ∈ vw.state.items) :
    reparent vw.folderIds i.folderId = i.folderId := by
  have hlead := h i.folderId (folderId_mem_places hi)
  cases hplace : i.folderId with
  | none => rfl
  | some id =>
    rw [reparent, Option.filter_some, if_pos]
    exact decide_eq_true (hlead id hplace)

/-- When all links lead to folders, the document is stored as it is. -/
theorem isStored_items_of_links (h : LinksLead vw) (hs : IsStored wid vw s) :
    s.items.Perm vw.state.items := by
  refine (items_of_stored hs).trans (.of_eq ?_)
  conv_rhs => rw [← List.map_id vw.state.items]
  refine List.map_congr_left fun i hi => ?_
  rw [reparentItem, reparent_of_links h hi]
  rfl

theorem rooted_of_links (hnodup : vw.state.ids.Nodup)
    (hacyclic : ∀ f ∈ vw.folders, ¬ OnCycle vw.state.parentOf f.id) (h : LinksLead vw)
    {i : Item} (hi : i ∈ vw.state.items) : Rooted vw.state.parentOf i.folderId := by
  obtain ⟨s, hs⟩ := exists_stored "" vw
  have hrooted := rooted_of_stored hnodup hacyclic hs i.folderId
  rw [reparent_of_links h hi] at hrooted
  refine hrooted.mono fun k place hplace => ?_
  obtain ⟨f', hf', rfl, rfl⟩ := Tree.parentOf_eq_some hplace
  obtain ⟨f, hf, rfl⟩ := List.mem_map.mp (hs.folders.mem_iff.mp hf')
  have hfolder : Tree.folderItem f ∈ vw.state.items := Tree.folder_mem_items hf
  have hparent : vw.state.parentOf f.id = some f.folderId := Tree.parentOf_folder hnodup hf
  exact hparent.trans (congrArg some (reparent_of_links h hfolder).symm)

/-- The preview that the recursion gives, for any depth that is enough. -/
theorem bundleTree_eq (hnodup : vw.state.ids.Nodup) {depth : ℕ}
    (hdepth : vw.folders.length < depth) :
    bundleTree vw depth =
      some (nodesUnder vw.folders (leavesOf vw) (vw.folders.length + 1) none) := by
  have hfuel : vw.state.folders.length < depth + 0 := hdepth
  obtain ⟨rest, hrun, -⟩ :=
    folderNodes_eq hnodup .root hfuel fun p _ => (rfl : leavesOf vw p = leavesOf vw p)
  have hsame := @nodesUnder_fuel _ (leavesOf vw) _ _ _ hnodup .root _ hfuel
    (show vw.state.folders.length < vw.state.folders.length + 1 + 0 by omega)
  rw [hsame] at hrun
  rw [bundleTree]
  exact congrArg (Option.map Prod.fst) hrun

theorem requestRows_of_rooted {nodes : List ImportNode} (hnodup : vw.state.ids.Nodup)
    (hrooted : ∀ i ∈ vw.state.items, Rooted vw.state.parentOf i.folderId)
    (hnodes : ∀ dateParse, (placedRows none nodes).Perm
      ((placed none (Tree.tree dateParse vw.state)).map placedRow)) :
    (requestRows nodes).Perm ((allLeaves vw).map (·.2.2)) := by
  have hrows := ((hnodes fun _ => 0).trans
    ((placed_perm (fun _ => 0) hnodup hrooted).map placedRow)).map Prod.snd
  refine (hrows.filter _).trans (.of_eq ?_)
  have hentries : vw.state.entries = vw.folders.map .folder ++ vw.requests.map .request ++
      vw.websockets.map .webSocket ++ vw.grpc.map .grpc := rfl
  rw [hentries]
  simp only [List.map_append, List.map_map, List.filter_append, allLeaves]
  have hfolders : ∀ row ∈ vw.folders.map (Prod.snd ∘ placedRow ∘
      (fun e => (e.item.folderId, e)) ∘ Tree.Entry.folder),
      ¬ decide (row.kind = "request") = true := by
    rw [List.forall_mem_map]
    exact fun f _ => by simp [placedRow, rowOf, folderNode]
  have hleaf : ∀ {α : Type} (entry : α → Tree.Entry) (xs : List α),
      (∀ x, (rowOf (entry x)).kind = "request") →
      (xs.map (Prod.snd ∘ placedRow ∘ (fun e => (e.item.folderId, e)) ∘ entry)).filter
          (fun row => decide (row.kind = "request")) = xs.map fun x => rowOf (entry x) := by
    intro α entry xs hkind
    refine List.filter_eq_self.mpr ?_
    rw [List.forall_mem_map]
    exact fun x _ => decide_eq_true (hkind x)
  rw [List.filter_eq_nil_iff.mpr hfolders, hleaf _ _ fun _ => rfl, hleaf _ _ fun _ => rfl,
    hleaf _ _ fun _ => rfl, List.nil_append]
  rfl

theorem nesting_perm {nodes : List ImportNode} {dateParse : String → ℚ}
    (hnodes : (placedRows none nodes).Perm
      ((placed none (Tree.tree dateParse vw.state)).map placedRow)) :
    (nesting nodes).Perm (treeNesting (Tree.tree dateParse vw.state)) := by
  refine (hnodes.map _).trans (.of_eq ?_)
  rw [List.map_map]
  refine List.map_congr_left fun x _ => ?_
  obtain ⟨hid, hkind⟩ := nest_rowOf x.2
  exact Prod.ext rfl (Prod.ext hid hkind)

/-- The preview of a document shows what the import creates exactly when all its links lead to
folders, as far as its items can be counted with 32 bits. -/
theorem preview_shows_import_iff (vw : VoleeoWorkspace) (hnodup : vw.state.ids.Nodup)
    (hacyclic : ∀ f ∈ vw.folders, ¬ OnCycle vw.state.parentOf f.id) :
    ∃ nodes, (∃ depth, ∀ depth' ≥ depth, bundleTree vw depth' = some nodes) ∧
      (ShowsImport vw nodes ↔ LinksLead vw ∧ (allLeaves vw).length < 2 ^ 32) := by
  have hnodes : ∀ dateParse, (placedRows none (nodesUnder vw.folders (leavesOf vw)
      (vw.folders.length + 1) none)).Perm
      ((placed none (Tree.tree dateParse vw.state)).map placedRow) := fun dateParse =>
    placedRows_nodesUnder dateParse vw _ none
  refine ⟨_, ⟨vw.folders.length + 1, fun depth' hdepth => bundleTree_eq hnodup hdepth⟩, ?_⟩
  generalize nodesUnder vw.folders (leavesOf vw) (vw.folders.length + 1) none = nodes at hnodes
  have hcount : requestCount vw = (allLeaves vw).length % 2 ^ 32 := by
    simp only [requestCount, allLeaves, List.length_append, List.length_map]
  constructor
  · rintro ⟨hleaves, hlength, hnested⟩
    refine ⟨?_, ?_⟩
    · rintro place hplace id rfl
      obtain ⟨i, hi, hid⟩ := exists_of_mem_places hplace
      obtain ⟨s, hs⟩ := exists_stored "" vw
      -- The app's tree holds every item, so the preview has a row for this one.
      have hitem : itemNest (reparentItem vw.folderIds i) ∈ nesting nodes := by
        refine ((hnested (fun _ => 0) "" s hs).trans (treeNesting_perm _ (nodup_of_stored hnodup hs)
          fun j hj => ?_)).mem_iff.mpr (List.mem_map_of_mem ?_)
        · obtain ⟨j', -, rfl⟩ := List.mem_map.mp ((items_of_stored hs).mem_iff.mp hj)
          exact rooted_of_stored hnodup hacyclic hs _
        · exact (items_of_stored hs).mem_iff.mpr (List.mem_map_of_mem hi)
      rw [(nesting_perm (hnodes fun _ => 0)).mem_iff, treeNesting, List.mem_map] at hitem
      obtain ⟨⟨p, e⟩, he, heq⟩ := hitem
      rw [Tree.tree, Tree.mem_placed_buildTree hnodup .root (by omega), passes_root_iff] at he
      obtain ⟨he, hp, hrooted⟩ := he
      have hmem : e.item ∈ vw.state.items := by
        rw [← Tree.map_item_entries]
        exact List.mem_map_of_mem he
      have hsame : e.item = i := Tree.eq_of_id hnodup hmem hi (Prod.mk.inj (Prod.mk.inj heq).2).1
      rw [hsame, hid] at hp
      subst hp
      obtain ⟨p, hparent, -⟩ := hrooted.exists_parent
      obtain ⟨f, hf, rfl, -⟩ := Tree.parentOf_eq_some hparent
      exact List.mem_map_of_mem hf
    · have hall := hleaves.length_eq
      rw [hlength, hcount, List.length_map] at hall
      rw [← hall]
      exact Nat.mod_lt _ (by norm_num)
  · rintro ⟨hlinks, hfew⟩
    have hrooted : ∀ i ∈ vw.state.items, Rooted vw.state.parentOf i.folderId :=
      fun i hi => rooted_of_links hnodup hacyclic hlinks hi
    have hleaves := requestRows_of_rooted hnodup hrooted hnodes
    refine ⟨hleaves, ?_, fun dateParse wid s hs => ?_⟩
    · rw [hleaves.length_eq, List.length_map, hcount, Nat.mod_eq_of_lt hfew]
    · have hitems := isStored_items_of_links hlinks hs
      refine (nesting_perm (hnodes dateParse)).trans
        ((treeNesting_perm dateParse hnodup hrooted).trans (.trans (hitems.map itemNest).symm ?_))
      refine (treeNesting_perm dateParse (nodup_of_stored hnodup hs) fun j hj => ?_).symm
      obtain ⟨j', -, rfl⟩ := List.mem_map.mp ((items_of_stored hs).mem_iff.mp hj)
      exact rooted_of_stored hnodup hacyclic hs _

end

/-! ## A request in a folder, and one whose folder is missing -/

def previewed (folders : List ApiFolder) (folderId : Option String) : VoleeoWorkspace where
  workspace := Storage.newWorkspace "ws1" "" "Api" false
  folders := folders
  requests := [{ HttpRequest.blank with folderId := folderId }]
  websockets := []
  grpc := []
  environments := []

theorem preview_shows_import_nested :
    ∃ nodes, (∃ depth, ∀ depth' ≥ depth,
        bundleTree (previewed [Tree.folderAt "f1" none] (some "f1")) depth' = some nodes) ∧
      (ShowsImport (previewed [Tree.folderAt "f1" none] (some "f1")) nodes ↔
        LinksLead (previewed [Tree.folderAt "f1" none] (some "f1")) ∧
          (allLeaves (previewed [Tree.folderAt "f1" none] (some "f1"))).length < 2 ^ 32) :=
  preview_shows_import_iff _ (by decide) fun f hf => by
    obtain rfl := List.mem_singleton.mp hf
    rintro ⟨p, hparent, -⟩
    revert hparent
    have hroot : (previewed [Tree.folderAt "f1" none] (some "f1")).state.parentOf
      (Tree.folderAt "f1" none).id = some none := by decide
    rw [hroot]
    exact nofun

/-- The request is imported, at the root, and the preview has no row for it. -/
theorem stray_request_not_shown : ¬ ∀ vw : VoleeoWorkspace, vw.state.ids.Nodup →
    (∀ f ∈ vw.folders, ¬ OnCycle vw.state.parentOf f.id) →
    ∃ nodes, (∃ depth, ∀ depth' ≥ depth, bundleTree vw depth' = some nodes) ∧
      ShowsImport vw nodes := by
  intro h
  obtain ⟨nodes, ⟨depth, hnodes⟩, hshows⟩ :=
    h (previewed [] (some "gone")) (by decide) fun f hf => absurd hf List.not_mem_nil
  have hempty : bundleTree (previewed [] (some "gone")) (depth + 1) = some [] := by
    have hroot : leavesOf (previewed [] (some "gone")) none = [] := by decide
    have hrun : folderNodes [] (depth + 1) none (leavesOf (previewed [] (some "gone"))) =
      some ((sortBy Prod.fst ([] ++ leavesOf (previewed [] (some "gone")) none)).map Prod.snd,
        Function.update (leavesOf (previewed [] (some "gone"))) none []) := rfl
    rw [hroot, List.append_nil, sortBy, List.mergeSort_nil, List.map_nil] at hrun
    exact congrArg (Option.map Prod.fst) hrun
  have hnone : nodes = [] := by
    have heq := hnodes (depth + 1) (Nat.le_succ depth)
    rw [hempty] at heq
    exact (Option.some.inj heq).symm
  have hcount := hshows.count
  rw [hnone] at hcount
  revert hcount
  decide

end Voleeo.Imports
