import Mathlib.Algebra.Order.Ring.Rat
import Voleeo.Entities
import Voleeo.ParentChain
import Voleeo.StableSort

/-!
# The request tree

Folders, requests, connections and gRPC requests lie in four lists and name the
folder they are in. The tree nests them, with siblings of all kinds sorted by
their effective order.
-/
namespace Voleeo.Tree

inductive TreeNode
  | folder (folder : ApiFolder) (children : List TreeNode)
  | request (request : HttpRequest)
  | webSocket (connection : WsConnection)
  | grpc (request : GrpcRequest)

/-- `ItemKind` of the backend. -/
inductive ItemKind
  | folder
  | request
  | webSocket
  | grpc
  deriving DecidableEq, Repr

/-- What the four kinds have in common. -/
structure Item where
  id : String
  kind : ItemKind
  folderId : Option String
  order : ℚ
  createdAt : String
  deriving DecidableEq, Repr

/-- The lists that the store keeps beside the tree. -/
structure RequestState where
  folders : List ApiFolder
  requests : List HttpRequest
  connections : List WsConnection
  grpcRequests : List GrpcRequest

def folderItem (f : ApiFolder) : Item := ⟨f.id, .folder, f.folderId, f.order, f.createdAt⟩
def requestItem (r : HttpRequest) : Item := ⟨r.id, .request, r.folderId, r.order, r.createdAt⟩
def connectionItem (c : WsConnection) : Item :=
  ⟨c.id, .webSocket, c.folderId, c.order, c.createdAt⟩
def grpcItem (g : GrpcRequest) : Item := ⟨g.id, .grpc, g.folderId, g.order, g.createdAt⟩

def TreeNode.item : TreeNode → Item
  | .folder f _ => folderItem f
  | .request r => requestItem r
  | .webSocket c => connectionItem c
  | .grpc g => grpcItem g

namespace RequestState

/-- Everything in the store, in the order in which `buildTree` lists the kinds. -/
def items (s : RequestState) : List Item :=
  s.folders.map folderItem ++ s.requests.map requestItem ++ s.connections.map connectionItem ++
    s.grpcRequests.map grpcItem

def ids (s : RequestState) : List String := s.items.map Item.id

def parentOf (s : RequestState) (id : String) : Option (Option String) :=
  (s.folders.find? fun f => f.id = id).map ApiFolder.folderId

end RequestState

variable (dateParse : String → ℚ)

/-- An order of zero counts as unset. -/
def Item.effectiveOrder (i : Item) : ℚ := if i.order = 0 then dateParse i.createdAt else i.order

def effectiveOrder (n : TreeNode) : ℚ := n.item.effectiveOrder dateParse

/-- The nodes below a place. `fuel` bounds the depth; `fuel_irrelevant` says that a depth of
all folders is enough. -/
def buildTree (s : RequestState) : ℕ → Option String → List TreeNode
  | 0, _ => []
  | fuel + 1, parentId =>
    let folderNodes := (s.folders.filter fun f => f.folderId = parentId).map fun folder =>
      TreeNode.folder folder (buildTree s fuel (some folder.id))
    let requestNodes := (s.requests.filter fun r => r.folderId = parentId).map TreeNode.request
    let connectionNodes :=
      (s.connections.filter fun c => c.folderId = parentId).map TreeNode.webSocket
    let grpcNodes := (s.grpcRequests.filter fun g => g.folderId = parentId).map TreeNode.grpc
    sortBy (effectiveOrder dateParse)
      (folderNodes ++ requestNodes ++ connectionNodes ++ grpcNodes)

def tree (s : RequestState) : List TreeNode := buildTree dateParse s (s.folders.length + 1) none

/-- The items below a place, sorted. -/
def siblings (s : RequestState) (place : Option String) : List Item :=
  sortBy (Item.effectiveOrder dateParse) (s.items.filter fun i => i.folderId = place)

/-- A forest: ids are unique, and everything hangs at the root. -/
structure Forest (s : RequestState) : Prop where
  nodup : s.ids.Nodup
  rooted : ∀ i ∈ s.items, Rooted s.parentOf i.folderId

variable {dateParse} {s : RequestState}

theorem item_buildTree (fuel : ℕ) (place : Option String) :
    (buildTree dateParse s (fuel + 1) place).map TreeNode.item = siblings dateParse s place := by
  have hfolder : (s.folders.map folderItem).filter (fun i => decide (i.folderId = place)) =
      (s.folders.filter fun f => f.folderId = place).map folderItem := List.filter_map
  have hrequest : (s.requests.map requestItem).filter (fun i => decide (i.folderId = place)) =
      (s.requests.filter fun r => r.folderId = place).map requestItem := List.filter_map
  have hconnection :
      (s.connections.map connectionItem).filter (fun i => decide (i.folderId = place)) =
      (s.connections.filter fun c => c.folderId = place).map connectionItem := List.filter_map
  have hgrpc : (s.grpcRequests.map grpcItem).filter (fun i => decide (i.folderId = place)) =
      (s.grpcRequests.filter fun g => g.folderId = place).map grpcItem := List.filter_map
  simp only [buildTree, siblings, RequestState.items, List.filter_append, hfolder, hrequest,
    hconnection, hgrpc]
  change (sortBy (fun n => (TreeNode.item n).effectiveOrder dateParse) _).map TreeNode.item = _
  rw [map_sortBy]
  simp only [List.map_append, List.map_map]
  rfl

/-! ## Folders -/

theorem folder_mem_items {f : ApiFolder} (hf : f ∈ s.folders) : folderItem f ∈ s.items := by
  simp only [RequestState.items, List.mem_append]
  exact .inl (.inl (.inl (List.mem_map_of_mem hf)))

theorem eq_of_id (hnodup : s.ids.Nodup) {i j : Item} (hi : i ∈ s.items) (hj : j ∈ s.items)
    (hid : i.id = j.id) : i = j :=
  List.inj_on_of_nodup_map hnodup hi hj hid

theorem mem_items_folder {i : Item} (hi : i ∈ s.items) (hkind : i.kind = .folder) :
    ∃ f ∈ s.folders, folderItem f = i := by
  simp only [RequestState.items, List.mem_append, List.mem_map] at hi
  rcases hi with ((⟨f, hf, rfl⟩ | ⟨r, -, rfl⟩) | ⟨c, -, rfl⟩) | ⟨g, -, rfl⟩
  · exact ⟨f, hf, rfl⟩
  all_goals cases hkind

theorem parentOf_eq_some {id : String} {place : Option String} (h : s.parentOf id = some place) :
    ∃ f ∈ s.folders, f.id = id ∧ f.folderId = place := by
  rw [RequestState.parentOf, Option.map_eq_some_iff] at h
  obtain ⟨f, hfind, rfl⟩ := h
  exact ⟨f, List.mem_of_find?_eq_some hfind, by simpa using List.find?_some hfind, rfl⟩

theorem parentOf_folder (hnodup : s.ids.Nodup) {f : ApiFolder} (hf : f ∈ s.folders) :
    s.parentOf f.id = some f.folderId := by
  obtain ⟨g, hfind⟩ : ∃ g, s.folders.find? (fun g => decide (g.id = f.id)) = some g :=
    Option.isSome_iff_exists.mp (by simpa using ⟨f, hf, rfl⟩)
  have hid : g.id = f.id := by simpa using List.find?_some hfind
  have hitem : folderItem g = folderItem f := eq_of_id hnodup
    (folder_mem_items (List.mem_of_find?_eq_some hfind)) (folder_mem_items hf) hid
  rw [RequestState.parentOf, hfind]
  exact congrArg (fun i => some i.folderId) hitem

theorem depth_le {place : Option String} {n : ℕ} (h : Depth s.parentOf place n) :
    n ≤ s.folders.length := by
  have hle := @Depth.le_length _ _ _ _ (s.folders.map ApiFolder.id) h fun k hk => by
    obtain ⟨place, hplace⟩ := Option.isSome_iff_exists.mp hk
    obtain ⟨f, hf, rfl, -⟩ := parentOf_eq_some hplace
    exact List.mem_map_of_mem hf
  simpa using hle

/-- More fuel than there are folders below a place changes nothing. -/
theorem fuel_irrelevant (hnodup : s.ids.Nodup) {place : Option String} {n : ℕ}
    (hdepth : Depth s.parentOf place n) {fuel fuel' : ℕ} (hfuel : s.folders.length < fuel + n)
    (hfuel' : s.folders.length < fuel' + n) :
    buildTree dateParse s fuel place = buildTree dateParse s fuel' place := by
  have hle := depth_le hdepth
  induction fuel generalizing place n fuel' with
  | zero => omega
  | succ fuel ih =>
    obtain ⟨fuel', rfl⟩ : ∃ m, fuel' = m + 1 := ⟨fuel' - 1, by omega⟩
    have hfolders : ((s.folders.filter fun f => f.folderId = place).map fun folder =>
        TreeNode.folder folder (buildTree dateParse s fuel (some folder.id))) =
        (s.folders.filter fun f => f.folderId = place).map fun folder =>
          TreeNode.folder folder (buildTree dateParse s fuel' (some folder.id)) := by
      refine List.map_congr_left fun f hf => ?_
      rw [List.mem_filter, decide_eq_true_eq] at hf
      have hchild : Depth s.parentOf (some f.id) (n + 1) :=
        .link (by rw [parentOf_folder hnodup hf.1, hf.2]) hdepth
      have hfewer : s.folders.length < fuel + (n + 1) := by omega
      have hfewer' : s.folders.length < fuel' + (n + 1) := by omega
      rw [ih hchild hfewer hfewer' (depth_le hchild)]
    rw [buildTree, buildTree, hfolders]

end Voleeo.Tree

/-!
## Moves in the tree

A drop becomes one update of the dragged item: the folder it goes to, and an
order between its future neighbours.
-/
namespace Voleeo.Tree

def getId (n : TreeNode) : String :=
  match n with
  | .folder f _ => f.id
  | .request r => r.id
  | .webSocket c => c.id
  | .grpc g => g.id

/-- `none` when no node has the id; `some none` for a node at the root. -/
def findParent : List TreeNode → String → Option String → Option (Option String)
  | [], _, _ => none
  | .folder f children :: rest, id, parent =>
    if f.id = id then some parent
    else
      match findParent children id (some f.id) with
      | some found => some found
      | none => findParent rest id parent
  | n :: rest, id, parent => if getId n = id then some parent else findParent rest id parent

/-- The loop of `getChildren` for a folder. -/
def getFolderChildren : List TreeNode → String → Option (List TreeNode)
  | [], _ => none
  | .folder f children :: rest, parentId =>
    if f.id = parentId then some children
    else
      match getFolderChildren children parentId with
      | some found => some found
      | none => getFolderChildren rest parentId
  | _ :: rest, parentId => getFolderChildren rest parentId

def getChildren (nodes : List TreeNode) : Option String → Option (List TreeNode)
  | none => some nodes
  | some parentId => getFolderChildren nodes parentId

inductive DropZone
  | before (id : String)
  | after (id : String)
  | into (id : String)
  deriving DecidableEq, Repr

def DropZone.id : DropZone → String
  | .before id => id
  | .after id => id
  | .into id => id

structure MoveItemUpdate where
  id : String
  kind : ItemKind
  folderId : Option String
  order : ℚ
  deriving DecidableEq, Repr

variable (dateParse : String → ℚ)

/-- `Math.max` over a list that is not empty. -/
def maxOrder : List ℚ → Option ℚ
  | [] => none
  | q :: qs => some (qs.foldl max q)

def midOrder : Option ℚ → Option ℚ → ℚ
  | none, none => 1000
  | none, some next => next - 500
  | some prev, none => prev + 1000
  | some prev, some next => (prev + next) / 2

/-- The orders on both sides of the gap beside a zone item. -/
def neighbours (zone : DropZone) (sibs : List TreeNode) : Option ℚ × Option ℚ :=
  let orders := sibs.map (effectiveOrder dateParse)
  match zone with
  | .into _ => (maxOrder orders, none)
  | .before id =>
    match sibs.findIdx? fun n => getId n = id with
    | some idx => (if 0 < idx then orders[idx - 1]? else none, orders[idx]?)
    | none => (none, none)
  | .after id =>
    match sibs.findIdx? fun n => getId n = id with
    | some idx => (orders[idx]?, orders[idx + 1]?)
    | none => (none, orders[0]?) -- `idx` is -1

/-- The folder that a drop goes to. -/
def dropParent (tree : List TreeNode) : DropZone → Option (Option String)
  | .into id => some (some id)
  | .before id => findParent tree id none
  | .after id => findParent tree id none

def computeUpdate (tree : List TreeNode) (draggingId : String) (zone : DropZone) :
    Option MoveItemUpdate :=
  if zone.id = draggingId then none
  else do
    let srcParent ← findParent tree draggingId none
    let dragged ← ((getChildren tree srcParent).getD []).find? fun n => getId n = draggingId
    let dstParent ← dropParent tree zone
    let sibs := ((getChildren tree dstParent).getD []).filter fun n => getId n ≠ draggingId
    let gap := neighbours dateParse zone sibs
    return {
      id := draggingId
      kind := dragged.item.kind
      folderId := dstParent
      order := midOrder gap.1 gap.2 }

/-- The first update for an item of a kind. -/
def updateFor (updates : List MoveItemUpdate) (id : String) (kind : ItemKind) :
    Option MoveItemUpdate :=
  updates.find? fun u => u.id = id && u.kind = kind

def moveFolder (updates : List MoveItemUpdate) (f : ApiFolder) : ApiFolder :=
  match updateFor updates f.id .folder with
  | some u => { f with folderId := u.folderId, order := u.order }
  | none => f

def moveRequest (updates : List MoveItemUpdate) (r : HttpRequest) : HttpRequest :=
  match updateFor updates r.id .request with
  | some u => { r with folderId := u.folderId, order := u.order }
  | none => r

def moveConnection (updates : List MoveItemUpdate) (c : WsConnection) : WsConnection :=
  match updateFor updates c.id .webSocket with
  | some u => { c with folderId := u.folderId, order := u.order }
  | none => c

def moveGrpcRequest (updates : List MoveItemUpdate) (g : GrpcRequest) : GrpcRequest :=
  match updateFor updates g.id .grpc with
  | some u => { g with folderId := u.folderId, order := u.order }
  | none => g

def moveItems (s : RequestState) (updates : List MoveItemUpdate) : RequestState where
  folders := s.folders.map (moveFolder updates)
  requests := s.requests.map (moveRequest updates)
  connections := s.connections.map (moveConnection updates)
  grpcRequests := s.grpcRequests.map (moveGrpcRequest updates)

structure Drag where
  draggingId : String
  zone : DropZone
  deriving DecidableEq, Repr

/-- A drop on the tree that the store shows. -/
def drop (s : RequestState) (drag : Drag) : RequestState :=
  match computeUpdate dateParse (tree dateParse s) drag.draggingId drag.zone with
  | some u => moveItems s [u]
  | none => s

theorem getId_eq (n : TreeNode) : getId n = n.item.id := by
  cases n <;> rfl

end Voleeo.Tree
