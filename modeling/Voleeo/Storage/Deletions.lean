import Voleeo.Storage.ForestRuns

/-!
# Deleting items on both front ends

A workspace holds requests and folders, WebSocket connections and gRPC requests,
each of which may lie in a folder, and snapshots that belong to requests. The
desktop sweeps the snapshots of the requests that it deletes; the tools of the
MCP server call the request store alone.
-/
namespace Voleeo.Storage
open Fallible (Outcome)

def connectionKey (c : WsConnection) : FileKey := (c.workspaceId, c.id)

def grpcKey (g : GrpcRequest) : FileKey := (g.workspaceId, g.id)

def snapshotKey (p : Snapshot) : FileKey := (p.workspaceId, p.id)

/-- The files of all stores. -/
structure Items where
  store : World
  connections : Records connectionKey
  grpcRequests : Records grpcKey
  snapshots : Records snapshotKey

abbrev Stores (α : Type) := Fallible Items Failure α

/-- An operation of the request store. -/
def onStore {α : Type} (x : Store α) : Stores α := fun s =>
  match x s.store with
  | (a, store) => (a, { s with store })

/-! ## The commands -/

section Operations
variable (env : Env)

/-- The requests in a folder and in the folders below it. -/
def requestIdsBelow (workspaceId : String) : ℕ → String → Store (List String)
  | 0, _ => Fallible.throw .outOfFuel
  | fuel + 1, folderId => do
      let requests ← listRequests env workspaceId
      let ids := (requests.filter fun r => r.folderId = some folderId).map (·.id)
      let folders ← listFolders env workspaceId
      let nested ← (folders.filter fun f => f.folderId = some folderId).mapM fun f =>
        requestIdsBelow workspaceId fuel f.id
      return ids ++ nested.flatten

def descendantRequestIds (workspaceId folderId : String) : Store (List String) := do
  let depth := (← Fallible.get).folders.toList.length
  requestIdsBelow env workspaceId (depth + 1) folderId

/-- Pinned snapshots come first, then the older ones. -/
def readAllSnapshots (workspaceId : String) : Stores (List Snapshot) := do
  onStore (lift (validateId workspaceId))
  onStore (fileSystem env)
  let s ← Fallible.get
  let items := s.snapshots.toList.filter fun p => p.workspaceId = workspaceId
  let entries ← onStore (ask fun t => env.readDir t items)
  return sortBy (fun p => toLex (!p.pinned, p.createdAt)) entries

def listSnapshots (workspaceId requestId : String) : Stores (List Snapshot) := do
  let items ← readAllSnapshots env workspaceId
  return items.filter fun p => p.requestId = requestId

def deleteSnapshot (workspaceId id : String) : Stores Unit := do
  onStore (lift (validateId workspaceId))
  onStore (lift (validateId id))
  if ((← Fallible.get).snapshots.find? (workspaceId, id)).isSome then
    onStore (fileSystem env)
    Fallible.modify fun s => { s with snapshots := s.snapshots.remove (workspaceId, id) }

def deleteByRequest (workspaceId requestId : String) : Stores Unit := do
  let snapshots ← listSnapshots env workspaceId requestId
  snapshots.forM fun p => deleteSnapshot env workspaceId p.id

/-- The desktop command `delete_request`. -/
def deleteRequestCommand (workspaceId id : String) : Stores Unit := do
  deleteByRequest env workspaceId id
  onStore (deleteRequest env workspaceId id)

/-- The desktop command `delete_folder`. -/
def deleteFolderCommand (workspaceId id : String) : Stores Unit := do
  let ids ← onStore (descendantRequestIds env workspaceId id)
  ids.forM fun requestId => deleteByRequest env workspaceId requestId
  onStore (deleteFolderCascade env workspaceId id)

/-- The tool `request.delete`. -/
def requestDelete (workspaceId id : String) : Stores Unit :=
  onStore (deleteRequest env workspaceId id)

/-- The tool `folder.delete`. -/
def folderDelete (workspaceId id : String) : Stores Unit :=
  onStore (deleteFolderCascade env workspaceId id)

end Operations

inductive FrontEnd
  | desktop
  | mcp
  deriving DecidableEq

inductive Item
  | request (id : String)
  | folder (id : String)

structure Deletion where
  frontEnd : FrontEnd
  workspaceId : String
  item : Item

def Deletion.exec (env : Env) (d : Deletion) : Stores Unit :=
  match d.frontEnd, d.item with
  | .desktop, .request id => deleteRequestCommand env d.workspaceId id
  | .desktop, .folder id => deleteFolderCommand env d.workspaceId id
  | .mcp, .request id => requestDelete env d.workspaceId id
  | .mcp, .folder id => folderDelete env d.workspaceId id

/-! ## What a deletion is to remove -/

/-- The folders that go with an item: none, or the folder and the folders below it. -/
def Deletion.folderIds (s : Items) (d : Deletion) : Set String :=
  match d.item with
  | .request _ => ∅
  | .folder id => {k | Under (s.store.parentOf d.workspaceId) id k}

/-- An item of the workspace lies in a folder that goes. -/
def Deletion.Inside (s : Items) (d : Deletion) (workspaceId : String) (place : Option String) :
    Prop :=
  workspaceId = d.workspaceId ∧ ∃ p ∈ d.folderIds s, place = some p

def Deletion.RemovesFolder (s : Items) (d : Deletion) (f : ApiFolder) : Prop :=
  f.workspaceId = d.workspaceId ∧ f.id ∈ d.folderIds s

def Deletion.RemovesRequest (s : Items) (d : Deletion) (r : HttpRequest) : Prop :=
  match d.item with
  | .request id => requestKey r = (d.workspaceId, id)
  | .folder _ => d.Inside s r.workspaceId r.folderId

/-- The snapshot is of a request that goes. -/
def Deletion.RemovesSnapshot (s : Items) (d : Deletion) (p : Snapshot) : Prop :=
  ∃ r ∈ s.store.requests.toList, d.RemovesRequest s r ∧ r.workspaceId = p.workspaceId ∧
    r.id = p.requestId

/-- The item and everything below it is gone, and everything else is there. -/
structure DeletedExactly (d : Deletion) (s s' : Items) : Prop where
  folders : ∀ f, f ∈ s'.store.folders.toList ↔
    f ∈ s.store.folders.toList ∧ ¬ d.RemovesFolder s f
  requests : ∀ r, r ∈ s'.store.requests.toList ↔
    r ∈ s.store.requests.toList ∧ ¬ d.RemovesRequest s r
  connections : ∀ c, c ∈ s'.connections.toList ↔
    c ∈ s.connections.toList ∧ ¬ d.Inside s c.workspaceId c.folderId
  grpcRequests : ∀ g, g ∈ s'.grpcRequests.toList ↔
    g ∈ s.grpcRequests.toList ∧ ¬ d.Inside s g.workspaceId g.folderId
  snapshots : ∀ p, p ∈ s'.snapshots.toList ↔ p ∈ s.snapshots.toList ∧ ¬ d.RemovesSnapshot s p

/-- The place is the root or a folder of the workspace. -/
def Items.HasPlace (s : Items) (workspaceId : String) (place : Option String) : Prop :=
  ∀ p, place = some p → ∃ f ∈ s.store.folders.toList, f.workspaceId = workspaceId ∧ f.id = p

/-- Every folder id and every request id names an item. -/
structure NoDangling (s : Items) : Prop where
  folders : ∀ f ∈ s.store.folders.toList, s.HasPlace f.workspaceId f.folderId
  requests : ∀ r ∈ s.store.requests.toList, s.HasPlace r.workspaceId r.folderId
  connections : ∀ c ∈ s.connections.toList, s.HasPlace c.workspaceId c.folderId
  grpcRequests : ∀ g ∈ s.grpcRequests.toList, s.HasPlace g.workspaceId g.folderId
  snapshots : ∀ p ∈ s.snapshots.toList, ∃ r ∈ s.store.requests.toList,
    r.workspaceId = p.workspaceId ∧ r.id = p.requestId

/-- What the front ends leave out: no connection and no gRPC request lies in a folder that goes,
and over MCP no request that goes has a snapshot. -/
structure Covered (d : Deletion) (s : Items) : Prop where
  connections : ∀ c ∈ s.connections.toList, ¬ d.Inside s c.workspaceId c.folderId
  grpcRequests : ∀ g ∈ s.grpcRequests.toList, ¬ d.Inside s g.workspaceId g.folderId
  snapshots : d.frontEnd = .mcp → ∀ p ∈ s.snapshots.toList, ¬ d.RemovesSnapshot s p

/-! ## Operations that succeed -/

/-- Where the operation ends with a result, that and the state are as stated. -/
def Succeeds {σ α : Type} (x : Fallible σ Failure α) (s : σ) (Q : α → σ → Prop) : Prop :=
  Outcome x s Q fun _ _ => True

namespace Succeeds

variable {σ α β : Type} {x : Fallible σ Failure α} {g : α → Fallible σ Failure β} {s : σ}
  {Q : α → σ → Prop} {R : β → σ → Prop}

theorem bind (hx : Succeeds x s Q) (hg : ∀ a s', Q a s' → Succeeds (g a) s' R) :
    Succeeds (x >>= g) s R := Outcome.bind hx hg

theorem mono {Q' : α → σ → Prop} (hx : Succeeds x s Q) (h : ∀ a s', Q a s' → Q' a s') :
    Succeeds x s Q' := Outcome.mono hx h fun _ _ he => he

theorem pure {a : α} (h : Q a s) : Succeeds (Pure.pure a) s Q := h

theorem of_eq {a : α} {s' : σ} (hx : Succeeds x s Q) (h : x s = (.ok a, s')) : Q a s' := by
  rw [Succeeds, Outcome, h] at hx
  exact hx

end Succeeds

variable {env : Env} {w w' : World} {ws id : String}

theorem Reads.succeeds {α : Type} {x : Store α} {Q : α → Prop} (h : Reads x w Q) :
    Succeeds x w fun a w' => SameFiles w w' ∧ Q a :=
  Outcome.mono h (fun _ _ hQ => hQ) fun _ _ _ => trivial

theorem deleteRequest_succeeds : Succeeds (deleteRequest env ws id) w fun _ w' =>
    w'.folders = w.folders ∧
      ∀ r, r ∈ w'.requests.toList ↔ r ∈ w.requests.toList ∧ requestKey r ≠ (ws, id) := by
  refine (Reads.lift _).succeeds.bind fun _ w₁ hend => ?_
  obtain ⟨h₁, _⟩ := hend
  refine (Reads.lift _).succeeds.bind fun _ w₂ hend => ?_
  obtain ⟨h₂, _⟩ := hend
  have h₁₂ := h₁.trans h₂
  refine get_reads.succeeds.bind fun _ w₃ hend => ?_
  obtain ⟨h₃, heq⟩ := hend
  subst heq
  have h₁₃ := h₁₂.trans h₃
  split_ifs with hfind
  · refine Reads.fileSystem.succeeds.bind fun _ w₄ h₄ => Outcome.modify ?_
    have h₁₄ := h₁₃.trans h₄.1
    refine ⟨h₁₄.folders, fun r => ?_⟩
    rw [Records.mem_remove, h₁₄.requests]
  · refine .pure ⟨h₁₃.folders, fun r => ?_⟩
    rw [Option.not_isSome_iff_eq_none, h₁₂.requests, Records.find?_eq_none_iff] at hfind
    rw [h₁₃.requests]
    exact ⟨fun hr => ⟨hr, hfind r hr⟩, And.left⟩

theorem deleteFolder_succeeds : Succeeds (deleteFolder env ws id) w fun _ w' =>
    w'.requests = w.requests ∧
      ∀ f, f ∈ w'.folders.toList ↔ f ∈ w.folders.toList ∧ folderKey f ≠ (ws, id) := by
  refine (Reads.lift _).succeeds.bind fun _ w₁ hend => ?_
  obtain ⟨h₁, _⟩ := hend
  refine (Reads.lift _).succeeds.bind fun _ w₂ hend => ?_
  obtain ⟨h₂, _⟩ := hend
  have h₁₂ := h₁.trans h₂
  refine get_reads.succeeds.bind fun _ w₃ hend => ?_
  obtain ⟨h₃, heq⟩ := hend
  subst heq
  have h₁₃ := h₁₂.trans h₃
  split_ifs with hfind
  · refine Reads.fileSystem.succeeds.bind fun _ w₄ h₄ => Outcome.modify ?_
    have h₁₄ := h₁₃.trans h₄.1
    refine ⟨h₁₄.requests, fun f => ?_⟩
    rw [Records.mem_remove, h₁₄.folders]
  · refine .pure ⟨h₁₃.requests, fun f => ?_⟩
    rw [Option.not_isSome_iff_eq_none, h₁₂.folders, Records.find?_eq_none_iff] at hfind
    rw [h₁₃.folders]
    exact ⟨fun hf => ⟨hf, hfind f hf⟩, And.left⟩

theorem deleteRequests_succeeds {xs : List HttpRequest} :
    Succeeds (xs.forM fun r => deleteRequest env ws r.id) w fun _ w' =>
      w'.folders = w.folders ∧ ∀ r, r ∈ w'.requests.toList ↔
        r ∈ w.requests.toList ∧ ∀ x ∈ xs, requestKey r ≠ (ws, x.id) := by
  induction xs generalizing w with
  | nil => exact .pure ⟨rfl, by simp⟩
  | cons x xs ih =>
    refine deleteRequest_succeeds.bind fun _ w₁ ⟨hfolders₁, hrequests₁⟩ => ?_
    refine ih.mono fun _ w₂ ⟨hfolders₂, hrequests₂⟩ => ⟨hfolders₂.trans hfolders₁, fun r => ?_⟩
    rw [hrequests₂, hrequests₁, List.forall_mem_cons, and_assoc]

/-! ## The cascade -/

/-- The files without the folders in `S` and without what lies directly in a folder of `T`. -/
structure Without (ws : String) (S T : Set String) (w₀ w : World) : Prop where
  folders : ∀ f, f ∈ w.folders.toList ↔
    f ∈ w₀.folders.toList ∧ ¬ (f.workspaceId = ws ∧ f.id ∈ S)
  requests : ∀ r, r ∈ w.requests.toList ↔
    r ∈ w₀.requests.toList ∧ ¬ (r.workspaceId = ws ∧ ∃ p ∈ T, r.folderId = some p)

theorem Without.refl (ws : String) (w : World) : Without ws ∅ ∅ w w :=
  ⟨fun f => by simp, fun r => by simp⟩

variable {S T : Set String} {w₀ : World}

theorem Without.of_same (h : Without ws S T w₀ w) (hsame : SameFiles w w') : Without ws S T w₀ w' :=
  ⟨fun f => by rw [hsame.folders, h.folders], fun r => by rw [hsame.requests, h.requests]⟩

/-- The requests of one more folder are gone. -/
theorem Without.deleteRequests (h : Without ws S T w₀ w) {requests : List HttpRequest}
    (hlist : ∀ r, r ∈ requests ↔ r ∈ w.requests.toList ∧ r.workspaceId = ws) :
    Succeeds ((requests.filter fun r => r.folderId = some id).forM fun r =>
      deleteRequest env ws r.id) w fun _ w' => Without ws S (T ∪ {id}) w₀ w' := by
  refine deleteRequests_succeeds.mono fun _ w' ⟨hfolders, hrequests⟩ =>
    ⟨fun f => by rw [hfolders, h.folders], fun r => ?_⟩
  rw [hrequests, h.requests]
  constructor
  · rintro ⟨⟨hr, hT⟩, hkeys⟩
    refine ⟨hr, ?_⟩
    rintro ⟨rfl, p, hp | rfl, hplace⟩
    · exact hT ⟨rfl, p, hp, hplace⟩
    · refine hkeys r ?_ rfl
      exact List.mem_filter.mpr ⟨(hlist r).mpr ⟨(h.requests r).mpr ⟨hr, hT⟩, rfl⟩, by simpa⟩
  · rintro ⟨hr, hT⟩
    have hkept : ¬ (r.workspaceId = ws ∧ ∃ p ∈ T, r.folderId = some p) :=
      fun ⟨hws, p, hp, hplace⟩ => hT ⟨hws, p, .inl hp, hplace⟩
    refine ⟨⟨hr, hkept⟩, fun x hx hkey => hT ?_⟩
    obtain ⟨hmem, hplace⟩ := List.mem_filter.mp hx
    obtain ⟨hx, rfl⟩ := (hlist x).mp hmem
    have heq : r = x := List.inj_on_of_nodup_map w.requests.nodup
      ((h.requests r).mpr ⟨hr, hkept⟩) hx hkey
    subst heq
    exact ⟨rfl, id, .inr rfl, by simpa using hplace⟩

/-- The folders below the children `cs`. -/
def underAny (w₀ : World) (ws : String) (cs : List ApiFolder) : Set String :=
  {k | ∃ c ∈ cs, Under (w₀.parentOf ws) c.id k}

theorem underAny_cons (c : ApiFolder) (cs : List ApiFolder) :
    underAny w₀ ws (c :: cs) = {k | Under (w₀.parentOf ws) c.id k} ∪ underAny w₀ ws cs := by
  ext k
  simp [underAny]

/-- What a folder and its children cover is what hangs under the folder, but for what was gone
with a child before. -/
theorem union_under (hS : Closed (w₀.parentOf ws) S) {cs : List ApiFolder}
    (hcs : ∀ c, c ∈ cs ↔ (c ∈ w₀.folders.toList ∧ c.workspaceId = ws ∧ c.folderId = some id) ∧
      c.id ∉ S) :
    S ∪ underAny w₀ ws cs ∪ {id} = S ∪ {k | Under (w₀.parentOf ws) id k} := by
  ext k
  constructor
  · rintro ((hk | ⟨c, hc, hk⟩) | rfl)
    · exact .inl hk
    · obtain ⟨⟨hmem, hws, hplace⟩, -⟩ := (hcs c).mp hc
      refine .inr (hk.trans (.link ?_ .self))
      rw [← hws, parentOf_of_mem hmem, hplace]
    · exact .inr .self
  · rintro (hk | hk)
    · exact .inl (.inl hk)
    · rcases under_iff.mp hk with rfl | ⟨c, hc, hunder⟩
      · exact .inr rfl
      · obtain ⟨f, hmem, hws, rfl, hplace⟩ := parentOf_eq_some_iff.mp hc
        by_cases hf : f.id ∈ S
        · exact .inl (.inl (hS.mem_of_under hf hunder))
        · exact .inl (.inr ⟨f, (hcs f).mpr ⟨⟨hmem, hws, hplace⟩, hf⟩, hunder⟩)

/-- A cascade that ends has removed the folder and what hangs under it. -/
theorem deleteFolderTree_succeeds {fuel : ℕ} (hS : Closed (w₀.parentOf ws) S) (hST : S ⊆ T)
    (h : Without ws S T w₀ w) : Succeeds (deleteFolderTree env ws fuel id) w fun _ w' =>
      Without ws (S ∪ {k | Under (w₀.parentOf ws) id k}) (T ∪ {k | Under (w₀.parentOf ws) id k})
        w₀ w' := by
  induction fuel generalizing w S T id with
  | zero => exact trivial
  | succ fuel ih =>
    have hloop : ∀ (cs : List ApiFolder) (S T : Set String) (w : World),
        Closed (w₀.parentOf ws) S → S ⊆ T → Without ws S T w₀ w →
        Succeeds (cs.forM fun f => deleteFolderTree env ws fuel f.id) w fun _ w' =>
          Without ws (S ∪ underAny w₀ ws cs) (T ∪ underAny w₀ ws cs) w₀ w' := by
      intro cs
      induction cs with
      | nil => exact fun S T w _ _ hw => .pure (by simpa [underAny] using hw)
      | cons c cs ihcs =>
        intro S T w hS hST hw
        refine (ih hS hST hw).bind fun _ w₁ hw₁ => ?_
        refine (ihcs _ _ w₁ (hS.union (closed_under c.id)) (Set.union_subset_union_left _ hST)
          hw₁).mono fun _ w₂ hw₂ => ?_
        rwa [underAny_cons, ← Set.union_assoc, ← Set.union_assoc]
    rw [deleteFolderTree]
    refine listRequests_reads.succeeds.bind fun requests w₁ hend => ?_
    obtain ⟨h₁, hrequests⟩ := hend
    have hrequests' : ∀ r, r ∈ requests ↔ r ∈ w₁.requests.toList ∧ r.workspaceId = ws :=
      fun r => by rw [h₁.requests, hrequests]
    refine ((h.of_same h₁).deleteRequests hrequests').bind fun _ w₂ hw₂ => ?_
    refine listFolders_reads.succeeds.bind fun folders w₃ hend => ?_
    obtain ⟨h₃, hfolders⟩ := hend
    refine (hloop _ S (T ∪ {id}) w₃ hS (hST.trans Set.subset_union_left)
      (hw₂.of_same h₃)).bind fun _ w₄ hw₄ => ?_
    refine deleteFolder_succeeds.mono fun _ w₅ hend => ?_
    obtain ⟨hrequests₅, hfolders₅⟩ := hend
    set cs := folders.filter fun f => f.folderId = some id with hcs
    have hmem : ∀ c, c ∈ cs ↔ (c ∈ w₀.folders.toList ∧ c.workspaceId = ws ∧
        c.folderId = some id) ∧ c.id ∉ S := by
      intro c
      rw [hcs, List.mem_filter, decide_eq_true_eq, hfolders, hw₂.folders]
      constructor
      · rintro ⟨⟨⟨hc, hkept⟩, hws⟩, hplace⟩
        exact ⟨⟨hc, hws, hplace⟩, fun hcS => hkept ⟨hws, hcS⟩⟩
      · rintro ⟨⟨hc, hws, hplace⟩, hcS⟩
        exact ⟨⟨⟨hc, fun hboth => hcS hboth.2⟩, hws⟩, hplace⟩
    have hunion := union_under hS hmem
    refine ⟨fun f => ?_, fun r => ?_⟩
    · rw [hfolders₅, hw₄.folders, ← hunion, folderKey]
      constructor
      · rintro ⟨⟨hf, hkept⟩, hkey⟩
        refine ⟨hf, ?_⟩
        rintro ⟨rfl, hin | rfl⟩
        · exact hkept ⟨rfl, hin⟩
        · exact hkey rfl
      · rintro ⟨hf, hkept⟩
        refine ⟨⟨hf, fun hboth => hkept ⟨hboth.1, .inl hboth.2⟩⟩, fun hkey => hkept ?_⟩
        exact ⟨congrArg Prod.fst hkey, .inr (congrArg Prod.snd hkey)⟩
    · have hT : T ∪ {id} ∪ underAny w₀ ws cs = T ∪ {k | Under (w₀.parentOf ws) id k} := by
        rw [Set.union_assoc, Set.union_comm {id}, ← Set.union_eq_left.mpr hST, Set.union_assoc T,
          ← Set.union_assoc S, hunion, Set.union_assoc]
      rw [hrequests₅, hw₄.requests, hT]

theorem deleteFolderCascade_succeeds : Succeeds (deleteFolderCascade env ws id) w fun _ w' =>
    Without ws {k | Under (w.parentOf ws) id k} {k | Under (w.parentOf ws) id k} w w' := by
  refine get_reads.succeeds.bind fun _ w₁ ⟨h₁, _⟩ => ?_
  have hstart := (Without.refl ws w).of_same h₁
  refine (deleteFolderTree_succeeds (fun _ _ _ hp => hp) (Set.Subset.refl ∅) hstart).mono
    fun _ w' hw' => ?_
  simpa using hw'

/-! ## Snapshots of deleted requests -/

/-- The ids are those of the requests of the workspace that lie under one of the folders. -/
def IdsUnder (w : World) (ws : String) (tops : Set String) (ids : List String) : Prop :=
  ∀ x, x ∈ ids ↔ ∃ r ∈ w.requests.toList, r.workspaceId = ws ∧ r.id = x ∧
    ∃ top ∈ tops, ∃ p, Under (w.parentOf ws) top p ∧ r.folderId = some p

theorem requestIdsBelow_succeeds {fuel : ℕ} : Succeeds (requestIdsBelow env ws fuel id) w
    fun ids w' => SameFiles w w' ∧ IdsUnder w ws {id} ids := by
  induction fuel generalizing w id with
  | zero => exact trivial
  | succ fuel ih =>
    have hloop : ∀ (cs : List ApiFolder) (w : World),
        Succeeds (cs.mapM fun f => requestIdsBelow env ws fuel f.id) w fun idss w' =>
          SameFiles w w' ∧ IdsUnder w ws {k | ∃ c ∈ cs, c.id = k} idss.flatten := by
      intro cs
      induction cs with
      | nil => exact fun w => .pure ⟨.refl w, fun x => by simp⟩
      | cons c cs ihcs =>
        intro w
        rw [List.mapM_cons]
        refine ih.bind fun ids w₁ ⟨h₁, hids⟩ => (ihcs w₁).bind fun idss w₂ ⟨h₂, hidss⟩ => ?_
        refine .pure ⟨h₁.trans h₂, fun x => ?_⟩
        rw [List.flatten_cons, List.mem_append, hids, hidss, h₁.requests, h₁.parentOf]
        constructor
        · rintro (⟨r, hr, hws, hx, top, rfl, hp⟩ | ⟨r, hr, hws, hx, top, ⟨f, hf, rfl⟩, hp⟩)
          · exact ⟨r, hr, hws, hx, c.id, ⟨c, List.mem_cons_self, rfl⟩, hp⟩
          · exact ⟨r, hr, hws, hx, f.id, ⟨f, List.mem_cons_of_mem _ hf, rfl⟩, hp⟩
        · rintro ⟨r, hr, hws, hx, top, ⟨f, hf, rfl⟩, hp⟩
          rcases List.mem_cons.mp hf with rfl | hf
          · exact .inl ⟨r, hr, hws, hx, f.id, rfl, hp⟩
          · exact .inr ⟨r, hr, hws, hx, f.id, ⟨f, hf, rfl⟩, hp⟩
    rw [requestIdsBelow]
    refine listRequests_reads.succeeds.bind fun requests w₁ ⟨h₁, hrequests⟩ => ?_
    refine listFolders_reads.succeeds.bind fun folders w₂ ⟨h₂, hfolders⟩ => ?_
    refine (hloop _ w₂).bind fun idss w₃ ⟨h₃, hidss⟩ => .pure ⟨(h₁.trans h₂).trans h₃, ?_⟩
    have h₁₂ := h₁.trans h₂
    intro x
    rw [List.mem_append, hidss, h₁₂.requests, h₁₂.parentOf]
    constructor
    · rintro (hx | ⟨r, hr, hws, hx, top, ⟨c, hc, rfl⟩, p, hunder, hplace⟩)
      · obtain ⟨r, hr, rfl⟩ := List.mem_map.mp hx
        rw [List.mem_filter, hrequests, decide_eq_true_eq] at hr
        exact ⟨r, hr.1.1, hr.1.2, rfl, id, rfl, id, .self, hr.2⟩
      · rw [List.mem_filter, hfolders, decide_eq_true_eq, h₁.folders] at hc
        obtain ⟨⟨hmem, rfl⟩, hparent⟩ := hc
        refine ⟨r, hr, hws, hx, id, rfl, p, hunder.trans (.link ?_ .self), hplace⟩
        rw [parentOf_of_mem hmem, hparent]
    · rintro ⟨r, hr, hws, hx, top, rfl, p, hunder, hplace⟩
      rcases under_iff.mp hunder with rfl | ⟨c, hc, hunder⟩
      · refine .inl (List.mem_map.mpr ⟨r, ?_, hx⟩)
        rw [List.mem_filter, hrequests, decide_eq_true_eq]
        exact ⟨⟨hr, hws⟩, hplace⟩
      · obtain ⟨f, hmem, hfws, rfl, hfplace⟩ := parentOf_eq_some_iff.mp hc
        refine .inr ⟨r, hr, hws, hx, f.id, ⟨f, ?_, rfl⟩, p, hunder, hplace⟩
        rw [List.mem_filter, hfolders, decide_eq_true_eq, h₁.folders]
        exact ⟨⟨hmem, hfws⟩, hfplace⟩

theorem descendantRequestIds_succeeds : Succeeds (descendantRequestIds env ws id) w fun ids w' =>
    SameFiles w w' ∧ IdsUnder w ws {id} ids := by
  refine get_reads.succeeds.bind fun _ w₁ ⟨h₁, _⟩ => ?_
  refine requestIdsBelow_succeeds.mono fun ids w₂ ⟨h₂, hids⟩ => ⟨h₁.trans h₂, fun x => ?_⟩
  rw [hids, h₁.requests, h₁.parentOf]

variable {s s' : Items}

theorem onStore_succeeds {α : Type} {x : Store α} {Q : α → World → Prop}
    (h : Succeeds x s.store Q) :
    Succeeds (onStore x) s fun a s' => s' = { s with store := s'.store } ∧ Q a s'.store := by
  rw [Succeeds, Outcome] at h ⊢
  rw [onStore]
  split at h
  · rename_i a w hrun
    rw [hrun]
    exact ⟨rfl, h⟩
  · rename_i e w hrun
    rw [hrun]
    trivial

/-- Only snapshots are removed, those that `gone` names. -/
structure Swept (gone : Snapshot → Prop) (s s' : Items) : Prop where
  store : SameFiles s.store s'.store
  connections : s'.connections = s.connections
  grpcRequests : s'.grpcRequests = s.grpcRequests
  snapshots : ∀ p, p ∈ s'.snapshots.toList ↔ p ∈ s.snapshots.toList ∧ ¬ gone p

theorem Swept.of_store (hs : s' = { s with store := s'.store })
    (hsame : SameFiles s.store s'.store) : Swept (fun _ => False) s s' := by
  rw [hs]
  exact ⟨hsame, rfl, rfl, fun p => by simp⟩

theorem Swept.trans {s'' : Items} {gone gone' : Snapshot → Prop} (h : Swept gone s s')
    (h' : Swept gone' s' s'') : Swept (fun p => gone p ∨ gone' p) s s'' where
  store := h.store.trans h'.store
  connections := h'.connections.trans h.connections
  grpcRequests := h'.grpcRequests.trans h.grpcRequests
  snapshots p := by rw [h'.snapshots, h.snapshots, not_or, and_assoc]

theorem Swept.congr {gone gone' : Snapshot → Prop} (h : Swept gone s s')
    (heq : ∀ p ∈ s.snapshots.toList, gone p ↔ gone' p) : Swept gone' s s' :=
  ⟨h.store, h.connections, h.grpcRequests, fun p => by
    rw [h.snapshots]
    exact and_congr_right fun hp => not_congr (heq p hp)⟩

/-- An operation that only reads the request store. -/
theorem Reads.swept {α : Type} {x : Store α} {Q : α → Prop} (h : Reads x s.store Q) :
    Succeeds (onStore x) s fun a s' => Swept (fun _ => False) s s' ∧ Q a :=
  (onStore_succeeds h.succeeds).mono fun _ _ ⟨hs, hsame, hQ⟩ => ⟨.of_store hs hsame, hQ⟩

theorem deleteSnapshot_succeeds : Succeeds (deleteSnapshot env ws id) s fun _ s' =>
    Swept (fun p => snapshotKey p = (ws, id)) s s' := by
  refine (Reads.lift _).swept.bind fun _ s₁ hend => ?_
  obtain ⟨h₁, _⟩ := hend
  refine (Reads.lift _).swept.bind fun _ s₂ hend => ?_
  obtain ⟨h₂, _⟩ := hend
  refine Succeeds.bind (Q := fun a s' => a = s₂ ∧ s' = s₂) (Outcome.get ⟨rfl, rfl⟩) ?_
  rintro _ _ ⟨rfl, rfl⟩
  have h₁₂ := h₁.trans h₂
  split_ifs with hfind
  · refine Reads.fileSystem.swept.bind fun _ s₄ h₄ => Outcome.modify ?_
    have h₁₄ := h₁₂.trans h₄.1
    refine ⟨h₁₄.store, h₁₄.connections, h₁₄.grpcRequests, fun p => ?_⟩
    rw [Records.mem_remove, h₁₄.snapshots]
    simp
  · rw [Option.not_isSome_iff_eq_none, Records.find?_eq_none_iff] at hfind
    refine .pure (h₁₂.congr fun p hp => ?_)
    have hkey := hfind p ((h₁₂.snapshots p).mpr ⟨hp, by simp⟩)
    simp [hkey]

theorem listSnapshots_succeeds : Succeeds (listSnapshots env ws id) s fun items s' =>
    Swept (fun _ => False) s s' ∧ ∀ p, p ∈ items ↔
      p ∈ s.snapshots.toList ∧ p.workspaceId = ws ∧ p.requestId = id := by
  refine Succeeds.bind (Q := fun items s' => Swept (fun _ => False) s s' ∧ ∀ p, p ∈ items ↔
    p ∈ s.snapshots.toList ∧ p.workspaceId = ws) ?_ fun items s' ⟨hs, hitems⟩ => ?_
  · refine (Reads.lift _).swept.bind fun _ s₁ ⟨h₁, _⟩ => ?_
    refine Reads.fileSystem.swept.bind fun _ s₂ ⟨h₂, _⟩ => ?_
    refine Succeeds.bind (Q := fun a s' => a = s₂ ∧ s' = s₂) (Outcome.get ⟨rfl, rfl⟩) ?_
    rintro _ _ ⟨rfl, rfl⟩
    refine (Reads.ask _).swept.bind fun entries s₄ ⟨h₄, hentries⟩ => .pure ?_
    have h₁₂ := h₁.trans h₂
    refine ⟨(h₁₂.trans h₄).congr fun p _ => by simp, fun p => ?_⟩
    rw [hentries, mem_sortBy, (env.readDir_perm _ _).mem_iff, List.mem_filter, h₁₂.snapshots,
      decide_eq_true_eq]
    simp
  · refine .pure ⟨hs, fun p => ?_⟩
    rw [List.mem_filter, hitems, decide_eq_true_eq, and_assoc]

/-- The snapshots of one request are gone. -/
theorem deleteByRequest_succeeds : Succeeds (deleteByRequest env ws id) s fun _ s' =>
    Swept (fun p => p.workspaceId = ws ∧ p.requestId = id) s s' := by
  have hloop : ∀ (xs : List Snapshot) (s : Items),
      Succeeds (xs.forM fun p => deleteSnapshot env ws p.id) s fun _ s' =>
        Swept (fun p => ∃ x ∈ xs, snapshotKey p = (ws, x.id)) s s' := by
    intro xs
    induction xs with
    | nil => exact fun s => .pure ⟨.refl _, rfl, rfl, fun p => by simp⟩
    | cons x xs ih =>
      refine fun s => deleteSnapshot_succeeds.bind fun _ s₁ h₁ => (ih s₁).mono fun _ s₂ h₂ => ?_
      exact (h₁.trans h₂).congr fun p _ => by simp
  refine listSnapshots_succeeds.bind fun items s₁ ⟨h₁, hitems⟩ => ?_
  refine (hloop items s₁).mono fun _ s₂ h₂ => (h₁.trans h₂).congr fun p hp => ?_
  rw [false_or]
  constructor
  · rintro ⟨x, hx, hkey⟩
    obtain ⟨hmem, hws, hid⟩ := (hitems x).mp hx
    have heq : p = x := List.inj_on_of_nodup_map s.snapshots.nodup hp hmem
      (by rw [hkey, snapshotKey, hws])
    subst heq
    exact ⟨hws, hid⟩
  · rintro ⟨hws, hid⟩
    exact ⟨p, (hitems p).mpr ⟨hp, hws, hid⟩, by rw [snapshotKey, hws]⟩

theorem deleteByRequests_succeeds {ids : List String} :
    Succeeds (ids.forM fun requestId => deleteByRequest env ws requestId) s fun _ s' =>
      Swept (fun p => p.workspaceId = ws ∧ p.requestId ∈ ids) s s' := by
  induction ids generalizing s with
  | nil => exact .pure ⟨.refl _, rfl, rfl, fun p => by simp⟩
  | cons id ids ih =>
    refine deleteByRequest_succeeds.bind fun _ s₁ h₁ => ih.mono fun _ s₂ h₂ => ?_
    exact (h₁.trans h₂).congr fun p _ => by rw [List.mem_cons, and_or_left]

/-! ## The two front ends -/

/-- What every deletion does: the folders and the requests go, connections and gRPC requests
stay, and the snapshots go on the desktop. -/
structure Deleted (d : Deletion) (s s' : Items) : Prop where
  folders : ∀ f, f ∈ s'.store.folders.toList ↔
    f ∈ s.store.folders.toList ∧ ¬ d.RemovesFolder s f
  requests : ∀ r, r ∈ s'.store.requests.toList ↔
    r ∈ s.store.requests.toList ∧ ¬ d.RemovesRequest s r
  connections : s'.connections = s.connections
  grpcRequests : s'.grpcRequests = s.grpcRequests
  snapshots : ∀ p, p ∈ s'.snapshots.toList ↔
    p ∈ s.snapshots.toList ∧ ¬ (d.frontEnd = .desktop ∧ d.RemovesSnapshot s p)

theorem removesSnapshot_request {frontEnd : FrontEnd} (hdangling : NoDangling s) {p : Snapshot}
    (hp : p ∈ s.snapshots.toList) : Deletion.RemovesSnapshot s ⟨frontEnd, ws, .request id⟩ p ↔
      p.workspaceId = ws ∧ p.requestId = id := by
  constructor
  · rintro ⟨r, hr, hkey, hws, hid⟩
    exact ⟨hws ▸ congrArg Prod.fst hkey, hid ▸ congrArg Prod.snd hkey⟩
  · rintro ⟨rfl, rfl⟩
    obtain ⟨r, hr, hws, hid⟩ := hdangling.snapshots p hp
    exact ⟨r, hr, Prod.ext hws hid, hws, hid⟩

theorem removesSnapshot_folder {frontEnd : FrontEnd} {ids : List String}
    (hids : IdsUnder s.store ws {id} ids) (p : Snapshot) :
    Deletion.RemovesSnapshot s ⟨frontEnd, ws, .folder id⟩ p ↔
      p.workspaceId = ws ∧ p.requestId ∈ ids := by
  rw [hids]
  constructor
  · rintro ⟨r, hr, ⟨hrws, q, hunder, hplace⟩, hws, hid⟩
    exact ⟨hws ▸ hrws, r, hr, hrws, hid, id, rfl, q, hunder, hplace⟩
  · rintro ⟨hws, r, hr, hrws, hid, top, rfl, q, hunder, hplace⟩
    exact ⟨r, hr, ⟨hrws, q, hunder, hplace⟩, hrws.trans hws.symm, hid⟩

variable {s₁ : Items} {d : Deletion}

/-- After the sweep of the snapshots, the request store deletes the request. -/
theorem Swept.deleteRequest {frontEnd : FrontEnd}
    (h : Swept (fun p => frontEnd = .desktop ∧
      Deletion.RemovesSnapshot s ⟨frontEnd, ws, .request id⟩ p) s s₁) :
    Succeeds (onStore (deleteRequest env ws id)) s₁ fun _ s₂ =>
      Deleted ⟨frontEnd, ws, .request id⟩ s s₂ := by
  refine (onStore_succeeds deleteRequest_succeeds).mono
    fun _ s₂ ⟨hs₂, hfolders, hrequests⟩ => ⟨fun f => ?_, fun r => ?_, ?_, ?_, fun p => ?_⟩
  · rw [hfolders, h.store.folders, Deletion.RemovesFolder, Deletion.folderIds]
    simp
  · rw [hrequests, h.store.requests]
    rfl
  · rw [hs₂, ← h.connections]
  · rw [hs₂, ← h.grpcRequests]
  · rw [hs₂, h.snapshots]

/-- After the sweep of the snapshots, the request store deletes the folder. -/
theorem Swept.deleteFolderCascade {frontEnd : FrontEnd}
    (h : Swept (fun p => frontEnd = .desktop ∧
      Deletion.RemovesSnapshot s ⟨frontEnd, ws, .folder id⟩ p) s s₁) :
    Succeeds (onStore (deleteFolderCascade env ws id)) s₁ fun _ s₂ =>
      Deleted ⟨frontEnd, ws, .folder id⟩ s s₂ := by
  refine (onStore_succeeds deleteFolderCascade_succeeds).mono
    fun _ s₂ ⟨hs₂, hwithout⟩ => ⟨fun f => ?_, fun r => ?_, ?_, ?_, fun p => ?_⟩
  · rw [hwithout.folders, h.store.folders, h.store.parentOf]
    rfl
  · rw [hwithout.requests, h.store.requests, h.store.parentOf]
    rfl
  · rw [hs₂, ← h.connections]
  · rw [hs₂, ← h.grpcRequests]
  · rw [hs₂, h.snapshots]

theorem exec_succeeds (d : Deletion) (hdangling : NoDangling s) :
    Succeeds (d.exec env) s fun _ s' => Deleted d s s' := by
  have hnone : ∀ item, Swept (fun p => FrontEnd.mcp = .desktop ∧
      Deletion.RemovesSnapshot s ⟨.mcp, d.workspaceId, item⟩ p) s s := fun item =>
    ⟨.refl _, rfl, rfl, fun p => by simp⟩
  obtain ⟨frontEnd, ws, item⟩ := d
  cases frontEnd with
  | mcp =>
    cases item with
    | request id => exact (hnone _).deleteRequest
    | folder id => exact (hnone _).deleteFolderCascade
  | desktop =>
    cases item with
    | request id =>
      refine deleteByRequest_succeeds.bind fun _ s₁ h₁ => ?_
      exact (h₁.congr fun p hp => by
        rw [removesSnapshot_request hdangling hp, eq_self, true_and]).deleteRequest
    | folder id =>
      refine (onStore_succeeds descendantRequestIds_succeeds).bind ?_
      intro ids s₁ ⟨hs₁, hsame, hids⟩
      have hread := Swept.of_store hs₁ hsame
      refine deleteByRequests_succeeds.bind fun _ s₂ h₂ => ?_
      exact ((hread.trans h₂).congr fun p hp => by
        rw [removesSnapshot_folder hids, eq_self, true_and, false_or]).deleteFolderCascade

/-! ## What is left dangling -/

/-- What is outside the folders that go keeps its place. -/
theorem Deleted.hasPlace {s' : Items} (h : Deleted d s s') {place : Option String}
    (hplace : s.HasPlace ws place) (hout : ¬ d.Inside s ws place) : s'.HasPlace ws place := by
  rintro p rfl
  obtain ⟨f, hf, hws, hid⟩ := hplace p rfl
  refine ⟨f, (h.folders f).mpr ⟨hf, fun hremoved => hout ?_⟩, hws, hid⟩
  exact ⟨hws ▸ hremoved.1, p, hid ▸ hremoved.2, rfl⟩

/-- A folder that stays is not in one that goes. -/
theorem not_inside_of_not_removes {f : ApiFolder} (hf : f ∈ s.store.folders.toList)
    (h : ¬ d.RemovesFolder s f) : ¬ d.Inside s f.workspaceId f.folderId := by
  rintro ⟨hws, p, hp, hplace⟩
  refine h ⟨hws, ?_⟩
  obtain ⟨frontEnd, ws, item⟩ := d
  cases item with
  | request id => exact hp
  | folder id =>
    refine .link ?_ hp
    change s.store.parentOf ws f.id = _
    rw [← show f.workspaceId = ws from hws, parentOf_of_mem hf, hplace]

theorem not_inside_of_not_removesRequest {r : HttpRequest} (h : ¬ d.RemovesRequest s r) :
    ¬ d.Inside s r.workspaceId r.folderId := by
  rintro hinside
  obtain ⟨frontEnd, ws, item⟩ := d
  cases item with
  | request id =>
    obtain ⟨-, p, hp, -⟩ := hinside
    exact hp
  | folder id => exact h hinside

theorem DeletedExactly.noDangling {s' : Items} (h : DeletedExactly d s s')
    (hdeleted : Deleted d s s') (hdangling : NoDangling s) : NoDangling s' where
  folders f hf := by
    obtain ⟨hmem, hkept⟩ := (h.folders f).mp hf
    exact hdeleted.hasPlace (hdangling.folders f hmem) (not_inside_of_not_removes hmem hkept)
  requests r hr := by
    obtain ⟨hmem, hkept⟩ := (h.requests r).mp hr
    exact hdeleted.hasPlace (hdangling.requests r hmem) (not_inside_of_not_removesRequest hkept)
  connections c hc := by
    obtain ⟨hmem, hkept⟩ := (h.connections c).mp hc
    exact hdeleted.hasPlace (hdangling.connections c hmem) hkept
  grpcRequests g hg := by
    obtain ⟨hmem, hkept⟩ := (h.grpcRequests g).mp hg
    exact hdeleted.hasPlace (hdangling.grpcRequests g hmem) hkept
  snapshots p hp := by
    obtain ⟨hmem, hkept⟩ := (h.snapshots p).mp hp
    obtain ⟨r, hr, hws, hid⟩ := hdangling.snapshots p hmem
    exact ⟨r, (h.requests r).mpr ⟨hr, fun hremoved => hkept ⟨r, hr, hremoved, hws, hid⟩⟩, hws, hid⟩

/-- A deletion that succeeds removes exactly the item and what is below it, with nothing left
dangling, if and only if the front end covers all that is to go. -/
theorem deletion_iff (env : Env) (d : Deletion) (s s' : Items) (hdangling : NoDangling s)
    (hrun : d.exec env s = (.ok (), s')) :
    DeletedExactly d s s' ∧ NoDangling s' ↔ Covered d s := by
  have hdeleted := (exec_succeeds d hdangling).of_eq hrun
  have hexact : DeletedExactly d s s' ↔ Covered d s := by
    constructor
    · intro h
      refine ⟨fun c hc => ?_, fun g hg => ?_, fun hmcp p hp => ?_⟩
      · exact ((h.connections c).mp (hdeleted.connections ▸ hc)).2
      · exact ((h.grpcRequests g).mp (hdeleted.grpcRequests ▸ hg)).2
      · refine ((h.snapshots p).mp ((hdeleted.snapshots p).mpr ⟨hp, fun hdesktop => ?_⟩)).2
        rw [hmcp] at hdesktop
        exact absurd hdesktop.1 nofun
    · intro h
      refine ⟨hdeleted.folders, hdeleted.requests, fun c => ?_, fun g => ?_, fun p => ?_⟩
      · rw [hdeleted.connections]
        exact ⟨fun hc => ⟨hc, h.connections c hc⟩, And.left⟩
      · rw [hdeleted.grpcRequests]
        exact ⟨fun hg => ⟨hg, h.grpcRequests g hg⟩, And.left⟩
      · rw [hdeleted.snapshots]
        refine and_congr_right fun hp => not_congr ⟨And.right, fun hremoved => ⟨?_, hremoved⟩⟩
        cases hfront : d.frontEnd with
        | desktop => rfl
        | mcp => exact absurd hremoved (h.snapshots hfront p hp)
  rw [← hexact]
  exact ⟨And.left, fun h => ⟨h, h.noDangling hdeleted hdangling⟩⟩

/-! ## A request with a snapshot -/

def loginRequest : HttpRequest := { HttpRequest.blank with workspaceId := "ws1" }

def loginSnapshot : Snapshot where
  id := "s1"
  workspaceId := "ws1"
  requestId := "r1"
  name := "200 /login"
  createdAt := ""
  encrypted := false
  pinned := false
  request := loginRequest
  response := .blank

def oneSnapshot : Items where
  store := { folders := ⟨[], List.nodup_nil⟩
             requests := ⟨[loginRequest], List.nodup_singleton _⟩
             tick := 0 }
  connections := ⟨[], List.nodup_nil⟩
  grpcRequests := ⟨[], List.nodup_nil⟩
  snapshots := ⟨[loginSnapshot], List.nodup_singleton _⟩

theorem noDangling_oneSnapshot : NoDangling oneSnapshot where
  folders f hf := by simp [oneSnapshot] at hf
  requests r hr p hp := by
    obtain rfl : r = loginRequest := by simpa [oneSnapshot] using hr
    simp [loginRequest, HttpRequest.blank] at hp
  connections c hc := by simp [oneSnapshot] at hc
  grpcRequests g hg := by simp [oneSnapshot] at hg
  snapshots p hp := by
    obtain rfl : p = loginSnapshot := by simpa [oneSnapshot] using hp
    exact ⟨loginRequest, by simp [oneSnapshot], rfl, rfl⟩

/-- The tool `request.delete` on the request. -/
def deleteLogin : Deletion := ⟨.mcp, "ws1", .request "r1"⟩

theorem deleteLogin_ok : ∃ s', deleteLogin.exec faultless oneSnapshot = (.ok (), s') := ⟨_, rfl⟩

theorem deletion_iff_one_snapshot :
    ∃ s', deleteLogin.exec faultless oneSnapshot = (.ok (), s') ∧
      (DeletedExactly deleteLogin oneSnapshot s' ∧ NoDangling s' ↔
        Covered deleteLogin oneSnapshot) := by
  obtain ⟨s', hrun⟩ := deleteLogin_ok
  exact ⟨s', hrun, deletion_iff faultless deleteLogin oneSnapshot s' noDangling_oneSnapshot hrun⟩

/-- The tool leaves the snapshot of the request that it deletes. -/
theorem snapshot_left_dangling :
    ¬ ∀ (env : Env) (d : Deletion) (s s' : Items), NoDangling s → d.exec env s = (.ok (), s') →
      DeletedExactly d s s' ∧ NoDangling s' := by
  intro h
  obtain ⟨s', hrun⟩ := deleteLogin_ok
  obtain ⟨-, hdangling⟩ := h faultless deleteLogin oneSnapshot s' noDangling_oneSnapshot hrun
  have hdeleted := (exec_succeeds deleteLogin noDangling_oneSnapshot).of_eq hrun
  obtain ⟨r, hr, hws, hid⟩ := hdangling.snapshots loginSnapshot
    ((hdeleted.snapshots loginSnapshot).mpr ⟨by simp [oneSnapshot], fun hd => nomatch hd.1⟩)
  exact ((hdeleted.requests r).mp hr).2 (Prod.ext hws hid)

end Voleeo.Storage
