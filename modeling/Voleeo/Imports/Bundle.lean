import Voleeo.Mcp.MaskedAuth
import Voleeo.Storage.Disk
import Voleeo.Storage.DiskDemands

/-!
# The Voleeo bundle

A bundle holds whole workspaces with everything in them, in the clear. For each
one that is selected the import creates a fresh workspace, and it writes the items
under the ids that the bundle gives them.
-/
namespace Voleeo.Imports
open Storage
open Mcp (setSecretsEncrypted)

/-- A workspace with its contents, as the export collects them. -/
structure Bundle where
  workspace : Workspace
  folders : List ApiFolder
  requests : List HttpRequest
  ws : List WsConnection
  grpc : List GrpcRequest
  environments : List Environment

structure VoleeoWorkspace where
  workspace : Workspace
  folders : List ApiFolder
  requests : List HttpRequest
  websockets : List WsConnection
  grpc : List GrpcRequest
  environments : List Environment

structure VoleeoBundle where
  voleeoBundle : String
  workspaces : List VoleeoWorkspace

/-! ## Writing a bundle -/

def markSecretsPlaintext (auth : AuthConfig) : AuthConfig := setSecretsEncrypted false auth

def plainVariables (vs : List EnvironmentVariable) : List EnvironmentVariable :=
  vs.map fun v => { v with encrypted := false }

def plainWorkspace (ws : Workspace) : Workspace :=
  { ws with
    encrypted := false
    syncDir := none
    keyCheck := none
    auth := markSecretsPlaintext ws.auth }

def plainFolder (f : ApiFolder) : ApiFolder :=
  { f with auth := markSecretsPlaintext f.auth, «variables» := plainVariables f.variables }

def plainRequest (r : HttpRequest) : HttpRequest := { r with auth := markSecretsPlaintext r.auth }

def plainConnection (c : WsConnection) : WsConnection :=
  { c with auth := markSecretsPlaintext c.auth }

def plainGrpc (g : GrpcRequest) : GrpcRequest := { g with auth := markSecretsPlaintext g.auth }

def plainEnvironment (e : Environment) : Environment :=
  { e with «variables» := plainVariables e.variables }

def workspaceDoc (b : Bundle) : VoleeoWorkspace where
  workspace := plainWorkspace b.workspace
  folders := b.folders.map plainFolder
  requests := b.requests.map plainRequest
  websockets := b.ws.map plainConnection
  grpc := b.grpc.map plainGrpc
  environments := b.environments.map plainEnvironment

/-- The document, before it is written as YAML. -/
def toVoleeo (bundles : List Bundle) : VoleeoBundle where
  voleeoBundle := "1.0"
  workspaces := bundles.map workspaceDoc

/-! ## Restoring a workspace -/

def VoleeoWorkspace.folderIds (vw : VoleeoWorkspace) : List String := vw.folders.map (·.id)

/-- The folder ids of all items. -/
def VoleeoWorkspace.places (vw : VoleeoWorkspace) : List (Option String) :=
  vw.folders.map (·.folderId) ++ vw.requests.map (·.folderId) ++
    vw.websockets.map (·.folderId) ++ vw.grpc.map (·.folderId)

/-- An id that names no folder of the bundle is dropped. -/
def reparent (known : List String) (folderId : Option String) : Option String :=
  folderId.filter fun id => id ∈ known

def restoredWorkspace (wid : String) (ws : Workspace) : Workspace :=
  { plainWorkspace ws with id := wid }

section
variable (wid : String) (known : List String)

def restoredFolder (f : ApiFolder) : ApiFolder :=
  { plainFolder f with workspaceId := wid, folderId := reparent known f.folderId }

def restoredRequest (r : HttpRequest) : HttpRequest :=
  { plainRequest r with workspaceId := wid, folderId := reparent known r.folderId }

def restoredConnection (c : WsConnection) : WsConnection :=
  { plainConnection c with workspaceId := wid, folderId := reparent known c.folderId }

def restoredGrpc (g : GrpcRequest) : GrpcRequest :=
  { plainGrpc g with workspaceId := wid, folderId := reparent known g.folderId }

end

def restoredEnvironment (wid : String) (e : Environment) : Environment :=
  { plainEnvironment e with workspaceId := wid }

structure VoleeoCounts where
  folders : ℕ
  requests : ℕ
  «variables» : ℕ
  warnings : List String

def countsOf (vw : VoleeoWorkspace) : VoleeoCounts :=
  let dangling := vw.places.countP fun place => (reparent vw.folderIds place).isNone && place.isSome
  { folders := vw.folders.length
    requests := vw.requests.length
    «variables» := (vw.environments.map fun e => e.variables.length).sum
    warnings := if dangling = 0 then [] else
      [toString dangling ++
        " item(s) referenced a missing folder and were placed at the workspace root."] }

structure ImportSummary where
  workspaceId : String
  foldersCreated : ℕ
  requestsCreated : ℕ
  variablesCreated : ℕ
  warnings : List String

/-- One more workspace is in place. -/
def ImportSummary.add (done : ImportSummary) (wid : String) (counts : VoleeoCounts) :
    ImportSummary where
  workspaceId := wid
  foldersCreated := done.foldersCreated + counts.folders
  requestsCreated := done.requestsCreated + counts.requests
  variablesCreated := done.variablesCreated + counts.variables
  warnings := done.warnings ++ counts.warnings

section
variable (m : Machine)

def writeVoleeoWorkspace (wid : String) (vw : VoleeoWorkspace) : OnDisk VoleeoCounts := do
  saveWorkspace m (restoredWorkspace wid vw.workspace)
  writeBulk m (vw.folders.map (restoredFolder wid vw.folderIds))
    (vw.requests.map (restoredRequest wid vw.folderIds))
  vw.websockets.forM fun w => saveConnection m (restoredConnection wid vw.folderIds w)
  vw.grpc.forM fun g => saveGrpc m (restoredGrpc wid vw.folderIds g)
  vw.environments.forM fun e => saveEnvironment m (restoredEnvironment wid e)
  return countsOf vw

/-- A workspace that cannot be written is removed again; the ones before it stay. -/
def importOne (done : ImportSummary) (vw : VoleeoWorkspace) : OnDisk ImportSummary := do
  let created ← createWorkspace m vw.workspace.name false
  match ← Fallible.attempt (writeVoleeoWorkspace m created.id vw) with
  | .ok counts => return done.add created.id counts
  | .error e =>
    let _ ← Fallible.attempt (deleteWorkspace m created.id)
    let _ ← Fallible.attempt (deleteLocalEnvironments m created.id)
    Fallible.throw e

/-- The workspaces of the document that were chosen. -/
def VoleeoBundle.selected (doc : VoleeoBundle) (workspaceIds : List String) :
    List VoleeoWorkspace :=
  doc.workspaces.filter fun vw => vw.workspace.id ∈ workspaceIds

/-- `parsed` is what the content reads as. -/
def importVoleeo (parsed : Except String VoleeoBundle) (workspaceIds : List String) :
    OnDisk ImportSummary := do
  let doc ← onWorld (lift (parsed.mapError fun e =>
    .importError ("not a valid Voleeo Bundle: " ++ e)))
  let selected := doc.selected workspaceIds
  if selected.isEmpty then fail (.importError "No workspaces selected to import.")
  else selected.foldlM (importOne m) ⟨"", 0, 0, 0, []⟩

end

end Voleeo.Imports

/-!
## Restoring one workspace of a bundle

What the restoration of a workspace asks for can be read off from the bundle:
the ids of its items are checked, and its environments are saved in order. When
all is granted, the workspace holds the files of the bundle.
-/
namespace Voleeo.Imports
open Storage
open Fallible (Asks Outcome)

/-- The last environment before with the same id lies in the other directory. -/
def stale (done : List Environment) (e : Environment) : Bool :=
  (done.reverse.find? fun e' => e'.id = e.id).any fun e' => e'.shared != e.shared

/-- The demands of an environment after those that are done. -/
def environmentDemandsAfter (done : List Environment) (e : Environment) : List Demand :=
  idDemand e.id :: environmentDemands true (stale done e) false

/-- The demands of a workspace that exists, item by item. -/
def contentDemands (vw : VoleeoWorkspace) : List Demand :=
  [.call, .call, .mark] ++
  ((vw.folders.map (·.id)).flatMap itemDemands ++ (vw.requests.map (·.id)).flatMap itemDemands) ++
  (vw.websockets.map (·.id)).flatMap itemDemands ++ (vw.grpc.map (·.id)).flatMap itemDemands ++
  Demand.along environmentDemandsAfter [] vw.environments

/-- The files of a workspace besides its environments. -/
def restoredFiles (wid : String) (vw : VoleeoWorkspace) : List File :=
  .workspace (restoredWorkspace wid vw.workspace) ::
    (vw.folders.map fun f => .folder (restoredFolder wid vw.folderIds f)) ++
    (vw.requests.map fun r => .request (restoredRequest wid vw.folderIds r)) ++
    (vw.websockets.map fun c => .connection (restoredConnection wid vw.folderIds c)) ++
    vw.grpc.map fun g => .grpc (restoredGrpc wid vw.folderIds g)

def restoredDisk (d : Disk) (wid : String) (vw : VoleeoWorkspace) : Disk :=
  (d.putAll (restoredFiles wid vw)).savedAll (vw.environments.map (restoredEnvironment wid))

variable {m : Machine} {T : Bool → Disk → Prop} {d : Disk} {wid : String} {vw : VoleeoWorkspace}

/-- No environment lies in the workspace. -/
def NoEnvironments (d : Disk) (wid : String) : Prop :=
  ∀ shared id, (d.environments shared).find? (wid, id) = none

theorem staleFile_savedAll (hd : NoEnvironments d wid) (done : List Environment) (e : Environment) :
    (staleFile (d.savedAll (done.map (restoredEnvironment wid)))
      (restoredEnvironment wid e)).isSome = stale done e := by
  have hkey : environmentKey (restoredEnvironment wid e) = (wid, e.id) := rfl
  have hfind : (done.map (restoredEnvironment wid)).reverse.find?
      (fun e' => environmentKey e' = (wid, e.id)) =
      (done.reverse.find? fun e' => e'.id = e.id).map (restoredEnvironment wid) := by
    rw [← List.map_reverse, List.find?_map]
    congr 2
    funext e'
    exact decide_eq_decide.mpr (by
      simp [environmentKey, restoredEnvironment, plainEnvironment])
  rw [Disk.staleFile_eq, hkey, Disk.find?_environments_savedAll, hfind, stale]
  cases done.reverse.find? fun e' => e'.id = e.id with
  | none => simpa using hd _ e.id
  | some e' =>
    simp only [Option.map_some, Option.any_some]
    have hshared : ∀ e : Environment, (restoredEnvironment wid e).shared = e.shared := fun _ => rfl
    rw [hshared, hshared]
    cases e.shared <;> cases e'.shared <;> rfl

/-- What is tracked allows every change inside the workspace. -/
structure Free (T : Bool → Disk → Prop) (wid : String) : Prop where
  timeless : Timeless T
  shown : ∀ x : File, x.workspaceId = wid → Shown T x
  cleared : ∀ k d (e : Environment), e.workspaceId = wid → T k d → T k (d.withoutStale e)

theorem environmentFile_workspaceId (e : Environment) :
    (environmentFile e).workspaceId = e.workspaceId := by
  rw [environmentFile]
  cases e.shared <;> rfl

theorem saveEnvironments_calls (hT : Free T wid) (hwid : validateId wid = .ok ())
    (hd : NoEnvironments d wid) (es : List Environment) :
    Calls m T (es.forM fun e => saveEnvironment m (restoredEnvironment wid e))
      (Demand.along environmentDemandsAfter [] es) d
      fun _ d' => ∃ n, d' = (d.later n).savedAll (es.map (restoredEnvironment wid)) := by
  refine Asks.forM (l := []) (J := fun done d' => ∃ n,
    d' = (d.later n).savedAll (done.map (restoredEnvironment wid))) ⟨0, rfl⟩ ?_
  rintro done e d₁ - ⟨n, rfl⟩
  have hstale := staleFile_savedAll (d := d.later n) (fun shared id => hd shared id) done e
  have hsave := saveEnvironment_calls (m := m) (e := restoredEnvironment wid e) (b := true)
    (d := (d.later n).savedAll (done.map (restoredEnvironment wid)))
    (c := false) hT.timeless hwid
    (fun k n hk => by
      rw [Bool.or_true]
      exact hT.shown _ (environmentFile_workspaceId _) _ _ hk)
    (fun _ k n hk => by
      rw [Bool.or_false]
      exact hT.cleared _ _ _ rfl hk)
  rw [hstale] at hsave
  refine hsave.mono ?_
  rintro - d' ⟨k, rfl⟩
  refine ⟨n + k, ?_⟩
  rw [List.map_append, List.map_singleton, Disk.savedAll_concat, Disk.savedAll_later,
    Disk.later_later]

theorem NoEnvironments.putAll (hd : NoEnvironments d wid) {xs : List File}
    (hxs : ∀ x ∈ xs, x.name.1 ≠ .sharedEnvironment ∧ x.name.1 ≠ .localEnvironment) :
    NoEnvironments (d.putAll xs) wid := fun shared id => by
  rw [Disk.environments_putAll hxs, hd]

theorem restoredFiles_name {x : File} (hx : x ∈ restoredFiles wid vw) :
    x.name.1 ≠ .sharedEnvironment ∧ x.name.1 ≠ .localEnvironment := by
  simp only [restoredFiles, List.cons_append, List.mem_cons, List.mem_append, List.mem_map] at hx
  rcases hx with rfl | ((⟨f, -, rfl⟩ | ⟨r, -, rfl⟩) | ⟨c, -, rfl⟩) | ⟨g, -, rfl⟩ <;>
    exact ⟨by rintro ⟨⟩, by rintro ⟨⟩⟩

/-- The files in the order in which they are written. -/
theorem append_restoredFiles (vw : VoleeoWorkspace) :
    [.workspace (restoredWorkspace wid vw.workspace)] ++
      (vw.folders.map (File.folder ∘ restoredFolder wid vw.folderIds) ++
        vw.requests.map (File.request ∘ restoredRequest wid vw.folderIds)) ++
      (vw.websockets.map fun c => .connection (restoredConnection wid vw.folderIds c)) ++
      (vw.grpc.map fun g => .grpc (restoredGrpc wid vw.folderIds g)) = restoredFiles wid vw := by
  rw [restoredFiles, ← List.append_assoc]
  rfl

/-- The restoration succeeds when its demands are granted, and leaves the files of the bundle. -/
theorem writeVoleeoWorkspace_calls {v : VoleeoWorkspace} (hT : Free T wid) (hwid : validateId wid = .ok ())
    (hd : NoEnvironments d wid) :
    Calls m T (writeVoleeoWorkspace m wid v) (contentDemands v) d
      fun a d' => a = countsOf v ∧ ∃ n, d' = restoredDisk (d.later n) wid v := by
  have hshown : ∀ x : File, x.workspaceId = wid → Shown T x := hT.shown
  rw [contentDemands, List.append_assoc, List.append_assoc, List.append_assoc,
    ← List.append_nil (Demand.along _ _ _)]
  refine (saveWorkspace_calls hT.timeless hwid (hshown _ rfl)).bind fun _ d₁ hd₁ => ?_
  have hd₁ : d₁ = (d.later 2).putAll [.workspace (restoredWorkspace wid v.workspace)] := hd₁
  subst hd₁
  have hfolders : ∀ f ∈ v.folders.map (restoredFolder wid v.folderIds),
      validateId f.workspaceId = .ok () ∧ Shown T (.folder f) := by
    intro f hf
    obtain ⟨f', -, rfl⟩ := List.mem_map.mp hf
    exact ⟨hwid, hshown _ rfl⟩
  have hrequests : ∀ r ∈ v.requests.map (restoredRequest wid v.folderIds),
      validateId r.workspaceId = .ok () ∧ Shown T (.request r) := by
    intro r hr
    obtain ⟨r', -, rfl⟩ := List.mem_map.mp hr
    exact ⟨hwid, hshown _ rfl⟩
  have hbulk := writeBulk_calls (m := m) (T := T)
    (d := (d.later 2).putAll [.workspace (restoredWorkspace wid v.workspace)])
    hT.timeless hfolders hrequests
  rw [List.map_map, List.map_map, List.map_map, List.map_map] at hbulk
  refine hbulk.bind ?_
  rintro - d₂ ⟨n₂, rfl⟩
  rw [Disk.putAll_later_putAll, List.flatMap_map, List.flatMap_map]
  refine (forM_calls (f := fun c => .connection (restoredConnection wid v.folderIds c))
    fun c _ d => (saveConnection_calls hT.timeless hwid (hshown _ rfl)).mono
      fun _ d' hd' => ⟨2, hd'⟩).bind ?_
  rintro - d₃ ⟨n₃, rfl⟩
  rw [Disk.putAll_later_putAll]
  refine (forM_calls (f := fun g => .grpc (restoredGrpc wid v.folderIds g))
    fun g _ d => (saveGrpc_calls hT.timeless hwid (hshown _ rfl)).mono
      fun _ d' hd' => ⟨2, hd'⟩).bind ?_
  rintro - d₄ ⟨n₄, rfl⟩
  rw [Disk.putAll_later_putAll]
  rw [append_restoredFiles]
  have hnone : NoEnvironments ((d.later (2 + n₂ + n₃ + n₄)).putAll (restoredFiles wid v)) wid :=
    NoEnvironments.putAll (d := d.later _) hd fun x hx => restoredFiles_name hx
  refine (saveEnvironments_calls hT hwid hnone v.environments).bind ?_
  rintro - d₅ ⟨n₅, rfl⟩
  refine Asks.pure ⟨rfl, 2 + n₂ + n₃ + n₄ + n₅, ?_⟩
  rw [restoredDisk, Disk.putAll_later, Disk.later_later]

end Voleeo.Imports
