import Voleeo.Storage.Deletions
import Voleeo.Storage.RequestRuns

/-!
# All stores on one disk

Below `workspaces/` each workspace has a directory with its own file, its items
and its shared environments; below `envs-local/` it has one with the local
environments. The stores of workspaces, connections, gRPC requests and
environments work on the same disk as the request store.
-/
namespace Voleeo.Storage
open Fallible (get modify)

def environmentKey (e : Environment) : FileKey := (e.workspaceId, e.id)

/-- A snapshot or a cookie jar, which the operations here never read. -/
structure OtherFile where
  workspaceId : String
  name : String
  content : String
  deriving DecidableEq

def OtherFile.key (o : OtherFile) : FileKey := (o.workspaceId, o.name)

structure Disk where
  store : World
  connections : Records connectionKey
  grpcRequests : Records grpcKey
  workspaces : Records Workspace.id
  sharedEnvironments : Records environmentKey
  localEnvironments : Records environmentKey
  others : Records OtherFile.key

/-! ## Files -/

inductive File
  | workspace (ws : Workspace)
  | folder (f : ApiFolder)
  | request (r : HttpRequest)
  | connection (c : WsConnection)
  | grpc (g : GrpcRequest)
  | sharedEnvironment (e : Environment)
  | localEnvironment (e : Environment)
  | other (o : OtherFile)

inductive FileKind
  | workspace
  | folder
  | request
  | connection
  | grpc
  | sharedEnvironment
  | localEnvironment
  | other
  deriving DecidableEq

/-- The workspace directory that the file lies in. -/
def File.workspaceId : File → String
  | .workspace ws => ws.id
  | .folder f => f.workspaceId
  | .request r => r.workspaceId
  | .connection c => c.workspaceId
  | .grpc g => g.workspaceId
  | .sharedEnvironment e => e.workspaceId
  | .localEnvironment e => e.workspaceId
  | .other o => o.workspaceId

/-- What tells a file from the others in its directory. -/
def File.name : File → FileKind × String
  | .workspace _ => (.workspace, "")
  | .folder f => (.folder, f.id)
  | .request r => (.request, r.id)
  | .connection c => (.connection, c.id)
  | .grpc g => (.grpc, g.id)
  | .sharedEnvironment e => (.sharedEnvironment, e.id)
  | .localEnvironment e => (.localEnvironment, e.id)
  | .other o => (.other, o.name)

def File.path (x : File) : String × FileKind × String := (x.workspaceId, x.name)

/-- The file is below `envs-local/`. -/
def File.isLocal : File → Bool
  | .localEnvironment _ => true
  | _ => false

namespace Disk

def Has (d : Disk) : File → Prop
  | .workspace ws => ws ∈ d.workspaces.toList
  | .folder f => f ∈ d.store.folders.toList
  | .request r => r ∈ d.store.requests.toList
  | .connection c => c ∈ d.connections.toList
  | .grpc g => g ∈ d.grpcRequests.toList
  | .sharedEnvironment e => e ∈ d.sharedEnvironments.toList
  | .localEnvironment e => e ∈ d.localEnvironments.toList
  | .other o => o ∈ d.others.toList

/-- The file is written under its path. -/
def put (d : Disk) : File → Disk
  | .workspace ws => { d with workspaces := d.workspaces.put ws }
  | .folder f => { d with store := { d.store with folders := d.store.folders.put f } }
  | .request r => { d with store := { d.store with requests := d.store.requests.put r } }
  | .connection c => { d with connections := d.connections.put c }
  | .grpc g => { d with grpcRequests := d.grpcRequests.put g }
  | .sharedEnvironment e => { d with sharedEnvironments := d.sharedEnvironments.put e }
  | .localEnvironment e => { d with localEnvironments := d.localEnvironments.put e }
  | .other o => { d with others := d.others.put o }

/-- Only the files that are to stay are left. -/
def keep (d : Disk) (stays : File → Bool) : Disk where
  store := { d.store with
    folders := d.store.folders.filter fun f => stays (.folder f)
    requests := d.store.requests.filter fun r => stays (.request r) }
  connections := d.connections.filter fun c => stays (.connection c)
  grpcRequests := d.grpcRequests.filter fun g => stays (.grpc g)
  workspaces := d.workspaces.filter fun ws => stays (.workspace ws)
  sharedEnvironments := d.sharedEnvironments.filter fun e => stays (.sharedEnvironment e)
  localEnvironments := d.localEnvironments.filter fun e => stays (.localEnvironment e)
  others := d.others.filter fun o => stays (.other o)

def later (d : Disk) (n : ℕ) : Disk := { d with store := d.store.later n }

end Disk

/-- The environment of an app that runs on the disk. Removing a directory may be refused. -/
structure Machine extends Env where
  removeFault : ℕ → Option String

abbrev OnDisk (α : Type) := Fallible Disk Failure α

def onWorld {α : Type} (x : Store α) : OnDisk α :=
  Fallible.zoom Disk.store (fun d store => { d with store }) id x

def fail {α : Type} (e : VoleeoError) : OnDisk α := onWorld (throw e)

section Operations
variable (m : Machine)

def validate (id : String) : OnDisk Unit := onWorld (lift (validateId id))

/-- A call to the file system that changes no file. -/
def call : OnDisk Unit := onWorld (fileSystem m.toEnv)

def writeFile (x : File) : OnDisk Unit := do
  call m
  modify fun d => d.put x

def now : OnDisk String := onWorld (ask m.now)

def createDir (workspaceId : String) : OnDisk Unit := onWorld (workspaceDir m.toEnv workspaceId)

/-- A directory is read, and its items are sorted. -/
def listSorted {α κ : Type} [LinearOrder κ] (items : Disk → List α) (key : α → κ) :
    OnDisk (List α) := do
  call m
  let d ← get
  let entries ← onWorld (ask fun t => m.readDir t (items d))
  return sortBy key entries

/-! ## Workspaces -/

def defaultWorkspaceHeaders : List RequestParameter :=
  [{ id := "default-user-agent", name := "User-Agent", value := "voleeo", enabled := true },
   { id := "default-accept", name := "Accept", value := "*/*", enabled := true }]

def newWorkspace (id now name : String) (encrypted : Bool) : Workspace where
  id := id
  name := name
  model := "workspace"
  encrypted := encrypted
  syncDir := none
  keyCheck := none
  headers := defaultWorkspaceHeaders
  auth := .none
  dnsOverrides := []
  createdAt := now
  updatedAt := now

def saveWorkspace (ws : Workspace) : OnDisk Unit := do
  createDir m ws.id
  validate ws.id
  writeFile m (.workspace ws)

def createWorkspace (name : String) (encrypted : Bool) : OnDisk Workspace := do
  let id ← onWorld (ask m.newId)
  let now ← now m
  let ws := newWorkspace id now name encrypted
  saveWorkspace m ws
  return ws

/-- A file that cannot be read counts as missing. -/
def getWorkspace (id : String) : OnDisk Workspace := do
  validate id
  match ← onWorld (ask m.fault) with
  | some _ => fail (.notFound s!"workspace '{id}'")
  | none =>
    match (← get).workspaces.find? id with
    | none => fail (.notFound s!"workspace '{id}'")
    | some ws => return ws

def updateAuth (id : String) (auth : AuthConfig) : OnDisk Unit := do
  let ws ← getWorkspace m id
  let now ← now m
  saveWorkspace m { ws with auth, updatedAt := now }

/-- Remove a directory with everything in it. -/
def removeDirAll (stays : File → Bool) : OnDisk Unit := do
  match ← onWorld (ask m.removeFault) with
  | some message => fail (.storage message)
  | none => modify fun d => d.keep stays

/-- The directory of a workspace is there when its file is. -/
def deleteWorkspace (id : String) : OnDisk Unit := do
  validate id
  if ((← get).workspaces.find? id).isSome then
    removeDirAll m fun x => x.isLocal || x.workspaceId ≠ id

/-! ## Items -/

def writeBulk (folders : List ApiFolder) (requests : List HttpRequest) : OnDisk Unit := do
  folders.forM fun f => do
    createDir m f.workspaceId
    validate f.id
    writeFile m (.folder f)
  requests.forM fun r => do
    createDir m r.workspaceId
    validate r.id
    writeFile m (.request r)

def saveConnection (c : WsConnection) : OnDisk Unit := do
  createDir m c.workspaceId
  validate c.workspaceId
  validate c.id
  writeFile m (.connection c)

def saveGrpc (g : GrpcRequest) : OnDisk Unit := do
  createDir m g.workspaceId
  validate g.workspaceId
  validate g.id
  writeFile m (.grpc g)

def listConnections (workspaceId : String) : OnDisk (List WsConnection) := do
  createDir m workspaceId
  listSorted m (fun d => d.connections.toList.filter fun c => c.workspaceId = workspaceId)
    fun c => toLex (c.order, c.createdAt)

def listGrpc (workspaceId : String) : OnDisk (List GrpcRequest) := do
  createDir m workspaceId
  listSorted m (fun d => d.grpcRequests.toList.filter fun g => g.workspaceId = workspaceId)
    fun g => toLex (g.order, g.createdAt)

/-! ## Environments -/

def environmentFile (e : Environment) : File :=
  if e.shared then .sharedEnvironment e else .localEnvironment e

/-- The file in the directory that the environment does not belong to. -/
def staleFile (d : Disk) (e : Environment) : Option Environment :=
  (if e.shared then d.localEnvironments else d.sharedEnvironments).find? (environmentKey e)

def staleName (e : Environment) : FileKind × String :=
  (if e.shared then .localEnvironment else .sharedEnvironment, e.id)

def saveEnvironment (e : Environment) : OnDisk Unit := do
  validate e.workspaceId
  validate e.id
  createDir m e.workspaceId
  writeFile m (environmentFile e)
  if (staleFile (← get) e).isSome then
    call m
    modify fun d => d.keep fun x => x.path ≠ (e.workspaceId, staleName e)

/-- The shared file comes first. -/
def getEnvironment (workspaceId id : String) : OnDisk (Option Environment) := do
  validate workspaceId
  validate id
  let d ← get
  match (d.sharedEnvironments.find? (workspaceId, id)).or
      (d.localEnvironments.find? (workspaceId, id)) with
  | none => return none
  | some e => do
      call m
      return some e

def globalEnvId : String := "global"

def newGlobal (workspaceId now : String) : Environment where
  id := globalEnvId
  workspaceId := workspaceId
  kind := .global
  name := "Global Environment"
  color := ""
  shared := false
  «variables» := []
  createdAt := now
  updatedAt := now

def ensureGlobal (workspaceId : String) : OnDisk Environment := do
  match ← getEnvironment m workspaceId globalEnvId with
  | some e => return e
  | none => do
      let now ← now m
      let e := newGlobal workspaceId now
      saveEnvironment m e
      return e

def newPersonal (id workspaceId now name color : String) (shared : Bool) : Environment where
  id := id
  workspaceId := workspaceId
  kind := .personal
  name := name
  color := color
  shared := shared
  «variables» := []
  createdAt := now
  updatedAt := now

def createPersonal (workspaceId name color : String) (shared : Bool) : OnDisk Environment := do
  let id ← onWorld (ask m.newId)
  let now ← now m
  let e := newPersonal id workspaceId now name color shared
  saveEnvironment m e
  return e

/-- The shared environments win over the local ones of the same ids. -/
def mergedEnvironments (d : Disk) (workspaceId : String) : List Environment :=
  let shared := d.sharedEnvironments.toList.filter fun e => e.workspaceId = workspaceId
  shared ++ d.localEnvironments.toList.filter fun e =>
    e.workspaceId = workspaceId ∧ ∀ e' ∈ shared, e'.id ≠ e.id

def kindOrder : EnvironmentKind → ℕ
  | .global => 0
  | .personal => 1

def listEnvironments (workspaceId : String) : OnDisk (List Environment) := do
  createDir m workspaceId
  createDir m workspaceId
  call m
  listSorted m (fun d => mergedEnvironments d workspaceId)
    fun e => toLex (kindOrder e.kind, e.createdAt)

/-- The directory of local environments is there when a file is in it. -/
def deleteLocalEnvironments (workspaceId : String) : OnDisk Unit := do
  validate workspaceId
  let d ← get
  if d.localEnvironments.toList.any fun e => e.workspaceId = workspaceId then
    removeDirAll m fun x => !x.isLocal || x.workspaceId ≠ workspaceId

end Operations

end Voleeo.Storage
