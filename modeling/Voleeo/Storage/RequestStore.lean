import Mathlib.Data.Prod.Lex
import Mathlib.Data.String.Basic
import Voleeo.Entities
import Voleeo.Fallible
import Voleeo.Records
import Voleeo.StableSort
import Voleeo.Storage.Ids

/-!
# The request store

Folders and requests are files in the directory of their workspace, named after
their ids. Every call to the file system may fail with an error of its own, and
the files then stay as they are.
-/
namespace Voleeo.Storage

/-- The path of a file: its workspace, and the id in its name. -/
abbrev FileKey := String × String

def folderKey (f : ApiFolder) : FileKey := (f.workspaceId, f.id)

def requestKey (r : HttpRequest) : FileKey := (r.workspaceId, r.id)

/-- The files, and how often the environment has been asked. -/
structure World where
  folders : Records folderKey
  requests : Records requestKey
  tick : ℕ

/-- What the environment answers at each tick. -/
structure Env where
  newId : ℕ → String
  newId_injective : Function.Injective newId
  /-- The time as it is written to files. -/
  now : ℕ → String
  timestampMillis : ℕ → ℚ
  /-- The error of a call to the file system, if it fails. -/
  fault : ℕ → Option String
  /-- The order in which a directory is read. -/
  readDir : ℕ → {α : Type} → List α → List α
  readDir_perm : ∀ t {α : Type} (l : List α), (readDir t l).Perm l

inductive Failure
  | error (e : VoleeoError)
  /-- A recursion that was cut off. -/
  | outOfFuel
  deriving DecidableEq, Repr

abbrev Store (α : Type) := Fallible World Failure α

open Fallible (get modify)

def throw {α : Type} (e : VoleeoError) : Store α := Fallible.throw (.error e)

def lift {α : Type} : Except VoleeoError α → Store α
  | .ok a => pure a
  | .error e => throw e

section Operations
variable (env : Env)

/-- The next answer of the environment. -/
def ask {α : Type} (answer : ℕ → α) : Store α := do
  let w ← get
  modify fun w => { w with tick := w.tick + 1 }
  return answer w.tick

/-- A call to the file system. -/
def fileSystem : Store Unit := do
  match ← ask env.fault with
  | some message => throw (.storage message)
  | none => return ()

/-! ## Files -/

def writeFolder (f : ApiFolder) : Store Unit := do
  fileSystem env
  modify fun w => { w with folders := w.folders.put f }

def writeRequest (r : HttpRequest) : Store Unit := do
  fileSystem env
  modify fun w => { w with requests := w.requests.put r }

def workspaceDir (workspaceId : String) : Store Unit := do
  lift (validateId workspaceId)
  fileSystem env

/-- Items are listed by their order; the creation time breaks ties. -/
def listFolders (workspaceId : String) : Store (List ApiFolder) := do
  workspaceDir env workspaceId
  fileSystem env
  let w ← get
  let items := w.folders.toList.filter fun f => f.workspaceId = workspaceId
  let entries ← ask fun t => env.readDir t items
  return sortBy (fun f => toLex (f.order, f.createdAt)) entries

def listRequests (workspaceId : String) : Store (List HttpRequest) := do
  workspaceDir env workspaceId
  fileSystem env
  let w ← get
  let items := w.requests.toList.filter fun r => r.workspaceId = workspaceId
  let entries ← ask fun t => env.readDir t items
  return sortBy (fun r => toLex (r.order, r.createdAt)) entries

def getFolder (workspaceId id : String) : Store ApiFolder := do
  lift (validateId workspaceId)
  lift (validateId id)
  match (← get).folders.find? (workspaceId, id) with
  | none => throw (.notFound s!"folder {id}")
  | some folder =>
    fileSystem env
    return folder

/-- A request file has the id in its name, so the check for another id never fails. -/
def getRequest (workspaceId id : String) : Store HttpRequest := do
  lift (validateId workspaceId)
  lift (validateId id)
  match (← get).requests.find? (workspaceId, id) with
  | none => throw (.notFound s!"request {id}")
  | some req =>
    fileSystem env
    if req.id ≠ id then throw (.storage s!"request file id mismatch for {id}")
    else return req

def saveFolderIfChanged (original folder : ApiFolder) : Store Unit := do
  let folder := { folder with updatedAt := original.updatedAt }
  if folder = original then return ()
  else
    let now ← ask env.now
    writeFolder env { folder with updatedAt := now }

def saveRequestIfChanged (original req : HttpRequest) : Store Unit := do
  let req := { req with updatedAt := original.updatedAt }
  if req = original then return ()
  else
    let now ← ask env.now
    writeRequest env { req with updatedAt := now }

/-! ## Parents -/

/-- The walk up the parents; a cycle on disk stops it. -/
def walkParents (workspaceId : String) (moving : Option String) :
    ℕ → List String → Option String → Store Unit
  | _, _, none => return ()
  | 0, _, some _ => Fallible.throw .outOfFuel
  | fuel + 1, seen, some id =>
    if moving = some id then
      throw (.invalidConfig
        s!"cannot move folder {id} into itself or one of its subfolders")
    else if id ∈ seen then return ()
    else do
      lift (validateId id)
      match (← get).folders.find? (workspaceId, id) with
      | none => throw (.notFound s!"folder {id}")
      | some folder =>
        fileSystem env
        walkParents workspaceId moving fuel (id :: seen) folder.folderId

def checkParent (workspaceId : String) (parent moving : Option String) : Store Unit := do
  lift (validateId workspaceId)
  let w ← get
  walkParents env workspaceId moving (w.folders.toList.length + 1) [] parent

/-- The smallest order above the given one among the siblings, halfway. -/
def orderAfter (workspaceId : String) (parentId : Option String) (after : ℚ) : Store ℚ := do
  let requests ← listRequests env workspaceId
  let folders ← listFolders env workspaceId
  let smaller := fun (next : Option ℚ) (order : ℚ) =>
    some (match next with | none => order | some n => min n order)
  let next := ((requests.filter fun r => r.folderId = parentId ∧ after < r.order).map (·.order)
    ).foldl smaller none
  let next := ((folders.filter fun f => f.folderId = parentId ∧ after < f.order).map (·.order)
    ).foldl smaller next
  return match next with | none => after + 1 | some n => (after + n) / 2

/-! ## Creating and moving -/

def createFolder (workspaceId : String) (folderId : Option String) (name : String) :
    Store ApiFolder := do
  checkParent env workspaceId folderId none
  workspaceDir env workspaceId
  let id ← ask env.newId
  let now ← ask env.now
  let order ← ask env.timestampMillis
  let folder : ApiFolder := {
    id := id, folderType := "api", model := "folder", workspaceId := workspaceId,
    folderId := folderId, name := name, headers := [], auth := .none, «variables» := [],
    color := none, order := order, createdAt := now, updatedAt := now }
  lift (validateId workspaceId)
  lift (validateId id)
  writeFolder env folder
  return folder

def createRequest (workspaceId : String) (folderId : Option String) (name method url : String) :
    Store HttpRequest := do
  checkParent env workspaceId folderId none
  workspaceDir env workspaceId
  let id ← ask env.newId
  let now ← ask env.now
  let order ← ask env.timestampMillis
  let req : HttpRequest := {
    id := id, requestType := "api", model := "http_request", workspaceId := workspaceId,
    folderId := folderId, method := method, name := name, url := url, parameters := [],
    headers := [], body := none, auth := .none, order := order, createdAt := now,
    updatedAt := now }
  lift (validateId workspaceId)
  lift (validateId id)
  writeRequest env req
  return req

def updateFolderPosition (workspaceId id : String) (folderId : Option String) (order : ℚ) :
    Store Unit := do
  checkParent env workspaceId folderId (some id)
  let folder ← getFolder env workspaceId id
  saveFolderIfChanged env folder { folder with folderId := folderId, order := order }

def updateRequestPosition (workspaceId id : String) (folderId : Option String) (order : ℚ) :
    Store Unit := do
  checkParent env workspaceId folderId none
  let req ← getRequest env workspaceId id
  saveRequestIfChanged env req { req with folderId := folderId, order := order }

/-! ## Changing the fields of a request -/

/-- Read a request file without asking whether it is there. -/
def readRequest (workspaceId id : String) : Store HttpRequest := do
  lift (validateId workspaceId)
  lift (validateId id)
  fileSystem env
  match (← get).requests.find? (workspaceId, id) with
  | none => throw (.storage "No such file or directory (os error 2)")
  | some req => return req

def renameRequest (workspaceId id name : String) : Store Unit := do
  let req ← readRequest env workspaceId id
  saveRequestIfChanged env req { req with name }

/-- The fields of a request that `update_request` writes. -/
def withFields (req next : HttpRequest) : HttpRequest :=
  { req with
    method := next.method
    url := next.url
    parameters := next.parameters
    headers := next.headers
    body := next.body
    auth := next.auth }

def updateRequest (workspaceId id : String) (next : HttpRequest) : Store Unit := do
  let req ← readRequest env workspaceId id
  saveRequestIfChanged env req (withFields req next)

/-! ## Copying -/

def copyFolder (src : ApiFolder) (folderId : Option String) (name : String) (order : ℚ) :
    Store ApiFolder := do
  let id ← ask env.newId
  let now ← ask env.now
  let folder : ApiFolder := {
    src with id := id, folderId := folderId, name := name, order := order, createdAt := now,
             updatedAt := now }
  lift (validateId folder.workspaceId)
  lift (validateId id)
  writeFolder env folder
  return folder

def copyRequest (src : HttpRequest) (folderId : Option String) (name : String) (order : ℚ) :
    Store HttpRequest := do
  let id ← ask env.newId
  let now ← ask env.now
  let req : HttpRequest := {
    src with id := id, folderId := folderId, name := name, order := order, createdAt := now,
             updatedAt := now }
  lift (validateId req.workspaceId)
  lift (validateId id)
  writeRequest env req
  return req

/-- Everything under one folder is copied into another. -/
def copyFolderChildren (workspaceId : String) : ℕ → String → String → Store Unit
  | 0, _, _ => Fallible.throw .outOfFuel
  | fuel + 1, srcFolder, dstFolder => do
      let requests ← listRequests env workspaceId
      (requests.filter fun r => r.folderId = some srcFolder).forM fun r => do
        let _ ← copyRequest env r (some dstFolder) r.name r.order
      let folders ← listFolders env workspaceId
      (folders.filter fun f => f.folderId = some srcFolder).forM fun f => do
        let copy ← copyFolder env f (some dstFolder) f.name f.order
        copyFolderChildren workspaceId fuel f.id copy.id

def duplicateFolder (workspaceId id : String) : Store ApiFolder := do
  let depth := (← get).folders.toList.length
  let src ← getFolder env workspaceId id
  let order ← orderAfter env workspaceId src.folderId src.order
  let copy ← copyFolder env src src.folderId s!"Copy of {src.name}" order
  copyFolderChildren env workspaceId (depth + 1) id copy.id
  return copy

def duplicateRequest (workspaceId id : String) : Store HttpRequest := do
  let src ← getRequest env workspaceId id
  let order ← orderAfter env workspaceId src.folderId src.order
  copyRequest env src src.folderId s!"Copy of {src.name}" order

/-! ## Deleting -/

def deleteRequest (workspaceId id : String) : Store Unit := do
  lift (validateId workspaceId)
  lift (validateId id)
  if ((← get).requests.find? (workspaceId, id)).isSome then
    fileSystem env
    modify fun w => { w with requests := w.requests.remove (workspaceId, id) }

def deleteFolder (workspaceId id : String) : Store Unit := do
  lift (validateId workspaceId)
  lift (validateId id)
  if ((← get).folders.find? (workspaceId, id)).isSome then
    fileSystem env
    modify fun w => { w with folders := w.folders.remove (workspaceId, id) }

/-- A folder is deleted after everything in it. -/
def deleteFolderTree (workspaceId : String) : ℕ → String → Store Unit
  | 0, _ => Fallible.throw .outOfFuel
  | fuel + 1, id => do
      let requests ← listRequests env workspaceId
      (requests.filter fun r => r.folderId = some id).forM fun r =>
        deleteRequest env workspaceId r.id
      let folders ← listFolders env workspaceId
      (folders.filter fun f => f.folderId = some id).forM fun f =>
        deleteFolderTree workspaceId fuel f.id
      deleteFolder env workspaceId id

def deleteFolderCascade (workspaceId id : String) : Store Unit := do
  let depth := (← get).folders.toList.length
  deleteFolderTree env workspaceId (depth + 1) id

end Operations

/-! ## Calls -/

inductive Call
  | createFolder (workspaceId : String) (folderId : Option String) (name : String)
  | createRequest (workspaceId : String) (folderId : Option String) (name method url : String)
  | updateFolderPosition (workspaceId id : String) (folderId : Option String) (order : ℚ)
  | updateRequestPosition (workspaceId id : String) (folderId : Option String) (order : ℚ)
  | duplicateFolder (workspaceId id : String)
  | duplicateRequest (workspaceId id : String)
  | deleteRequest (workspaceId id : String)
  | deleteFolderCascade (workspaceId id : String)

def Call.exec (env : Env) : Call → Store Unit
  | .createFolder ws folderId name => do let _ ← Storage.createFolder env ws folderId name
  | .createRequest ws folderId name method url => do
      let _ ← Storage.createRequest env ws folderId name method url
  | .updateFolderPosition ws id folderId order =>
    Storage.updateFolderPosition env ws id folderId order
  | .updateRequestPosition ws id folderId order =>
    Storage.updateRequestPosition env ws id folderId order
  | .duplicateFolder ws id => do let _ ← Storage.duplicateFolder env ws id
  | .duplicateRequest ws id => do let _ ← Storage.duplicateRequest env ws id
  | .deleteRequest ws id => Storage.deleteRequest env ws id
  | .deleteFolderCascade ws id => Storage.deleteFolderCascade env ws id

/-- The check of the parent that a call begins with. -/
def Call.check (env : Env) : Call → Option (Store Unit)
  | .createFolder ws folderId _ => some (checkParent env ws folderId none)
  | .createRequest ws folderId _ _ _ => some (checkParent env ws folderId none)
  | .updateFolderPosition ws id folderId _ => some (checkParent env ws folderId (some id))
  | .updateRequestPosition ws _ folderId _ => some (checkParent env ws folderId none)
  | _ => none

/-- The world after calls that run one after another, each successful or failing. -/
def runCalls (env : Env) : World → List Call → World
  | w, [] => w
  | w, call :: rest => runCalls env (call.exec env w).2 rest

end Voleeo.Storage
