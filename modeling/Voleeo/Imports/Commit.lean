import Voleeo.Commands.Requests
import Voleeo.Imports.Bundle
import Voleeo.Postman.Convert

/-!
# Importing a foreign collection

A collection that was parsed from another tool's format is reduced to the chosen
items, planned with new ids, and written into a new or an existing workspace.
-/
namespace Voleeo.Imports
open Storage Postman
open Commands (Vault transformAuthSecrets)
open Crypto (Aead Nonce)
open Mcp (markSecretsEncrypted)

structure ImportedEnvironment where
  name : String
  «variables» : List ImportedVariable

structure ParsedCollection where
  collection : ImportedCollection
  environments : List ImportedEnvironment

/-! ## Choosing items

Items are named by their positions, such as `0.2.1`. -/

mutual

/-- A folder stays when something in it does, or when it is empty and chosen. -/
def filterItem (selected : List String) (id : String) : ImportedItem → Option ImportedItem
  | .request r => if id ∈ selected then some (.request r) else none
  | .folder f items =>
    let kids := filterInner selected (id ++ ".") 0 items
    if !kids.isEmpty || items.isEmpty && decide (id ∈ selected) then some (.folder f kids)
    else none

def filterInner (selected : List String) (place : String) (i : ℕ) :
    List ImportedItem → List ImportedItem
  | [] => []
  | item :: rest =>
    (filterItem selected (place ++ toString i) item).toList ++
      filterInner selected place (i + 1) rest

end

def select (col : ImportedCollection) : Option (List String) → ImportedCollection
  | none => col
  | some selected => { col with items := filterInner selected "" 0 col.items }

/-! ## Writing the plan -/

inductive ImportDest
  | newWorkspace (name : String) (encrypted : Bool)
  | existingWorkspace (workspaceId : String) (parentFolderId : Option String)

/-- What the import draws on beside the disk: the keys of encrypted workspaces, the nonces for the
secrets of an item, and random colours. -/
structure Supplies where
  key : String → Except VoleeoError Aead
  nonces : String → ℕ → Nonce
  envColor : ℕ → String

variable (supplies : Supplies)

def encryptAuth (workspaceId owner : String) (auth : AuthConfig) :
    Except VoleeoError AuthConfig :=
  transformAuthSecrets ⟨some true, supplies.key workspaceId⟩ .encrypt (supplies.nonces owner)
    (markSecretsEncrypted auth)

/-- The variables of a plan are never flagged, so only auths are encrypted. -/
def encryptPlan (workspaceId : String) (plan : ConvertedPlan) :
    Except VoleeoError ConvertedPlan := do
  let folders ← plan.folders.mapM fun f => do
    let auth ← encryptAuth supplies workspaceId f.id f.auth
    return { f with auth }
  let requests ← plan.requests.mapM fun r => do
    let auth ← encryptAuth supplies workspaceId r.id r.auth
    return { r with auth }
  return { plan with folders, requests }

/-- The items at the root go into the chosen folder. -/
def reparentPlan (parent : Option String) (plan : ConvertedPlan) : ConvertedPlan :=
  match parent with
  | none => plan
  | some parent =>
    { plan with
      folders := plan.folders.map fun f => { f with folderId := some (f.folderId.getD parent) }
      requests := plan.requests.map fun r =>
        { r with folderId := some (r.folderId.getD parent) } }

section
variable (m : Machine)

/-- The key file lies outside the directories of the workspaces. -/
def saveKey : OnDisk Unit := do
  call m
  call m

/-- The workspace, its encryption flag, the parent of the root items, and whether the auth of the
collection is applied. -/
structure Target where
  workspaceId : String
  encrypted : Bool
  parentFolder : Option String
  applyRootAuth : Bool

def target : ImportDest → OnDisk Target
  | .newWorkspace name encrypted => do
      let ws ← createWorkspace m name encrypted
      if encrypted then saveKey m
      return ⟨ws.id, encrypted, none, true⟩
  | .existingWorkspace workspaceId parentFolderId => do
      let ws ← getWorkspace m workspaceId
      return ⟨workspaceId, ws.encrypted, parentFolderId, false⟩

/-- Orders start past the highest one that is there. -/
def nextOrderBase (workspaceId : String) : ImportDest → OnDisk ℚ
  | .newWorkspace _ _ => onWorld (ask m.timestampMillis)
  | .existingWorkspace _ _ => do
      let requests ← onWorld (listRequests m.toEnv workspaceId)
      let folders ← onWorld (listFolders m.toEnv workspaceId)
      return ((requests.map (·.order)) ++ folders.map (·.order)).foldl max 0 + 1

/-- The ids and times of the plan are the next ones that are drawn. -/
def drawPlan (workspaceId : String) (base : ℚ) (col : ImportedCollection) :
    OnDisk ConvertedPlan := fun d =>
  let source : Source :=
    ⟨fun k => m.newId (d.store.tick + k), fun k => m.now (d.store.tick + k)⟩
  let drawn := (convertItems source workspaceId base none col.items ⟨[], [], 0, 0⟩).drawn
  (.ok (buildPlan source workspaceId base col), d.later drawn)

/-- The plan with its root items in the chosen folder, encrypted where the workspace is. -/
def planItems (target : Target) (base : ℚ) (col : ImportedCollection) : OnDisk ConvertedPlan := do
  let plan ← drawPlan m target.workspaceId base col
  if target.encrypted then
    onWorld (lift (encryptPlan supplies target.workspaceId
      (reparentPlan target.parentFolder plan)))
  else return reparentPlan target.parentFolder plan

def applyRootAuth (target : Target) (rootAuth : AuthConfig) : OnDisk Unit :=
  if target.applyRootAuth ∧ rootAuth ≠ .none then do
    let auth ←
      if target.encrypted then
        onWorld (lift (encryptAuth supplies target.workspaceId target.workspaceId rootAuth))
      else pure rootAuth
    updateAuth m target.workspaceId auth
  else return ()

/-- The variables that the environment does not have yet. -/
def addedVariables (e : Environment) (vs : List EnvironmentVariable) : List EnvironmentVariable :=
  vs.filter fun v => v.key ∉ e.variables.map (·.key)

/-- The environment with the variables that it did not have. -/
def extended (e : Environment) (vs : List EnvironmentVariable) : Environment :=
  { e with «variables» := e.variables ++ addedVariables e vs }

def addGlobals (workspaceId : String) (vs : List EnvironmentVariable) : OnDisk ℕ := do
  let e ← ensureGlobal m workspaceId
  if (addedVariables e vs).isEmpty then return 0
  else do
    saveEnvironment m (extended e vs)
    return (addedVariables e vs).length

def addEnvironment (workspaceId : String) (ie : ImportedEnvironment) : OnDisk Unit := do
  let color ← onWorld (ask supplies.envColor)
  let e ← createPersonal m workspaceId ie.name color false
  saveEnvironment m { e with «variables» := ie.variables.map toEnvVar }

def rootAuthWarning : String :=
  "The collection defined collection-level auth; it was not applied to the existing workspace. " ++
  "Set it on the workspace or a folder if needed."

/-- `parsed` is what the content reads as in its format. -/
def importCommit (parsed : Except String ParsedCollection) (dest : ImportDest)
    (selected : Option (List String)) : OnDisk ImportSummary := do
  let parsed ← onWorld (lift (parsed.mapError fun e => .importError e))
  let hadRootAuth := decide (parsed.collection.rootAuth ≠ .none)
  let col := select parsed.collection selected
  let target ← target m dest
  let base ← nextOrderBase m target.workspaceId dest
  let plan ← planItems supplies m target base col
  writeBulk m plan.folders plan.requests
  applyRootAuth supplies m target plan.rootAuth
  let added ← addGlobals m target.workspaceId plan.variables
  let named := parsed.environments.filter fun ie => !ie.variables.isEmpty
  named.forM fun ie => addEnvironment supplies m target.workspaceId ie
  return {
    workspaceId := target.workspaceId
    foldersCreated := plan.folders.length
    requestsCreated := plan.requests.length
    variablesCreated := added + (named.map fun ie => ie.variables.length).sum
    warnings := plan.warnings ++
      if hadRootAuth && !target.applyRootAuth then [rootAuthWarning] else [] }

end

end Voleeo.Imports
