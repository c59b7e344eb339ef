import Voleeo.Mcp.MaskedAuth
import Voleeo.Storage.RequestStore

/-!
# Tools that write

`request.create` and `request.update` change a request in several writes, and
`env.set_variable` saves an environment in one of two directories. The arguments
of a tool are what the accessors of the JSON object read: a text, a flag, a
parsed list or body, or the error of the parser.
-/
namespace Voleeo.Mcp
open Storage
open Fallible (get modify)

def envKey (e : Environment) : FileKey := (e.workspaceId, e.id)

/-- The request store and the two directories of environments. -/
structure Files where
  store : World
  sharedEnvs : Records envKey
  localEnvs : Records envKey

inductive ToolError
  | arguments (message : String)
  | failure (f : Failure)

abbrev Tool (α : Type) := Fallible Files ToolError α

def onRequests {α : Type} (x : Store α) : Tool α :=
  x.zoom Files.store (fun files store => { files with store }) .failure

def liftArgs {α : Type} : Except String α → Tool α
  | .ok a => pure a
  | .error message => Fallible.throw (.arguments message)

section Operations
variable (env : Env) (around : Surroundings)

/-! ## Creating a request -/

structure RequestCreateArgs where
  workspaceId : Option String
  name : Option String
  method : Option String
  url : Option String
  folderId : Option String
  headers : List RequestParameter
  queryParams : List RequestParameter
  body : Except String (Option RequestBody)

structure RequestCreateInput where
  workspaceId : String
  name : String
  method : String
  url : String
  folderId : Option String
  headers : List RequestParameter
  queryParams : List RequestParameter
  body : Option RequestBody

def RequestCreateArgs.check (args : RequestCreateArgs) : Except String RequestCreateInput := do
  let workspaceId ← required "workspaceId" args.workspaceId
  let name ← required "name" args.name
  let method ← required "method" args.method
  let url ← required "url" args.url
  let body ← args.body
  return { workspaceId, name, method, url, folderId := args.folderId, headers := args.headers,
           queryParams := args.queryParams, body }

/-- The call gives more than `create_request` takes. -/
def RequestCreateInput.hasExtras (input : RequestCreateInput) : Bool :=
  input.headers ≠ [] ∨ input.queryParams ≠ [] ∨ input.body.isSome

def RequestCreateInput.extend (input : RequestCreateInput) (req : HttpRequest) : HttpRequest :=
  { req with
    headers := if input.headers ≠ [] then input.headers else req.headers
    parameters := if input.queryParams ≠ [] then input.queryParams else req.parameters
    body := if input.body.isSome then input.body else req.body }

def requestCreate (args : RequestCreateArgs) : Tool HttpRequest := do
  let input ← liftArgs args.check
  let req ← onRequests (createRequest env input.workspaceId input.folderId input.name input.method
    input.url)
  if input.hasExtras then
    let req := input.extend req
    onRequests (updateRequest env input.workspaceId req.id req)
    return req
  else return req

/-! ## Updating a request -/

structure RequestUpdateArgs where
  workspaceId : Option String
  requestId : Option String
  auth : Option (Except String AuthConfig)
  name : Option String
  method : Option String
  url : Option String
  graphqlQuery : Option String
  graphqlVariables : Option String
  headers : Option (List RequestParameter)
  queryParams : Option (List RequestParameter)
  body : Except String (Option RequestBody)

structure RequestUpdateInput where
  workspaceId : String
  requestId : String
  auth : Option AuthConfig
  name : Option String
  method : Option String
  url : Option String
  graphqlQuery : Option String
  graphqlVariables : Option String
  headers : Option (List RequestParameter)
  queryParams : Option (List RequestParameter)
  body : Option RequestBody

def RequestUpdateArgs.check (args : RequestUpdateArgs) : Except String RequestUpdateInput := do
  let workspaceId ← required "workspaceId" args.workspaceId
  let requestId ← required "requestId" args.requestId
  let auth ← match args.auth with
    | none => pure none
    | some (.ok auth) => pure (some auth)
    | some (.error e) => .error s!"invalid auth: {e}"
  let body ← args.body
  return { workspaceId, requestId, auth, name := args.name, method := args.method,
           url := args.url, graphqlQuery := args.graphqlQuery,
           graphqlVariables := args.graphqlVariables, headers := args.headers,
           queryParams := args.queryParams, body }

def graphqlBody (query : String) (vars : Option String) : RequestBody :=
  { kind := .graphql, text := query, fields := none, filePath := none, contentType := none,
    graphqlVariables := vars }

/-- The GraphQL arguments: a query makes a body and a method that can send it, variables alone go
into the body that is there. -/
def RequestUpdateInput.applyGraphql (input : RequestUpdateInput) (req : HttpRequest) :
    HttpRequest :=
  match input.graphqlQuery, input.graphqlVariables, req.body with
  | some q, vars, _ =>
    { req with
      body := some (graphqlBody q vars)
      method := if req.method.toList.map Char.toUpper = "GET".toList then "POST"
        else req.method }
  | none, some vars, some body =>
    if body.kind = .graphql then
      { req with body := some { body with graphqlVariables := some vars } }
    else req
  | none, _, _ => req

/-- All arguments but the auth. -/
def RequestUpdateInput.apply (input : RequestUpdateInput) (req : HttpRequest) : HttpRequest :=
  let req := { req with
    name := input.name.getD req.name
    method := input.method.getD req.method
    url := input.url.getD req.url }
  let req := input.applyGraphql req
  { req with
    headers := input.headers.getD req.headers
    parameters := input.queryParams.getD req.parameters
    body := match input.body with
      | some body => some body
      | none => req.body }

/-- The request that the tool hands to `update_request`. -/
def RequestUpdateInput.edited (input : RequestUpdateInput) (req : HttpRequest) :
    Except VoleeoError HttpRequest :=
  match input.auth with
  | none => .ok (input.apply req)
  | some auth =>
    (storedAuth around auth req.auth).map fun auth => { input.apply req with auth }

/-- The end of an update, behind the rename. -/
def saveEdited (input : RequestUpdateInput) (req : HttpRequest) : Tool HttpRequest := do
  let next ← onRequests (lift (input.edited around req))
  onRequests (updateRequest env input.workspaceId input.requestId next)
  return next

def requestUpdate (args : RequestUpdateArgs) : Tool HttpRequest := do
  let input ← liftArgs args.check
  let req ← onRequests (getRequest env input.workspaceId input.requestId)
  match input.name with
  | none => saveEdited env around input req
  | some name => do
      onRequests (renameRequest env input.workspaceId input.requestId name)
      saveEdited env around input req

/-! ## Setting a variable -/

/-- The environment under a key; the shared file wins. -/
def Files.environment? (files : Files) (k : FileKey) : Option Environment :=
  (files.sharedEnvs.find? k).or (files.localEnvs.find? k)

/-- `EnvironmentStore::get`. -/
def getEnvironment (workspaceId id : String) : Tool (Option Environment) := do
  onRequests (lift (validateId workspaceId))
  onRequests (lift (validateId id))
  match (← get).environment? (workspaceId, id) with
  | none => return none
  | some e => do
      onRequests (fileSystem env)
      return some e

/-- `EnvironmentStore::save`: write to one directory, then remove the copy in the other. -/
def saveEnvironment (e : Environment) : Tool Unit := do
  onRequests (lift (validateId e.workspaceId))
  onRequests (lift (validateId e.id))
  onRequests (fileSystem env) -- the directory
  onRequests (fileSystem env) -- the file
  if e.shared then
    modify fun files => { files with sharedEnvs := files.sharedEnvs.put e }
    if ((← get).localEnvs.find? (envKey e)).isSome then
      onRequests (fileSystem env)
      modify fun files => { files with localEnvs := files.localEnvs.remove (envKey e) }
  else
    modify fun files => { files with localEnvs := files.localEnvs.put e }
    if ((← get).sharedEnvs.find? (envKey e)).isSome then
      onRequests (fileSystem env)
      modify fun files => { files with sharedEnvs := files.sharedEnvs.remove (envKey e) }

def envSetVariableTool (args : SetVariableArgs) : Tool Environment := do
  let edit ← liftArgs args.check
  match ← getEnvironment env edit.workspaceId edit.envId with
  | none => onRequests (Storage.throw (.notFound "environment"))
  | some e => do
      let e ← onRequests (lift (setVariable around edit e))
      saveEnvironment env e
      return e

end Operations

end Voleeo.Mcp
