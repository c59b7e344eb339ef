import Voleeo.Postman.Imported

/-!
# The plan of an import

Items become folders and requests with new ids, in the order of the source. A
child names its folder by the id that was drawn for it.
-/
namespace Voleeo.Postman

/-- The ids and times that are drawn one after another. -/
structure Source where
  newId : ℕ → String
  now : ℕ → String

def toEnvVar (v : ImportedVariable) : EnvironmentVariable where
  key := v.key
  value := v.value
  encrypted := false
  enabled := true

def convertAuth : ImportedAuth → AuthConfig
  | .none => .none
  | .unsupported _ => .none
  | .inherit => .inherit .folder
  | .bearer token => .bearer { token, tokenEncrypted := false, enabled := true }
  | .basic username password =>
    .basic { username, password, passwordEncrypted := false, enabled := true }
  | .apiKey key value inHeader => .apiKey
      { key, value
        location := if inHeader then .header else .query
        valueEncrypted := false
        enabled := true }
  | .oauth2 grant authUrl tokenUrl clientId clientSecret scope => .oauth2
      { grantType := grant
        authUrl, tokenUrl, clientId, clientSecret
        clientSecretEncrypted := false
        scope
        audience := ""
        clientAuth := .basicHeader
        usePkce := true
        codeChallengeMethod := .s256
        codeVerifier := ""
        redirectUri := ""
        state := ""
        username := ""
        password := ""
        passwordEncrypted := false
        useExternalBrowser := false
        enabled := true }

def rawBodyKind : RawKind → BodyKind
  | .json => .json
  | .xml => .xml
  | .text => .text
  | .html => .html

/-- What has been built so far. Every draw moves `drawn` on. -/
structure Plan where
  folders : List ApiFolder
  requests : List HttpRequest
  counter : ℕ
  drawn : ℕ

section
variable (source : Source)

/-- Each row takes the next id. -/
def toParams (drawn : ℕ) (params : List ImportedParam) : List RequestParameter :=
  params.zipIdx.map fun p =>
    { id := source.newId (drawn + p.2), name := p.1.name, value := p.1.value,
      enabled := p.1.enabled }

def toFields (drawn : ℕ) (fields : List ImportedField) : List BodyField :=
  fields.zipIdx.map fun f =>
    { id := source.newId (drawn + f.2), name := f.1.name, value := f.1.value,
      enabled := f.1.enabled, isFile := f.1.isFile, contentType := none }

/-- A body with nothing filled in. -/
def emptyBody (kind : BodyKind) : RequestBody where
  kind := kind
  text := ""
  fields := none
  filePath := none
  contentType := none
  graphqlVariables := none

def toBody (drawn : ℕ) : ImportedBody → RequestBody
  | .raw hint text => { emptyBody (rawBodyKind hint) with text }
  | .formUrlEncoded fields =>
    { emptyBody .formUrlEncoded with fields := some (toFields source drawn fields) }
  | .multipart fields =>
    { emptyBody .multipart with fields := some (toFields source drawn fields) }
  | .binary => emptyBody .binary
  | .graphQl query «variables» =>
    { emptyBody .graphql with text := query, graphqlVariables := «variables» }

/-- The ids that a body takes. -/
def bodyDraws : Option ImportedBody → ℕ
  | some (.formUrlEncoded fields) => fields.length
  | some (.multipart fields) => fields.length
  | _ => 0

variable (workspaceId : String) (base : ℚ)

def convertFolder (f : ImportedFolder) (parent : Option String) (plan : Plan) : ApiFolder where
  id := source.newId plan.drawn
  folderType := "api"
  model := "folder"
  workspaceId := workspaceId
  folderId := parent
  name := f.name
  headers := toParams source (plan.drawn + 1) f.headers
  auth := convertAuth f.auth
  «variables» := f.variables.map toEnvVar
  color := none
  order := base + plan.counter
  createdAt := source.now plan.drawn
  updatedAt := source.now plan.drawn

/-- The path parameters come first, then the query, the id of the request, its headers and its
fields. -/
def convertRequest (r : ImportedRequest) (parent : Option String) (plan : Plan) : HttpRequest :=
  let afterPath := plan.drawn + r.pathParams.length
  let own := afterPath + r.query.length
  { id := source.newId own
    requestType := "api"
    model := "http_request"
    workspaceId := workspaceId
    folderId := parent
    method := r.method
    name := r.name
    url := r.url
    parameters := toParams source plan.drawn r.pathParams ++ toParams source afterPath r.query
    headers := toParams source (own + 1) r.headers
    body := r.body.map (toBody source (own + 1 + r.headers.length))
    auth := convertAuth r.auth
    order := base + plan.counter
    createdAt := source.now plan.drawn
    updatedAt := source.now plan.drawn }

def requestDraws (r : ImportedRequest) : ℕ :=
  r.pathParams.length + r.query.length + 1 + r.headers.length + bodyDraws r.body

mutual

def convertItem (parent : Option String) : ImportedItem → Plan → Plan
  | .folder f items, plan =>
    let folder := convertFolder source workspaceId base f parent plan
    convertItems (some folder.id) items
      { plan with
        folders := plan.folders ++ [folder]
        counter := plan.counter + 1
        drawn := plan.drawn + 1 + f.headers.length }
  | .request r, plan =>
    { plan with
      requests := plan.requests ++ [convertRequest source workspaceId base r parent plan]
      counter := plan.counter + 1
      drawn := plan.drawn + requestDraws r }

def convertItems (parent : Option String) : List ImportedItem → Plan → Plan
  | [], plan => plan
  | item :: rest, plan => convertItems parent rest (convertItem parent item plan)

end

structure ConvertedPlan where
  folders : List ApiFolder
  requests : List HttpRequest
  «variables» : List EnvironmentVariable
  rootAuth : AuthConfig
  warnings : List String

def buildPlan (col : ImportedCollection) : ConvertedPlan :=
  let plan := convertItems source workspaceId base none col.items ⟨[], [], 0, 0⟩
  { folders := plan.folders
    requests := plan.requests
    «variables» := col.variables.map toEnvVar
    rootAuth := convertAuth col.rootAuth
    warnings := col.warnings }

end

end Voleeo.Postman
