import Mathlib.Data.String.Basic
import Voleeo.Entities
import Voleeo.Json
import Voleeo.OrderedMap
import Voleeo.Resolve.FolderChain
import Voleeo.Resolve.Http
import Voleeo.StableSort

/-!
# Writing a Postman collection

A workspace becomes a folder with its tree in it, or the selected folders become
the items of the collection. An auth that a folder or a request takes from the
workspace is written out, since Postman looks at the folders only.
-/
namespace Voleeo.Postman.Export
open Resolve (splitOnce strTrim climb)

/-- A workspace with all that a collection is made of. -/
structure Bundle where
  workspace : Workspace
  folders : List ApiFolder
  requests : List HttpRequest
  environments : List Environment

/-! ## Texts -/

def text (s : String) : Json := .string s

/-- White space in braces goes. An opening without an end stays, with all behind it. -/
def normalizeText (input : Text) : Text :=
  match _hopen : splitOnce ['{', '{'] input with
  | none => input
  | some (before, expression) =>
    match _hclose : splitOnce ['}', '}'] expression with
    | none => before ++ ['{', '{'] ++ expression
    | some (inner, rest) =>
      before ++ ['{', '{'] ++ strTrim inner ++ ['}', '}'] ++ normalizeText rest
termination_by input.length
decreasing_by
  have hinside := Resolve.splitOnce_length (by decide) _hopen
  have hrest := Resolve.splitOnce_length (by decide) _hclose
  omega

def normalizeTemplates (input : String) : String := String.ofList (normalizeText input.toList)

/-- A template text, written without white space in braces. -/
def template (s : String) : Json := text (normalizeTemplates s)

/-! ## Auth -/

/-- The auth object of a type, with its parameters. -/
def pm (ty : String) (pairs : List (String × String)) : Json := .object
  [("type", text ty),
    (ty, .array (pairs.map fun p => .object
      [("key", text p.1), ("value", template p.2), ("type", text "string")]))]

def noauth : Json := .object [("type", text "noauth")]

def oauth1Sig : OAuth1Signature → String
  | .hmacSha1 => "HMAC-SHA1"
  | .hmacSha256 => "HMAC-SHA256"
  | .hmacSha512 => "HMAC-SHA512"
  | .rsaSha1 => "RSA-SHA1"
  | .rsaSha256 => "RSA-SHA256"
  | .rsaSha512 => "RSA-SHA512"
  | .plainText => "PLAINTEXT"

def oauth2Grant : OAuth2Grant → String
  | .clientCredentials => "client_credentials"
  | .authorizationCode => "authorization_code"
  | .password => "password_credentials"
  | .implicit => "implicit"

/-- The object of a scheme that is switched on. -/
def schemeToPostman : AuthConfig → Json
  | .none => noauth
  | .inherit _ => noauth
  | .bearer a => pm "bearer" [("token", a.token)]
  | .basic a => pm "basic" [("username", a.username), ("password", a.password)]
  | .apiKey a => pm "apikey"
      [("key", a.key), ("value", a.value),
        ("in", if a.location = .query then "query" else "header")]
  | .awsSigV4 a => pm "awsv4"
      [("accessKey", a.accessKey), ("secretKey", a.secretKey), ("sessionToken", a.sessionToken),
        ("region", a.region), ("service", a.service)]
  | .oauth1 a => pm "oauth1"
      [("consumerKey", a.consumerKey), ("consumerSecret", a.consumerSecret), ("token", a.token),
        ("tokenSecret", a.tokenSecret), ("signatureMethod", oauth1Sig a.signatureMethod),
        ("realm", a.realm),
        ("addParamsToHeader", if a.paramsLocation = .header then "true" else "false")]
  | .oauth2 a => pm "oauth2"
      [("grant_type", oauth2Grant a.grantType), ("authUrl", a.authUrl),
        ("accessTokenUrl", a.tokenUrl), ("clientId", a.clientId),
        ("clientSecret", a.clientSecret), ("scope", a.scope)]
  | .digest a => pm "digest" [("username", a.username), ("password", a.password)]
  | .ntlm a => pm "ntlm"
      [("username", a.username), ("password", a.password), ("domain", a.domain),
        ("workstation", a.workstation)]

/-- No member for an auth that inherits, and `noauth` for one that is off. -/
def authToPostman (auth : AuthConfig) : Option Json :=
  match auth with
  | .inherit _ => none
  | .none => some noauth
  | auth => if auth.isEnabled then some (schemeToPostman auth) else some noauth

section
variable (b : Bundle)

/-- The first active auth from a place upwards. Of folders with one id the last one counts. -/
def folderAuthAbove (parent : Option String) : Option AuthConfig :=
  ((climb (fun _ => false) b.folders.reverse [] parent).find? fun f => f.auth.isActive).map
    (·.auth)

def effectiveInheritedAuth (parent : Option String) (source : InheritSource)
    (fallback : AuthConfig) : AuthConfig :=
  let workspaceAuth := if b.workspace.auth.isActive then some b.workspace.auth else none
  let folderAuth := folderAuthAbove b parent
  (match source with
    | .workspace => workspaceAuth.or folderAuth
    | .folder => folderAuth.or workspaceAuth).getD fallback

/-- What is written for an auth: one that prefers the workspace is looked up. -/
def writtenAuth (parent : Option String) (auth : AuthConfig) : AuthConfig :=
  match auth with
  | .inherit .workspace => effectiveInheritedAuth b parent .workspace auth
  | auth => auth

def effectiveRootAuth (folder : ApiFolder) : AuthConfig :=
  match folder.auth with
  | .inherit source => effectiveInheritedAuth b folder.folderId source folder.auth
  | auth => auth

/-! ## Requests -/

def headers (params : List RequestParameter) : Json :=
  .array (params.map fun p => .object
    [("key", text p.name), ("value", template p.value), ("disabled", .bool !p.enabled)])

/-- The part in front of the first question mark or number sign. -/
def urlPath (url : Text) : Text := url.takeWhile fun c => c ≠ '?' ∧ c ≠ '#'

/-- Some occurrence of the name behind a colon is not followed by a word character. -/
def endsSomewhere (name path : Text) : Bool :=
  match _h : splitOnce (':' :: name) path with
  | none => false
  | some (_, after) =>
    after.head?.all (fun c => !(c.isAlphanum || c == '_')) || endsSomewhere name after
termination_by path.length
decreasing_by exact Resolve.splitOnce_length (List.cons_ne_nil _ _) _h

def containsPathParameter (url name : Text) : Bool := endsSomewhere name (urlPath url)

def appendQuery (url query : Text) : Text :=
  let (base, fragment) : Text × Option Text := match splitOnce ['#'] url with
    | none => (url, none)
    | some (base, fragment) => (base, some fragment)
  let separator := if '?' ∈ base then '&' else '?'
  base ++ separator :: query ++ (fragment.elim [] fun fragment => '#' :: fragment)

/-- The last colon begins a port, if digits or a template follow. -/
def splitPort (authority : Text) : Text × Option Text :=
  let port := authority.rtakeWhile (· ≠ ':')
  if ':' ∈ authority ∧ (port.all Char.isDigit = true ∨
      (['{', '{'] <+: port ∧ ['}', '}'] <:+ port)) then
    (authority.take (authority.length - port.length - 1), some port)
  else (authority, none)

def pathSegments (path : Text) : List Text :=
  ((path.dropWhile (· = '/')).splitOn '/').filter (· ≠ [])

structure SplitUrl where
  protocol : Option Text
  host : List Text
  port : Option Text
  path : List Text

def splitUrl (raw : Text) : SplitUrl :=
  let base := urlPath raw
  let (protocol, authorityAndPath) : Option Text × Text := match splitOnce "://".toList base with
    | some (scheme, rest) => (some scheme, rest)
    | none => (none, base)
  let (authority, path) := (splitOnce ['/'] authorityAndPath).getD (authorityAndPath, [])
  let (authority, port) := splitPort authority
  { protocol, port
    host := (authority.splitOn '.').filter (· ≠ [])
    path := pathSegments path }

def texts (ts : List Text) : Json := .array (ts.map fun t => text (String.ofList t))

/-- A member that is left out where there is nothing to write. -/
def member (key : String) (value : Option Json) : List (String × Json) :=
  value.toList.map fun v => (key, v)

def nonEmpty (values : List Json) : Option Json :=
  if values.isEmpty then none else some (.array values)

def isPathParam (url : Text) (p : RequestParameter) : Bool :=
  containsPathParameter url p.name.toList

def queryMember (p : RequestParameter) : Json := .object
  [("key", text p.name), ("value", template p.value), ("disabled", .bool !p.enabled)]

def variableMember (p : RequestParameter) : Json := .object
  [("key", text p.name), ("value", template p.value)]

def rawUrl (url : Text) (query : List RequestParameter) : Text :=
  let enabledQuery := (query.filter (·.enabled)).map fun p =>
    p.name.toList ++ '=' :: normalizeText p.value.toList
  if enabledQuery = [] then url else appendQuery url (List.intercalate ['&'] enabledQuery)

/-- A parameter whose name stands behind a colon of the path is a path variable. -/
def buildUrl (url : String) (params : List RequestParameter) : Json :=
  let url := normalizeText url.toList
  let query := params.filter fun p => !isPathParam url p
  let raw := rawUrl url query
  let split := splitUrl raw
  .object
    ([("raw", text (String.ofList raw))] ++
      member "protocol" (split.protocol.map fun t => text (String.ofList t)) ++
      member "host" (if split.host = [] then none else some (texts split.host)) ++
      member "port" (split.port.map fun t => text (String.ofList t)) ++
      member "path" (if split.path = [] then none else some (texts split.path)) ++
      member "query" (nonEmpty (query.map queryMember)) ++
      member "variable" (nonEmpty ((params.filter (isPathParam url)).map variableMember)))

def fieldMember (multipart : Bool) (f : BodyField) : Json :=
  if multipart && f.isFile then .object
    [("key", text f.name), ("src", template f.value), ("type", text "file"),
      ("disabled", .bool !f.enabled)]
  else .object
    [("key", text f.name), ("value", template f.value), ("type", text "text"),
      ("disabled", .bool !f.enabled)]

def formMembers (body : RequestBody) (multipart : Bool) : Json :=
  .array ((body.fields.getD []).map (fieldMember multipart))

def rawMember (body : RequestBody) (lang : String) : Json := .object
  [("mode", text "raw"), ("raw", template body.text),
    ("options", .object [("raw", .object [("language", text lang)])])]

def bodyToPostman (body : RequestBody) : Option Json :=
  match body.kind with
  | .none => none
  | .json => some (rawMember body "json")
  | .xml => some (rawMember body "xml")
  | .html => some (rawMember body "html")
  | .text => some (rawMember body "text")
  | .formUrlEncoded => some (.object
      [("mode", text "urlencoded"), ("urlencoded", formMembers body false)])
  | .multipart => some (.object
      [("mode", text "formdata"), ("formdata", formMembers body true)])
  | .binary => some (.object
      [("mode", text "file"), ("file", .object [("src", text (body.filePath.getD ""))])])
  | .graphql => some (.object
      [("mode", text "graphql"), ("graphql", .object
        [("query", template body.text),
          ("variables", template (body.graphqlVariables.getD ""))])])

def httpAuth (r : HttpRequest) : Option Json := authToPostman (writtenAuth b r.folderId r.auth)

def httpItem (r : HttpRequest) : Json := .object
  [("name", text r.name),
    ("request", .object
      ([("method", text r.method), ("header", headers r.headers),
          ("url", buildUrl r.url r.parameters)] ++
        member "body" (r.body.bind bodyToPostman) ++ member "auth" (httpAuth b r)))]

/-! ## Items -/

/-- A node of the collection; a request is kept as it is until the document is written. -/
inductive Item
  | folder (name : String) (items : List Item) (auth : Option Json)
  | request (r : HttpRequest)

inductive Node
  | folder (f : ApiFolder)
  | http (r : HttpRequest)

def Node.order : Node → ℚ
  | .folder f => f.order
  | .http r => r.order

def children (parent : Option String) : List Node :=
  sortBy Node.order
    ((b.folders.filter fun f => f.folderId = parent).map .folder ++
      (b.requests.filter fun r => r.folderId = parent).map .http)

/-- The build of a tree of folders, with a bound on its depth. -/
abbrev Build := Option String → Option (List Item)

def folderItemWithAuth (build : Build) (folder : ApiFolder) (auth : AuthConfig) : Option Item :=
  (build (some folder.id)).map fun items => .folder folder.name items (authToPostman auth)

def folderItem (build : Build) (folder : ApiFolder) : Option Item :=
  folderItemWithAuth build folder (writtenAuth b folder.folderId folder.auth)

def nodeItem (build : Build) : Node → Option Item
  | .folder f => folderItem b build f
  | .http r => some (.request r)

def buildItems : ℕ → Build
  | 0, _ => none
  | depth + 1, parent => (children b parent).mapM (nodeItem b (buildItems depth))

def workspaceItem (depth : ℕ) : Option Item :=
  (buildItems b depth none).map fun items =>
    .folder b.workspace.name items (authToPostman b.workspace.auth)

def rootFolderItem (depth : ℕ) (folder : ApiFolder) : Option Item :=
  folderItemWithAuth (buildItems b depth) folder (effectiveRootAuth b folder)

/-- The selected folders that no selected folder is above of. -/
def rootFolders (roots : List (String × String)) : List ApiFolder :=
  let selected := (roots.filter fun r => r.1 = b.workspace.id).map (·.2)
  b.folders.filter fun f =>
    let places := f.folderId ::
      (climb (fun _ => false) b.folders.reverse [] f.folderId).map (·.folderId)
    selected.contains f.id && places.all fun place => place.all fun id => !selected.contains id

def bundleItems (depth : ℕ) (roots : List (String × String)) : Option (List Item) :=
  match rootFolders b roots with
  | [] => (workspaceItem b depth).map fun item => [item]
  | selected => selected.mapM (rootFolderItem b depth)

end

/-! ## The document -/

mutual

def itemJson (http : HttpRequest → Json) : Item → Json
  | .folder name items auth => .object
      ([("name", text name), ("item", .array (itemsJson http items))] ++ member "auth" auth)
  | .request r => http r

def itemsJson (http : HttpRequest → Json) : List Item → List Json
  | [] => []
  | item :: rest => itemJson http item :: itemsJson http rest

end

/-- The variables of all environments by key; the last row of a key counts. -/
def collectionVariables (bundles : List Bundle) : Json :=
  let rows := bundles.flatMap fun b => b.environments.flatMap (·.variables)
  let byKey := OrderedMap.ofList (rows.map fun v => (v.key, v))
  .array ((sortBy Prod.fst byKey.entries).map fun e => .object
    [("key", text e.1), ("value", template e.2.value),
      ("type", text (if e.2.encrypted then "secret" else "string")),
      ("disabled", .bool !e.2.enabled)])

def schema21 : String := "https://schema.getpostman.com/json/collection/v2.1.0/collection.json"

/-- The document before it is written as text. -/
structure ExportResult where
  content : Json
  warnings : List String

def environmentsWarning : String :=
  "Environments are written as separate *.postman_environment.json files next to the " ++
  "collection — import those into Postman too (they appear under Environments, while the " ++
  "collection's own variables are its defaults)."

def collectionName (bundles : List Bundle) (roots : List (String × String)) : String :=
  match bundles with
  | [b] =>
    match rootFolders b roots with
    | [folder] => folder.name
    | _ => b.workspace.name
  | _ => "Voleeo Export"

def toPostmanWithRoots (depth : ℕ) (bundles : List Bundle) (roots : List (String × String)) :
    Option ExportResult := do
  let items ← bundles.mapM fun b =>
    (bundleItems b depth roots).map fun items => itemsJson (httpItem b) items
  return {
    content := .object
      [("info", .object [("name", text (collectionName bundles roots)),
          ("schema", text schema21)]),
        ("item", .array items.flatten),
        ("variable", collectionVariables bundles)]
    warnings :=
      if bundles.any fun b => b.environments.any fun e => !e.variables.isEmpty then
        [environmentsWarning]
      else [] }

end Voleeo.Postman.Export
