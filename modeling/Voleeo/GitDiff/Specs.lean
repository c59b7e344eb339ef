import Voleeo.Entities
import Voleeo.JsString
import Voleeo.GitDiff.Engine

/-!
# Authentication as comparable entries

An auth configuration is flattened into labelled entries so that reviews can
show each part and conflicts can compare the whole. Fields that only record how
a secret is stored do not become entries.
-/
namespace Voleeo.GitDiff

structure AuthEntry where
  key : String
  label : String
  value : String
  secret : Bool := false
  deriving DecidableEq, Repr

def authTypeLabel : AuthConfig → String
  | .none => "None"
  | .inherit _ => "Inherited"
  | .bearer _ => "Bearer token"
  | .basic _ => "Basic"
  | .apiKey _ => "API key"
  | .awsSigV4 _ => "AWS SigV4"
  | .oauth1 _ => "OAuth 1.0"
  | .oauth2 _ => "OAuth 2.0"
  | .digest _ => "Digest"
  | .ntlm _ => "NTLM"

def stateEntry (enabled : Bool) : AuthEntry :=
  ⟨"auth.enabled", "State", if enabled then "Enabled" else "Disabled", false⟩

/-- An entry that is only present when its value is not empty. -/
def optionalEntry (key label value : String) (secret : Bool := false) : List AuthEntry :=
  if value = "" then [] else [⟨key, label, value, secret⟩]

def awsSigV4Entries (auth : AwsSigV4Auth) (type : AuthEntry) : List AuthEntry :=
  [type,
    ⟨"auth.access_key", "Access key ID", auth.accessKey, false⟩,
    ⟨"auth.secret_key", "Secret access key", auth.secretKey, true⟩] ++
  optionalEntry "auth.session_token" "Session token" auth.sessionToken true ++
  [⟨"auth.region", "Region", auth.region, false⟩,
    ⟨"auth.service", "Service", auth.service, false⟩,
    stateEntry auth.enabled]

def ntlmEntries (auth : NtlmAuth) (type : AuthEntry) : List AuthEntry :=
  [type,
    ⟨"auth.username", "Username", auth.username, false⟩,
    ⟨"auth.password", "Password", auth.password, true⟩] ++
  optionalEntry "auth.domain" "Domain" auth.domain ++
  optionalEntry "auth.workstation" "Workstation" auth.workstation ++
  [stateEntry auth.enabled]

def oauth1SignatureLabel : OAuth1Signature → String
  | .hmacSha1 => "HMAC-SHA1"
  | .hmacSha256 => "HMAC-SHA256"
  | .hmacSha512 => "HMAC-SHA512"
  | .rsaSha1 => "RSA-SHA1"
  | .rsaSha256 => "RSA-SHA256"
  | .rsaSha512 => "RSA-SHA512"
  | .plainText => "PLAINTEXT"

def oauth1Entries (auth : OAuth1Auth) (type : AuthEntry) : List AuthEntry :=
  [type,
    ⟨"auth.consumer_key", "Consumer key", auth.consumerKey, false⟩,
    ⟨"auth.consumer_secret", "Consumer secret", auth.consumerSecret, true⟩] ++
  optionalEntry "auth.token" "Token" auth.token ++
  optionalEntry "auth.token_secret" "Token secret" auth.tokenSecret true ++
  [⟨"auth.signature_method", "Signature", oauth1SignatureLabel auth.signatureMethod, false⟩] ++
  optionalEntry "auth.private_key" "Private key" auth.privateKey true ++
  [⟨"auth.params_location", "Add params to",
    if auth.paramsLocation = .query then "Query" else "Header", false⟩] ++
  optionalEntry "auth.callback" "Callback URL" auth.callback ++
  optionalEntry "auth.verifier" "Verifier" auth.verifier ++
  optionalEntry "auth.timestamp" "Timestamp" auth.timestamp ++
  optionalEntry "auth.nonce" "Nonce" auth.nonce ++
  optionalEntry "auth.version" "Version" auth.version ++
  optionalEntry "auth.realm" "Realm" auth.realm ++
  [stateEntry auth.enabled]

def oauth2GrantName : OAuth2Grant → String
  | .clientCredentials => "client_credentials"
  | .authorizationCode => "authorization_code"
  | .password => "password"
  | .implicit => "implicit"

def oauth2Entries (auth : OAuth2Auth) (type : AuthEntry) : List AuthEntry :=
  [type,
    ⟨"auth.grant_type", "Grant", oauth2GrantName auth.grantType, false⟩,
    ⟨"auth.token_url", "Token URL", auth.tokenUrl, false⟩,
    ⟨"auth.client_id", "Client ID", auth.clientId, false⟩] ++
  optionalEntry "auth.client_secret" "Client secret" auth.clientSecret true ++
  optionalEntry "auth.auth_url" "Authorization URL" auth.authUrl ++
  optionalEntry "auth.scope" "Scope" auth.scope ++
  optionalEntry "auth.audience" "Audience" auth.audience ++
  (if auth.useExternalBrowser then
    [⟨"auth.use_external_browser", "Use external browser", "Enabled", false⟩] else []) ++
  [stateEntry auth.enabled]

/-- Flatten an auth configuration; `none` has no entries. -/
def authEntries (auth : AuthConfig) : List AuthEntry :=
  let type : AuthEntry := ⟨"auth.type", "Type", authTypeLabel auth, false⟩
  match auth with
  | .none => []
  | .inherit source =>
    [type, ⟨"auth.from", "Inherit from",
      match source with | .folder => "folder" | .workspace => "workspace", false⟩]
  | .bearer a => [type, ⟨"auth.token", "Token", a.token, true⟩, stateEntry a.enabled]
  | .basic a =>
    [type, ⟨"auth.username", "Username", a.username, false⟩,
      ⟨"auth.password", "Password", a.password, true⟩, stateEntry a.enabled]
  | .apiKey a =>
    [type, ⟨"auth.key", "Key name", a.key, false⟩, ⟨"auth.value", "Value", a.value, true⟩,
      ⟨"auth.location", "Sent in",
        match a.location with | .header => "header" | .query => "query", false⟩,
      stateEntry a.enabled]
  | .digest a =>
    [type, ⟨"auth.username", "Username", a.username, false⟩,
      ⟨"auth.password", "Password", a.password, true⟩, stateEntry a.enabled]
  | .awsSigV4 a => awsSigV4Entries a type
  | .oauth1 a => oauth1Entries a type
  | .oauth2 a => oauth2Entries a type
  | .ntlm a => ntlmEntries a type

/-- `JSON.stringify` of the key and value pairs. -/
def authCompare (auth : AuthConfig) : String :=
  "[" ++ String.intercalate "," ((authEntries auth).map fun e =>
    "[" ++ jsonString e.key ++ "," ++ jsonString e.value ++ "]") ++ "]"

def authSummary (auth : AuthConfig) : String :=
  let entries := authEntries auth
  if entries.isEmpty then "No auth"
  else String.intercalate " · " (entries.map fun e =>
    if e.secret then e.label ++ " ••••" else e.label ++ ": " ++ e.value)

end Voleeo.GitDiff

/-!
## Field lists of the entity types

One list of fields for each entity type, in the order the engine visits them.
Three fields of an HTTP request view and copy the same `body` property; the
read-only fields of a snapshot have setters that change nothing.
-/
namespace Voleeo.GitDiff

/-! ## Rows -/

def paramId (p : RequestParameter) : String := p.name

def paramEqual (a b : RequestParameter) : Bool := a.value == b.value && a.enabled == b.enabled

def paramValue (p : RequestParameter) : String :=
  if p.enabled then p.value else p.value ++ " (disabled)"

def varEqual (a b : EnvironmentVariable) : Bool :=
  a.value == b.value && a.encrypted == b.encrypted && a.enabled == b.enabled

def varValue (v : EnvironmentVariable) : String :=
  if v.enabled = false then v.value ++ " (disabled)" else v.value

def cookieId (c : StoredCookie) : String := c.domain ++ "\t" ++ c.path ++ "\t" ++ c.name

def cookieEqual (a b : StoredCookie) : Bool :=
  a.value == b.value && a.expires == b.expires && a.secure == b.secure &&
    a.httpOnly == b.httpOnly && a.sameSite == b.sameSite && a.hostOnly == b.hostOnly

def cookieValue (c : StoredCookie) : String :=
  match c.expires with
  | none => c.value
  | some expires => if expires = "" then c.value else c.value ++ "  ·  expires " ++ expires

def dnsEqual (a b : DnsOverride) : Bool :=
  a.hostname == b.hostname && a.address == b.address && a.enabled == b.enabled

/-! ## Bodies -/

def bodyKindName : BodyKind → String
  | .none => "none"
  | .json => "json"
  | .xml => "xml"
  | .text => "text"
  | .html => "html"
  | .formUrlEncoded => "form_url_encoded"
  | .multipart => "multipart"
  | .binary => "binary"
  | .graphql => "graphql"

def bodyKindLabel : BodyKind → String
  | .none => "No body"
  | .json => "JSON"
  | .xml => "XML"
  | .html => "HTML"
  | .text => "Text"
  | .formUrlEncoded => "Form URL Encoded"
  | .multipart => "Multipart Form"
  | .binary => "Binary"
  | .graphql => "GraphQL"

def serializeBodyField (f : BodyField) : String :=
  (if f.enabled then "" else "#") ++ f.name ++ "=" ++ if f.isFile then "@" ++ f.value else f.value

def serializeBody (b : RequestBody) : String :=
  match b.kind with
  | .none => ""
  | .formUrlEncoded | .multipart =>
    String.intercalate "\n" ((b.fields.getD []).map serializeBodyField)
  | .binary => trimString (b.filePath.getD "" ++ " " ++ b.contentType.getD "")
  | _ => b.text

/-- A GraphQL body has sections of its own, so the generic text treats it as empty. -/
def bodyText : Option RequestBody → String
  | none => ""
  | some b =>
    if b.kind = .none ∨ b.kind = .graphql then "" else bodyKindName b.kind ++ "\n" ++ serializeBody b

def bodyShow : Option RequestBody → String
  | none => "(empty)"
  | some b =>
    if b.kind = .none ∨ b.kind = .graphql then "(empty)"
    else if serializeBody b = "" then bodyKindLabel b.kind
    else bodyKindLabel b.kind ++ "\n" ++ serializeBody b

def gqlQueryText : Option RequestBody → String
  | none => ""
  | some b => if b.kind = .graphql then b.text else ""

def gqlQueryShow : Option RequestBody → String
  | none => "(empty)"
  | some b => if b.kind = .graphql ∧ trimString b.text ≠ "" then b.text else "(empty)"

def gqlVarsText : Option RequestBody → String
  | none => ""
  | some b => if b.kind = .graphql then b.graphqlVariables.getD "" else ""

def gqlVarsShow : Option RequestBody → String
  | none => "(empty)"
  | some b =>
    if b.kind = .graphql ∧ trimString (b.graphqlVariables.getD "") ≠ "" then
      b.graphqlVariables.getD ""
    else "(empty)"

/-! ## Shared fields -/

variable {E : Type}

def authBlob (get : E → AuthConfig) (set : E → AuthConfig → E) : BlobField E where
  id := "auth"
  group := .authentication
  compare e := authCompare (get e)
  summary e := authSummary (get e)
  copy source target := set target (get source)
  entries := some fun e => (authEntries (get e)).map fun x => ⟨x.label, x.value, x.secret⟩

def paramList (id : String) (group : FieldGroup) (canBoth : Option Bool)
    (get : E → List RequestParameter) (set : E → List RequestParameter → E) : ListField E where
  id := id
  group := group
  Item := RequestParameter
  canBoth := canBoth
  get := get
  set := set
  idOf := paramId
  equal := paramEqual
  labelOf p := p.name
  valueOf := paramValue
  secretOf _ := false

def headerList (get : E → List RequestParameter) (set : E → List RequestParameter → E) :
    ListField E :=
  paramList "header" .headers none get set

def varList (get : E → List EnvironmentVariable) (set : E → List EnvironmentVariable → E) :
    ListField E where
  id := "var"
  group := .variables
  Item := EnvironmentVariable
  get := get
  set := set
  idOf v := v.key
  equal := varEqual
  labelOf v := v.key
  valueOf := varValue
  secretOf v := v.encrypted

def nameField (get : E → String) (set : E → String → E) : ScalarField E where
  id := "name"
  group := .general
  label := some "Name"
  get := get
  set := set

/-- `v || null`: the empty text clears an optional property. -/
def orNull (v : String) : Option String := if v = "" then none else some v

/-! ## The lists -/

def bodyField : BlobField HttpRequest where
  id := "body"
  group := .body
  compare e := bodyText e.body
  summary e := bodyShow e.body
  copy source target := { target with body := source.body }

def graphqlQueryField : BlobField HttpRequest where
  id := "graphqlQuery"
  group := .query
  compare e := gqlQueryText e.body
  summary e := gqlQueryShow e.body
  copy source target := { target with body := source.body }

def graphqlVariablesField : BlobField HttpRequest where
  id := "graphqlVariables"
  group := .variables
  compare e := gqlVarsText e.body
  summary e := gqlVarsShow e.body
  copy source target := { target with body := source.body }

def requestParamField : ListField HttpRequest :=
  paramList "param" .queryParameters (some true) (·.parameters)
    fun e items => { e with parameters := items }

def requestSpecs : List (Field HttpRequest) :=
  [.scalar (nameField (·.name) fun e v => { e with name := v }),
    .scalar { id := "method", group := .general, label := some "Method",
              get := (·.method), set := fun e v => { e with method := v } },
    .scalar { id := "url", group := .url, get := (·.url), set := fun e v => { e with url := v } },
    .list requestParamField,
    .list (headerList (·.headers) fun e items => { e with headers := items }),
    .blob bodyField,
    .blob graphqlQueryField,
    .blob graphqlVariablesField,
    .blob (authBlob (·.auth) fun e auth => { e with auth := auth })]

def connectionSpecs : List (Field WsConnection) :=
  [.scalar (nameField (·.name) fun e v => { e with name := v }),
    .scalar { id := "url", group := .url, get := (·.url), set := fun e v => { e with url := v } },
    .list (paramList "param" .queryParameters (some true) (·.parameters)
      fun e items => { e with parameters := items }),
    .list (headerList (·.headers) fun e items => { e with headers := items }),
    .blob (authBlob (·.auth) fun e auth => { e with auth := auth })]

def grpcSpecs : List (Field GrpcRequest) :=
  [.scalar (nameField (·.name) fun e v => { e with name := v }),
    .scalar { id := "target", group := .url, label := some "Target",
              get := (·.target), set := fun e v => { e with target := v } },
    .scalar { id := "transport", group := .general, label := some "Transport",
              get := fun e => if e.tls then "TLS" else "Plaintext",
              set := fun e v => { e with tls := v == "TLS" } },
    .scalar { id := "service", group := .general, label := some "Service",
              get := fun e => e.service.getD "",
              set := fun e v => { e with service := orNull v } },
    .scalar { id := "method", group := .general, label := some "Method",
              get := fun e => e.method.getD "",
              set := fun e v => { e with method := orNull v } },
    .scalar { id := "message", group := .message, label := some "Message",
              get := (·.message), set := fun e v => { e with message := v } },
    .list (paramList "metadata" .metadata (some true) (·.metadata)
      fun e items => { e with metadata := items }),
    .blob (authBlob (·.auth) fun e auth => { e with auth := auth })]

def folderSpecs : List (Field ApiFolder) :=
  [.scalar (nameField (·.name) fun e v => { e with name := v }),
    .scalar { id := "color", group := .general, label := some "Color",
              get := fun e => e.color.getD "",
              set := fun e v => { e with color := orNull v } },
    .list (headerList (·.headers) fun e items => { e with headers := items }),
    .list (varList (·.variables) fun e items => { e with «variables» := items }),
    .blob (authBlob (·.auth) fun e auth => { e with auth := auth })]

def environmentSpecs : List (Field Environment) :=
  [.scalar (nameField (·.name) fun e v => { e with name := v }),
    .scalar { id := "color", group := .general, label := some "Color",
              get := (·.color), set := fun e v => { e with color := v } },
    .list (varList (·.variables) fun e items => { e with «variables» := items })]

def jarSpecs : List (Field CookieJar) :=
  [.scalar (nameField (·.name) fun e v => { e with name := v }),
    .list { id := "cookie", group := .value, Item := StoredCookie,
            get := (·.cookies), set := fun e items => { e with cookies := items },
            idOf := cookieId, equal := cookieEqual, labelOf := fun c => c.name,
            valueOf := cookieValue, secretOf := fun c => c.valueEncrypted }]

def workspaceSpecs : List (Field Workspace) :=
  [.scalar (nameField (·.name) fun e v => { e with name := v }),
    .list (headerList (·.headers) fun e items => { e with headers := items }),
    .blob (authBlob (·.auth) fun e auth => { e with auth := auth }),
    .list { id := "dns", group := .dnsOverrides, Item := DnsOverride, canBoth := some true,
            get := (·.dnsOverrides), set := fun e items => { e with dnsOverrides := items },
            idOf := fun o => o.id, equal := dnsEqual,
            labelOf := fun o => if o.hostname = "" then "(unnamed)" else o.hostname,
            valueOf := fun o => (if o.enabled then "" else "# ") ++ o.address,
            secretOf := fun _ => false }]

/-- A read-only field: its setter leaves the entity alone. -/
def readOnlyScalar (id : String) (group : FieldGroup) (label : String) (get : E → String) :
    ScalarField E :=
  { id := id, group := group, label := some label, get := get, set := fun e _ => e }

def snapshotSpecs : List (Field Snapshot) :=
  [.scalar (nameField (·.name) fun e v => { e with name := v }),
    .scalar { id := "pinned", group := .general, label := some "Pinned",
              get := fun e => if e.pinned then "pinned" else "",
              set := fun e v => { e with pinned := v == "pinned" } },
    .scalar (readOnlyScalar "method" .metadata "Method" fun e => e.request.method),
    .scalar (readOnlyScalar "url" .url "URL" fun e => e.request.url),
    .scalar (readOnlyScalar "status" .metadata "Status" fun e => toString e.response.status),
    .scalar (readOnlyScalar "responseSize" .response "Size"
      fun e => toString e.response.bodySize ++ " bytes"),
    .blob { id := "responseBody", group := .response, label := some "Body",
            compare := fun e => e.response.body, summary := fun e => e.response.body,
            copy := fun _ target => target }]

/-! ## Lookup by entity type -/

inductive EntityType
  | request
  | websocket
  | grpc
  | folder
  | environment
  | cookie
  | workspace
  | snapshot
  deriving DecidableEq, Repr

/-- The record behind an entity type. -/
@[reducible] def Inner : EntityType → Type
  | .request => HttpRequest
  | .websocket => WsConnection
  | .grpc => GrpcRequest
  | .folder => ApiFolder
  | .environment => Environment
  | .cookie => CookieJar
  | .workspace => Workspace
  | .snapshot => Snapshot

def specsByType : (type : EntityType) → List (Field (Inner type))
  | .request => requestSpecs
  | .websocket => connectionSpecs
  | .grpc => grpcSpecs
  | .folder => folderSpecs
  | .environment => environmentSpecs
  | .cookie => jarSpecs
  | .workspace => workspaceSpecs
  | .snapshot => snapshotSpecs

end Voleeo.GitDiff
