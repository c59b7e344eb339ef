import Mathlib.Data.Rat.Defs

/-!
# Workspace entities

The records that the desktop app, the storage layer and the MCP server share.
They follow `voleeo-core`; an optional field of the generated TypeScript
bindings that serde leaves out when it holds its default is that default here,
so a missing list is the empty list and a missing flag is its default value.
Sibling orders are rational numbers in place of doubles.
-/
namespace Voleeo

structure RequestParameter where
  id : String
  name : String
  value : String
  enabled : Bool
  deriving DecidableEq, Repr

structure EnvironmentVariable where
  key : String
  value : String
  encrypted : Bool
  enabled : Bool
  deriving DecidableEq, Repr

inductive EnvironmentKind
  | personal
  | global
  deriving DecidableEq, Repr

structure Environment where
  id : String
  workspaceId : String
  kind : EnvironmentKind
  name : String
  color : String
  shared : Bool
  «variables» : List EnvironmentVariable
  createdAt : String
  updatedAt : String
  deriving DecidableEq, Repr

/-! ## Authentication schemes -/

inductive InheritSource
  | folder
  | workspace
  deriving DecidableEq, Repr

inductive ApiKeyLocation
  | header
  | query
  deriving DecidableEq, Repr

inductive OAuth1Signature
  | hmacSha1
  | hmacSha256
  | hmacSha512
  | rsaSha1
  | rsaSha256
  | rsaSha512
  | plainText
  deriving DecidableEq, Repr

inductive OAuth1Location
  | header
  | query
  deriving DecidableEq, Repr

inductive OAuth2Grant
  | clientCredentials
  | authorizationCode
  | password
  | implicit
  deriving DecidableEq, Repr

inductive OAuth2ClientAuth
  | basicHeader
  | requestBody
  deriving DecidableEq, Repr

inductive OAuth2PkceMethod
  | s256
  | plain
  deriving DecidableEq, Repr

structure BearerAuth where
  token : String
  tokenEncrypted : Bool
  enabled : Bool
  deriving DecidableEq, Repr

structure BasicAuth where
  username : String
  password : String
  passwordEncrypted : Bool
  enabled : Bool
  deriving DecidableEq, Repr

structure ApiKeyAuth where
  key : String
  value : String
  location : ApiKeyLocation
  valueEncrypted : Bool
  enabled : Bool
  deriving DecidableEq, Repr

structure AwsSigV4Auth where
  accessKey : String
  secretKey : String
  secretKeyEncrypted : Bool
  sessionToken : String
  sessionTokenEncrypted : Bool
  region : String
  service : String
  enabled : Bool
  deriving DecidableEq, Repr

structure OAuth1Auth where
  consumerKey : String
  consumerSecret : String
  consumerSecretEncrypted : Bool
  token : String
  tokenSecret : String
  tokenSecretEncrypted : Bool
  signatureMethod : OAuth1Signature
  realm : String
  privateKey : String
  privateKeyEncrypted : Bool
  paramsLocation : OAuth1Location
  callback : String
  verifier : String
  timestamp : String
  nonce : String
  version : String
  enabled : Bool
  deriving DecidableEq, Repr

structure OAuth2Auth where
  grantType : OAuth2Grant
  authUrl : String
  tokenUrl : String
  clientId : String
  clientSecret : String
  clientSecretEncrypted : Bool
  scope : String
  audience : String
  clientAuth : OAuth2ClientAuth
  usePkce : Bool
  codeChallengeMethod : OAuth2PkceMethod
  codeVerifier : String
  redirectUri : String
  state : String
  username : String
  password : String
  passwordEncrypted : Bool
  useExternalBrowser : Bool
  enabled : Bool
  deriving DecidableEq, Repr

structure DigestAuth where
  username : String
  password : String
  passwordEncrypted : Bool
  enabled : Bool
  deriving DecidableEq, Repr

structure NtlmAuth where
  username : String
  password : String
  passwordEncrypted : Bool
  domain : String
  workstation : String
  enabled : Bool
  deriving DecidableEq, Repr

inductive AuthConfig
  | none
  | inherit (source : InheritSource)
  | bearer (auth : BearerAuth)
  | basic (auth : BasicAuth)
  | apiKey (auth : ApiKeyAuth)
  | awsSigV4 (auth : AwsSigV4Auth)
  | oauth1 (auth : OAuth1Auth)
  | oauth2 (auth : OAuth2Auth)
  | digest (auth : DigestAuth)
  | ntlm (auth : NtlmAuth)
  deriving DecidableEq, Repr

/-! ## Requests, connections and folders -/

inductive BodyKind
  | none
  | json
  | xml
  | text
  | html
  | formUrlEncoded
  | multipart
  | binary
  | graphql
  deriving DecidableEq, Repr

structure BodyField where
  id : String
  name : String
  value : String
  enabled : Bool
  isFile : Bool
  contentType : Option String
  deriving DecidableEq, Repr

/-- `text` carries raw bodies and GraphQL queries, `fields` the form entries. -/
structure RequestBody where
  kind : BodyKind
  text : String
  fields : Option (List BodyField)
  filePath : Option String
  contentType : Option String
  graphqlVariables : Option String
  deriving DecidableEq, Repr

structure HttpRequest where
  id : String
  requestType : String
  model : String
  workspaceId : String
  folderId : Option String
  method : String
  name : String
  url : String
  parameters : List RequestParameter
  headers : List RequestParameter
  body : Option RequestBody
  auth : AuthConfig
  order : ℚ
  createdAt : String
  updatedAt : String
  deriving DecidableEq, Repr

/-- A request with nothing filled in. -/
def HttpRequest.blank : HttpRequest where
  id := "r1"
  requestType := "http"
  model := "http_request"
  workspaceId := "w1"
  folderId := none
  method := "GET"
  name := ""
  url := ""
  parameters := []
  headers := []
  body := none
  auth := .none
  order := 0
  createdAt := ""
  updatedAt := ""

structure WsConnection where
  id : String
  connectionType : String
  model : String
  workspaceId : String
  folderId : Option String
  name : String
  url : String
  parameters : List RequestParameter
  headers : List RequestParameter
  auth : AuthConfig
  order : ℚ
  createdAt : String
  updatedAt : String
  deriving DecidableEq, Repr

inductive WsMessageKind
  | text
  | binary
  deriving DecidableEq, Repr

inductive WsDirection
  | outgoing
  | incoming
  deriving DecidableEq, Repr

/-- One row of the transcript of a connection. -/
structure WsMessage where
  id : String
  direction : WsDirection
  kind : WsMessageKind
  data : String
  size : ℕ
  «at» : String
  deriving DecidableEq, Repr

inductive ProtoSource
  | reflection
  | files (paths includeDirs : List String)
  deriving DecidableEq, Repr

structure GrpcRequest where
  id : String
  requestType : String
  model : String
  workspaceId : String
  folderId : Option String
  name : String
  target : String
  tls : Bool
  protoSource : ProtoSource
  service : Option String
  method : Option String
  metadata : List RequestParameter
  message : String
  auth : AuthConfig
  order : ℚ
  createdAt : String
  updatedAt : String
  deriving DecidableEq, Repr

/-- One row of the transcript of a streaming call. -/
structure GrpcStreamMessage where
  id : String
  direction : WsDirection
  data : String
  size : ℕ
  «at» : String
  deriving DecidableEq, Repr

structure ApiFolder where
  id : String
  folderType : String
  model : String
  workspaceId : String
  folderId : Option String
  name : String
  headers : List RequestParameter
  auth : AuthConfig
  «variables» : List EnvironmentVariable
  color : Option String
  order : ℚ
  createdAt : String
  updatedAt : String
  deriving DecidableEq, Repr

/-! ## Cookie jars and workspaces -/

inductive SameSite
  | strict
  | lax
  | none
  deriving DecidableEq, Repr

structure StoredCookie where
  id : String
  domain : String
  hostOnly : Bool
  path : String
  name : String
  value : String
  valueEncrypted : Bool
  secure : Bool
  httpOnly : Bool
  sameSite : Option SameSite
  expires : Option String
  createdAt : String
  updatedAt : String
  deriving DecidableEq, Repr

structure CookieJar where
  id : String
  workspaceId : String
  name : String
  cookies : List StoredCookie
  createdAt : String
  updatedAt : String
  deriving DecidableEq, Repr

structure DnsOverride where
  id : String
  enabled : Bool
  hostname : String
  address : String
  deriving DecidableEq, Repr

structure Workspace where
  id : String
  name : String
  model : String
  encrypted : Bool
  syncDir : Option String
  keyCheck : Option String
  headers : List RequestParameter
  auth : AuthConfig
  dnsOverrides : List DnsOverride
  createdAt : String
  updatedAt : String
  deriving DecidableEq, Repr

/-! ## Responses and snapshots

Times in milliseconds are rational numbers in place of doubles. -/

structure TimelineEvent where
  atMs : ℚ
  kind : String
  text : String
  deriving DecidableEq, Repr

structure SseFrame where
  seq : ℕ
  event : Option String
  data : String
  lastEventId : Option String
  retry : Option ℕ
  atMs : ℚ
  deriving DecidableEq, Repr

structure HttpResponseHeader where
  name : String
  value : String
  atMs : ℚ
  deriving DecidableEq, Repr

structure HttpTiming where
  dnsMs : ℚ
  connectMs : ℚ
  tlsMs : ℚ
  firstByteMs : ℚ
  downloadMs : ℚ
  totalMs : ℚ
  deriving DecidableEq, Repr

def HttpTiming.zero : HttpTiming := ⟨0, 0, 0, 0, 0, 0⟩

structure RedirectInfo where
  hopCount : ℕ
  bodyDropped : Bool
  droppedHeaders : List String
  deriving DecidableEq, Repr

structure HttpResponse where
  requestId : String
  status : ℕ
  statusText : String
  headers : List HttpResponseHeader
  body : String
  bodySize : ℕ
  bodyIsText : Bool
  bodyWindowed : Bool
  bodyLineCount : ℕ
  responseId : String
  timing : HttpTiming
  events : List TimelineEvent
  redirectWarning : Option RedirectInfo
  capturedCookies : List StoredCookie
  attachedCookies : List StoredCookie
  sseFrames : List SseFrame
  deriving DecidableEq, Repr

/-- A response with nothing in it. -/
def HttpResponse.blank : HttpResponse where
  requestId := "r1"
  status := 200
  statusText := "OK"
  headers := []
  body := ""
  bodySize := 0
  bodyIsText := true
  bodyWindowed := false
  bodyLineCount := 0
  responseId := ""
  timing := .zero
  events := []
  redirectWarning := none
  capturedCookies := []
  attachedCookies := []
  sseFrames := []

structure Snapshot where
  id : String
  workspaceId : String
  requestId : String
  name : String
  createdAt : String
  encrypted : Bool
  pinned : Bool
  request : HttpRequest
  response : HttpResponse
  deriving DecidableEq, Repr

end Voleeo
