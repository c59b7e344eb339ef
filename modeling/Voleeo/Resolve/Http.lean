import Voleeo.Entities
import Voleeo.Resolve.Str
import Voleeo.Resolve.FolderChain

/-!
# Requests in the Rust resolver

The stored request becomes the one that is sent: path parameters and query in
the URL, variables in headers and body, and the auth scheme as a header, as a
query part, or with its fields resolved for the executor.
-/
namespace Voleeo

def AuthConfig.isEnabled : AuthConfig → Bool
  | .none => true
  | .inherit _ => true
  | .bearer a => a.enabled
  | .basic a => a.enabled
  | .apiKey a => a.enabled
  | .awsSigV4 a => a.enabled
  | .oauth1 a => a.enabled
  | .oauth2 a => a.enabled
  | .digest a => a.enabled
  | .ntlm a => a.enabled

def AuthConfig.isActive : AuthConfig → Bool
  | .none => false
  | .inherit _ => false
  | auth => auth.isEnabled

/-- Schemes that the executor applies. -/
def AuthConfig.isDynamic : AuthConfig → Bool
  | .awsSigV4 _ => true
  | .oauth1 _ => true
  | .digest _ => true
  | .ntlm _ => true
  | _ => false

namespace Resolve
open OrderedMap

variable (tables : UnicodeTables) (vars : OrderedMap Text Text)

/-- `resolve_str` on a field of a record. -/
def resolveField (s : String) : String := String.ofList (resolveStr tables s.toList vars)

/-! ## URL and query -/

def queryPart (p : RequestParameter) : Text :=
  let k := urlEncode (resolveStr tables p.name.toList vars)
  let v := resolveStr tables p.value.toList vars
  if v = [] then k else k ++ '=' :: urlEncode v

/-- The base URL, and the parts of the query string. -/
def resolveUrlAndQuery (url : Text) (parameters : List RequestParameter) : Text × List Text :=
  let pathParamNames := extractPathParams tables url
  let resolvedBase :=
    (parameters.filter fun p => p.enabled && pathParamNames.contains p.name.toList).foldl
      (fun base p => replacePathParam tables base p.name.toList
        (urlEncode (resolveStr tables p.value.toList vars)))
      (stripQuery url)
  let queryParts :=
    (parameters.filter fun p => p.enabled && !(strTrim p.name.toList).isEmpty &&
      !pathParamNames.contains p.name.toList).map (queryPart tables vars)
  (resolveStr tables resolvedBase vars, queryParts)

/-! ## Headers and body -/

def resolveHeader (h : RequestParameter) : RequestParameter :=
  if !h.enabled || (strTrim h.name.toList).isEmpty then h
  else { h with name := resolveField tables vars h.name, value := resolveField tables vars h.value }

def resolveBodyField (f : BodyField) : BodyField :=
  { f with
    name := resolveField tables vars f.name
    value := if f.isFile then f.value else resolveField tables vars f.value }

def resolveBody (body : RequestBody) : RequestBody :=
  if body.kind = .none then body
  else
    { body with
      text := resolveField tables vars body.text
      graphqlVariables := body.graphqlVariables.map (resolveField tables vars)
      fields := body.fields.map (·.map (resolveBodyField tables vars)) }

/-! ## Auth -/

def authHeader (name value : Text) : RequestParameter where
  id := "__auth"
  name := String.ofList name
  value := String.ofList value
  enabled := true

def resolveDynamicAuth : AuthConfig → AuthConfig
  | .awsSigV4 a =>
    .awsSigV4 { a with
      accessKey := resolveField tables vars a.accessKey
      secretKey := resolveField tables vars a.secretKey
      sessionToken := resolveField tables vars a.sessionToken
      region := resolveField tables vars a.region
      service := resolveField tables vars a.service }
  | .oauth1 a =>
    .oauth1 { a with
      consumerKey := resolveField tables vars a.consumerKey
      consumerSecret := resolveField tables vars a.consumerSecret
      token := resolveField tables vars a.token
      tokenSecret := resolveField tables vars a.tokenSecret
      realm := resolveField tables vars a.realm
      privateKey := resolveField tables vars a.privateKey
      callback := resolveField tables vars a.callback
      verifier := resolveField tables vars a.verifier
      timestamp := resolveField tables vars a.timestamp
      nonce := resolveField tables vars a.nonce
      version := resolveField tables vars a.version }
  | .digest a =>
    .digest { a with
      username := resolveField tables vars a.username
      password := resolveField tables vars a.password }
  | .ntlm a =>
    .ntlm { a with
      username := resolveField tables vars a.username
      password := resolveField tables vars a.password
      domain := resolveField tables vars a.domain
      workstation := resolveField tables vars a.workstation }
  | auth => auth

def resolveOAuth2Auth (a : OAuth2Auth) : OAuth2Auth :=
  { a with
    authUrl := resolveField tables vars a.authUrl
    tokenUrl := resolveField tables vars a.tokenUrl
    clientId := resolveField tables vars a.clientId
    clientSecret := resolveField tables vars a.clientSecret
    scope := resolveField tables vars a.scope
    audience := resolveField tables vars a.audience
    username := resolveField tables vars a.username
    password := resolveField tables vars a.password
    codeVerifier := resolveField tables vars a.codeVerifier }

/-- What an auth scheme adds to a request, and what is left of it for the executor. -/
structure AppliedAuth where
  headers : List RequestParameter
  queryParts : List Text
  auth : AuthConfig

def applyStaticAuth : AuthConfig → AppliedAuth
  | .bearer a =>
    let t := resolveStr tables a.token.toList vars
    ⟨[authHeader "Authorization".toList ("Bearer ".toList ++ t)], [], .none⟩
  | .basic a =>
    let u := resolveStr tables a.username.toList vars
    let p := resolveStr tables a.password.toList vars
    let encoded := base64Encode ((u ++ ':' :: p).flatMap String.utf8EncodeChar)
    ⟨[authHeader "Authorization".toList ("Basic ".toList ++ encoded)], [], .none⟩
  | .apiKey a =>
    let k := resolveStr tables a.key.toList vars
    let v := resolveStr tables a.value.toList vars
    if strTrim k = [] then ⟨[], [], .none⟩
    else
      match a.location with
      | .header => ⟨[authHeader k v], [], .none⟩
      | .query => ⟨[], [urlEncode k ++ '=' :: urlEncode v], .none⟩
  | _ => ⟨[], [], .none⟩

def applyAuth (auth : AuthConfig) : AppliedAuth :=
  if !auth.isActive then ⟨[], [], .none⟩
  else if auth.isDynamic then ⟨[], [], resolveDynamicAuth tables vars auth⟩
  else
    match auth with
    | .oauth2 a => ⟨[], [], .oauth2 (resolveOAuth2Auth tables vars a)⟩
    | auth => applyStaticAuth tables vars auth

/-! ## Requests -/

def withQuery (base : Text) (queryParts : List Text) : Text :=
  if queryParts.isEmpty then base else base ++ '?' :: List.intercalate ['&'] queryParts

def applyToRequest (req : HttpRequest) : HttpRequest :=
  let resolved := resolveUrlAndQuery tables vars req.url.toList req.parameters
  let applied := applyAuth tables vars req.auth
  { req with
    url := String.ofList (withQuery resolved.1 (resolved.2 ++ applied.queryParts))
    headers := req.headers.map (resolveHeader tables vars) ++ applied.headers
    body := req.body.map (resolveBody tables vars)
    auth := applied.auth }

end Resolve
end Voleeo

/-!
## Connections and gRPC requests in the Rust resolver

A WebSocket connection becomes a URL with headers, a gRPC request a target with
a message and metadata. Only the static auth schemes apply to them.
-/
namespace Voleeo.Resolve
open OrderedMap

variable (tables : UnicodeTables) (vars : OrderedMap Text Text)

/-- A toggled-off scheme applies nothing. -/
def effectiveAuth (auth : AuthConfig) : AuthConfig := if auth.isActive then auth else .none

/-- The rows that are sent, as pairs. -/
def sentRows (rows : List RequestParameter) : List (Text × Text) :=
  (rows.filter fun h => h.enabled && !(strTrim h.name.toList).isEmpty).map fun h =>
    (resolveStr tables h.name.toList vars, resolveStr tables h.value.toList vars)

def basicValue (username password : String) : Text :=
  let u := resolveStr tables username.toList vars
  let p := resolveStr tables password.toList vars
  "Basic ".toList ++ base64Encode ((u ++ ':' :: p).flatMap String.utf8EncodeChar)

/-- The headers and the query parts that an auth scheme adds to a connection. -/
def connectionAuth : AuthConfig → List (Text × Text) × List Text
  | .bearer a =>
    ([("Authorization".toList, "Bearer ".toList ++ resolveStr tables a.token.toList vars)], [])
  | .basic a => ([("Authorization".toList, basicValue tables vars a.username a.password)], [])
  | .apiKey a =>
    let k := resolveStr tables a.key.toList vars
    let v := resolveStr tables a.value.toList vars
    if strTrim k = [] then ([], [])
    else
      match a.location with
      | .header => ([(k, v)], [])
      | .query => ([], [urlEncode k ++ '=' :: urlEncode v])
  | _ => ([], [])

def applyToConnection (conn : WsConnection) : Text × List (Text × Text) :=
  let resolved := resolveUrlAndQuery tables vars conn.url.toList conn.parameters
  let auth := connectionAuth tables vars (effectiveAuth conn.auth)
  (withQuery resolved.1 (resolved.2 ++ auth.2), sentRows tables vars conn.headers ++ auth.1)

/-! ## gRPC -/

def toAsciiLowercase (s : String) : String := String.ofList (s.toList.map Char.toLower)

/-- Own rows first, then those of the folders from the nearest one on, then the workspace's. A
name that was seen is left out. -/
def mergeInheritedMetadata (own : List RequestParameter) (folderId : Option String)
    (folders : List ApiFolder) (workspaceHeaders : List RequestParameter) :
    List RequestParameter :=
  let rows := own ++ (ancestorChainRootFirstRs folderId folders).reverse.flatMap (·.headers) ++
    workspaceHeaders
  (rows.filter fun r => r.enabled && !(strTrim r.name.toList).isEmpty).foldl (fun out r =>
    if toAsciiLowercase r.name ∈ out.map (fun o => toAsciiLowercase o.name) then out
    else out ++ [r]) []

/-- The metadata that an auth scheme adds: gRPC has no query string. -/
def grpcAuth : AuthConfig → List (Text × Text)
  | .bearer a =>
    [("authorization".toList, "Bearer ".toList ++ resolveStr tables a.token.toList vars)]
  | .basic a => [("authorization".toList, basicValue tables vars a.username a.password)]
  | .apiKey a =>
    let k := resolveStr tables a.key.toList vars
    if strTrim k = [] then [] else [(k, resolveStr tables a.value.toList vars)]
  | _ => []

def applyToGrpc (req : GrpcRequest) : Text × Text × List (Text × Text) :=
  (resolveStr tables req.target.toList vars, resolveStr tables req.message.toList vars,
    sentRows tables vars req.metadata ++ grpcAuth tables vars (effectiveAuth req.auth))

end Voleeo.Resolve
