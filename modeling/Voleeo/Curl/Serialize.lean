import Voleeo.Resolve.Http
import Voleeo.Send.Auth

/-!
# Requests in copy plugins

What the plugins that copy a request share: quoting for the shell, the names of
path parameters, their substitution in the whole URL, and the resolution of rows.
-/
namespace Voleeo.Curl
open OrderedMap Template
open Send (ResolveCtx isNameStart paramMatches)

/-- Single quotes of a POSIX shell. -/
def shellQuote (s : Text) : Text :=
  '\'' :: s.flatMap (fun c => if c = '\'' then ['\'', '\\', '\'', '\''] else [c]) ++ ['\'']

/-- `:param` names in the path of a URL. -/
def extractPathParamNames (pathname : Text → Option Text) (url : Text) : List Text :=
  match pathname url with
  | some path => paramMatches path
  | none => paramMatches ((url.takeWhile (· ≠ '?')).takeWhile (· ≠ '#'))

structure PathParam where
  value : Text
  enabled : Bool

/-- What a match is replaced by. -/
def paramValue (pathParams : OrderedMap Text PathParam) (name : Text) : Text :=
  match pathParams.get? name with
  | none => []
  | some param => if param.enabled then encodeURIComponent param.value else []

/-- Every match of `:([a-zA-Z_][a-zA-Z0-9_]*)` is replaced. `skip` counts the characters that the
last match still covers. -/
def substituteFrom (pathParams : OrderedMap Text PathParam) : ℕ → Text → Text
  | _, [] => []
  | skip + 1, _ :: rest => substituteFrom pathParams skip rest
  | 0, c :: rest =>
    let name := rest.takeWhile isWordChar
    if c = ':' ∧ name.head?.any isNameStart = true then
      paramValue pathParams name ++ substituteFrom pathParams name.length rest
    else c :: substituteFrom pathParams 0 rest

def substitutePathParams (url : Text) (pathParams : OrderedMap Text PathParam) : Text :=
  substituteFrom pathParams 0 url

def appendQuery (url qs : Text) : Text :=
  if qs = [] then url else url ++ (if '?' ∈ url then '&' else '?') :: qs

/-- The host resolves templates. -/
def resolveStr (ctx : ResolveCtx) (site : RenderSite) (value : Text) : Except Rejection Text :=
  Send.resolve ctx site value

structure ResolvedParam where
  name : Text
  value : Text
  enabled : Bool

def resolveParam (ctx : ResolveCtx) (site : RenderSite) (p : RequestParameter) :
    Except Rejection ResolvedParam :=
  if p.enabled then do
    let name ← resolveStr ctx (0 :: site) p.name.toList
    let value ← resolveStr ctx (1 :: site) p.value.toList
    return { name, value, enabled := true }
  else .ok { name := p.name.toList, value := p.value.toList, enabled := false }

/-- Rows that are switched off are not resolved. -/
def resolveParams (ctx : ResolveCtx) (site : RenderSite) (params : List RequestParameter) :
    Except Rejection (List ResolvedParam) :=
  params.zipIdx.mapM fun p => resolveParam ctx (p.2 :: site) p.1

def authDisabled (auth : AuthConfig) : Bool := !auth.isEnabled

/-- Schemes that the host signs over the final request. -/
def isSignedScheme : AuthConfig → Bool
  | .awsSigV4 auth => auth.enabled
  | .oauth1 auth => auth.enabled
  | _ => false

end Voleeo.Curl

/-!
## Copy as cURL

The plugin resolves a stored request into its parts and writes them as a command.
The host is a parameter where it signs a request.
-/
namespace Voleeo.Curl
open OrderedMap Template
open Send (ResolveCtx)

structure CurlHeader where
  name : Text
  value : Text

structure Credentials where
  username : Text
  password : Text

structure CurlBody where
  kind : BodyKind
  text : Text

structure CurlRequest where
  method : Text
  url : Text
  headers : List CurlHeader
  body : Option CurlBody
  basicAuth : Option Credentials
  digestAuth : Option Credentials
  ntlmAuth : Option Credentials
  cookies : List CurlHeader := []

structure Signed where
  headers : List CurlHeader := []
  query : List CurlHeader := []

/-- The host of a plugin. `signDynamic` also resolves the templates of the auth. -/
structure Context where
  templates : ResolveCtx
  signDynamic : AuthConfig → Text → Text → Option CurlBody → Except Rejection Signed

structure AuthParts where
  headers : List CurlHeader := []
  query : List CurlHeader := []
  basicAuth : Option Credentials := none
  digestAuth : Option Credentials := none
  ntlmAuth : Option Credentials := none

def resolveCredentials (ctx : ResolveCtx) (username password : String) :
    Except Rejection Credentials := do
  let username ← resolveStr ctx [0, 3] username.toList
  let password ← resolveStr ctx [1, 3] password.toList
  return { username, password }

def schemeParts (ctx : ResolveCtx) : AuthConfig → Except Rejection AuthParts
  | .bearer auth => do
      let token ← resolveStr ctx [0, 3] auth.token.toList
      return { headers := [⟨"Authorization".toList, "Bearer ".toList ++ token⟩] }
  | .basic auth => do
      let credentials ← resolveCredentials ctx auth.username auth.password
      return { basicAuth := some credentials }
  | .apiKey auth => do
      let name ← resolveStr ctx [0, 3] auth.key.toList
      let value ← resolveStr ctx [1, 3] auth.value.toList
      return match auth.location with
        | .header => { headers := [⟨name, value⟩] }
        | .query => { query := [⟨name, value⟩] }
  | .digest auth => do
      let credentials ← resolveCredentials ctx auth.username auth.password
      return { digestAuth := some credentials }
  | .ntlm auth => do
      let user ← resolveStr ctx [0, 3] auth.username.toList
      let domain ← resolveStr ctx [1, 3] auth.domain.toList
      let password ← resolveStr ctx [2, 3] auth.password.toList
      let username := if domain = [] then user else domain ++ '\\' :: user
      return { ntlmAuth := some { username, password } }
  | _ => .ok {}

def buildAuthParts (ctx : ResolveCtx) (auth : AuthConfig) : Except Rejection AuthParts :=
  if authDisabled auth then .ok {} else schemeParts ctx auth

/-- The path parameters of the URL, and the other rows that are switched on and have a name. -/
def pathParamMap (pathNames : List Text) (params : List ResolvedParam) :
    OrderedMap Text PathParam :=
  OrderedMap.ofList ((params.filter fun p => pathNames.contains p.name).map fun p =>
    (p.name, { value := p.value, enabled := p.enabled }))

def queryParams (pathNames : List Text) (params : List ResolvedParam) : List CurlHeader :=
  (params.filter fun p =>
    !pathNames.contains p.name && (p.enabled && decide (p.name ≠ []))).map fun p =>
      ⟨p.name, p.value⟩

def queryPart (q : CurlHeader) : Text :=
  if q.value = [] then encodeURIComponent q.name
  else encodeURIComponent q.name ++ '=' :: encodeURIComponent q.value

def signedPart (q : CurlHeader) : Text :=
  encodeURIComponent q.name ++ '=' :: encodeURIComponent q.value

def join (parts : List Text) : Text := List.intercalate ['&'] parts

/-- A body that has a text. -/
def resolveBody (ctx : ResolveCtx) (body : Option RequestBody) :
    Except Rejection (Option CurlBody) :=
  match body with
  | none => .ok none
  | some body =>
    if body.kind = .none ∨ body.text = "" then .ok none
    else do
      let text ← resolveStr ctx [5] body.text.toList
      return some { kind := body.kind, text }

section
variable (upper : Text → Text) (pathname : Text → Option Text) (ctx : Context)

/-- The URL before it is signed: the templates come first, then the path parameters. -/
def resolvedUrl (request : HttpRequest) (auth : AuthParts) : Except Rejection Text := do
  let pathNames := extractPathParamNames pathname request.url.toList
  let allParams ← resolveParams ctx.templates [1] request.parameters
  let url ← resolveStr ctx.templates [2] request.url.toList
  let url := substitutePathParams url (pathParamMap pathNames allParams)
  return appendQuery url (join ((queryParams pathNames allParams ++ auth.query).map queryPart))

def resolve (request : HttpRequest) : Except Rejection CurlRequest := do
  let auth ← buildAuthParts ctx.templates request.auth
  let url ← resolvedUrl pathname ctx request auth
  let headers ← resolveParams ctx.templates [4] request.headers
  let headers := (headers.filter fun h => h.enabled && decide (h.name ≠ [])).map fun h =>
    CurlHeader.mk h.name h.value
  let body ← resolveBody ctx.templates request.body
  let method := upper request.method.toList
  let signed ← if isSignedScheme request.auth then ctx.signDynamic request.auth method url body
    else .ok {}
  return {
    method
    url := appendQuery url (join (signed.query.map signedPart))
    headers := headers ++ auth.headers ++ signed.headers
    body
    basicAuth := auth.basicAuth
    digestAuth := auth.digestAuth
    ntlmAuth := auth.ntlmAuth }

/-! ## The command -/

def contentTypeFor : BodyKind → Option Text
  | .json => some "application/json".toList
  | .xml => some "application/xml".toList
  | .text => some "text/plain".toList
  | _ => none

def credFlag (mode : Option Text) (cred : Credentials) : List Text :=
  mode.toList ++ ["-u ".toList ++ shellQuote (cred.username ++ ':' :: cred.password)]

def authFlags (req : CurlRequest) : List Text :=
  match req.digestAuth, req.ntlmAuth, req.basicAuth with
  | some cred, _, _ => credFlag (some "--digest".toList) cred
  | none, some cred, _ => credFlag (some "--ntlm".toList) cred
  | none, none, some cred => credFlag none cred
  | none, none, none => []

def cookieLines (req : CurlRequest) : List Text :=
  if req.cookies = [] then []
  else ["-b ".toList ++ shellQuote
    (List.intercalate [';', ' '] (req.cookies.map fun c => c.name ++ '=' :: c.value))]

/-- The type of the body comes first, unless the headers have one. -/
def headersWithType (lower : Text → Text) (req : CurlRequest) (body : CurlBody) :
    List CurlHeader :=
  match contentTypeFor body.kind with
  | none => req.headers
  | some type =>
    if req.headers.any fun h => lower h.name == "content-type".toList then req.headers
    else ⟨"Content-Type".toList, type⟩ :: req.headers

/-- The command, with its options on lines of their own. -/
def formatCurl (lower : Text → Text) (req : CurlRequest) : Text :=
  let body := req.body.filter fun body => decide (body.text ≠ [])
  let headers := body.elim req.headers (headersWithType lower req)
  let bodyLines := body.toList.map fun body => "--data-raw ".toList ++ shellQuote body.text
  let headerLines := headers.map fun h => "-H ".toList ++ shellQuote (h.name ++ ": ".toList ++ h.value)
  let methodFlag := if req.method ≠ "GET".toList ∨ bodyLines ≠ [] then
      ["-X ".toList ++ req.method]
    else []
  let head := List.intercalate [' '] (["curl".toList] ++ methodFlag ++ [shellQuote req.url])
  let rest := headerLines ++ authFlags req ++ cookieLines req ++ bodyLines
  List.intercalate [' ', '\\', '\n'] (head :: rest.map (' ' :: ' ' :: ·))

def serializeAsCurl (lower : Text → Text) (request : HttpRequest) : Except Rejection Text := do
  let req ← resolve upper pathname ctx request
  return formatCurl lower req

end

end Voleeo.Curl
