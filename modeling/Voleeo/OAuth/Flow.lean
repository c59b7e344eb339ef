import Voleeo.OAuth.TokenCache
import Voleeo.Send.CanonicalRequest

/-!
# Token requests

Every grant but the implicit one posts to the token endpoint. What comes back is kept
with the time at which the token expires, thirty seconds early.
-/
namespace Voleeo.OAuth
open Crypto
open SigV4 (uriEncode)

structure OAuth2Config where
  grant : OAuth2Grant
  authUrl : String
  tokenUrl : String
  clientId : String
  clientSecret : String
  scope : String
  audience : String
  clientAuth : OAuth2ClientAuth
  usePkce : Bool
  codeChallengeMethod : OAuth2PkceMethod
  codeVerifier : String
  redirectUri : String
  state : String
  username : String
  password : String
  deriving DecidableEq, Repr

def OAuth2Config.fromAuth : AuthConfig → Option OAuth2Config
  | .oauth2 auth => some {
      grant := auth.grantType
      authUrl := auth.authUrl
      tokenUrl := auth.tokenUrl
      clientId := auth.clientId
      clientSecret := auth.clientSecret
      scope := auth.scope
      audience := auth.audience
      clientAuth := auth.clientAuth
      usePkce := auth.usePkce
      codeChallengeMethod := auth.codeChallengeMethod
      codeVerifier := auth.codeVerifier
      redirectUri := auth.redirectUri
      state := auth.state
      username := auth.username
      password := auth.password }
  | _ => none

def grantStr : OAuth2Grant → String
  | .clientCredentials => "client_credentials"
  | .authorizationCode => "authorization_code"
  | .password => "password"
  | .implicit => "implicit"

/-- The hash of the parts, joined with NUL characters. -/
def configHash (digest : Text → String) (parts : List String) : String :=
  digest (List.intercalate ['\x00'] (parts.map String.toList))

def OAuth2Config.keyParts (config : OAuth2Config) : List String :=
  [config.tokenUrl, config.clientId, config.username, grantStr config.grant, config.scope,
    config.audience]

def OAuth2Config.cacheKey (digest : Text → String) (config : OAuth2Config) : String :=
  configHash digest config.keyParts

/-! ## The time at which a token expires -/

inductive Failure
  /-- A sum leaves the range of `i64`: the call panics, or the sum wraps around. -/
  | overflow
  | http (message : String)
  | error (e : VoleeoError)
  deriving DecidableEq, Repr

def addI64 (a b : ℤ) : Except Failure ℤ :=
  if -2 ^ 63 ≤ a + b ∧ a + b < 2 ^ 63 then .ok (a + b) else .error .overflow

/-- `now + s - 30` of a lifetime that is given, and zero otherwise. -/
def expiresAt (now : ℤ) : Option ℤ → Except Failure ℤ
  | none => .ok 0
  | some s => do
      let sum ← addI64 now s
      addI64 sum (-30)

/-! ## The token endpoint -/

structure TokenResponse where
  accessToken : String
  tokenType : String
  expiresIn : Option ℤ
  refreshToken : Option String
  scope : Option String
  deriving DecidableEq, Repr

structure TokenRequest where
  url : String
  form : List (String × String)
  basicAuth : Option (String × String)
  deriving DecidableEq, Repr

/-- What one request to the network gives, an error as its text, and the time behind it. -/
structure Network where
  post : TokenRequest → Except String TokenResponse
  time : ℤ

def grantSendsScope (grant : OAuth2Grant) : Bool :=
  grant = .clientCredentials || grant = .password

def usesBasicAuth (clientAuth : OAuth2ClientAuth) (clientSecret : String) : Bool :=
  clientAuth = .basicHeader && clientSecret ≠ ""

def tokenRequest (config : OAuth2Config) (form : List (String × String)) : TokenRequest :=
  let form :=
    if grantSendsScope config.grant then
      form ++ (if config.scope ≠ "" then [("scope", config.scope)] else []) ++
        if config.audience ≠ "" then [("audience", config.audience)] else []
    else form
  if usesBasicAuth config.clientAuth config.clientSecret then
    ⟨config.tokenUrl, form, some (config.clientId, config.clientSecret)⟩
  else
    ⟨config.tokenUrl, form ++ [("client_id", config.clientId)] ++
      (if config.clientSecret ≠ "" then [("client_secret", config.clientSecret)] else []), none⟩

def tokenResult (config : OAuth2Config) (now : ℤ) (tr : TokenResponse) :
    Except Failure TokenResult := do
  let expiresAt ← expiresAt now tr.expiresIn
  return {
    accessToken := tr.accessToken
    refreshToken := tr.refreshToken.getD ""
    tokenType := if tr.tokenType = "" then "Bearer" else tr.tokenType
    scope := tr.scope.getD config.scope
    expiresAt }

def postToken (net : Network) (config : OAuth2Config) (form : List (String × String)) :
    Except Failure TokenResult :=
  match net.post (tokenRequest config form) with
  | .error message => .error (.http message)
  | .ok tr => tokenResult config net.time tr

def carryRefresh (prior : String) (result : TokenResult) : TokenResult :=
  if result.refreshToken = "" then { result with refreshToken := prior } else result

def clientCredentialsForm : List (String × String) := [("grant_type", "client_credentials")]

def passwordForm (config : OAuth2Config) : List (String × String) :=
  [("grant_type", "password"), ("username", config.username), ("password", config.password)]

def exchangeForm (code verifier redirectUri : String) : List (String × String) :=
  [("grant_type", "authorization_code"), ("code", code), ("redirect_uri", redirectUri)] ++
    if verifier ≠ "" then [("code_verifier", verifier)] else []

def refreshForm (refreshToken : String) : List (String × String) :=
  [("grant_type", "refresh_token"), ("refresh_token", refreshToken)]

def refresh (net : Network) (config : OAuth2Config) (refreshToken : String) :
    Except Failure TokenResult :=
  (postToken net config (refreshForm refreshToken)).map (carryRefresh refreshToken)

/-! ## The page of the provider -/

/-- The URL on which the user signs in. -/
def buildAuthUrl (config : OAuth2Config) (redirectUri state : String)
    (codeChallenge : Option String) : Text :=
  let param (name : String) (value : Text) : Text := name.toList ++ '=' :: value
  let encoded (name value : String) : Text := param name (uriEncode value.toList)
  let q := [
      param "response_type" (if config.grant = .implicit then "token" else "code").toList,
      encoded "client_id" config.clientId,
      encoded "redirect_uri" redirectUri,
      encoded "state" state] ++
    (if config.scope ≠ "" then [encoded "scope" config.scope] else []) ++
    (if config.audience ≠ "" then [encoded "audience" config.audience] else []) ++
    match codeChallenge with
    | some challenge =>
      [encoded "code_challenge" challenge, param "code_challenge_method"
        (match config.codeChallengeMethod with
        | .s256 => "S256"
        | .plain => "plain").toList]
    | none => []
  config.authUrl.toList ++ (if '?' ∈ config.authUrl.toList then '&' else '?') ::
    List.intercalate ['&'] q

/-! ## The token for a request -/

/-- The cached token that a request can be sent with. -/
def liveToken (keyring : Keyring) (tokens : List CachedToken) (key : String) (now : ℤ) :
    Except VoleeoError (Option CachedToken) :=
  (load keyring tokens key).map fun cached => cached.filter fun t => !t.isExpired now

def saveToken (keyring : Keyring) (tokens : List CachedToken) (key : String)
    (result : TokenResult) : Except Failure (String × List CachedToken) :=
  match sealToken keyring (.new key result) with
  | .error e => .error (.error e)
  | .ok entry => .ok (result.accessToken, putEntry entry tokens)

/-- A fetch without the user, for the grants that have one. -/
def fetchDirect (net : Network) (config : OAuth2Config) : Except Failure TokenResult :=
  match config.grant with
  | .clientCredentials => postToken net config clientCredentialsForm
  | .password => postToken net config (passwordForm config)
  | .authorizationCode | .implicit =>
    .error (.http "No OAuth2 token — acquire it interactively first")

/-- `ensure_token` on the tokens of the workspace: the token, and the tokens behind it. -/
def ensureToken (digest : Text → String) (renewal fetch : Network) (keyring : Keyring)
    (tokens : List CachedToken) (config : OAuth2Config) (now : ℤ) :
    Except Failure (String × List CachedToken) :=
  let key := config.cacheKey digest
  match load keyring tokens key with
  | .error e => .error (.error e)
  | .ok cached =>
    match cached.filter fun t => !t.isExpired now with
    | some t => .ok (t.accessToken, tokens)
    | none =>
      match cached.filter fun t => t.refreshToken ≠ "" with
      | some t =>
        match refresh renewal config t.refreshToken with
        | .ok result => saveToken keyring tokens key result
        | .error .overflow => .error .overflow
        | .error _ => do saveToken keyring tokens key (← fetchDirect fetch config)
      | none => do saveToken keyring tokens key (← fetchDirect fetch config)

variable {digest : Text → String} {renewal fetch : Network} {keyring : Keyring}
  {tokens : List CachedToken} {config : OAuth2Config} {now : ℤ}

theorem addI64_eq_ok_iff {a b c : ℤ} :
    addI64 a b = .ok c ↔ -2 ^ 63 ≤ a + b ∧ a + b < 2 ^ 63 ∧ c = a + b := by
  rw [addI64]
  split_ifs with h
  · refine ⟨fun heq => ⟨h.1, h.2, (Except.ok.inj heq).symm⟩, ?_⟩
    rintro ⟨-, -, rfl⟩
    rfl
  · exact ⟨nofun, fun hc => absurd ⟨hc.1, hc.2.1⟩ h⟩

theorem url_tokenRequest (config : OAuth2Config) (form : List (String × String)) :
    (tokenRequest config form).url = config.tokenUrl := by
  rw [tokenRequest]
  split <;> rfl

theorem exists_buildAuthUrl (config : OAuth2Config) (redirectUri state : String)
    (codeChallenge : Option String) :
    ∃ query, buildAuthUrl config redirectUri state codeChallenge =
      config.authUrl.toList ++ query := ⟨_, rfl⟩

/-- A live token is returned, and nothing is fetched. -/
theorem ensureToken_of_live {t : CachedToken}
    (h : liveToken keyring tokens (config.cacheKey digest) now = .ok (some t)) :
    ensureToken digest renewal fetch keyring tokens config now = .ok (t.accessToken, tokens) := by
  rw [liveToken] at h
  rw [ensureToken]
  cases hload : load keyring tokens (config.cacheKey digest) with
  | error e =>
    rw [hload] at h
    cases h
  | ok cached =>
    rw [hload] at h
    have hlive : cached.filter (fun t => !t.isExpired now) = some t := Except.ok.inj h
    simp only [hlive]

end Voleeo.OAuth

/-!
## The loopback server

The browser is sent back to a server of the app, which waits for the code of the provider. A
token comes in the fragment of the URL, which the browser does not send: a page sends it again as
a query.
-/
namespace Voleeo.OAuth
open Resolve (isWhitespace strTrim splitOnce)
open Sse (fromUtf8Lossy)
open SigV4 (percentDecode splitPair pieces)

/-! ## Reading a request -/

/-- A request as it arrives, in pieces. -/
abbrev Chunks := List (List UInt8)

/-- What is read: all up to a line feed, more than 16 KiB, or the end. -/
def readRequest (data : List UInt8) : Chunks → List UInt8
  | [] => data
  | chunk :: rest =>
    if chunk = [] then data
    else if 10 ∈ data ++ chunk ∨ 16 * 1024 < (data ++ chunk).length then data ++ chunk
    else readRequest (data ++ chunk) rest

/-- The second word of the first line. -/
def pathOf (req : Text) : Text :=
  (((req.takeWhile (· ≠ '\n')).splitOnP isWhitespace).filter (· ≠ []))[1]?.getD []

def requestPath (chunks : Chunks) : Text := pathOf (fromUtf8Lossy (readRequest [] chunks))

/-! ## The callback -/

def callbackPath : Text := "/callback".toList

/-- What stands behind the first question mark. -/
def queryOf (path : Text) : Option Text :=
  if '?' ∈ path then some (path.dropWhile (· ≠ '?')).tail else none

def decodedPair (piece : Text) : Text × Text :=
  (percentDecode (splitPair piece).1, percentDecode (splitPair piece).2)

def queryParams (query : Text) : OrderedMap Text Text :=
  OrderedMap.ofList ((pieces query).map decodedPair)

def stateOk (params : OrderedMap Text Text) (expectedState : Text) : Bool :=
  params.get? "state".toList = some expectedState

inductive Outcome
  | code (code : Text)
  | error (message : Text)
  | ignore
  deriving DecidableEq, Repr

/-- The error of the provider, with its description. -/
def providerError (params : OrderedMap Text Text) (err : Text) : Text :=
  match params.get? "error_description".toList with
  | some d => err ++ " — ".toList ++ d
  | none => err

def stateMismatch : Text := "state mismatch (possible CSRF)".toList

def missingCode : Text := "missing authorization code".toList

def parseCallback (path expectedState : Text) : Outcome :=
  if !callbackPath.isPrefixOf path then .ignore
  else
    match queryOf path with
    | none => .error missingCode
    | some query =>
      let params := queryParams query
      if !stateOk params expectedState then .error stateMismatch
      else
        match params.get? "error".toList with
        | some err => .error (providerError params err)
        | none =>
          match params.get? "code".toList with
          | some code => if code ≠ [] then .code code else .error missingCode
          | none => .error missingCode

inductive TokenOutcome
  | token (result : TokenResult)
  | error (message : Text)
  | relay
  | ignore
  deriving DecidableEq, Repr

/-- `str::parse::<i64>`: an optional sign, at least one digit, no overflow. -/
def parseI64 (value : Text) : Option ℤ :=
  let (sign, digits) : ℤ × Text :=
    match value with
    | '+' :: rest => (1, rest)
    | '-' :: rest => (-1, rest)
    | value => (1, value)
  let n := sign * digitsValue digits
  if digits ≠ [] ∧ digits.all Char.isDigit ∧ -2 ^ 63 ≤ n ∧ n < 2 ^ 63 then some n else none

/-- The lifetime that a redirect gives. -/
def lifetimeOf (params : OrderedMap Text Text) : Option ℤ :=
  (params.get? "expires_in".toList).bind parseI64

def parseToken (path expectedState : Text) (now : ℤ) : Except Failure TokenOutcome :=
  if !callbackPath.isPrefixOf path then .ok .ignore
  else
    match queryOf path with
    | none => .ok .relay
    | some query =>
      let params := queryParams query
      match params.get? "error".toList with
      | some err =>
        if !stateOk params expectedState then .ok (.error stateMismatch)
        else .ok (.error (providerError params err))
      | none =>
        match (params.get? "access_token".toList).filter (· ≠ []) with
        | none => .ok .relay
        | some token =>
          if !stateOk params expectedState then .ok (.error stateMismatch)
          else do
            let expiresAt ← expiresAt now (lifetimeOf params)
            return .token {
              accessToken := String.ofList token
              refreshToken := ""
              tokenType := String.ofList
                ((params.get? "token_type".toList).getD "Bearer".toList)
              scope := String.ofList ((params.get? "scope".toList).getD [])
              expiresAt }

/-! ## Waiting -/

inductive Page
  | complete
  | failed (message : Text)
  /-- The page that asks for `/callback?` with the fragment behind it. -/
  | relay
  | ok
  deriving DecidableEq, Repr

inductive Served (α : Type)
  | done (body : Page) (result : Except Failure α)
  | keepWaiting (body : Page)

def authFailed (message : Text) : Failure :=
  .http ("OAuth2 authorization failed: " ++ String.ofList message)

def servedCode (expectedState path : Text) : Except Failure (Served Text) :=
  match parseCallback path expectedState with
  | .code c => .ok (.done .complete (.ok c))
  | .error m => .ok (.done (.failed m) (.error (authFailed m)))
  | .ignore => .ok (.keepWaiting .ok)

def servedToken (expectedState : Text) (now : ℤ) (path : Text) :
    Except Failure (Served TokenResult) := do
  match ← parseToken path expectedState now with
  | .token t => return .done .complete (.ok t)
  | .error m => return .done (.failed m) (.error (authFailed m))
  | .relay => return .keepWaiting .relay
  | .ignore => return .keepWaiting .ok

/-- The server answers one request after the other, until one has a result. -/
def serve {α : Type} (handle : Text → Except Failure (Served α)) : List Chunks → Except Failure α
  | [] => .error (.http "OAuth2 authorization timed out")
  | chunks :: rest =>
    match handle (requestPath chunks) with
    | .error e => .error e
    | .ok (.done _ result) => result
    | .ok (.keepWaiting _) => serve handle rest

def waitForCode (expectedState : Text) (requests : List Chunks) : Except Failure Text :=
  serve (servedCode expectedState) requests

def waitForToken (expectedState : Text) (now : ℤ) (requests : List Chunks) :
    Except Failure TokenResult :=
  serve (servedToken expectedState now) requests

/-! ## Setting the server up -/

/-- `str::parse::<u16>`. -/
def parseU16 (value : Text) : Option ℕ :=
  let digits :=
    match value with
    | '+' :: rest => rest
    | value => value
  if digits ≠ [] ∧ digits.all Char.isDigit ∧ digitsValue digits < 2 ^ 16 then
    some (digitsValue digits)
  else none

def notLoopback : VoleeoError := .invalidConfig
  "Redirect URI must be a loopback address with a port, e.g. http://127.0.0.1:8080/callback"

def loopbackPort (uri : Text) : Except Failure ℕ :=
  let rest :=
    match splitOnce "://".toList uri with
    | some (_, rest) => rest
    | none => uri
  let hostPort := rest.takeWhile (· ≠ '/')
  let isLoopback := "127.0.0.1:".toList.isPrefixOf hostPort || "localhost:".toList.isPrefixOf hostPort
  match isLoopback, parseU16 (hostPort.rtakeWhile (· ≠ ':')) with
  | true, some port => .ok port
  | _, _ => .error (.error notLoopback)

/-- The port that is bound for a wanted one; the system assigns one for zero. -/
def boundPort (assigned port : ℕ) : ℕ := if port = 0 then assigned else port

structure Setup where
  csrf : Text
  port : ℕ
  redirect : Text
  deriving DecidableEq, Repr

def callbackUri (port : ℕ) : Text :=
  "http://127.0.0.1:".toList ++ (toString port).toList ++ callbackPath

def interactiveSetup (config : OAuth2Config) (genState : Text) (assigned : ℕ) :
    Except Failure Setup :=
  let state := strTrim config.state.toList
  let csrf := if state = [] then genState else state
  let uri := strTrim config.redirectUri.toList
  if uri = [] then .ok ⟨csrf, boundPort assigned 0, callbackUri (boundPort assigned 0)⟩
  else do
    let port ← loopbackPort uri
    return ⟨csrf, boundPort assigned port, uri⟩

end Voleeo.OAuth
