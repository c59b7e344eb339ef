import Voleeo.Crypto.Secrets
import Voleeo.Resolve.Http
import Voleeo.Resolve.Text

/-!
# Send paths of the MCP server

Three paths take a stored item, resolve it, and hand it to a transport. The one
of HTTP requests decrypts the item's secrets first; the ones of WebSocket
connections and gRPC requests do not.
-/
namespace Voleeo.Mcp
open Crypto OrderedMap Resolve

variable (tables : UnicodeTables) (vars : OrderedMap Text Text)

/-! ## HTTP requests -/

/-- A secret that does not open is left as it is. -/
def decryptSecret (aead : Aead) (secret : String) (encrypted : Bool) : String :=
  if encrypted && isEncrypted secret then
    match decrypt aead secret with
    | .ok plain => plain
    | .error _ => secret
  else secret

/-- Decrypt in place, when the key file is on this machine. -/
def decryptAuth (key : Option Aead) (auth : AuthConfig) : AuthConfig :=
  match key with
  | some aead => auth.setSecrets (auth.secretFields.map fun f => decryptSecret aead f.1 f.2)
  | none => auth

/-- What follows `apply_to_request`: the caller's URL, and the token of OAuth 2.0, which
`ensure_token` fetches or finds in its cache. -/
def handOver (ensureToken : OAuth2Auth → Except String String) (urlOverride : Option String)
    (req : HttpRequest) : Except String HttpRequest :=
  let req := { req with url := urlOverride.getD req.url }
  match req.auth with
  | .oauth2 a =>
    match ensureToken a with
    | .ok token =>
      .ok { req with
        headers := req.headers ++
          [authHeader "Authorization".toList ("Bearer ".toList ++ token.toList)]
        auth := .none }
    | .error message => .error ("OAuth 2.0: " ++ message)
  | _ => .ok req

/-- The request that `request.send` hands to the executor. -/
def requestSend (key : Option Aead) (ensureToken : OAuth2Auth → Except String String)
    (urlOverride : Option String) (req : HttpRequest) : Except String HttpRequest :=
  handOver ensureToken urlOverride
    (applyToRequest tables vars { req with auth := decryptAuth key req.auth })

/-! ## WebSocket connections and gRPC requests -/

/-- The URL and the headers that `websocket.connect` opens. -/
def wsConnect (connection : WsConnection) : Text × List (Text × Text) :=
  applyToConnection tables vars connection

/-- What a caller may choose for one call. -/
structure GrpcOverrides where
  service : Option String
  method : Option String
  message : Option String

def GrpcOverrides.apply (overrides : GrpcOverrides) (req : GrpcRequest) : GrpcRequest :=
  { req with
    service := overrides.service.or req.service
    method := overrides.method.or req.method
    message := overrides.message.getD req.message }

def resolveGrpcForSend (folders : List ApiFolder) (workspaceHeaders : List RequestParameter)
    (req : GrpcRequest) : Text × Text × List (Text × Text) :=
  let metadata := mergeInheritedMetadata req.metadata req.folderId folders workspaceHeaders
  applyToGrpc tables vars { req with metadata }

/-- The target, the message and the metadata of a call or a stream. -/
def prepareGrpc (folders : List ApiFolder) (workspaceHeaders : List RequestParameter)
    (overrides : GrpcOverrides) (req : GrpcRequest) : Text × Text × List (Text × Text) :=
  resolveGrpcForSend tables vars folders workspaceHeaders (overrides.apply req)

end Voleeo.Mcp

/-!
## Own secrets on the send paths

An item keeps its secrets as ciphertext. A send path is right for it when the
transport gets what the resolver computes for the item with its plaintext. The
path of HTTP requests is; the other two hand the ciphertext over wherever the
scheme puts a secret into a header, into the query or into the metadata.
-/
namespace Voleeo.Mcp
open Crypto OrderedMap Resolve

/-- A scheme with its plaintext, all of it flagged to be encrypted. -/
structure FlaggedAuth where
  auth : AuthConfig
  flagged : ∀ flag ∈ auth.flags, flag = true

/-- The scheme as the file holds it: every secret is encrypted under its own nonce. -/
def FlaggedAuth.stored (aead : Aead) (nonces : ℕ → Nonce) (a : FlaggedAuth) : AuthConfig :=
  a.auth.setSecrets (a.auth.secrets.mapIdx fun i s => encrypt aead (nonces i) s)

/-- A call of one of the three send paths, on an item whose scheme is given apart. -/
inductive Call
  | http (req : HttpRequest) (urlOverride : Option String)
  | webSocket (conn : WsConnection)
  | grpc (req : GrpcRequest) (overrides : GrpcOverrides) (folders : List ApiFolder)
      (workspaceHeaders : List RequestParameter)

/-- What the transport gets. -/
inductive Wire
  | request (sent : Except String HttpRequest)
  | connection (url : Text) (headers : List (Text × Text))
  | call (target message : Text) (metadata : List (Text × Text))

variable (tables : UnicodeTables) (vars : OrderedMap Text Text)
variable (ensureToken : OAuth2Auth → Except String String)

/-- The send path of a call, on the item with the scheme that is stored. -/
def Call.send (key : Option Aead) (auth : AuthConfig) : Call → Wire
  | .http req urlOverride =>
    .request (requestSend tables vars key ensureToken urlOverride { req with auth })
  | .webSocket conn =>
    let connected := wsConnect tables vars { conn with auth }
    .connection connected.1 connected.2
  | .grpc req overrides folders workspaceHeaders =>
    let prepared := prepareGrpc tables vars folders workspaceHeaders overrides { req with auth }
    .call prepared.1 prepared.2.1 prepared.2.2

/-- What `apply_to_request`, `apply_to_connection` and `apply_to_grpc` compute. -/
def Call.applied (auth : AuthConfig) : Call → Wire
  | .http req urlOverride =>
    .request (handOver ensureToken urlOverride (applyToRequest tables vars { req with auth }))
  | .webSocket conn =>
    let connected := applyToConnection tables vars { conn with auth }
    .connection connected.1 connected.2
  | .grpc req overrides folders workspaceHeaders =>
    let metadata := mergeInheritedMetadata req.metadata req.folderId folders workspaceHeaders
    let prepared := applyToGrpc tables vars { overrides.apply req with metadata, auth }
    .call prepared.1 prepared.2.1 prepared.2.2

def Call.isHttp : Call → Bool
  | .http _ _ => true
  | _ => false

/-! ## HTTP requests are decrypted -/

variable (aead : Aead) (nonces : ℕ → Nonce)

theorem stored_secretFields (a : FlaggedAuth) :
    (a.stored aead nonces).secretFields =
      (a.auth.secrets.mapIdx fun i s => encrypt aead (nonces i) s).map fun c => (c, true) := by
  have hlen : (a.auth.secrets.mapIdx fun i s => encrypt aead (nonces i) s).length =
      a.auth.secretFields.length := by simp
  have hflags : a.auth.flags = List.replicate a.auth.secretFields.length true :=
    List.eq_replicate_iff.mpr ⟨by simp, a.flagged⟩
  rw [FlaggedAuth.stored, AuthConfig.secretFields_setSecrets hlen, hflags, ← hlen]
  exact List.ext_getElem (by simp) fun i _ _ => by simp

/-- Decrypting gives the plaintext back. -/
theorem decryptAuth_stored (a : FlaggedAuth) :
    decryptAuth (some aead) (a.stored aead nonces) = a.auth := by
  have hplain : ((a.stored aead nonces).secretFields.map fun f => decryptSecret aead f.1 f.2) =
      a.auth.secrets := by
    rw [stored_secretFields]
    exact List.ext_getElem (by simp) fun i _ _ => by simp [decryptSecret]
  rw [decryptAuth, hplain, FlaggedAuth.stored,
    AuthConfig.setSecrets_setSecrets _ (AuthConfig.length_secrets _), AuthConfig.setSecrets_secrets]

/-! ## The other two send the stored secret -/

/-- The secret that a scheme puts on a connection or a call. -/
def sentSecret : AuthConfig → Option String
  | .bearer a => some a.token
  | .basic a => some a.password
  | .apiKey a => if strTrim (resolveStr tables a.key.toList vars) = [] then none else some a.value
  | _ => none

theorem effectiveAuth_setSecrets (auth : AuthConfig) (values : List String) :
    effectiveAuth (auth.setSecrets values) = (effectiveAuth auth).setSecrets values := by
  have hactive : (auth.setSecrets values).isActive = auth.isActive := by cases auth <;> rfl
  rw [effectiveAuth, effectiveAuth, hactive]
  split_ifs <;> rfl

/-- The two values that Basic encodes differ as the passwords do. -/
theorem basicValue_inj {username p q : String} :
    basicValue tables vars username p = basicValue tables vars username q ↔
      resolveStr tables p.toList vars = resolveStr tables q.toList vars := by
  constructor
  · intro h
    have hencoded := base64Encode_injective (List.append_cancel_left h)
    have hpair := List.append_cancel_left (utf8_injective hencoded)
    exact (List.cons.inj hpair).2
  · intro h
    let user := resolveStr tables username.toList vars
    exact congrArg (fun password => "Basic ".toList ++
      base64Encode ((user ++ ':' :: password).flatMap String.utf8EncodeChar)) h

theorem connectionAuth_setSecrets (auth : AuthConfig) (values : List String) :
    connectionAuth tables vars (auth.setSecrets values) = connectionAuth tables vars auth ↔
      ∀ p ∈ sentSecret tables vars auth,
        resolveStr tables (values.getD 0 p).toList vars = resolveStr tables p.toList vars := by
  cases auth with
  | bearer a => simp [AuthConfig.setSecrets, connectionAuth, sentSecret]
  | basic a => simp [AuthConfig.setSecrets, connectionAuth, sentSecret, basicValue_inj]
  | apiKey a =>
    by_cases hkey : strTrim (resolveStr tables a.key.toList vars) = []
    · simp [AuthConfig.setSecrets, connectionAuth, sentSecret, hkey]
    · have hcode : ∀ s t : Text, urlEncode s = urlEncode t ↔ s = t :=
        fun s t => ⟨urlEncode_injective, congrArg urlEncode⟩
      cases hloc : a.location <;>
        simp [AuthConfig.setSecrets, connectionAuth, sentSecret, hkey, hloc, hcode]
  | _ => simp [AuthConfig.setSecrets, connectionAuth, sentSecret]

theorem grpcAuth_setSecrets (auth : AuthConfig) (values : List String) :
    grpcAuth tables vars (auth.setSecrets values) = grpcAuth tables vars auth ↔
      ∀ p ∈ sentSecret tables vars auth,
        resolveStr tables (values.getD 0 p).toList vars = resolveStr tables p.toList vars := by
  cases auth with
  | bearer a => simp [AuthConfig.setSecrets, grpcAuth, sentSecret]
  | basic a => simp [AuthConfig.setSecrets, grpcAuth, sentSecret, basicValue_inj]
  | apiKey a =>
    by_cases hkey : strTrim (resolveStr tables a.key.toList vars) = []
    · simp [AuthConfig.setSecrets, grpcAuth, sentSecret, hkey]
    · simp [AuthConfig.setSecrets, grpcAuth, sentSecret, hkey]
  | _ => simp [AuthConfig.setSecrets, grpcAuth, sentSecret]

/-- The last part of a query string stands behind a text of its own. -/
theorem exists_withQuery_concat (base : Text) (queryParts : List Text) :
    ∃ front, ∀ part, withQuery base (queryParts ++ [part]) = front ++ part := by
  have hjoin : ∃ front, ∀ part, List.intercalate ['&'] (queryParts ++ [part]) = front ++ part := by
    induction queryParts with
    | nil => exact ⟨[], fun part => by simp⟩
    | cons p ps ih =>
      obtain ⟨front, hfront⟩ := ih
      refine ⟨p ++ '&' :: front, fun part => ?_⟩
      rw [List.cons_append, List.intercalate_cons_of_ne_nil (by simp), hfront]
      simp
  obtain ⟨front, hfront⟩ := hjoin
  refine ⟨base ++ '?' :: front, fun part => ?_⟩
  rw [withQuery, if_neg (by simp), hfront]
  simp

/-- A connection is the same exactly if its auth part is. -/
theorem applyToConnection_setSecrets (conn : WsConnection) (auth : AuthConfig)
    (values : List String) :
    applyToConnection tables vars { conn with auth := auth.setSecrets values } =
        applyToConnection tables vars { conn with auth } ↔
      connectionAuth tables vars ((effectiveAuth auth).setSecrets values) =
        connectionAuth tables vars (effectiveAuth auth) := by
  simp only [applyToConnection, effectiveAuth_setSecrets]
  constructor
  · intro h
    obtain ⟨hurl, hheaders⟩ := Prod.mk.inj h
    refine Prod.ext (List.append_cancel_left hheaders) ?_
    cases hauth : effectiveAuth auth with
    | apiKey a =>
      rw [hauth] at hurl
      revert hurl
      simp only [AuthConfig.setSecrets, connectionAuth]
      split_ifs
      · exact fun _ => rfl
      · cases a.location with
        | header => exact fun _ => rfl
        | query =>
          intro hurl
          obtain ⟨front, hfront⟩ := exists_withQuery_concat
            (resolveUrlAndQuery tables vars conn.url.toList conn.parameters).1
            (resolveUrlAndQuery tables vars conn.url.toList conn.parameters).2
          rw [hfront, hfront] at hurl
          exact congrArg (fun part => [part]) (List.append_cancel_left hurl)
    | _ => rfl
  · intro h
    rw [h]

theorem resolve_ciphertext (nonce : Nonce) (p : String) :
    resolveStr tables (encrypt aead nonce p).toList vars = (encrypt aead nonce p).toList := by
  apply resolveStr_plain
  intro hbraces
  have hmem : '{' ∈ (encrypt aead nonce p).toList := hbraces.mem (by simp [opening])
  rw [encrypt, String.toList_ofList, List.mem_append] at hmem
  rcases hmem with hmem | hmem
  · revert hmem
    decide
  · obtain ⟨n, hn, heq⟩ := isDigit_or_upper_of_mem_toHex hmem
    revert heq
    revert n
    decide

theorem stored_head (a : FlaggedAuth) {p : String}
    (h : p ∈ sentSecret tables vars (effectiveAuth a.auth)) :
    (a.auth.secrets.mapIdx fun i s => encrypt aead (nonces i) s).getD 0 p =
      encrypt aead (nonces 0) p := by
  have hsecrets : a.auth.secrets = [p] := by
    rw [effectiveAuth] at h
    split_ifs at h
    · cases hauth : a.auth with
      | bearer b | basic b =>
        rw [hauth] at h
        cases h
        rfl
      | apiKey b =>
        rw [hauth, sentSecret] at h
        split_ifs at h
        · cases h
        · cases h
          rfl
      | _ =>
        rw [hauth] at h
        cases h
    · cases h
  rw [hsecrets]
  rfl

/-- A send path hands over what the plaintext gives exactly if it is the path of HTTP requests, or
the scheme sends no secret there, or the secret is a template that expands to its own
ciphertext. -/
theorem sendPath_iff (a : FlaggedAuth) (call : Call) :
    call.send tables vars ensureToken (some aead) (a.stored aead nonces) =
        call.applied tables vars ensureToken a.auth ↔
      call.isHttp = true ∨
        ∀ p ∈ sentSecret tables vars (effectiveAuth a.auth),
          (encrypt aead (nonces 0) p).toList = resolveStr tables p.toList vars := by
  have hcondition : (∀ p ∈ sentSecret tables vars (effectiveAuth a.auth),
      resolveStr tables ((a.auth.secrets.mapIdx fun i s =>
        encrypt aead (nonces i) s).getD 0 p).toList vars = resolveStr tables p.toList vars) ↔
      ∀ p ∈ sentSecret tables vars (effectiveAuth a.auth),
        (encrypt aead (nonces 0) p).toList = resolveStr tables p.toList vars := by
    refine forall₂_congr fun p hp => ?_
    rw [stored_head tables vars aead nonces a hp, resolve_ciphertext]
  cases call with
  | http req urlOverride =>
      simp [Call.send, Call.applied, requestSend, decryptAuth_stored, Call.isHttp]
  | webSocket conn =>
      have hpath := applyToConnection_setSecrets tables vars conn a.auth
        (a.auth.secrets.mapIdx fun i s => encrypt aead (nonces i) s)
      rw [connectionAuth_setSecrets, hcondition] at hpath
      rw [← hpath, Call.send, Call.applied, wsConnect, FlaggedAuth.stored, Wire.connection.injEq,
        ← Prod.ext_iff]
      simp [Call.isHttp]
  | grpc req overrides folders workspaceHeaders =>
      have hauth := grpcAuth_setSecrets tables vars (effectiveAuth a.auth)
        (a.auth.secrets.mapIdx fun i s => encrypt aead (nonces i) s)
      rw [hcondition] at hauth
      rw [← hauth]
      simp [Call.send, Call.applied, prepareGrpc, resolveGrpcForSend, applyToGrpc,
        GrpcOverrides.apply, FlaggedAuth.stored, effectiveAuth_setSecrets, Call.isHttp]

/-! A connection with a bearer token opens with the ciphertext of the token. -/

def bearerAuth : FlaggedAuth := ⟨.bearer ⟨"s3cret", true, true⟩, by simp [AuthConfig.flags,
  AuthConfig.secretFields]⟩

def echoConnection : WsConnection where
  id := "c1"
  connectionType := "websocket"
  model := "ws_connection"
  workspaceId := "w1"
  folderId := none
  name := ""
  url := "wss://echo.example"
  parameters := []
  headers := []
  auth := .none
  order := 0
  createdAt := ""
  updatedAt := ""

theorem connection_sends_ciphertext :
    ¬ (Call.webSocket echoConnection).send UnicodeTables.asciiOnly .empty (fun _ => .error "")
        (some clearAead) (bearerAuth.stored clearAead zeros) =
      (Call.webSocket echoConnection).applied UnicodeTables.asciiOnly .empty (fun _ => .error "")
        bearerAuth.auth := by
  intro h
  have hsame := Prod.ext (Wire.connection.inj h).1 (Wire.connection.inj h).2
  have hauth := (applyToConnection_setSecrets _ _ echoConnection _ _).mp hsame
  have hbearer := (connectionAuth_setSecrets _ _ _ _).mp hauth "s3cret" rfl
  have hplain : resolveStr UnicodeTables.asciiOnly "s3cret".toList .empty = "s3cret".toList :=
    resolveStr_plain _ _ (by decide)
  have hsent : "s3cret" ∈
      sentSecret UnicodeTables.asciiOnly .empty (effectiveAuth bearerAuth.auth) := rfl
  rw [stored_head UnicodeTables.asciiOnly .empty clearAead zeros bearerAuth hsent,
    resolve_ciphertext] at hbearer
  have hclear : encrypt clearAead (zeros 0) "s3cret" = "s3cret" :=
    String.toList_injective (hbearer.trans hplain)
  have hencrypted := congrArg isEncrypted hclear
  rw [isEncrypted_encrypt] at hencrypted
  exact absurd hencrypted (by decide)

end Voleeo.Mcp
