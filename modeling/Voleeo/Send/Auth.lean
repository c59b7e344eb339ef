import Voleeo.Resolve.FolderChain
import Voleeo.Resolve.Http
import Voleeo.Resolve.Text
import Voleeo.Send.Url

/-!
# Inherited auth in the web app

A request that inherits takes the auth of the nearest folder that has an active
one, or the one of the workspace; its preference says which comes first.
-/
namespace Voleeo.Send
open Resolve (ancestorChainRootFirst climb Chain climb_chain)

structure ResolvedAuth where
  auth : AuthConfig
  inheritedFromFolderId : Option String := none
  inheritedFromFolderName : Option String := none
  inheritedFromWorkspace : Bool := false

/-- The nearest folder with an active auth. -/
def folderAuth (folderId : Option String) (folders : List ApiFolder) : Option ResolvedAuth :=
  ((ancestorChainRootFirst folderId folders).reverse.find? fun f => f.auth.isActive).map fun f =>
    { auth := f.auth, inheritedFromFolderId := some f.id, inheritedFromFolderName := some f.name }

def workspaceAuth (workspace : Workspace) : Option ResolvedAuth :=
  if workspace.auth.isActive then
    some { auth := workspace.auth, inheritedFromWorkspace := true }
  else none

def resolveInheritedAuthAnnotated (auth : AuthConfig) (folderId : Option String)
    (folders : List ApiFolder) (workspace : Workspace) : ResolvedAuth :=
  match auth with
  | .inherit source =>
    let ofFolder := folderAuth folderId folders
    let ofWorkspace := workspaceAuth workspace
    let preferred := match source with
      | .workspace => ofWorkspace.or ofFolder
      | .folder => ofFolder.or ofWorkspace
    preferred.getD { auth := .none }
  | auth => { auth := if auth.isEnabled then auth else .none }

/-! ## The auth alone -/

/-- The first active auth on the way up. -/
def firstActive (auths : List AuthConfig) : Option AuthConfig := auths.find? (·.isActive)

/-- What the workspace can pass on. -/
def activeOf (auth : AuthConfig) : Option AuthConfig := if auth.isActive then some auth else none

/-- What a request with the given auth uses under folders with the given auths. -/
def effective (own : AuthConfig) (above : List AuthConfig) (workspace : AuthConfig) : AuthConfig :=
  match own with
  | .inherit .workspace => ((activeOf workspace).or (firstActive above)).getD .none
  | .inherit .folder => ((firstActive above).or (activeOf workspace)).getD .none
  | own => if own.isEnabled then own else .none

theorem isActive_of_firstActive {auths : List AuthConfig} {auth : AuthConfig}
    (h : firstActive auths = some auth) : auth.isActive = true := List.find?_some h

theorem firstActive_cons (auth : AuthConfig) (auths : List AuthConfig) :
    firstActive (auth :: auths) = if auth.isActive then some auth else firstActive auths := by
  rw [firstActive, List.find?_cons]
  cases auth.isActive <;> rfl

/-- On a complete chain of folders the web app uses the auths of its folders. -/
theorem resolveInheritedAuthAnnotated_auth {folders chain : List ApiFolder}
    {folderId : Option String} (hnodup : (folders.map (·.id)).Nodup)
    (hid : ∀ f ∈ folders, f.id ≠ "") (h : Chain folders folderId chain) (own : AuthConfig)
    (workspace : Workspace) :
    (resolveInheritedAuthAnnotated own folderId folders workspace).auth =
      effective own (chain.map (·.auth)) workspace.auth := by
  have hclimb : climb (fun id => id == "") folders [] folderId = chain :=
    climb_chain hnodup h (fun f hf => by simpa using hid f (h.mem f hf)) (by simp)
  have hfolder : (folderAuth folderId folders).map (·.auth) = firstActive (chain.map (·.auth)) := by
    rw [folderAuth, ancestorChainRootFirst, List.reverse_reverse, hclimb, firstActive,
      List.find?_map, Option.map_map]
    rfl
  have hworkspace : (workspaceAuth workspace).map (·.auth) = activeOf workspace.auth := by
    rw [workspaceAuth, activeOf]
    split_ifs <;> rfl
  have hpick : ∀ x : Option ResolvedAuth,
      (x.getD { auth := .none }).auth = (x.map (·.auth)).getD .none := by
    intro x
    cases x <;> rfl
  cases own with
  | inherit source =>
    cases source with
    | folder =>
      rw [resolveInheritedAuthAnnotated, effective, hpick, Option.map_or, hfolder, hworkspace]
    | workspace =>
      rw [resolveInheritedAuthAnnotated, effective, hpick, Option.map_or, hfolder, hworkspace]
  | _ => rfl

/-- A workspace with nothing but an auth. -/
def workspaceWith (auth : AuthConfig) : Workspace where
  id := "w1"
  name := "W"
  model := "workspace"
  encrypted := false
  syncDir := none
  keyCheck := none
  headers := []
  auth := auth
  dnsOverrides := []
  createdAt := ""
  updatedAt := ""

end Voleeo.Send

/-!
## The auth that the web app sends

A static scheme becomes a header or a query part that is appended to the URL.
A dynamic scheme is handed on with its templates resolved, and no scheme is
handed on with its encrypted flags.
-/
namespace Voleeo.Send
open Resolve (base64Encode)

/-- The resolver on a field of a record. -/
def resolveString (ctx : ResolveCtx) (site : Template.RenderSite) (value : String) :
    Except Template.Rejection String :=
  (resolve ctx site value.toList).map String.ofList

/-- An optional field stays empty. -/
def resolveOptional (ctx : ResolveCtx) (site : Template.RenderSite) (value : String) :
    Except Template.Rejection String :=
  if value = "" then .ok "" else resolveString ctx site value

def authHeader (name value : String) : RequestParameter where
  id := "__auth"
  name := name
  value := value
  enabled := true

def utf8Base64 (s : String) : String :=
  String.ofList (base64Encode (s.toList.flatMap String.utf8EncodeChar))

structure AppliedAuth where
  headers : List RequestParameter
  query : Option Text := none
  resolvedAuth : Option AuthConfig := none

def resolveAwsSigV4 (ctx : ResolveCtx) (auth : AwsSigV4Auth) :
    Except Template.Rejection AwsSigV4Auth := do
  return {
    accessKey := ← resolveString ctx [0, 7] auth.accessKey
    secretKey := ← resolveString ctx [1, 7] auth.secretKey
    secretKeyEncrypted := false
    sessionToken := ← resolveOptional ctx [2, 7] auth.sessionToken
    sessionTokenEncrypted := false
    region := ← resolveString ctx [3, 7] auth.region
    service := ← resolveString ctx [4, 7] auth.service
    enabled := true }

def resolveOAuth1 (ctx : ResolveCtx) (auth : OAuth1Auth) :
    Except Template.Rejection OAuth1Auth := do
  return {
    consumerKey := ← resolveString ctx [0, 8] auth.consumerKey
    consumerSecret := ← resolveString ctx [1, 8] auth.consumerSecret
    consumerSecretEncrypted := false
    token := ← resolveOptional ctx [2, 8] auth.token
    tokenSecret := ← resolveOptional ctx [3, 8] auth.tokenSecret
    tokenSecretEncrypted := false
    signatureMethod := auth.signatureMethod
    realm := ← resolveOptional ctx [4, 8] auth.realm
    privateKey := ← resolveOptional ctx [5, 8] auth.privateKey
    privateKeyEncrypted := false
    paramsLocation := auth.paramsLocation
    callback := ← resolveOptional ctx [6, 8] auth.callback
    verifier := ← resolveOptional ctx [7, 8] auth.verifier
    timestamp := ← resolveOptional ctx [8, 8] auth.timestamp
    nonce := ← resolveOptional ctx [9, 8] auth.nonce
    version := ← resolveOptional ctx [10, 8] auth.version
    enabled := true }

def resolveDigest (ctx : ResolveCtx) (auth : DigestAuth) :
    Except Template.Rejection DigestAuth := do
  return {
    username := ← resolveString ctx [0, 9] auth.username
    password := ← resolveOptional ctx [1, 9] auth.password
    passwordEncrypted := false
    enabled := true }

def resolveNtlm (ctx : ResolveCtx) (auth : NtlmAuth) : Except Template.Rejection NtlmAuth := do
  return {
    username := ← resolveString ctx [0, 10] auth.username
    password := ← resolveOptional ctx [1, 10] auth.password
    passwordEncrypted := false
    domain := ← resolveOptional ctx [2, 10] auth.domain
    workstation := ← resolveOptional ctx [3, 10] auth.workstation
    enabled := true }

def applyAuth (ctx : ResolveCtx) : AuthConfig → Except Template.Rejection AppliedAuth
  | .bearer auth => do
      let token ← resolveString ctx [0, 6] auth.token
      return { headers := [authHeader "Authorization" s!"Bearer {token}"] }
  | .basic auth => do
      let user ← resolveString ctx [0, 6] auth.username
      let pass ← resolveString ctx [1, 6] auth.password
      let enc := utf8Base64 s!"{user}:{pass}"
      return { headers := [authHeader "Authorization" s!"Basic {enc}"] }
  | .apiKey auth => do
      let key ← resolve ctx [0, 6] auth.key.toList
      let value ← resolve ctx [1, 6] auth.value.toList
      if (trim key).isEmpty then return { headers := [] }
      else
        match auth.location with
        | .query =>
          return {
            headers := []
            query := some (encodeURIComponent key ++ '=' :: encodeQueryValue value) }
        | .header =>
          return { headers := [authHeader (String.ofList key) (String.ofList value)] }
  | .awsSigV4 auth => do
      let resolved ← resolveAwsSigV4 ctx auth
      return { headers := [], resolvedAuth := some (.awsSigV4 resolved) }
  | .oauth1 auth => do
      let resolved ← resolveOAuth1 ctx auth
      return { headers := [], resolvedAuth := some (.oauth1 resolved) }
  | .digest auth => do
      let resolved ← resolveDigest ctx auth
      return { headers := [], resolvedAuth := some (.digest resolved) }
  | .ntlm auth => do
      let resolved ← resolveNtlm ctx auth
      return { headers := [], resolvedAuth := some (.ntlm resolved) }
  | .none | .inherit _ | .oauth2 _ => .ok { headers := [] }

/-- An empty query part counts as none. -/
def appendQuery (fullUrl : Text) : Option Text → Text
  | none => fullUrl
  | some query =>
    if query = [] then fullUrl
    else fullUrl ++ (if '?' ∈ fullUrl then '&' else '?') :: query

/-- The URL of the payload, for the auth that the request has or inherits. -/
def sentUrl (pathname : Text → Option Text) (ctx : ResolveCtx) (request : HttpRequest)
    (auth : AuthConfig) : Except Template.Rejection Text := do
  let fullUrl ← storedUrl pathname ctx request
  let applied ← applyAuth ctx auth
  return appendQuery fullUrl applied.query

end Voleeo.Send
