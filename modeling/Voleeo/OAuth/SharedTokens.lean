import Voleeo.OAuth.Flow

/-!
# Tokens shared between configurations

Configurations with one cache key share a token. The key is a hash of some fields; which endpoint
a token comes from depends on the grant.
-/
namespace Voleeo.OAuth
open Crypto

/-! ## Acquiring a token -/

/-- Whom the app asks for a token: the page of the provider, or its token endpoint. -/
inductive Contact
  | page (url : Text)
  | post (request : TokenRequest)
  deriving DecidableEq, Repr

/-- What surrounds a call of `oauth2_fetch_token`: the random texts, the port that the system
assigns, what the redirects bring, and the network. -/
structure Surroundings where
  genState : Text
  genVerifier : String
  pkceChallenge : String → String
  assigned : ℕ
  awaitCode : Text → Except Failure String
  awaitToken : Text → Except Failure TokenResult
  net : Network

def invalidConfig (message : String) : Failure := .error (.invalidConfig message)

/-- The verifier and its challenge. -/
def pkcePair (around : Surroundings) (config : OAuth2Config) : Option (String × String) :=
  if config.usePkce then
    let supplied := String.ofList (Resolve.strTrim config.codeVerifier.toList)
    let verifier := if supplied = "" then around.genVerifier else supplied
    some (verifier, match config.codeChallengeMethod with
      | .plain => verifier
      | .s256 => around.pkceChallenge verifier)
  else none

/-- `oauth2_fetch_token` up to the cache, with the contacts that it makes on the way. -/
def fetchToken (around : Surroundings) (config : OAuth2Config) :
    List Contact × Except Failure TokenResult :=
  let blank (s : String) : Bool := Resolve.strTrim s.toList = []
  let posts (form : List (String × String)) : Contact := .post (tokenRequest config form)
  if config.grant ≠ .implicit ∧ blank config.tokenUrl then
    ([], .error (invalidConfig "OAuth2 token URL is required"))
  else
    match config.grant with
    | .clientCredentials =>
      ([posts clientCredentialsForm], postToken around.net config clientCredentialsForm)
    | .password => ([posts (passwordForm config)], postToken around.net config (passwordForm config))
    | .implicit =>
      if blank config.authUrl then
        ([], .error (invalidConfig "OAuth2 authorization URL is required"))
      else
        match interactiveSetup config around.genState around.assigned with
        | .error e => ([], .error e)
        | .ok setup =>
          let url := buildAuthUrl config (String.ofList setup.redirect)
            (String.ofList setup.csrf) none
          ([.page url], around.awaitToken url)
    | .authorizationCode =>
      if blank config.authUrl then
        ([], .error (invalidConfig "OAuth2 authorization URL is required"))
      else
        let pkce := pkcePair around config
        match interactiveSetup config around.genState around.assigned with
        | .error e => ([], .error e)
        | .ok setup =>
          let redirect := String.ofList setup.redirect
          let url := buildAuthUrl config redirect (String.ofList setup.csrf) (pkce.map (·.2))
          match around.awaitCode url with
          | .error e => ([.page url], .error e)
          | .ok code =>
            let form := exchangeForm code ((pkce.map (·.1)).getD "") redirect
            ([.page url, posts form], postToken around.net config form)

/-! ## Where a token comes from -/

/-- An endpoint that a grant uses. -/
inductive Endpoint
  | authorization (url : String)
  | token (url : String)
  deriving DecidableEq, Repr

def endpoints (config : OAuth2Config) : List Endpoint :=
  match config.grant with
  | .clientCredentials | .password => [.token config.tokenUrl]
  | .implicit => [.authorization config.authUrl]
  | .authorizationCode => [.authorization config.authUrl, .token config.tokenUrl]

def Contact.IsAt : Contact → Endpoint → Prop
  | .page url, .authorization authUrl => ∃ query, url = authUrl.toList ++ query
  | .post request, .token url => request.url = url
  | _, _ => False

/-- The contacts of a call are at the endpoints of the configuration, in this order; where the call
has a result, at all of them. -/
theorem contacts_fetchToken (around : Surroundings) (config : OAuth2Config) :
    ∃ used, used <+: endpoints config ∧
      List.Forall₂ Contact.IsAt (fetchToken around config).1 used ∧
        ((fetchToken around config).2.isOk = true → used = endpoints config) := by
  rw [fetchToken]
  dsimp only
  split
  · exact ⟨[], List.nil_prefix, .nil, nofun⟩
  · rw [endpoints]
    cases config.grant with
    | clientCredentials =>
      exact ⟨_, List.prefix_rfl, .cons (url_tokenRequest config _) .nil, fun _ => rfl⟩
    | password => exact ⟨_, List.prefix_rfl, .cons (url_tokenRequest config _) .nil, fun _ => rfl⟩
    | implicit =>
      dsimp only
      split
      · exact ⟨[], List.nil_prefix, .nil, nofun⟩
      · cases interactiveSetup config around.genState around.assigned with
        | error e => exact ⟨[], List.nil_prefix, .nil, nofun⟩
        | ok setup =>
          exact ⟨_, List.prefix_rfl, .cons (exists_buildAuthUrl config _ _ _) .nil, fun _ => rfl⟩
    | authorizationCode =>
      dsimp only
      split
      · exact ⟨[], List.nil_prefix, .nil, nofun⟩
      · cases interactiveSetup config around.genState around.assigned with
        | error e => exact ⟨[], List.nil_prefix, .nil, nofun⟩
        | ok setup =>
          dsimp only
          have hpage := exists_buildAuthUrl config (String.ofList setup.redirect)
            (String.ofList setup.csrf) ((pkcePair around config).map (·.2))
          split
          · exact ⟨[.authorization config.authUrl], ⟨[_], rfl⟩, .cons hpage .nil, nofun⟩
          · exact ⟨_, List.prefix_rfl, .cons hpage (.cons (url_tokenRequest config _) .nil),
              fun _ => rfl⟩

/-- Both configurations ask the same endpoints, for the same client, user, grant, scope and
audience. -/
structure SameServer (c c' : OAuth2Config) : Prop where
  endpoints : endpoints c = endpoints c'
  clientId : c.clientId = c'.clientId
  username : c.username = c'.username
  grant : c.grant = c'.grant
  scope : c.scope = c'.scope
  audience : c.audience = c'.audience

/-! ## The cache, with the configuration each entry was put for -/

/-- The contents that the file of a workspace can have: each is an earlier one, as a call has read
it, with an entry put or removed. -/
inductive FileOf (digest : Text → String) : List (CachedToken × OAuth2Config) → Prop
  | empty : FileOf digest []
  | saved {file : List (CachedToken × OAuth2Config)} (c : OAuth2Config) (keyring : Keyring)
      (result : TokenResult) (entry : CachedToken) (hfile : FileOf digest file)
      (hentry : sealToken keyring (.new (c.cacheKey digest) result) = .ok entry) :
      FileOf digest (file.filter (fun e => e.1.key ≠ entry.key) ++ [(entry, c)])
  | cleared {file : List (CachedToken × OAuth2Config)} (key : String) (hfile : FileOf digest file) :
      FileOf digest (file.filter fun e => e.1.key ≠ key)

/-- `ensure_token` for the second configuration returns the token of an entry that was put for the
first. -/
def CanReturn (digest : Text → String) (c c' : OAuth2Config) : Prop :=
  ∃ file entry keyring now t, FileOf digest file ∧
    file.find? (fun e => e.1.key = c'.cacheKey digest) = some (entry, c) ∧
    liveToken keyring (file.map Prod.fst) (c'.cacheKey digest) now = .ok (some t) ∧
    ∀ renewal fetch, ensureToken digest renewal fetch keyring (file.map Prod.fst) c' now =
      .ok (t.accessToken, file.map Prod.fst)

/-- Tokens do not cross from one authorization server to another. -/
def StaysHome (digest : Text → String) (c c' : OAuth2Config) : Prop :=
  CanReturn digest c c' → SameServer c c'

/-- The grant begins on the page of the provider. -/
def startsAtPage (grant : OAuth2Grant) : Prop := grant = .authorizationCode ∨ grant = .implicit

instance (grant : OAuth2Grant) : Decidable (startsAtPage grant) :=
  inferInstanceAs (Decidable (_ ∨ _))

/-- The fields of the key tell the configurations apart, or the page of the provider is the same
where it is used. -/
def ToldApart (c c' : OAuth2Config) : Prop :=
  c.keyParts = c'.keyParts → startsAtPage c.grant → c.authUrl = c'.authUrl

variable {digest : Text → String} {c c' : OAuth2Config}

theorem FileOf.key_eq {file : List (CachedToken × OAuth2Config)} (h : FileOf digest file) :
    ∀ e ∈ file, e.1.key = e.2.cacheKey digest := by
  induction h with
  | empty => simp
  | saved c keyring result entry hfile hentry ih =>
    intro e he
    rcases List.mem_append.mp he with he | he
    · exact ih e (List.mem_of_mem_filter he)
    · obtain rfl := List.mem_singleton.mp he
      exact key_sealToken hentry
  | cleared key hfile ih => exact fun e he => ih e (List.mem_of_mem_filter he)

theorem grantStr_injective : Function.Injective grantStr := by
  intro g g' h
  cases g <;> cases g' <;> first | rfl | exact absurd h (by decide)

/-- The hash tells apart what it joins, when no part has the separator in it. -/
theorem keyParts_eq_of_cacheKey (hdigest : Function.Injective digest)
    (hnul : ∀ part ∈ c.keyParts, '\x00' ∉ part.toList)
    (hnul' : ∀ part ∈ c'.keyParts, '\x00' ∉ part.toList)
    (h : c.cacheKey digest = c'.cacheKey digest) : c.keyParts = c'.keyParts := by
  have hjoined := hdigest h
  have hsplit := congrArg (List.splitOn '\x00') hjoined
  rw [List.splitOn_intercalate, List.splitOn_intercalate] at hsplit
  · exact List.map_injective_iff.mpr (fun _ _ => String.toList_injective) hsplit
  · simpa using hnul'
  · simp [OAuth2Config.keyParts]
  · simpa using hnul
  · simp [OAuth2Config.keyParts]

theorem keyParts_eq_iff : c.keyParts = c'.keyParts ↔ c.tokenUrl = c'.tokenUrl ∧
    c.clientId = c'.clientId ∧ c.username = c'.username ∧ c.grant = c'.grant ∧
    c.scope = c'.scope ∧ c.audience = c'.audience := by
  simp [OAuth2Config.keyParts, grantStr_injective.eq_iff]

theorem sameServer_of_keyParts (h : c.keyParts = c'.keyParts)
    (hpage : startsAtPage c.grant → c.authUrl = c'.authUrl) : SameServer c c' := by
  obtain ⟨htoken, hclient, huser, hgrant, hscope, haudience⟩ := keyParts_eq_iff.mp h
  refine ⟨?_, hclient, huser, hgrant, hscope, haudience⟩
  rw [endpoints, endpoints, ← hgrant]
  cases heq : c.grant with
  | clientCredentials | password => rw [htoken]
  | implicit => rw [hpage (heq ▸ .inr rfl)]
  | authorizationCode => rw [htoken, hpage (heq ▸ .inl rfl)]

theorem authUrl_eq_of_sameServer (h : SameServer c c') (hpage : startsAtPage c.grant) :
    c.authUrl = c'.authUrl := by
  have hends := h.endpoints
  rw [endpoints, endpoints, ← h.grant] at hends
  rcases hpage with hgrant | hgrant <;> rw [hgrant] at hends <;> simp at hends
  · exact hends.1
  · exact hends

/-- A token that does not expire, put for one configuration, is returned for every other one with
the same key. -/
theorem canReturn_of_keyParts (h : c.keyParts = c'.keyParts) : CanReturn digest c c' := by
  have hkey : c'.cacheKey digest = c.cacheKey digest := by
    rw [OAuth2Config.cacheKey, OAuth2Config.cacheKey, h]
  let keyring : Keyring := ⟨false, .error (.crypto ""), fun _ => Vector.replicate 12 0⟩
  let token := CachedToken.new (c.cacheKey digest) ⟨"t", "", "Bearer", "", 0⟩
  have hlive : liveToken keyring [token] (c'.cacheKey digest) 0 = .ok (some token) := by
    simp [hkey, liveToken, load, token, CachedToken.new, CachedToken.isExpired, Except.map]
  refine ⟨[(token, c)], token, keyring, 0, token, ?_, ?_, hlive, fun renewal fetch =>
    ensureToken_of_live hlive⟩
  · exact .saved c keyring ⟨"t", "", "Bearer", "", 0⟩ token .empty rfl
  · simp [hkey, token, CachedToken.new]

/-- Tokens stay with their server exactly where the key tells the configurations apart. -/
theorem staysHome_iff (hdigest : Function.Injective digest)
    (hnul : ∀ part ∈ c.keyParts, '\x00' ∉ part.toList)
    (hnul' : ∀ part ∈ c'.keyParts, '\x00' ∉ part.toList) :
    StaysHome digest c c' ↔ ToldApart c c' := by
  constructor
  · intro h hparts hpage
    exact authUrl_eq_of_sameServer (h (canReturn_of_keyParts hparts)) hpage
  · rintro h ⟨file, entry, keyring, now, t, hfile, hfind, -, -⟩
    have hkey : entry.key = c'.cacheKey digest := by simpa using List.find?_some hfind
    have hown := hfile.key_eq _ (List.mem_of_find?_eq_some hfind)
    have hparts := keyParts_eq_of_cacheKey hdigest hnul hnul' (hown.symm.trans hkey)
    exact sameServer_of_keyParts hparts (h hparts)

/-- An implicit grant at a page of a provider. -/
def implicitAt (authUrl : String) : OAuth2Config :=
  ⟨.implicit, authUrl, "", "app", "", "read", "", .basicHeader, false, .s256, "", "", "", "", ""⟩

theorem staysHome_same_page : StaysHome String.ofList (implicitAt "https://a.example/authorize")
    (implicitAt "https://a.example/authorize") :=
  (staysHome_iff (fun _ _ => String.ofList_injective) (by decide) (by decide)).mpr fun _ _ => rfl

/-- The key leaves the page of the provider out. -/
theorem implicit_token_crosses : ¬ StaysHome String.ofList (implicitAt "https://a.example/authorize")
    (implicitAt "https://b.example/authorize") := by
  intro h
  exact absurd (authUrl_eq_of_sameServer (h (canReturn_of_keyParts rfl)) (.inr rfl)) (by decide)

end Voleeo.OAuth
