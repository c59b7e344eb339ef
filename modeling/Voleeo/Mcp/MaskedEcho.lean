import Voleeo.Mcp.FailedWrites

/-!
# Echoing a masked read

A session reads a request, edits the auth that it was shown, and hands it back.
No secret of the stored auth becomes the mask as long as no call changes the
scheme and leaves the mask in a secret, or brings a ciphertext of the mask.
-/
namespace Voleeo.Mcp
open Storage Crypto
open Fallible (Outcome bind_apply pure_apply)

/-! ## Sessions -/

/-- The `auth` of a read that is masked unless the call asks to reveal it. -/
def shownAuth (reveal : Bool) (auth : AuthConfig) : AuthConfig :=
  if reveal then auth else maskAuth auth

def requestGet (env : Env) (workspaceId requestId : Option String) (reveal : Bool) :
    Tool HttpRequest := do
  let ws ← liftArgs (required "workspaceId" workspaceId)
  let id ← liftArgs (required "requestId" requestId)
  let req ← onRequests (getRequest env ws id)
  return { req with auth := shownAuth reveal req.auth }

/-- What a call finds around the files, in a workspace with one key that may fail to load. -/
structure Occasion where
  encrypted : Except VoleeoError Bool
  keyLoads : Except VoleeoError Unit
  now : String
  nonce : ℕ → Nonce

def Occasion.surroundings (o : Occasion) (aead : Aead) : Surroundings where
  encrypted := o.encrypted
  key := o.keyLoads.map fun _ => aead
  now := o.now
  nonce := o.nonce

inductive EchoCall
  | get (workspaceId requestId : Option String) (reveal : Bool)
  /-- The auth argument, if there is one, is an edit of the last masked read. -/
  | update (edit : Option (AuthConfig → AuthConfig)) (args : RequestUpdateArgs) (o : Occasion)

structure Session where
  files : Files
  /-- The auth of the last masked read. -/
  read : AuthConfig

/-- The arguments of an update, with the edit of the last masked read. -/
def echoArgs (edit : Option (AuthConfig → AuthConfig)) (args : RequestUpdateArgs)
    (read : AuthConfig) : RequestUpdateArgs :=
  { args with auth := edit.map fun edit => .ok (edit read) }

section Runs
variable (env : Env) (aead : Aead)

def Session.step (s : Session) : EchoCall → Session
  | .get ws id reveal =>
    match requestGet env ws id reveal s.files with
    | (.ok req, files) => { files, read := if reveal then s.read else req.auth }
    | (.error _, files) => { s with files }
  | .update edit args o =>
    { s with files :=
        (requestUpdate env (o.surroundings aead) (echoArgs edit args s.read) s.files).2 }

def Session.run (s : Session) (calls : List EchoCall) : Session :=
  calls.foldl (Session.step env aead) s

/-! ## Safe calls -/

/-- The text is the mask, or a ciphertext of it. -/
def IsMask (v : String) : Prop := v = mask ∨ decrypt aead v = .ok mask

/-- No secret is the mask or decrypts to it. -/
def Clean (auth : AuthConfig) : Prop := ∀ v ∈ auth.secrets, ¬ IsMask aead v

/-- The call that hands back `auth` where `old` is stored. -/
structure Careful (auth old : AuthConfig) : Prop where
  /-- The mask is left only where the scheme is the stored one. -/
  sameScheme : mask ∈ auth.secrets → auth.discriminant = old.discriminant
  noCiphertext : ∀ v ∈ auth.secrets, decrypt aead v ≠ .ok mask

/-- The auth argument of an update of the request. -/
def EchoCall.authFor (s : Session) (k : FileKey) : EchoCall → Option AuthConfig
  | .get .. => none
  | .update edit args _ =>
    match (echoArgs edit args s.read).check with
    | .error _ => none
    | .ok input => if (input.workspaceId, input.requestId) = k then input.auth else none

/-- Every update of the request is careful where it is made. -/
def CarefulRun (k : FileKey) : Session → List EchoCall → Prop
  | _, [] => True
  | s, call :: calls =>
    (∀ auth ∈ call.authFor s k, ∀ req ∈ s.files.store.requests.find? k,
      Careful aead auth req.auth) ∧
    CarefulRun k (s.step env aead call) calls

/-- Every update of the request that has an auth argument leaves the mask in the secret. -/
def LeftMasked (k : FileKey) (i : ℕ) : Session → List EchoCall → Prop
  | _, [] => True
  | s, call :: calls =>
    (∀ auth ∈ call.authFor s k, auth.secrets[i]? = some mask) ∧
    LeftMasked k i (s.step env aead call) calls

end Runs

/-- What a stored secret stands for. -/
def plaintext (aead : Aead) (v : String) : Except VoleeoError String :=
  if isEncrypted v then decrypt aead v else .ok v

/-! ## One update -/

variable {env : Env} {aead : Aead} {around : Surroundings} {files : Files}

/-- A value that is stored as it is, or encrypted. -/
def SealedAs (aead : Aead) (v v' : String) : Prop :=
  v' = v ∨ isEncrypted v = false ∧ ∃ nonce, v' = encrypt aead nonce v

theorem SealedAs.plaintext_eq {v v' : String} (h : SealedAs aead v v') :
    plaintext aead v' = plaintext aead v := by
  rcases h with rfl | ⟨hplain, nonce, rfl⟩
  · rfl
  · simp [plaintext, hplain]

theorem SealedAs.isMask_iff {v v' : String} (h : SealedAs aead v v') (hv : ¬ IsMask aead v) :
    ¬ IsMask aead v' := by
  rcases h with rfl | ⟨-, nonce, rfl⟩
  · exact hv
  · rintro (heq | hopen)
    · have hprefix := isEncrypted_encrypt aead nonce v
      rw [heq] at hprefix
      exact absurd hprefix (by decide)
    · rw [decrypt_encrypt] at hopen
      exact hv (.inl (Except.ok.inj hopen))

/-- Each stored secret is the given one, as it is or encrypted. -/
theorem storedAuth_sealed {auth old stored : AuthConfig}
    (haead : ∀ a, around.key = .ok a → a = aead) (h : storedAuth around auth old = .ok stored)
    (i : ℕ) :
    Option.Rel (SealedAs aead) (restoreMasked auth old).secrets[i]? stored.secrets[i]? := by
  have hself (l : List String) : Option.Rel (SealedAs aead) l[i]? l[i]? := by
    cases l[i]? with
    | none => exact .none
    | some v => exact .some (.inl rfl)
  simp only [storedAuth] at h
  split_ifs at h
  · cases hkey : around.key with
    | error e => simp [hkey, Except.map] at h
    | ok a =>
      obtain rfl := haead a hkey
      simp only [hkey, Except.map, Except.ok.injEq] at h
      subst h
      rw [encryptSecrets, AuthConfig.secrets_setSecrets (by simp), List.getElem?_mapIdx,
        ← secrets_setSecretsEncrypted true, ← markSecretsEncrypted, AuthConfig.secrets,
        List.getElem?_map]
      cases (markSecretsEncrypted (restoreMasked auth old)).secretFields[i]? with
      | none => exact .none
      | some f =>
        refine .some ?_
        dsimp only
        split_ifs with hplain
        · exact .inr ⟨by simpa using hplain.2, _, rfl⟩
        · exact .inl rfl
  · cases h
    rw [markSecretsEncrypted, secrets_setSecretsEncrypted]
    exact hself _
  · cases h
    exact hself _

/-- A secret behind the restore is the given one, or the stored one where the mask was left. -/
theorem restoreMasked_secret {auth old : AuthConfig} {i : ℕ} {v : String}
    (h : (restoreMasked auth old).secrets[i]? = some v) :
    auth.secrets[i]? = some v ∧ (auth.discriminant = old.discriminant → v ≠ mask) ∨
      auth.secrets[i]? = some mask ∧ auth.discriminant = old.discriminant ∧
        old.secrets[i]? = some v := by
  rw [restoreMasked] at h
  split_ifs at h with hscheme
  · exact .inl ⟨h, fun heq => absurd heq hscheme⟩
  · have hscheme := not_not.mp hscheme
    have hlength := AuthConfig.length_eq_of_discriminant hscheme
    rw [AuthConfig.secrets_setSecrets (by simp [hlength]), List.getElem?_zipWith] at h
    cases hnew : auth.secrets[i]? with
    | none => simp [hnew] at h
    | some new =>
      cases hold : old.secrets[i]? with
      | none => simp [hnew, hold] at h
      | some oldVal =>
        simp only [hnew, hold, Option.some.injEq] at h
        subst h
        split_ifs with hmask
        · exact .inr ⟨by rw [hmask], hscheme, rfl⟩
        · exact .inl ⟨rfl, fun _ => hmask⟩

theorem storedAuth_clean {auth old stored : AuthConfig}
    (haead : ∀ a, around.key = .ok a → a = aead) (hclean : Clean aead old)
    (hcareful : Careful aead auth old) (h : storedAuth around auth old = .ok stored) :
    Clean aead stored := by
  intro v' hv'
  obtain ⟨i, hi⟩ := List.mem_iff_getElem?.mp hv'
  have hrel := storedAuth_sealed haead h i
  rw [hi] at hrel
  generalize hrestored : (restoreMasked auth old).secrets[i]? = restored at hrel
  cases hrel with
  | some hsealed =>
    refine hsealed.isMask_iff ?_
    rcases restoreMasked_secret hrestored with ⟨hnew, hne⟩ | ⟨-, -, hold⟩
    · have hmem := List.mem_of_getElem? hnew
      rintro (rfl | hopen)
      · exact hne (hcareful.sameScheme hmem) rfl
      · exact hcareful.noCiphertext _ hmem hopen
    · exact hclean _ (List.mem_of_getElem? hold)

theorem storedAuth_plaintext {auth old stored : AuthConfig} {i : ℕ}
    (haead : ∀ a, around.key = .ok a → a = aead) (hcareful : Careful aead auth old)
    (h : storedAuth around auth old = .ok stored) (hmask : auth.secrets[i]? = some mask) :
    stored.secrets[i]?.map (plaintext aead) = old.secrets[i]?.map (plaintext aead) := by
  have hscheme := hcareful.sameScheme (List.mem_of_getElem? hmask)
  have hlength : i < (restoreMasked auth old).secrets.length := by
    have hi := (List.getElem?_eq_some_iff.mp hmask).1
    rwa [AuthConfig.length_secrets, length_secretFields_restoreMasked, ← AuthConfig.length_secrets]
  have hrestored := List.getElem?_eq_getElem hlength
  have hrel := storedAuth_sealed haead h i
  rcases restoreMasked_secret hrestored with ⟨hnew, hne⟩ | ⟨-, -, hold⟩
  · exact absurd (Option.some.inj (hnew.symm.trans hmask)) (hne hscheme)
  · rw [hrestored] at hrel
    generalize stored.secrets[i]? = v' at hrel
    cases hrel with
    | some hsealed => rw [hold, Option.map_some, Option.map_some, hsealed.plaintext_eq]

/-! ## Calls -/

theorem World.write_find?_iff {w : World} {n : ℕ} {req : HttpRequest} {k : FileKey} :
    (w.write n req).requests.find? k =
      if requestKey req = k then some req else w.requests.find? k :=
  Records.find?_put

theorem apply_auth (input : RequestUpdateInput) (req : HttpRequest) :
    (input.apply req).auth = req.auth := by
  simp only [RequestUpdateInput.apply, RequestUpdateInput.applyGraphql]
  split <;> try split_ifs
  all_goals rfl

/-- The edited request has its auth, or the one that the call stores for it. -/
theorem edited_auth {input : RequestUpdateInput} {req next : HttpRequest}
    (h : input.edited around req = .ok next) : next.auth = req.auth ∨
      ∃ auth, input.auth = some auth ∧ storedAuth around auth req.auth = .ok next.auth := by
  rw [RequestUpdateInput.edited] at h
  split at h
  · cases h
    exact .inl (apply_auth input req)
  · rename_i auth hauth
    cases hstored : storedAuth around auth req.auth with
    | error e => simp [hstored, Except.map] at h
    | ok stored =>
      simp only [hstored, Except.map, Except.ok.injEq] at h
      subst h
      exact .inr ⟨auth, hauth, hstored⟩

/-- The request is there with its auth, or with the one that the call stores for it. -/
def AuthAfter (around : Surroundings) (input : RequestUpdateInput) (k : FileKey) (old : AuthConfig)
    (files : Files) : Prop :=
  ∃ req, files.store.requests.find? k = some req ∧ (req.auth = old ∨
    (input.workspaceId, input.requestId) = k ∧
      ∃ auth, input.auth = some auth ∧ storedAuth around auth old = .ok req.auth)

theorem saveEdited_auth {input : RequestUpdateInput} {req cur r : HttpRequest} {k : FileKey}
    (hws : validateId input.workspaceId = .ok ()) (hid : validateId input.requestId = .ok ())
    (hcur : files.store.requests.find? (input.workspaceId, input.requestId) = some cur)
    (hauth : cur.auth = req.auth) (hr : files.store.requests.find? k = some r) :
    Outcome (saveEdited env around input req) files
      (fun _ files' => AuthAfter around input k r.auth files')
      fun _ files' => AuthAfter around input k r.auth files' := by
  simp only [Outcome, saveEdited, bind_apply, onRequests_run, lift_run]
  cases hedit : input.edited around req with
  | error e => exact ⟨r, hr, .inl rfl⟩
  | ok next =>
  simp only [updateRequest_run hws hid hcur]
  cases hread : env.fault files.store.tick with
  | some message => exact ⟨r, hr, .inl rfl⟩
  | none =>
  split_ifs with hsame
  · exact ⟨r, hr, .inl rfl⟩
  · cases hwrite : env.fault (files.store.tick + 2) with
    | some message => exact ⟨r, hr, .inl rfl⟩
    | none =>
      have hkey : requestKey cur = (input.workspaceId, input.requestId) :=
        (Records.find?_eq_some_iff.mp hcur).2
      simp only [pure_apply, AuthAfter, World.write_find?_iff, withFields]
      by_cases hk : (input.workspaceId, input.requestId) = k
      · obtain rfl : cur = r := Option.some.inj (hcur.symm.trans (hk ▸ hr))
        refine ⟨_, if_pos (hkey.trans hk), ?_⟩
        rw [hauth]
        exact (edited_auth hedit).imp_right fun hstored => ⟨hk, hstored⟩
      · exact ⟨r, (if_neg fun heq => hk (hkey.symm.trans heq)).trans hr, .inl rfl⟩

theorem requestUpdate_auth {args : RequestUpdateArgs} {input : RequestUpdateInput}
    {r : HttpRequest} {k : FileKey} (h : args.check = .ok input)
    (hr : files.store.requests.find? k = some r) :
    Outcome (requestUpdate env around args) files
      (fun _ files' => AuthAfter around input k r.auth files')
      fun _ files' => AuthAfter around input k r.auth files' := by
  have hsame : AuthAfter around input k r.auth files := ⟨r, hr, .inl rfl⟩
  simp only [Outcome, requestUpdate, h, liftArgs, bind_apply, pure_apply, onRequests_run]
  cases hws : validateId input.workspaceId with
  | error e =>
    simp only [getRequest, bind_apply, lift_run, hws]
    exact hsame
  | ok =>
  cases hid : validateId input.requestId with
  | error e =>
    simp only [getRequest, bind_apply, lift_run, hws, hid]
    exact hsame
  | ok =>
  simp only [getRequest_run hws hid]
  cases hreq : files.store.requests.find? (input.workspaceId, input.requestId) with
  | none => exact hsame
  | some req =>
  cases hfault : env.fault files.store.tick with
  | some message => exact hsame
  | none =>
  cases hname : input.name with
  | none =>
    exact @saveEdited_auth env around { files with store := files.store.later 1 } input req req r
      k hws hid hreq rfl hr
  | some name =>
  simp only [bind_apply, onRequests_run, renameRequest_run (w := files.store.later 1) hws hid hreq,
    World.later_tick, World.later_later, Nat.add_assoc]
  cases h₁ : env.fault (files.store.tick + 1) with
  | some message => exact hsame
  | none =>
  by_cases hsameName : name = req.name
  · simp only [if_pos hsameName]
    exact @saveEdited_auth env around { files with store := files.store.later 2 } input req req r k
      hws hid hreq rfl hr
  · simp only [if_neg hsameName]
    cases h₃ : env.fault (files.store.tick + 3) with
    | some message => exact hsame
    | none =>
    let renamed := { req with name := name, updatedAt := env.now (files.store.tick + 2) }
    have hkey : requestKey renamed = (input.workspaceId, input.requestId) :=
      (Records.find?_eq_some_iff.mp hreq).2
    by_cases hk : (input.workspaceId, input.requestId) = k
    · obtain rfl : req = r := Option.some.inj (hreq.symm.trans (hk ▸ hr))
      exact @saveEdited_auth env around { files with store := files.store.write 4 renamed } input
        req renamed renamed k hws hid
        (World.write_find?_iff.trans (if_pos hkey)) rfl
        (World.write_find?_iff.trans (if_pos (hkey.trans hk)))
    · exact @saveEdited_auth env around { files with store := files.store.write 4 renamed } input
        req renamed r k hws hid
        (World.write_find?_iff.trans (if_pos hkey)) rfl
        ((World.write_find?_iff.trans (if_neg fun heq => hk (hkey.symm.trans heq))).trans hr)

/-- A read changes no file. -/
theorem requestGet_find? {ws id : Option String} {reveal : Bool} {k : FileKey} :
    (requestGet env ws id reveal files).2.store.requests.find? k =
      files.store.requests.find? k := by
  simp only [requestGet, bind_apply]
  cases required "workspaceId" ws with
  | error _ => rfl
  | ok ws =>
  cases required "requestId" id with
  | error _ => rfl
  | ok id =>
  have hkeeps : Keeps (getRequest env ws id) files.store := .of_reads getRequest_reads
  rw [Keeps, Outcome] at hkeeps
  simp only [liftArgs, pure_apply, onRequests_run]
  rcases hrun : getRequest env ws id files.store with ⟨_ | req, w⟩
  · rw [hrun] at hkeeps
    exact congrArg (·.find? k) hkeeps.requests
  · rw [hrun] at hkeeps
    exact congrArg (·.find? k) hkeeps.requests

theorem Occasion.key_eq {o : Occasion} {a : Aead} (h : (o.surroundings aead).key = .ok a) :
    a = aead := by
  simp only [Occasion.surroundings] at h
  cases hloads : o.keyLoads with
  | error e => simp [hloads, Except.map] at h
  | ok => simpa [hloads, Except.map] using h.symm

/-- A call leaves the auth of the request, or stores the one that it hands back. -/
theorem step_auth {s : Session} {k : FileKey} {req : HttpRequest} (call : EchoCall)
    (hreq : s.files.store.requests.find? k = some req) :
    ∃ req', (s.step env aead call).files.store.requests.find? k = some req' ∧
      (req'.auth = req.auth ∨ ∃ auth o, call.authFor s k = some auth ∧
        storedAuth (Occasion.surroundings o aead) auth req.auth = .ok req'.auth) := by
  cases call with
  | get ws id reveal =>
    refine ⟨req, ?_, .inl rfl⟩
    have hfind := (@requestGet_find? env s.files ws id reveal k).trans hreq
    rw [Session.step]
    split
    · rename_i hrun
      rwa [hrun] at hfind
    · rename_i hrun
      rwa [hrun] at hfind
  | update edit args o =>
    simp only [Session.step, EchoCall.authFor]
    cases hcheck : (echoArgs edit args s.read).check with
    | error e =>
      refine ⟨req, ?_, .inl rfl⟩
      simpa [requestUpdate, hcheck, liftArgs, bind_apply, Fallible.throw_apply] using hreq
    | ok input =>
      have hafter := @requestUpdate_auth env (o.surroundings aead) _ _ _ _ _ hcheck hreq
      rw [Outcome] at hafter
      have hafter : AuthAfter (o.surroundings aead) input k req.auth
          (requestUpdate env (o.surroundings aead) (echoArgs edit args s.read) s.files).2 := by
        split at hafter <;> simp [*]
      obtain ⟨req', hreq', hauth⟩ := hafter
      refine ⟨req', hreq', hauth.imp_right ?_⟩
      rintro ⟨hk, auth, hauth, hstored⟩
      exact ⟨auth, o, by simp [hk, hauth], hstored⟩

/-- In a run of careful calls no stored secret is the mask or decrypts to it, and a secret that
every call left masked stands for what it stood for. -/
theorem careful_echo_keeps_secrets (env : Env) (aead : Aead) (k : FileKey) (s : Session)
    (req : HttpRequest) (calls : List EchoCall)
    (hreq : s.files.store.requests.find? k = some req) (hclean : Clean aead req.auth)
    (hcareful : CarefulRun env aead k s calls) :
    ∃ req', (s.run env aead calls).files.store.requests.find? k = some req' ∧
      Clean aead req'.auth ∧
      ∀ i, LeftMasked env aead k i s calls →
        req'.auth.secrets[i]?.map (plaintext aead) =
          req.auth.secrets[i]?.map (plaintext aead) := by
  induction calls generalizing s req with
  | nil => exact ⟨req, hreq, hclean, fun _ _ => rfl⟩
  | cons call calls ih =>
      obtain ⟨req₁, hreq₁, hauth⟩ := @step_auth env aead _ _ _ call hreq
      obtain ⟨hcall, hrest⟩ := hcareful
      have hclean₁ : Clean aead req₁.auth := by
        rcases hauth with heq | ⟨auth, o, hfor, hstored⟩
        · rwa [heq]
        · exact storedAuth_clean (fun _ => Occasion.key_eq) hclean (hcall auth hfor req hreq)
            hstored
      obtain ⟨req', hreq', hclean', hplain⟩ := ih _ req₁ hreq₁ hclean₁ hrest
      refine ⟨req', hreq', hclean', fun i ⟨hleft, hlefts⟩ => (hplain i hlefts).trans ?_⟩
      rcases hauth with heq | ⟨auth, o, hfor, hstored⟩
      · rw [heq]
      · exact storedAuth_plaintext (fun _ => Occasion.key_eq) (hcall auth hfor req hreq) hstored
          (hleft auth hfor)

/-! ## A session -/

def basicAuth : BasicAuth where
  username := "ada"
  password := "hunter2"
  passwordEncrypted := false
  enabled := true

def basicRequest : HttpRequest :=
  { HttpRequest.blank with auth := .basic basicAuth }

theorem nodup_no_folder : (([] : List ApiFolder).map folderKey).Nodup := by simp

theorem nodup_no_env : (([] : List Environment).map envKey).Nodup := by simp

theorem nodup_basicRequest : ([basicRequest].map requestKey).Nodup := by simp

def basicSession : Session where
  files := {
    store := ⟨⟨[], nodup_no_folder⟩, ⟨[basicRequest], nodup_basicRequest⟩, 0⟩
    sharedEnvs := ⟨[], nodup_no_env⟩
    localEnvs := ⟨[], nodup_no_env⟩ }
  read := .none

def readBasic : EchoCall := .get (some "w1") (some "r1") false

def echoBasic (encrypted : Bool) (edit : AuthConfig → AuthConfig) : EchoCall :=
  .update (some edit)
    { workspaceId := some "w1"
      requestId := some "r1"
      auth := none
      name := none
      method := none
      url := none
      graphqlQuery := none
      graphqlVariables := none
      headers := none
      queryParams := none
      body := .ok none }
    { encrypted := .ok encrypted
      keyLoads := .ok ()
      now := "2024-01-01T00:00:00.000000"
      nonce := zeros }

def renameUser : AuthConfig → AuthConfig
  | .basic a => .basic { a with username := "grace" }
  | auth => auth

/-- The scheme becomes digest, with the user and the password that the read showed. -/
def useDigest : AuthConfig → AuthConfig
  | .basic a =>
    .digest { username := a.username, password := a.password, passwordEncrypted := false,
              enabled := true }
  | auth => auth

theorem careful_echo_keeps_password :
    ∃ req', (basicSession.run faultless clearAead [readBasic, echoBasic true renameUser]
        ).files.store.requests.find? ("w1", "r1") = some req' ∧ Clean clearAead req'.auth ∧
      ∀ i, LeftMasked faultless clearAead ("w1", "r1") i basicSession
          [readBasic, echoBasic true renameUser] →
        req'.auth.secrets[i]?.map (plaintext clearAead) =
          basicRequest.auth.secrets[i]?.map (plaintext clearAead) := by
  refine careful_echo_keeps_secrets faultless clearAead ("w1", "r1") basicSession basicRequest
    [readBasic, echoBasic true renameUser] rfl ?_
    ⟨fun _ hauth => absurd hauth (Option.not_mem_none _), ?_, trivial⟩
  · simp only [Clean, IsMask]
    decide
  · intro auth hauth req hreq
    obtain rfl := Option.some.inj hauth
    obtain rfl : basicRequest = req := Option.some.inj hreq
    exact ⟨fun _ => rfl, by decide⟩

/-- A masked password that is handed back under another scheme is stored as the mask. -/
theorem scheme_change_stores_mask : ¬ ∀ (env : Env) (aead : Aead) (k : FileKey) (s : Session)
    (req : HttpRequest) (calls : List EchoCall),
    s.files.store.requests.find? k = some req → Clean aead req.auth →
    ∃ req', (s.run env aead calls).files.store.requests.find? k = some req' ∧
      Clean aead req'.auth := by
  intro h
  obtain ⟨req', hreq', hclean⟩ := h faultless clearAead ("w1", "r1") basicSession basicRequest
    [readBasic, echoBasic false useDigest] rfl (by simp only [Clean, IsMask]; decide)
  obtain rfl := Option.some.inj hreq'
  exact hclean mask (by decide) (.inl rfl)

end Voleeo.Mcp
