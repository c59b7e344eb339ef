import Voleeo.Commands.SecretUpdate
import Voleeo.Fallible
import Voleeo.Parts
import Voleeo.Resolve.Str

/-!
# The key of a workspace

The commands that replace the key of a workspace, and those that store secrets
under it. A call writes one place after another and may fail in between, so a run
is the list of the states that it passes through.
-/
namespace Voleeo.Commands
open Crypto
open Fallible (throw Outcome)

/-! ## Keys -/

abbrev Key := Vector UInt8 32

/-- AES-256-GCM. What one key opens, no other key does. -/
structure KeyedAead where
  aead : Key → Aead
  other_key : ∀ k k' nonce bytes, (aead k).decrypt nonce bytes ≠ none →
    (aead k').decrypt nonce bytes ≠ none → k = k'

/-- Groups of eight digits. -/
def chunks (s : Text) : ℕ → List Text
  | 0 => []
  | fuel + 1 => if s = [] then [] else s.take 8 :: chunks (s.drop 8) fuel

def encodeKeyDisplay (key : Key) : String :=
  let hex := toHex key.toList
  String.ofList (List.intercalate ['-'] (chunks hex hex.length))

/-- Dashes and white space are ignored. Bytes that are not 32 do not come out of 64 digits. -/
def decodeKeyDisplay (s : String) : Except VoleeoError Key :=
  let normalised := String.ofList
    ((s.toList.filter fun c => !Resolve.isWhitespace c && c != '-').map Char.toUpper)
  if normalised.utf8ByteSize ≠ 64 then
    .error (.crypto s!"invalid key: expected 64 hex chars, got {normalised.utf8ByteSize}")
  else do
    let bytes ← fromHex normalised.toList
    if h : bytes.toArray.size = 32 then return ⟨bytes.toArray, h⟩
    else .error (.crypto "invalid key")

/-! ## What is stored -/

/-- A request, a connection, a gRPC request or a folder: its auth, and all else as one text. -/
structure SecretItem where
  auth : AuthConfig
  fields : String
  updatedAt : String
  deriving DecidableEq

def secretItem : Item SecretItem where
  auth x := x.auth
  setAuth x auth := { x with auth }
  updatedAt x := x.updatedAt
  setUpdatedAt x updatedAt := { x with updatedAt }
  auth_setAuth _ _ := rfl
  setAuth_auth _ := rfl
  setAuth_setAuth _ _ _ := rfl
  auth_setUpdatedAt _ _ := rfl
  setUpdatedAt_updatedAt _ := rfl
  setUpdatedAt_setUpdatedAt _ _ _ := rfl
  setUpdatedAt_setAuth _ _ _ := rfl

/-- A workspace on this machine: the two places of its key, `workspace.yaml`, the entry of the
secret store, and the files with secrets. -/
structure KeyedWorkspace where
  keychain : Option Key
  keyFile : Option Key
  record : Workspace
  secret : Option String
  items : List SecretItem
  environments : List Environment
  folderVariables : List (List EnvironmentVariable)

/-- The values that may be encrypted. -/
def KeyedWorkspace.values (s : KeyedWorkspace) : List String :=
  s.secret.toList ++ s.record.keyCheck.toList ++ s.record.auth.secrets ++
    s.items.flatMap (fun x => x.auth.secrets) ++
    s.environments.flatMap (fun e => e.variables.map (·.value)) ++
    s.folderVariables.flatMap (fun vars => vars.map (·.value))

/-- The cipher, and whether the keychain of the system can be used. -/
structure Machine where
  cipher : KeyedAead
  hasKeychain : Bool

def Machine.loadKey (m : Machine) (s : KeyedWorkspace) : Except VoleeoError Key :=
  match if m.hasKeychain then s.keychain else none with
  | some key => .ok key
  | none =>
    match s.keyFile with
    | some key => .ok key
    | none => .error (.crypto (s!"workspace key not found for workspace '{s.record.id}' — " ++
        "re-import your backup key"))

/-- What the commands see of the encryption. `readable` tells whether `workspace.yaml` parses. -/
def Machine.vault (m : Machine) (s : KeyedWorkspace) (readable : Bool) : Vault where
  encrypted := if readable then some s.record.encrypted else none
  key := (m.loadKey s).map m.cipher.aead

/-! ## Calls -/

/-- The state of a workspace, and those that it had before. -/
structure Moments where
  now : KeyedWorkspace
  past : List KeyedWorkspace

def Moments.all (t : Moments) : List KeyedWorkspace := t.now :: t.past

abbrev Op := Fallible Moments VoleeoError

/-- Which operations of a call fail. -/
abbrev Faults := ℕ → Option VoleeoError

def attempt (faults : Faults) (i : ℕ) : Op Unit :=
  match faults i with
  | some e => throw e
  | none => pure ()

def write (f : KeyedWorkspace → KeyedWorkspace) : Op Unit :=
  Fallible.modify fun t => ⟨f t.now, t.now :: t.past⟩

def current : Op KeyedWorkspace := do
  let t ← Fallible.get
  return t.now

def liftExcept {α : Type} : Except VoleeoError α → Op α
  | .ok a => pure a
  | .error e => throw e

/-- The keychain is written at best effort. The key file may fail before it is written or when its
permissions are set. -/
def saveKey (m : Machine) (faults : Faults) (i : ℕ) (key : Key) : Op Unit := do
  if m.hasKeychain then write fun s => { s with keychain := some key }
  attempt faults i
  write fun s => { s with keyFile := some key }
  attempt faults (i + 1)

/-- `generated` is the key that `generate_key` draws. -/
def workspaceEnableEncryption (m : Machine) (faults : Faults) (nonces : ℕ → Nonce)
    (generated : Key) : Op String := do
  saveKey m faults 0 generated
  let s ← current
  match s.secret with
  | some plain =>
    if !isEncrypted plain then
      write fun s =>
        { s with secret := some (encrypt (m.cipher.aead generated) (nonces 0) plain) }
      attempt faults 2
  | none => pure ()
  attempt faults 3
  attempt faults 4
  write fun s => { s with record := { s.record with
    encrypted := true
    keyCheck := some (encrypt (m.cipher.aead generated) (nonces 1) s.record.id) } }
  return encodeKeyDisplay generated

/-- The check of a candidate against the token of the workspace. -/
def verifyKey (m : Machine) (s : KeyedWorkspace) (key : Key) : Except VoleeoError Unit :=
  match s.record.keyCheck with
  | none => .ok ()
  | some token =>
    match decrypt (m.cipher.aead key) token with
    | .error _ => .error (.crypto ("This key does not match the one used to encrypt this " ++
        "workspace. Please check that you're importing the correct backup key."))
    | .ok plaintext =>
      if plaintext ≠ s.record.id then
        .error (.crypto ("Key verification failed — the decrypted token did not match this " ++
          "workspace. Please import the correct backup key."))
      else .ok ()

/-- A workspace that cannot be read is not checked. -/
def workspaceImportKey (m : Machine) (faults : Faults) (displayKey : String) : Op Unit := do
  let key ← liftExcept (decodeKeyDisplay displayKey)
  let s ← current
  if faults 0 = none then liftExcept (verifyKey m s key)
  saveKey m faults 1 key

/-- The update commands of requests, connections, gRPC requests and folders. -/
def updateSecretItem (m : Machine) (faults : Faults) (nonces : ℕ → Nonce) (timestamp : String)
    (i : ℕ) (auth : AuthConfig) (fields : String) : Op Unit := do
  let s ← current
  match s.items[i]? with
  | none => throw (.notFound "not found")
  | some stored =>
    let next ← liftExcept (updateItem secretItem (m.vault s (faults 0).isNone) nonces
      (secretItem.saveIfChanged timestamp stored) (fun x => { x with auth, fields }) stored)
    attempt faults 1
    write fun s => { s with items := s.items.set i next }

def updateWorkspaceAuth (m : Machine) (faults : Faults) (nonces : ℕ → Nonce)
    (auth : AuthConfig) : Op Unit := do
  let s ← current
  let auth ← liftExcept
    (transformAuthSecrets (m.vault s (faults 0).isNone) .encrypt nonces auth)
  attempt faults 1
  write fun s => { s with record := { s.record with auth } }

/-- One variable list; environments and folders differ in what an unreadable workspace means. -/
def transformVariables (vault : Vault) (direction : Direction) (nonces : ℕ → Nonce)
    (vars : List EnvironmentVariable) : Except VoleeoError (List EnvironmentVariable) :=
  if vars.all fun v => !v.encrypted then .ok vars
  else if !vault.encrypted.getD true then
    .error (.invalidConfig "workspace_encryption_required")
  else do
    let aead ← vault.key
    vars.zipIdx.mapM fun v =>
      if v.1.encrypted then do
        return { v.1 with value := ← transformSecret aead direction (nonces v.2) v.1.value }
      else .ok v.1

/-- `transform_secrets` on an environment reads the workspace, or fails. -/
def transformSecrets (vault : Vault) (direction : Direction) (nonces : ℕ → Nonce)
    (env : Environment) : Except VoleeoError Environment :=
  if (env.variables.any fun v => v.encrypted) && vault.encrypted.isNone then
    .error (.notFound s!"workspace '{env.workspaceId}'")
  else do
    return { env with «variables» := ← transformVariables vault direction nonces env.variables }

/-- The environment with the same id is replaced. -/
def putEnvironment (environments : List Environment) (env : Environment) : List Environment :=
  if environments.any fun e => e.id = env.id then
    environments.map fun e => if e.id = env.id then env else e
  else environments ++ [env]

def saveEnvironment (vault : Vault) (faults : Faults) (nonces : ℕ → Nonce) (timestamp : String)
    (env : Environment) : Op Unit := do
  let toSave ← liftExcept (transformSecrets vault .encrypt nonces env)
  attempt faults 1
  write fun s => { s with
    environments := putEnvironment s.environments { toSave with updatedAt := timestamp } }
  let _ ← liftExcept (transformSecrets vault .decrypt nonces toSave)

/-- Unchanged environments are not written. -/
def envUpdate (m : Machine) (faults : Faults) (nonces : ℕ → Nonce) (timestamp : String)
    (env : Environment) : Op Unit := do
  let s ← current
  let vault := m.vault s (faults 0).isNone
  match s.environments.find? fun e => e.id = env.id with
  | none => saveEnvironment vault faults nonces timestamp env
  | some stored =>
    let decrypted ← liftExcept (transformSecrets vault .decrypt nonces stored)
    if { env with updatedAt := decrypted.updatedAt } = decrypted then pure ()
    else saveEnvironment vault faults nonces timestamp env

def updateFolderVariables (m : Machine) (faults : Faults) (nonces : ℕ → Nonce) (i : ℕ)
    (vars : List EnvironmentVariable) : Op Unit := do
  let s ← current
  let vault := m.vault s (faults 0).isNone
  match s.folderVariables[i]? with
  | none => throw (.notFound "not found")
  | some stored =>
    let decrypted ← liftExcept (transformVariables vault .decrypt nonces stored)
    if vars = decrypted then pure ()
    else
      let toSave ← liftExcept (transformVariables vault .encrypt nonces vars)
      attempt faults 1
      write fun s => { s with folderVariables := s.folderVariables.set i toSave }

inductive Call
  | enable (generated : Key)
  | importKey (displayKey : String)
  | updateItem (i : ℕ) (auth : AuthConfig) (fields : String)
  | updateAuth (auth : AuthConfig)
  | updateEnvironment (env : Environment)
  | updateVariables (i : ℕ) (vars : List EnvironmentVariable)

/-- A call with its faults, its random nonces and its time. -/
structure KeyCall where
  call : Call
  faults : Faults
  nonces : ℕ → Nonce
  timestamp : String

def KeyCall.op (m : Machine) (c : KeyCall) : Op Unit :=
  match c.call with
  | .enable generated => do
      let _ ← workspaceEnableEncryption m c.faults c.nonces generated
  | .importKey displayKey => workspaceImportKey m c.faults displayKey
  | .updateItem i auth fields =>
    updateSecretItem m c.faults c.nonces c.timestamp i auth fields
  | .updateAuth auth => updateWorkspaceAuth m c.faults c.nonces auth
  | .updateEnvironment env => envUpdate m c.faults c.nonces c.timestamp env
  | .updateVariables i vars => updateFolderVariables m c.faults c.nonces i vars

/-- Failed or not, a call leaves the state that it came to. -/
def KeyCall.exec (m : Machine) (t : Moments) (c : KeyCall) : Moments := (c.op m t).2

def runKeyCalls (m : Machine) (s : KeyedWorkspace) (calls : List KeyCall) : Moments :=
  calls.foldl (KeyCall.exec m) ⟨s, []⟩

/-! ## The property and the condition -/

/-- The value is a text in clear, or the key that `load_key` returns opens it. -/
def Machine.Opens (m : Machine) (s : KeyedWorkspace) (value : String) : Prop :=
  isEncrypted value = true →
    ∃ key plaintext, m.loadKey s = .ok key ∧ decrypt (m.cipher.aead key) value = .ok plaintext

def Machine.ReadsAll (m : Machine) (s : KeyedWorkspace) : Prop := ∀ v ∈ s.values, m.Opens s v

/-- The key may be saved: nothing is encrypted, the key is the one in use, or it is not written. -/
def KeyFits (m : Machine) (s : KeyedWorkspace) (faults : Faults) (i : ℕ) (key : Key) : Prop :=
  (∀ v ∈ s.values, isEncrypted v = false) ∨ m.loadKey s = .ok key ∨
    (m.hasKeychain = false ∧ faults i ≠ none)

/-- Enabling and importing replace a key only where it fits, or import has a token to check, and no
command is handed an encrypted value that the key does not open. -/
def KeyCall.Fits (m : Machine) (s : KeyedWorkspace) (c : KeyCall) : Prop :=
  match c.call with
  | .enable generated => KeyFits m s c.faults 0 generated
  | .importKey displayKey => ∀ key, decodeKeyDisplay displayKey = .ok key →
      KeyFits m s c.faults 1 key ∨ (c.faults 0 = none ∧ s.record.keyCheck ≠ none)
  | .updateItem _ auth _ => ∀ v ∈ auth.secrets, m.Opens s v
  | .updateAuth auth => ∀ v ∈ auth.secrets, m.Opens s v
  | .updateEnvironment env => ∀ v ∈ env.variables, m.Opens s v.value
  | .updateVariables _ vars => ∀ v ∈ vars, m.Opens s v.value

/-- Every call of a run fits the state that it finds. -/
def FittingRun (m : Machine) : Moments → List KeyCall → Prop
  | _, [] => True
  | t, c :: calls => c.Fits m t.now ∧ FittingRun m (c.exec m t) calls

variable {m : Machine} {s s' : KeyedWorkspace} {t : Moments}

/-! ## Values that open -/

theorem opens_congr {v : String} (hload : ∀ key, m.loadKey s = .ok key → m.loadKey s' = .ok key)
    (h : m.Opens s v) : m.Opens s' v := by
  intro henc
  obtain ⟨key, plaintext, hkey, hplain⟩ := h henc
  exact ⟨key, plaintext, hload key hkey, hplain⟩

theorem opens_encrypt {key : Key} {nonce : Nonce} {plaintext : String}
    (h : m.loadKey s = .ok key) : m.Opens s (encrypt (m.cipher.aead key) nonce plaintext) :=
  fun _ => ⟨key, plaintext, h, decrypt_encrypt _ _ _⟩

/-- What is written is a value that was given, or made under the key in use. -/
def FromKey (vault : Vault) (given : List String) (v : String) : Prop :=
  v ∈ given ∨ ∃ aead nonce plaintext, vault.key = .ok aead ∧ v = encrypt aead nonce plaintext

theorem opens_fromKey {readable : Bool} {given : List String} {v : String}
    (hgiven : ∀ v ∈ given, m.Opens s v) (h : FromKey (m.vault s readable) given v) :
    m.Opens s v := by
  rcases h with h | ⟨aead, nonce, plaintext, hkey, rfl⟩
  · exact hgiven v h
  · simp only [Machine.vault] at hkey
    cases hload : m.loadKey s with
    | error e => simp [hload, Except.map] at hkey
    | ok key =>
      obtain rfl : m.cipher.aead key = aead := by simpa [hload, Except.map] using hkey
      exact opens_encrypt hload

theorem transformSecret_encrypt {aead : Aead} {nonce : Nonce} {v out : String}
    (h : transformSecret aead .encrypt nonce v = .ok out) : out = v ∨ out = encrypt aead nonce v := by
  rw [transformSecret] at h
  split_ifs at h <;> cases h
  · exact Or.inl rfl
  · exact Or.inr rfl

theorem fromKey_transformAuthSecrets {vault : Vault} {nonces : ℕ → Nonce} {auth auth' : AuthConfig}
    (h : transformAuthSecrets vault .encrypt nonces auth = .ok auth') :
    ∀ v ∈ auth'.secrets, FromKey vault auth.secrets v := by
  rw [transformAuthSecrets] at h
  split_ifs at h
  · cases h
    exact fun v hv => Or.inl hv
  · obtain ⟨aead, hkey, h⟩ := ok_of_bind h
    obtain ⟨values, hvalues, h⟩ := ok_of_bind h
    cases h
    have hlength : values.length = auth.secretFields.length := by
      simpa using (mapM_eq_ok_iff.mp hvalues).1
    rw [AuthConfig.secrets_setSecrets hlength]
    intro v hv
    obtain ⟨⟨field, i⟩, hmem, hfield⟩ := exists_of_mem_mapM hvalues hv
    have hsecret : field.1 ∈ auth.secrets :=
      List.mem_map_of_mem (List.fst_mem_of_mem_zipIdx hmem)
    split_ifs at hfield
    · rcases transformSecret_encrypt hfield with rfl | rfl
      · exact Or.inl hsecret
      · exact Or.inr ⟨aead, _, _, hkey, rfl⟩
    · cases hfield
      exact Or.inl hsecret

theorem fromKey_transformVariables {vault : Vault} {nonces : ℕ → Nonce}
    {vars vars' : List EnvironmentVariable}
    (h : transformVariables vault .encrypt nonces vars = .ok vars') :
    ∀ v ∈ vars', FromKey vault (vars.map (·.value)) v.value := by
  rw [transformVariables] at h
  split_ifs at h
  · cases h
    exact fun v hv => Or.inl (List.mem_map_of_mem hv)
  · obtain ⟨aead, hkey, h⟩ := ok_of_bind h
    intro v hv
    obtain ⟨⟨var, i⟩, hmem, hstep⟩ := exists_of_mem_mapM h hv
    have hvalue : var.value ∈ vars.map (·.value) :=
      List.mem_map_of_mem (List.fst_mem_of_mem_zipIdx hmem)
    split_ifs at hstep
    · obtain ⟨value, hsecret, hstep⟩ := ok_of_bind hstep
      cases hstep
      rcases transformSecret_encrypt hsecret with rfl | rfl
      · exact Or.inl hvalue
      · exact Or.inr ⟨aead, _, _, hkey, rfl⟩
    · cases hstep
      exact Or.inl hvalue

theorem fromKey_transformSecrets {vault : Vault} {nonces : ℕ → Nonce} {env env' : Environment}
    (h : transformSecrets vault .encrypt nonces env = .ok env') :
    ∀ v ∈ env'.variables, FromKey vault (env.variables.map (·.value)) v.value := by
  rw [transformSecrets] at h
  split_ifs at h
  obtain ⟨vars, hvars, h⟩ := ok_of_bind h
  cases h
  exact fromKey_transformVariables hvars

theorem mem_values {v : String} : v ∈ s.values ↔
    s.secret = some v ∨ s.record.keyCheck = some v ∨ v ∈ s.record.auth.secrets ∨
      (∃ x ∈ s.items, v ∈ x.auth.secrets) ∨
      (∃ e ∈ s.environments, ∃ var ∈ e.variables, var.value = v) ∨
      ∃ vars ∈ s.folderVariables, ∃ var ∈ vars, var.value = v := by
  simp [KeyedWorkspace.values]

/-- A step keeps the values readable if it keeps the key and each new value opens. -/
theorem readsAll_of (h : m.ReadsAll s) (hload : m.loadKey s' = m.loadKey s)
    (hvalues : ∀ v ∈ s'.values, v ∈ s.values ∨ m.Opens s v) : m.ReadsAll s' := by
  intro v hv
  refine opens_congr (fun key hkey => hload.trans hkey) ?_
  exact (hvalues v hv).elim (h v) id

/-- A value that opens is the prefix and the digits of what was sealed. -/
theorem exists_blob_of_decrypt {aead : Aead} {value plaintext : String}
    (h : decrypt aead value = .ok plaintext) : ∃ digits blob,
      encPrefix.isPrefixOf? value.toList = some digits ∧ fromHex digits = .ok blob ∧
        aead.decrypt (nonceOf blob) (blob.drop 12) ≠ none := by
  rw [decrypt] at h
  split at h
  · cases h
  · rename_i digits hdigits
    obtain ⟨blob, hblob, hopen⟩ := ok_of_bind h
    refine ⟨digits, blob, hdigits, hblob, fun hnone => ?_⟩
    rw [openBlob, hnone] at hopen
    split_ifs at hopen

theorem isEncrypted_of_decrypt {aead : Aead} {value plaintext : String}
    (h : decrypt aead value = .ok plaintext) : isEncrypted value = true := by
  obtain ⟨digits, -, hdigits, -⟩ := exists_blob_of_decrypt h
  rw [isEncrypted, List.isPrefixOf_iff_prefix]
  exact ⟨digits, (isPrefixOf?_eq_some_iff.mp hdigits).symm⟩

/-- Two keys that open one value are the same. -/
theorem key_eq_of_decrypt {cipher : KeyedAead} {key key' : Key} {value a b : String}
    (h : decrypt (cipher.aead key) value = .ok a) (h' : decrypt (cipher.aead key') value = .ok b) :
    key = key' := by
  obtain ⟨digits, blob, hdigits, hblob, hopen⟩ := exists_blob_of_decrypt h
  obtain ⟨digits', blob', hdigits', hblob', hopen'⟩ := exists_blob_of_decrypt h'
  obtain rfl : digits = digits' := by simpa [hdigits] using hdigits'
  obtain rfl : blob = blob' := by simpa [hblob] using hblob'
  exact cipher.other_key key key' _ _ hopen hopen'

/-! ## What one call keeps -/

def Kept (m : Machine) (t : Moments) : Prop := ∀ s ∈ t.all, m.ReadsAll s

/-- Failed or not, the operation leaves the values readable, at the end and in between. -/
def Keeps {α : Type} (m : Machine) (op : Op α) (t : Moments) : Prop :=
  Outcome op t (fun _ => Kept m) (fun _ => Kept m)

theorem kept_now (h : Kept m t) : m.ReadsAll t.now := h _ List.mem_cons_self

theorem keeps_attempt {faults : Faults} {i : ℕ} (h : Kept m t) :
    Outcome (attempt faults i) t (fun _ t' => t' = t ∧ faults i = none) (fun _ => Kept m) := by
  rw [attempt]
  split
  · exact Outcome.throw h
  · rename_i hnone
    exact Outcome.pure ⟨rfl, hnone⟩

theorem keeps_write {f : KeyedWorkspace → KeyedWorkspace} (h : Kept m t)
    (hf : m.ReadsAll (f t.now)) :
    Outcome (write f) t (fun _ t' => Kept m t' ∧ t'.now = f t.now) (fun _ => Kept m) := by
  refine Outcome.modify ⟨fun s hs => ?_, rfl⟩
  rcases List.mem_cons.mp hs with rfl | hs
  · exact hf
  · exact h s hs

theorem keeps_current : Outcome current t (fun s t' => s = t.now ∧ t' = t) (fun _ => Kept m) :=
  Outcome.bind (Q := fun s t' => s = t ∧ t' = t) (Outcome.get ⟨rfl, rfl⟩)
    fun _ _ ⟨hs, ht⟩ => Outcome.pure ⟨congrArg Moments.now hs, ht⟩

theorem keeps_liftExcept {α : Type} {x : Except VoleeoError α} (h : Kept m t) :
    Outcome (liftExcept x) t (fun a t' => x = .ok a ∧ t' = t) (fun _ => Kept m) := by
  cases x with
  | ok a => exact Outcome.pure ⟨rfl, rfl⟩
  | error e => exact Outcome.throw h

theorem readsAll_saved {key : Key} (h : m.ReadsAll s)
    (hfits : (∀ v ∈ s.values, isEncrypted v = false) ∨ m.loadKey s = .ok key)
    (hvalues : s'.values = s.values) (hload : m.loadKey s' = .ok key) : m.ReadsAll s' := by
  rcases hfits with hplain | hkey
  · intro v hv henc
    rw [hvalues] at hv
    exact absurd henc (by simp [hplain v hv])
  · exact readsAll_of h (hload.trans hkey.symm) fun v hv => Or.inl (hvalues ▸ hv)

/-- A key that is saved where it fits is the one in use, and the values are as before. -/
theorem keeps_saveKey {faults : Faults} {i : ℕ} {key : Key} (h : Kept m t)
    (hfits : KeyFits m t.now faults i key) :
    Outcome (saveKey m faults i key) t
      (fun _ t' => Kept m t' ∧ m.loadKey t'.now = .ok key ∧ t'.now.values = t.now.values)
      (fun _ => Kept m) := by
  have hreads := kept_now h
  rw [saveKey]
  by_cases hkeychain : m.hasKeychain = true
  · have hsaved : (∀ v ∈ t.now.values, isEncrypted v = false) ∨ m.loadKey t.now = .ok key := by
      rcases hfits with hplain | hkey | ⟨hnone, -⟩
      · exact Or.inl hplain
      · exact Or.inr hkey
      · exact absurd hkeychain (by simp [hnone])
    have hload : ∀ file, m.loadKey { t.now with keychain := some key, keyFile := file } = .ok key :=
      fun file => by simp [Machine.loadKey, hkeychain]
    rw [if_pos hkeychain]
    refine Outcome.bind (keeps_write h (readsAll_saved hreads hsaved rfl (hload _))) ?_
    rintro _ t₁ ⟨h₁, hnow₁⟩
    refine Outcome.bind (keeps_attempt h₁) ?_
    rintro _ t₂ ⟨rfl, -⟩
    have hfile : m.ReadsAll { t₂.now with keyFile := some key } := by
      rw [hnow₁]
      exact readsAll_saved hreads hsaved rfl (hload _)
    refine Outcome.bind (keeps_write h₁ hfile) ?_
    rintro _ t₃ ⟨h₃, hnow₃⟩
    refine (keeps_attempt h₃).mono ?_ fun _ _ he => he
    rintro _ t₄ ⟨rfl, -⟩
    refine ⟨h₃, ?_, ?_⟩
    · rw [hnow₃, hnow₁]
      exact hload _
    · rw [hnow₃, hnow₁]
      rfl
  · rw [if_neg hkeychain]
    refine Outcome.bind (keeps_attempt h) ?_
    rintro _ t₂ ⟨rfl, hnone⟩
    have hsaved : (∀ v ∈ t₂.now.values, isEncrypted v = false) ∨ m.loadKey t₂.now = .ok key := by
      rcases hfits with hplain | hkey | ⟨-, hfault⟩
      · exact Or.inl hplain
      · exact Or.inr hkey
      · exact absurd hnone hfault
    have hload : m.loadKey { t₂.now with keyFile := some key } = .ok key := by
      simp [Machine.loadKey, hkeychain]
    refine Outcome.bind (keeps_write h (readsAll_saved hreads hsaved rfl hload)) ?_
    rintro _ t₃ ⟨h₃, hnow₃⟩
    refine (keeps_attempt h₃).mono ?_ fun _ _ he => he
    rintro _ t₄ ⟨rfl, -⟩
    exact ⟨h₃, hnow₃ ▸ hload, hnow₃ ▸ rfl⟩

/-- The secret and the token are sealed under the key that was saved. -/
theorem keeps_enable {faults : Faults} {nonces : ℕ → Nonce} {key : Key} (h : Kept m t)
    (hfits : KeyFits m t.now faults 0 key) :
    Keeps m (workspaceEnableEncryption m faults nonces key) t := by
  refine Outcome.bind (keeps_saveKey h hfits) ?_
  rintro _ t₁ ⟨h₁, hload, -⟩
  refine Outcome.bind keeps_current ?_
  rintro _ t₂ ⟨rfl, rfl⟩
  have hrecord : ∀ t', Kept m t' → m.loadKey t'.now = .ok key →
      Keeps m (do
        attempt faults 3
        attempt faults 4
        write fun s => { s with record := { s.record with
          encrypted := true
          keyCheck := some (encrypt (m.cipher.aead key) (nonces 1) s.record.id) } }
        return encodeKeyDisplay key) t' := by
    intro t' h' hload'
    refine Outcome.bind (keeps_attempt h') ?_
    rintro _ _ ⟨rfl, -⟩
    refine Outcome.bind (keeps_attempt h') ?_
    rintro _ _ ⟨rfl, -⟩
    refine Outcome.bind (keeps_write h' (readsAll_of (kept_now h') rfl fun v hv => ?_)) ?_
    · rw [mem_values] at hv ⊢
      rcases hv with hv | hv | hv
      · exact Or.inl (Or.inl hv)
      · cases hv
        exact Or.inr (opens_encrypt hload')
      · exact Or.inl (Or.inr (Or.inr hv))
    · rintro _ t₃ ⟨h₃, -⟩
      exact Outcome.pure h₃
  dsimp only
  cases hsecret : t₂.now.secret with
  | none => exact hrecord _ h₁ hload
  | some plain =>
    by_cases hplain : isEncrypted plain = true
    · simp only [hplain, Bool.not_true, Bool.false_eq_true, if_false]
      exact hrecord _ h₁ hload
    · simp only [hplain, Bool.not_false, if_true]
      refine Outcome.bind (keeps_write h₁ (readsAll_of (kept_now h₁) rfl fun v hv => ?_)) ?_
      · rw [mem_values] at hv ⊢
        rcases hv with hv | hv
        · cases hv
          exact Or.inr (opens_encrypt hload)
        · exact Or.inl (Or.inr hv)
      · rintro _ t₃ ⟨h₃, hnow⟩
        refine Outcome.bind (keeps_attempt h₃) ?_
        rintro _ _ ⟨rfl, -⟩
        exact hrecord _ h₃ (hnow ▸ hload)

/-- A candidate that passes the check is the key in use. -/
theorem loadKey_of_verifyKey {key : Key} (h : m.ReadsAll s) (htoken : s.record.keyCheck ≠ none)
    (hverify : verifyKey m s key = .ok ()) : m.loadKey s = .ok key := by
  obtain ⟨token, hcheck⟩ := Option.ne_none_iff_exists'.mp htoken
  rw [verifyKey, hcheck] at hverify
  cases hplain : decrypt (m.cipher.aead key) token with
  | error e => simp [hplain] at hverify
  | ok plaintext =>
    have hmem : token ∈ s.values := mem_values.mpr (Or.inr (Or.inl hcheck))
    obtain ⟨key', plaintext', hload, hplain'⟩ := h token hmem (isEncrypted_of_decrypt hplain)
    rw [hload, key_eq_of_decrypt hplain' hplain]

theorem keeps_import {faults : Faults} {displayKey : String} (h : Kept m t)
    (hfits : ∀ key, decodeKeyDisplay displayKey = .ok key →
      KeyFits m t.now faults 1 key ∨ (faults 0 = none ∧ t.now.record.keyCheck ≠ none)) :
    Keeps m (workspaceImportKey m faults displayKey) t := by
  refine Outcome.bind (keeps_liftExcept h) ?_
  rintro key t₁ ⟨hdecode, rfl⟩
  refine Outcome.bind keeps_current ?_
  rintro _ t₂ ⟨rfl, rfl⟩
  have hsave : KeyFits m t₂.now faults 1 key → Keeps m (saveKey m faults 1 key) t₂ := fun hkey =>
    (keeps_saveKey h hkey).mono (fun _ _ hQ => hQ.1) fun _ _ he => he
  by_cases hreadable : faults 0 = none
  · rw [if_pos hreadable]
    refine Outcome.bind (keeps_liftExcept h) ?_
    rintro _ _ ⟨hverify, rfl⟩
    refine hsave ((hfits key hdecode).elim id fun ⟨_, htoken⟩ => ?_)
    exact Or.inr (Or.inl (loadKey_of_verifyKey (kept_now h) htoken hverify))
  · rw [if_neg hreadable]
    exact hsave ((hfits key hdecode).resolve_right fun hcheck => hreadable hcheck.1)

/-- One place is written, after a step that may fail, with values that open. -/
theorem keeps_put {faults : Faults} {i : ℕ} {f : KeyedWorkspace → KeyedWorkspace} (h : Kept m t)
    (hload : m.loadKey (f t.now) = m.loadKey t.now)
    (hvalues : ∀ v ∈ (f t.now).values, v ∈ t.now.values ∨ m.Opens t.now v) :
    Keeps m (do attempt faults i; write f) t := by
  refine Outcome.bind (keeps_attempt h) ?_
  rintro _ _ ⟨rfl, -⟩
  exact (keeps_write h (readsAll_of (kept_now h) hload hvalues)).mono (fun _ _ hQ => hQ.1)
    fun _ _ he => he

theorem keeps_updateAuth {faults : Faults} {nonces : ℕ → Nonce} {auth : AuthConfig} (h : Kept m t)
    (hauth : ∀ v ∈ auth.secrets, m.Opens t.now v) :
    Keeps m (updateWorkspaceAuth m faults nonces auth) t := by
  refine Outcome.bind keeps_current ?_
  rintro _ _ ⟨rfl, rfl⟩
  refine Outcome.bind (keeps_liftExcept h) ?_
  rintro auth' _ ⟨hauth', rfl⟩
  refine keeps_put h rfl fun v hv => ?_
  rw [mem_values] at hv ⊢
  rcases hv with hv | hv | hv | hv
  · exact Or.inl (Or.inl hv)
  · exact Or.inl (Or.inr (Or.inl hv))
  · exact Or.inr (opens_fromKey hauth (fromKey_transformAuthSecrets hauth' v hv))
  · exact Or.inl (Or.inr (Or.inr (Or.inr hv)))

theorem mem_secrets_preserve {next decryptedOld storedOld : AuthConfig} {v : String}
    (h : v ∈ (preserveUnchangedSecrets next decryptedOld storedOld).secrets) :
    v ∈ next.secrets ∨ v ∈ storedOld.secrets := by
  rw [preserveUnchangedSecrets] at h
  split_ifs at h
  · exact Or.inl h
  · rcases AuthConfig.mem_secrets_setSecrets h with hv | hv
    · rw [← List.map_uncurry_zip_eq_zipWith] at hv
      obtain ⟨⟨value, old⟩, hmem, rfl⟩ := List.mem_map.mp hv
      obtain ⟨hvalue, hold⟩ := List.of_mem_zip hmem
      dsimp only [Function.uncurry_apply_pair]
      split_ifs
      · exact Or.inr (List.of_mem_zip hold).2
      · exact Or.inl hvalue
    · exact Or.inl hv

theorem fromKey_updateItem {vault : Vault} {nonces : ℕ → Nonce} {timestamp fields : String}
    {auth : AuthConfig} {stored next : SecretItem}
    (h : updateItem secretItem vault nonces (secretItem.saveIfChanged timestamp stored)
      (fun x => { x with auth, fields }) stored = .ok next) :
    ∀ v ∈ next.auth.secrets, FromKey vault (auth.secrets ++ stored.auth.secrets) v := by
  obtain ⟨decrypted, hdecrypted, h⟩ := ok_of_bind h
  dsimp only at h
  split_ifs at h
  · cases h
    exact fun v hv => Or.inl (List.mem_append_right _ hv)
  · obtain ⟨auth', hauth', h⟩ := ok_of_bind h
    cases h
    intro v hv
    have hsaved := auth_saveIfChanged secretItem timestamp stored ⟨auth', fields, stored.updatedAt⟩
    have hmem : v ∈ auth'.secrets := by
      rw [← show SecretItem.auth _ = auth' from hsaved]
      exact hv
    refine (fromKey_transformAuthSecrets hauth' v hmem).imp_left fun hpreserved => ?_
    exact List.mem_append.mpr (mem_secrets_preserve hpreserved)

theorem keeps_updateItem {faults : Faults} {nonces : ℕ → Nonce} {timestamp fields : String}
    {i : ℕ} {auth : AuthConfig} (h : Kept m t) (hauth : ∀ v ∈ auth.secrets, m.Opens t.now v) :
    Keeps m (updateSecretItem m faults nonces timestamp i auth fields) t := by
  refine Outcome.bind keeps_current ?_
  rintro _ t₁ ⟨rfl, rfl⟩
  split
  · exact Outcome.throw h
  · rename_i stored hstored
    refine Outcome.bind (keeps_liftExcept h) ?_
    rintro next t₂ ⟨hnext, rfl⟩
    have hold : ∀ v ∈ stored.auth.secrets, m.Opens t₂.now v := fun v hv =>
      kept_now h v (mem_values.mpr (Or.inr (Or.inr (Or.inr (Or.inl
        ⟨stored, List.mem_of_getElem? hstored, hv⟩)))))
    refine keeps_put h rfl fun v hv => ?_
    rw [mem_values] at hv ⊢
    rcases hv with hv | hv | hv | ⟨x, hx, hv⟩ | hv
    · exact Or.inl (Or.inl hv)
    · exact Or.inl (Or.inr (Or.inl hv))
    · exact Or.inl (Or.inr (Or.inr (Or.inl hv)))
    · rcases List.mem_or_eq_of_mem_set hx with hx | rfl
      · exact Or.inl (Or.inr (Or.inr (Or.inr (Or.inl ⟨x, hx, hv⟩))))
      · refine Or.inr (opens_fromKey (fun w hw => ?_) (fromKey_updateItem hnext v hv))
        exact (List.mem_append.mp hw).elim (hauth w) (hold w)
    · exact Or.inl (Or.inr (Or.inr (Or.inr (Or.inr hv))))

theorem mem_putEnvironment {environments : List Environment} {env e : Environment}
    (h : e ∈ putEnvironment environments env) : e ∈ environments ∨ e = env := by
  rw [putEnvironment] at h
  split_ifs at h
  · obtain ⟨e', he', rfl⟩ := List.mem_map.mp h
    split_ifs
    · exact Or.inr rfl
    · exact Or.inl he'
  · simpa using h

theorem keeps_saveEnvironment {readable : Bool} {faults : Faults} {nonces : ℕ → Nonce}
    {timestamp : String} {env : Environment} (h : Kept m t)
    (hvars : ∀ v ∈ env.variables, m.Opens t.now v.value) :
    Keeps m (saveEnvironment (m.vault t.now readable) faults nonces timestamp env) t := by
  refine Outcome.bind (keeps_liftExcept h) ?_
  rintro toSave t₁ ⟨hsave, rfl⟩
  refine Outcome.bind (keeps_attempt h) ?_
  rintro _ t₂ ⟨rfl, -⟩
  refine Outcome.bind (keeps_write h (readsAll_of (kept_now h) rfl fun v hv => ?_)) ?_
  · have hgiven : ∀ v ∈ env.variables.map (·.value), m.Opens t₂.now v := by simpa using hvars
    rw [mem_values] at hv ⊢
    rcases hv with hv | hv | hv | hv | ⟨e, he, var, hvar, rfl⟩ | hv
    · exact Or.inl (Or.inl hv)
    · exact Or.inl (Or.inr (Or.inl hv))
    · exact Or.inl (Or.inr (Or.inr (Or.inl hv)))
    · exact Or.inl (Or.inr (Or.inr (Or.inr (Or.inl hv))))
    · rcases mem_putEnvironment he with he | rfl
      · exact Or.inl (Or.inr (Or.inr (Or.inr (Or.inr (Or.inl ⟨e, he, var, hvar, rfl⟩)))))
      · exact Or.inr (opens_fromKey hgiven (fromKey_transformSecrets hsave var hvar))
    · exact Or.inl (Or.inr (Or.inr (Or.inr (Or.inr (Or.inr hv)))))
  · rintro _ t₃ ⟨h₃, -⟩
    refine Outcome.bind (keeps_liftExcept h₃) ?_
    rintro _ _ ⟨-, rfl⟩
    exact Outcome.pure h₃

theorem keeps_updateEnvironment {faults : Faults} {nonces : ℕ → Nonce} {timestamp : String}
    {env : Environment} (h : Kept m t) (hvars : ∀ v ∈ env.variables, m.Opens t.now v.value) :
    Keeps m (envUpdate m faults nonces timestamp env) t := by
  refine Outcome.bind keeps_current ?_
  rintro _ t₁ ⟨rfl, rfl⟩
  dsimp only
  split
  · exact keeps_saveEnvironment h hvars
  · refine Outcome.bind (keeps_liftExcept h) ?_
    rintro decrypted t₂ ⟨-, rfl⟩
    split
    · exact Outcome.pure h
    · exact keeps_saveEnvironment h hvars

theorem keeps_updateVariables {faults : Faults} {nonces : ℕ → Nonce} {i : ℕ}
    {vars : List EnvironmentVariable} (h : Kept m t)
    (hvars : ∀ v ∈ vars, m.Opens t.now v.value) :
    Keeps m (updateFolderVariables m faults nonces i vars) t := by
  refine Outcome.bind keeps_current ?_
  rintro _ t₁ ⟨rfl, rfl⟩
  dsimp only
  split
  · exact Outcome.throw h
  · refine Outcome.bind (keeps_liftExcept h) ?_
    rintro decrypted t₂ ⟨-, rfl⟩
    split
    · exact Outcome.pure h
    · refine Outcome.bind (keeps_liftExcept h) ?_
      rintro toSave t₃ ⟨hsave, rfl⟩
      have hgiven : ∀ v ∈ vars.map (·.value), m.Opens t₃.now v := by simpa using hvars
      refine keeps_put h rfl fun v hv => ?_
      rw [mem_values] at hv ⊢
      rcases hv with hv | hv | hv | hv | hv | ⟨list, hlist, var, hvar, rfl⟩
      · exact Or.inl (Or.inl hv)
      · exact Or.inl (Or.inr (Or.inl hv))
      · exact Or.inl (Or.inr (Or.inr (Or.inl hv)))
      · exact Or.inl (Or.inr (Or.inr (Or.inr (Or.inl hv))))
      · exact Or.inl (Or.inr (Or.inr (Or.inr (Or.inr (Or.inl hv)))))
      · rcases List.mem_or_eq_of_mem_set hlist with hlist | rfl
        · exact Or.inl (Or.inr (Or.inr (Or.inr (Or.inr (Or.inr ⟨list, hlist, var, hvar, rfl⟩)))))
        · exact Or.inr (opens_fromKey hgiven (fromKey_transformVariables hsave var hvar))

/-! ## Runs -/

/-- One call, whatever it does and wherever it fails. -/
theorem kept_exec {c : KeyCall} (h : Kept m t) (hfits : c.Fits m t.now) : Kept m (c.exec m t) := by
  have hkeeps : Keeps m (c.op m) t := by
    obtain ⟨call, faults, nonces, timestamp⟩ := c
    cases call with
    | enable generated =>
      refine Outcome.bind (keeps_enable h hfits) ?_
      rintro _ _ h'
      exact Outcome.pure h'
    | importKey displayKey => exact keeps_import h hfits
    | updateItem i auth fields => exact keeps_updateItem h hfits
    | updateAuth auth => exact keeps_updateAuth h hfits
    | updateEnvironment env => exact keeps_updateEnvironment h hfits
    | updateVariables i vars => exact keeps_updateVariables h hfits
  rw [Keeps, Outcome] at hkeeps
  rw [KeyCall.exec]
  split at hkeeps
  · rename_i hrun
    rwa [hrun]
  · rename_i hrun
    rwa [hrun]

theorem kept_foldl {calls : List KeyCall} (h : Kept m t) (hrun : FittingRun m t calls) :
    Kept m (calls.foldl (KeyCall.exec m) t) := by
  induction calls generalizing t with
  | nil => exact h
  | cons c calls ih => exact ih (kept_exec h hrun.1) hrun.2

/-- A cipher that writes the bytes themselves, and the key. -/
def keyedClear : KeyedAead where
  aead key := {
    encrypt := fun _ bytes => bytes ++ key.toList
    decrypt := fun _ bytes =>
      if bytes.drop (bytes.length - 32) = key.toList then some (bytes.take (bytes.length - 32))
      else none
    decrypt_encrypt := fun _ bytes => by simp
    tag_le := fun _ bytes => by simp }
  other_key key key' _ bytes h h' := by
    have hkey : bytes.drop (bytes.length - 32) = key.toList := by
      by_contra hne
      exact h (if_neg hne)
    have hkey' : bytes.drop (bytes.length - 32) = key'.toList := by
      by_contra hne
      exact h' (if_neg hne)
    exact Vector.toList_inj.mp (hkey.symm.trans hkey')

def laptop : Machine := ⟨keyedClear, true⟩

def firstKey : Key := Vector.replicate 32 1

def secondKey : Key := Vector.replicate 32 2

/-- A workspace as `create_workspace` leaves it, without encryption. -/
def newWorkspace : KeyedWorkspace where
  keychain := none
  keyFile := none
  record :=
    { id := "ws_1", name := "Shop", model := "workspace", encrypted := false, syncDir := none
      keyCheck := none, headers := [], auth := .none, dnsOverrides := [], createdAt := "t0"
      updatedAt := "t0" }
  secret := none
  items := []
  environments := []
  folderVariables := []

def enableWith (generated : Key) : KeyCall := ⟨.enable generated, fun _ => none, zeros, "t1"⟩

def storeToken : KeyCall :=
  ⟨.updateAuth (.bearer ⟨"hunter2", true, true⟩), fun _ => none, zeros, "t2"⟩

theorem values_newWorkspace : newWorkspace.values = [] := rfl

theorem token_after_enabling (generated : Key) :
    (runKeyCalls laptop newWorkspace
      [enableWith firstKey, storeToken, enableWith generated]).now.record.auth =
      .bearer ⟨encrypt (keyedClear.aead firstKey) (zeros 0) "hunter2", true, true⟩ := rfl

theorem key_after_enabling (generated : Key) :
    laptop.loadKey (runKeyCalls laptop newWorkspace
      [enableWith firstKey, storeToken, enableWith generated]).now = .ok generated := rfl

end Voleeo.Commands
