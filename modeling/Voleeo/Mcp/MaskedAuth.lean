import Voleeo.Crypto.Cipher
import Voleeo.Entities
import Voleeo.Crypto.Secrets

/-!
# Setting a variable of an environment

The tool changes, adds or deletes the first variable with the given key. In an
encrypted workspace the variables flagged as secret are encrypted before the
environment is saved.
-/
namespace Voleeo.Mcp
open Crypto

/-- What a masked read shows in place of a secret. -/
def mask : String := "__voleeo_hidden__ (pass reveal=true to read)"

/-- `require!`: the text of a field that must be there and not be empty. -/
def required (field : String) : Option String → Except String String
  | some value => if value = "" then .error s!"missing required field: {field}" else .ok value
  | none => .error s!"missing required field: {field}"

/-- The arguments as the accessors of the JSON object read them. -/
structure SetVariableArgs where
  workspaceId : Option String
  envId : Option String
  key : Option String
  value : Option String
  delete : Option Bool
  enabled : Option Bool
  encrypted : Option Bool

structure VariableEdit where
  workspaceId : String
  envId : String
  key : String
  value : String
  delete : Bool
  enabled : Bool
  encrypted : Option Bool

/-- The checks that come before any file is read. -/
def SetVariableArgs.check (args : SetVariableArgs) : Except String VariableEdit := do
  let workspaceId ← required "workspaceId" args.workspaceId
  let envId ← required "envId" args.envId
  let key ← required "key" args.key
  let delete := args.delete.getD false
  let value ← if delete then pure "" else do
    let value ← required "value" args.value
    if value = mask then
      .error ("value is the masked placeholder; pass the real value " ++
        "(read the env with reveal=true to see the current one)")
    else pure value
  return { workspaceId, envId, key, value, delete, enabled := args.enabled.getD true,
           encrypted := args.encrypted }

/-- Change the first variable with the key, or add one. -/
def putVariable (edit : VariableEdit) : List EnvironmentVariable → List EnvironmentVariable
  | [] =>
    [{ key := edit.key, value := edit.value, encrypted := edit.encrypted.getD false,
       enabled := edit.enabled }]
  | v :: vs =>
    if v.key = edit.key then
      { v with value := edit.value, enabled := edit.enabled,
               encrypted := edit.encrypted.getD v.encrypted } :: vs
    else v :: putVariable edit vs

def editVariables (edit : VariableEdit) (vs : List EnvironmentVariable) :
    List EnvironmentVariable :=
  if edit.delete then vs.filter fun v => v.key ≠ edit.key else putVariable edit vs

/-- Encrypt the flagged variables that are still plain, each with a nonce of its own. -/
def encryptVariables (aead : Aead) (nonce : ℕ → Nonce) (vs : List EnvironmentVariable) :
    List EnvironmentVariable :=
  vs.mapIdx fun i v =>
    if v.encrypted ∧ ¬ isEncrypted v.value then
      { v with value := encrypt aead (nonce i) v.value }
    else v

/-- What a call finds around the files it changes: whether the workspace is encrypted, its key
as it loads, and the time and the nonces it takes. -/
structure Surroundings where
  encrypted : Except VoleeoError Bool
  key : Except VoleeoError Aead
  now : String
  nonce : ℕ → Nonce

/-- The environment that the tool saves. -/
def setVariable (around : Surroundings) (edit : VariableEdit) (env : Environment) :
    Except VoleeoError Environment :=
  let env := { env with
    «variables» := editVariables edit env.variables
    updatedAt := around.now }
  if around.encrypted.toOption.getD false ∧ env.variables.any (·.encrypted) then
    around.key.map fun aead =>
      { env with «variables» := encryptVariables aead around.nonce env.variables }
  else .ok env

end Voleeo.Mcp

/-!
## Auth over the tools

A read shows a mask in place of every secret that is not empty. An update puts
the stored value back where the caller left the mask, as long as the scheme is
the stored one, and encrypts the secrets of an encrypted workspace.
-/
namespace Voleeo.Mcp
open Crypto

def maskAuth (auth : AuthConfig) : AuthConfig :=
  auth.setSecrets (auth.secrets.map fun secret => if secret = "" then secret else mask)

/-- `restore_masked` goes over the secrets of both schemes side by side. -/
def restoreMasked (new old : AuthConfig) : AuthConfig :=
  if new.discriminant ≠ old.discriminant then new
  else
    new.setSecrets (List.zipWith (fun secret oldVal => if secret = mask then oldVal else secret)
      new.secrets old.secrets)

def setSecretsEncrypted (v : Bool) : AuthConfig → AuthConfig
  | .bearer a => .bearer { a with tokenEncrypted := v }
  | .basic a => .basic { a with passwordEncrypted := v }
  | .digest a => .digest { a with passwordEncrypted := v }
  | .ntlm a => .ntlm { a with passwordEncrypted := v }
  | .apiKey a => .apiKey { a with valueEncrypted := v }
  | .awsSigV4 a => .awsSigV4 { a with secretKeyEncrypted := v, sessionTokenEncrypted := v }
  | .oauth1 a =>
    .oauth1 { a with
      consumerSecretEncrypted := v, tokenSecretEncrypted := v, privateKeyEncrypted := v }
  | .oauth2 a => .oauth2 { a with clientSecretEncrypted := v, passwordEncrypted := v }
  | .none => .none
  | .inherit source => .inherit source

def markSecretsEncrypted (auth : AuthConfig) : AuthConfig := setSecretsEncrypted true auth

/-- Encrypt the flagged secrets that are still plain, each with a nonce of its own. -/
def encryptSecrets (aead : Aead) (nonce : ℕ → Nonce) (auth : AuthConfig) : AuthConfig :=
  auth.setSecrets (auth.secretFields.mapIdx fun i f =>
    if f.2 ∧ ¬ isEncrypted f.1 then encrypt aead (nonce i) f.1 else f.1)

/-- The auth that an update stores for the one it is given. -/
def storedAuth (around : Surroundings) (new old : AuthConfig) : Except VoleeoError AuthConfig :=
  let auth := restoreMasked new old
  if around.encrypted.toOption.getD false then
    let auth := markSecretsEncrypted auth
    if auth.secretFields.any fun f => f.2 then
      around.key.map fun aead => encryptSecrets aead around.nonce auth
    else .ok auth
  else .ok auth

@[simp] theorem secrets_setSecretsEncrypted (v : Bool) (auth : AuthConfig) :
    (setSecretsEncrypted v auth).secrets = auth.secrets := by
  cases auth <;> rfl

theorem any_secretFields_markSecretsEncrypted (auth : AuthConfig) :
    ((markSecretsEncrypted auth).secretFields.any fun f => f.2) ↔ auth.secretFields ≠ [] := by
  cases auth <;> simp [markSecretsEncrypted, setSecretsEncrypted, AuthConfig.secretFields]

theorem length_secretFields_restoreMasked (new old : AuthConfig) :
    (restoreMasked new old).secretFields.length = new.secretFields.length := by
  rw [restoreMasked]
  split_ifs
  · rfl
  · exact AuthConfig.length_secretFields_setSecrets _ _

theorem secretFields_restoreMasked_ne_nil (new old : AuthConfig) :
    (restoreMasked new old).secretFields ≠ [] ↔ new.secretFields ≠ [] := by
  rw [← List.length_pos_iff, ← List.length_pos_iff, length_secretFields_restoreMasked]

end Voleeo.Mcp
