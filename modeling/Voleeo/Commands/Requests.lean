import Voleeo.Crypto.Secrets

/-!
# Desktop commands on requests and folders

A command decrypts the stored secrets, compares in plaintext, splices the stored
bytes of unchanged secrets back in, and encrypts what is flagged. Requests and
folders go through the same steps; `updateItem` has them once.
-/
namespace Voleeo.Commands
open Crypto

inductive Direction
  | decrypt
  | encrypt
  deriving DecidableEq

/-- A workspace's encryption as the commands see it: the flag of `workspace.yaml`, when that can be
read, and the key. -/
structure Vault where
  encrypted : Option Bool
  key : Except VoleeoError Aead

/-- An encrypted workspace with its key. -/
def Vault.opened (aead : Aead) : Vault := ⟨some true, .ok aead⟩

def transformSecret (aead : Aead) (direction : Direction) (nonce : Nonce) (secret : String) :
    Except VoleeoError String :=
  match direction with
  | .decrypt => if isEncrypted secret then decrypt aead secret else .ok secret
  | .encrypt => if isEncrypted secret then .ok secret else .ok (encrypt aead nonce secret)

/-- The nonces are drawn at random, one for each field. -/
def transformAuthSecrets (vault : Vault) (direction : Direction) (nonces : ℕ → Nonce)
    (auth : AuthConfig) : Except VoleeoError AuthConfig :=
  if auth.secretFields.all fun f => !f.2 then .ok auth
  else if !vault.encrypted.getD true then
    .error (.invalidConfig "workspace_encryption_required")
  else do
    let aead ← vault.key
    let values ← auth.secretFields.zipIdx.mapM fun f =>
      if f.1.2 then transformSecret aead direction (nonces f.2) f.1.1 else .ok f.1.1
    return auth.setSecrets values

def preserveUnchangedSecrets (next decryptedOld storedOld : AuthConfig) : AuthConfig :=
  if next.discriminant ≠ decryptedOld.discriminant then next
  else
    next.setSecrets (List.zipWith (fun value old => if value = old.1 then old.2 else value)
      next.secrets (decryptedOld.secrets.zip storedOld.secrets))

/-- What the update commands know of a request or a folder. -/
structure Item (α : Type) where
  auth : α → AuthConfig
  setAuth : α → AuthConfig → α
  updatedAt : α → String
  setUpdatedAt : α → String → α
  auth_setAuth : ∀ x a, auth (setAuth x a) = a
  setAuth_auth : ∀ x, setAuth x (auth x) = x
  setAuth_setAuth : ∀ x a b, setAuth (setAuth x a) b = setAuth x b
  auth_setUpdatedAt : ∀ x t, auth (setUpdatedAt x t) = auth x
  setUpdatedAt_updatedAt : ∀ x, setUpdatedAt x (updatedAt x) = x
  setUpdatedAt_setUpdatedAt : ∀ x t u, setUpdatedAt (setUpdatedAt x t) u = setUpdatedAt x u
  setUpdatedAt_setAuth : ∀ x a t, setUpdatedAt (setAuth x a) t = setAuth (setUpdatedAt x t) a

/-- `save_request_if_changed` and `save_folder_if_changed`. -/
def Item.saveIfChanged {α : Type} [DecidableEq α] (item : Item α) (now : String)
    (original next : α) : α :=
  let next := item.setUpdatedAt next (item.updatedAt original)
  if next = original then original else item.setUpdatedAt next now

/-- The steps of `update_request` and `update_folder`: the stored item after the command. -/
def updateItem {α : Type} [DecidableEq α] (item : Item α) (vault : Vault) (nonces : ℕ → Nonce)
    (store : α → α) (edit : α → α) (stored : α) : Except VoleeoError α := do
  let decrypted ← transformAuthSecrets vault .decrypt nonces (item.auth stored)
  let current := item.setAuth stored decrypted
  let next := edit current
  if next = current then return stored
  else
    let auth ← transformAuthSecrets vault .encrypt nonces
      (preserveUnchangedSecrets (item.auth next) (item.auth current) (item.auth stored))
    return store (item.setAuth next auth)

/-- What the decrypting list commands give for a stored item. -/
def readItem {α : Type} (item : Item α) (vault : Vault) (nonces : ℕ → Nonce) (stored : α) :
    Except VoleeoError α := do
  return item.setAuth stored (← transformAuthSecrets vault .decrypt nonces (item.auth stored))

/-! ## Requests -/

def requestItem : Item HttpRequest where
  auth r := r.auth
  setAuth r auth := { r with auth }
  updatedAt r := r.updatedAt
  setUpdatedAt r updatedAt := { r with updatedAt }
  auth_setAuth _ _ := rfl
  setAuth_auth _ := rfl
  setAuth_setAuth _ _ _ := rfl
  auth_setUpdatedAt _ _ := rfl
  setUpdatedAt_updatedAt _ := rfl
  setUpdatedAt_setUpdatedAt _ _ _ := rfl
  setUpdatedAt_setAuth _ _ _ := rfl

/-- The arguments of `update_request`. -/
structure RequestEdit where
  method : String
  url : String
  parameters : List RequestParameter
  headers : List RequestParameter
  body : Option RequestBody
  auth : AuthConfig

/-- The arguments that the editor passes for a request it has read. -/
def RequestEdit.of (r : HttpRequest) : RequestEdit :=
  ⟨r.method, r.url, r.parameters, r.headers, r.body, r.auth⟩

def RequestEdit.apply (edit : RequestEdit) (r : HttpRequest) : HttpRequest :=
  { r with
    method := edit.method
    url := edit.url
    parameters := edit.parameters
    headers := edit.headers
    body := edit.body
    auth := edit.auth }

/-- `RequestStore::update_request` on the stored request. -/
def storeRequest (now : String) (stored next : HttpRequest) : HttpRequest :=
  requestItem.saveIfChanged now stored
    { stored with
      method := next.method
      url := next.url
      parameters := next.parameters
      headers := next.headers
      body := next.body
      auth := next.auth }

def updateRequest (vault : Vault) (nonces : ℕ → Nonce) (now : String) (edit : RequestEdit)
    (stored : HttpRequest) : Except VoleeoError HttpRequest :=
  updateItem requestItem vault nonces (storeRequest now stored) edit.apply stored

/-! ## Folders -/

def folderItem : Item ApiFolder where
  auth f := f.auth
  setAuth f auth := { f with auth }
  updatedAt f := f.updatedAt
  setUpdatedAt f updatedAt := { f with updatedAt }
  auth_setAuth _ _ := rfl
  setAuth_auth _ := rfl
  setAuth_setAuth _ _ _ := rfl
  auth_setUpdatedAt _ _ := rfl
  setUpdatedAt_updatedAt _ := rfl
  setUpdatedAt_setUpdatedAt _ _ _ := rfl
  setUpdatedAt_setAuth _ _ _ := rfl

/-- The arguments of `update_folder`. -/
structure FolderEdit where
  headers : List RequestParameter
  auth : AuthConfig

def FolderEdit.of (f : ApiFolder) : FolderEdit := ⟨f.headers, f.auth⟩

def FolderEdit.apply (edit : FolderEdit) (f : ApiFolder) : ApiFolder :=
  { f with headers := edit.headers, auth := edit.auth }

/-- `RequestStore::update_folder` on the stored folder. -/
def storeFolder (now : String) (stored next : ApiFolder) : ApiFolder :=
  folderItem.saveIfChanged now stored { stored with headers := next.headers, auth := next.auth }

def updateFolder (vault : Vault) (nonces : ℕ → Nonce) (now : String) (edit : FolderEdit)
    (stored : ApiFolder) : Except VoleeoError ApiFolder :=
  updateItem folderItem vault nonces (storeFolder now stored) edit.apply stored

end Voleeo.Commands
