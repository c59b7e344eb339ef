import Mathlib.Data.List.Basic
import Voleeo.Crypto.Cipher
import Voleeo.Entities

/-!
# Secret fields of an auth scheme

Every scheme declares its secrets in one place, each with the flag that says
whether it is to be encrypted. Code that changes secrets reads the list of
fields and writes a list of values back.
-/
namespace Voleeo
open Crypto

namespace AuthConfig

/-- The secrets of `secret_fields_mut`, with their flags. -/
def secretFields : AuthConfig → List (String × Bool)
  | .bearer a => [(a.token, a.tokenEncrypted)]
  | .basic a => [(a.password, a.passwordEncrypted)]
  | .apiKey a => [(a.value, a.valueEncrypted)]
  | .awsSigV4 a =>
    [(a.secretKey, a.secretKeyEncrypted), (a.sessionToken, a.sessionTokenEncrypted)]
  | .oauth1 a =>
    [(a.consumerSecret, a.consumerSecretEncrypted), (a.tokenSecret, a.tokenSecretEncrypted),
      (a.privateKey, a.privateKeyEncrypted)]
  | .oauth2 a =>
    [(a.clientSecret, a.clientSecretEncrypted), (a.password, a.passwordEncrypted)]
  | .digest a => [(a.password, a.passwordEncrypted)]
  | .ntlm a => [(a.password, a.passwordEncrypted)]
  | .none => []
  | .inherit _ => []

/-- Write values back through the borrows of `secret_fields_mut`. Fields behind the last value
stay as they are. -/
def setSecrets (auth : AuthConfig) (values : List String) : AuthConfig :=
  match auth with
  | .bearer a => .bearer { a with token := values.getD 0 a.token }
  | .basic a => .basic { a with password := values.getD 0 a.password }
  | .apiKey a => .apiKey { a with value := values.getD 0 a.value }
  | .awsSigV4 a =>
    .awsSigV4 { a with
      secretKey := values.getD 0 a.secretKey
      sessionToken := values.getD 1 a.sessionToken }
  | .oauth1 a =>
    .oauth1 { a with
      consumerSecret := values.getD 0 a.consumerSecret
      tokenSecret := values.getD 1 a.tokenSecret
      privateKey := values.getD 2 a.privateKey }
  | .oauth2 a =>
    .oauth2 { a with
      clientSecret := values.getD 0 a.clientSecret
      password := values.getD 1 a.password }
  | .digest a => .digest { a with password := values.getD 0 a.password }
  | .ntlm a => .ntlm { a with password := values.getD 0 a.password }
  | .none => .none
  | .inherit source => .inherit source

/-- `std::mem::discriminant`. -/
def discriminant : AuthConfig → ℕ
  | .none => 0
  | .inherit _ => 1
  | .bearer _ => 2
  | .basic _ => 3
  | .apiKey _ => 4
  | .awsSigV4 _ => 5
  | .oauth1 _ => 6
  | .oauth2 _ => 7
  | .digest _ => 8
  | .ntlm _ => 9

def secrets (auth : AuthConfig) : List String := auth.secretFields.map Prod.fst

def flags (auth : AuthConfig) : List Bool := auth.secretFields.map Prod.snd

@[simp] theorem length_secrets (auth : AuthConfig) :
    auth.secrets.length = auth.secretFields.length := List.length_map _

@[simp] theorem length_flags (auth : AuthConfig) :
    auth.flags.length = auth.secretFields.length := List.length_map _

variable {auth : AuthConfig} {values : List String}

/-- Values written back are read again, under the old flags. -/
theorem secretFields_setSecrets (h : values.length = auth.secretFields.length) :
    (auth.setSecrets values).secretFields = values.zip auth.flags := by
  cases auth with
  | none | inherit _ => simp [secretFields, flags]; rfl
  | bearer a | basic a | apiKey a | digest a | ntlm a =>
    obtain ⟨v, rfl⟩ := List.length_eq_one_iff.mp h
    rfl
  | awsSigV4 a | oauth2 a =>
    obtain ⟨v, w, rfl⟩ := List.length_eq_two.mp h
    rfl
  | oauth1 a =>
    obtain ⟨v, w, x, rfl⟩ := List.length_eq_three.mp h
    rfl

theorem secrets_setSecrets (h : values.length = auth.secretFields.length) :
    (auth.setSecrets values).secrets = values := by
  rw [secrets, secretFields_setSecrets h, List.map_fst_zip]
  rw [length_flags, h]

/-- Every secret is one of the values, or an old one that no value replaced. -/
theorem mem_secrets_setSecrets {v : String} (h : v ∈ (auth.setSecrets values).secrets) :
    v ∈ values ∨ v ∈ auth.secrets := by
  have hget : ∀ (i : ℕ) d, values.getD i d ∈ values ∨ values.getD i d = d := by
    intro i d
    rw [List.getD_eq_getElem?_getD]
    cases hi : values[i]? with
    | none => exact Or.inr rfl
    | some w => exact Or.inl (List.mem_of_getElem? hi)
  cases auth with
  | none | inherit _ => cases h
  | bearer a | basic a | apiKey a | digest a | ntlm a =>
    obtain rfl := List.mem_singleton.mp h
    exact (hget 0 _).imp_right fun hd => List.mem_singleton.mpr hd
  | awsSigV4 a | oauth2 a =>
    rcases List.mem_pair.mp h with rfl | rfl
    · exact (hget 0 _).imp_right fun hd => List.mem_pair.mpr (Or.inl hd)
    · exact (hget 1 _).imp_right fun hd => List.mem_pair.mpr (Or.inr hd)
  | oauth1 a =>
    simp only [secrets, secretFields, setSecrets, List.map_cons, List.map_nil, List.mem_cons,
      List.not_mem_nil, or_false] at h ⊢
    rcases h with rfl | rfl | rfl
    · exact (hget 0 _).imp_right Or.inl
    · exact (hget 1 _).imp_right fun hd => Or.inr (Or.inl hd)
    · exact (hget 2 _).imp_right fun hd => Or.inr (Or.inr hd)

@[simp] theorem flags_setSecrets (auth : AuthConfig) (values : List String) :
    (auth.setSecrets values).flags = auth.flags := by
  cases auth <;> rfl

@[simp] theorem length_secretFields_setSecrets (auth : AuthConfig) (values : List String) :
    (auth.setSecrets values).secretFields.length = auth.secretFields.length := by
  cases auth <;> rfl

@[simp] theorem setSecrets_setSecrets (values' : List String)
    (h : values'.length = auth.secretFields.length) :
    (auth.setSecrets values).setSecrets values' = auth.setSecrets values' := by
  cases auth with
  | none | inherit _ => rfl
  | bearer a | basic a | apiKey a | digest a | ntlm a =>
    obtain ⟨v, rfl⟩ := List.length_eq_one_iff.mp h
    rfl
  | awsSigV4 a | oauth2 a =>
    obtain ⟨v, w, rfl⟩ := List.length_eq_two.mp h
    rfl
  | oauth1 a =>
    obtain ⟨v, w, x, rfl⟩ := List.length_eq_three.mp h
    rfl

@[simp] theorem setSecrets_secrets (auth : AuthConfig) : auth.setSecrets auth.secrets = auth := by
  cases auth <;> rfl

theorem setSecrets_secrets_setSecrets (auth : AuthConfig) (values : List String) :
    auth.setSecrets (auth.setSecrets values).secrets = auth.setSecrets values := by
  cases auth <;> rfl

theorem length_eq_of_discriminant {a b : AuthConfig} (h : a.discriminant = b.discriminant) :
    a.secretFields.length = b.secretFields.length := by
  cases a <;> cases b <;> first | rfl | simp [discriminant] at h

end AuthConfig
end Voleeo
