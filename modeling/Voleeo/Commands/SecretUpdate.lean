import Voleeo.Commands.Requests
import Voleeo.Parts

/-!
# Updates of secrets

An update stores what was passed exactly when every secret that keeps its
plaintext also keeps its flag, or was never encrypted: the stored bytes of an
unchanged secret are spliced back even where the flag says that the field is no
longer encrypted, and the ciphertext is then read as the secret.
-/
namespace Voleeo.Commands
open Crypto

variable {aead : Aead} {nonces : ℕ → Nonce} {direction : Direction}

/-! ## One field after another -/

def transformField (aead : Aead) (direction : Direction) (nonce : Nonce) (field : String × Bool) :
    Except VoleeoError String :=
  if field.2 then transformSecret aead direction nonce field.1 else .ok field.1

theorem transform_opened (auth : AuthConfig) :
    transformAuthSecrets (Vault.opened aead) direction nonces auth = (do
      let values ← auth.secretFields.zipIdx.mapM fun f =>
        transformField aead direction (nonces f.2) f.1
      return auth.setSecrets values) := by
  rw [transformAuthSecrets]
  split_ifs with hplain hlocked
  · -- Nothing is flagged, and each value stays as it is.
    have hvalues : auth.secretFields.zipIdx.mapM (fun f =>
        transformField aead direction (nonces f.2) f.1) = .ok auth.secrets := by
      refine mapM_eq_ok_iff.mpr ⟨by simp, fun i f hf => ?_⟩
      obtain ⟨field, hfield, rfl⟩ : ∃ field, auth.secretFields[i]? = some field ∧
          (field, i) = f := by simpa [List.getElem?_zipIdx] using hf
      have hflag : field.2 = false := by
        have hall := List.all_eq_true.mp hplain field (List.mem_of_getElem? hfield)
        simpa using hall
      exact ⟨field.1, by simp [AuthConfig.secrets, hfield], by simp [transformField, hflag]⟩
    rw [hvalues]
    exact congrArg Except.ok auth.setSecrets_secrets.symm
  · cases hlocked
  · rfl

/-- Every field of the result comes from the field of the same position. -/
theorem transform_eq_ok_iff {auth auth' : AuthConfig} :
    transformAuthSecrets (Vault.opened aead) direction nonces auth = .ok auth' ↔
      auth' = auth.setSecrets auth'.secrets ∧
        ∀ (i : ℕ) field, auth.secretFields[i]? = some field → ∃ value,
          auth'.secretFields[i]? = some (value, field.2) ∧
            transformField aead direction (nonces i) field = .ok value := by
  rw [transform_opened]
  constructor
  · intro h
    obtain ⟨values, hvalues, h⟩ := ok_of_bind h
    obtain rfl : auth.setSecrets values = auth' := Except.ok.inj h
    obtain ⟨hlen, hfields⟩ := mapM_eq_ok_iff.mp hvalues
    rw [List.length_zipIdx] at hlen
    rw [AuthConfig.secrets_setSecrets hlen, AuthConfig.secretFields_setSecrets hlen]
    refine ⟨rfl, fun i field hfield => ?_⟩
    obtain ⟨value, hvalue, htransform⟩ := hfields i (field, i) (by simp [hfield])
    exact ⟨value, by simp [List.getElem?_zip_eq_some, hvalue, AuthConfig.flags, hfield], htransform⟩
  · rintro ⟨hshape, hfields⟩
    have hlen : auth'.secrets.length = auth.secretFields.length := by
      rw [hshape]
      simp
    have hvalues : auth.secretFields.zipIdx.mapM (fun f =>
        transformField aead direction (nonces f.2) f.1) = .ok auth'.secrets := by
      refine mapM_eq_ok_iff.mpr ⟨by simpa using hlen, fun i f hf => ?_⟩
      obtain ⟨field, hfield, rfl⟩ : ∃ field, auth.secretFields[i]? = some field ∧
          (field, i) = f := by simpa [List.getElem?_zipIdx] using hf
      obtain ⟨value, hvalue, htransform⟩ := hfields i field hfield
      exact ⟨value, by simp [AuthConfig.secrets, hvalue], htransform⟩
    rw [hvalues]
    exact congrArg Except.ok hshape.symm

theorem transform_encrypt (auth : AuthConfig) :
    ∃ auth', transformAuthSecrets (Vault.opened aead) .encrypt nonces auth = .ok auth' := by
  have hvalues : auth.secretFields.zipIdx.mapM (fun f =>
      transformField aead .encrypt (nonces f.2) f.1) =
      .ok (auth.secretFields.zipIdx.map fun f =>
        if f.1.2 && !isEncrypted f.1.1 then encrypt aead (nonces f.2) f.1.1 else f.1.1) := by
    apply Parts.mapM_of
    rintro ⟨⟨secret, flag⟩, i⟩ -
    cases flag <;> cases hsecret : isEncrypted secret <;>
      simp [transformField, transformSecret, hsecret]
  rw [transform_opened, hvalues]
  exact ⟨_, rfl⟩

/-! ## What becomes of a field -/

/-- A passed secret in clear is stored so that it is read again. -/
theorem stored_field {v s : String} {g : Bool} {m n : Nonce} (hv : isEncrypted v = false)
    (h : transformField aead .encrypt m (v, g) = .ok s) :
    transformField aead .decrypt n (s, g) = .ok v ∧ (g = true → isEncrypted s = true) := by
  cases g with
  | false =>
    obtain rfl : v = s := by simpa [transformField] using h
    exact ⟨rfl, by simp⟩
  | true =>
    obtain rfl : encrypt aead m v = s := by simpa [transformField, transformSecret, hv] using h
    simp [transformField, transformSecret]

/-- A passed secret, spliced with the stored text where its plaintext is unchanged. -/
theorem spliced_field {c p v s : String} {f g : Bool} {l m n : Nonce}
    (hv : isEncrypted v = false) (hp : transformField aead .decrypt l (c, f) = .ok p)
    (hs : transformField aead .encrypt m (if v = p then c else v, g) = .ok s) :
    (transformField aead .decrypt n (s, g) = .ok v ∧ (v = p → f = g → s = c) ↔
      (v = p → f = true → (isEncrypted c = true ↔ g = true))) ∧
    (g = true → isEncrypted s = true) := by
  by_cases hvp : v = p
  · subst hvp
    rw [if_pos rfl] at hs
    by_cases hc : f = true ∧ isEncrypted c = true
    · -- The stored ciphertext goes back in.
      obtain ⟨rfl, henc⟩ := hc
      have hplain : decrypt aead c = .ok v := by simpa [transformField, transformSecret, henc] using hp
      obtain rfl : c = s := by
        cases g <;> simpa [transformField, transformSecret, henc] using hs
      have hne : c ≠ v := by
        rintro rfl
        rw [hv] at henc
        cases henc
      cases g <;> simp [transformField, transformSecret, henc, hplain, hne]
    · -- The stored text is in clear, and is the passed value.
      obtain rfl : c = v := by
        cases f with
        | false => simpa [transformField] using hp
        | true =>
          have henc : isEncrypted c = false := by simpa using hc
          simpa [transformField, transformSecret, henc] using hp
      obtain ⟨hread, hsealed⟩ := stored_field (n := n) hv hs
      refine ⟨?_, hsealed⟩
      simp only [hread, hv, true_and, forall_const, Bool.false_eq_true, false_iff]
      cases f <;> cases g
      · obtain rfl : c = s := by simpa [transformField] using hs
        simp
      · simp
      · simp
      · have hne : s ≠ c := by
          rintro rfl
          have := hsealed rfl
          rw [hv] at this
          cases this
        simp [hne]
  · rw [if_neg hvp] at hs
    obtain ⟨hread, hsealed⟩ := stored_field (n := n) hv hs
    exact ⟨by simp [hread, hvp], hsealed⟩

/-! ## What becomes of an auth scheme -/

/-- An auth scheme whose secrets are in clear. -/
structure PlainAuth where
  auth : AuthConfig
  plain : ∀ field ∈ auth.secretFields, isEncrypted field.1 = false

/-- The stored scheme is read as the passed one, hides what is flagged, and keeps the bytes of
every secret whose plaintext and flag are the old ones. -/
structure SecretsStored (aead : Aead) (stored decrypted passed stored' : AuthConfig) : Prop where
  read : ∀ nonces, transformAuthSecrets (Vault.opened aead) .decrypt nonces stored' = .ok passed
  hidden : ∀ field ∈ stored'.secretFields, field.2 = true → isEncrypted field.1 = true
  kept : passed.discriminant = decrypted.discriminant → ∀ (i : ℕ) field,
    decrypted.secretFields[i]? = some field → passed.secretFields[i]? = some field →
      stored'.secrets[i]? = stored.secrets[i]?

/-- A flagged secret whose plaintext is passed again was encrypted exactly if it stays flagged. -/
def FlagsFit (stored decrypted passed : AuthConfig) : Prop :=
  passed.discriminant = decrypted.discriminant → ∀ (i : ℕ) v g c,
    decrypted.secretFields[i]? = some (v, true) → passed.secretFields[i]? = some (v, g) →
      stored.secrets[i]? = some c → (isEncrypted c = true ↔ g = true)

theorem exists_getElem? {α β : Type} {xs : List α} {ys : List β} (h : xs.length = ys.length)
    {i : ℕ} {y : β} (hy : ys[i]? = some y) : ∃ x, xs[i]? = some x := by
  obtain ⟨hi, -⟩ := List.getElem?_eq_some_iff.mp hy
  exact ⟨xs[i], List.getElem?_eq_getElem (by omega)⟩

section
variable {stored decrypted stored' : AuthConfig} {passed : AuthConfig}

theorem preserve_eq (passed decrypted stored : AuthConfig) :
    preserveUnchangedSecrets passed decrypted stored =
      passed.setSecrets (preserveUnchangedSecrets passed decrypted stored).secrets := by
  rw [preserveUnchangedSecrets]
  split_ifs
  · exact passed.setSecrets_secrets.symm
  · exact (passed.setSecrets_secrets_setSecrets _).symm

theorem preserve_fresh (h : passed.discriminant ≠ decrypted.discriminant) :
    preserveUnchangedSecrets passed decrypted stored = passed := if_pos h

/-- The field of the spliced scheme at a position. -/
theorem preserve_field (h : passed.discriminant = decrypted.discriminant)
    (hlen : decrypted.secretFields.length = stored.secretFields.length) {i : ℕ} {v p c : String}
    {g f f' : Bool} (hv : passed.secretFields[i]? = some (v, g))
    (hp : decrypted.secretFields[i]? = some (p, f)) (hc : stored.secretFields[i]? = some (c, f')) :
    (preserveUnchangedSecrets passed decrypted stored).secretFields[i]? =
      some (if v = p then c else v, g) := by
  have hpassed := AuthConfig.length_eq_of_discriminant h
  rw [preserveUnchangedSecrets, if_neg (not_not.mpr h), AuthConfig.secretFields_setSecrets]
  · simp [List.zip, List.getElem?_zipWith, AuthConfig.flags, AuthConfig.secrets, hv, hp, hc]
  · simp
    omega

/-- The fields of one position, from the stored scheme to the one stored after the update. -/
theorem update_field (h : passed.discriminant = decrypted.discriminant)
    (hdecrypt : transformAuthSecrets (Vault.opened aead) .decrypt nonces stored = .ok decrypted)
    (hencrypt : transformAuthSecrets (Vault.opened aead) .encrypt nonces
      (preserveUnchangedSecrets passed decrypted stored) = .ok stored')
    {i : ℕ} {v : String} {g : Bool} (hv : passed.secretFields[i]? = some (v, g)) :
    ∃ p f c s, decrypted.secretFields[i]? = some (p, f) ∧ stored.secretFields[i]? = some (c, f) ∧
      stored'.secretFields[i]? = some (s, g) ∧
      transformField aead .decrypt (nonces i) (c, f) = .ok p ∧
      transformField aead .encrypt (nonces i) (if v = p then c else v, g) = .ok s := by
  obtain ⟨hshape, hdecrypted⟩ := transform_eq_ok_iff.mp hdecrypt
  obtain ⟨-, hencrypted⟩ := transform_eq_ok_iff.mp hencrypt
  have hlen : decrypted.secretFields.length = stored.secretFields.length := by
    rw [hshape]
    simp
  have hpassed := AuthConfig.length_eq_of_discriminant h
  obtain ⟨⟨c, f⟩, hc⟩ := exists_getElem? (hpassed.trans hlen).symm hv
  obtain ⟨p, hp, hplain⟩ := hdecrypted i (c, f) hc
  obtain ⟨s, hs, hsealed⟩ := hencrypted i _ (preserve_field h hlen hv hp hc)
  exact ⟨p, f, c, s, hp, hc, hs, hplain, hsealed⟩

/-- The scheme after the update has the shape of the passed one. -/
theorem update_shape
    (hencrypt : transformAuthSecrets (Vault.opened aead) .encrypt nonces
      (preserveUnchangedSecrets passed decrypted stored) = .ok stored') :
    passed = stored'.setSecrets passed.secrets := by
  obtain ⟨hshape, -⟩ := transform_eq_ok_iff.mp hencrypt
  rw [hshape, preserve_eq, AuthConfig.setSecrets_setSecrets, AuthConfig.setSecrets_setSecrets]
  · exact passed.setSecrets_secrets.symm
  · simp
  · simp

theorem field_of_update
    (hencrypt : transformAuthSecrets (Vault.opened aead) .encrypt nonces
      (preserveUnchangedSecrets passed decrypted stored) = .ok stored')
    {i : ℕ} {field : String × Bool} (hfield : stored'.secretFields[i]? = some field) :
    ∃ v, passed.secretFields[i]? = some (v, field.2) := by
  have hshape := update_shape hencrypt
  have hlen : passed.secretFields.length = stored'.secretFields.length := by
    rw [hshape]
    simp
  obtain ⟨⟨v, g⟩, hv⟩ := exists_getElem? hlen hfield
  have hflags : passed.flags = stored'.flags := by
    rw [hshape]
    simp
  have hflag := congrArg (fun fs => fs[i]?) hflags
  simp only [AuthConfig.flags, List.getElem?_map, hv, hfield, Option.map_some,
    Option.some.injEq] at hflag
  exact ⟨v, by rw [hv, hflag]⟩

end

/-- Field by field. -/
theorem secretsStored_of_fields {stored decrypted stored' passed : AuthConfig}
    (hencrypt : transformAuthSecrets (Vault.opened aead) .encrypt nonces
      (preserveUnchangedSecrets passed decrypted stored) = .ok stored')
    (hread : ∀ (i : ℕ) n v g s, passed.secretFields[i]? = some (v, g) →
      stored'.secretFields[i]? = some (s, g) → transformField aead .decrypt n (s, g) = .ok v ∧
        (g = true → isEncrypted s = true))
    (hkept : passed.discriminant = decrypted.discriminant → ∀ (i : ℕ) field,
      decrypted.secretFields[i]? = some field → passed.secretFields[i]? = some field →
        stored'.secrets[i]? = stored.secrets[i]?) :
    SecretsStored aead stored decrypted passed stored' where
  read nonces := by
    refine transform_eq_ok_iff.mpr ⟨update_shape hencrypt, fun i field hfield => ?_⟩
    obtain ⟨v, hv⟩ := field_of_update hencrypt hfield
    exact ⟨v, hv, (hread i (nonces i) v field.2 field.1 hv hfield).1⟩
  hidden field hmem hflag := by
    obtain ⟨i, hfield⟩ := List.getElem?_of_mem hmem
    obtain ⟨v, hv⟩ := field_of_update hencrypt hfield
    exact (hread i (nonces i) v field.2 field.1 hv hfield).2 hflag
  kept := hkept

theorem secretsStored_iff {stored decrypted stored' : AuthConfig} (passed : PlainAuth)
    (hdecrypt : transformAuthSecrets (Vault.opened aead) .decrypt nonces stored = .ok decrypted)
    (hencrypt : transformAuthSecrets (Vault.opened aead) .encrypt nonces
      (preserveUnchangedSecrets passed.auth decrypted stored) = .ok stored') :
    SecretsStored aead stored decrypted passed.auth stored' ↔
      FlagsFit stored decrypted passed.auth := by
  have hplain : ∀ {i : ℕ} {v g}, passed.auth.secretFields[i]? = some (v, g) →
      isEncrypted v = false := fun hv => passed.plain _ (List.mem_of_getElem? hv)
  by_cases h : passed.auth.discriminant = decrypted.discriminant
  · constructor
    · intro hstored _ i v g c hold hv hc
      obtain ⟨p, f, c', s, hp, hc', hs, hdec, henc⟩ := update_field h hdecrypt hencrypt hv
      obtain ⟨rfl, rfl⟩ : v = p ∧ true = f := by simpa using hold.symm.trans hp
      obtain rfl : c' = c := by simpa [AuthConfig.secrets, hc'] using hc
      refine (spliced_field (n := nonces i) (hplain hv) hdec henc).1.mp ⟨?_, ?_⟩ rfl rfl
      · obtain ⟨value, hvalue, hread⟩ :=
          (transform_eq_ok_iff.mp (hstored.read nonces)).2 i _ hs
        obtain ⟨rfl, -⟩ : v = value ∧ g = g := by simpa using hv.symm.trans hvalue
        exact hread
      · rintro - rfl
        have hkept := hstored.kept h i _ hp hv
        simpa [AuthConfig.secrets, hs, hc'] using hkept
    · intro hfit
      apply secretsStored_of_fields hencrypt
      · intro i n v g s hv hs
        obtain ⟨p, f, c, s', hp, hc, hs', hdec, henc⟩ := update_field h hdecrypt hencrypt hv
        obtain rfl : s = s' := by simpa using hs.symm.trans hs'
        obtain ⟨hiff, hhidden⟩ := spliced_field (n := n) (hplain hv) hdec henc
        refine ⟨(hiff.mpr ?_).1, hhidden⟩
        rintro rfl rfl
        exact hfit h i v g c hp hv (by simp [AuthConfig.secrets, hc])
      · rintro - i ⟨v, g⟩ hold hv
        obtain ⟨p, f, c, s, hp, hc, hs, hdec, henc⟩ := update_field h hdecrypt hencrypt hv
        obtain ⟨rfl, rfl⟩ : v = p ∧ g = f := by simpa using hold.symm.trans hp
        obtain ⟨hiff, -⟩ := spliced_field (n := nonces i) (hplain hv) hdec henc
        have hsame : s = c := (hiff.mpr fun _ hg => hfit h i v g c (by rw [hp, hg]) hv
          (by simp [AuthConfig.secrets, hc])).2 rfl rfl
        simp [AuthConfig.secrets, hs, hc, hsame]
  · -- Another scheme: every secret is new.
    rw [preserve_fresh h] at hencrypt
    refine iff_of_true ?_ fun hsame => absurd hsame h
    refine secretsStored_of_fields (by rwa [preserve_fresh h]) ?_ fun hsame => absurd hsame h
    intro i n v g s hv hs
    obtain ⟨s', hs', henc⟩ := (transform_eq_ok_iff.mp hencrypt).2 i _ hv
    obtain rfl : s = s' := by simpa using hs.symm.trans hs'
    exact stored_field (hplain hv) henc

/-! ## Items -/

section
variable {α : Type} [DecidableEq α] (item : Item α)

/-- After the update the item is read as the one that was passed, its secrets are stored as they
should be, and passing what was read changes nothing. -/
structure Updated (aead : Aead) (edit : α → α) (again : α → α → Except VoleeoError α)
    (stored decrypted stored' : α) : Prop where
  secrets : SecretsStored aead (item.auth stored) (item.auth decrypted)
    (item.auth (edit decrypted)) (item.auth stored')
  read : ∀ nonces, readItem item (Vault.opened aead) nonces stored' =
    .ok (item.setUpdatedAt (edit decrypted) (item.updatedAt stored'))
  again : again (item.setUpdatedAt (edit decrypted) (item.updatedAt stored')) stored' = .ok stored'

/-- The claim about an update command: whenever it succeeds, what it stored is what was passed. -/
def UpdateIsExact (aead : Aead) (nonces : ℕ → Nonce) (edit : α → α)
    (again : α → α → Except VoleeoError α) (update : α → Except VoleeoError α) (stored : α) : Prop :=
  ∀ decrypted stored', readItem item (Vault.opened aead) nonces stored = .ok decrypted →
    update stored = .ok stored' → Updated item aead edit again stored decrypted stored'

/-- A call that changes nothing finds no flagged secret in clear; another call keeps the flags of
the secrets whose plaintext it keeps, or finds them in clear and clears the flag. -/
def UpdateFits (aead : Aead) (nonces : ℕ → Nonce) (edit : α → α) (stored : α) : Prop :=
  ∀ decrypted, readItem item (Vault.opened aead) nonces stored = .ok decrypted →
    if edit decrypted = decrypted then
      ∀ field ∈ (item.auth stored).secretFields, field.2 = true → isEncrypted field.1 = true
    else FlagsFit (item.auth stored) (item.auth decrypted) (item.auth (edit decrypted))

variable {item}

omit [DecidableEq α] in
theorem readItem_eq_ok {vault : Vault} {stored decrypted : α}
    (h : readItem item vault nonces stored = .ok decrypted) :
    transformAuthSecrets vault .decrypt nonces (item.auth stored) = .ok (item.auth decrypted) ∧
      decrypted = item.setAuth stored (item.auth decrypted) := by
  obtain ⟨auth, hauth, h⟩ := ok_of_bind h
  obtain rfl : item.setAuth stored auth = decrypted := Except.ok.inj h
  rw [item.auth_setAuth]
  exact ⟨hauth, rfl⟩

omit [DecidableEq α] in
theorem readItem_of {vault : Vault} {stored : α} {auth : AuthConfig}
    (h : transformAuthSecrets vault .decrypt nonces (item.auth stored) = .ok auth) :
    readItem item vault nonces stored = .ok (item.setAuth stored auth) := by
  rw [readItem, h]
  rfl

/-- What `updateItem` does with an item that it has read. -/
theorem updateItem_eq {vault : Vault} {store edit : α → α} {stored decrypted : α}
    (h : readItem item vault nonces stored = .ok decrypted) :
    updateItem item vault nonces store edit stored = if edit decrypted = decrypted then .ok stored
      else do
        let auth ← transformAuthSecrets vault .encrypt nonces (preserveUnchangedSecrets
          (item.auth (edit decrypted)) (item.auth decrypted) (item.auth stored))
        return store (item.setAuth (edit decrypted) auth) := by
  obtain ⟨hauth, hdecrypted⟩ := readItem_eq_ok h
  rw [updateItem, hauth, ok_bind, ← hdecrypted]
  rfl

theorem setUpdatedAt_saveIfChanged (item : Item α) (now : String) (stored next : α) (t : String) :
    item.setUpdatedAt (item.saveIfChanged now stored next) t = item.setUpdatedAt next t := by
  rw [Item.saveIfChanged]
  split_ifs with h
  · rw [← h, item.setUpdatedAt_setUpdatedAt]
  · rw [item.setUpdatedAt_setUpdatedAt, item.setUpdatedAt_setUpdatedAt]

theorem auth_saveIfChanged (item : Item α) (now : String) (stored next : α) :
    item.auth (item.saveIfChanged now stored next) = item.auth next := by
  have h := congrArg item.auth (setUpdatedAt_saveIfChanged item now stored next "")
  rwa [item.auth_setUpdatedAt, item.auth_setUpdatedAt] at h

/-- An item that is changed by the update, and its stored form. -/
theorem updated_of_secretsStored {aead : Aead} {now : String} {edit : α → α}
    {again : α → α → Except VoleeoError α} {stored decrypted stored' : α} {auth : AuthConfig}
    (hstored' : stored' = item.saveIfChanged now stored (item.setAuth (edit decrypted) auth))
    (hsecrets : SecretsStored aead (item.auth stored) (item.auth decrypted)
      (item.auth (edit decrypted)) (item.auth stored'))
    (hagain : ∀ read, readItem item (Vault.opened aead) nonces stored' = .ok read →
      again read stored' = .ok stored') :
    Updated item aead edit again stored decrypted stored' := by
  have hread : ∀ nonces, readItem item (Vault.opened aead) nonces stored' =
      .ok (item.setUpdatedAt (edit decrypted) (item.updatedAt stored')) := by
    intro nonces
    rw [readItem_of (hsecrets.read nonces)]
    congr 1
    have htime := setUpdatedAt_saveIfChanged item now stored (item.setAuth (edit decrypted) auth)
      (item.updatedAt stored')
    rw [← hstored', item.setUpdatedAt_updatedAt] at htime
    conv_lhs => rw [htime]
    rw [← item.setUpdatedAt_setAuth, item.setAuth_setAuth, item.setAuth_auth]
  exact ⟨hsecrets, hread, hagain _ (hread nonces)⟩

theorem updateIsExact_iff (now : String) {aead : Aead} {edit store : α → α}
    {again : α → α → Except VoleeoError α} {stored : α} (passed : PlainAuth)
    (hpassed : ∀ x, item.auth (edit x) = passed.auth)
    (hstore : ∀ decrypted auth, decrypted = item.setAuth stored (item.auth decrypted) →
      store (item.setAuth (edit decrypted) auth) =
        item.saveIfChanged now stored (item.setAuth (edit decrypted) auth))
    (hagain : ∀ read stored', readItem item (Vault.opened aead) nonces stored' = .ok read →
      again read stored' = .ok stored') :
    UpdateIsExact item aead nonces edit again
        (updateItem item (Vault.opened aead) nonces store edit) stored ↔
      UpdateFits item aead nonces edit stored := by
  -- What a call that changes something stores.
  have hchanged : ∀ {decrypted}, readItem item (Vault.opened aead) nonces stored = .ok decrypted →
      edit decrypted ≠ decrypted → ∃ auth stored',
        updateItem item (Vault.opened aead) nonces store edit stored = .ok stored' ∧
        stored' = item.saveIfChanged now stored (item.setAuth (edit decrypted) auth) ∧
        (SecretsStored aead (item.auth stored) (item.auth decrypted) (item.auth (edit decrypted))
            (item.auth stored') ↔
          FlagsFit (item.auth stored) (item.auth decrypted) (item.auth (edit decrypted))) := by
    intro decrypted hread hne
    obtain ⟨hdecrypt, hshape⟩ := readItem_eq_ok hread
    obtain ⟨auth, hencrypt⟩ := @transform_encrypt aead nonces (preserveUnchangedSecrets
      (item.auth (edit decrypted)) (item.auth decrypted) (item.auth stored))
    refine ⟨auth, _, ?_, hstore decrypted auth hshape, ?_⟩
    · rw [updateItem_eq hread, if_neg hne, hencrypt]
      rfl
    · rw [hstore decrypted auth hshape, auth_saveIfChanged, item.auth_setAuth]
      rw [hpassed] at hencrypt ⊢
      exact secretsStored_iff passed hdecrypt hencrypt
  constructor
  · intro h decrypted hread
    split_ifs with hsame
    · have hupdated := h decrypted stored hread (by rw [updateItem_eq hread, if_pos hsame])
      exact hupdated.secrets.hidden
    · obtain ⟨auth, stored', hupdate, -, hiff⟩ := hchanged hread hsame
      exact hiff.mp (h decrypted stored' hread hupdate).secrets
  · intro h decrypted stored' hread hupdate
    have hfit := h decrypted hread
    split_ifs at hfit with hsame
    · obtain ⟨hdecrypt, hshape⟩ := readItem_eq_ok hread
      rw [updateItem_eq hread, if_pos hsame] at hupdate
      obtain rfl : stored = stored' := Except.ok.inj hupdate
      have htime : item.setUpdatedAt decrypted (item.updatedAt stored) = decrypted := by
        rw [hshape, item.setUpdatedAt_setAuth, item.setUpdatedAt_updatedAt]
      refine ⟨⟨?_, hfit, fun _ _ _ _ _ => rfl⟩, ?_, ?_⟩ <;> rw [hsame]
      · exact fun _ => hdecrypt
      · rw [htime]
        exact fun _ => hread
      · rw [htime]
        exact hagain decrypted stored hread
    · obtain ⟨auth, stored'', hupdate', hstored'', hiff⟩ := hchanged hread hsame
      obtain rfl : stored' = stored'' := Except.ok.inj (hupdate.symm.trans hupdate')
      exact updated_of_secretsStored hstored'' (hiff.mpr hfit) fun read => hagain read stored'

end

/-! ## Requests and folders -/

theorem again_of_apply_self {α : Type} [DecidableEq α] {item : Item α} {vault : Vault}
    {store edit : α → α} {stored read : α} (hread : readItem item vault nonces stored = .ok read)
    (hself : edit read = read) : updateItem item vault nonces store edit stored = .ok stored := by
  rw [updateItem_eq hread, if_pos hself]

/-- `update_request` with an auth value in clear. -/
def RequestUpdateIsExact (aead : Aead) (nonces : ℕ → Nonce) (now : String) (edit : RequestEdit)
    (stored : HttpRequest) : Prop :=
  UpdateIsExact requestItem aead nonces edit.apply
    (fun read => updateRequest (Vault.opened aead) nonces now (RequestEdit.of read))
    (updateRequest (Vault.opened aead) nonces now edit) stored

def FolderUpdateIsExact (aead : Aead) (nonces : ℕ → Nonce) (now : String) (edit : FolderEdit)
    (stored : ApiFolder) : Prop :=
  UpdateIsExact folderItem aead nonces edit.apply
    (fun read => updateFolder (Vault.opened aead) nonces now (FolderEdit.of read))
    (updateFolder (Vault.opened aead) nonces now edit) stored

/-- Requests and folders are updated exactly when their secrets fit. -/
theorem secretUpdate_iff (aead : Aead) (nonces : ℕ → Nonce) (now : String) (passed : PlainAuth)
    (request : HttpRequest) (edit : RequestEdit) (folder : ApiFolder) (folderEdit : FolderEdit) :
    (RequestUpdateIsExact aead nonces now { edit with auth := passed.auth } request ↔
      UpdateFits requestItem aead nonces
        (RequestEdit.apply { edit with auth := passed.auth }) request) ∧
    (FolderUpdateIsExact aead nonces now { folderEdit with auth := passed.auth } folder ↔
      UpdateFits folderItem aead nonces
        (FolderEdit.apply { folderEdit with auth := passed.auth }) folder) := by
  constructor
  · refine updateIsExact_iff now passed (fun _ => rfl) ?_ ?_
    · rintro decrypted auth hshape
      rw [hshape]
      rfl
    · exact fun read stored' hread => again_of_apply_self hread rfl
  · refine updateIsExact_iff now passed (fun _ => rfl) ?_ ?_
    · rintro decrypted auth hshape
      rw [hshape]
      rfl
    · exact fun read stored' hread => again_of_apply_self hread rfl

/-! A bearer token whose flag is switched off is stored as ciphertext, and read as it. -/

def bearerRequest (token : String) (tokenEncrypted : Bool) : HttpRequest :=
  { HttpRequest.blank with auth := .bearer ⟨token, tokenEncrypted, true⟩ }

theorem flag_off_keeps_ciphertext :
    ¬ RequestUpdateIsExact clearAead zeros "t1"
      ⟨"GET", "", [], [], none, .bearer ⟨"s3cret", false, true⟩⟩
      (bearerRequest (encrypt clearAead (zeros 0) "s3cret") true) := by
  intro h
  have hread : readItem requestItem (Vault.opened clearAead) zeros
      (bearerRequest (encrypt clearAead (zeros 0) "s3cret") true) =
        .ok (bearerRequest "s3cret" true) := by
    simp [readItem, requestItem, bearerRequest, transform_opened, transformField,
      AuthConfig.secretFields, transformSecret, AuthConfig.setSecrets]
  have hupdate : updateRequest (Vault.opened clearAead) zeros "t1"
      ⟨"GET", "", [], [], none, .bearer ⟨"s3cret", false, true⟩⟩
      (bearerRequest (encrypt clearAead (zeros 0) "s3cret") true) =
        .ok { bearerRequest (encrypt clearAead (zeros 0) "s3cret") false with
          updatedAt := "t1" } := by
    simp [updateRequest, updateItem, requestItem, bearerRequest, transform_opened,
      transformField, AuthConfig.secretFields, transformSecret, AuthConfig.setSecrets]
    rfl
  have hback := (h _ _ hread hupdate).secrets.read zeros
  have hsame : encrypt clearAead (zeros 0) "s3cret" = "s3cret" := by
    simpa [requestItem, bearerRequest, RequestEdit.apply, transform_opened, transformField,
      AuthConfig.secretFields, AuthConfig.setSecrets] using hback
  have hencrypted := isEncrypted_encrypt clearAead (zeros 0) "s3cret"
  rw [hsame] at hencrypted
  revert hencrypted
  decide

end Voleeo.Commands
