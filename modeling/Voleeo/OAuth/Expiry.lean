import Voleeo.OAuth.Flow

/-!
# Lifetimes of tokens

A lifetime is a number that the server chooses. It is added to the time, and zero stands for a
token that does not expire.
-/
namespace Voleeo.OAuth

/-- A redirect with a token: what `parse_token` asks for before it looks at the lifetime. -/
@[mk_iff] structure HasToken (path expectedState token : Text) (params : OrderedMap Text Text) : Prop where
  callback : callbackPath.isPrefixOf path = true
  query : (queryOf path).map queryParams = some params
  no_error : params.get? "error".toList = none
  granted : params.get? "access_token".toList = some token
  not_empty : token ≠ []
  state : stateOk params expectedState = true

def redirectedToken (params : OrderedMap Text Text) (token : Text) (expiresAt : ℤ) : TokenResult where
  accessToken := String.ofList token
  refreshToken := ""
  tokenType := String.ofList ((params.get? "token_type".toList).getD "Bearer".toList)
  scope := String.ofList ((params.get? "scope".toList).getD [])
  expiresAt

/-- The lifetime can be added to the time, and does not lead to the zero of no expiry. -/
def Fits (now : ℤ) (lifetime : Option ℤ) : Prop :=
  ∀ s ∈ lifetime, now + s < 2 ^ 63 ∧ -2 ^ 63 ≤ now + s - 30 ∧ now + s - 30 ≠ 0

/-- The results that either way of getting a token gives for a lifetime. -/
inductive Kept (now : ℤ) (lifetime : Option ℤ) (result : TokenResult) : Prop
  | posted (config : OAuth2Config) (tr : TokenResponse) (hlifetime : tr.expiresIn = lifetime)
      (hresult : tokenResult config now tr = .ok result)
  | redirected (path state : Text) (hlifetime : ∃ token params, HasToken path state token params ∧
      lifetimeOf params = lifetime) (hresult : parseToken path state now = .ok (.token result))

/-- The time that is kept says what the lifetime meant. -/
structure KeptRight (now : ℤ) (lifetime : Option ℤ) (result : TokenResult) : Prop where
  not_never : lifetime ≠ none → result.expiresAt ≠ 0
  /-- `ensure_token` uses a token with this time only if it does not expire, or is not too old. -/
  used_in_time : ∀ keyring tokens key t token,
    liveToken keyring tokens key t = .ok (some token) → token.expiresAt = result.expiresAt →
      ∀ s ∈ lifetime, t < now + s - 30
  monotone : ∀ s ∈ lifetime, ∀ s' ≥ s, ∀ result', Kept now (some s') result' → ∀ key t,
    (CachedToken.new key result').isExpired t = true → (CachedToken.new key result).isExpired t = true

/-- Both ways of getting a token have a result, and keep the right time. -/
structure ExpirySafe (now : ℤ) (lifetime : Option ℤ) : Prop where
  posted : ∀ config tr, tr.expiresIn = lifetime →
    ∃ result, tokenResult config now tr = .ok result ∧ KeptRight now lifetime result
  redirected : ∀ path state token params, HasToken path state token params →
    lifetimeOf params = lifetime →
      ∃ result, parseToken path state now = .ok (.token result) ∧ KeptRight now lifetime result

variable {now t : ℤ} {lifetime : Option ℤ} {path state token : Text}
  {params : OrderedMap Text Text}

/-! ## The two sums -/

theorem expiresAt_some_iff {s e : ℤ} : expiresAt now (some s) = .ok e ↔
    (-2 ^ 63 ≤ now + s ∧ now + s < 2 ^ 63) ∧ -2 ^ 63 ≤ now + s - 30 ∧ e = now + s - 30 := by
  rw [expiresAt]
  cases hsum : addI64 now s with
  | error f =>
    refine ⟨nofun, fun h => ?_⟩
    rw [addI64_eq_ok_iff.mpr ⟨h.1.1, h.1.2, rfl⟩] at hsum
    cases hsum
  | ok sum =>
    obtain ⟨hlow, hhigh, rfl⟩ := addI64_eq_ok_iff.mp hsum
    show addI64 (now + s) (-30) = .ok e ↔ _
    rw [addI64_eq_ok_iff]
    constructor
    · rintro ⟨hlow', -, rfl⟩
      exact ⟨⟨hlow, hhigh⟩, by omega, by omega⟩
    · rintro ⟨-, hlow', rfl⟩
      exact ⟨by omega, by omega, by omega⟩

theorem expiresAt_of_fits (h : Fits now lifetime) :
    ∃ e, expiresAt now lifetime = .ok e ∧ ∀ s ∈ lifetime, e = now + s - 30 ∧ e ≠ 0 := by
  cases lifetime with
  | none => exact ⟨0, rfl, by simp⟩
  | some s =>
    obtain ⟨hhigh, hlow, hzero⟩ := h s rfl
    refine ⟨now + s - 30, expiresAt_some_iff.mpr ⟨⟨by omega, hhigh⟩, hlow, rfl⟩, ?_⟩
    rintro _ ⟨⟩
    exact ⟨rfl, hzero⟩

theorem tokenResult_eq (config : OAuth2Config) (tr : TokenResponse) :
    (tokenResult config now tr).map (·.expiresAt) = expiresAt now tr.expiresIn := by
  rw [tokenResult]
  cases expiresAt now tr.expiresIn <;> rfl

theorem parseToken_of_hasToken (h : HasToken path state token params) (now : ℤ) :
    parseToken path state now =
      (expiresAt now (lifetimeOf params)).map fun e => .token (redirectedToken params token e) := by
  obtain ⟨query, hquery, rfl⟩ := Option.map_eq_some_iff.mp h.query
  rw [parseToken, h.callback, hquery]
  simp only [Bool.not_true, Bool.false_eq_true, if_false, h.no_error, h.granted, Option.filter_some,
    h.not_empty, ne_eq, not_false_eq_true, decide_true, if_true, h.state]
  cases expiresAt now (lifetimeOf (queryParams query)) <;> rfl

/-- Every result has the time of the sum. -/
theorem Kept.expiresAt_eq {result : TokenResult} (h : Kept now lifetime result) :
    expiresAt now lifetime = .ok result.expiresAt := by
  cases h with
  | posted config tr hlifetime hresult =>
    rw [← hlifetime, ← tokenResult_eq config, hresult]
    rfl
  | redirected path state hlifetime hresult =>
    obtain ⟨token, params, hhas, rfl⟩ := hlifetime
    rw [parseToken_of_hasToken hhas] at hresult
    cases hsum : expiresAt now (lifetimeOf params) with
    | error f =>
      rw [hsum] at hresult
      cases hresult
    | ok e =>
      rw [hsum] at hresult
      cases hresult
      rfl

/-! ## Tokens that are used -/

theorem isExpired_eq_false_iff {token : CachedToken} :
    token.isExpired t = false ↔ token.expiresAt = 0 ∨ t < token.expiresAt := by
  rw [CachedToken.isExpired, Bool.and_eq_false_iff, decide_eq_false_iff_not, decide_eq_false_iff_not,
    not_not, not_le]

theorem isExpired_of_live {keyring : Keyring} {tokens : List CachedToken} {key : String}
    {token : CachedToken} (h : liveToken keyring tokens key t = .ok (some token)) :
    token.isExpired t = false := by
  rw [liveToken] at h
  cases hload : load keyring tokens key with
  | error e =>
    rw [hload] at h
    cases h
  | ok cached =>
    rw [hload] at h
    have hfilter : cached.filter (fun t' => !t'.isExpired t) = some token := Except.ok.inj h
    simpa using (Option.filter_eq_some_iff.mp hfilter).2

theorem keptRight_of_fits (h : Fits now lifetime) {result : TokenResult}
    (hresult : expiresAt now lifetime = .ok result.expiresAt) : KeptRight now lifetime result := by
  obtain ⟨e, he, hright⟩ := expiresAt_of_fits h
  rw [he] at hresult
  have htime : e = result.expiresAt := Except.ok.inj hresult
  rw [htime] at hright
  refine ⟨fun hsome => ?_, ?_, ?_⟩
  · obtain ⟨s, hs⟩ := Option.ne_none_iff_exists'.mp hsome
    exact (hright s hs).2
  · intro keyring tokens key t token hlive hexpires s hs
    obtain ⟨hvalue, hzero⟩ := hright s hs
    rcases isExpired_eq_false_iff.mp (isExpired_of_live hlive) with hnever | hin
    · exact absurd (hexpires ▸ hnever) hzero
    · rwa [hexpires, hvalue] at hin
  · intro s hs s' hle result' hkept key t hexpired
    obtain ⟨hvalue, hzero⟩ := hright s hs
    obtain ⟨-, -, hvalue'⟩ := expiresAt_some_iff.mp hkept.expiresAt_eq
    by_contra hlive
    rw [Bool.not_eq_true, isExpired_eq_false_iff] at hlive
    have hlate : ¬ (result'.expiresAt = 0 ∨ t < result'.expiresAt) := fun hl => by
      have hfalse : (CachedToken.new key result').isExpired t = false :=
        isExpired_eq_false_iff.mpr hl
      rw [hfalse] at hexpired
      cases hexpired
    rcases hlive with hnever | hin
    · exact hzero hnever
    · have hin' : t < result.expiresAt := hin
      exact hlate (.inr (by omega))

/-- Lifetimes are kept right exactly where the sums stay in range, and do not give zero. -/
theorem expirySafe_iff (now : ℤ) (lifetime : Option ℤ) :
    ExpirySafe now lifetime ↔ Fits now lifetime := by
  constructor
  · intro h s hs
    obtain rfl : lifetime = some s := hs
    let config : OAuth2Config := ⟨.password, "", "", "", "", "", "", .basicHeader, false, .s256, "",
      "", "", "", ""⟩
    obtain ⟨result, hresult, hright⟩ := h.posted config ⟨"", "", some s, none, none⟩ rfl
    have hsum := Kept.expiresAt_eq (.posted config _ rfl hresult)
    obtain ⟨⟨-, hhigh⟩, hlow, hvalue⟩ := expiresAt_some_iff.mp hsum
    exact ⟨hhigh, hlow, hvalue ▸ hright.not_never nofun⟩
  · intro h
    obtain ⟨e, he, -⟩ := expiresAt_of_fits h
    constructor
    · intro config tr hlifetime
      have heq : (tokenResult config now tr).map (·.expiresAt) = expiresAt now tr.expiresIn :=
        tokenResult_eq config tr
      rw [hlifetime, he] at heq
      cases hresult : tokenResult config now tr with
      | error f =>
          rw [hresult] at heq
          cases heq
      | ok result =>
          rw [hresult] at heq
          exact ⟨result, rfl, keptRight_of_fits h (he.trans heq.symm)⟩
    · intro path state token params hhas hlifetime
      rw [parseToken_of_hasToken hhas, hlifetime, he]
      exact ⟨redirectedToken params token e, rfl, keptRight_of_fits h he⟩

/-- A lifetime that ends at the epoch, after the thirty seconds are taken off, never ends. -/
theorem epoch_lifetime_never_expires : ¬ ExpirySafe 1700000000 (some (30 - 1700000000)) := by
  intro h
  obtain ⟨result, hresult, hright⟩ := h.posted ⟨.password, "", "", "", "", "", "", .basicHeader, false,
    .s256, "", "", "", "", ""⟩ ⟨"", "", some (30 - 1700000000), none, none⟩ rfl
  cases hresult
  exact hright.not_never nofun rfl

end Voleeo.OAuth
