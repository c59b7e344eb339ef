import Voleeo.OAuth.Expiry

/-!
# Waiting for a redirect

The loopback server answers what the browser asks for until the provider has answered.
-/
namespace Voleeo.OAuth

variable {now : ℤ} {state : Text}

/-- The first request decides that is not answered with a page to wait on. -/
theorem serve_eq_ok_iff {α : Type} {handle : Text → Except Failure (Served α)} {a : α}
    {passes : Text → Bool}
    (h : ∀ path, (∃ page, handle path = .ok (.keepWaiting page)) ↔ passes path = true)
    (requests : List Chunks) : serve handle requests = .ok a ↔ ∃ request,
      requests.find? (fun r => !passes (requestPath r)) = some request ∧
        ∃ page, handle (requestPath request) = .ok (.done page (.ok a)) := by
  induction requests with
  | nil => simp [serve]
  | cons first rest ih =>
    have hpasses := h (requestPath first)
    rw [serve, List.find?_cons]
    rcases hfirst : handle (requestPath first) with e | ⟨page, result⟩ | page
    all_goals
      simp only [hfirst, reduceCtorEq, exists_false, Except.ok.injEq, Served.keepWaiting.injEq,
        exists_eq', true_iff, false_iff, Bool.not_eq_true] at hpasses
      simp [hpasses, hfirst, ih]

/-- A redirect with a code, and with the state that the flow began with. -/
def HasCode (path expectedState code : Text) : Prop :=
  callbackPath.isPrefixOf path = true ∧ code ≠ [] ∧
    ∃ params, (queryOf path).map queryParams = some params ∧ stateOk params expectedState = true ∧
      params.get? "error".toList = none ∧ params.get? "code".toList = some code

theorem servedCode_cases (path state : Text) :
    ((∃ page, servedCode state path = .ok (.keepWaiting page)) ↔
      (!callbackPath.isPrefixOf path) = true) ∧ ∀ code,
        (∃ page, servedCode state path = .ok (.done page (.ok code))) ↔ HasCode path state code := by
  unfold servedCode parseCallback HasCode
  cases callbackPath.isPrefixOf path with
  | false => simp
  | true =>
    cases queryOf path with
    | none => simp
    | some query =>
      simp only [Option.map_some, Option.some.injEq, exists_eq_left']
      generalize queryParams query = params
      cases stateOk params state <;> cases params.get? "error".toList <;>
        cases params.get? "code".toList <;> simp
      split_ifs <;> simp <;> grind

/-- The first request for the callback decides: a code is taken from it if it comes with the state
that the flow began with. -/
theorem waitForCode_eq_ok_iff {code : Text} {requests : List Chunks} :
    waitForCode state requests = .ok code ↔ ∃ request,
      requests.find? (fun r => callbackPath.isPrefixOf (requestPath r)) = some request ∧
        HasCode (requestPath request) state code := by
  rw [waitForCode, serve_eq_ok_iff fun path => (servedCode_cases path state).1]
  simp only [(servedCode_cases _ state).2, Bool.not_not]

/-- A path on which the provider has given back neither a token nor an error. -/
def unanswered (path : Text) : Bool :=
  !callbackPath.isPrefixOf path || ((queryOf path).map queryParams).all fun params =>
    (params.get? "error".toList).isNone && (params.get? "access_token".toList).all (· = [])

theorem servedToken_cases (path state : Text) (now : ℤ) :
    ((∃ page, servedToken state now path = .ok (.keepWaiting page)) ↔ unanswered path = true) ∧
      ∀ result, (∃ page, servedToken state now path = .ok (.done page (.ok result))) ↔
        ∃ token params, HasToken path state token params ∧
          (expiresAt now (lifetimeOf params)).map (redirectedToken params token) = .ok result := by
  simp only [hasToken_iff]
  unfold servedToken parseToken unanswered
  generalize "error".toList = errorKey
  generalize "access_token".toList = tokenKey
  cases callbackPath.isPrefixOf path with
  | false => simp [bind, Except.bind, pure, Except.pure]
  | true =>
    cases queryOf path with
    | none => simp [bind, Except.bind, pure, Except.pure]
    | some query =>
      simp only [Option.map_some, Option.all_some, Option.some.injEq, bind, pure]
      generalize queryParams query = params
      cases herror : params.get? errorKey with
      | some err => cases stateOk params state <;> simp [Except.bind, Except.pure, herror]
      | none =>
        cases hgiven : params.get? tokenKey with
        | none => simp [Except.bind, Except.pure, herror, hgiven]
        | some token =>
          by_cases hempty : token = []
          · simp [Option.filter_some, Except.bind, Except.pure, hempty, herror, hgiven]
          · cases hstate : stateOk params state <;>
              cases hexpires : expiresAt now (lifetimeOf params) <;>
                simp [Option.filter_some, Except.bind, Except.pure, Except.map, redirectedToken,
                  hempty, herror, hgiven, hstate, hexpires]

/-- The first answer of the provider decides, however often the relay is asked for before it: a
token is taken from it if it comes with the state that the flow began with. -/
theorem waitForToken_eq_ok_iff {result : TokenResult} {requests : List Chunks} :
    waitForToken state now requests = .ok result ↔ ∃ request,
      requests.find? (fun r => !unanswered (requestPath r)) = some request ∧
        ∃ token params, HasToken (requestPath request) state token params ∧
          (expiresAt now (lifetimeOf params)).map (redirectedToken params token) = .ok result := by
  rw [waitForToken, serve_eq_ok_iff fun path => (servedToken_cases path state now).1]
  simp only [(servedToken_cases _ state now).2]

end Voleeo.OAuth
