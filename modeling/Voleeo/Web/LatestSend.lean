import Voleeo.Runs
import Voleeo.Web.HttpStore
import Mathlib.Tactic.SplitIfs

/-!
# Which send is on display

Sends of any requests run side by side. The backend keeps one cancel handle for
each request id, and a send that registers cancels the one before. The window
writes the result of a send by its request id, in whatever order results arrive.
-/
namespace Voleeo.Web

/-- How far a send has come. A settled send has not removed its handle yet. -/
inductive Phase
  | idle
  | sent
  | registered
  | settled (result : SendResult)
  | returned (result : SendResult)
  | completed (cookies : CookiesState) (result : SendResult)
  deriving DecidableEq, Repr

/-- The history fields `last`, `before` and `cancelled` are read by no step. -/
structure SendState (τ : Type) where
  store : HttpStore
  inFlight : String → Option τ
  signalled : τ → Bool
  phase : τ → Phase
  /-- The cancel commands on their way to the backend. -/
  cancels : String → ℕ
  /-- The send of the request that was started last. -/
  last : String → Option τ
  /-- The response on display when that send was started. -/
  before : String → Option HttpResponse
  /-- The send was the last one when its request was cancelled. -/
  cancelled : τ → Bool

def SendState.start {τ : Type} (store : HttpStore) : SendState τ where
  store
  inFlight _ := none
  signalled _ := false
  phase _ := .idle
  cancels _ := 0
  last _ := none
  before _ := none
  cancelled _ := false

inductive SendStep (τ : Type)
  | start (k : τ)
  /-- The command fails before it reaches the executor. -/
  | refuse (k : τ) (result : SendResult)
  | register (k : τ)
  | settle (k : τ) (result : SendResult)
  | unregister (k : τ)
  | deliver (k : τ) (cookies : CookiesState)
  | cancelRequest (id : String)
  /-- A cancel command reaches the executor. -/
  | cancel (id : String)

def SendResult.isRefusal : SendResult → Bool
  | .error (.other _) | .threw _ => true
  | _ => false

/-- A send that was signalled ends as cancelled, or with what its stream has received. -/
def SendResult.possible (signalled : Bool) : SendResult → Bool
  | .ok _ | .threw _ => true
  | .error .cancelled => signalled
  | .error _ => !signalled

def Phase.isIdle : Phase → Bool
  | .idle => true
  | _ => false

def Phase.isCompleted : Phase → Bool
  | .completed _ _ => true
  | _ => false

variable {τ : Type}

section
variable [DecidableEq τ]

def SendState.setPhase (s : SendState τ) (k : τ) (phase : Phase) : SendState τ :=
  { s with phase := Function.update s.phase k phase }

/-- Fire a cancel handle. -/
def SendState.signal (s : SendState τ) : Option τ → SendState τ
  | none => s
  | some k => { s with signalled := Function.update s.signalled k true }

/-- Insert the handle of a send, and fire the one that it replaces. -/
def SendState.register (s : SendState τ) (id : String) (k : τ) : SendState τ :=
  let s' := s.signal (s.inFlight id)
  { s' with inFlight := Function.update s'.inFlight id (some k) }

/-- Remove the handle of a send, unless it is that of another one. -/
def SendState.unregister (s : SendState τ) (id : String) (k : τ) : SendState τ :=
  if s.inFlight id = some k then { s with inFlight := Function.update s.inFlight id none } else s

/-- Remove the handle of a request, and fire it. -/
def SendState.cancel (s : SendState τ) (id : String) : SendState τ :=
  let s' := s.signal (s.inFlight id)
  { s' with inFlight := Function.update s'.inFlight id none }

variable (request : τ → String) (resolveEvents : τ → List TimelineEvent)

/-- One step of any send. A send that is not at this step does nothing. -/
def SendState.step (s : SendState τ) : SendStep τ → SendState τ
  | .start k =>
    if s.phase k = .idle then
      { s.setPhase k .sent with
        store := s.store.beginSend (request k)
        last := Function.update s.last (request k) (some k)
        before := Function.update s.before (request k) (s.store.responses (request k)) }
    else s
  | .refuse k result =>
    if s.phase k = .sent ∧ result.isRefusal then s.setPhase k (.returned result) else s
  | .register k =>
    if s.phase k = .sent then (s.register (request k) k).setPhase k .registered else s
  | .settle k result =>
    if s.phase k = .registered ∧ result.possible (s.signalled k) then
      s.setPhase k (.settled result)
    else s
  | .unregister k =>
    match s.phase k with
    | .settled result => (s.unregister (request k) k).setPhase k (.returned result)
    | _ => s
  | .deliver k cookies =>
    match s.phase k with
    | .returned result =>
      { s.setPhase k (.completed cookies result) with
        store := s.store.applySendRequestResult cookies (request k) (resolveEvents k) result }
    | _ => s
  | .cancelRequest id =>
    { s with
      store := s.store.cancelRequest id
      cancels := Function.update s.cancels id (s.cancels id + 1)
      cancelled := fun k => s.cancelled k || decide (s.last id = some k) }
  | .cancel id =>
    if s.cancels id = 0 then s
    else { s.cancel id with cancels := Function.update s.cancels id (s.cancels id - 1) }

end

section
variable (request : τ → String) (resolveEvents : τ → List TimelineEvent) (s : SendState τ)

/-- The send is in flight, and its request was not cancelled behind its start. -/
def SendState.Waiting (k : τ) : Prop :=
  (s.phase k).isCompleted = false ∧ s.cancelled k = false

/-- No other send of the request is on its way. -/
def SendState.Alone (k : τ) : Prop :=
  ∀ j, request j = request k → j ≠ k → (s.phase j).isIdle ∨ (s.phase j).isCompleted

/-- While the send started last is awaited nothing else is written, and once all sends have
completed its result is on display. -/
def SendState.Right : Prop :=
  ∀ id k, s.last id = some k →
    (s.Waiting k → s.store.loading id = true ∧ s.store.responses id = s.before id ∧
      s.store.errors id = none) ∧
    ((∀ j, request j = id → (s.phase j).isIdle ∨ (s.phase j).isCompleted) →
      ∃ cookies result, s.phase k = .completed cookies result ∧
        (s.store.responses id, s.store.errors id) = shown cookies id (resolveEvents k) result)

/-- A result is delivered while no later send of its request is awaited. The one that is delivered
last is of the send started last and no throw behind an older response, or it shows what the
result of that send shows. -/
def SendState.Clean : SendStep τ → Prop
  | .deliver k cookies =>
    ∀ result l, s.phase k = .returned result → s.last (request k) = some l →
      (l ≠ k → ¬ s.Waiting l) ∧
      (l = k → s.Alone request k → result.isThrow → s.store.responses (request k) = none) ∧
      (l ≠ k → s.Alone request k → ∀ cookies' result', s.phase l = .completed cookies' result' →
        displayed (s.store.responses (request k)) cookies (request k) (resolveEvents k) result =
          shown cookies' (request k) (resolveEvents l) result')
  | _ => True

end

/-! ## What every clean step keeps -/

section
variable (request : τ → String) (resolveEvents : τ → List TimelineEvent)

structure SendState.Inv (s : SendState τ) : Prop where
  right : s.Right request resolveEvents
  placed : ∀ id k, s.last id = some k → request k = id
  begun : ∀ id k, s.last id = some k → (s.phase k).isIdle = false

end

variable {request : τ → String} {resolveEvents : τ → List TimelineEvent} {s : SendState τ} {k : τ}

theorem SendState.inv_start (store : HttpStore) :
    (SendState.start store).Inv request resolveEvents where
  right _ _ h := by cases h
  placed _ _ h := by cases h
  begun _ _ h := by cases h

/-- Two states that differ only in what the property does not read. -/
structure SendState.Alike (s t : SendState τ) : Prop where
  store : t.store = s.store
  last : t.last = s.last
  before : t.before = s.before
  cancelled : t.cancelled = s.cancelled
  idle : ∀ j, (t.phase j).isIdle = (s.phase j).isIdle
  done : ∀ j, (t.phase j).isCompleted = (s.phase j).isCompleted
  result : ∀ j cookies result, s.phase j = .completed cookies result →
    t.phase j = .completed cookies result

theorem SendState.Inv.of_alike {t : SendState τ} (h : s.Inv request resolveEvents)
    (halike : s.Alike t) : t.Inv request resolveEvents where
  right := by
    intro id k hlast
    rw [halike.last] at hlast
    obtain ⟨hwaiting, hdone⟩ := h.right id k hlast
    rw [halike.store, halike.before]
    refine ⟨fun hw => hwaiting ?_, fun hall => ?_⟩
    · rwa [SendState.Waiting, halike.done, halike.cancelled] at hw
    · obtain ⟨cookies, result, hphase, hshown⟩ := hdone fun j hj => by
        simpa only [halike.idle, halike.done] using hall j hj
      exact ⟨cookies, result, halike.result k cookies result hphase, hshown⟩
  placed id k hlast := h.placed id k (halike.last ▸ hlast)
  begun id k hlast := by
    rw [halike.idle]
    exact h.begun id k (halike.last ▸ hlast)

theorem SendState.Alike.trans {t u : SendState τ} (hst : s.Alike t) (htu : t.Alike u) :
    s.Alike u where
  store := htu.store.trans hst.store
  last := htu.last.trans hst.last
  before := htu.before.trans hst.before
  cancelled := htu.cancelled.trans hst.cancelled
  idle j := (htu.idle j).trans (hst.idle j)
  done j := (htu.done j).trans (hst.done j)
  result j cookies result h := htu.result j cookies result (hst.result j cookies result h)

/-- The handles of the backend are not on display. -/
theorem SendState.alike_handles (inFlight : String → Option τ) (signalled : τ → Bool)
    (cancels : String → ℕ) : s.Alike { s with inFlight, signalled, cancels } :=
  ⟨rfl, rfl, rfl, rfl, fun _ => rfl, fun _ => rfl, fun _ _ _ h => h⟩

section
variable [DecidableEq τ]

/-- A send that is under way goes on. -/
theorem SendState.alike_setPhase {p : Phase} (hidle : (s.phase k).isIdle = false)
    (hdone : (s.phase k).isCompleted = false) (hidle' : p.isIdle = false)
    (hdone' : p.isCompleted = false) : s.Alike (s.setPhase k p) where
  store := rfl
  last := rfl
  before := rfl
  cancelled := rfl
  idle j := by
    by_cases hj : j = k
    · subst hj
      simp [SendState.setPhase, hidle, hidle']
    · simp [SendState.setPhase, hj]
  done j := by
    by_cases hj : j = k
    · subst hj
      simp [SendState.setPhase, hdone, hdone']
    · simp [SendState.setPhase, hj]
  result j cookies result h := by
    have hj : j ≠ k := by
      rintro rfl
      rw [h] at hdone
      cases hdone
    simpa [SendState.setPhase, hj] using h

theorem SendState.alike_signal (h : Option τ) : s.Alike (s.signal h) := by
  cases h with
  | none => exact s.alike_handles s.inFlight s.signalled s.cancels
  | some k => exact s.alike_handles s.inFlight _ s.cancels

theorem SendState.alike_register (id : String) : s.Alike (s.register id k) :=
  (s.alike_signal (s.inFlight id)).trans (SendState.alike_handles _ _ _)

theorem SendState.alike_unregister (id : String) : s.Alike (s.unregister id k) := by
  rw [SendState.unregister]
  split_ifs
  · exact s.alike_handles _ s.signalled s.cancels
  · exact s.alike_handles s.inFlight s.signalled s.cancels

theorem SendState.alike_cancel (id : String) : s.Alike (s.cancel id) :=
  (s.alike_signal (s.inFlight id)).trans (SendState.alike_handles _ _ _)

/-- A started send is awaited, and nothing else of its request counts any more. -/
theorem SendState.inv_begin (h : s.Inv request resolveEvents) (hidle : s.phase k = .idle) :
    SendState.Inv request resolveEvents { s.setPhase k .sent with
      store := s.store.beginSend (request k)
      last := Function.update s.last (request k) (some k)
      before := Function.update s.before (request k) (s.store.responses (request k)) } where
  right := by
    intro id l hlast
    by_cases hid : id = request k
    · subst hid
      obtain rfl : k = l := by simpa using hlast
      refine ⟨fun _ => by simp [HttpStore.beginSend], fun hall => ?_⟩
      have hsent := hall k rfl
      simp [SendState.setPhase, Phase.isIdle, Phase.isCompleted] at hsent
    · have hlast' : s.last id = some l := by simpa [hid] using hlast
      have hl : l ≠ k := by
        rintro rfl
        exact hid (h.placed id l hlast').symm
      obtain ⟨hwaiting, hdone⟩ := h.right id l hlast'
      refine ⟨fun hw => ?_, fun hall => ?_⟩
      · simpa [HttpStore.beginSend, hid] using
          hwaiting (by simpa [SendState.Waiting, SendState.setPhase, hl] using hw)
      · obtain ⟨cookies, result, hphase, hshown⟩ := hdone fun j hj => by
          have hjk : j ≠ k := by
            rintro rfl
            exact hid hj.symm
          simpa [SendState.setPhase, hjk] using hall j hj
        exact ⟨cookies, result, by simpa [SendState.setPhase, hl] using hphase,
          by simpa [HttpStore.beginSend, hid] using hshown⟩
  placed := by
    intro id l hlast
    by_cases hid : id = request k
    · subst hid
      obtain rfl : k = l := by simpa using hlast
      rfl
    · exact h.placed id l (by simpa [hid] using hlast)
  begun := by
    intro id l hlast
    by_cases hl : l = k
    · subst hl
      simp [SendState.setPhase, Phase.isIdle]
    · have hid : id ≠ request k := by
        rintro rfl
        exact hl (by simpa using hlast.symm)
      simpa [SendState.setPhase, hl] using h.begun id l (by simpa [hid] using hlast)

/-- The send started last of a cancelled request is not awaited any more. -/
theorem SendState.inv_cancelRequest (h : s.Inv request resolveEvents) (id : String) :
    (s.step request resolveEvents (.cancelRequest id)).Inv request resolveEvents where
  right := by
    intro id' l hlast
    obtain ⟨hwaiting, hdone⟩ := h.right id' l hlast
    refine ⟨fun hw => ?_, fun hall => hdone hall⟩
    have hboth : (s.cancelled l || decide (s.last id = some l)) = false := hw.2
    rw [Bool.or_eq_false_iff, decide_eq_false_iff_not] at hboth
    have hid : id' ≠ id := by
      rintro rfl
      exact hboth.2 hlast
    simpa [SendState.step, HttpStore.cancelRequest, hid] using hwaiting ⟨hw.1, hboth.1⟩
  placed := h.placed
  begun := h.begun

/-! ## Delivered results -/

/-- The state behind a delivered result. -/
def SendState.delivered (request : τ → String) (resolveEvents : τ → List TimelineEvent)
    (s : SendState τ) (k : τ) (cookies : CookiesState) (result : SendResult) : SendState τ :=
  { s.setPhase k (.completed cookies result) with
    store := s.store.applySendRequestResult cookies (request k) (resolveEvents k) result }

variable {cookies : CookiesState} {result : SendResult}

theorem SendState.phase_delivered_self :
    (s.delivered request resolveEvents k cookies result).phase k = .completed cookies result := by
  simp [SendState.delivered, SendState.setPhase]

theorem SendState.phase_delivered_of_ne {j : τ} (hj : j ≠ k) :
    (s.delivered request resolveEvents k cookies result).phase j = s.phase j := by
  simp [SendState.delivered, SendState.setPhase, hj]

theorem SendState.waiting_delivered (j : τ) :
    (s.delivered request resolveEvents k cookies result).Waiting j ↔ j ≠ k ∧ s.Waiting j := by
  by_cases hj : j = k
  · subst hj
    simp [SendState.Waiting, phase_delivered_self, Phase.isCompleted]
  · rw [SendState.Waiting, phase_delivered_of_ne hj]
    simp [SendState.Waiting, SendState.delivered, SendState.setPhase, hj]

/-- Every send of the request has completed behind the result, where no other one was under
way. -/
theorem SendState.all_delivered_iff :
    (∀ j, request j = request k →
      ((s.delivered request resolveEvents k cookies result).phase j).isIdle ∨
        ((s.delivered request resolveEvents k cookies result).phase j).isCompleted) ↔
      s.Alone request k := by
  constructor
  · intro hall j hj hk
    simpa only [phase_delivered_of_ne hk] using hall j hj
  · intro halone j hj
    by_cases hk : j = k
    · subst hk
      rw [phase_delivered_self]
      exact Or.inr rfl
    · rw [phase_delivered_of_ne hk]
      exact halone j hj hk

/-- What a result puts on display for its request. -/
theorem SendState.display_delivered :
    ((s.delivered request resolveEvents k cookies result).store.responses (request k),
      (s.delivered request resolveEvents k cookies result).store.errors (request k)) =
    displayed (s.store.responses (request k)) cookies (request k) (resolveEvents k) result := by
  simp [SendState.delivered, responses_applySendRequestResult, errors_applySendRequestResult]

theorem SendState.inv_delivered (h : s.Inv request resolveEvents)
    (hphase : s.phase k = .returned result)
    (hclean : s.Clean request resolveEvents (.deliver k cookies)) :
    (s.delivered request resolveEvents k cookies result).Inv request resolveEvents where
  right := by
    intro id l hlast
    have hlast' : s.last id = some l := hlast
    obtain ⟨hwaiting, hdone⟩ := h.right id l hlast'
    by_cases hid : id = request k
    · subst hid
      obtain ⟨hlater, hthrow, hsame⟩ := hclean result l hphase hlast'
      refine ⟨fun hw => ?_, fun hall => ?_⟩
      · rw [waiting_delivered] at hw
        exact absurd hw.2 (hlater hw.1)
      · rw [all_delivered_iff] at hall
        rw [display_delivered]
        by_cases hl : l = k
        · subst hl
          exact ⟨cookies, result, phase_delivered_self,
            displayed_eq_shown_iff.mpr (hthrow rfl hall)⟩
        · have hcompleted : (s.phase l).isCompleted := by
            simpa [h.begun _ l hlast'] using hall l (h.placed _ l hlast') hl
          cases hl' : s.phase l with
          | completed cookies' result' =>
            exact ⟨cookies', result', by rw [phase_delivered_of_ne hl, hl'],
              hsame hl hall cookies' result' hl'⟩
          | _ => simp [hl', Phase.isCompleted] at hcompleted
    · have hl : l ≠ k := by
        rintro rfl
        exact hid (h.placed id l hlast').symm
      refine ⟨fun hw => ?_, fun hall => ?_⟩
      · rw [waiting_delivered] at hw
        simpa [SendState.delivered, SendState.setPhase, responses_applySendRequestResult,
          errors_applySendRequestResult, loading_applySendRequestResult, hid] using hwaiting hw.2
      · obtain ⟨cookies', result', hphase', hshown⟩ := hdone fun j hj => by
          have hjk : j ≠ k := by
            rintro rfl
            exact hid hj.symm
          simpa only [phase_delivered_of_ne hjk] using hall j hj
        refine ⟨cookies', result', by rw [phase_delivered_of_ne hl, hphase'], ?_⟩
        simpa [SendState.delivered, responses_applySendRequestResult,
          errors_applySendRequestResult, hid] using hshown
  placed := h.placed
  begun := by
    intro id l hlast
    by_cases hl : l = k
    · subst hl
      rw [phase_delivered_self]
      rfl
    · rw [phase_delivered_of_ne hl]
      exact h.begun id l hlast

/-- A result that is not the one to show ends the wait of another send or is left on display. -/
theorem SendState.not_right_delivered (hphase : s.phase k = .returned result)
    (hclean : ¬ s.Clean request resolveEvents (.deliver k cookies)) :
    ¬ (s.delivered request resolveEvents k cookies result).Right request resolveEvents := by
  intro hright
  refine hclean fun result' l hphase' hlast => ?_
  obtain rfl : result = result' := by
    rw [hphase] at hphase'
    exact Phase.returned.inj hphase'
  obtain ⟨hwaiting, hdone⟩ := hright (request k) l hlast
  rw [all_delivered_iff, display_delivered] at hdone
  refine ⟨fun hl hw => ?_, fun hl halone => ?_, fun hl halone cookies' result' hl' => ?_⟩
  · have hloading := (hwaiting ((waiting_delivered l).mpr ⟨hl, hw⟩)).1
    simp [SendState.delivered, loading_applySendRequestResult] at hloading
  · subst hl
    obtain ⟨cookies', result', hcompleted, hshown⟩ := hdone halone
    rw [phase_delivered_self] at hcompleted
    obtain ⟨rfl, rfl⟩ := Phase.completed.inj hcompleted
    exact displayed_eq_shown_iff.mp hshown
  · obtain ⟨cookies'', result'', hcompleted, hshown⟩ := hdone halone
    rw [phase_delivered_of_ne hl, hl'] at hcompleted
    obtain ⟨rfl, rfl⟩ := Phase.completed.inj hcompleted
    exact hshown

/-! ## Which runs are good -/

theorem SendState.step_deliver (hphase : s.phase k = .returned result) :
    s.step request resolveEvents (.deliver k cookies) =
      s.delivered request resolveEvents k cookies result := by
  simp only [SendState.step, hphase, SendState.delivered]

theorem SendState.inv_step {a : SendStep τ} (h : s.Inv request resolveEvents)
    (hclean : s.Clean request resolveEvents a) :
    (s.step request resolveEvents a).Inv request resolveEvents := by
  cases a with
  | start k =>
    rw [SendState.step]
    split_ifs with hidle
    · exact inv_begin h hidle
    · exact h
  | refuse k result =>
    rw [SendState.step]
    split_ifs with hsent
    · exact h.of_alike (alike_setPhase (by simp [hsent.1, Phase.isIdle])
        (by simp [hsent.1, Phase.isCompleted]) rfl rfl)
    · exact h
  | register k =>
    rw [SendState.step]
    split_ifs with hsent
    · have hkept : (s.register (request k) k).phase k = .sent := by
        rw [← hsent]
        cases hflight : s.inFlight (request k) <;>
          simp [SendState.register, SendState.signal, hflight]
      exact (h.of_alike (s.alike_register (request k))).of_alike (alike_setPhase
        (by simp [hkept, Phase.isIdle]) (by simp [hkept, Phase.isCompleted]) rfl rfl)
    · exact h
  | settle k result =>
    rw [SendState.step]
    split_ifs with hregistered
    · exact h.of_alike (alike_setPhase (by simp [hregistered.1, Phase.isIdle])
        (by simp [hregistered.1, Phase.isCompleted]) rfl rfl)
    · exact h
  | unregister k =>
    rw [SendState.step]
    split
    · rename_i result hsettled
      have hkept : (s.unregister (request k) k).phase k = .settled result := by
        rw [← hsettled, SendState.unregister]
        split_ifs <;> rfl
      exact (h.of_alike (s.alike_unregister (request k))).of_alike (alike_setPhase
        (by simp [hkept, Phase.isIdle]) (by simp [hkept, Phase.isCompleted]) rfl rfl)
    · exact h
  | deliver k cookies =>
    cases hphase : s.phase k with
    | returned result =>
      rw [step_deliver hphase]
      exact inv_delivered h hphase hclean
    | _ => simpa only [SendState.step, hphase] using h
  | cancelRequest id => exact inv_cancelRequest h id
  | cancel id =>
    rw [SendState.step]
    split_ifs
    · exact h
    · exact (h.of_alike (s.alike_cancel id)).of_alike (SendState.alike_handles _ _ _)

theorem SendState.not_right_step {a : SendStep τ} (hclean : ¬ s.Clean request resolveEvents a) :
    ¬ (s.step request resolveEvents a).Right request resolveEvents := by
  cases a with
  | deliver k cookies =>
    cases hphase : s.phase k with
    | returned result =>
      rw [step_deliver hphase]
      exact not_right_delivered hphase hclean
    | _ =>
      refine absurd (fun result l hphase' => ?_) hclean
      rw [hphase] at hphase'
      cases hphase'
  | start k => exact absurd trivial hclean
  | refuse k result => exact absurd trivial hclean
  | register k => exact absurd trivial hclean
  | settle k result => exact absurd trivial hclean
  | unregister k => exact absurd trivial hclean
  | cancelRequest id => exact absurd trivial hclean
  | cancel id => exact absurd trivial hclean

end

/-- The window shows the send started last all along a run exactly if each result is delivered
while no later send is awaited, and the one delivered last shows what that send shows. -/
theorem latest_send_wins_iff [DecidableEq τ] (request : τ → String)
    (resolveEvents : τ → List TimelineEvent) (store : HttpStore) (steps : List (SendStep τ)) :
    (∀ front, front <+: steps →
      (Runs.run (SendState.step request resolveEvents) (.start store) front).Right request
        resolveEvents) ↔
      ∀ front a, front ++ [a] <+: steps →
        (Runs.run (SendState.step request resolveEvents) (.start store) front).Clean request
          resolveEvents a :=
  Runs.holds_along_iff (SendState.step request resolveEvents)
    (SendState.Inv request resolveEvents) (SendState.Right request resolveEvents)
    (SendState.Clean request resolveEvents) (fun _ h => h.right)
    (fun _ _ => SendState.inv_step) (fun _ _ _ => SendState.not_right_step)
    (SendState.inv_start store) steps

/-- A cancelled send returns behind the start of the next one, and ends its wait. -/
theorem cancelled_send_ends_wait :
    ¬ (Runs.run (SendState.step (τ := ℕ) (fun _ => "r1") fun _ => [])
      (.start ⟨fun _ => none, fun _ => false, fun _ => none⟩)
      [.start 0, .register 0, .cancelRequest "r1", .cancel "r1", .settle 0 (.error .cancelled),
        .unregister 0, .start 1, .deliver 0 ⟨[], none⟩]).Right (fun _ => "r1") fun _ => [] := by
  intro hright
  obtain ⟨hwaiting, -⟩ := hright "r1" 1 (by decide)
  obtain ⟨hloading, -⟩ := hwaiting ⟨by decide, by decide⟩
  exact absurd hloading (by decide)

end Voleeo.Web
