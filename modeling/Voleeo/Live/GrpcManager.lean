import Voleeo.Live.Registry
import Voleeo.Runs
import Voleeo.Live.WsManager

/-!
# Live gRPC streams

The reader of a call is spawned before the call is registered, so that it can end
before that. A reader that has left its loop removes whatever entry its id then has.
-/
namespace Voleeo.Live.GrpcManager

inductive Step (ι τ : Type)
  | spawn (k : τ)
  | insert (k : τ)
  /-- The reader leaves its loop. -/
  | leave (k : τ)
  /-- An aborted reader stops. -/
  | drop (k : τ)
  | forget (k : τ)
  | closeSend (i : ι)
  | cancel (i : ι)

variable {ι τ : Type}

section
variable [DecidableEq ι] [DecidableEq τ]

/-- Drop the sender of the entry. -/
def closeSend (s : State ι τ) (i : ι) : State ι τ :=
  { s with
    registry := Function.update s.registry i
      ((s.registry i).map fun call => { call with outbound := none })
    halfClosed := fun k => s.halfClosed k || decide (s.last i = some k) }

/-- A server-streaming call has no sender. -/
def liveCall (sends : τ → Bool) (k : τ) : Entry τ where
  outbound := if sends k then some k else none
  reader := some k

/-- One step of any task. A task that is not at this step does nothing. -/
def step (ident : τ → ι) (sends : τ → Bool) (s : State ι τ) : Step ι τ → State ι τ
  | .spawn k =>
    if s.phase k = .connecting then (s.setTask k .running).setPhase k .spawned else s
  | .insert k =>
    if s.phase k = .spawned then
      (s.insert (ident k) k (liveCall sends k)).setPhase k .connected
    else s
  | .leave k => if (s.reader k).task = .running then s.setTask k .leaving else s
  | .drop k =>
    if (s.reader k).task = .running ∧ (s.reader k).aborted = true then s.setTask k .finished
    else s
  | .forget k => if (s.reader k).task = .leaving then s.teardown (ident k) k else s
  | .closeSend i => closeSend s i
  | .cancel i => s.remove i

end

/-- A call is registered while its reader has not removed anything yet, and a reader removes no
other call's entry. -/
def Clean (ident : τ → ι) (s : State ι τ) : Step ι τ → Prop
  | .insert k => s.phase k = .spawned → s.ended k = false
  | .forget k =>
    (s.reader k).task = .leaving → ∀ e, s.registry (ident k) = some e → e.reader = some k
  | _ => True

/-- The entry has the reader of the call, and its sender until the client side is closed. -/
def owns (sends halfClosed : τ → Bool) : Owns τ := fun _ k e =>
  e.reader = some k ∧ e.outbound = if sends k && !halfClosed k then some k else none

/-- What every step keeps that touches no other call's entry. -/
structure Inv (ident : τ → ι) (sends : τ → Bool) (s : State ι τ) : Prop where
  entry : s.OneEntry (owns sends s.halfClosed)
  handles : s.HandlesKept ident
  placed : ∀ i k, s.last i = some k → ident k = i
  begun : ∀ i k, s.last i = some k → s.phase k = .connected
  fresh : ∀ k, s.phase k ≠ .connected → s.disconnected k = false ∧ s.halfClosed k = false

theorem inv_start (ident : τ → ι) (sends : τ → Bool) : Inv ident sends State.start where
  entry _ := Or.inl ⟨rfl, rfl⟩
  handles _ h := by cases h
  placed _ _ h := by cases h
  begun _ _ h := by cases h
  fresh _ _ := ⟨rfl, rfl⟩

variable {ident : τ → ι} {sends : τ → Bool} {s : State ι τ} {k : τ}

section
variable [DecidableEq τ]

theorem inv_spawn (h : Inv ident sends s) (hphase : s.phase k = .connecting) :
    Inv ident sends ((s.setTask k .running).setPhase k .spawned) where
  entry := State.OneEntry.setPhase h.entry fun _ howns => howns
  handles := by
    intro j hconnected hruns
    have hj : j ≠ k := by
      rintro rfl
      simp [State.setPhase] at hconnected
    have hset : (s.setTask k .running).Runs j := hruns
    rw [runs_setTask, if_neg hj] at hset
    exact h.handles j (by simpa [State.setPhase, State.setTask, hj] using hconnected) hset
  placed := h.placed
  begun := by
    intro i k' hlast
    have hk : k' ≠ k := by
      rintro rfl
      rw [h.begun i k' hlast] at hphase
      cases hphase
    simpa [State.setPhase, State.setTask, hk] using h.begun i k' hlast
  fresh := by
    intro k' hk'
    by_cases hk : k' = k
    · subst hk
      exact h.fresh k' (by simp [hphase])
    · exact h.fresh k' (by simpa [State.setPhase, State.setTask, hk] using hk')

/-- A reader goes on behind its loop, or stops. -/
theorem inv_setTask (h : Inv ident sends s) {task : Task} (htask : task ≠ .running) :
    Inv ident sends (s.setTask k task) where
  entry := h.entry
  handles := by
    intro j hconnected hruns
    rw [runs_setTask] at hruns
    split_ifs at hruns with hj
    · exact absurd hruns.1 htask
    · exact h.handles j hconnected hruns
  placed := h.placed
  begun := h.begun
  fresh := h.fresh

end

variable [DecidableEq ι] [DecidableEq τ]

theorem inv_insert (h : Inv ident sends s) (hphase : s.phase k = .spawned)
    (hended : s.ended k = false) :
    Inv ident sends ((s.insert (ident k) k (liveCall sends k)).setPhase k .connected) where
  entry := by
    obtain ⟨hopen, hsending⟩ := h.fresh k (by simp [hphase])
    have hkept : (s.insert (ident k) k (liveCall sends k)).OneEntry (owns sends s.halfClosed) := by
      refine h.entry.insert hended hopen ⟨rfl, ?_⟩
      simp [liveCall, hsending]
    have hsame : ((s.insert (ident k) k (liveCall sends k)).setPhase k .connected).halfClosed =
        s.halfClosed := by
      simp [State.setPhase, State.insert]
    rw [hsame]
    exact hkept.setPhase fun _ howns => howns
  handles := by
    intro j hconnected hruns
    by_cases hj : j = k
    · subst hj
      exact ⟨liveCall sends j, by simp [State.setPhase, State.insert], rfl⟩
    · exact handles_insert h.handles
        (by simpa [State.setPhase, State.insert, hj] using hconnected) hruns
  placed := by
    intro i k' hlast
    by_cases hi : i = ident k
    · subst hi
      obtain rfl : k = k' := by simpa [State.setPhase, State.insert] using hlast
      rfl
    · exact h.placed i k' (by simpa [State.setPhase, State.insert, hi] using hlast)
  begun := by
    intro i k' hlast
    by_cases hk : k' = k
    · subst hk
      simp [State.setPhase]
    · have hold : s.last i = some k' := by
        by_cases hi : i = ident k
        · subst hi
          exact absurd (by simpa [State.setPhase, State.insert] using hlast.symm) hk
        · simpa [State.setPhase, State.insert, hi] using hlast
      simpa [State.setPhase, State.insert, hk] using h.begun i k' hold
  fresh := by
    intro k' hk'
    have hk : k' ≠ k := by
      rintro rfl
      simp [State.setPhase] at hk'
    simpa [State.setPhase, State.insert] using
      h.fresh k' (by simpa [State.setPhase, State.insert, hk] using hk')

theorem inv_teardown (h : Inv ident sends s)
    (hclean : ∀ e, s.registry (ident k) = some e → e.reader = some k) :
    Inv ident sends (s.teardown (ident k) k) where
  entry := by
    refine h.entry.teardown (fun j hlive => (h.placed j k (live_eq_some.mp hlive).1).symm) ?_
    intro k' hlive
    obtain ⟨e, he, hreader, -⟩ := h.entry.of_live hlive
    exact Option.some.inj (hreader.symm.trans (hclean e he))
  handles := by
    refine handles_teardown h.handles fun e j he hreader => ?_
    exact Option.some.inj (hreader.symm.trans (hclean e he))
  placed := h.placed
  begun := h.begun
  fresh := h.fresh

theorem inv_closeSend (h : Inv ident sends s) (i : ι) : Inv ident sends (closeSend s i) where
  entry := by
    intro j
    have hlive : (closeSend s i).live j = s.live j := rfl
    rw [hlive]
    rcases h.entry j with ⟨hnone, he⟩ | ⟨k, e, hsome, he, hreader, hout⟩
    · refine Or.inl ⟨hnone, ?_⟩
      by_cases hj : j = i
      · subst hj
        simp [closeSend, he]
      · simpa [closeSend, hj] using he
    · have hlast := (live_eq_some.mp hsome).1
      by_cases hj : j = i
      · subst hj
        exact Or.inr ⟨k, { e with outbound := none }, hsome, by simp [closeSend, he], hreader,
          by simp [closeSend, hlast]⟩
      · have hnot : s.last i ≠ some k := by
          intro hi
          exact hj ((h.placed j k hlast).symm.trans (h.placed i k hi))
        exact Or.inr ⟨k, e, hsome, by simpa [closeSend, hj] using he, hreader,
          by simpa [closeSend, hnot] using hout⟩
  handles := by
    intro j hconnected hruns
    obtain ⟨e, he, hreader⟩ := h.handles j hconnected hruns
    by_cases hj : ident j = i
    · subst hj
      exact ⟨{ e with outbound := none }, by simp [closeSend, he], hreader⟩
    · exact ⟨e, by simpa [closeSend, hj] using he, hreader⟩
  placed := h.placed
  begun := h.begun
  fresh := by
    intro k hk
    have hnot : s.last i ≠ some k := fun hlast => hk (h.begun i k hlast)
    simpa [closeSend, hnot] using h.fresh k hk

theorem inv_remove (h : Inv ident sends s) (i : ι) : Inv ident sends (s.remove i) where
  entry := by
    have hkept := h.entry.remove (i := i) h.placed
    simpa [State.remove] using hkept
  handles := handles_remove h.handles
  placed i' k' hlast := h.placed i' k' (by simpa [State.remove] using hlast)
  begun i' k' hlast := by
    simpa [State.remove] using h.begun i' k' (by simpa [State.remove] using hlast)
  fresh k' hk' := by
    have hphase : s.phase k' ≠ .connected := by simpa [State.remove] using hk'
    have hnot : s.last i ≠ some k' := fun hlast => hphase (h.begun i k' hlast)
    simpa [State.remove, hnot] using h.fresh k' hphase

/-! ## Which runs are good -/

theorem inv_step {a : Step ι τ} (h : Inv ident sends s) (hclean : Clean ident s a) :
    Inv ident sends (step ident sends s a) := by
  cases a with
  | spawn k =>
    rw [step]
    split_ifs with hphase
    · exact inv_spawn h hphase
    · exact h
  | insert k =>
    by_cases hphase : s.phase k = .spawned
    · rw [step, if_pos hphase]
      exact inv_insert h hphase (hclean hphase)
    · rw [step, if_neg hphase]
      exact h
  | leave k =>
    rw [step]
    split_ifs
    · exact inv_setTask h (by decide)
    · exact h
  | drop k =>
    rw [step]
    split_ifs
    · exact inv_setTask h (by decide)
    · exact h
  | forget k =>
    rw [step]
    split_ifs with hleaving
    · exact inv_teardown h (hclean hleaving)
    · exact h
  | closeSend i => exact inv_closeSend h i
  | cancel i => exact inv_remove h i

/-- What holds of the registry at every moment of a run that is right. -/
def Right (ident : τ → ι) (sends : τ → Bool) (s : State ι τ) : Prop :=
  s.OneEntry (owns sends s.halfClosed) ∧ s.NoReaderLeft ident

omit [DecidableEq ι] [DecidableEq τ] in
theorem Inv.right (h : Inv ident sends s) : Right ident sends s :=
  ⟨h.entry, .of_handles h.entry h.handles⟩

/-- A call that has ended and is registered then leaves an entry behind, and one that removes
another call's entry leaves that call without one. -/
theorem not_right_step {a : Step ι τ} (h : Inv ident sends s) (hclean : ¬ Clean ident s a) :
    ¬ Right ident sends (step ident sends s a) := by
  rintro ⟨hentry, -⟩
  cases a with
  | insert k =>
    simp only [Clean, not_forall, Bool.not_eq_false] at hclean
    obtain ⟨hphase, hended⟩ := hclean
    rw [step, if_pos hphase] at hentry
    have hleft : ((s.insert (ident k) k (liveCall sends k)).setPhase k .connected).registry
        (ident k) = some (liveCall sends k) := by
      simp [State.setPhase, State.insert]
    obtain ⟨k', hlive, -⟩ := hentry.of_registry hleft
    obtain ⟨hlast, hnot, -⟩ := live_eq_some.mp hlive
    obtain rfl : k = k' := by simpa [State.setPhase, State.insert] using hlast
    simp [State.setPhase, State.insert, hended] at hnot
  | forget k =>
    simp only [Clean, not_forall] at hclean
    obtain ⟨hleaving, e, he, hother⟩ := hclean
    obtain ⟨k', hlive, hreader, -⟩ := h.entry.of_registry he
    have hk : k' ≠ k := fun hk => hother (hk ▸ hreader)
    rw [step, if_pos hleaving] at hentry
    have hkept : (s.teardown (ident k) k).live (ident k) = some k' := by
      simp [live_teardown, hlive, Option.filter, hk]
    obtain ⟨e', hgone, -⟩ := hentry.of_live hkept
    simp [State.teardown] at hgone
  | spawn k => exact hclean trivial
  | leave k => exact hclean trivial
  | drop k => exact hclean trivial
  | closeSend i => exact hclean trivial
  | cancel i => exact hclean trivial

/-- A run is right all along exactly if each call is registered before it ends, and removes no
other call's entry. -/
theorem right_along_iff (ident : τ → ι) (sends : τ → Bool) (steps : List (Step ι τ)) :
    (∀ front, front <+: steps → Right ident sends (Runs.run (step ident sends) .start front)) ↔
      ∀ front a, front ++ [a] <+: steps →
        Clean ident (Runs.run (step ident sends) .start front) a :=
  Runs.holds_along_iff (step ident sends) (Inv ident sends) (Right ident sends) (Clean ident)
    (fun _ h => h.right) (fun _ _ => inv_step) (fun _ _ => not_right_step)
    (inv_start ident sends) steps

end Voleeo.Live.GrpcManager

/-!
## Live calls of both managers

Entries are removed by their id, so that a reader can remove the entry of a newer call. A WebSocket
handle is stored by its id too, and a gRPC call can end before it is registered. Any other order of
the steps leaves each id with the entry of its live call.
-/
namespace Voleeo.Live

theorem live_calls_right_iff {ι τ : Type} [DecidableEq ι] [DecidableEq τ] (ident : τ → ι)
    (sends : τ → Bool) :
    (∀ steps : List (WsManager.Step ι τ),
      (∀ front, front <+: steps →
        WsManager.Right ident (Runs.run (WsManager.step ident) .start front)) ↔
      ∀ front a, front ++ [a] <+: steps →
        WsManager.Clean ident (Runs.run (WsManager.step ident) .start front) a) ∧
    ∀ steps : List (GrpcManager.Step ι τ),
      (∀ front, front <+: steps →
        GrpcManager.Right ident sends (Runs.run (GrpcManager.step ident sends) .start front)) ↔
      ∀ front a, front ++ [a] <+: steps →
        GrpcManager.Clean ident (Runs.run (GrpcManager.step ident sends) .start front) a :=
  ⟨WsManager.right_along_iff ident, GrpcManager.right_along_iff ident sends⟩

/-- The reader of the first connection ends behind a reconnect and removes the entry of the second
one. A stream ends before it is registered, and its entry stays. -/
theorem teardown_removes_newer :
    ¬ WsManager.Right (fun _ : ℕ => 0)
      (Runs.run (WsManager.step fun _ => 0) .start
        [.insert 0, .spawn 0, .store 0, .leave 0, .insert 1, .teardown 0]) ∧
    ¬ GrpcManager.Right (fun _ : ℕ => 0) (fun _ => false)
      (Runs.run (GrpcManager.step (fun _ => 0) fun _ => false) .start
        [.spawn 0, .leave 0, .forget 0, .insert 0]) := by
  constructor
  · rintro ⟨hentry, -⟩
    obtain ⟨e, he, -⟩ := hentry.of_live (i := 0) (k := 1) (by decide)
    exact absurd he (by simp [Runs.run, WsManager.step, State.teardown, State.setTask, State.insert,
      State.setPhase, WsManager.storeHandle, State.abort, State.start])
  · rintro ⟨hentry, -⟩
    obtain ⟨k, hlive, -⟩ := hentry.of_registry (i := 0) (e := ⟨none, some 0⟩) (by decide)
    rw [show State.live _ 0 = none by decide] at hlive
    cases hlive

end Voleeo.Live
