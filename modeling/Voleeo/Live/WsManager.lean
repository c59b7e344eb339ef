import Voleeo.Live.Registry
import Voleeo.Runs

/-!
# Live WebSocket connections

A connection is registered before its reader is spawned, and the handle of the
reader is stored afterwards, in whatever entry the id then has. A reader that has
left its loop removes whatever entry its id then has.
-/
namespace Voleeo.Live.WsManager

inductive Step (ι τ : Type)
  | insert (k : τ)
  | spawn (k : τ)
  | store (k : τ)
  /-- The reader leaves its loop. -/
  | leave (k : τ)
  /-- An aborted reader stops. -/
  | drop (k : τ)
  | teardown (k : τ)
  | disconnect (i : ι)

variable {ι τ : Type}

section
variable [DecidableEq ι] [DecidableEq τ] (ident : τ → ι)

/-- Store the handle in the entry of the id. Without an entry the reader is aborted. -/
def storeHandle (s : State ι τ) (k : τ) : State ι τ :=
  match s.registry (ident k) with
  | some conn =>
    { s with
      registry := Function.update s.registry (ident k) (some { conn with reader := some k }) }
  | none => s.abort (some k)

/-- One step of any task. A task that is not at this step does nothing. -/
def step (s : State ι τ) : Step ι τ → State ι τ
  | .insert k =>
    if s.phase k = .connecting then
      (s.insert (ident k) k { outbound := some k, reader := none }).setPhase k .inserted
    else s
  | .spawn k =>
    if s.phase k = .inserted then (s.setTask k .running).setPhase k .spawned else s
  | .store k =>
    if s.phase k = .spawned then (storeHandle ident s k).setPhase k .connected else s
  | .leave k => if (s.reader k).task = .running then s.setTask k .leaving else s
  | .drop k =>
    if (s.reader k).task = .running ∧ (s.reader k).aborted = true then s.setTask k .finished
    else s
  | .teardown k => if (s.reader k).task = .leaving then s.teardown (ident k) k else s
  | .disconnect i => s.remove i

/-- No step touches the entry of another call: a handle is stored and a reader removes its entry
only while the id has the entry of that call, or none. -/
def Clean (s : State ι τ) : Step ι τ → Prop
  | .store k => s.phase k = .spawned → ∀ e, s.registry (ident k) = some e → e.outbound = some k
  | .teardown k =>
    (s.reader k).task = .leaving → ∀ e, s.registry (ident k) = some e → e.outbound = some k
  | _ => True

end

/-- The entry has the sender of the call, and its reader as soon as the handle is stored. -/
def owns : Owns τ := fun phase k e =>
  e.outbound = some k ∧ e.reader = if phase = .connected then some k else none

/-- What every step keeps that touches no other call's entry. -/
structure Inv (ident : τ → ι) (s : State ι τ) : Prop where
  entry : s.OneEntry owns
  handles : s.HandlesKept ident
  placed : ∀ i k, s.last i = some k → ident k = i
  begun : ∀ i k, s.last i = some k → s.phase k ≠ .connecting
  fresh : ∀ k, s.phase k = .connecting → s.ended k = false ∧ s.disconnected k = false
  unspawned : ∀ k, s.phase k = .connecting ∨ s.phase k = .inserted →
    (s.reader k).task = .unspawned

theorem inv_start (ident : τ → ι) : Inv ident State.start where
  entry _ := Or.inl ⟨rfl, rfl⟩
  handles _ h := by cases h
  placed _ _ h := by cases h
  begun _ _ h := by cases h
  fresh _ _ := ⟨rfl, rfl⟩
  unspawned _ _ := rfl

variable [DecidableEq ι] [DecidableEq τ] {ident : τ → ι} {s : State ι τ} {k : τ}

theorem inv_insert (h : Inv ident s) (hphase : s.phase k = .connecting) :
    Inv ident ((s.insert (ident k) k { outbound := some k, reader := none }).setPhase k .inserted)
    where
  entry := by
    obtain ⟨hended, hopen⟩ := h.fresh k hphase
    refine State.OneEntry.setPhase (h.entry.insert hended hopen ?_) ?_
    · exact ⟨rfl, by simp [hphase]⟩
    · rintro e ⟨hout, hreader⟩
      exact ⟨hout, by simpa [State.insert, hphase] using hreader⟩
  handles := by
    intro j hconnected hruns
    have hj : j ≠ k := by
      rintro rfl
      simp [State.setPhase] at hconnected
    exact handles_insert h.handles
      (by simpa [State.setPhase, State.insert, hj] using hconnected) hruns
  placed := by
    intro i k' hlast
    by_cases hi : i = ident k
    · subst hi
      obtain rfl : k = k' := by simpa [State.setPhase, State.insert] using hlast
      rfl
    · exact h.placed i k' (by simpa [State.setPhase, State.insert, hi] using hlast)
  begun := by
    intro i k' hlast
    by_cases hk : k' = k
    · subst hk
      simp [State.setPhase]
    · have hold : s.last i = some k' := by
        by_cases hi : i = ident k
        · subst hi
          exact absurd (by simpa [State.setPhase, State.insert] using hlast.symm) hk
        · simpa [State.setPhase, State.insert, hi] using hlast
      simpa [State.setPhase, State.insert, hk] using h.begun i k' hold
  fresh := by
    intro k' hk'
    have hk : k' ≠ k := by
      rintro rfl
      simp [State.setPhase] at hk'
    simpa [State.setPhase, State.insert] using
      h.fresh k' (by simpa [State.setPhase, State.insert, hk] using hk')
  unspawned := by
    intro k' hk'
    by_cases hk : k' = k
    · subst hk
      simpa [State.setPhase, State.insert] using h.unspawned k' (Or.inl hphase)
    · simpa [State.setPhase, State.insert] using
        h.unspawned k' (by simpa [State.setPhase, State.insert, hk] using hk')

omit [DecidableEq ι] in
theorem inv_spawn (h : Inv ident s) (hphase : s.phase k = .inserted) :
    Inv ident ((s.setTask k .running).setPhase k .spawned) where
  entry := by
    refine State.OneEntry.setPhase h.entry ?_
    rintro e ⟨hout, hreader⟩
    exact ⟨hout, by simpa [State.setTask, hphase] using hreader⟩
  handles := by
    intro j hconnected hruns
    have hj : j ≠ k := by
      rintro rfl
      simp [State.setPhase] at hconnected
    have hset : (s.setTask k .running).Runs j := hruns
    rw [runs_setTask, if_neg hj] at hset
    exact h.handles j (by simpa [State.setPhase, State.setTask, hj] using hconnected) hset
  placed := h.placed
  begun := by
    intro i k' hlast
    by_cases hk : k' = k
    · subst hk
      simp [State.setPhase]
    · simpa [State.setPhase, State.setTask, hk] using h.begun i k' hlast
  fresh := by
    intro k' hk'
    have hk : k' ≠ k := by
      rintro rfl
      simp [State.setPhase] at hk'
    exact h.fresh k' (by simpa [State.setPhase, State.setTask, hk] using hk')
  unspawned := by
    intro k' hk'
    have hk : k' ≠ k := by
      rintro rfl
      simp [State.setPhase] at hk'
    simpa [State.setPhase, State.setTask, hk] using
      h.unspawned k' (by simpa [State.setPhase, State.setTask, hk] using hk')

@[simp] theorem last_storeHandle : (storeHandle ident s k).last = s.last := by
  rw [storeHandle]
  split <;> simp

@[simp] theorem phase_storeHandle : (storeHandle ident s k).phase = s.phase := by
  rw [storeHandle]
  split <;> simp

@[simp] theorem ended_storeHandle : (storeHandle ident s k).ended = s.ended := by
  rw [storeHandle]
  split <;> simp

@[simp] theorem disconnected_storeHandle :
    (storeHandle ident s k).disconnected = s.disconnected := by
  rw [storeHandle]
  split <;> simp

@[simp] theorem task_storeHandle (j : τ) :
    ((storeHandle ident s k).reader j).task = (s.reader j).task := by
  rw [storeHandle]
  split <;> simp

/-- The live call of an id gets its handle stored, and no other call has it. -/
theorem entry_store (h : Inv ident s) (hclean : ∀ e, s.registry (ident k) = some e →
      e.outbound = some k) : ((storeHandle ident s k).setPhase k .connected).OneEntry owns := by
  intro j
  have hlive : ((storeHandle ident s k).setPhase k .connected).live j = s.live j := by
    simp [State.live, State.setPhase]
  rw [hlive]
  rcases h.entry j with ⟨hnone, he⟩ | ⟨k', e, hsome, he, hout, hreader⟩
  · refine Or.inl ⟨hnone, ?_⟩
    rw [State.setPhase, storeHandle]
    split
    · rename_i conn hconn
      have hj : j ≠ ident k := by
        rintro rfl
        rw [he] at hconn
        cases hconn
      simpa [hj] using he
    · simpa using he
  · have hid : ident k' = j := h.placed j k' (live_eq_some.mp hsome).1
    by_cases hk : k' = k
    · subst hk
      subst hid
      exact Or.inr ⟨k', { e with reader := some k' }, hsome,
        by simp [State.setPhase, storeHandle, he], hout, by simp [State.setPhase]⟩
    · have hj : j ≠ ident k := by
        rintro rfl
        exact hk (Option.some.inj (hout.symm.trans (hclean e he)))
      refine Or.inr ⟨k', e, hsome, ?_, hout, ?_⟩
      · rw [State.setPhase, storeHandle]
        split
        · simpa [hj] using he
        · simpa using he
      · simpa [State.setPhase, hk] using hreader

theorem inv_store (h : Inv ident s) (hphase : s.phase k = .spawned)
    (hclean : ∀ e, s.registry (ident k) = some e → e.outbound = some k) :
    Inv ident ((storeHandle ident s k).setPhase k .connected) where
  entry := entry_store h hclean
  handles := by
    intro j hconnected hruns
    have hruns' : (storeHandle ident s k).Runs j := hruns
    rw [storeHandle] at hruns'
    by_cases hj : j = k
    · subst hj
      split at hruns'
      · rename_i conn hconn
        exact ⟨{ conn with reader := some j }, by simp [State.setPhase, storeHandle, hconn], rfl⟩
      · exact absurd rfl ((runs_abort _ j).mp hruns').2
    · have hold : s.Runs j := by
        split at hruns'
        · exact hruns'
        · exact ((runs_abort _ j).mp hruns').1
      obtain ⟨e, he, hreader⟩ := h.handles j (by simpa [State.setPhase, hj] using hconnected) hold
      have hid : ident j ≠ ident k := by
        intro hid
        rw [hid] at he
        obtain ⟨k', -, hout, hhandle⟩ := h.entry.of_registry he
        obtain rfl : k' = k := Option.some.inj (hout.symm.trans (hclean e he))
        rw [hphase, hreader] at hhandle
        cases hhandle
      refine ⟨e, ?_, hreader⟩
      rw [State.setPhase, storeHandle]
      split
      · simpa [hid] using he
      · simpa using he
  placed := by
    intro i k' hlast
    exact h.placed i k' (by simpa [State.setPhase] using hlast)
  begun := by
    intro i k' hlast
    by_cases hk : k' = k
    · subst hk
      simp [State.setPhase]
    · simpa [State.setPhase, hk] using h.begun i k' (by simpa [State.setPhase] using hlast)
  fresh := by
    intro k' hk'
    have hk : k' ≠ k := by
      rintro rfl
      simp [State.setPhase] at hk'
    simpa [State.setPhase] using h.fresh k' (by simpa [State.setPhase, hk] using hk')
  unspawned := by
    intro k' hk'
    have hk : k' ≠ k := by
      rintro rfl
      simp [State.setPhase] at hk'
    simpa [State.setPhase] using h.unspawned k' (by simpa [State.setPhase, hk] using hk')

omit [DecidableEq ι] in
/-- A reader goes on behind its loop, or stops. -/
theorem inv_setTask (h : Inv ident s) {task : Task} (hspawned : (s.reader k).task ≠ .unspawned)
    (htask : task ≠ .running) : Inv ident (s.setTask k task) where
  entry := h.entry
  handles := by
    intro j hconnected hruns
    rw [runs_setTask] at hruns
    split_ifs at hruns with hj
    · exact absurd hruns.1 htask
    · exact h.handles j hconnected hruns
  placed := h.placed
  begun := h.begun
  fresh := h.fresh
  unspawned := by
    intro k' hk'
    have hk : k' ≠ k := by
      rintro rfl
      exact hspawned (h.unspawned k' hk')
    simpa [State.setTask, hk] using h.unspawned k' hk'

theorem inv_teardown (h : Inv ident s) (hleaving : (s.reader k).task = .leaving)
    (hclean : ∀ e, s.registry (ident k) = some e → e.outbound = some k) :
    Inv ident (s.teardown (ident k) k) where
  entry := by
    refine h.entry.teardown (fun j hlive => (h.placed j k (live_eq_some.mp hlive).1).symm) ?_
    intro k' hlive
    obtain ⟨e, he, hout, -⟩ := h.entry.of_live hlive
    exact Option.some.inj (hout.symm.trans (hclean e he))
  handles := by
    refine handles_teardown h.handles fun e j he hreader => ?_
    obtain ⟨k', -, hout, hhandle⟩ := h.entry.of_registry he
    obtain rfl : k' = k := Option.some.inj (hout.symm.trans (hclean e he))
    rw [hreader] at hhandle
    split_ifs at hhandle
    exact Option.some.inj hhandle
  placed := h.placed
  begun := h.begun
  fresh := by
    intro k' hk'
    have hk : k' ≠ k := by
      rintro rfl
      rw [h.unspawned k' (Or.inl hk')] at hleaving
      cases hleaving
    simpa [State.teardown, State.setTask, hk] using h.fresh k' hk'
  unspawned := by
    intro k' hk'
    have hk : k' ≠ k := by
      rintro rfl
      rw [h.unspawned k' hk'] at hleaving
      cases hleaving
    simpa [State.teardown, State.setTask, hk] using h.unspawned k' hk'

theorem inv_remove (h : Inv ident s) (i : ι) : Inv ident (s.remove i) where
  entry := h.entry.remove h.placed
  handles := handles_remove h.handles
  placed i' k' hlast := h.placed i' k' (by simpa [State.remove] using hlast)
  begun i' k' hlast := by
    simpa [State.remove] using h.begun i' k' (by simpa [State.remove] using hlast)
  fresh k' hk' := by
    have hphase : s.phase k' = .connecting := by simpa [State.remove] using hk'
    have hnot : s.last i ≠ some k' := fun hlast => h.begun i k' hlast hphase
    simpa [State.remove, hnot] using h.fresh k' hphase
  unspawned k' hk' := by
    simpa [State.remove] using h.unspawned k' (by simpa [State.remove] using hk')

/-! ## Which runs are good -/

theorem inv_step {a : Step ι τ} (h : Inv ident s) (hclean : Clean ident s a) :
    Inv ident (step ident s a) := by
  cases a with
  | insert k =>
    rw [step]
    split_ifs with hphase
    · exact inv_insert h hphase
    · exact h
  | spawn k =>
    rw [step]
    split_ifs with hphase
    · exact inv_spawn h hphase
    · exact h
  | store k =>
    rw [step]
    split_ifs with hphase
    · exact inv_store h hphase (hclean hphase)
    · exact h
  | leave k =>
    rw [step]
    split_ifs with hrunning
    · exact inv_setTask h (by simp [hrunning]) (by decide)
    · exact h
  | drop k =>
    rw [step]
    split_ifs with hstopped
    · exact inv_setTask h (by simp [hstopped.1]) (by decide)
    · exact h
  | teardown k =>
    rw [step]
    split_ifs with hleaving
    · exact inv_teardown h hleaving (hclean hleaving)
    · exact h
  | disconnect i => exact inv_remove h i

/-- What holds of the registry at every moment of a run that is right. -/
def Right (ident : τ → ι) (s : State ι τ) : Prop := s.OneEntry owns ∧ s.NoReaderLeft ident

omit [DecidableEq ι] [DecidableEq τ] in
theorem Inv.right (h : Inv ident s) : Right ident s := ⟨h.entry, .of_handles h.entry h.handles⟩

/-- A step that touches the entry of another call leaves that call with a wrong entry or none. -/
theorem not_right_step {a : Step ι τ} (h : Inv ident s) (hclean : ¬ Clean ident s a) :
    ¬ Right ident (step ident s a) := by
  rintro ⟨hentry, -⟩
  cases a with
  | store k =>
    simp only [Clean, not_forall] at hclean
    obtain ⟨hphase, e, he, hother⟩ := hclean
    have hstored : (step ident s (.store k)).registry (ident k) =
        some { e with reader := some k } := by
      simp [step, hphase, storeHandle, he, State.setPhase]
    obtain ⟨k', -, hout, hreader⟩ := hentry.of_registry hstored
    dsimp only at hout hreader
    split_ifs at hreader
    obtain rfl : k = k' := Option.some.inj hreader
    exact hother hout
  | teardown k =>
    simp only [Clean, not_forall] at hclean
    obtain ⟨hleaving, e, he, hother⟩ := hclean
    obtain ⟨k', hlive, hout, -⟩ := h.entry.of_registry he
    have hk : k' ≠ k := fun hk => hother (hk ▸ hout)
    rw [step, if_pos hleaving] at hentry
    have hkept : (s.teardown (ident k) k).live (ident k) = some k' := by
      simp [live_teardown, hlive, Option.filter, hk]
    obtain ⟨e', hgone, -⟩ := hentry.of_live hkept
    simp [State.teardown] at hgone
  | insert k => exact hclean trivial
  | spawn k => exact hclean trivial
  | leave k => exact hclean trivial
  | drop k => exact hclean trivial
  | disconnect i => exact hclean trivial

/-- A run is right all along exactly if no step touches the entry of another call. -/
theorem right_along_iff (ident : τ → ι) (steps : List (Step ι τ)) :
    (∀ front, front <+: steps → Right ident (Runs.run (step ident) .start front)) ↔
      ∀ front a, front ++ [a] <+: steps → Clean ident (Runs.run (step ident) .start front) a :=
  Runs.holds_along_iff (step ident) (Inv ident) (Right ident) (Clean ident)
    (fun _ h => h.right) (fun _ _ => inv_step) (fun _ _ => not_right_step) (inv_start ident) steps

end Voleeo.Live.WsManager
