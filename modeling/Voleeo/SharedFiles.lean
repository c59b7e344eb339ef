import Mathlib.Data.List.Basic
import Mathlib.Logic.Function.Basic

/-!
# Calls that share files

Calls load and save whole files, one atomic step at a time, in any order. Two
steps of different calls conflict when they are on one file and one of them is a
save. When the conflicting steps of a run all follow one order of the calls, the
run leaves the files that the calls leave when they run one after another in that
order.
-/
namespace Voleeo.SharedFiles

variable {κ τ : Type} {σ : κ → Type}

/-- What is left of a call. A load hands the content of the file to the rest. -/
inductive Call (σ : κ → Type) : Type
  | done
  | load (file : κ) (next : σ file → Call σ)
  | save (file : κ) (content : σ file) (next : Call σ)

structure Access (κ : Type) where
  file : κ
  save : Bool
  deriving DecidableEq

/-- What a call does to the files in its next step. -/
def Call.access : Call σ → Option (Access κ)
  | .done => none
  | .load k _ => some ⟨k, false⟩
  | .save k _ _ => some ⟨k, true⟩

def Call.andThen : Call σ → Call σ → Call σ
  | .done, rest => rest
  | .load k next, rest => .load k fun c => (next c).andThen rest
  | .save k c next, rest => .save k c (next.andThen rest)

structure System (σ : κ → Type) (τ : Type) where
  files : ∀ k, σ k
  calls : τ → Call σ

variable [DecidableEq κ] [DecidableEq τ]

/-- Run a call to its end with nothing in between. -/
def Call.exec : Call σ → (∀ k, σ k) → ∀ k, σ k
  | .done, files => files
  | .load k next, files => (next (files k)).exec files
  | .save k c next, files => next.exec (Function.update files k c)

@[simp] theorem exec_done (files : ∀ k, σ k) : Call.done.exec files = files := rfl

@[simp] theorem exec_load (k : κ) (next : σ k → Call σ) (files : ∀ k, σ k) :
    (Call.load k next).exec files = (next (files k)).exec files := rfl

@[simp] theorem exec_save (k : κ) (c : σ k) (next : Call σ) (files : ∀ k, σ k) :
    (Call.save k c next).exec files = next.exec (Function.update files k c) := rfl

theorem exec_andThen (call rest : Call σ) (files : ∀ k, σ k) :
    (call.andThen rest).exec files = rest.exec (call.exec files) := by
  induction call generalizing files with
  | done => rfl
  | load k next ih => exact ih _ files
  | save k c next ih => exact ih _

/-- Run the calls one after another. -/
def serial (s : System σ τ) (order : List τ) : ∀ k, σ k :=
  order.foldl (fun files t => (s.calls t).exec files) s.files

def step (s : System σ τ) (t : τ) : System σ τ :=
  match s.calls t with
  | .done => s
  | .load k next => { s with calls := Function.update s.calls t (next (s.files k)) }
  | .save k c next =>
    { files := Function.update s.files k c, calls := Function.update s.calls t next }

/-- A run takes one step of each call that the schedule names. -/
def run (s : System σ τ) (schedule : List τ) : System σ τ := schedule.foldl step s

def event (s : System σ τ) (t : τ) : List (τ × Access κ) :=
  ((s.calls t).access.map fun a => (t, a)).toList

/-- The accesses of a run, in their order. -/
def trace (s : System σ τ) : List τ → List (τ × Access κ)
  | [] => []
  | t :: schedule => event s t ++ trace (step s t) schedule

def Conflict (a b : τ × Access κ) : Prop :=
  a.1 ≠ b.1 ∧ a.2.file = b.2.file ∧ (a.2.save = true ∨ b.2.save = true)

instance (a b : τ × Access κ) : Decidable (Conflict a b) :=
  inferInstanceAs (Decidable (_ ∧ _ ∧ _))

/-- Of two conflicting accesses, the one of the earlier call comes first. -/
def Follows (order : List τ) (accesses : List (τ × Access κ)) : Prop :=
  accesses.Pairwise fun a b => Conflict a b → order.idxOf a.1 ≤ order.idxOf b.1

instance (order : List τ) (accesses : List (τ × Access κ)) : Decidable (Follows order accesses) :=
  inferInstanceAs (Decidable (List.Pairwise _ _))

def Finished (s : System σ τ) : Prop := ∀ t, s.calls t = .done

/-! ## Steps of different calls -/

variable {s : System σ τ} {t p : τ} {order schedule : List τ}

theorem step_of_done (h : s.calls t = .done) : step s t = s := by
  rw [step, h]

theorem calls_step_of_ne (h : p ≠ t) : (step s t).calls p = s.calls p := by
  rw [step]
  cases s.calls t with
  | done => rfl
  | load k next => exact Function.update_of_ne h _ _
  | save k c next => exact Function.update_of_ne h _ _

theorem event_step_of_ne (h : p ≠ t) : event (step s t) p = event s p := by
  rw [event, event, calls_step_of_ne h]

omit [DecidableEq κ] [DecidableEq τ] in
theorem fst_of_mem_event {a : τ × Access κ} (h : a ∈ event s t) : a.1 = t := by
  rw [event, Option.mem_toList, Option.map_eq_some_iff] at h
  obtain ⟨b, -, rfl⟩ := h
  rfl

/-- Steps that do not conflict may be taken in either order. -/
theorem step_comm (hne : t ≠ p) (h : ∀ a ∈ event s t, ∀ b ∈ event s p, ¬ Conflict a b) :
    step (step s t) p = step (step s p) t := by
  have ht : (step s p).calls t = s.calls t := calls_step_of_ne hne
  have hp : (step s t).calls p = s.calls p := calls_step_of_ne hne.symm
  cases hct : s.calls t with
  | done =>
    rw [step_of_done hct, step_of_done (ht.trans hct)]
  | load k next =>
    cases hcp : s.calls p with
    | done => rw [step_of_done (hp.trans hcp), step_of_done hcp]
    | load k' next' =>
      simp only [step, hct, hcp, Function.update_of_ne hne, Function.update_of_ne hne.symm]
      rw [Function.update_comm hne]
    | save k' c' next' =>
      have hk : k ≠ k' := by
        rintro rfl
        exact h (t, ⟨k, false⟩) (by simp [event, hct, Call.access])
          (p, ⟨k, true⟩) (by simp [event, hcp, Call.access]) ⟨hne, rfl, .inr rfl⟩
      simp only [step, hct, hcp, Function.update_of_ne hne, Function.update_of_ne hne.symm,
        Function.update_of_ne hk]
      rw [Function.update_comm hne]
  | save k c next =>
    cases hcp : s.calls p with
    | done => rw [step_of_done (hp.trans hcp), step_of_done hcp]
    | load k' next' =>
      have hk : k' ≠ k := by
        rintro rfl
        exact h (t, ⟨k', true⟩) (by simp [event, hct, Call.access])
          (p, ⟨k', false⟩) (by simp [event, hcp, Call.access]) ⟨hne, rfl, .inl rfl⟩
      simp only [step, hct, hcp, Function.update_of_ne hne, Function.update_of_ne hne.symm,
        Function.update_of_ne hk]
      rw [Function.update_comm hne]
    | save k' c' next' =>
      have hk : k ≠ k' := by
        rintro rfl
        exact h (t, ⟨k, true⟩) (by simp [event, hct, Call.access])
          (p, ⟨k, true⟩) (by simp [event, hcp, Call.access]) ⟨hne, rfl, .inl rfl⟩
      simp only [step, hct, hcp, Function.update_of_ne hne, Function.update_of_ne hne.symm]
      rw [Function.update_comm hne, Function.update_comm hk]

/-! ## Steps of one call brought to the front -/

@[simp] theorem run_nil : run s [] = s := rfl

@[simp] theorem run_cons : run s (t :: schedule) = run (step s t) schedule := rfl

theorem calls_run_of_notMem (h : p ∉ schedule) : (run s schedule).calls p = s.calls p := by
  induction schedule generalizing s with
  | nil => rfl
  | cons t schedule ih =>
    rw [List.mem_cons, not_or] at h
    rw [run_cons, ih h.2, calls_step_of_ne h.1]

theorem fst_of_mem_trace_replicate {n : ℕ} {a : τ × Access κ}
    (h : a ∈ trace s (List.replicate n p)) : a.1 = p := by
  induction n generalizing s with
  | zero => exact absurd h List.not_mem_nil
  | succ n ih =>
    rcases List.mem_append.mp h with h | h
    · exact fst_of_mem_event h
    · exact ih h

/-- A step is taken after `n` steps of another call with which it does not conflict. -/
theorem step_run_replicate (hne : t ≠ p) (n : ℕ)
    (h : ∀ a ∈ event s t, ∀ b ∈ trace (step s t) (List.replicate n p), ¬ Conflict a b) :
    run (step s t) (List.replicate n p) = step (run s (List.replicate n p)) t ∧
      trace (step s t) (List.replicate n p) = trace s (List.replicate n p) := by
  induction n generalizing s with
  | zero => exact ⟨rfl, rfl⟩
  | succ n ih =>
    have hevent : event (step s t) p = event s p := event_step_of_ne hne.symm
    rw [List.replicate_succ, trace, hevent] at h
    have hcomm := step_comm hne fun a ha b hb => h a ha b (List.mem_append_left _ hb)
    rw [hcomm] at h
    have hrest : ∀ a ∈ event (step s p) t,
        ∀ b ∈ trace (step (step s p) t) (List.replicate n p), ¬ Conflict a b := by
      rw [event_step_of_ne hne]
      exact fun a ha b hb => h a ha b (List.mem_append_right _ hb)
    obtain ⟨hrun, htrace⟩ := ih hrest
    rw [List.replicate_succ, run_cons, run_cons, trace, trace, hevent, hcomm, hrun, htrace]
    exact ⟨rfl, rfl⟩

/-- The events of the call `p` in a run. -/
def own (p : τ) (accesses : List (τ × Access κ)) : List (τ × Access κ) :=
  accesses.filter fun a => a.1 = p

def others (p : τ) (accesses : List (τ × Access κ)) : List (τ × Access κ) :=
  accesses.filter fun a => a.1 ≠ p

omit [DecidableEq κ] in
theorem own_event : own p (event s p) = event s p :=
  List.filter_eq_self.mpr fun _ ha => by simpa using fst_of_mem_event ha

omit [DecidableEq κ] in
theorem own_event_of_ne (h : t ≠ p) : own p (event s t) = [] :=
  List.filter_eq_nil_iff.mpr fun _ ha => by simpa [fst_of_mem_event ha] using h

omit [DecidableEq κ] in
theorem others_event : others p (event s p) = [] :=
  List.filter_eq_nil_iff.mpr fun _ ha => by simpa using fst_of_mem_event ha

omit [DecidableEq κ] in
theorem others_event_of_ne (h : t ≠ p) : others p (event s t) = event s t :=
  List.filter_eq_self.mpr fun _ ha => by simpa [fst_of_mem_event ha] using h

/-- If no access of another call conflicts with a later one of `p`, the steps of `p` may all be
taken first. -/
theorem run_front (h : (trace s schedule).Pairwise fun a b => b.1 = p → ¬ Conflict a b) :
    ∃ n, run s schedule = run (run s (List.replicate n p)) (schedule.filter fun t => t ≠ p) ∧
      trace s (List.replicate n p) = own p (trace s schedule) ∧
      trace (run s (List.replicate n p)) (schedule.filter fun t => t ≠ p) =
        others p (trace s schedule) := by
  induction schedule generalizing s with
  | nil => exact ⟨0, rfl, rfl, rfl⟩
  | cons t schedule ih =>
    rw [trace, List.pairwise_append] at h
    obtain ⟨n, hrun, hown, hothers⟩ := ih h.2.1
    by_cases htp : t = p
    · subst htp
      refine ⟨n + 1, ?_, ?_, ?_⟩
      · rw [run_cons, hrun, List.replicate_succ, run_cons]
        simp
      · rw [List.replicate_succ, trace, trace, hown, own, own, List.filter_append]
        exact congrArg (· ++ _) own_event.symm
      · rw [List.replicate_succ, run_cons, trace, others, List.filter_append]
        rw [show List.filter _ (event s t) = [] from others_event, List.nil_append]
        simpa [others] using hothers
    · have hfree : ∀ a ∈ event s t, ∀ b ∈ trace (step s t) (List.replicate n p),
          ¬ Conflict a b := by
        intro a ha b hb
        have hb' : b ∈ trace (step s t) schedule := by
          rw [hown] at hb
          exact (List.mem_filter.mp hb).1
        exact h.2.2 a ha b hb' (fst_of_mem_trace_replicate hb)
      obtain ⟨hstep, htrace⟩ := step_run_replicate htp n hfree
      have hevent : event (run s (List.replicate n p)) t = event s t := by
        rw [event, event, calls_run_of_notMem fun hmem => htp (List.eq_of_mem_replicate hmem)]
      refine ⟨n, ?_, ?_, ?_⟩
      · rw [run_cons, hrun, hstep]
        simp [htp]
      · rw [← htrace, hown, trace, own, own, List.filter_append]
        rw [show List.filter _ (event s t) = [] from own_event_of_ne htp, List.nil_append]
      · rw [List.filter_cons_of_pos (by simpa using htp), trace, hevent, ← hstep, hothers,
          trace, others, others, List.filter_append]
        exact congrArg (· ++ _) (others_event_of_ne htp).symm

/-- Steps of one call that end it run it as a whole. -/
theorem files_run_replicate (n : ℕ) (h : (run s (List.replicate n p)).calls p = .done) :
    (run s (List.replicate n p)).files = (s.calls p).exec s.files := by
  induction n generalizing s with
  | zero =>
    rw [show s.calls p = .done from h]
    rfl
  | succ n ih =>
    rw [List.replicate_succ, run_cons] at h ⊢
    rw [ih h]
    cases hc : s.calls p with
    | done =>
      rw [step_of_done hc, hc]
    | load k next =>
      simp only [step, hc, Function.update_self, Call.exec]
    | save k c next =>
      simp only [step, hc, Function.update_self, Call.exec]

/-! ## Runs that follow an order -/

theorem Follows.front (h : Follows (p :: order) (trace s schedule)) :
    (trace s schedule).Pairwise fun a b => b.1 = p → ¬ Conflict a b := by
  refine h.imp ?_
  rintro a b hab rfl hconflict
  have hle := hab hconflict
  rw [List.idxOf_cons_self, List.idxOf_cons_ne _ hconflict.1.symm] at hle
  omega

theorem Follows.others (h : Follows (p :: order) (trace s schedule)) :
    Follows order (others p (trace s schedule)) := by
  have hmem : ∀ a ∈ SharedFiles.others p (trace s schedule), a.1 ≠ p := fun a ha => by
    simpa using (List.mem_filter.mp ha).2
  refine (List.Pairwise.filter _ h).imp_of_mem ?_
  intro a b ha hb hab hconflict
  have hle := hab hconflict
  rw [List.idxOf_cons_ne _ (hmem a ha).symm, List.idxOf_cons_ne _ (hmem b hb).symm] at hle
  omega

theorem run_of_finished (h : Finished s) (schedule : List τ) : run s schedule = s := by
  induction schedule with
  | nil => rfl
  | cons t schedule ih => rw [run_cons, step_of_done (h t), ih]

/-- A run whose conflicts follow one order of the calls ends with the files of the calls run in
that order. -/
theorem files_run (hfollows : Follows order (trace s schedule))
    (hfinished : Finished (run s schedule)) (hall : ∀ t, t ∉ order → s.calls t = .done)
    (hnodup : order.Nodup) : (run s schedule).files = serial s order := by
  induction order generalizing s schedule with
  | nil => rw [run_of_finished fun t => hall t List.not_mem_nil]; rfl
  | cons p order ih =>
    obtain ⟨n, hrun, -, htrace⟩ := run_front hfollows.front
    set s' := run s (List.replicate n p) with hs'
    have hother : ∀ t, t ≠ p → s'.calls t = s.calls t := fun t ht =>
      calls_run_of_notMem fun hmem => ht (List.eq_of_mem_replicate hmem)
    have hown : s'.calls p = .done := by
      rw [← @calls_run_of_notMem _ _ _ _ _ s' p (schedule.filter fun t => t ≠ p) (by simp), ← hrun]
      exact hfinished p
    have hfiles : s'.files = (s.calls p).exec s.files := files_run_replicate n hown
    have hserial : serial s' order = serial s (p :: order) := by
      rw [serial, serial, List.foldl_cons, hfiles]
      refine List.foldl_ext _ _ _ fun files t ht => ?_
      rw [hother t fun heq => (List.nodup_cons.mp hnodup).1 (heq ▸ ht)]
    rw [hrun, ih (by rw [htrace]; exact hfollows.others) (hrun ▸ hfinished) ?_
      (List.nodup_cons.mp hnodup).2, hserial]
    intro t ht
    by_cases htp : t = p
    · rw [htp, hown]
    · rw [hother t htp, hall t (by simp [htp, ht])]

end Voleeo.SharedFiles
