import Mathlib.Data.Option.Basic
import Mathlib.Logic.Function.Basic
import Mathlib.Tactic.SplitIfs

/-!
# Registries of live calls

The managers of WebSocket connections and of gRPC streams keep one map from ids to
entries, and a reader task for each call. A locked section is one step here, and
the steps of all calls are taken in any order. History fields record what has
happened; no step reads them.
-/
namespace Voleeo.Live

/-- A reader leaves its loop, and then removes its entry in a step of its own. -/
inductive Task
  | unspawned
  | running
  | leaving
  | finished
  deriving DecidableEq, Repr

/-- A reader that is aborted stops where it waits next, and a reader behind its loop does not
wait any more. -/
structure Reader where
  task : Task := .unspawned
  aborted : Bool := false
  deriving DecidableEq, Repr

/-- How far the code that opens a call has come. -/
inductive Phase
  | connecting
  | inserted
  | spawned
  | connected
  deriving DecidableEq, Repr

/-- The call whose sender the entry holds, and the call whose reader it holds. -/
structure Entry (τ : Type) where
  outbound : Option τ
  reader : Option τ
  deriving DecidableEq, Repr

structure State (ι τ : Type) where
  registry : ι → Option (Entry τ)
  phase : τ → Phase
  reader : τ → Reader
  /-- The call of an id that was registered last. -/
  last : ι → Option τ
  /-- The reader has removed its entry. -/
  ended : τ → Bool
  /-- The call was the last one of its id when that id was disconnected. -/
  disconnected : τ → Bool
  /-- The call was the last one of its id when the client side of that id was closed. -/
  halfClosed : τ → Bool

variable {ι τ : Type}

def State.start : State ι τ where
  registry _ := none
  phase _ := .connecting
  reader _ := {}
  last _ := none
  ended _ := false
  disconnected _ := false
  halfClosed _ := false

/-! ## Locked sections -/

section
variable [DecidableEq ι] [DecidableEq τ]

def State.setTask (s : State ι τ) (k : τ) (task : Task) : State ι τ :=
  { s with reader := Function.update s.reader k { s.reader k with task } }

def State.setPhase (s : State ι τ) (k : τ) (phase : Phase) : State ι τ :=
  { s with phase := Function.update s.phase k phase }

/-- Abort the reader whose handle an entry holds. -/
def State.abort (s : State ι τ) : Option τ → State ι τ
  | none => s
  | some k => { s with reader := Function.update s.reader k { s.reader k with aborted := true } }

/-- Insert an entry, and abort the reader of the one that it replaces. -/
def State.insert (s : State ι τ) (i : ι) (k : τ) (entry : Entry τ) : State ι τ :=
  let s' := s.abort ((s.registry i).bind (·.reader))
  { s' with
    registry := Function.update s'.registry i (some entry)
    last := Function.update s'.last i (some k) }

/-- A reader that has ended removes what the registry holds for its id. -/
def State.teardown (s : State ι τ) (i : ι) (k : τ) : State ι τ :=
  { s.setTask k .finished with
    registry := Function.update s.registry i none
    ended := Function.update s.ended k true }

/-- Remove an entry and abort its reader. -/
def State.remove (s : State ι τ) (i : ι) : State ι τ :=
  let s' := s.abort ((s.registry i).bind (·.reader))
  { s' with
    registry := Function.update s'.registry i none
    disconnected := fun k => s'.disconnected k || decide (s'.last i = some k) }

end

/-! ## What the registry should hold -/

section
variable (s : State ι τ)

/-- The call registered last, as long as it has neither ended nor been disconnected. -/
def State.live (i : ι) : Option τ :=
  (s.last i).filter fun k => !s.ended k && !s.disconnected k

/-- The reader runs, and nothing stops it. -/
def State.Runs (k : τ) : Prop := (s.reader k).task = .running ∧ (s.reader k).aborted = false

/-- Which entries a call has, as far as it has come. -/
abbrev Owns (τ : Type) := Phase → τ → Entry τ → Prop

/-- An id has an entry exactly for its live call, and the entry belongs to that call. -/
def State.OneEntry (owns : Owns τ) : Prop :=
  ∀ i, (s.live i = none ∧ s.registry i = none) ∨
    ∃ k e, s.live i = some k ∧ s.registry i = some e ∧ owns (s.phase k) k e

/-- Of an id that was disconnected after its last registration, no reader is left running once
the code that opened it is through. -/
def State.NoReaderLeft (ident : τ → ι) : Prop :=
  ∀ i k, s.last i = some k → s.disconnected k = true →
    ∀ j, ident j = i → s.phase j = .connected → ¬ s.Runs j

/-- The handle of each running reader is in the registry. -/
def State.HandlesKept (ident : τ → ι) : Prop :=
  ∀ j, s.phase j = .connected → s.Runs j →
    ∃ e, s.registry (ident j) = some e ∧ e.reader = some j

end

variable {s : State ι τ} {owns : Owns τ} {ident : τ → ι} {i : ι} {k : τ}

theorem live_eq_some :
    s.live i = some k ↔ s.last i = some k ∧ s.ended k = false ∧ s.disconnected k = false := by
  simp [State.live, Option.filter_eq_some_iff]

theorem State.OneEntry.of_registry (h : s.OneEntry owns) {e : Entry τ}
    (he : s.registry i = some e) : ∃ k, s.live i = some k ∧ owns (s.phase k) k e := by
  rcases h i with ⟨-, hnone⟩ | ⟨k, e', hlive, he', howns⟩
  · rw [hnone] at he
    cases he
  · rw [he] at he'
    cases he'
    exact ⟨k, hlive, howns⟩

theorem State.OneEntry.of_live (h : s.OneEntry owns) (hlive : s.live i = some k) :
    ∃ e, s.registry i = some e ∧ owns (s.phase k) k e := by
  rcases h i with ⟨hnone, -⟩ | ⟨k', e, hlive', he, howns⟩
  · rw [hnone] at hlive
    cases hlive
  · rw [hlive] at hlive'
    cases hlive'
    exact ⟨e, he, howns⟩

theorem State.NoReaderLeft.of_handles (hentry : s.OneEntry owns) (h : s.HandlesKept ident) :
    s.NoReaderLeft ident := by
  rintro i k hlast hgone j rfl hphase hruns
  obtain ⟨e, he, -⟩ := h j hphase hruns
  obtain ⟨k', hlive, -⟩ := hentry.of_registry he
  obtain ⟨hlast', -, hopen⟩ := live_eq_some.mp hlive
  obtain rfl : k = k' := Option.some.inj (hlast.symm.trans hlast')
  rw [hgone] at hopen
  cases hopen

/-! ## What a locked section does -/

section
variable [DecidableEq τ]

@[simp] theorem registry_abort (h : Option τ) : (s.abort h).registry = s.registry := by
  cases h <;> rfl

@[simp] theorem phase_abort (h : Option τ) : (s.abort h).phase = s.phase := by cases h <;> rfl

@[simp] theorem last_abort (h : Option τ) : (s.abort h).last = s.last := by cases h <;> rfl

@[simp] theorem ended_abort (h : Option τ) : (s.abort h).ended = s.ended := by cases h <;> rfl

@[simp] theorem disconnected_abort (h : Option τ) :
    (s.abort h).disconnected = s.disconnected := by cases h <;> rfl

@[simp] theorem halfClosed_abort (h : Option τ) :
    (s.abort h).halfClosed = s.halfClosed := by cases h <;> rfl

@[simp] theorem task_abort (h : Option τ) (j : τ) :
    ((s.abort h).reader j).task = (s.reader j).task := by
  cases h with
  | none => rfl
  | some k =>
    by_cases hj : j = k
    · subst hj
      simp [State.abort]
    · simp [State.abort, Function.update_of_ne hj]

/-- An abort stops the one reader, and no other. -/
theorem runs_abort (h : Option τ) (j : τ) : (s.abort h).Runs j ↔ s.Runs j ∧ h ≠ some j := by
  cases h with
  | none => simp [State.abort]
  | some k =>
    by_cases hj : j = k
    · subst hj
      simp [State.Runs, State.abort]
    · simp [State.Runs, State.abort, Function.update_of_ne hj, Ne.symm hj]

theorem runs_setTask {task : Task} (j : τ) :
    (s.setTask k task).Runs j ↔
      if j = k then task = .running ∧ (s.reader k).aborted = false else s.Runs j := by
  by_cases hj : j = k
  · subst hj
    simp [State.Runs, State.setTask]
  · simp [State.Runs, State.setTask, hj]

theorem State.OneEntry.setPhase {p : Phase} (h : s.OneEntry owns)
    (hk : ∀ e, owns (s.phase k) k e → owns p k e) : (s.setPhase k p).OneEntry owns := by
  intro j
  refine (h j).imp_right ?_
  rintro ⟨k', e, hlive, he, howns⟩
  refine ⟨k', e, hlive, he, ?_⟩
  by_cases hsame : k' = k
  · subst hsame
    simpa [State.setPhase] using hk e howns
  · simpa [State.setPhase, hsame] using howns

variable [DecidableEq ι]

theorem live_insert (e : Entry τ) (hended : s.ended k = false) (hopen : s.disconnected k = false)
    (j : ι) : (s.insert i k e).live j = if j = i then some k else s.live j := by
  by_cases hj : j = i
  · subst hj
    simp [State.live, State.insert, hended, hopen, Option.filter]
  · simp [State.live, State.insert, hj]

theorem live_teardown (j : ι) :
    (s.teardown i k).live j = (s.live j).filter fun k' => decide (k' ≠ k) := by
  rw [State.live, State.live, Option.filter_filter]
  change (s.last j).filter _ = (s.last j).filter _
  congr 1
  funext k'
  by_cases hk : k' = k
  · subst hk
    simp [State.teardown]
  · simp [State.teardown, State.setTask, hk]

theorem live_remove (hplaced : ∀ j k, s.last j = some k → ident k = j) (j : ι) :
    (s.remove i).live j = if j = i then none else s.live j := by
  cases hlast : s.last j with
  | none => simp [State.live, State.remove, hlast]
  | some k =>
    have hsame : s.last i = some k ↔ j = i := by
      constructor
      · intro h
        rw [← hplaced j k hlast, hplaced i k h]
      · rintro rfl
        exact hlast
    simp only [State.live, State.remove, last_abort, ended_abort, disconnected_abort, hlast,
      Option.filter, hsame]
    by_cases hj : j = i
    · simp [hj]
    · simp [hj]

/-! ### One entry -/

theorem State.OneEntry.insert (h : s.OneEntry owns) {e : Entry τ} (hended : s.ended k = false)
    (hopen : s.disconnected k = false) (howns : owns (s.phase k) k e) :
    (s.insert i k e).OneEntry owns := by
  intro j
  rw [live_insert e hended hopen]
  by_cases hj : j = i
  · subst hj
    exact Or.inr ⟨k, e, if_pos rfl, by simp [State.insert], by simpa [State.insert] using howns⟩
  · rw [if_neg hj]
    simpa [State.insert, hj] using h j

/-- The teardown of the live call leaves no entry, where its id is not that of another one. -/
theorem State.OneEntry.teardown (h : s.OneEntry owns) (hplaced : ∀ j, s.live j = some k → j = i)
    (hclean : ∀ k', s.live i = some k' → k' = k) : (s.teardown i k).OneEntry owns := by
  intro j
  rw [live_teardown]
  by_cases hj : j = i
  · subst hj
    refine Or.inl ⟨?_, by simp [State.teardown]⟩
    rw [Option.filter_eq_none_iff]
    intro k' hk'
    simpa using hclean k' hk'
  · rcases h j with ⟨hnone, he⟩ | ⟨k', e, hlive, he, howns⟩
    · exact Or.inl ⟨by rw [hnone]; rfl, by simpa [State.teardown, hj] using he⟩
    · have hk' : k' ≠ k := by
        rintro rfl
        exact hj (hplaced j hlive)
      exact Or.inr ⟨k', e, by simp [hlive, Option.filter, hk'],
        by simpa [State.teardown, hj] using he, howns⟩

theorem State.OneEntry.remove (h : s.OneEntry owns)
    (hplaced : ∀ j k, s.last j = some k → ident k = j) : (s.remove i).OneEntry owns := by
  intro j
  rw [live_remove hplaced]
  by_cases hj : j = i
  · subst hj
    exact Or.inl ⟨if_pos rfl, by simp [State.remove]⟩
  · rw [if_neg hj]
    simpa [State.remove, hj] using h j

/-! ### Handles -/

/-- The entry of an id holds no other reader than that of the call. -/
def State.OnlyReader (s : State ι τ) (i : ι) (k : τ) : Prop :=
  ∀ e j, s.registry i = some e → e.reader = some j → j = k

theorem handles_insert (h : s.HandlesKept ident) {e : Entry τ} {j : τ}
    (hphase : s.phase j = .connected) (hruns : (s.insert (ident k) k e).Runs j) :
    ∃ e', (s.insert (ident k) k e).registry (ident j) = some e' ∧ e'.reader = some j := by
  have hboth : s.Runs j ∧ (s.registry (ident k)).bind (·.reader) ≠ some j :=
    (runs_abort _ j).mp hruns
  obtain ⟨e', he', hreader⟩ := h j hphase hboth.1
  have hid : ident j ≠ ident k := by
    intro hid
    rw [hid] at he'
    exact hboth.2 (by rw [he', Option.bind_some, hreader])
  exact ⟨e', by simpa [State.insert, hid] using he', hreader⟩

theorem handles_teardown (h : s.HandlesKept ident) (honly : s.OnlyReader (ident k) k) :
    (s.teardown (ident k) k).HandlesKept ident := by
  intro j hphase hruns
  have hj : j ≠ k ∧ s.Runs j := by
    have hset : (s.setTask k .finished).Runs j := hruns
    rw [runs_setTask] at hset
    split_ifs at hset with hsame
    · cases hset.1
    · exact ⟨hsame, hset⟩
  obtain ⟨e, he, hreader⟩ := h j hphase hj.2
  have hid : ident j ≠ ident k := by
    intro hid
    rw [hid] at he
    exact hj.1 (honly e j he hreader)
  exact ⟨e, by simpa [State.teardown, hid] using he, hreader⟩

theorem handles_remove (h : s.HandlesKept ident) : (s.remove i).HandlesKept ident := by
  intro j hphase hruns
  have hboth : s.Runs j ∧ (s.registry i).bind (·.reader) ≠ some j := (runs_abort _ j).mp hruns
  obtain ⟨e, he, hreader⟩ := h j (by simpa [State.remove] using hphase) hboth.1
  have hid : ident j ≠ i := by
    intro hid
    rw [hid] at he
    exact hboth.2 (by rw [he, Option.bind_some, hreader])
  exact ⟨e, by simpa [State.remove, hid] using he, hreader⟩

end

end Voleeo.Live
