import Mathlib.Logic.Function.Basic
import Mathlib.Tactic.SplitIfs
import Voleeo.Runs

/-!
# Cancel handles of HTTP sends

The executor keeps for each request id the cancel handle of one send, tagged
with the token of that send. A send draws its token, registers, which fires the
handle that it replaces, and cleans up when it is through. A locked section is
one step, and the steps of all sends are taken in any order.
-/
namespace Voleeo.Live.HttpExecutor

/-- How far a send has come, with its token. -/
inductive Phase
  | idle
  | tagged (token : ℕ)
  | running (token : ℕ)
  | completed
  deriving DecidableEq, Repr

def Phase.token? : Phase → Option ℕ
  | .tagged token | .running token => some token
  | .idle | .completed => none

structure State (ι τ : Type) where
  inFlight : ι → Option (ℕ × τ)
  sendSeq : ℕ
  phase : τ → Phase
  /-- The cancel handle of the send has been fired. -/
  fired : τ → Bool
  /-- The send of an id that was registered last. No step reads it. -/
  last : ι → Option τ

inductive Step (ι τ : Type)
  | tag (k : τ)
  | register (k : τ)
  | complete (k : τ)
  | cancel (i : ι)

variable {ι τ : Type}

def State.start : State ι τ where
  inFlight _ := none
  sendSeq := 0
  phase _ := .idle
  fired _ := false
  last _ := none

section
variable [DecidableEq ι] [DecidableEq τ] (ident : τ → ι)

def State.fire (s : State ι τ) : Option (ℕ × τ) → State ι τ
  | none => s
  | some entry => { s with fired := Function.update s.fired entry.2 true }

def State.register (s : State ι τ) (k : τ) (token : ℕ) : State ι τ :=
  let s' := s.fire (s.inFlight (ident k))
  { s' with
    inFlight := Function.update s'.inFlight (ident k) (some (token, k))
    phase := Function.update s'.phase k (.running token)
    last := Function.update s'.last (ident k) (some k) }

/-- The entry goes only while it has the token of this send. -/
def State.complete (s : State ι τ) (k : τ) (token : ℕ) : State ι τ :=
  { s with
    inFlight :=
      if (s.inFlight (ident k)).any fun entry => entry.1 = token then
        Function.update s.inFlight (ident k) none
      else s.inFlight
    phase := Function.update s.phase k .completed }

def State.cancel (s : State ι τ) (i : ι) : State ι τ :=
  let s' := s.fire (s.inFlight i)
  { s' with inFlight := Function.update s'.inFlight i none }

/-- One step of any send. A send that is not at this step does nothing. -/
def step (s : State ι τ) : Step ι τ → State ι τ
  | .tag k =>
    match s.phase k with
    | .idle =>
      { s with
        sendSeq := s.sendSeq + 1
        phase := Function.update s.phase k (.tagged s.sendSeq) }
    | _ => s
  | .register k =>
    match s.phase k with
    | .tagged token => s.register ident k token
    | _ => s
  | .complete k =>
    match s.phase k with
    | .running token => s.complete ident k token
    | _ => s
  | .cancel i => s.cancel i

end

/-! ## What the registry holds -/

/-- The send is registered, not through, and not cancelled. -/
def State.Running (s : State ι τ) (k : τ) : Prop :=
  (∃ token, s.phase k = .running token) ∧ s.fired k = false

/-- The entry of a send, unless it has completed or been cancelled. -/
def State.handle (s : State ι τ) (k : τ) : Option (ℕ × τ) :=
  match s.phase k with
  | .running token => if s.fired k then none else some (token, k)
  | _ => none

theorem handle_eq_some {s : State ι τ} {k : τ} {entry : ℕ × τ} :
    s.handle k = some entry ↔ s.phase k = .running entry.1 ∧ s.fired k = false ∧ entry.2 = k := by
  rw [State.handle]
  obtain ⟨token, k'⟩ := entry
  cases s.phase k <;> cases s.fired k <;> simp [eq_comm]

structure Inv (ident : τ → ι) (s : State ι τ) : Prop where
  /-- An entry is that of the send registered last, which is running. -/
  held : ∀ i entry, s.inFlight i = some entry →
    ident entry.2 = i ∧ s.last i = some entry.2 ∧ s.handle entry.2 = some entry
  /-- A running send has its entry. -/
  kept : ∀ k entry, s.handle k = some entry → s.inFlight (ident k) = some entry
  placed : ∀ i k, s.last i = some k → ident k = i
  drawn : ∀ k token, (s.phase k).token? = some token → token < s.sendSeq
  distinct : ∀ k k' token, (s.phase k).token? = some token →
    (s.phase k').token? = some token → k = k'
  unfired : ∀ k, s.phase k = .idle ∨ (∃ token, s.phase k = .tagged token) → s.fired k = false

theorem inv_start (ident : τ → ι) : Inv ident State.start where
  held _ _ h := by cases h
  kept _ _ h := by cases h
  placed _ _ h := by cases h
  drawn _ _ h := by cases h
  distinct _ _ _ h := by cases h
  unfired _ _ := rfl

section
variable [DecidableEq τ] {s : State ι τ} {k : τ} {entry : ℕ × τ}

@[simp] theorem inFlight_fire (e : Option (ℕ × τ)) : (s.fire e).inFlight = s.inFlight := by
  cases e <;> rfl

@[simp] theorem phase_fire (e : Option (ℕ × τ)) : (s.fire e).phase = s.phase := by
  cases e <;> rfl

@[simp] theorem last_fire (e : Option (ℕ × τ)) : (s.fire e).last = s.last := by
  cases e <;> rfl

@[simp] theorem sendSeq_fire (e : Option (ℕ × τ)) : (s.fire e).sendSeq = s.sendSeq := by
  cases e <;> rfl

theorem fired_fire (e : Option (ℕ × τ)) :
    (s.fire e).fired k = true ↔ s.fired k = true ∨ e.map (·.2) = some k := by
  cases e with
  | none => simp [State.fire]
  | some entry =>
    by_cases hk : k = entry.2
    · simp [State.fire, hk]
    · simp [State.fire, hk, Ne.symm hk]

variable {ident : τ → ι} {i : ι}

omit [DecidableEq τ] in
theorem handle_congr {s' : State ι τ} (hphase : s'.phase k = s.phase k)
    (hfired : s'.fired k = s.fired k) : s'.handle k = s.handle k := by
  rw [State.handle, State.handle, hphase, hfired]

omit [DecidableEq τ] in
/-- An id that has an entry has the entry of the one send that is running for it. -/
theorem Inv.entry_iff (h : Inv ident s) (i : ι) (k : τ) :
    (s.inFlight i).map (·.2) = some k ↔ ident k = i ∧ s.Running k := by
  rw [Option.map_eq_some_iff]
  constructor
  · rintro ⟨entry, hentry, rfl⟩
    obtain ⟨hid, -, hhandle⟩ := h.held i entry hentry
    obtain ⟨hphase, hfired, -⟩ := handle_eq_some.mp hhandle
    exact ⟨hid, ⟨_, hphase⟩, hfired⟩
  · rintro ⟨rfl, ⟨token, hphase⟩, hfired⟩
    exact ⟨(token, k), h.kept k _ (handle_eq_some.mpr ⟨hphase, hfired, rfl⟩), rfl⟩

omit [DecidableEq τ] in
/-- An entry of the id that has the token of a send is the entry of that send. -/
theorem Inv.any_token (h : Inv ident s) {token : ℕ} (hphase : s.phase k = .running token) :
    (s.inFlight (ident k)).any (fun entry => entry.1 = token) = true ↔
      s.inFlight (ident k) = some (token, k) := by
  constructor
  · intro hany
    obtain ⟨entry, hentry, htoken⟩ := (Option.any_eq_true _ _).mp hany
    obtain ⟨-, -, hhandle⟩ := h.held _ entry hentry
    obtain ⟨hphase', -, -⟩ := handle_eq_some.mp hhandle
    have htoken := of_decide_eq_true htoken
    have hsame : entry.2 = k := h.distinct _ _ token (by rw [hphase', htoken]; rfl)
      (by rw [hphase]; rfl)
    rw [hentry, ← htoken, ← hsame]
  · intro hentry
    simp [hentry]

/-! ## What a step keeps -/

theorem inv_tag (h : Inv ident s) (hphase : s.phase k = .idle) :
    Inv ident { s with
      sendSeq := s.sendSeq + 1
      phase := Function.update s.phase k (.tagged s.sendSeq) } := by
  have hhandle : ∀ k', State.handle { s with
      sendSeq := s.sendSeq + 1
      phase := Function.update s.phase k (.tagged s.sendSeq) } k' = s.handle k' := by
    intro k'
    by_cases hk : k' = k
    · subst hk
      simp [State.handle, hphase]
    · exact handle_congr (by simp [hk]) rfl
  refine ⟨fun i entry hentry => ?_, fun k' entry hk' => ?_, h.placed, ?_, ?_, ?_⟩
  · rw [hhandle]
    exact h.held i entry hentry
  · rw [hhandle] at hk'
    exact h.kept k' entry hk'
  · intro k' token htoken
    by_cases hk : k' = k
    · subst hk
      obtain rfl : s.sendSeq = token := by simpa [Phase.token?] using htoken
      exact Nat.lt_succ_self _
    · exact Nat.lt_succ_of_lt (h.drawn k' token (by simpa [hk] using htoken))
  · intro k₁ k₂ token h₁ h₂
    -- the token that is drawn is larger than all the others
    have hlt : ∀ k', k' ≠ k → (Function.update s.phase k (.tagged s.sendSeq) k').token? =
        some token → token < s.sendSeq := fun k' hk' htoken =>
      h.drawn k' token (by simpa [hk'] using htoken)
    have hnew : ∀ k', k' = k → (Function.update s.phase k (.tagged s.sendSeq) k').token? =
        some token → token = s.sendSeq := by
      rintro k' rfl htoken
      simpa [Phase.token?, eq_comm] using htoken
    by_cases hk₁ : k₁ = k <;> by_cases hk₂ : k₂ = k
    · rw [hk₁, hk₂]
    · exact absurd (hnew k₁ hk₁ h₁) (Nat.ne_of_lt (hlt k₂ hk₂ h₂))
    · exact absurd (hnew k₂ hk₂ h₂) (Nat.ne_of_lt (hlt k₁ hk₁ h₁))
    · exact h.distinct k₁ k₂ token (by simpa [hk₁] using h₁) (by simpa [hk₂] using h₂)
  · intro k' hk'
    by_cases hk : k' = k
    · exact h.unfired k' (.inl (hk ▸ hphase))
    · exact h.unfired k' (by simpa [hk] using hk')

variable [DecidableEq ι]

/-- Some sends lose their entries, and nothing else is registered. -/
structure Drops (s s' : State ι τ) (gone : τ → Prop) : Prop where
  entries : ∀ i entry, s'.inFlight i = some entry ↔ s.inFlight i = some entry ∧ ¬ gone entry.2
  handles : ∀ k entry, s'.handle k = some entry ↔ s.handle k = some entry ∧ ¬ gone k
  last : s'.last = s.last
  sendSeq : s'.sendSeq = s.sendSeq
  phase : ∀ k, s'.phase k = s.phase k ∨ s'.phase k = .completed
  fired : ∀ k, (s.phase k).token?.isSome = false ∨ (∃ token, s.phase k = .tagged token) →
    s'.fired k = s.fired k

omit [DecidableEq τ] [DecidableEq ι] in
theorem Inv.drops {s' : State ι τ} {gone : τ → Prop} (h : Inv ident s) (hdrops : Drops s s' gone) :
    Inv ident s' := by
  have htoken : ∀ k token, (s'.phase k).token? = some token → (s.phase k).token? = some token := by
    intro k token hk
    rcases hdrops.phase k with hsame | hcompleted
    · rwa [hsame] at hk
    · rw [hcompleted] at hk
      cases hk
  refine ⟨fun i entry hentry => ?_, fun k entry hk => ?_, fun i k hlast => ?_, fun k token hk => ?_,
    fun k k' token hk hk' => ?_, fun k hk => ?_⟩
  · obtain ⟨hold, hgone⟩ := (hdrops.entries i entry).mp hentry
    obtain ⟨hid, hlast, hhandle⟩ := h.held i entry hold
    exact ⟨hid, by rwa [hdrops.last], (hdrops.handles _ _).mpr ⟨hhandle, hgone⟩⟩
  · obtain ⟨hold, hgone⟩ := (hdrops.handles k entry).mp hk
    refine (hdrops.entries _ _).mpr ⟨h.kept k entry hold, ?_⟩
    rwa [(handle_eq_some.mp hold).2.2]
  · exact h.placed i k (by rwa [hdrops.last] at hlast)
  · rw [hdrops.sendSeq]
    exact h.drawn k token (htoken k token hk)
  · exact h.distinct k k' token (htoken k token hk) (htoken k' token hk')
  · have hsame : s'.phase k = s.phase k := by
      rcases hdrops.phase k with hsame | hcompleted
      · exact hsame
      · rw [hcompleted] at hk
        simp at hk
    rw [hsame] at hk
    rw [hdrops.fired k ?_, h.unfired k hk]
    rcases hk with hidle | htagged
    · exact .inl (by rw [hidle]; rfl)
    · exact .inr htagged

omit [DecidableEq τ] [DecidableEq ι] in
/-- The entry of a send has its id and its token. -/
theorem Inv.own_entry (h : Inv ident s) {token : ℕ} (hphase : s.phase k = .running token)
    (hentry : s.inFlight i = some entry) (hk : entry.2 = k) :
    ident k = i ∧ entry = (token, k) := by
  obtain ⟨hid, -, hhandle⟩ := h.held i entry hentry
  obtain ⟨hphase', -, -⟩ := handle_eq_some.mp hhandle
  rw [hk, hphase, Phase.running.injEq] at hphase'
  exact ⟨by rw [← hid, hk], Prod.ext hphase'.symm hk⟩

theorem drops_complete {token : ℕ} (h : Inv ident s) (hphase : s.phase k = .running token) :
    Drops s (s.complete ident k token) (· = k) where
  entries := by
    intro i entry
    simp only [State.complete, h.any_token hphase]
    split_ifs with hown
    · by_cases hi : i = ident k
      · subst hi
        simp only [Function.update_self, reduceCtorEq, hown, Option.some.injEq, false_iff, not_and,
          not_not]
        rintro rfl
        rfl
      · rw [Function.update_of_ne hi, iff_self_and]
        exact fun hentry hk => hi (h.own_entry hphase hentry hk).1.symm
    · rw [iff_self_and]
      intro hentry hk
      obtain ⟨hid, hfull⟩ := h.own_entry hphase hentry hk
      rw [← hid, hfull] at hentry
      exact hown hentry
  handles := by
    intro k' entry
    by_cases hk : k' = k
    · subst hk
      simp [State.handle, State.complete]
    · have hsame : (s.complete ident k token).phase k' = s.phase k' := by simp [State.complete, hk]
      rw [handle_congr hsame rfl]
      simp [hk]
  last := rfl
  sendSeq := rfl
  phase := by
    intro k'
    by_cases hk : k' = k
    · exact .inr (by simp [State.complete, hk])
    · exact .inl (by simp [State.complete, hk])
  fired := fun _ _ => rfl

/-- A cancelled id loses its entry, and the running send of that id loses its handle. -/
theorem drops_cancel (h : Inv ident s) (i : ι) : Drops s (s.cancel i) fun k => ident k = i := by
  have hfired : ∀ k, (s.cancel i).fired k = true ↔ s.fired k = true ∨ ident k = i ∧ s.Running k := by
    intro k
    rw [← h.entry_iff]
    exact fired_fire _
  refine ⟨fun j entry => ?_, fun k entry => ?_, by simp [State.cancel], by simp [State.cancel],
    fun k => .inl (by simp [State.cancel]), fun k hk => ?_⟩
  · by_cases hj : j = i
    · subst hj
      simp only [State.cancel, Function.update_self, reduceCtorEq, false_iff, not_and, not_not]
      exact fun hentry => (h.held j entry hentry).1
    · simp only [State.cancel, inFlight_fire, Function.update_of_ne hj, iff_self_and]
      intro hentry hid
      exact hj ((h.held j entry hentry).1.symm.trans hid)
  · have hphase : (s.cancel i).phase k = s.phase k := by simp [State.cancel]
    rw [handle_eq_some, handle_eq_some, hphase, ← Bool.not_eq_true, hfired]
    constructor
    · rintro ⟨hrunning, hopen, hk⟩
      rw [not_or, not_and] at hopen
      exact ⟨⟨hrunning, Bool.not_eq_true _ ▸ hopen.1, hk⟩,
        fun hid => hopen.2 hid ⟨⟨_, hrunning⟩, Bool.not_eq_true _ ▸ hopen.1⟩⟩
    · rintro ⟨⟨hrunning, hopen, hk⟩, hid⟩
      exact ⟨hrunning, by simp [hopen, hid], hk⟩
  · have hidle : ¬ s.Running k := by
      rintro ⟨⟨token, hrunning⟩, -⟩
      rw [hrunning] at hk
      simp [Phase.token?] at hk
    rw [Bool.eq_iff_iff, hfired]
    simp [hidle]

/-- A send registers where its id has no entry. -/
theorem inv_insert {token : ℕ} (h : Inv ident s) (hphase : s.phase k = .tagged token)
    (hnone : s.inFlight (ident k) = none) :
    Inv ident { s with
      inFlight := Function.update s.inFlight (ident k) (some (token, k))
      phase := Function.update s.phase k (.running token)
      last := Function.update s.last (ident k) (some k) } := by
  set s' : State ι τ := { s with
      inFlight := Function.update s.inFlight (ident k) (some (token, k))
      phase := Function.update s.phase k (.running token)
      last := Function.update s.last (ident k) (some k) } with hs'
  have hunfired : s.fired k = false := h.unfired k (.inr ⟨token, hphase⟩)
  have hown : s'.handle k = some (token, k) := by simp [hs', State.handle, hunfired]
  have hother : ∀ k', k' ≠ k → s'.handle k' = s.handle k' := fun k' hk' =>
    handle_congr (by simp [hs', hk']) rfl
  have htoken : ∀ k', (s'.phase k').token? = (s.phase k').token? := by
    intro k'
    by_cases hk : k' = k
    · subst hk
      simp [hs', hphase, Phase.token?]
    · simp [hs', hk]
  refine ⟨fun i entry hentry => ?_, fun k' entry hk' => ?_, fun i k' hlast => ?_,
    fun k' t hk' => h.drawn k' t (by rwa [← htoken]), fun k₁ k₂ t h₁ h₂ =>
      h.distinct k₁ k₂ t (by rwa [← htoken]) (by rwa [← htoken]), fun k' hk' => ?_⟩
  · by_cases hi : i = ident k
    · subst hi
      obtain rfl : (token, k) = entry := by simpa [hs'] using hentry
      exact ⟨rfl, by simp [hs'], hown⟩
    · obtain ⟨hid, hlast, hhandle⟩ := h.held i entry (by simpa [hs', hi] using hentry)
      have hk : entry.2 ≠ k := by
        rintro rfl
        exact hi hid.symm
      exact ⟨hid, by simpa [hs', hi] using hlast, by rwa [hother _ hk]⟩
  · by_cases hk : k' = k
    · subst hk
      rw [hown] at hk'
      simpa [hs'] using hk'
    · rw [hother _ hk] at hk'
      have hentry := h.kept k' entry hk'
      have hid : ident k' ≠ ident k := by
        intro hid
        rw [hid, hnone] at hentry
        cases hentry
      simpa [hs', hid] using hentry
  · by_cases hi : i = ident k
    · subst hi
      obtain rfl : k = k' := by simpa [hs'] using hlast
      rfl
    · exact h.placed i k' (by simpa [hs', hi] using hlast)
  · by_cases hk : k' = k
    · subst hk
      simp [hs'] at hk'
    · exact h.unfired k' (by simpa [hs', hk] using hk')

theorem register_eq (token : ℕ) :
    s.register ident k token =
      { s.cancel (ident k) with
        inFlight := Function.update (s.cancel (ident k)).inFlight (ident k) (some (token, k))
        phase := Function.update (s.cancel (ident k)).phase k (.running token)
        last := Function.update (s.cancel (ident k)).last (ident k) (some k) } := by
  simp [State.register, State.cancel]

theorem inv_step (h : Inv ident s) (a : Step ι τ) : Inv ident (step ident s a) := by
  cases a with
  | tag k =>
    rw [step]
    split
    · exact inv_tag h (by assumption)
    · exact h
  | register k =>
    rw [step]
    split
    next token hphase =>
      rw [register_eq]
      refine inv_insert (h.drops (drops_cancel h (ident k))) ?_ (by simp [State.cancel])
      simpa [State.cancel] using hphase
    next => exact h
  | complete k =>
    rw [step]
    split
    next token hphase => exact h.drops (drops_complete h hphase)
    next => exact h
  | cancel i => exact h.drops (drops_cancel h i)

theorem inv_run (ident : τ → ι) (steps : List (Step ι τ)) :
    Inv ident (Runs.run (step ident) State.start steps) := by
  induction steps using List.reverseRecOn with
  | nil => exact inv_start ident
  | append_singleton steps a ih =>
    rw [Runs.run_append]
    exact inv_step ih a

end

end Voleeo.Live.HttpExecutor
