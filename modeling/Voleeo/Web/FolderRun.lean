import Voleeo.Runs
import Voleeo.Web.HttpStore
import Mathlib.Data.List.Nodup
import Mathlib.Tactic.SplitIfs

/-!
# Runs of a folder

A run resolves and sends the included requests of a folder, one after another or
all at once. Each section between two awaits is one step. The store that the rows
are drawn from is shared with the buttons, so that a run can be cancelled between
any two steps.
-/
namespace Voleeo.Web

inductive RunStrategy
  | sequential
  | parallel
  deriving DecidableEq, Repr

inductive ReqRunStatus
  | pending
  | running
  | done
  | error
  | skipped
  deriving DecidableEq, Repr

inductive RunStatus
  | idle
  | running
  deriving DecidableEq, Repr

structure FolderRunStore where
  strategy : RunStrategy
  included : String → Option Bool
  status : RunStatus
  reqStatus : String → Option ReqRunStatus
  cancelRequested : Bool
  pendingStart : Bool

namespace FolderRunStore

def consumeStart (s : FolderRunStore) : FolderRunStore := { s with pendingStart := false }

def start (s : FolderRunStore) (ids : List String) : FolderRunStore :=
  { s with
    status := .running
    cancelRequested := false
    reqStatus := fun id => if id ∈ ids then some .pending else none }

def setReqStatus (s : FolderRunStore) (id : String) (status : ReqRunStatus) : FolderRunStore :=
  { s with reqStatus := Function.update s.reqStatus id (some status) }

def finish (s : FolderRunStore) : FolderRunStore :=
  { s with status := .idle, cancelRequested := false }

def requestCancel (s : FolderRunStore) : FolderRunStore := { s with cancelRequested := true }

end FolderRunStore

inductive Sent
  | sent
  | aborted
  deriving DecidableEq, Repr

/-- The row status of a send. An empty error text counts as none. -/
def outcomeFor (http : HttpStore) (id : String) : Sent → ReqRunStatus
  | .aborted => .skipped
  | .sent =>
    if (http.errors id).getD "" ≠ "" then .error
    else
      match http.responses id with
      | some resp => if resp.status = 0 then .skipped else .done
      | none => .done

/-- How the resolving of a stored request ends. -/
inductive Resolution
  | payload
  | aborted
  | threw
  deriving DecidableEq, Repr

/-- How far `resolveAndSendStoredRequest` has come for a request. -/
inductive SendTask
  | pending
  | resolving
  | sending
  | settled
  deriving DecidableEq, Repr

/-- The promise of the sequential loop. -/
inductive Loop
  | active
  | ended
  | threw
  deriving DecidableEq, Repr

/-- A dispatched send, and whether the run was cancelled before. -/
structure Dispatch where
  id : String
  cancelled : Bool
  deriving DecidableEq, Repr

structure FolderRun where
  store : FolderRunStore
  strategy : RunStrategy
  toRun : List String
  task : String → SendTask
  /-- The requests that the sequential loop has not come to. -/
  rest : List String
  loop : Loop
  /-- `runningRef.current` -/
  running : Bool
  dispatched : List Dispatch
  /-- The ids that `cancelRequest` was called with. -/
  cancelCalls : List String

namespace FolderRun

/-- A request gets its status, and its promise is settled. -/
def settle (r : FolderRun) (id : String) (status : ReqRunStatus) : FolderRun :=
  { r with
    store := r.store.setReqStatus id status
    task := Function.update r.task id .settled }

def beginRequest (r : FolderRun) (id : String) : FolderRun :=
  { r with
    store := r.store.setReqStatus id .running
    task := Function.update r.task id .resolving }

/-- The loop of `runSequential` from the top of an iteration to its next await. -/
def runSequential (r : FolderRun) : List String → FolderRun
  | [] => { r with rest := [], loop := .ended }
  | id :: rest =>
    if r.store.cancelRequested then (r.settle id .skipped).runSequential rest
    else { r.beginRequest id with rest }

def runParallel (r : FolderRun) (ids : List String) : FolderRun := ids.foldl beginRequest r

/-- What follows when the promise of a request is settled. -/
def next (r : FolderRun) : FolderRun :=
  match r.strategy with
  | .sequential => r.runSequential r.rest
  | .parallel => r

end FolderRun

/-- The start of a run: `none` where no request is included. -/
def FolderRunStore.startRun (s : FolderRunStore) (ordered : List String) : Option FolderRun :=
  let toRun := ordered.filter fun id => s.included id ≠ some false
  if toRun = [] then none
  else
    let r : FolderRun :=
      { store := s.consumeStart.start toRun
        strategy := s.strategy
        toRun
        task := fun _ => .pending
        rest := []
        loop := .active
        running := true
        dispatched := []
        cancelCalls := [] }
    some <|
      match s.strategy with
      | .parallel => r.runParallel toRun
      | .sequential => r.runSequential toRun

inductive FolderRunStep
  | requestCancel
  /-- The effect that a cancelled run triggers. -/
  | cancelEffect
  | resolved (id : String) (resolution : Resolution)
  /-- The send of a request is over, and this is then the store of responses. -/
  | sent (id : String) (http : HttpStore)
  | finish

namespace FolderRun

/-- The promise of the whole run is settled. -/
def isSettled (r : FolderRun) : Bool :=
  match r.strategy with
  | .sequential => r.loop ≠ .active
  | .parallel => r.toRun.all fun id => r.task id = .settled

def resolve (r : FolderRun) (id : String) : Resolution → FolderRun
  | .payload =>
    { r with
      task := Function.update r.task id .sending
      dispatched := r.dispatched ++ [{ id, cancelled := r.store.cancelRequested }] }
  | .aborted => (r.settle id .skipped).next
  | .threw =>
    match r.strategy with
    | .sequential => { r with task := Function.update r.task id .settled, loop := .threw }
    | .parallel => r.settle id .error

def step (r : FolderRun) : FolderRunStep → FolderRun
  | .requestCancel => { r with store := r.store.requestCancel }
  | .cancelEffect =>
    if r.store.cancelRequested ∧ r.store.status = .running then
      { r with
        cancelCalls :=
          r.cancelCalls ++ r.toRun.filter fun id => r.store.reqStatus id = some .running }
    else r
  | .resolved id resolution => if r.task id = .resolving then r.resolve id resolution else r
  | .sent id http =>
    if r.task id = .sending then (r.settle id (outcomeFor http id .sent)).next else r
  | .finish =>
    if r.running ∧ r.isSettled then { r with store := r.store.finish, running := false } else r

end FolderRun

def ReqRunStatus.isFinal : ReqRunStatus → Bool
  | .done | .error | .skipped => true
  | _ => false

namespace FolderRun
variable (r : FolderRun)

def Final (id : String) : Prop := ∃ status, r.store.reqStatus id = some status ∧ status.isFinal

def Active (id : String) : Prop := r.task id = .resolving ∨ r.task id = .sending

/-- A finished run is idle with a final status for each request, no request is sent twice, and
none behind a cancel. -/
structure Right : Prop where
  final : r.running = false → r.store.status = .idle ∧ ∀ id ∈ r.toRun, r.Final id
  once : (r.dispatched.map (·.id)).Nodup
  early : ∀ d ∈ r.dispatched, d.cancelled = false

/-- A request is resolved before the run is cancelled, and a sequential run does not finish
because resolving threw. -/
def Clean : FolderRunStep → Prop
  | .resolved id .payload => r.task id = .resolving → r.store.cancelRequested = false
  | .finish => r.running → r.loop ≠ .threw
  | _ => True

structure Inv : Prop where
  pending : ∀ id ∈ r.rest, id ∈ r.toRun ∧ r.task id = .pending
  distinct : r.rest.Nodup
  once : (r.dispatched.map (·.id)).Nodup
  early : ∀ d ∈ r.dispatched,
    d.cancelled = false ∧ (r.task d.id = .sending ∨ r.task d.id = .settled)
  active : ∀ id, r.Active id → id ∈ r.toRun ∧ r.store.reqStatus id = some .running
  single : r.strategy = .sequential → ∀ id id', r.Active id → r.Active id' → id = id'
  parallel : r.strategy = .parallel → r.rest = [] ∧ r.loop = .active
  cover : r.loop ≠ .threw → ∀ id ∈ r.toRun, r.Final id ∨ r.Active id ∨ id ∈ r.rest
  ended : r.loop = .ended → r.rest = [] ∧ ∀ id, ¬ r.Active id
  threw : r.loop = .threw →
    (∃ id ∈ r.toRun, r.store.reqStatus id = some .running) ∧ ∀ id, ¬ r.Active id
  finished : r.running = false →
    r.store.status = .idle ∧ (∀ id ∈ r.toRun, r.Final id) ∧ ∀ id, ¬ r.Active id

end FolderRun

theorem outcomeFor_isFinal (http : HttpStore) (id : String) (outcome : Sent) :
    (outcomeFor http id outcome).isFinal := by
  cases outcome with
  | aborted => rfl
  | sent =>
    rw [outcomeFor]
    split_ifs
    · rfl
    · cases http.responses id with
      | none => rfl
      | some resp =>
        dsimp only
        split_ifs <;> rfl

namespace FolderRun

variable {r : FolderRun} {id : String} {status : ReqRunStatus}

/-! ## Settling and beginning a request -/

theorem active_settle (j : String) : (r.settle id status).Active j ↔ j ≠ id ∧ r.Active j := by
  by_cases hj : j = id
  · subst hj
    simp [Active, settle]
  · simp [Active, settle, hj]

theorem final_settle (hfinal : status.isFinal) (j : String) :
    (r.settle id status).Final j ↔ j = id ∨ r.Final j := by
  by_cases hj : j = id
  · subst hj
    simp [Final, settle, FolderRunStore.setReqStatus, hfinal]
  · simp [Final, settle, FolderRunStore.setReqStatus, hj]

theorem early_settle {k : ReqRunStatus} (h : ∀ d ∈ r.dispatched,
      d.cancelled = false ∧ (r.task d.id = .sending ∨ r.task d.id = .settled)) :
    ∀ d ∈ (r.settle id k).dispatched, d.cancelled = false ∧
      ((r.settle id k).task d.id = .sending ∨ (r.settle id k).task d.id = .settled) := by
  intro d hd
  obtain ⟨hcancelled, htask⟩ := h d hd
  refine ⟨hcancelled, ?_⟩
  by_cases hj : d.id = id
  · exact Or.inr (by simp [settle, hj])
  · simpa [settle, hj] using htask

theorem active_beginRequest (j : String) : (r.beginRequest id).Active j ↔ j = id ∨ r.Active j := by
  by_cases hj : j = id
  · subst hj
    simp [Active, beginRequest]
  · simp [Active, beginRequest, hj]

/-! ## The sequential loop -/

/-- The loop stands between two iterations, with `l` to come. -/
structure Between (r : FolderRun) (l : List String) : Prop where
  sequential : r.strategy = .sequential
  loop : r.loop = .active
  running : r.running = true
  idle : ∀ id, ¬ r.Active id
  pending : ∀ id ∈ l, id ∈ r.toRun ∧ r.task id = .pending
  distinct : l.Nodup
  once : (r.dispatched.map (·.id)).Nodup
  early : ∀ d ∈ r.dispatched,
    d.cancelled = false ∧ (r.task d.id = .sending ∨ r.task d.id = .settled)
  cover : ∀ id ∈ r.toRun, r.Final id ∨ id ∈ l

/-- A skipped request leaves the loop at its next iteration. -/
theorem Between.skip {rest : List String} (h : r.Between (id :: rest)) :
    (r.settle id .skipped).Between rest where
  sequential := h.sequential
  loop := h.loop
  running := h.running
  idle j hj := h.idle j ((active_settle j).mp hj).2
  pending j hj := by
    obtain ⟨hmem, htask⟩ := h.pending j (List.mem_cons_of_mem id hj)
    have hne : j ≠ id := by
      rintro rfl
      exact (List.nodup_cons.mp h.distinct).1 hj
    exact ⟨hmem, by simpa [settle, hne] using htask⟩
  distinct := (List.nodup_cons.mp h.distinct).2
  once := h.once
  early := early_settle h.early
  cover j hj := by
    rw [final_settle rfl]
    rcases h.cover j hj with hfinal | hmem
    · exact Or.inl (Or.inr hfinal)
    · rcases List.mem_cons.mp hmem with rfl | hrest
      · exact Or.inl (Or.inl rfl)
      · exact Or.inr hrest

theorem Between.inv_end (h : r.Between []) : Inv { r with rest := [], loop := .ended } where
  pending _ hid := absurd hid List.not_mem_nil
  distinct := List.nodup_nil
  once := h.once
  early := h.early
  active id hid := absurd hid (h.idle id)
  single _ id _ hid := absurd hid (h.idle id)
  parallel hparallel := by
    cases h.sequential.symm.trans hparallel
  cover _ id hid := Or.inl ((h.cover id hid).resolve_right List.not_mem_nil)
  ended _ := ⟨rfl, h.idle⟩
  threw hthrew := by cases hthrew
  finished hrunning := by
    cases h.running.symm.trans hrunning

/-- The loop waits for the request that it begins. -/
theorem Between.inv_begin {rest : List String} (h : r.Between (id :: rest)) :
    Inv { r.beginRequest id with rest } := by
  have hactive : ∀ j, Active { r.beginRequest id with rest } j ↔ j = id := by
    intro j
    rw [show Active { r.beginRequest id with rest } j ↔ (r.beginRequest id).Active j from Iff.rfl,
      active_beginRequest]
    exact or_iff_left (h.idle j)
  have hpending := h.pending id List.mem_cons_self
  exact {
    pending := by
      intro j hj
      obtain ⟨hmem, htask⟩ := h.pending j (List.mem_cons_of_mem id hj)
      have hne : j ≠ id := by
        rintro rfl
        exact (List.nodup_cons.mp h.distinct).1 hj
      exact ⟨hmem, by simpa [beginRequest, hne] using htask⟩
    distinct := (List.nodup_cons.mp h.distinct).2
    once := h.once
    early := by
      intro d hd
      obtain ⟨hcancelled, htask⟩ := h.early d hd
      have hne : d.id ≠ id := by
        intro hsame
        rw [hsame, hpending.2] at htask
        simp at htask
      exact ⟨hcancelled, by simpa [beginRequest, hne] using htask⟩
    active := by
      intro j hj
      obtain rfl := (hactive j).mp hj
      exact ⟨hpending.1, by simp [beginRequest, FolderRunStore.setReqStatus]⟩
    single := by
      intro _ j j' hj hj'
      rw [(hactive j).mp hj, (hactive j').mp hj']
    parallel := by
      intro hparallel
      cases h.sequential.symm.trans hparallel
    cover := by
      intro _ j hj
      by_cases hne : j = id
      · exact Or.inr (Or.inl ((hactive j).mpr hne))
      · rcases h.cover j hj with ⟨st, hst, hfinal⟩ | hmem
        · exact Or.inl ⟨st, by
            simpa [beginRequest, FolderRunStore.setReqStatus, hne] using hst, hfinal⟩
        · exact Or.inr (Or.inr ((List.mem_cons.mp hmem).resolve_left hne))
    ended := by
      intro hended
      cases h.loop.symm.trans hended
    threw := by
      intro hthrew
      cases h.loop.symm.trans hthrew
    finished := by
      intro hrunning
      cases h.running.symm.trans hrunning }

/-- The loop goes on to its next await, or to its end. -/
theorem inv_runSequential {l : List String} (h : r.Between l) : (r.runSequential l).Inv := by
  induction l generalizing r with
  | nil => exact h.inv_end
  | cons id rest ih =>
    rw [runSequential]
    split_ifs
    · exact ih h.skip
    · exact h.inv_begin

/-! ## What every clean step keeps -/

theorem Inv.right (h : r.Inv) : r.Right where
  final hrunning := ⟨(h.finished hrunning).1, (h.finished hrunning).2.1⟩
  once := h.once
  early d hd := (h.early d hd).1

/-- While a request is under way the run goes on. -/
theorem Inv.of_active (h : r.Inv) (hid : r.Active id) : r.loop = .active ∧ r.running = true := by
  constructor
  · cases hloop : r.loop with
    | active => rfl
    | ended => exact absurd hid ((h.ended hloop).2 id)
    | threw => exact absurd hid ((h.threw hloop).2 id)
  · by_contra hrunning
    exact (h.finished (by simpa using hrunning)).2.2 id hid

/-- Only what a request does to its own row and promise counts. -/
theorem Inv.settle_cover (h : r.Inv) (hid : r.Active id) (hfinal : status.isFinal) :
    ∀ j ∈ r.toRun, (r.settle id status).Final j ∨ (r.settle id status).Active j ∨ j ∈ r.rest := by
  intro j hj
  rw [final_settle hfinal, active_settle]
  by_cases hne : j = id
  · exact Or.inl (Or.inl hne)
  · have hloop : r.loop ≠ .threw := by simp [(h.of_active hid).1]
    exact (h.cover hloop j hj).imp Or.inr (Or.imp_left fun hactive => ⟨hne, hactive⟩)

theorem Inv.settle_pending {k : ReqRunStatus} (h : r.Inv) (hid : r.Active id) :
    ∀ j ∈ r.rest, j ∈ r.toRun ∧ (r.settle id k).task j = .pending := by
  intro j hj
  obtain ⟨hmem, htask⟩ := h.pending j hj
  have hne : j ≠ id := by
    rintro rfl
    simp [Active, htask] at hid
  exact ⟨hmem, by simpa [settle, hne] using htask⟩

/-- The one request of a sequential run is settled between two iterations. -/
theorem Inv.between (h : r.Inv) (hsequential : r.strategy = .sequential) (hid : r.Active id)
    (hfinal : status.isFinal) : (r.settle id status).Between r.rest where
  sequential := hsequential
  loop := (h.of_active hid).1
  running := (h.of_active hid).2
  idle j hj := by
    rw [active_settle] at hj
    exact hj.1 (h.single hsequential j id hj.2 hid)
  pending := h.settle_pending hid
  distinct := h.distinct
  once := h.once
  early := early_settle h.early
  cover j hj := by
    rcases h.settle_cover hid hfinal j hj with hdone | hactive | hrest
    · exact Or.inl hdone
    · rw [active_settle] at hactive
      exact absurd (h.single hsequential j id hactive.2 hid) hactive.1
    · exact Or.inr hrest

theorem Inv.settle_parallel (h : r.Inv) (hparallel : r.strategy = .parallel) (hid : r.Active id)
    (hfinal : status.isFinal) : (r.settle id status).Inv where
  pending := h.settle_pending hid
  distinct := h.distinct
  once := h.once
  early := early_settle h.early
  active j hj := by
    rw [active_settle] at hj
    obtain ⟨hmem, hrow⟩ := h.active j hj.2
    exact ⟨hmem, by simpa [settle, FolderRunStore.setReqStatus, hj.1] using hrow⟩
  single hsequential := by cases hparallel.symm.trans hsequential
  parallel := h.parallel
  cover _ := h.settle_cover hid hfinal
  ended hended := by cases (h.of_active hid).1.symm.trans hended
  threw hthrew := by cases (h.of_active hid).1.symm.trans hthrew
  finished hrunning := by cases (h.of_active hid).2.symm.trans hrunning

theorem Inv.settle_next (h : r.Inv) (hid : r.Active id) (hfinal : status.isFinal) :
    (r.settle id status).next.Inv := by
  cases hstrategy : r.strategy with
  | sequential =>
    rw [next, show (r.settle id status).strategy = .sequential from hstrategy]
    exact inv_runSequential (h.between hstrategy hid hfinal)
  | parallel =>
    rw [next, show (r.settle id status).strategy = .parallel from hstrategy]
    exact h.settle_parallel hstrategy hid hfinal

/-- The send of a resolved request is dispatched for the first time. -/
theorem Inv.dispatch (h : r.Inv) (hid : r.task id = .resolving)
    (hearly : r.store.cancelRequested = false) : (r.resolve id .payload).Inv := by
  have hactive : ∀ j, (r.resolve id .payload).Active j ↔ r.Active j := by
    intro j
    by_cases hj : j = id
    · subst hj
      simp [Active, resolve, hid]
    · simp [Active, resolve, hj]
  exact {
    pending := by
      intro j hj
      obtain ⟨hmem, htask⟩ := h.pending j hj
      have hne : j ≠ id := by
        rintro rfl
        simp [htask] at hid
      exact ⟨hmem, by simpa [resolve, hne] using htask⟩
    distinct := h.distinct
    once := by
      have hnew : id ∉ r.dispatched.map (·.id) := by
        intro hmem
        obtain ⟨d, hd, rfl⟩ := List.mem_map.mp hmem
        have htask := (h.early d hd).2
        simp [hid] at htask
      simpa [resolve] using List.Nodup.concat hnew h.once
    early := by
      intro d hd
      rcases List.mem_append.mp hd with hold | hnew
      · obtain ⟨hcancelled, htask⟩ := h.early d hold
        refine ⟨hcancelled, ?_⟩
        by_cases hj : d.id = id
        · exact Or.inl (by simp [resolve, hj])
        · simpa [resolve, hj] using htask
      · obtain rfl := List.mem_singleton.mp hnew
        exact ⟨hearly, Or.inl (by simp [resolve])⟩
    active := fun j hj => h.active j ((hactive j).mp hj)
    single := fun hsequential j j' hj hj' =>
      h.single hsequential j j' ((hactive j).mp hj) ((hactive j').mp hj')
    parallel := h.parallel
    cover := by
      intro hloop j hj
      rw [hactive]
      exact h.cover hloop j hj
    ended := fun hended =>
      ⟨(h.ended hended).1, fun j hj => (h.ended hended).2 j ((hactive j).mp hj)⟩
    threw := fun hthrew =>
      ⟨(h.threw hthrew).1, fun j hj => (h.threw hthrew).2 j ((hactive j).mp hj)⟩
    finished := fun hrunning => ⟨(h.finished hrunning).1, (h.finished hrunning).2.1,
      fun j hj => (h.finished hrunning).2.2 j ((hactive j).mp hj)⟩ }

/-- The exception ends the loop, and the row of its request is left running. -/
theorem Inv.throw_sequential (h : r.Inv) (hsequential : r.strategy = .sequential)
    (hid : r.Active id) :
    Inv { r with task := Function.update r.task id .settled, loop := .threw } := by
  have hidle : ∀ j,
      ¬ Active { r with task := Function.update r.task id .settled, loop := .threw } j := by
    intro j hj
    by_cases hne : j = id
    · subst hne
      simp [Active] at hj
    · exact hne (h.single hsequential j id (by simpa [Active, hne] using hj) hid)
  exact {
    pending := h.settle_pending (k := .error) hid
    distinct := h.distinct
    once := h.once
    early := early_settle (k := .error) h.early
    active := fun j hj => absurd hj (hidle j)
    single := fun _ j _ hj => absurd hj (hidle j)
    parallel := fun hparallel => by cases hsequential.symm.trans hparallel
    cover := fun hloop => absurd rfl hloop
    ended := fun hended => by cases hended
    threw := fun _ => ⟨⟨id, h.active id hid⟩, hidle⟩
    finished := fun hrunning => by cases (h.of_active hid).2.symm.trans hrunning }

theorem Inv.resolve (h : r.Inv) (hid : r.task id = .resolving) {resolution : Resolution}
    (hclean : r.Clean (.resolved id resolution)) : (r.resolve id resolution).Inv := by
  have hactive : r.Active id := Or.inl hid
  cases resolution with
  | payload => exact h.dispatch hid (hclean hid)
  | aborted => exact h.settle_next hactive rfl
  | threw =>
    rw [FolderRun.resolve]
    split
    · rename_i hsequential
      exact h.throw_sequential hsequential hactive
    · rename_i hparallel
      exact h.settle_parallel hparallel hactive rfl

/-- All requests begin at once. -/
theorem runParallel_eq (ids : List String) :
    r.runParallel ids = { r with
      store := { r.store with
        reqStatus := fun j => if j ∈ ids then some .running else r.store.reqStatus j }
      task := fun j => if j ∈ ids then .resolving else r.task j } := by
  induction ids generalizing r with
  | nil => simp [runParallel]
  | cons id ids ih =>
    rw [runParallel, List.foldl_cons, ← runParallel, ih]
    simp only [beginRequest, FolderRunStore.setReqStatus, List.mem_cons]
    congr 1
    · congr 1
      funext j
      by_cases hj : j = id
      · subst hj
        simp
      · simp [hj]
    · funext j
      by_cases hj : j = id
      · subst hj
        simp
      · simp [hj]

/-- The run stands before its first request. -/
structure Fresh (r : FolderRun) : Prop where
  task : ∀ id, r.task id = .pending
  rest : r.rest = []
  loop : r.loop = .active
  running : r.running = true
  dispatched : r.dispatched = []

theorem Fresh.inv_runSequential (h : r.Fresh) (hstrategy : r.strategy = .sequential)
    (hdistinct : r.toRun.Nodup) : (r.runSequential r.toRun).Inv :=
  FolderRun.inv_runSequential {
    sequential := hstrategy
    loop := h.loop
    running := h.running
    idle := fun id hid => by simp [Active, h.task] at hid
    pending := fun id hid => ⟨hid, h.task id⟩
    distinct := hdistinct
    once := by simp [h.dispatched]
    early := by simp [h.dispatched]
    cover := fun _ hid => Or.inr hid }

theorem Fresh.inv_runParallel (h : r.Fresh) (hstrategy : r.strategy = .parallel) :
    (r.runParallel r.toRun).Inv := by
  rw [runParallel_eq]
  exact {
    pending := by simp [h.rest]
    distinct := by simp [h.rest]
    once := by simp [h.dispatched]
    early := by simp [h.dispatched]
    active := by
      intro id hid
      have hmem : id ∈ r.toRun := by
        by_contra hmem
        simp [Active, hmem, h.task] at hid
      exact ⟨hmem, if_pos hmem⟩
    single := fun hsequential => by cases hstrategy.symm.trans hsequential
    parallel := fun _ => ⟨h.rest, h.loop⟩
    cover := fun _ id hid => Or.inr (Or.inl (Or.inl (if_pos hid)))
    ended := fun hended => by cases h.loop.symm.trans hended
    threw := fun hthrew => by cases h.loop.symm.trans hthrew
    finished := fun hrunning => by cases h.running.symm.trans hrunning }

theorem inv_startRun {s : FolderRunStore} {ordered : List String} (hdistinct : ordered.Nodup)
    (hstart : s.startRun ordered = some r) : r.Inv := by
  rw [FolderRunStore.startRun] at hstart
  dsimp only at hstart
  split_ifs at hstart
  have hkept : (ordered.filter fun id => s.included id ≠ some false).Nodup := hdistinct.filter _
  obtain rfl := Option.some.inj hstart
  cases hstrategy : s.strategy with
  | parallel => exact Fresh.inv_runParallel ⟨fun _ => rfl, rfl, rfl, rfl, rfl⟩ rfl
  | sequential => exact Fresh.inv_runSequential ⟨fun _ => rfl, rfl, rfl, rfl, rfl⟩ rfl hkept

/-- A settled run that no exception has ended has a final status for each request. -/
theorem Inv.final_of_settled (h : r.Inv) (hloop : r.loop ≠ .threw) (hsettled : r.isSettled) :
    (∀ id ∈ r.toRun, r.Final id) ∧ ∀ id, ¬ r.Active id := by
  have hidle : r.rest = [] ∧ ∀ id, ¬ r.Active id := by
    rw [isSettled] at hsettled
    split at hsettled
    · cases hcase : r.loop with
      | active => simp [hcase] at hsettled
      | ended => exact h.ended hcase
      | threw => exact absurd hcase hloop
    · rename_i hparallel
      refine ⟨(h.parallel hparallel).1, fun id hid => ?_⟩
      have htask := List.all_eq_true.mp hsettled id (h.active id hid).1
      rcases hid with hid | hid <;> simp [hid] at htask
  refine ⟨fun id hid => ?_, hidle.2⟩
  rcases h.cover hloop id hid with hfinal | hactive | hrest
  · exact hfinal
  · exact absurd hactive (hidle.2 id)
  · rw [hidle.1] at hrest
    exact absurd hrest List.not_mem_nil

theorem inv_step {a : FolderRunStep} (h : r.Inv) (hclean : r.Clean a) : (r.step a).Inv := by
  cases a with
  | requestCancel =>
    exact ⟨h.pending, h.distinct, h.once, h.early, h.active, h.single, h.parallel, h.cover,
      h.ended, h.threw, h.finished⟩
  | cancelEffect =>
    rw [step]
    split_ifs
    · exact ⟨h.pending, h.distinct, h.once, h.early, h.active, h.single, h.parallel, h.cover,
        h.ended, h.threw, h.finished⟩
    · exact h
  | resolved id resolution =>
    rw [step]
    split_ifs with hid
    · exact h.resolve hid hclean
    · exact h
  | sent id http =>
    rw [step]
    split_ifs with hid
    · exact h.settle_next (Or.inr hid) (outcomeFor_isFinal http id .sent)
    · exact h
  | finish =>
    rw [step]
    split_ifs with hready
    · obtain ⟨hrunning, hsettled⟩ := hready
      obtain ⟨hfinal, hidle⟩ := h.final_of_settled (hclean hrunning) hsettled
      exact ⟨h.pending, h.distinct, h.once, h.early, h.active, h.single, h.parallel, h.cover,
        h.ended, h.threw, fun _ => ⟨rfl, hfinal, hidle⟩⟩
    · exact h

theorem not_right_step {a : FolderRunStep} (h : r.Inv) (hclean : ¬ r.Clean a) :
    ¬ (r.step a).Right := by
  intro hright
  cases a with
  | resolved id resolution =>
    cases resolution with
    | payload =>
      simp only [Clean, not_forall, Bool.not_eq_false] at hclean
      obtain ⟨hid, hlate⟩ := hclean
      rw [step, if_pos hid] at hright
      have hearly := hright.early ⟨id, r.store.cancelRequested⟩ (by simp [FolderRun.resolve])
      cases hlate.symm.trans hearly
    | aborted => exact hclean trivial
    | threw => exact hclean trivial
  | finish =>
    simp only [Clean, not_forall, not_not] at hclean
    obtain ⟨hrunning, hthrew⟩ := hclean
    obtain ⟨⟨id, hmem, hrow⟩, -⟩ := h.threw hthrew
    have hsettled : r.isSettled := by
      rw [isSettled]
      split
      · simp [hthrew]
      · rename_i hparallel
        cases (h.parallel hparallel).2.symm.trans hthrew
    rw [step, if_pos ⟨hrunning, hsettled⟩] at hright
    obtain ⟨status, hstatus, hfinal⟩ := (hright.final rfl).2 id hmem
    obtain rfl : ReqRunStatus.running = status :=
      Option.some.inj (hrow.symm.trans hstatus)
    cases hfinal
  | requestCancel => exact hclean trivial
  | cancelEffect => exact hclean trivial
  | sent id http => exact hclean trivial

end FolderRun

/-- A run of distinct requests is right all along exactly if no request is resolved behind a
cancel, and no sequential run finishes because resolving threw. -/
theorem folder_run_right_iff {store : FolderRunStore} {ordered : List String} {r : FolderRun}
    (hdistinct : ordered.Nodup) (hstart : store.startRun ordered = some r)
    (steps : List FolderRunStep) :
    (∀ front, front <+: steps → (Runs.run FolderRun.step r front).Right) ↔
      ∀ front a, front ++ [a] <+: steps → (Runs.run FolderRun.step r front).Clean a :=
  Runs.holds_along_iff FolderRun.step FolderRun.Inv FolderRun.Right FolderRun.Clean
    (fun _ => FolderRun.Inv.right) (fun _ _ => FolderRun.inv_step)
    (fun _ _ => FolderRun.not_right_step) (FolderRun.inv_startRun hdistinct hstart) steps

/-- A run of some requests right behind its start. -/
def FolderRun.ofIds (strategy : RunStrategy) (ids : List String) : Option FolderRun :=
  FolderRunStore.startRun
    { strategy
      included := fun _ => none
      status := .idle
      reqStatus := fun _ => none
      cancelRequested := false
      pendingStart := true } ids

/-- Two requests run side by side; one fails to resolve, and the run is cancelled while the other
one is sent. -/
theorem folder_run_right_sample :
    (∀ front, front <+:
        [.resolved "r1" .payload, .resolved "r2" .threw, .requestCancel, .cancelEffect] →
      (Runs.run FolderRun.step ((FolderRun.ofIds .parallel ["r1", "r2"]).get rfl) front).Right) ↔
    ∀ front a, front ++ [a] <+:
        [.resolved "r1" .payload, .resolved "r2" .threw, .requestCancel, .cancelEffect] →
      (Runs.run FolderRun.step ((FolderRun.ofIds .parallel ["r1", "r2"]).get rfl) front).Clean a :=
  folder_run_right_iff (by decide) (Option.some_get _).symm _

/-- A request whose resolving throws stays running, and the one behind it pending. Of another run a
request is sent that is resolved behind the cancel. -/
theorem thrown_resolution_leaves_rows :
    ¬ (Runs.run FolderRun.step ((FolderRun.ofIds .sequential ["r1", "r2"]).get rfl)
        [.resolved "r1" .threw, .finish]).Right ∧
    ¬ (Runs.run FolderRun.step ((FolderRun.ofIds .parallel ["r1"]).get rfl)
        [.requestCancel, .cancelEffect, .resolved "r1" .payload]).Right := by
  constructor
  · intro hright
    obtain ⟨status, hstatus, hfinal⟩ := (hright.final (by decide)).2 "r2" (by decide)
    obtain rfl : ReqRunStatus.pending = status := Option.some.inj hstatus
    cases hfinal
  · intro hright
    exact absurd (hright.early ⟨"r1", true⟩ (by decide)) (by decide)

end Voleeo.Web
