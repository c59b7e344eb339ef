import Mathlib.Data.List.Induction
import Mathlib.Data.List.Sort
import Voleeo.Entities
import Voleeo.Runs
import Voleeo.SharedFiles

/-!
# Transcripts of connections and streaming calls

The transcript file of a connection holds its sessions, the newest first. Each
frame and each timeline event that arrives is appended by a task of its own,
which reads the file and writes it back. WebSocket and gRPC transcripts differ in
the type of their messages only.
-/
namespace Voleeo.Transcripts
open SharedFiles

/-- Max retained sessions per connection, and per-session message and event caps. -/
def sessionCap : ℕ := 20
def messageCap : ℕ := 500
def eventCap : ℕ := 500

/-- `ownerId` is the id of the connection or of the gRPC request. -/
structure StoredSession (μ : Type) where
  id : String
  ownerId : String
  recordedAt : String
  messages : List μ
  events : List TimelineEvent
  deriving DecidableEq, Repr

abbrev StoredWsSession := StoredSession WsMessage
abbrev StoredGrpcSession := StoredSession GrpcStreamMessage

variable {μ : Type}

/-- A file that is missing or does not parse has no sessions. -/
abbrev SessionFile (μ : Type) := Option (List (StoredSession μ))

def read (file : SessionFile μ) : List (StoredSession μ) := file.getD []

/-- The id and the time that the code takes for a session it opens. -/
structure Fresh where
  id : String
  now : String

def openSession (ownerId : String) (fresh : Fresh) : StoredSession μ :=
  { id := fresh.id, ownerId, recordedAt := fresh.now, messages := [], events := [] }

def startSession (ownerId : String) (fresh : Fresh) (file : SessionFile μ) : SessionFile μ :=
  some ((openSession ownerId fresh :: read file).take sessionCap)

def ensureSession (ownerId : String) (fresh : Fresh) (sessions : List (StoredSession μ)) :
    StoredSession μ × List (StoredSession μ) :=
  match sessions with
  | [] => (openSession ownerId fresh, [])
  | session :: rest => (session, rest)

def appendMessage (ownerId : String) (fresh : Fresh) (message : μ) (file : SessionFile μ) :
    SessionFile μ :=
  let (session, rest) := ensureSession ownerId fresh (read file)
  some ({ session with messages := pushCapped messageCap session.messages message } :: rest)

def appendEvent (ownerId : String) (fresh : Fresh) (event : TimelineEvent)
    (file : SessionFile μ) : SessionFile μ :=
  let (session, rest) := ensureSession ownerId fresh (read file)
  some ({ session with events := pushCapped eventCap session.events event } :: rest)

/-- The newest session, or an empty one. -/
def latest (ownerId : String) (file : SessionFile μ) : StoredSession μ :=
  (read file).head?.getD
    { id := "", ownerId, recordedAt := "", messages := [], events := [] }

/-! ## The tasks of a sink -/

/-- What a connection hands to the sink and the sink stores. -/
inductive Delivery (μ : Type)
  | message (m : μ)
  | timeline (event : TimelineEvent)

def Delivery.message? : Delivery μ → Option μ
  | .message m => some m
  | .timeline _ => none

def Delivery.timeline? : Delivery μ → Option TimelineEvent
  | .message _ => none
  | .timeline event => some event

def Delivery.append (ownerId : String) (fresh : Fresh) (d : Delivery μ) :
    SessionFile μ → SessionFile μ :=
  match d with
  | .message m => appendMessage ownerId fresh m
  | .timeline event => appendEvent ownerId fresh event

/-- The one file of the store that a sink works on. -/
abbrev Disk (μ : Type) (_ : Unit) : Type := SessionFile μ

/-- The background task of a delivery reads the session file and writes it. -/
def appendTask (ownerId : String) (fresh : Fresh) (d : Delivery μ) : Call (Disk μ) :=
  .load () fun file => .save () (d.append ownerId fresh file) .done

/-- The tasks that the sink has spawned for its deliveries, on the file of a new session. -/
def sink (ownerId : String) (fresh : ℕ → Fresh) (old : SessionFile μ)
    (deliveries : List (Delivery μ)) : System (Disk μ) ℕ where
  files _ := startSession ownerId (fresh 0) old
  calls i :=
    match deliveries[i]? with
    | some d => appendTask ownerId (fresh (i + 1)) d
    | none => .done

/-! ## Appends one after another -/

section Serial

variable {ownerId : String} {fresh : ℕ → Fresh} {deliveries : List (Delivery μ)}

/-- The newest session of the file has stored these messages and events. -/
def Holds (messages : List μ) (events : List TimelineEvent) (file : SessionFile μ) : Prop :=
  ∃ session rest, file = some (session :: rest) ∧
    session.messages = lastN messageCap messages ∧ session.events = lastN eventCap events

theorem holds_startSession (fresh : Fresh) (old : SessionFile μ) :
    Holds [] [] (startSession ownerId fresh old) :=
  ⟨openSession ownerId fresh, (read old).take (sessionCap - 1), rfl, by simp [openSession, lastN],
    by simp [openSession, lastN]⟩

theorem Holds.append {messages : List μ} {events : List TimelineEvent} {file : SessionFile μ}
    (h : Holds messages events file) (fresh : Fresh) (d : Delivery μ) :
    Holds (messages ++ d.message?.toList) (events ++ d.timeline?.toList)
      (d.append ownerId fresh file) := by
  obtain ⟨session, rest, rfl, hmessages, hevents⟩ := h
  cases d with
  | message m =>
    refine ⟨_, rest, rfl, ?_, ?_⟩
    · change pushCapped messageCap session.messages m = _
      rw [hmessages, pushCapped_lastN]
      rfl
    · change session.events = _
      rw [hevents]
      exact congrArg _ (List.append_nil events).symm
  | timeline event =>
    refine ⟨_, rest, rfl, ?_, ?_⟩
    · change session.messages = _
      rw [hmessages]
      exact congrArg _ (List.append_nil messages).symm
    · change pushCapped eventCap session.events event = _
      rw [hevents, pushCapped_lastN]
      rfl

/-- Appends run one after another store their deliveries in that order. -/
theorem holds_serial (old : SessionFile μ) (order : List ℕ) :
    Holds (order.filterMap fun i => deliveries[i]?.bind Delivery.message?)
      (order.filterMap fun i => deliveries[i]?.bind Delivery.timeline?)
      (serial (sink ownerId fresh old deliveries) order ()) := by
  induction order using List.reverseRecOn with
  | nil => exact holds_startSession (fresh 0) old
  | append_singleton order i ih =>
    rw [serial, List.foldl_append]
    simp only [List.filterMap_append, List.foldl_cons, List.foldl_nil]
    change Holds _ _ ((Call.exec (match deliveries[i]? with
      | some d => appendTask ownerId (fresh (i + 1)) d
      | none => .done) (serial (sink ownerId fresh old deliveries) order)) ())
    cases hd : deliveries[i]? with
    | none =>
      simp only [List.filterMap_cons, hd, Option.bind_none, List.filterMap_nil, List.append_nil]
      exact ih
    | some d =>
      have hstep := @Holds.append _ ownerId _ _ _ ih (fresh (i + 1)) d
      have hone : ∀ {β : Type} (f : Delivery μ → Option β),
          ([i].filterMap fun j => deliveries[j]?.bind f) = (f d).toList := by
        intro β f
        simp only [List.filterMap_cons, hd, Option.bind_some, List.filterMap_nil]
        cases f d <;> rfl
      rw [hone, hone]
      simpa [appendTask, Call.exec] using hstep

end Serial

/-! ## Appends in any order of their steps -/

section Runs

variable {ownerId : String} {fresh : ℕ → Fresh} {old : SessionFile μ}
  {deliveries : List (Delivery μ)}

/-- The deliveries that `f` picks are taken in the order in which they arrived. -/
def InArrivalOrder {α : Type} (deliveries : List (Delivery μ)) (f : Delivery μ → Option α)
    (order : List ℕ) : Prop :=
  (order.filter fun i => (deliveries[i]?.bind f).isSome).Pairwise (· < ·)

theorem filterMap_range_getElem? {β : Type} (xs : List β) :
    (List.range xs.length).filterMap (fun i => xs[i]?) = xs := by
  induction xs with
  | nil => rfl
  | cons x xs ih =>
    rw [List.length_cons, List.range_succ_eq_map, List.filterMap_cons, List.filterMap_map]
    exact congrArg (x :: ·) ih

instance {α : Type} (f : Delivery μ → Option α) (order : List ℕ) :
    Decidable (InArrivalOrder deliveries f order) :=
  inferInstanceAs (Decidable (List.Pairwise _ _))

/-- Every delivery picked is taken once, in the order of arrival. -/
theorem filterMap_order {α : Type} {f : Delivery μ → Option α} {order : List ℕ}
    (hperm : order.Perm (List.range deliveries.length))
    (horder : InArrivalOrder deliveries f order) :
    order.filterMap (fun i => deliveries[i]?.bind f) = deliveries.filterMap f := by
  have hpicked : order.filter (fun i => (deliveries[i]?.bind f).isSome) =
      (List.range deliveries.length).filter fun i => (deliveries[i]?.bind f).isSome :=
    (hperm.filter _).eq_of_pairwise (fun _ _ _ _ hab hba => absurd hab hba.asymm) horder
      (List.pairwise_lt_range.filter _)
  have hfilter : ∀ l : List ℕ, l.filterMap (fun i => deliveries[i]?.bind f) =
      (l.filter fun i => (deliveries[i]?.bind f).isSome).filterMap
        fun i => deliveries[i]?.bind f := by
    intro l
    rw [List.filterMap_filter]
    refine List.filterMap_congr fun i _ => ?_
    cases deliveries[i]?.bind f <;> rfl
  rw [hfilter, hpicked, ← hfilter, ← List.filterMap_filterMap, filterMap_range_getElem?]

/-- Once all tasks have run, the newest session holds the last frames and the last timeline
events, each in the order in which they arrived. -/
def KeepsDeliveries (ownerId : String) (fresh : ℕ → Fresh) (old : SessionFile μ)
    (deliveries : List (Delivery μ)) (schedule : List ℕ) : Prop :=
  let final := run (sink ownerId fresh old deliveries) schedule
  Finished final →
    (latest ownerId (final.files ())).messages =
        lastN messageCap (deliveries.filterMap Delivery.message?) ∧
      (latest ownerId (final.files ())).events =
        lastN eventCap (deliveries.filterMap Delivery.timeline?)

/-- Appends that do not cut into one another, frames after earlier frames and events after
earlier events, keep all deliveries. -/
theorem separate_appends_keep_deliveries (ownerId : String) (fresh : ℕ → Fresh)
    (old : SessionFile μ) (deliveries : List (Delivery μ)) (schedule order : List ℕ)
    (hperm : order.Perm (List.range deliveries.length))
    (hfollows : Follows order (trace (sink ownerId fresh old deliveries) schedule))
    (hmessages : InArrivalOrder deliveries Delivery.message? order)
    (hevents : InArrivalOrder deliveries Delivery.timeline? order) :
    KeepsDeliveries ownerId fresh old deliveries schedule := by
  intro hfinished
  have hidle : ∀ i, i ∉ order → (sink ownerId fresh old deliveries).calls i = .done := by
    intro i hi
    have hle : deliveries.length ≤ i := by
      by_contra hlt
      exact hi (hperm.mem_iff.mpr (List.mem_range.mpr (not_le.mp hlt)))
    change (match deliveries[i]? with
      | some d => appendTask ownerId (fresh (i + 1)) d
      | none => .done) = _
    rw [List.getElem?_eq_none hle]
  have hnodup : order.Nodup := hperm.nodup_iff.mpr List.nodup_range
  have hholds := @holds_serial _ ownerId fresh deliveries old order
  rw [filterMap_order hperm hmessages, filterMap_order hperm hevents,
    ← files_run hfollows hfinished hidle hnodup] at hholds
  obtain ⟨session, rest, hfile, hm, he⟩ := hholds
  simp only [latest, read, hfile, Option.getD_some, List.head?_cons]
  exact ⟨hm, he⟩

/-! ## A lost frame -/

def sampleMessage (data : String) : WsMessage :=
  { id := data, direction := .incoming, kind := .text, data, size := data.length, «at» := "" }

def sampleFresh (i : ℕ) : Fresh := { id := toString i, now := "" }

/-- Two frames, each appended by its own task. -/
def twoFrames : List (Delivery WsMessage) :=
  [.message (sampleMessage "a"), .message (sampleMessage "b")]

theorem separate_appends_keep_two_frames :
    KeepsDeliveries "c1" sampleFresh none twoFrames [0, 0, 1, 1] :=
  separate_appends_keep_deliveries "c1" sampleFresh none twoFrames [0, 0, 1, 1] [0, 1]
    (List.Perm.refl _) (by decide) (by decide) (by decide)

/-- Both tasks read the file of the empty session; the one that writes last erases the frame of
the other. -/
theorem interleaved_appends_lose_a_frame :
    ¬ ∀ (deliveries : List (Delivery WsMessage)) (schedule : List ℕ),
      KeepsDeliveries "c1" sampleFresh none deliveries schedule := by
  intro h
  have hkept := h twoFrames [0, 1, 0, 1] fun i => ?_
  · exact absurd (congrArg List.length hkept.1) (by decide)
  · match i with
    | 0 => rfl
    | 1 => rfl
    | i + 2 => rfl

end Runs

end Voleeo.Transcripts
