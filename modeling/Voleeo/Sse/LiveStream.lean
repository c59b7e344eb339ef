import Mathlib
import Voleeo.Entities
import Voleeo.Runs

/-!
# Live frames of a streamed send

While a stream runs, the sink collects its frames in a batch. The sink and a
ticker flush the batch: they emit it to the window as one event and hand it to
the accumulator, from which the stored response is built. The send command stops
the ticker, waits for it, and drains what is left. Each section under the lock of
the batch is one step.
-/
namespace Voleeo.Sse.Live

/-- A frame with its timeline row. -/
abbrev FrameRow := SseFrame × TimelineEvent

/-! ## The accumulator -/

structure SseAccum where
  status : ℕ
  statusText : String
  headers : List HttpResponseHeader
  openEvents : List TimelineEvent
  frameEvents : List TimelineEvent
  frames : List SseFrame
  bytes : ℕ
  capturedCookies : List StoredCookie
  attachedCookies : List StoredCookie
  deriving DecidableEq, Repr

namespace SseAccum

def frameCap : ℕ := 2000

def empty : SseAccum := ⟨0, "", [], [], [], [], 0, [], []⟩

/-- Record the response line, the headers and the connection setup. -/
def opened (a : SseAccum) (status : ℕ) (statusText : String)
    (headers : List HttpResponseHeader) (events : List TimelineEvent) : SseAccum :=
  { a with status, statusText, headers, openEvents := events }

def setCookies (a : SseAccum) (captured attached : List StoredCookie) : SseAccum :=
  { a with capturedCookies := captured, attachedCookies := attached }

/-- `push_back`, then `pop_front` past the cap. -/
def push {α : Type} (xs : List α) (x : α) : List α :=
  let xs := xs ++ [x]
  if xs.length > frameCap then xs.tail else xs

/-- `u32::saturating_add` of a length cast to `u32`. -/
def addBytes (bytes len : ℕ) : ℕ := min (bytes + len % 2 ^ 32) (2 ^ 32 - 1)

def frame (a : SseAccum) (row : FrameRow) : SseAccum :=
  { a with
    bytes := addBytes a.bytes row.1.data.utf8ByteSize
    frameEvents := push a.frameEvents row.2
    frames := push a.frames row.1 }

def isSse (a : SseAccum) : Bool := a.openEvents ≠ [] ∨ a.frames ≠ []

def timeline (a : SseAccum) : List TimelineEvent := a.openEvents ++ a.frameEvents

/-- The natural end of a stream, or a plain response. -/
def finalize (a : SseAccum) (response : HttpResponse) : HttpResponse :=
  if a.isSse then
    { response with
      events := a.timeline ++ (response.events.reverse.find? fun e => e.kind = "done").toList
      bodySize := a.bytes
      sseFrames := a.frames }
  else { response with sseFrames := a.frames }

/-- The response of a stream that ended early, with a closing row. -/
def rebuild (a : SseAccum) (requestId closingKind closingText : String) : HttpResponse :=
  let totalMs := (a.timeline.getLast?.map (·.atMs)).getD 0
  { requestId
    status := a.status
    statusText := a.statusText
    headers := a.headers
    body := ""
    bodySize := a.bytes
    bodyIsText := true
    bodyWindowed := false
    bodyLineCount := 0
    responseId := ""
    timing := { HttpTiming.zero with downloadMs := totalMs, totalMs }
    events := a.timeline ++ [⟨totalMs, closingKind, closingText⟩]
    redirectWarning := none
    capturedCookies := a.capturedCookies
    attachedCookies := a.attachedCookies
    sseFrames := a.frames }

def intoCancelledResponse (a : SseAccum) (requestId : String) : HttpResponse :=
  a.rebuild requestId "info" "Stream cancelled"

def intoInterruptedResponse (a : SseAccum) (requestId message : String) : HttpResponse :=
  a.rebuild requestId "error" message

end SseAccum

/-! ## The batch -/

def sseBatchMax : ℕ := 256
def sseFlushMs : ℕ := 33

def sseShouldFlush (len elapsedMs : ℕ) : Bool := len ≥ sseBatchMax ∨ elapsedMs ≥ sseFlushMs

/-- What the executor tells the sink. -/
inductive SseEvent
  | opened (status : ℕ) (statusText : String) (headers : List HttpResponseHeader)
      (events : List TimelineEvent) (capturedCookies attachedCookies : List StoredCookie)
  | frame (row : FrameRow)

/-- How a send fails: cancelled, or with the message of the error. -/
inductive SendError
  | cancelled
  | failed (message : String)
  deriving DecidableEq, Repr

/-- Where the send command is. -/
inductive Phase
  | sending
  | returned (result : Except SendError HttpResponse)
  | stopping (result : Except SendError HttpResponse)
  | drained (result : Except SendError HttpResponse)
  | responded (response : Except SendError HttpResponse)

/-- The batch, the accumulator and the two tasks. `emitted` lists the `sse:frames` events that
went to the window, `received` the arguments that `SseAccum.frame` was called with. -/
structure LiveStream where
  requestId : String
  buf : List FrameRow
  accum : SseAccum
  emitted : List (List FrameRow)
  received : List FrameRow
  tickerRunning : Bool
  phase : Phase

def LiveStream.start (requestId : String) : LiveStream :=
  { requestId, buf := [], accum := .empty, emitted := [], received := [], tickerRunning := true,
    phase := .sending }

def flushSseBatch (s : LiveStream) : LiveStream :=
  if s.buf = [] then s
  else
    { s with
      emitted := s.emitted ++ [s.buf]
      accum := s.buf.foldl SseAccum.frame s.accum
      received := s.received ++ s.buf
      buf := [] }

def sink (s : LiveStream) (event : SseEvent) (elapsedMs : ℕ) : LiveStream :=
  match event with
  | .opened status statusText headers events captured attached =>
    { s with accum :=
        (s.accum.opened status statusText headers events).setCookies captured attached }
  | .frame row =>
    let s := { s with buf := s.buf ++ [row] }
    if sseShouldFlush s.buf.length elapsedMs then flushSseBatch s else s

def tick (s : LiveStream) (elapsedMs : ℕ) : LiveStream :=
  if s.buf ≠ [] ∧ elapsedMs ≥ sseFlushMs then flushSseBatch s else s

/-- The response that the send command goes on with. -/
def respond (requestId : String) (a : SseAccum) (result : Except SendError HttpResponse) :
    Except SendError HttpResponse :=
  match result with
  | .ok r => .ok (a.finalize r)
  | .error .cancelled =>
    if a.isSse then .ok (a.intoCancelledResponse requestId) else .error .cancelled
  | .error (.failed message) =>
    if a.isSse then .ok (a.intoInterruptedResponse requestId message)
    else .error (.failed message)

/-! ## Steps -/

inductive Action
  | sink (event : SseEvent) (elapsedMs : ℕ)
  | tick (elapsedMs : ℕ)
  | sendReturns (result : Except SendError HttpResponse)
  | sendStop
  | tickerExits
  | drain
  | takeAccum

/-- A step of the sink, the ticker or the send command, `none` where it is not its turn. The
ticker may tick until it exits, also after the stop was sent. -/
def step (s : LiveStream) (a : Action) : Option LiveStream :=
  match a, s.phase, s.tickerRunning with
  | .sink event elapsedMs, .sending, _ => some (sink s event elapsedMs)
  | .tick elapsedMs, _, true => some (tick s elapsedMs)
  | .sendReturns result, .sending, _ => some { s with phase := .returned result }
  | .sendStop, .returned result, _ => some { s with phase := .stopping result }
  | .tickerExits, .stopping _, true => some { s with tickerRunning := false }
  | .drain, .stopping result, false =>
    some { flushSseBatch s with phase := .drained result }
  | .takeAccum, .drained result, _ =>
    some { s with accum := .empty, phase := .responded (respond s.requestId s.accum result) }
  | _, _, _ => none

def run (s : LiveStream) (actions : List Action) : Option LiveStream := actions.foldlM step s

def Action.frame? : Action → Option FrameRow
  | .sink (.frame row) _ => some row
  | _ => none

/-- The frames that were pushed to the sink. -/
def pushed (actions : List Action) : List FrameRow := actions.filterMap Action.frame?

/-! ## What the accumulator has received -/

namespace SseAccum

variable {α : Type} {a : SseAccum} {rows : List FrameRow}

theorem push_eq {xs : List α} (x : α) (h : xs.length ≤ frameCap) :
    push xs x = lastN frameCap (xs ++ [x]) := by
  rw [push, lastN, List.length_append, List.length_singleton]
  split_ifs with hcap
  · rw [show xs.length + 1 - frameCap = 1 by omega, List.drop_one]
  · rw [show xs.length + 1 - frameCap = 0 by omega, List.drop_zero]

theorem push_lastN (xs : List α) (x : α) :
    push (lastN frameCap xs) x = lastN frameCap (xs ++ [x]) := by
  rw [push_eq x (length_lastN_le frameCap xs), lastN_append_singleton]

/-- The accumulator holds what is left of these frames under its caps. -/
structure Accumulated (rows : List FrameRow) (a : SseAccum) : Prop where
  frames : a.frames = lastN frameCap (rows.map Prod.fst)
  frameEvents : a.frameEvents = lastN frameCap (rows.map Prod.snd)
  bytes : a.bytes = (rows.map fun row => row.1.data.utf8ByteSize).foldl addBytes 0

theorem accumulated_empty : Accumulated [] empty :=
  ⟨by simp [empty], by simp [empty], rfl⟩

theorem Accumulated.frame (h : Accumulated rows a) (row : FrameRow) :
    Accumulated (rows ++ [row]) (a.frame row) where
  frames := by
    rw [List.map_append, List.map_singleton, ← push_lastN, ← h.frames]
    rfl
  frameEvents := by
    rw [List.map_append, List.map_singleton, ← push_lastN, ← h.frameEvents]
    rfl
  bytes := by
    rw [List.map_append, List.foldl_append, ← h.bytes]
    rfl

theorem Accumulated.foldl (h : Accumulated rows a) (more : List FrameRow) :
    Accumulated (rows ++ more) (more.foldl SseAccum.frame a) := by
  induction more generalizing rows a with
  | nil => simpa using h
  | cons row more ih => simpa using ih (h.frame row)

/-- A stream that received a frame still holds one. -/
theorem Accumulated.isSse_of_ne_nil (h : Accumulated rows a) (hne : rows ≠ []) :
    a.isSse = true := by
  have hpos : 0 < rows.length := List.length_pos_iff.mpr hne
  have hframes : a.frames ≠ [] := by
    rw [h.frames, lastN]
    intro hnil
    have hlen := congrArg List.length hnil
    rw [List.length_drop, List.length_map, List.length_nil, frameCap] at hlen
    omega
  simp [isSse, hframes]

end SseAccum

/-! ## The invariant -/

def Phase.afterDrain : Phase → Bool
  | .drained _ => true
  | .responded _ => true
  | _ => false

/-- Every frame pushed is emitted or waits in the batch, in order, and the accumulator received
what was emitted. -/
structure Inv (frames : List FrameRow) (s : LiveStream) : Prop where
  conserved : s.emitted.flatten ++ s.buf = frames
  received : s.received = s.emitted.flatten
  accumulated : (∀ r, s.phase ≠ .responded r) → s.accum.Accumulated s.received
  ended : s.phase.afterDrain → s.buf = [] ∧ s.tickerRunning = false
  response : ∀ r, s.phase = .responded (.ok r) →
    r.sseFrames = lastN SseAccum.frameCap (frames.map Prod.fst)
  failed : ∀ e, s.phase = .responded (.error e) → frames = []

variable {frames : List FrameRow} {s s' : LiveStream}

theorem inv_start (requestId : String) : Inv [] (.start requestId) where
  conserved := rfl
  received := rfl
  accumulated _ := SseAccum.accumulated_empty
  ended h := by cases h
  response r h := by cases h
  failed e h := by cases h

@[simp] theorem phase_flush (s : LiveStream) : (flushSseBatch s).phase = s.phase := by
  rw [flushSseBatch]
  split_ifs <;> rfl

@[simp] theorem tickerRunning_flush (s : LiveStream) :
    (flushSseBatch s).tickerRunning = s.tickerRunning := by
  rw [flushSseBatch]
  split_ifs <;> rfl

@[simp] theorem buf_flush (s : LiveStream) : (flushSseBatch s).buf = [] := by
  rw [flushSseBatch]
  split_ifs with h
  · exact h
  · rfl

theorem flush_of_empty (h : s.buf = []) : flushSseBatch s = s := if_pos h

theorem Inv.flush (h : Inv frames s) : Inv frames (flushSseBatch s) := by
  by_cases hbuf : s.buf = []
  · rwa [flush_of_empty hbuf]
  · have hrunning : s.phase.afterDrain = false := by
      by_contra hdrain
      exact hbuf (h.ended (by simpa using hdrain)).1
    refine ⟨?_, ?_, ?_, ?_, ?_, ?_⟩
    · rw [flushSseBatch, if_neg hbuf]
      simpa using h.conserved
    · rw [flushSseBatch, if_neg hbuf]
      simp [h.received]
    · rw [flushSseBatch, if_neg hbuf]
      exact fun hphase => (h.accumulated hphase).foldl s.buf
    · rw [phase_flush, hrunning]
      exact fun hdrain => absurd hdrain Bool.false_ne_true
    · rw [phase_flush]
      exact h.response
    · rw [phase_flush]
      exact h.failed

/-- A frame joins the batch while the send runs. -/
theorem Inv.push (h : Inv frames s) (hphase : s.phase = .sending) (row : FrameRow) :
    Inv (frames ++ [row]) { s with buf := s.buf ++ [row] } where
  conserved := by rw [← h.conserved, List.append_assoc]
  received := h.received
  accumulated := h.accumulated
  ended hdrain := by simp [hphase, Phase.afterDrain] at hdrain
  response r hr := by simp [hphase] at hr
  failed e he := by simp [hphase] at he

theorem Inv.opened (h : Inv frames s) (status : ℕ) (statusText : String)
    (headers : List HttpResponseHeader) (events : List TimelineEvent)
    (captured attached : List StoredCookie) :
    Inv frames { s with accum :=
      (s.accum.opened status statusText headers events).setCookies captured attached } where
  conserved := h.conserved
  received := h.received
  accumulated hphase :=
    have hacc := h.accumulated hphase
    ⟨hacc.frames, hacc.frameEvents, hacc.bytes⟩
  ended := h.ended
  response := h.response
  failed := h.failed

theorem Inv.sink (h : Inv frames s) (hphase : s.phase = .sending) (event : SseEvent)
    (elapsedMs : ℕ) :
    Inv (frames ++ (Action.sink event elapsedMs).frame?.toList) (sink s event elapsedMs) := by
  cases event with
  | opened status statusText headers events captured attached =>
    change Inv (frames ++ []) _
    rw [List.append_nil]
    exact h.opened status statusText headers events captured attached
  | frame row =>
    have hpush := h.push hphase row
    simp only [Live.sink]
    split_ifs
    · exact hpush.flush
    · exact hpush

theorem Inv.tick (h : Inv frames s) (elapsedMs : ℕ) : Inv frames (tick s elapsedMs) := by
  rw [Live.tick]
  split_ifs
  · exact h.flush
  · exact h

/-- The send command moves on before it drains. -/
theorem Inv.moveOn (h : Inv frames s) (hno : ∀ r, s.phase ≠ .responded r) (phase : Phase)
    (running : Bool) (hphase : phase.afterDrain = false) :
    Inv frames { s with phase, tickerRunning := running } where
  conserved := h.conserved
  received := h.received
  accumulated _ := h.accumulated hno
  ended hdrain := by simp [hphase] at hdrain
  response r hr := by
    simp only at hr
    simp [hr, Phase.afterDrain] at hphase
  failed e he := by
    simp only at he
    simp [he, Phase.afterDrain] at hphase

theorem Inv.drain (h : Inv frames s) {result : Except SendError HttpResponse}
    (hphase : s.phase = .stopping result) (hticker : s.tickerRunning = false) :
    Inv frames { flushSseBatch s with phase := .drained result } := by
  have hflush := h.flush
  refine ⟨hflush.conserved, hflush.received, fun _ => hflush.accumulated ?_, fun _ => ?_,
    fun r hr => ?_, fun e he => ?_⟩
  · simp [hphase]
  · exact ⟨buf_flush s, (tickerRunning_flush s).trans hticker⟩
  · cases hr
  · cases he

theorem sseFrames_respond {a : SseAccum} {requestId : String}
    {result : Except SendError HttpResponse} {r : HttpResponse}
    (h : respond requestId a result = .ok r) : r.sseFrames = a.frames := by
  cases result with
  | ok response =>
    cases h
    rw [SseAccum.finalize]
    split_ifs <;> rfl
  | error e =>
    cases e with
    | cancelled =>
      simp only [respond] at h
      split_ifs at h
      cases h
      rfl
    | failed message =>
      simp only [respond] at h
      split_ifs at h
      cases h
      rfl

theorem not_isSse_of_respond {a : SseAccum} {requestId : String}
    {result : Except SendError HttpResponse} {e : SendError}
    (h : respond requestId a result = .error e) : a.isSse = false := by
  cases result with
  | ok response => cases h
  | error e' =>
    cases e' with
    | cancelled =>
      simp only [respond] at h
      split_ifs at h with hsse
      simpa using hsse
    | failed message =>
      simp only [respond] at h
      split_ifs at h with hsse
      simpa using hsse

theorem Inv.takeAccum (h : Inv frames s) {result : Except SendError HttpResponse}
    (hphase : s.phase = .drained result) :
    Inv frames { s with
      accum := .empty, phase := .responded (respond s.requestId s.accum result) } := by
  obtain ⟨hbuf, hticker⟩ := h.ended (by rw [hphase]; rfl)
  have hacc := h.accumulated (by simp [hphase])
  have hframes : s.received = frames := by
    rw [h.received, ← h.conserved, hbuf, List.append_nil]
  rw [hframes] at hacc
  refine ⟨h.conserved, h.received, fun hno => absurd rfl (hno _), fun _ => ⟨hbuf, hticker⟩,
    fun r hr => ?_, fun e he => ?_⟩
  · rw [Phase.responded.injEq] at hr
    rw [sseFrames_respond hr, hacc.frames]
  · rw [Phase.responded.injEq] at he
    by_contra hne
    have hsse := hacc.isSse_of_ne_nil hne
    rw [not_isSse_of_respond he] at hsse
    cases hsse

/-- One step keeps the invariant, and no batch is emitted after the drain. -/
theorem Inv.step {a : Action} (h : Inv frames s) (hstep : step s a = some s') :
    Inv (frames ++ a.frame?.toList) s' ∧
      (s.phase.afterDrain → s'.emitted = s.emitted ∧ s'.phase.afterDrain) := by
  unfold Live.step at hstep
  split at hstep
  · rename_i event elapsedMs hphase
    cases hstep
    exact ⟨h.sink hphase event elapsedMs, fun hd => by simp [hphase, Phase.afterDrain] at hd⟩
  · rename_i elapsedMs hticker
    cases hstep
    refine ⟨by simpa [Action.frame?] using h.tick elapsedMs, fun hd => ?_⟩
    exact absurd (h.ended hd).2 (by simp [hticker])
  · rename_i result hphase
    cases hstep
    refine ⟨?_, fun hd => by simp [hphase, Phase.afterDrain] at hd⟩
    simpa [Action.frame?] using h.moveOn (by simp [hphase]) (.returned result) s.tickerRunning rfl
  · rename_i result hphase
    cases hstep
    refine ⟨?_, fun hd => by simp [hphase, Phase.afterDrain] at hd⟩
    simpa [Action.frame?] using h.moveOn (by simp [hphase]) (.stopping result) s.tickerRunning rfl
  · rename_i result hphase hticker
    cases hstep
    refine ⟨?_, fun hd => by simp [hphase, Phase.afterDrain] at hd⟩
    simpa [Action.frame?, hphase] using h.moveOn (by simp [hphase]) (.stopping result) false rfl
  · rename_i result hphase hticker
    cases hstep
    refine ⟨by simpa [Action.frame?] using h.drain hphase hticker, fun hd => ?_⟩
    simp [hphase, Phase.afterDrain] at hd
  · rename_i result hphase
    cases hstep
    exact ⟨by simpa [Action.frame?] using h.takeAccum hphase, fun _ => ⟨rfl, rfl⟩⟩
  · cases hstep

/-! ## Runs -/

theorem run_cons {a : Action} {actions : List Action} (h : run s (a :: actions) = some s') :
    ∃ s₁, step s a = some s₁ ∧ run s₁ actions = some s' := by
  rw [run, List.foldlM_cons] at h
  exact Option.bind_eq_some_iff.mp h

theorem Inv.run {actions : List Action} (h : Inv frames s) (hrun : run s actions = some s') :
    Inv (frames ++ pushed actions) s' ∧ (s.phase.afterDrain → s'.emitted = s.emitted) := by
  induction actions generalizing frames s with
  | nil =>
    cases hrun
    exact ⟨by simpa [pushed] using h, fun _ => rfl⟩
  | cons a actions ih =>
    obtain ⟨s₁, hstep, hrest⟩ := run_cons hrun
    obtain ⟨hinv, hemit⟩ := h.step hstep
    obtain ⟨hinv', hemit'⟩ := ih hinv hrest
    refine ⟨?_, fun hd => ?_⟩
    · rw [List.append_assoc] at hinv'
      have hpushed : pushed (a :: actions) = a.frame?.toList ++ pushed actions := by
        rw [pushed, List.filterMap_cons]
        cases a.frame? <;> rfl
      rwa [hpushed]
    · exact (hemit' (hemit hd).2).trans (hemit hd).1

/-- After any steps of the sink, the ticker and the send command, the batches emitted and the
batch that waits are the frames pushed so far, in order, and the accumulator was called with the
frames emitted. After the drain nothing waits and nothing more is emitted; the response then has
the last frames, or there was no frame. -/
theorem frames_arrive_once {requestId : String} {actions : List Action}
    (hrun : run (.start requestId) actions = some s) :
    s.emitted.flatten ++ s.buf = pushed actions ∧ s.received = s.emitted.flatten ∧
      (s.phase.afterDrain → s.emitted.flatten = pushed actions ∧
        ∀ more s', run s more = some s' → s'.emitted = s.emitted) ∧
      (∀ response, s.phase = .responded (.ok response) →
        response.sseFrames = lastN SseAccum.frameCap ((pushed actions).map Prod.fst)) ∧
      ∀ e, s.phase = .responded (.error e) → pushed actions = [] := by
  obtain ⟨hinv, -⟩ := (inv_start requestId).run hrun
  rw [List.nil_append] at hinv
  refine ⟨hinv.conserved, hinv.received, fun hd => ⟨?_, fun more s' hmore => ?_⟩,
    hinv.response, hinv.failed⟩
  · rw [← hinv.conserved, (hinv.ended hd).1, List.append_nil]
  · exact (hinv.run hmore).2 hd

/-- A frame, a tick that comes too early, and the end of the send. -/
theorem frames_arrive_once_one_frame :
    ∃ s, run (.start "r1") [.sink (.frame (⟨0, none, "x", none, none, 0⟩, ⟨0, "recv", "x"⟩)) 5,
        .tick 20, .sendReturns (.error .cancelled), .sendStop, .tickerExits, .drain,
        .takeAccum] = some s ∧ s.emitted.flatten.length = 1 :=
  have hrun : run (.start "r1") [.sink (.frame (⟨0, none, "x", none, none, 0⟩, ⟨0, "recv", "x"⟩)) 5,
        .tick 20, .sendReturns (.error .cancelled), .sendStop, .tickerExits, .drain,
        .takeAccum] = some _ := rfl
  ⟨_, hrun, congrArg List.length ((frames_arrive_once hrun).2.2.1 rfl).1⟩

end Voleeo.Sse.Live
