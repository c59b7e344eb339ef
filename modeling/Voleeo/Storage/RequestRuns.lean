import Voleeo.Storage.RequestStore

/-!
# Runs of the operations on a request

What an operation returns and leaves behind, for each answer of the file
system. A world is as many ticks later as the operation has asked questions.
-/
namespace Voleeo.Storage
open Fallible (bind_apply pure_apply get_apply)

variable {env : Env} {w : World} {ws id : String} {req next : HttpRequest}

def World.later (w : World) (n : ℕ) : World := { w with tick := w.tick + n }

@[simp] theorem World.later_tick (w : World) (n : ℕ) : (w.later n).tick = w.tick + n := rfl

@[simp] theorem World.later_requests (w : World) (n : ℕ) : (w.later n).requests = w.requests := rfl

@[simp] theorem World.later_later (w : World) (m n : ℕ) :
    (w.later m).later n = w.later (m + n) := by
  simp [World.later, Nat.add_assoc]

/-- The files of the world with a request written at the given time. -/
def World.write (w : World) (n : ℕ) (req : HttpRequest) : World :=
  { w.later n with requests := w.requests.put req }

theorem withFields_eq_iff : withFields req next = req ↔ next.method = req.method ∧
    next.url = req.url ∧ next.parameters = req.parameters ∧ next.headers = req.headers ∧
    next.body = req.body ∧ next.auth = req.auth := by
  cases req
  simp [withFields]

theorem ask_run {α : Type} {answer : ℕ → α} : ask answer w = (.ok (answer w.tick), w.later 1) := rfl

theorem lift_run {α : Type} {x : Except VoleeoError α} : lift x w = match x with
    | .ok a => (.ok a, w)
    | .error e => (.error (.error e), w) := by
  cases x <;> rfl

theorem fileSystem_run : fileSystem env w = match env.fault w.tick with
    | some message => (.error (.error (.storage message)), w.later 1)
    | none => (.ok (), w.later 1) := by
  simp only [fileSystem, bind_apply, ask_run]
  cases env.fault w.tick <;> rfl

theorem getRequest_run (hws : validateId ws = .ok ()) (hid : validateId id = .ok ()) :
    getRequest env ws id w = match w.requests.find? (ws, id) with
      | none => (.error (.error (.notFound s!"request {id}")), w)
      | some req => match env.fault w.tick with
        | some message => (.error (.error (.storage message)), w.later 1)
        | none => (.ok req, w.later 1) := by
  simp only [getRequest, bind_apply, lift_run, hws, hid, get_apply]
  cases hreq : w.requests.find? (ws, id) with
  | none => rfl
  | some req =>
    have hreq' : req.id = id := congrArg Prod.snd (Records.find?_eq_some_iff.mp hreq).2
    simp only [bind_apply, fileSystem_run]
    cases env.fault w.tick with
    | some message => rfl
    | none => simp only [hreq', ne_eq, not_true_eq_false, if_false, pure_apply]

theorem writeRequest_run : writeRequest env req w = match env.fault w.tick with
    | some message => (.error (.error (.storage message)), w.later 1)
    | none => (.ok (), w.write 1 req) := by
  simp only [writeRequest, bind_apply, fileSystem_run]
  cases env.fault w.tick <;> rfl

/-- A request is written if it differs, and takes the time of the write. -/
theorem saveRequestIfChanged_run (h : next.updatedAt = req.updatedAt) :
    saveRequestIfChanged env req next w = if next = req then (.ok (), w)
      else match env.fault (w.tick + 1) with
        | some message => (.error (.error (.storage message)), w.later 2)
        | none => (.ok (), w.write 2 { next with updatedAt := env.now w.tick }) := by
  have hsame : { next with updatedAt := req.updatedAt } = next := by rw [← h]
  simp only [saveRequestIfChanged, hsame]
  split_ifs
  · rfl
  · simp only [bind_apply, ask_run, writeRequest_run, World.later_tick]
    cases env.fault (w.tick + 1) <;> rfl

/-- A change to a request file that is there. -/
theorem changeRequest_run {change : HttpRequest → HttpRequest}
    (hws : validateId ws = .ok ()) (hid : validateId id = .ok ())
    (hreq : w.requests.find? (ws, id) = some req)
    (h : (change req).updatedAt = req.updatedAt) :
    (readRequest env ws id >>= fun req => saveRequestIfChanged env req (change req)) w =
      match env.fault w.tick with
      | some message => (.error (.error (.storage message)), w.later 1)
      | none =>
        if change req = req then (.ok (), w.later 1)
        else match env.fault (w.tick + 2) with
          | some message => (.error (.error (.storage message)), w.later 3)
          | none =>
            (.ok (), w.write 3 { change req with updatedAt := env.now (w.tick + 1) }) := by
  have hread : readRequest env ws id w = match env.fault w.tick with
      | some message => (.error (.error (.storage message)), w.later 1)
      | none => (.ok req, w.later 1) := by
    simp only [readRequest, bind_apply, lift_run, hws, hid, fileSystem_run]
    cases env.fault w.tick with
    | some message => rfl
    | none => simp only [get_apply, World.later_requests, hreq, pure_apply]
  simp only [bind_apply, hread]
  cases env.fault w.tick with
  | some message => rfl
  | none =>
    simp only [saveRequestIfChanged_run h]
    split_ifs
    · rfl
    · simp only [World.later_tick, Nat.add_assoc]
      cases env.fault (w.tick + (1 + 1)) <;> rfl

theorem renameRequest_run {name : String} (hws : validateId ws = .ok ())
    (hid : validateId id = .ok ()) (hreq : w.requests.find? (ws, id) = some req) :
    renameRequest env ws id name w = match env.fault w.tick with
      | some message => (.error (.error (.storage message)), w.later 1)
      | none =>
        if name = req.name then (.ok (), w.later 1)
        else match env.fault (w.tick + 2) with
          | some message => (.error (.error (.storage message)), w.later 3)
          | none => (.ok (), w.write 3
              { req with name := name, updatedAt := env.now (w.tick + 1) }) := by
  have hname : { req with name := name } = req ↔ name = req.name :=
    ⟨fun h => congrArg HttpRequest.name h, fun h => by rw [h]⟩
  have hrun := @changeRequest_run env w ws id req (fun req => { req with name }) hws hid hreq rfl
  rw [renameRequest]
  simpa only [hname] using hrun

theorem updateRequest_run (hws : validateId ws = .ok ()) (hid : validateId id = .ok ())
    (hreq : w.requests.find? (ws, id) = some req) :
    updateRequest env ws id next w = match env.fault w.tick with
      | some message => (.error (.error (.storage message)), w.later 1)
      | none =>
        if withFields req next = req then (.ok (), w.later 1)
        else match env.fault (w.tick + 2) with
          | some message => (.error (.error (.storage message)), w.later 3)
          | none => (.ok (), w.write 3
              { withFields req next with updatedAt := env.now (w.tick + 1) }) :=
  @changeRequest_run env w ws id req (fun req => withFields req next) hws hid hreq rfl

@[simp] theorem World.write_tick (n : ℕ) : (w.write n req).tick = w.tick + n := rfl

@[simp] theorem World.write_later (m n : ℕ) : (w.write m req).later n = w.write (m + n) req := by
  simp [World.write, World.later, Nat.add_assoc]

@[simp] theorem World.write_find? (n : ℕ) :
    (w.write n req).requests.find? (requestKey req) = some req := by
  simp [World.write, Records.find?_put]

/-- The request that `create_request` writes when it has asked its first question at a tick. -/
def newRequest (env : Env) (t : ℕ) (ws : String) (folderId : Option String)
    (name method url : String) : HttpRequest where
  id := env.newId (t + 1)
  requestType := "api"
  model := "http_request"
  workspaceId := ws
  folderId := folderId
  method := method
  name := name
  url := url
  parameters := []
  headers := []
  body := none
  auth := .none
  order := env.timestampMillis (t + 3)
  createdAt := env.now (t + 2)
  updatedAt := env.now (t + 2)

theorem validateId_of_checkParent {folderId moving : Option String} {w' : World}
    (h : checkParent env ws folderId moving w = (.ok (), w')) : validateId ws = .ok () := by
  simp only [checkParent, bind_apply, lift_run] at h
  cases hws : validateId ws with
  | ok => rfl
  | error e =>
    rw [hws] at h
    cases h

theorem createRequest_run {folderId : Option String} {name method url : String} {w' : World}
    (h : checkParent env ws folderId none w = (.ok (), w')) :
    createRequest env ws folderId name method url w = match env.fault w'.tick with
      | some message => (.error (.error (.storage message)), w'.later 1)
      | none => match validateId (env.newId (w'.tick + 1)) with
        | .error e => (.error (.error e), w'.later 4)
        | .ok () => match env.fault (w'.tick + 4) with
          | some message => (.error (.error (.storage message)), w'.later 5)
          | none =>
            let req := newRequest env w'.tick ws folderId name method url
            (.ok req, w'.write 5 req) := by
  have hws := validateId_of_checkParent h
  simp only [createRequest, bind_apply, h, workspaceDir, lift_run, hws, fileSystem_run]
  cases env.fault w'.tick with
  | some message => rfl
  | none =>
    simp only [ask_run, World.later_tick, World.later_later, Nat.add_assoc]
    cases validateId (env.newId (w'.tick + 1)) with
    | error e => rfl
    | ok =>
      simp only [writeRequest_run, World.later_tick]
      cases env.fault (w'.tick + (1 + (1 + (1 + 1)))) <;> rfl

theorem createRequest_run_error {folderId : Option String} {name method url : String} {w' : World}
    {e : Failure} (h : checkParent env ws folderId none w = (.error e, w')) :
    createRequest env ws folderId name method url w = (.error e, w') := by
  simp only [createRequest, bind_apply, h]

end Voleeo.Storage
