import Voleeo.Storage.ResponseHistory

/-!
# Appends that fail

The disk may refuse every step of an append. The history file is written last, after
the body files of the entries that it still names have been removed.
-/
namespace Voleeo.Responses
open Storage (FileKey validateId)
open Fallible (get modify)

/-- What the disk refuses. A step that can end the append comes with its message. -/
structure Faults where
  bodyDir : Option String := none
  bodyWrite : Option String := none
  historyRead : Option String := none
  removal : FileKey → Bool := fun _ => false
  historyDir : Option String := none
  historyText : Option String := none
  historyWrite : Option String := none
  indexWrite : Bool := false

def step : Option String → OnHistory Unit
  | none => pure ()
  | some message => Fallible.throw (.storage message)

/-- A removal that is refused counts for nothing. -/
def History.unlink (f : Faults) (s : History) (workspaceId responseId : String) : History :=
  match bodyFile workspaceId responseId with
  | .ok path =>
    if f.removal path then s else { s with bodies := Function.update s.bodies path none }
  | .error _ => s

def unlinkBodyFiles (f : Faults) (workspaceId : String) (entries : List StoredHttpResponse)
    (s : History) : History :=
  entries.foldl (fun s e =>
    if e.response.bodyWindowed then
      (s.unlink f workspaceId e.id).unlink f workspaceId (filterKey e.id)
    else s) s

section Operations
variable (b : Backend) (f : Faults)

def storeBody (workspaceId id : String) (response : HttpResponse) : OnHistory Unit :=
  if response.bodyIsText ∧ response.body.utf8ByteSize > windowThreshold then do
    let path ← lift (bodyFile workspaceId id)
    step f.bodyDir
    step f.bodyWrite
    modify fun s =>
      { s with bodies := Function.update s.bodies path (some (b.formatForStorage response.body)) }
  else return ()

def readHistory (workspaceId requestId : String) : OnHistory (List StoredHttpResponse) := do
  lift (validateId workspaceId)
  lift (validateId requestId)
  match (← get).entries (workspaceId, requestId) with
  | none => return []
  | some items => do
      step f.historyRead
      return items

/-- The history is written in one piece. Its index may fail. -/
def writeHistory (workspaceId requestId : String) (items : List StoredHttpResponse) :
    OnHistory Unit := do
  lift (validateId workspaceId)
  step f.historyDir
  lift (validateId requestId)
  step f.historyText
  step f.historyWrite
  modify fun s =>
    { s with entries := Function.update s.entries (workspaceId, requestId) (some items) }
  if f.indexWrite then return () else writeIndex workspaceId requestId items

/-- `append` on a disk that may refuse. -/
def appendOn (c : Completed) (limit : ℕ) : OnHistory StoredHttpResponse := do
  let s ← get
  modify fun s => { s with drawn := s.drawn + 1 }
  let id := b.newId s.drawn
  let recordedAt := b.now s.drawn
  if limit = 0 then
    return { stored b.formatForStorage id recordedAt c with
      response := { c.response with responseId := id } }
  else do
    storeBody b f c.workspaceId id c.response
    let entry := stored b.formatForStorage id recordedAt c
    let items := entry :: (← readHistory f c.workspaceId c.requestId)
    if items.length > limit then
      modify (unlinkBodyFiles f c.workspaceId (items.drop limit))
    writeHistory f c.workspaceId c.requestId (items.take limit)
    return entry

end Operations

def getResponse (workspaceId requestId responseId : String) :
    OnHistory (Option StoredHttpResponse) := do
  let items ← readAll workspaceId requestId
  return items.find? fun r => r.id = responseId

/-- The body of an entry, wherever it is. -/
def readFullBody (workspaceId : String) (stored : StoredHttpResponse) : OnHistory String :=
  if ¬ stored.response.bodyWindowed then return stored.response.body
  else do
    let path ← lift (bodyFile workspaceId stored.id)
    match (← get).bodies path with
    | some text => return text
    | none => lift (.error (.storage "No such file or directory"))

variable {b : Backend} {f : Faults} {s s' : History} {ws : String}

/-! ## A disk that refuses nothing -/

theorem unlinkBodyFiles_none (entries : List StoredHttpResponse) (s : History) :
    unlinkBodyFiles {} ws entries s = removeBodyFiles ws entries s := rfl

theorem storeBody_none (id : String) (response : HttpResponse) :
    storeBody b {} ws id response = writeBody b ws id response := by
  simp only [storeBody, writeBody, step, pure_bind]

theorem readHistory_none (ws req : String) : readHistory {} ws req = readAll ws req := by
  have hget : (do
      match (← get).entries (ws, req) with
      | none => return []
      | some items => do
          step (none : Option String)
          return items : OnHistory (List StoredHttpResponse)) =
      do return ((← get).entries (ws, req)).getD [] := by
    funext s
    simp only [Fallible.bind_apply, Fallible.get_apply]
    cases s.entries (ws, req) <;> rfl
  simp only [readHistory, readAll, hget]

theorem writeHistory_none (ws req : String) (items : List StoredHttpResponse) :
    writeHistory {} ws req items = writeAll ws req items := by
  simp only [writeHistory, writeAll, step, pure_bind, Bool.false_eq_true, if_false]

/-- This is the append of the runs. -/
theorem appendOn_none (c : Completed) (limit : ℕ) : appendOn b {} c limit = append b c limit := by
  simp only [appendOn, append, storeBody_none, readHistory_none, writeHistory_none]
  rfl

/-! ## What is removed -/

/-- The files that go with entries, where the disk removes them. -/
def Unlinks (f : Faults) (ws : String) (gone : List StoredHttpResponse) (path : FileKey) : Prop :=
  ∃ d ∈ gone, d.response.bodyWindowed = true ∧ ∃ name, (name = d.id ∨ name = filterKey d.id) ∧
    bodyFile ws name = .ok path ∧ f.removal path = false

/-- The two states differ in body files alone. -/
structure SameLists (s s' : History) : Prop where
  entries : s'.entries = s.entries
  index : s'.index = s.index

theorem SameLists.refl (s : History) : SameLists s s := ⟨rfl, rfl⟩

theorem SameLists.trans {s₁ s₂ s₃ : History} (h : SameLists s₁ s₂) (h' : SameLists s₂ s₃) :
    SameLists s₁ s₃ := ⟨h'.entries.trans h.entries, h'.index.trans h.index⟩

theorem sameLists_unlink (s : History) (ws id : String) : SameLists s (s.unlink f ws id) := by
  rw [History.unlink]
  split
  · split <;> exact ⟨rfl, rfl⟩
  · exact .refl s

/-- One removal: the named file goes, the others stay. -/
theorem bodies_unlink (s : History) (ws id : String) (path : FileKey) :
    (bodyFile ws id = .ok path ∧ f.removal path = false → (s.unlink f ws id).bodies path = none) ∧
    (¬ (bodyFile ws id = .ok path ∧ f.removal path = false) →
      (s.unlink f ws id).bodies path = s.bodies path) := by
  rw [History.unlink]
  constructor
  · rintro ⟨hpath, hremoval⟩
    rw [hpath]
    simp [hremoval]
  · intro h
    split
    · rename_i path' hpath
      split_ifs with hremoval
      · rfl
      · refine Function.update_of_ne ?_ _ _
        rintro rfl
        exact h ⟨hpath, by simpa using hremoval⟩
    · rfl

theorem bodies_unlink_none {path : FileKey} (h : s.bodies path = none) (ws id : String) :
    (s.unlink f ws id).bodies path = none := by
  by_cases hpath : bodyFile ws id = .ok path ∧ f.removal path = false
  · exact (bodies_unlink s ws id path).1 hpath
  · rw [(bodies_unlink s ws id path).2 hpath, h]

theorem unlinkBodyFiles_cons (e : StoredHttpResponse) (gone : List StoredHttpResponse)
    (s : History) : unlinkBodyFiles f ws (e :: gone) s =
      unlinkBodyFiles f ws gone (if e.response.bodyWindowed then
        (s.unlink f ws e.id).unlink f ws (filterKey e.id) else s) := rfl

theorem unlinks_cons {e : StoredHttpResponse} {gone : List StoredHttpResponse} {path : FileKey} :
    Unlinks f ws (e :: gone) path ↔ Unlinks f ws [e] path ∨ Unlinks f ws gone path := by
  simp only [Unlinks, List.mem_cons, List.not_mem_nil, or_false, exists_eq_or_imp, exists_eq_left]

/-- The files `gone` are removed, and nothing else changes. -/
structure Removed (f : Faults) (ws : String) (gone : List StoredHttpResponse) (s s' : History) :
    Prop where
  same : SameLists s s'
  removed : ∀ path, Unlinks f ws gone path → s'.bodies path = none
  spared : ∀ path, ¬ Unlinks f ws gone path → s'.bodies path = s.bodies path

theorem removed_nil (s : History) : Removed f ws [] s s where
  same := .refl s
  removed := fun _ ⟨_, hd, _⟩ => absurd hd List.not_mem_nil
  spared _ _ := rfl

theorem removed_one (e : StoredHttpResponse) (s : History) :
    Removed f ws [e] s (unlinkBodyFiles f ws [e] s) := by
  rw [unlinkBodyFiles_cons]
  cases hwindowed : e.response.bodyWindowed with
  | false =>
    have hnone : ∀ path, ¬ Unlinks f ws [e] path := by
      rintro path ⟨d, hd, hd', -⟩
      rw [List.mem_singleton.mp hd, hwindowed] at hd'
      cases hd'
    exact ⟨.refl s, fun path h => absurd h (hnone path), fun _ _ => rfl⟩
  | true =>
    have hiff : ∀ path, Unlinks f ws [e] path ↔
        (bodyFile ws e.id = .ok path ∧ f.removal path = false) ∨
          (bodyFile ws (filterKey e.id) = .ok path ∧ f.removal path = false) := by
      simp [Unlinks, hwindowed, or_and_right, exists_or]
    refine ⟨(sameLists_unlink s ws e.id).trans (sameLists_unlink _ ws _), ?_, ?_⟩
    · intro path h
      rcases (hiff path).mp h with hbody | hfilter
      · exact bodies_unlink_none ((bodies_unlink s ws e.id path).1 hbody) _ _
      · exact (bodies_unlink _ ws _ path).1 hfilter
    · intro path h
      rw [hiff, not_or] at h
      exact ((bodies_unlink _ ws _ path).2 h.2).trans ((bodies_unlink s ws e.id path).2 h.1)

theorem Removed.cons {e : StoredHttpResponse} {gone : List StoredHttpResponse} {s₁ s₂ : History}
    (h : Removed f ws [e] s s₁) (h' : Removed f ws gone s₁ s₂) :
    Removed f ws (e :: gone) s s₂ where
  same := h.same.trans h'.same
  removed path hpath := by
    by_cases hgone : Unlinks f ws gone path
    · exact h'.removed path hgone
    · rw [h'.spared path hgone]
      exact h.removed path ((unlinks_cons.mp hpath).resolve_right hgone)
  spared path hpath := by
    rw [unlinks_cons, not_or] at hpath
    rw [h'.spared path hpath.2, h.spared path hpath.1]

theorem unlinkBodyFiles_removed (gone : List StoredHttpResponse) (s : History) :
    Removed f ws gone s (unlinkBodyFiles f ws gone s) := by
  induction gone generalizing s with
  | nil => exact removed_nil s
  | cons e gone ih => exact (removed_one e s).cons (ih _)

/-! ## Where an append ends -/

/-- The body is stored: it stays in its entry, or the disk takes it. -/
def StoresBody (f : Faults) (c : Completed) (id : String) : Prop :=
  c.response.bodyIsText ∧ c.response.body.utf8ByteSize > windowThreshold →
    (∃ path, bodyFile c.workspaceId id = .ok path) ∧ f.bodyDir = none ∧ f.bodyWrite = none

/-- The history is read: its name is good, and the disk gives it if it is there. -/
def ReadsHistory (f : Faults) (c : Completed) (s : History) : Prop :=
  validateId c.workspaceId = .ok () ∧ validateId c.requestId = .ok () ∧
    ((s.entries c.key).isSome = true → f.historyRead = none)

/-- What the limit cuts off the history that is there. -/
def trimmed (c : Completed) (limit : ℕ) (s : History) : List StoredHttpResponse :=
  ((s.entries c.key).getD []).drop (limit - 1)

/-- The states differ in the file of a new body at most. -/
structure AddsBody (path : FileKey) (s s' : History) : Prop where
  same : SameLists s s'
  others : ∀ path' ≠ path, s'.bodies path' = s.bodies path'

theorem AddsBody.refl (path : FileKey) (s : History) : AddsBody path s s :=
  ⟨.refl s, fun _ _ => rfl⟩

theorem step_outcome (fault : Option String) (s : History) :
    Fallible.Outcome (step fault) s (fun _ s' => fault = none ∧ s' = s)
      (fun _ s' => fault ≠ none ∧ s' = s) := by
  cases fault with
  | none => exact ⟨rfl, rfl⟩
  | some message => exact ⟨by simp, rfl⟩

theorem lift_outcome {α : Type} (x : Except VoleeoError α) (s : History) :
    Fallible.Outcome (lift x) s (fun a s' => x = .ok a ∧ s' = s)
      (fun e s' => x = .error e ∧ s' = s) := by
  cases x with
  | ok a => exact ⟨rfl, rfl⟩
  | error e => exact ⟨rfl, rfl⟩

theorem storeBody_outcome (c : Completed) (id : String) (s : History) :
    Fallible.Outcome (storeBody b f c.workspaceId id c.response) s
      (fun _ s' => StoresBody f c id ∧ AddsBody (c.workspaceId, id) s s')
      (fun _ s' => ¬ StoresBody f c id ∧ s' = s) := by
  rw [storeBody]
  split
  · rename_i hlarge
    refine .bind ((lift_outcome _ s).mono (fun _ _ h => h) ?_) ?_
    · rintro e s' ⟨herror, rfl⟩
      refine ⟨fun h => ?_, rfl⟩
      obtain ⟨⟨path, hpath⟩, -⟩ := h hlarge
      rw [hpath] at herror
      cases herror
    · rintro path s' ⟨hpath, rfl⟩
      obtain rfl := bodyFile_eq hpath
      refine .bind ((step_outcome _ s').mono (fun _ _ h => h) ?_) ?_
      · rintro e s' ⟨hfault, rfl⟩
        exact ⟨fun h => hfault (h hlarge).2.1, rfl⟩
      · rintro - s' ⟨hdir, rfl⟩
        refine .bind ((step_outcome _ s').mono (fun _ _ h => h) ?_) ?_
        · rintro e s' ⟨hfault, rfl⟩
          exact ⟨fun h => hfault (h hlarge).2.2, rfl⟩
        · rintro - s' ⟨hwrite, rfl⟩
          refine .modify ⟨fun _ => ⟨⟨_, hpath⟩, hdir, hwrite⟩, ⟨rfl, rfl⟩, ?_⟩
          exact fun path' hne => Function.update_of_ne hne _ _
  · rename_i hsmall
    exact .pure ⟨fun h => absurd h hsmall, .refl _ s⟩

theorem readHistory_outcome (c : Completed) (s : History) :
    Fallible.Outcome (readHistory f c.workspaceId c.requestId) s
      (fun items s' => ReadsHistory f c s ∧ items = (s.entries c.key).getD [] ∧ s' = s)
      (fun _ s' => ¬ ReadsHistory f c s ∧ s' = s) := by
  rw [readHistory]
  refine .bind ((lift_outcome _ s).mono (fun _ _ h => h) ?_) ?_
  · rintro e s' ⟨herror, rfl⟩
    refine ⟨fun h => ?_, rfl⟩
    rw [h.1] at herror
    cases herror
  · rintro ⟨⟩ s ⟨hws, rfl⟩
    refine .bind ((lift_outcome _ s).mono (fun _ _ h => h) ?_) ?_
    · rintro e s' ⟨herror, rfl⟩
      refine ⟨fun h => ?_, rfl⟩
      rw [h.2.1] at herror
      cases herror
    · rintro ⟨⟩ s ⟨hreq, rfl⟩
      refine .bind (Q := fun a s' => a = s ∧ s' = s) ⟨rfl, rfl⟩ ?_
      rintro _ s ⟨rfl, rfl⟩
      cases hentries : s.entries (c.workspaceId, c.requestId) with
      | none =>
        refine .pure ⟨⟨hws, hreq, ?_⟩, ?_, rfl⟩
        · simp [Completed.key, hentries]
        · simp [Completed.key, hentries]
      | some items =>
        refine .bind ((step_outcome _ s).mono (fun _ _ h => h) ?_) ?_
        · rintro e s' ⟨hfault, rfl⟩
          refine ⟨fun h => hfault (h.2.2 ?_), rfl⟩
          simp [Completed.key, hentries]
        · rintro - s' ⟨hread, rfl⟩
          exact .pure ⟨⟨hws, hreq, fun _ => hread⟩, by simp [Completed.key, hentries], rfl⟩

/-- The history file is replaced in one piece, by the last step that can fail. -/
theorem writeHistory_outcome (ws req : String) (items : List StoredHttpResponse) (s : History) :
    Fallible.Outcome (writeHistory f ws req items) s (fun _ _ => True) (fun _ s' => s' = s) := by
  rw [writeHistory]
  refine .bind ((lift_outcome _ s).mono (fun _ _ h => h.2) fun _ _ h => h.2) ?_
  rintro - s' rfl
  refine .bind ((step_outcome _ s').mono (fun _ _ h => h.2) fun _ _ h => h.2) ?_
  rintro - s' rfl
  refine .bind ((lift_outcome _ s').mono (fun _ _ h => h.2) fun _ _ h => h.2) ?_
  rintro - s' rfl
  refine .bind ((step_outcome _ s').mono (fun _ _ h => h.2) fun _ _ h => h.2) ?_
  rintro - s' rfl
  refine .bind ((step_outcome _ s').mono (fun _ _ h => h.2) fun _ _ h => h.2) ?_
  rintro - s' rfl
  refine .bind (Q := fun _ _ => True) trivial fun _ s' _ => ?_
  split <;> exact trivial

/-- A failed append has stored its body at most; if it has come to the history file, it has also
removed the bodies of what it cut off. -/
inductive Fails (b : Backend) (f : Faults) (c : Completed) (limit : ℕ) (s : History) :
    History → Prop
  | early {s' : History} : ¬ (StoresBody f c (b.newId s.drawn) ∧ ReadsHistory f c s) →
      AddsBody (c.workspaceId, b.newId s.drawn) s s' → Fails b f c limit s s'
  | late {s₁ s' : History} : StoresBody f c (b.newId s.drawn) → ReadsHistory f c s →
      AddsBody (c.workspaceId, b.newId s.drawn) s s₁ →
      Removed f c.workspaceId (trimmed c limit s) s₁ s' → Fails b f c limit s s'

theorem appendOn_error {c : Completed} {limit : ℕ} {e : VoleeoError}
    (h : appendOn b f c limit s = (.error e, s')) : Fails b f c limit s s' := by
  have hout : Fallible.Outcome (appendOn b f c limit) s (fun _ _ => True)
      (fun _ => Fails b f c limit s) := by
    rw [appendOn]
    refine .bind (Q := fun a s' => a = s ∧ s' = s) ⟨rfl, rfl⟩ ?_
    rintro _ a ⟨rfl, rfl⟩
    refine .bind (Q := fun _ s' => s' = { a with drawn := a.drawn + 1 }) (.modify rfl) ?_
    rintro - - rfl
    simp only
    split_ifs with hlimit
    · exact .pure trivial
    refine .bind ((storeBody_outcome c (b.newId a.drawn) _).mono (fun _ _ h => h) ?_) ?_
    · rintro e s' ⟨hstores, rfl⟩
      exact .early (fun h => hstores h.1) ⟨⟨rfl, rfl⟩, fun _ _ => rfl⟩
    rintro - s₁ ⟨hstores, hadds⟩
    have hadds : AddsBody (c.workspaceId, b.newId a.drawn) a s₁ :=
      ⟨⟨hadds.same.entries, hadds.same.index⟩, hadds.others⟩
    have hentries : s₁.entries = a.entries := hadds.same.entries
    have hreads : ReadsHistory f c s₁ ↔ ReadsHistory f c a := by
      rw [ReadsHistory, ReadsHistory, hentries]
    refine .bind ((readHistory_outcome c s₁).mono (fun _ _ h => h) ?_) ?_
    · rintro e s' ⟨hread, rfl⟩
      exact .early (fun h => hread (hreads.mpr h.2)) hadds
    rintro items s₂ ⟨hread, rfl, rfl⟩
    obtain ⟨n, rfl⟩ := Nat.exists_eq_succ_of_ne_zero hlimit
    have htrimmed : trimmed c (n + 1) a = ((s₂.entries c.key).getD []).drop n := by
      rw [trimmed, hentries]
      rfl
    simp only [List.drop_succ_cons]
    have hwrite : ∀ items (entry : StoredHttpResponse) s₃,
        Removed f c.workspaceId (trimmed c (n + 1) a) s₂ s₃ →
        Fallible.Outcome (do writeHistory f c.workspaceId c.requestId items; return entry) s₃
          (fun _ _ => True) (fun _ => Fails b f c (n + 1) a) := by
      intro items entry s₃ hremoved
      refine .bind ((writeHistory_outcome _ _ _ s₃).mono (fun _ _ h => h) ?_) fun _ _ _ => ?_
      · rintro e s' rfl
        exact .late hstores (hreads.mp hread) hadds hremoved
      · exact .pure trivial
    split_ifs with hlength
    · refine .bind (Q := fun _ s' => Removed f c.workspaceId (trimmed c (n + 1) a) s₂ s')
        (.modify ?_) fun _ s₃ hremoved => hwrite _ _ s₃ hremoved
      rw [htrimmed]
      exact unlinkBodyFiles_removed _ _
    · refine hwrite _ _ s₂ ?_
      rw [htrimmed, List.drop_eq_nil_of_le (by simpa using hlength)]
      exact removed_nil _
  exact hout.of_error h

/-! ## What a failed append loses -/

/-- Every entry is listed and found as before, and every body that was read is read again. -/
structure Kept (s s' : History) : Prop where
  list : ∀ ws req, (list ws req s').1 = (list ws req s).1
  get : ∀ ws req id, (getResponse ws req id s').1 = (getResponse ws req id s).1
  body : ∀ ws req, ∀ e ∈ (s.entries (ws, req)).getD [], ∀ text,
    (readFullBody ws e s).1 = .ok text → (readFullBody ws e s').1 = .ok text

theorem getResponse_sameLists (h : SameLists s s') (ws req id : String) :
    (getResponse ws req id s').1 = (getResponse ws req id s).1 := by
  simp only [getResponse, readAll, Fallible.bind_apply]
  cases validateId ws with
  | error e => rfl
  | ok =>
    cases validateId req with
    | error e => rfl
    | ok =>
      simp only [lift_ok, Fallible.pure_apply, Fallible.get_apply, h.entries]

theorem list_sameLists (h : SameLists s s') (ws req : String) :
    (list ws req s').1 = (list ws req s).1 := by
  cases hws : validateId ws with
  | error e =>
    simp only [list, hws]
    rfl
  | ok =>
    cases hreq : validateId req with
    | error e =>
      simp only [list, hws, hreq]
      rfl
    | ok =>
      simp only [list, hws, hreq, lift_ok, Fallible.pure_apply, Fallible.bind_apply,
        Fallible.get_apply, h.index]
      cases s.index (ws, req) with
      | some summaries => rfl
      | none =>
        simp only [Fallible.bind_apply, readAll_run hws hreq, h.entries]
        split <;> rfl

/-- The body of an entry is inline, or in the file of its name. -/
theorem readFullBody_eq_ok {e : StoredHttpResponse} {text : String} :
    (readFullBody ws e s).1 = .ok text ↔
      (e.response.bodyWindowed = false ∧ e.response.body = text) ∨
      (e.response.bodyWindowed = true ∧
        ∃ path, bodyFile ws e.id = .ok path ∧ s.bodies path = some text) := by
  rw [readFullBody]
  cases hwindowed : e.response.bodyWindowed with
  | false => simp [Fallible.pure_apply]
  | true =>
    cases hbody : bodyFile ws e.id with
    | error error => simp [Fallible.bind_apply, lift, Fallible.throw_apply]
    | ok path =>
      simp only [Bool.true_eq_false, not_true, if_false, lift_ok,
        Fallible.bind_apply, Fallible.pure_apply, Fallible.get_apply]
      cases htext : s.bodies path with
      | none => simp [lift, Fallible.throw_apply, htext]
      | some text => simp [Fallible.pure_apply, htext]

/-- Some body that can be read is among the files that the trimming removes. -/
def LosesBody (f : Faults) (c : Completed) (limit : ℕ) (s : History) : Prop :=
  ∃ ws req, ∃ e ∈ (s.entries (ws, req)).getD [], e.response.bodyWindowed = true ∧
    ∃ path, bodyFile ws e.id = .ok path ∧ (s.bodies path).isSome = true ∧
      Unlinks f c.workspaceId (trimmed c limit s) path

/-- A failed append loses nothing exactly when it fails before the trimming, or the trimming
removes no body that can be read. -/
theorem failed_append_keeps_iff (b : Backend) (f : Faults) (c : Completed) (limit : ℕ)
    (s s' : History) (e : VoleeoError)
    (hfresh : ∀ k, ∀ e ∈ (s.entries k).getD [], e.id ≠ b.newId s.drawn)
    (hrun : appendOn b f c limit s = (.error e, s')) :
    Kept s s' ↔ (StoresBody f c (b.newId s.drawn) ∧ ReadsHistory f c s →
      ¬ LosesBody f c limit s) := by
  have hpath : ∀ ws req, ∀ e ∈ (s.entries (ws, req)).getD [], ∀ path,
      bodyFile ws e.id = .ok path → path ≠ (c.workspaceId, b.newId s.drawn) := by
    rintro ws req e he path hpath rfl
    exact hfresh _ e he (Prod.mk.inj (bodyFile_eq hpath)).2.symm
  cases appendOn_error hrun with
  | early hfails hadds =>
      refine iff_of_true ⟨list_sameLists hadds.same, getResponse_sameLists hadds.same, ?_⟩
        fun h => absurd h hfails
      intro ws req e he text htext
      rw [readFullBody_eq_ok] at htext ⊢
      refine htext.imp_right fun ⟨hwindowed, path, hbody, hsome⟩ => ⟨hwindowed, path, hbody, ?_⟩
      rw [hadds.others path (hpath ws req e he path hbody), hsome]
  | @late s₁ _ hstores hreads hadds hremoved =>
      have hsame := hadds.same.trans hremoved.same
      constructor
      · rintro hkept - ⟨ws, req, e, he, hwindowed, path, hbody, hsome, hunlinks⟩
        obtain ⟨text, htext⟩ := Option.isSome_iff_exists.mp hsome
        have hread := hkept.body ws req e he text
          (readFullBody_eq_ok.mpr (.inr ⟨hwindowed, path, hbody, htext⟩))
        rcases readFullBody_eq_ok.mp hread with ⟨hinline, -⟩ | ⟨-, path', hbody', htext'⟩
        · rw [hwindowed] at hinline
          cases hinline
        · rw [hbody] at hbody'
          cases hbody'
          rw [hremoved.removed path hunlinks] at htext'
          cases htext'
      · intro hspared
        refine ⟨list_sameLists hsame, getResponse_sameLists hsame, ?_⟩
        intro ws req e he text htext
        rw [readFullBody_eq_ok] at htext ⊢
        refine htext.imp_right fun ⟨hwindowed, path, hbody, hsome⟩ => ⟨hwindowed, path, hbody, ?_⟩
        have hnot : ¬ Unlinks f c.workspaceId (trimmed c limit s) path := fun hunlinks =>
          hspared ⟨hstores, hreads⟩
            ⟨ws, req, e, he, hwindowed, path, hbody, by rw [hsome]; rfl, hunlinks⟩
        rw [hremoved.spared path hnot, hadds.others path (hpath ws req e he path hbody), hsome]

/-! ## A full disk -/

def fullDisk : Faults := { historyWrite := some "No space left on device (os error 28)" }

def largeBody : String := String.ofList (List.replicate 300000 'a')

/-- A response whose body is in its file. -/
def largeEntry : StoredHttpResponse where
  id := "old"
  workspaceId := "w1"
  requestId := "r1"
  recordedAt := ""
  response := { HttpResponse.blank with
    responseId := "old", bodyWindowed := true, bodyLineCount := 1 }
  resolvedRequest := none

def oneLarge : History where
  entries k := if k = ("w1", "r1") then some [largeEntry] else none
  index k := if k = ("w1", "r1") then some (summarize [largeEntry]) else none
  bodies k := if k = ("w1", "old") then some largeBody else none
  drawn := 0

theorem oneLarge_fresh : ∀ k, ∀ e ∈ (oneLarge.entries k).getD [],
    e.id ≠ plainBackend.newId oneLarge.drawn := by
  intro k e he
  simp only [oneLarge] at he
  split_ifs at he
  · obtain rfl := List.mem_singleton.mp he
    decide
  · cases he

/-- There is room for both responses: the failed append leaves the old one alone. -/
theorem failed_append_keeps_two :
    Kept oneLarge (appendOn plainBackend fullDisk pageLoad 2 oneLarge).2 ↔
      (StoresBody fullDisk pageLoad (plainBackend.newId oneLarge.drawn) ∧
        ReadsHistory fullDisk pageLoad oneLarge → ¬ LosesBody fullDisk pageLoad 2 oneLarge) :=
  failed_append_keeps_iff plainBackend fullDisk pageLoad 2 oneLarge _
    (.storage "No space left on device (os error 28)") oneLarge_fresh
    (Prod.ext rfl rfl)

/-- With room for one response the old body is gone before the new history is refused. -/
theorem full_disk_loses_body : ¬ ∀ (b : Backend) (f : Faults) (c : Completed) (limit : ℕ)
    (s s' : History) (e : VoleeoError),
    (∀ k, ∀ e ∈ (s.entries k).getD [], e.id ≠ b.newId s.drawn) →
    appendOn b f c limit s = (.error e, s') → Kept s s' := by
  intro h
  have hkept := h plainBackend fullDisk pageLoad 1 oneLarge
    (appendOn plainBackend fullDisk pageLoad 1 oneLarge).2
    (.storage "No space left on device (os error 28)") oneLarge_fresh
    (Prod.ext rfl rfl)
  have hread := hkept.body "w1" "r1" largeEntry (by simp [oneLarge]) largeBody rfl
  cases hread

end Voleeo.Responses
