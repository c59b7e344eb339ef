import Voleeo.Mcp.WriteTools
import Voleeo.Storage.ForestRuns
import Voleeo.Storage.RequestRuns

/-!
# What a failed write leaves behind

Every tool that writes fails before its first write or between two of them. A
rename that is followed by a failure stays on disk, as does a new request whose
update fails and an environment whose stale copy cannot be removed.
-/
namespace Voleeo.Mcp
open Storage Crypto
open Fallible (Outcome bind_apply pure_apply throw_apply get_apply modify_apply)

inductive WriteCall
  | requestCreate (args : RequestCreateArgs)
  | requestUpdate (args : RequestUpdateArgs)
  | envSetVariable (args : SetVariableArgs)

def WriteCall.exec (env : Env) (around : Surroundings) : WriteCall → Tool Unit
  | .requestCreate args => do let _ ← Mcp.requestCreate env args
  | .requestUpdate args => do let _ ← Mcp.requestUpdate env around args
  | .envSetVariable args => do let _ ← envSetVariableTool env around args

/-- Every file is as it was. -/
structure Unchanged (files files' : Files) : Prop where
  folders : ∀ k, files'.store.folders.find? k = files.store.folders.find? k
  requests : ∀ k, files'.store.requests.find? k = files.store.requests.find? k
  sharedEnvs : ∀ k, files'.sharedEnvs.find? k = files.sharedEnvs.find? k
  localEnvs : ∀ k, files'.localEnvs.find? k = files.localEnvs.find? k

/-! ## Calls that fail between two writes -/

section Torn
variable (env : Env) (around : Surroundings) (files : Files)

/-- The auth of the call has to be encrypted, and the key does not load. -/
def RequestUpdateInput.KeyMissing (input : RequestUpdateInput) : Prop :=
  around.encrypted.toOption.getD false ∧ (∃ e, around.key = .error e) ∧
    ∃ auth, input.auth = some auth ∧ auth.secretFields ≠ []

/-- A field other than the name is to change. -/
def RequestUpdateInput.ChangesFields (input : RequestUpdateInput) (req : HttpRequest) : Prop :=
  ∃ next, input.edited around req = .ok next ∧ withFields req next ≠ req

/-- The request gets another name, and then the key is missing, the file cannot be read again or
its other fields cannot be written. -/
def RequestUpdateInput.Torn (input : RequestUpdateInput) : Prop :=
  let t := files.store.tick
  ∃ req name, files.store.requests.find? (input.workspaceId, input.requestId) = some req ∧
    input.name = some name ∧ name ≠ req.name ∧
    validateId input.workspaceId = .ok () ∧ validateId input.requestId = .ok () ∧
    env.fault t = none ∧ env.fault (t + 1) = none ∧ env.fault (t + 3) = none ∧
    (input.KeyMissing around ∨ env.fault (t + 4) ≠ none ∨
      input.ChangesFields around req ∧ env.fault (t + 6) ≠ none)

/-- The request is there with the fields that `create_request` takes, and cannot be read again or
written with the others. -/
def RequestCreateInput.Torn (input : RequestCreateInput) : Prop :=
  ∃ w, checkParent env input.workspaceId input.folderId none files.store = (.ok (), w) ∧
    let req := newRequest env w.tick input.workspaceId input.folderId input.name input.method
      input.url
    input.hasExtras ∧ validateId req.id = .ok () ∧
    files.store.requests.find? (requestKey req) ≠ some req ∧
    env.fault w.tick = none ∧ env.fault (w.tick + 4) = none ∧
    (env.fault (w.tick + 5) ≠ none ∨ env.fault (w.tick + 7) ≠ none)

/-- The environment is saved where its flag puts it, and the copy in the other directory cannot be
removed. -/
def VariableEdit.Torn (edit : VariableEdit) : Prop :=
  let t := files.store.tick
  let k := (edit.workspaceId, edit.envId)
  ∃ e next, files.environment? k = some e ∧ setVariable around edit e = .ok next ∧
    (if e.shared then (files.localEnvs.find? k).isSome ∧ files.sharedEnvs.find? k ≠ some next
      else (files.sharedEnvs.find? k).isSome ∧ files.localEnvs.find? k ≠ some next) ∧
    validateId edit.workspaceId = .ok () ∧ validateId edit.envId = .ok () ∧
    env.fault t = none ∧ env.fault (t + 1) = none ∧ env.fault (t + 2) = none ∧
    env.fault (t + 3) ≠ none

def WriteCall.Torn : WriteCall → Prop
  | .requestCreate args => ∃ input, args.check = .ok input ∧ input.Torn env files
  | .requestUpdate args => ∃ input, args.check = .ok input ∧ input.Torn env around files
  | .envSetVariable args => ∃ edit, args.check = .ok edit ∧ edit.Torn env around files

end Torn

variable {env : Env} {around : Surroundings} {files files' : Files}

/-! ## The files -/

theorem Unchanged.refl (files : Files) : Unchanged files files :=
  ⟨fun _ => rfl, fun _ => rfl, fun _ => rfl, fun _ => rfl⟩

/-- Reads change only the number of questions asked. -/
theorem Unchanged.later (files : Files) (n : ℕ) :
    Unchanged files { files with store := files.store.later n } :=
  ⟨fun _ => rfl, fun _ => rfl, fun _ => rfl, fun _ => rfl⟩

theorem Unchanged.trans {files'' : Files} (h : Unchanged files files')
    (h' : Unchanged files' files'') : Unchanged files files'' :=
  ⟨fun k => (h'.folders k).trans (h.folders k), fun k => (h'.requests k).trans (h.requests k),
    fun k => (h'.sharedEnvs k).trans (h.sharedEnvs k),
    fun k => (h'.localEnvs k).trans (h.localEnvs k)⟩

theorem Unchanged.symm (h : Unchanged files files') : Unchanged files' files :=
  ⟨fun k => (h.folders k).symm, fun k => (h.requests k).symm, fun k => (h.sharedEnvs k).symm,
    fun k => (h.localEnvs k).symm⟩

theorem Unchanged.of_sameFiles {w : World} (h : SameFiles files.store w) :
    Unchanged files { files with store := w } :=
  ⟨fun k => by rw [h.folders], fun k => by rw [h.requests], fun _ => rfl, fun _ => rfl⟩

/-- Writing a request changes the files unless it was there as it is written. -/
theorem unchanged_write_iff {n : ℕ} {req : HttpRequest} :
    Unchanged files { files with store := files.store.write n req } ↔
      files.store.requests.find? (requestKey req) = some req := by
  rw [← Records.find?_put_eq_iff]
  exact ⟨fun h => h.requests, fun h => ⟨fun _ => rfl, h, fun _ => rfl, fun _ => rfl⟩⟩

theorem onRequests_run {α : Type} {x : Store α} : onRequests x files = match x files.store with
    | (.ok a, w) => (.ok a, { files with store := w })
    | (.error e, w) => (.error (.failure e), { files with store := w }) := by
  simp only [onRequests, Fallible.zoom]
  rcases x files.store with ⟨_ | _, w⟩ <;> rfl

/-! ## Updating a request -/

theorem edited_eq_error_iff {input : RequestUpdateInput} {req : HttpRequest} :
    (∃ e, input.edited around req = .error e) ↔ input.KeyMissing around := by
  rw [RequestUpdateInput.edited, RequestUpdateInput.KeyMissing]
  cases input.auth with
  | none => simp
  | some auth =>
    simp only [storedAuth, any_secretFields_markSecretsEncrypted, secretFields_restoreMasked_ne_nil]
    cases around.encrypted.toOption.getD false <;> cases around.key <;>
      by_cases hauth : auth.secretFields = [] <;> simp [hauth, Except.map]

/-- The end of an update fails: the key is missing, the file cannot be read, or a change cannot be
written. -/
def RequestUpdateInput.Stuck (env : Env) (around : Surroundings) (input : RequestUpdateInput)
    (req : HttpRequest) (t : ℕ) : Prop :=
  input.KeyMissing around ∨ env.fault t ≠ none ∨
    input.ChangesFields around req ∧ env.fault (t + 2) ≠ none

/-- The end of an update either succeeds or leaves the files as they are. -/
theorem saveEdited_outcome {input : RequestUpdateInput} {req cur : HttpRequest}
    (hws : validateId input.workspaceId = .ok ()) (hid : validateId input.requestId = .ok ())
    (hcur : files.store.requests.find? (input.workspaceId, input.requestId) = some cur)
    (hfields : ∀ next, withFields cur next = cur ↔ withFields req next = req) :
    Outcome (saveEdited env around input req) files
      (fun _ _ => ¬ input.Stuck env around req files.store.tick)
      fun _ files' => Unchanged files files' ∧ input.Stuck env around req files.store.tick := by
  simp only [Outcome, saveEdited, bind_apply, onRequests_run, lift_run]
  cases hedit : input.edited around req with
  | error e => exact ⟨.refl files, .inl (edited_eq_error_iff.mp ⟨e, hedit⟩)⟩
  | ok next =>
  have hkey : ¬ input.KeyMissing around := by
    rw [← @edited_eq_error_iff around input req, hedit]
    rintro ⟨_, ⟨⟩⟩
  have hchanges : input.ChangesFields around req ↔ withFields req next ≠ req := by
    rw [RequestUpdateInput.ChangesFields, hedit]
    exact ⟨fun ⟨_, heq, h⟩ => by cases heq; exact h, fun h => ⟨next, rfl, h⟩⟩
  simp only [updateRequest_run hws hid hcur, hfields]
  cases hread : env.fault files.store.tick with
  | some message => exact ⟨.later files 1, .inr (.inl (by simp [hread]))⟩
  | none =>
  split_ifs with hsame
  · simp [RequestUpdateInput.Stuck, hkey, hread, hchanges, hsame, pure_apply]
  · cases hwrite : env.fault (files.store.tick + 2) with
    | some message =>
      exact ⟨.later files 3, .inr (.inr ⟨hchanges.mpr hsame, by simp [hwrite]⟩)⟩
    | none => simp [RequestUpdateInput.Stuck, hkey, hread, hwrite, pure_apply]

theorem requestUpdate_outcome {args : RequestUpdateArgs} {input : RequestUpdateInput}
    (h : args.check = .ok input) :
    Outcome (requestUpdate env around args) files (fun _ _ => ¬ input.Torn env around files)
      fun _ files' => Unchanged files files' ↔ ¬ input.Torn env around files := by
  simp only [Outcome, requestUpdate, h, liftArgs, bind_apply, pure_apply, onRequests_run]
  cases hws : validateId input.workspaceId with
  | error e =>
    simp only [getRequest, bind_apply, lift_run, hws]
    refine iff_of_true (.refl files) ?_
    rintro ⟨_, _, _, _, _, hws', _⟩
    rw [hws] at hws'
    cases hws'
  | ok =>
  cases hid : validateId input.requestId with
  | error e =>
    simp only [getRequest, bind_apply, lift_run, hws, hid]
    refine iff_of_true (.refl files) ?_
    rintro ⟨_, _, _, _, _, _, hid', _⟩
    rw [hid] at hid'
    cases hid'
  | ok =>
  simp only [getRequest_run hws hid]
  cases hreq : files.store.requests.find? (input.workspaceId, input.requestId) with
  | none =>
    refine iff_of_true (.refl files) ?_
    rintro ⟨_, _, hreq', _⟩
    rw [hreq] at hreq'
    cases hreq'
  | some req =>
  cases hfault : env.fault files.store.tick with
  | some message =>
    refine iff_of_true (.later files 1) ?_
    rintro ⟨_, _, _, _, _, _, _, hfault', _⟩
    rw [hfault] at hfault'
    cases hfault'
  | none =>
  cases hname : input.name with
  | none =>
    have hnot : ¬ input.Torn env around files := by
      rintro ⟨_, _, _, hname', _⟩
      rw [hname] at hname'
      cases hname'
    have hend := @saveEdited_outcome env around { files with store := files.store.later 1 } input
      req req hws hid hreq fun _ => Iff.rfl
    exact hend.mono (fun _ _ _ => hnot) fun _ _ hsame =>
      iff_of_true ((Unchanged.later files 1).trans hsame.1) hnot
  | some name =>
  have htorn : input.Torn env around files ↔ name ≠ req.name ∧
      env.fault (files.store.tick + 1) = none ∧ env.fault (files.store.tick + 3) = none ∧
      input.Stuck env around req (files.store.tick + 4) := by
    constructor
    · rintro ⟨req', name', hreq', hname', hne, -, -, -, h₁, h₃, hstuck⟩
      cases hreq.symm.trans hreq'
      cases hname.symm.trans hname'
      exact ⟨hne, h₁, h₃, hstuck⟩
    · rintro ⟨hne, h₁, h₃, hstuck⟩
      exact ⟨req, name, hreq, hname, hne, hws, hid, hfault, h₁, h₃, hstuck⟩
  simp only [bind_apply, onRequests_run, renameRequest_run (w := files.store.later 1) hws hid hreq,
    World.later_tick, World.later_later, Nat.add_assoc]
  cases h₁ : env.fault (files.store.tick + 1) with
  | some message =>
    exact iff_of_true (.later files 2) fun h => by simpa [h₁] using (htorn.mp h).2.1
  | none =>
  by_cases hsame : name = req.name
  · simp only [if_pos hsame]
    have hend := @saveEdited_outcome env around { files with store := files.store.later 2 } input
      req req hws hid hreq fun _ => Iff.rfl
    have hnot : ¬ input.Torn env around files := fun h => (htorn.mp h).1 hsame
    exact hend.mono (fun _ _ _ => hnot) fun _ _ hkept =>
      iff_of_true ((Unchanged.later files 2).trans hkept.1) hnot
  · simp only [if_neg hsame]
    cases h₃ : env.fault (files.store.tick + 3) with
    | some message =>
      exact iff_of_true (.later files 4) fun h => by simpa [h₃] using (htorn.mp h).2.2.1
    | none =>
    -- From here on the new name is on disk.
    let renamed := { req with name := name, updatedAt := env.now (files.store.tick + 2) }
    have hkey : requestKey renamed = (input.workspaceId, input.requestId) :=
      (Records.find?_eq_some_iff.mp hreq).2
    have hend := @saveEdited_outcome env around
      { files with store := files.store.write 4 renamed } input req renamed hws hid
      (by simp [World.write, Records.find?_put, hkey]) fun next => by
        simp [withFields_eq_iff, renamed]
    refine hend.mono (fun _ _ hok h => hok (htorn.mp h).2.2.2) fun _ _ hend => ?_
    obtain ⟨hkept, hstuck⟩ := hend
    refine iff_of_false (fun hU => ?_) (not_not.mpr (htorn.mpr ⟨hsame, h₁, h₃, hstuck⟩))
    have hwritten := unchanged_write_iff.mp (hU.trans hkept.symm)
    rw [hkey, hreq] at hwritten
    exact hsame (congrArg HttpRequest.name (Option.some.inj hwritten)).symm

/-! ## Creating a request -/

/-- The operation leaves the files as they are, also where it fails. -/
def Keeps {α : Type} (x : Store α) (w : World) : Prop :=
  Outcome x w (fun _ w' => SameFiles w w') fun _ w' => SameFiles w w'

theorem Keeps.of_reads {α : Type} {x : Store α} {w : World} {Q : α → Prop} (h : Reads x w Q) :
    Keeps x w :=
  Outcome.mono h (fun _ _ h => h.1) fun _ _ h => h.2

theorem Keeps.bind {α β : Type} {x : Store α} {g : α → Store β} {w : World} (hx : Keeps x w)
    (hg : ∀ a w', SameFiles w w' → Keeps (g a) w') : Keeps (x >>= g) w :=
  Outcome.bind (Q := fun _ w' => SameFiles w w') hx fun a w' h =>
    (hg a w' h).mono (fun _ _ h' => h.trans h') fun _ _ h' => h.trans h'

theorem walkParents_keeps {w : World} {ws : String} {moving place : Option String} {fuel : ℕ}
    {seen : List String} : Keeps (walkParents env ws moving fuel seen place) w := by
  induction fuel generalizing w seen place with
  | zero => cases place <;> exact .refl w
  | succ fuel ih =>
    cases place with
    | none => exact .refl w
    | some id =>
      rw [walkParents]
      split_ifs
      · exact .refl w
      · exact .refl w
      refine .bind (.of_reads (.lift _)) fun _ w₁ _ =>
        .bind (.of_reads get_reads) fun _ w₂ _ => ?_
      split
      · exact .refl w₂
      · exact .bind (.of_reads .fileSystem) fun _ _ _ => ih

theorem checkParent_keeps {w : World} {ws : String} {moving place : Option String} :
    Keeps (checkParent env ws place moving) w :=
  .bind (.of_reads (.lift _)) fun _ _ _ => .bind (.of_reads get_reads) fun _ _ _ =>
    walkParents_keeps

theorem withFields_extend_ne {input : RequestCreateInput} (h : input.hasExtras) (t : ℕ) :
    let req := newRequest env t input.workspaceId input.folderId input.name input.method input.url
    withFields req (input.extend req) ≠ req := by
  intro req heq
  simp only [withFields_eq_iff, RequestCreateInput.extend, req, newRequest] at heq
  simp only [RequestCreateInput.hasExtras, decide_eq_true_eq] at h
  rcases h with hheaders | hparams | hbody
  · simp [hheaders] at heq
  · simp [hparams] at heq
  · simp [hbody] at heq
    simp [heq] at hbody

theorem requestCreate_outcome {args : RequestCreateArgs} {input : RequestCreateInput}
    (h : args.check = .ok input) :
    Outcome (requestCreate env args) files (fun _ _ => ¬ input.Torn env files)
      fun _ files' => Unchanged files files' ↔ ¬ input.Torn env files := by
  simp only [Outcome, requestCreate, h, liftArgs, bind_apply, pure_apply, onRequests_run]
  have hparent := @checkParent_keeps env files.store input.workspaceId none input.folderId
  rw [Keeps, Outcome] at hparent
  rcases hcheck : checkParent env input.workspaceId input.folderId none files.store with ⟨_ | _, w⟩
  · rename_i e
    rw [hcheck] at hparent
    simp only [createRequest_run_error hcheck]
    refine iff_of_true (.of_sameFiles hparent) ?_
    rintro ⟨_, hcheck', _⟩
    cases hcheck.symm.trans hcheck'
  rw [hcheck] at hparent
  obtain ⟨req, hreq⟩ : ∃ req, req = newRequest env w.tick input.workspaceId input.folderId
    input.name input.method input.url := ⟨_, rfl⟩
  have htorn : input.Torn env files ↔ input.hasExtras ∧ validateId req.id = .ok () ∧
      files.store.requests.find? (requestKey req) ≠ some req ∧
      env.fault w.tick = none ∧ env.fault (w.tick + 4) = none ∧
      (env.fault (w.tick + 5) ≠ none ∨ env.fault (w.tick + 7) ≠ none) := by
    rw [hreq]
    constructor
    · rintro ⟨w', hcheck', htorn⟩
      cases hcheck.symm.trans hcheck'
      exact htorn
    · exact fun htorn => ⟨w, hcheck, htorn⟩
  have hlater (n : ℕ) : Unchanged files { files with store := w.later n } :=
    (Unchanged.of_sameFiles hparent).trans (.later _ n)
  have hnewId : env.newId (w.tick + 1) = req.id := by rw [hreq]; rfl
  simp only [createRequest_run hcheck, ← hreq, hnewId]
  cases h₀ : env.fault w.tick with
  | some message =>
    exact iff_of_true (hlater 1) fun h => by simpa [h₀] using (htorn.mp h).2.2.2.1
  | none =>
  cases hid : validateId req.id with
  | error e =>
    refine iff_of_true (hlater 4) fun h => ?_
    cases hid.symm.trans (htorn.mp h).2.1
  | ok =>
  cases h₄ : env.fault (w.tick + 4) with
  | some message =>
    exact iff_of_true (hlater 5) fun h => by simpa [h₄] using (htorn.mp h).2.2.2.2.1
  | none =>
  -- From here on the new request is on disk.
  by_cases hextras : input.hasExtras = true
  · have hws := validateId_of_checkParent hcheck
    have hkey : requestKey req = (input.workspaceId, req.id) := by rw [hreq]; rfl
    have hfind : (w.write 5 req).requests.find? (input.workspaceId, req.id) = some req := by
      rw [← hkey, World.write_find?]
    have hne : withFields req (input.extend req) ≠ req := by
      rw [hreq]
      exact withFields_extend_ne hextras w.tick
    have hfails (n : ℕ) (h : env.fault (w.tick + 5) ≠ none ∨ env.fault (w.tick + 7) ≠ none) :
        Unchanged files { files with store := w.write n req } ↔ ¬ input.Torn env files := by
      have hwrite := @unchanged_write_iff { files with store := w } n req
      rw [htorn]
      simp only [hextras, hid, h₀, h₄, h, and_true, true_and, ne_eq, not_not]
      rw [← hparent.requests, ← hwrite]
      exact ⟨(hlater 0).symm.trans, (hlater 0).trans⟩
    have hextend : (input.extend req).id = req.id := rfl
    simp only [hextras, if_true, bind_apply, onRequests_run, hextend,
      updateRequest_run (w := w.write 5 req) hws hid hfind, if_neg hne, World.write_tick,
      World.write_later, Nat.add_assoc]
    cases h₅ : env.fault (w.tick + 5) with
    | some message => exact hfails 6 (.inl (by simp [h₅]))
    | none =>
    cases h₇ : env.fault (w.tick + 7) with
    | some message => exact hfails 8 (.inr (by simp [h₇]))
    | none =>
      simp only [pure_apply]
      exact fun h => by simpa [h₅, h₇] using (htorn.mp h).2.2.2.2.2
  · simp only [if_neg hextras, pure_apply]
    exact fun h => hextras (htorn.mp h).1

/-! ## Setting a variable -/

theorem setVariable_keeps {edit : VariableEdit} {e next : Environment}
    (h : setVariable around edit e = .ok next) :
    envKey next = envKey e ∧ next.shared = e.shared := by
  simp only [setVariable] at h
  split_ifs at h
  · cases hkey : around.key with
    | error => simp [hkey, Except.map] at h
    | ok aead =>
      simp only [hkey, Except.map, Except.ok.injEq] at h
      subst h
      exact ⟨rfl, rfl⟩
  · cases h
    exact ⟨rfl, rfl⟩

theorem envKey_of_environment? {k : FileKey} {e : Environment}
    (h : files.environment? k = some e) : envKey e = k := by
  rcases Option.or_eq_some_iff.mp h with h | ⟨-, h⟩
  · exact (Records.find?_eq_some_iff.mp h).2
  · exact (Records.find?_eq_some_iff.mp h).2

theorem unchanged_putShared_iff {n : ℕ} {e : Environment} :
    Unchanged files { files with
      store := files.store.later n, sharedEnvs := files.sharedEnvs.put e } ↔
      files.sharedEnvs.find? (envKey e) = some e := by
  rw [← Records.find?_put_eq_iff]
  exact ⟨fun h => h.sharedEnvs, fun h => ⟨fun _ => rfl, fun _ => rfl, h, fun _ => rfl⟩⟩

theorem unchanged_putLocal_iff {n : ℕ} {e : Environment} :
    Unchanged files { files with
      store := files.store.later n, localEnvs := files.localEnvs.put e } ↔
      files.localEnvs.find? (envKey e) = some e := by
  rw [← Records.find?_put_eq_iff]
  exact ⟨fun h => h.localEnvs, fun h => ⟨fun _ => rfl, fun _ => rfl, fun _ => rfl, h⟩⟩

/-- The environment differs from the file it goes to, there is a copy in the other directory, and
only the removal of the copy fails. -/
def SaveTorn (env : Env) (files : Files) (e : Environment) : Prop :=
  let t := files.store.tick
  (if e.shared then (files.localEnvs.find? (envKey e)).isSome ∧
      files.sharedEnvs.find? (envKey e) ≠ some e
    else (files.sharedEnvs.find? (envKey e)).isSome ∧
      files.localEnvs.find? (envKey e) ≠ some e) ∧
  env.fault t = none ∧ env.fault (t + 1) = none ∧ env.fault (t + 2) ≠ none

theorem saveEnvironment_outcome {e : Environment} (hws : validateId e.workspaceId = .ok ())
    (hid : validateId e.id = .ok ()) :
    Outcome (saveEnvironment env e) files (fun _ _ => ¬ SaveTorn env files e)
      fun _ files' => Unchanged files files' ↔ ¬ SaveTorn env files e := by
  simp only [Outcome, saveEnvironment, bind_apply, onRequests_run, lift_run, hws, hid,
    fileSystem_run]
  cases h₀ : env.fault files.store.tick with
  | some message => exact iff_of_true (.later files 1) fun h => by simpa [h₀] using h.2.1
  | none =>
  simp only [World.later_tick, World.later_later]
  cases h₁ : env.fault (files.store.tick + 1) with
  | some message => exact iff_of_true (.later files 2) fun h => by simpa [h₁] using h.2.2.1
  | none =>
  cases hshared : e.shared with
  | false =>
    simp only [Bool.false_eq_true, if_false, bind_apply, modify_apply, get_apply]
    cases hcopy : (files.sharedEnvs.find? (envKey e)).isSome with
    | false => simp [SaveTorn, hshared, hcopy, pure_apply]
    | true =>
      simp only [if_true, bind_apply, onRequests_run, fileSystem_run, World.later_tick]
      cases h₂ : env.fault (files.store.tick + 2) with
      | some message =>
        simp only [SaveTorn, hshared, Bool.false_eq_true, if_false, hcopy, h₀, h₁, h₂]
        simpa using unchanged_putLocal_iff
      | none => simp [SaveTorn, hshared, h₂, modify_apply]
  | true =>
    simp only [if_true, bind_apply, modify_apply, get_apply]
    cases hcopy : (files.localEnvs.find? (envKey e)).isSome with
    | false => simp [SaveTorn, hshared, hcopy, pure_apply]
    | true =>
      simp only [if_true, bind_apply, onRequests_run, fileSystem_run, World.later_tick]
      cases h₂ : env.fault (files.store.tick + 2) with
      | some message =>
        simp only [SaveTorn, hshared, if_true, hcopy, h₀, h₁, h₂]
        simpa using unchanged_putShared_iff
      | none => simp [SaveTorn, hshared, h₂, modify_apply]

theorem envSetVariableTool_outcome {args : SetVariableArgs} {edit : VariableEdit}
    (h : args.check = .ok edit) :
    Outcome (envSetVariableTool env around args) files (fun _ _ => ¬ edit.Torn env around files)
      fun _ files' => Unchanged files files' ↔ ¬ edit.Torn env around files := by
  simp only [Outcome, envSetVariableTool, h, liftArgs, bind_apply, pure_apply, getEnvironment,
    onRequests_run, lift_run]
  cases hws : validateId edit.workspaceId with
  | error e =>
    refine iff_of_true (.refl files) ?_
    rintro ⟨_, _, _, _, _, hws', _⟩
    cases hws.symm.trans hws'
  | ok =>
  cases hid : validateId edit.envId with
  | error e =>
    refine iff_of_true (.refl files) ?_
    rintro ⟨_, _, _, _, _, _, hid', _⟩
    cases hid.symm.trans hid'
  | ok =>
  simp only [get_apply]
  cases hfind : files.environment? (edit.workspaceId, edit.envId) with
  | none =>
    refine iff_of_true (.refl files) ?_
    rintro ⟨_, _, hfind', _⟩
    cases hfind.symm.trans hfind'
  | some e =>
  simp only [bind_apply, onRequests_run, fileSystem_run]
  cases h₀ : env.fault files.store.tick with
  | some message =>
    refine iff_of_true (.later files 1) ?_
    rintro ⟨_, _, _, _, _, _, _, h₀', _⟩
    cases h₀.symm.trans h₀'
  | none =>
  simp only [pure_apply, bind_apply, onRequests_run, lift_run]
  cases hset : setVariable around edit e with
  | error _ =>
    refine iff_of_true (.later files 1) ?_
    rintro ⟨_, _, hfind', hset', _⟩
    cases hfind.symm.trans hfind'
    cases hset.symm.trans hset'
  | ok next =>
  have hkey := (setVariable_keeps hset).1.trans (envKey_of_environment? hfind)
  have hshared := (setVariable_keeps hset).2
  have htorn : edit.Torn env around files ↔
      SaveTorn env { files with store := files.store.later 1 } next := by
    rw [SaveTorn, hkey, hshared]
    constructor
    · rintro ⟨e', next', hfind', hset', hcopy, -, -, -, hfaults⟩
      cases hfind.symm.trans hfind'
      cases hset.symm.trans hset'
      exact ⟨hcopy, hfaults⟩
    · rintro ⟨hcopy, hfaults⟩
      exact ⟨e, next, hfind, hset, hcopy, hws, hid, h₀, hfaults⟩
  have hsave := @saveEnvironment_outcome env { files with store := files.store.later 1 } next
    ((congrArg (validateId ·.1) hkey).trans hws) ((congrArg (validateId ·.2) hkey).trans hid)
  rw [← htorn] at hsave
  refine (hsave.bind fun _ _ hok => Outcome.pure hok).mono (fun _ _ hok => hok) fun _ files' hiff => ?_
  rw [← hiff]
  exact ⟨(Unchanged.later files 1).symm.trans, (Unchanged.later files 1).trans⟩

/-- A call that fails leaves every file as it was, but for the calls that are torn between two
writes. -/
theorem failed_write_iff (env : Env) (around : Surroundings) (call : WriteCall) (files : Files) :
    (∀ e files', call.exec env around files = (.error e, files') → Unchanged files files') ↔
      ¬ call.Torn env around files := by
  have hcall : Outcome (call.exec env around) files (fun _ _ => ¬ call.Torn env around files)
      fun _ files' => Unchanged files files' ↔ ¬ call.Torn env around files := by
    cases call with
    | requestCreate args =>
        cases h : args.check with
        | error message =>
            simp [Outcome, WriteCall.exec, WriteCall.Torn, requestCreate, bind_apply, liftArgs, h,
              throw_apply, Unchanged.refl]
        | ok input =>
            simp only [WriteCall.exec, WriteCall.Torn, h, Except.ok.injEq, exists_eq_left']
            exact (requestCreate_outcome h).bind fun _ _ hok => Outcome.pure hok
    | requestUpdate args =>
        cases h : args.check with
        | error message =>
            simp [Outcome, WriteCall.exec, WriteCall.Torn, requestUpdate, bind_apply, liftArgs, h,
              throw_apply, Unchanged.refl]
        | ok input =>
            simp only [WriteCall.exec, WriteCall.Torn, h, Except.ok.injEq, exists_eq_left']
            exact (requestUpdate_outcome h).bind fun _ _ hok => Outcome.pure hok
    | envSetVariable args =>
        cases h : args.check with
        | error message =>
            simp [Outcome, WriteCall.exec, WriteCall.Torn, envSetVariableTool, bind_apply, liftArgs,
              h, throw_apply, Unchanged.refl]
        | ok edit =>
            simp only [WriteCall.exec, WriteCall.Torn, h, Except.ok.injEq, exists_eq_left']
            exact (envSetVariableTool_outcome h).bind fun _ _ hok => Outcome.pure hok
  rw [Outcome] at hcall
  split at hcall
  · rename_i a files' hrun
    rw [hrun]
    exact iff_of_true (fun _ _ heq => by cases heq) hcall
  · rename_i e files' hrun
    rw [hrun, ← hcall]
    exact ⟨fun h => h e files' rfl, fun h _ _ heq => by cases heq; exact h⟩

/-- A login request in an encrypted workspace whose key is not on this machine. -/
def keyless : Surroundings where
  encrypted := .ok true
  key := .error (.crypto
    "workspace key not found for workspace 'w1' — re-import your backup key")
  now := "2024-01-01T00:00:00.000000"
  nonce := zeros

def loginFiles : Files where
  store := {
    folders := ⟨[], by simp⟩
    requests := ⟨[{ HttpRequest.blank with id := "r1", workspaceId := "w1", name := "Login" }],
      by simp⟩
    tick := 0 }
  sharedEnvs := ⟨[], by simp⟩
  localEnvs := ⟨[], by simp⟩

/-- A new name and a bearer token. -/
def renameAndAuthorize : WriteCall :=
  .requestUpdate {
    workspaceId := some "w1"
    requestId := some "r1"
    auth := some (.ok (.bearer { token := "t", tokenEncrypted := false, enabled := true }))
    name := some "Sign in"
    method := none
    url := none
    graphqlQuery := none
    graphqlVariables := none
    headers := none
    queryParams := none
    body := .ok none }

/-- The call fails for want of the key, and the request has its new name. -/
theorem failed_update_renames : ¬ ∀ (env : Env) (around : Surroundings) (call : WriteCall)
    (files : Files) (e : ToolError) (files' : Files),
    call.exec env around files = (.error e, files') → Unchanged files files' := by
  intro h
  have hrun := h faultless keyless renameAndAuthorize loginFiles _ _ rfl
  have hname := congrArg (Option.map HttpRequest.name) (hrun.requests ("w1", "r1"))
  exact absurd hname (by decide)

end Voleeo.Mcp
