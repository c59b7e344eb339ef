import Mathlib.Data.List.Induction
import Mathlib.Data.List.Perm.Basic
import Mathlib.Tactic.IntervalCases
import Voleeo.Mcp.MaskedAuth
import Voleeo.SharedFiles
import Voleeo.Storage.Responses

/-!
# Concurrent tool calls

Each message of a connection is handled by a task of its own. A call that sets a
variable loads its environment and saves it; a send that completed merges its
cookies into the jar and then appends its response to the history. Every load
and every save of a file is one step.
-/
namespace Voleeo.Mcp
open Crypto SharedFiles Responses

/-! ## Captured cookies -/

def eqIgnoreAsciiCase (a b : String) : Bool :=
  a.toList.map Char.toLower = b.toList.map Char.toLower

/-- `same_identity`: the domain in any case, the path and the name. -/
def sameIdentity (a b : StoredCookie) : Bool :=
  eqIgnoreAsciiCase a.domain b.domain ∧ a.path = b.path ∧ a.name = b.name

def decryptValue (aead : Aead) (c : StoredCookie) : Except VoleeoError StoredCookie :=
  if c.valueEncrypted ∧ isEncrypted c.value then
    (decrypt aead c.value).map fun value => { c with value }
  else .ok c

def decryptValues (aead : Aead) (cookies : List StoredCookie) :
    Except VoleeoError (List StoredCookie) :=
  cookies.mapM (decryptValue aead)

def encryptValues (aead : Aead) (nonce : ℕ → Nonce) (cookies : List StoredCookie) :
    List StoredCookie :=
  cookies.mapIdx fun i c =>
    if c.valueEncrypted ∧ ¬ isEncrypted c.value then
      { c with value := encrypt aead (nonce i) c.value }
    else c

def jarNeedsKey (cookies : List StoredCookie) : Bool := cookies.any (·.valueEncrypted)

/-- Replace the first cookie of the same identity, or add the fresh one. -/
def putCookie (encrypted : Bool) (fresh : StoredCookie) : List StoredCookie → List StoredCookie
  | [] => [{ fresh with valueEncrypted := encrypted }]
  | c :: cs =>
    if sameIdentity c fresh then
      { fresh with valueEncrypted := encrypted, id := c.id, createdAt := c.createdAt } :: cs
    else c :: putCookie encrypted fresh cs

def putCookies (encrypted : Bool) (captured cookies : List StoredCookie) : List StoredCookie :=
  captured.foldl (fun cs fresh => putCookie encrypted fresh cs) cookies

/-- The jar that `ingest_captured_blocking` saves. -/
def ingest (around : Surroundings) (captured : List StoredCookie) (jar : CookieJar) :
    Except VoleeoError CookieJar := do
  let encrypted ← around.encrypted
  if jarNeedsKey jar.cookies ∨ encrypted then
    if ¬ encrypted then .error (.invalidConfig "workspace_encryption_required")
    else
      let aead ← around.key
      let cookies ← decryptValues aead jar.cookies
      return { jar with
        cookies := encryptValues aead around.nonce (putCookies encrypted captured cookies)
        updatedAt := around.now }
  else
    return { jar with
      cookies := putCookies encrypted captured jar.cookies, updatedAt := around.now }

def defaultJarId : String := "default"

def defaultJar (workspaceId now : String) : CookieJar :=
  { id := defaultJarId, workspaceId, name := "Default", cookies := [], createdAt := now,
    updatedAt := now }

/-! ## Calls -/

/-- The files of a workspace that the calls change. -/
inductive WorkspaceFile
  | env (id : String)
  | jar (id : String)
  | history (requestId : String)
  deriving DecidableEq

/-- An environment or a jar may be missing; a missing history is empty. -/
abbrev Content : WorkspaceFile → Type
  | .env _ => Option Environment
  | .jar _ => Option CookieJar
  | .history _ => List StoredHttpResponse

def envSetVariable (around : Surroundings) (edit : VariableEdit) : SharedFiles.Call Content :=
  .load (.env edit.envId) fun content =>
    match content with
    | none => .done
    | some env =>
      match setVariable around edit env with
      | .error _ => .done
      | .ok env => .save (.env edit.envId) (some env) .done

/-- `CookieJarStore::get`, which creates the default jar. A jar that is not there ends the
ingest. -/
def getJar (workspaceId jarId now : String) (next : CookieJar → SharedFiles.Call Content) :
    SharedFiles.Call Content :=
  .load (.jar jarId) fun content =>
    match content with
    | some jar => next jar
    | none =>
      if jarId = defaultJarId then
        .load (.jar jarId) fun content =>
          match content with
          | some jar => next jar
          | none =>
            let jar := defaultJar workspaceId now
            .save (.jar jarId) (some jar) (next jar)
      else .done

def ingestCaptured (around : Surroundings) (workspaceId jarId : String)
    (captured : List StoredCookie) : SharedFiles.Call Content :=
  if captured = [] then .done
  else
    match around.encrypted with
    | .error _ => .done
    | .ok _ =>
      getJar workspaceId jarId around.now fun jar =>
        match ingest around captured jar with
        | .error _ => .done
        | .ok jar => .save (.jar jarId) (some jar) .done

def historyLimit : ℕ := 20

def appendResponse (entry : StoredHttpResponse) : SharedFiles.Call Content :=
  .load (.history entry.requestId) fun items =>
    .save (.history entry.requestId) (pushResponse historyLimit entry items) .done

/-- A send that got its response, with the id and the time of its history entry. -/
structure Completion extends Completed where
  jarId : String
  id : String
  recordedAt : String
  format : String → String

def sendCompleted (around : Surroundings) (c : Completion) : SharedFiles.Call Content :=
  (ingestCaptured around c.workspaceId c.jarId c.response.capturedCookies).andThen
    (appendResponse (stored c.format c.id c.recordedAt c.toCompleted))

inductive ToolCall
  | setVariable (around : Surroundings) (edit : VariableEdit)
  | requestSend (around : Surroundings) (completion : Completion)

def ToolCall.steps : ToolCall → SharedFiles.Call Content
  | .setVariable around edit => envSetVariable around edit
  | .requestSend around completion => sendCompleted around completion

/-- Calls that were dispatched on the files of a workspace. -/
def dispatch (files : ∀ k, Content k) (calls : List ToolCall) : System Content ℕ where
  files := files
  calls i := (calls[i]?.map ToolCall.steps).getD .done

/-! ## Histories of calls run one after another -/

section Histories

variable {files : ∀ k, Content k} {requestId : String}

/-- The entry that a call adds to the history of a request. -/
def ToolCall.logged (requestId : String) : ToolCall → Option StoredHttpResponse
  | .setVariable _ _ => none
  | .requestSend _ c =>
    if c.requestId = requestId then some (stored c.format c.id c.recordedAt c.toCompleted)
    else none

theorem exec_getJar_history (workspaceId jarId now : String)
    (next : CookieJar → SharedFiles.Call Content)
    (hnext : ∀ jar files, (next jar).exec files (.history requestId) = files (.history requestId))
    (files : ∀ k, Content k) :
    (getJar workspaceId jarId now next).exec files (.history requestId) =
      files (.history requestId) := by
  rw [getJar, exec_load]
  split
  · exact hnext _ _
  · split
    · rw [exec_load]
      split
      · exact hnext _ _
      · rw [exec_save, hnext, Function.update_of_ne (by simp)]
    · rfl

theorem exec_ingestCaptured_history (around : Surroundings) (workspaceId jarId : String)
    (captured : List StoredCookie) (files : ∀ k, Content k) :
    (ingestCaptured around workspaceId jarId captured).exec files (.history requestId) =
      files (.history requestId) := by
  rw [ingestCaptured]
  split
  · rfl
  · split
    · rfl
    · refine exec_getJar_history workspaceId jarId around.now _ (fun jar files => ?_) files
      split
      · rfl
      · rw [exec_save, exec_done, Function.update_of_ne (by simp)]

theorem exec_envSetVariable_history (around : Surroundings) (edit : VariableEdit)
    (files : ∀ k, Content k) :
    (envSetVariable around edit).exec files (.history requestId) = files (.history requestId) := by
  rw [envSetVariable, exec_load]
  split
  · rfl
  · split
    · rfl
    · rw [exec_save, exec_done, Function.update_of_ne (by simp)]

/-- A completed send adds its entry to the history of its request, and nothing else changes a
history. -/
theorem exec_steps_history (call : ToolCall) (files : ∀ k, Content k) :
    call.steps.exec files (.history requestId) = match call.logged requestId with
      | some entry => pushResponse historyLimit entry (files (.history requestId))
      | none => files (.history requestId) := by
  cases call with
  | setVariable around edit => exact exec_envSetVariable_history around edit files
  | requestSend around c =>
    rw [ToolCall.steps, sendCompleted, exec_andThen, appendResponse, exec_load, exec_save,
      exec_done, ToolCall.logged]
    by_cases hid : c.requestId = requestId
    · subst hid
      rw [if_pos rfl]
      rw [show (stored c.format c.id c.recordedAt c.toCompleted).requestId = c.requestId from rfl,
        Function.update_self, exec_ingestCaptured_history]
    · rw [if_neg hid, Function.update_of_ne (by simpa [stored] using Ne.symm hid),
        exec_ingestCaptured_history]

/-- Calls run one after another leave the last responses of each request, the newest first. -/
theorem history_serial (files : ∀ k, Content k) (calls : List ToolCall) (order : List ℕ)
    (requestId : String) :
    List.take historyLimit (serial (dispatch files calls) order (.history requestId)) =
      List.take historyLimit ((order.filterMap fun i => calls[i]?.bind (·.logged requestId)).reverse
        ++ files (.history requestId)) := by
  induction order using List.reverseRecOn with
  | nil => rfl
  | append_singleton order i ih =>
    rw [serial, List.foldl_append, List.foldl_cons, List.foldl_nil, List.filterMap_append,
      List.reverse_append]
    change List.take historyLimit (((calls[i]?.map ToolCall.steps).getD .done).exec
      (serial (dispatch files calls) order) (.history requestId)) = _
    cases hcall : calls[i]? with
    | none => simpa [hcall] using ih
    | some call =>
      rw [Option.map_some, Option.getD_some, exec_steps_history]
      cases hentry : call.logged requestId with
      | none => simpa [hcall, hentry] using ih
      | some entry =>
        have htail := congrArg (List.take (historyLimit - 1)) ih
        rw [List.take_take, List.take_take] at htail
        simpa [hcall, hentry, pushResponse, historyLimit, List.take_take] using htail

end Histories

/-! ## Serialisability -/

/-- Once all calls have ended, the files are those of the calls run in some order. -/
def Serialisable (files : ∀ k, Content k) (calls : List ToolCall) (schedule : List ℕ) : Prop :=
  Finished (run (dispatch files calls) schedule) →
    ∃ order : List ℕ, order.Perm (List.range calls.length) ∧
      (run (dispatch files calls) schedule).files = serial (dispatch files calls) order

def plainSurroundings (now : String) : Surroundings :=
  { encrypted := .ok false, key := .error (.crypto "no key"), now, nonce := zeros }

def sampleEdit (key : String) : VariableEdit :=
  { workspaceId := "w1", envId := "global", key, value := "1", delete := false, enabled := true,
    encrypted := none }

def sampleFiles : ∀ k, Content k
  | .env _ => some
      { id := "global", workspaceId := "w1", kind := .global, name := "Global Environment",
        color := "", shared := false, «variables» := [], createdAt := "", updatedAt := "" }
  | .jar _ => none
  | .history _ => []

/-- Two calls that each add a variable to the same environment. -/
def twoVariables : List ToolCall :=
  [.setVariable (plainSurroundings "t1") (sampleEdit "A"),
    .setVariable (plainSurroundings "t2") (sampleEdit "B")]

end Voleeo.Mcp
