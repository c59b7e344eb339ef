import Voleeo.Entities
import Mathlib.Logic.Function.Basic

/-!
# The store of responses

The window keeps for each request id the response and the error on display and
whether a send is in flight. A completed send writes them by the id of its request.
-/
namespace Voleeo.Web

structure HttpStore where
  responses : String → Option HttpResponse
  loading : String → Bool
  errors : String → Option String

inductive SendError
  | cancelled
  | httpFailed (message : String) (events : List TimelineEvent)
  /-- Any other kind, with the text that is shown for it. -/
  | other (message : String)
  deriving DecidableEq, Repr

/-- How the send command ends: it may also throw on its way to the window. -/
inductive SendResult
  | ok (data : HttpResponse)
  | error (error : SendError)
  | threw (message : String)
  deriving DecidableEq, Repr

structure CookieJarName where
  id : String
  name : String
  deriving DecidableEq, Repr

/-- The part of the cookies store that a completed send reads. -/
structure CookiesState where
  jars : List CookieJarName
  activeJarId : Option String
  deriving DecidableEq, Repr

def errorMessage : SendError → String
  | .cancelled => "Cancelled"
  | .httpFailed message _ => message
  | .other message => message

/-- The row about captured cookies. -/
def capturedEvent (cookies : CookiesState) (count : ℕ) : TimelineEvent :=
  let jar := cookies.jars.find? fun j => some j.id = cookies.activeJarId
  let jarName := (jar.map (·.name)).getD "active jar"
  { atMs := 0
    kind := "resolve"
    text := toString count ++ " cookie" ++ (if count = 1 then "" else "s") ++ " captured into "
      ++ jarName }

def mergeCaptured (cookies : CookiesState) (data : HttpResponse) : HttpResponse :=
  if data.capturedCookies.length > 0 then
    { data with events := data.events ++ [capturedEvent cookies data.capturedCookies.length] }
  else data

/-- A response that was never received, with its timeline. -/
def shellResponse (requestId : String) (events : List TimelineEvent) : HttpResponse where
  requestId
  status := 0
  statusText := ""
  headers := []
  body := ""
  bodySize := 0
  bodyIsText := true
  bodyWindowed := false
  bodyLineCount := 0
  responseId := ""
  timing := .zero
  events
  redirectWarning := none
  capturedCookies := []
  attachedCookies := []
  sseFrames := []

def cancelledShell (requestId : String) (resolveEvents : List TimelineEvent) : HttpResponse :=
  shellResponse requestId
    (resolveEvents ++ [{ atMs := 0, kind := "info", text := "Request cancelled" }])

namespace HttpStore

/-- The first write of `sendRequest`. -/
def beginSend (s : HttpStore) (requestId : String) : HttpStore :=
  { s with
    loading := Function.update s.loading requestId true
    errors := Function.update s.errors requestId none }

/-- The write of `cancelRequest`. -/
def cancelRequest (s : HttpStore) (requestId : String) : HttpStore :=
  { s with loading := Function.update s.loading requestId false }

def put (s : HttpStore) (requestId : String) (response : Option HttpResponse)
    (error : Option String) : HttpStore where
  loading := Function.update s.loading requestId false
  responses := Function.update s.responses requestId response
  errors := Function.update s.errors requestId error

/-- The write of a send that threw. -/
def sendThrew (s : HttpStore) (requestId message : String) : HttpStore :=
  { s with
    loading := Function.update s.loading requestId false
    errors := Function.update s.errors requestId (some message) }

def applySendError (s : HttpStore) (requestId : String) (resolveEvents : List TimelineEvent)
    (error : SendError) : HttpStore :=
  let shell := match error with
    | .httpFailed _ events => some (shellResponse requestId (resolveEvents ++ events))
    | _ => none
  s.put requestId shell (some (errorMessage error))

/-- The end of `sendRequest`. -/
def applySendRequestResult (s : HttpStore) (cookies : CookiesState) (requestId : String)
    (resolveEvents : List TimelineEvent) : SendResult → HttpStore
  | .ok data => s.put requestId (some (mergeCaptured cookies data)) none
  | .error .cancelled => s.put requestId (some (cancelledShell requestId resolveEvents)) none
  | .error error => s.applySendError requestId resolveEvents error
  | .threw message => s.sendThrew requestId message

end HttpStore

/-! ## What a result shows -/

/-- The response and the error of a send. -/
def shown (cookies : CookiesState) (requestId : String) (resolveEvents : List TimelineEvent) :
    SendResult → Option HttpResponse × Option String
  | .ok data => (some (mergeCaptured cookies data), none)
  | .error .cancelled => (some (cancelledShell requestId resolveEvents), none)
  | .error (.httpFailed message events) =>
    (some (shellResponse requestId (resolveEvents ++ events)), some message)
  | .error (.other message) => (none, some message)
  | .threw message => (none, some message)

/-- What is on display behind a result. A send that threw leaves the response that was there. -/
def displayed (old : Option HttpResponse) (cookies : CookiesState) (requestId : String)
    (resolveEvents : List TimelineEvent) (result : SendResult) :
    Option HttpResponse × Option String :=
  match result with
  | .threw message => (old, some message)
  | result => shown cookies requestId resolveEvents result

def SendResult.isThrow : SendResult → Bool
  | .threw _ => true
  | _ => false

/-- The response that a throw leaves on display is wrong unless there was none. -/
theorem displayed_eq_shown_iff {old : Option HttpResponse} {cookies : CookiesState}
    {requestId : String} {resolveEvents : List TimelineEvent} {result : SendResult} :
    displayed old cookies requestId resolveEvents result =
        shown cookies requestId resolveEvents result ↔ (result.isThrow → old = none) := by
  cases result with
  | ok data => simp [displayed, SendResult.isThrow]
  | error error => simp [displayed, SendResult.isThrow]
  | threw message => simp [displayed, shown, SendResult.isThrow]

variable {s : HttpStore} {cookies : CookiesState} {requestId id : String}
  {resolveEvents : List TimelineEvent} {result : SendResult}

theorem loading_applySendRequestResult :
    (s.applySendRequestResult cookies requestId resolveEvents result).loading =
      Function.update s.loading requestId false := by
  rcases result with data | (_ | _ | _) | message <;> rfl

theorem responses_applySendRequestResult :
    (s.applySendRequestResult cookies requestId resolveEvents result).responses =
      Function.update s.responses requestId
        (displayed (s.responses requestId) cookies requestId resolveEvents result).1 := by
  rcases result with data | (_ | _ | _) | message
  case threw => exact (Function.update_eq_self requestId s.responses).symm
  all_goals rfl

theorem errors_applySendRequestResult :
    (s.applySendRequestResult cookies requestId resolveEvents result).errors =
      Function.update s.errors requestId
        (displayed (s.responses requestId) cookies requestId resolveEvents result).2 := by
  rcases result with data | (_ | _ | _) | message <;> rfl

end Voleeo.Web
