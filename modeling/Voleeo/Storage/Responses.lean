import Mathlib
import Voleeo.Entities

/-!
# Response history

The history of a request is a file with its last responses, the newest first. A
large text body is written to a file of its own, and the entry keeps the number
of its lines.
-/
namespace Voleeo.Responses

structure StoredHttpResponse where
  id : String
  workspaceId : String
  requestId : String
  recordedAt : String
  response : HttpResponse
  resolvedRequest : Option HttpRequest
  deriving DecidableEq, Repr

def windowThreshold : ℕ := 256 * 1024

/-- Ranges between newlines, and what follows the last one unless it is empty. -/
def countLines (text : String) : ℕ :=
  let newlines := text.toList.count '\n'
  let lines := if text.toList.getLast?.any (· ≠ '\n') then newlines + 1 else newlines
  min lines (2 ^ 32 - 1)

/-- The entry of a response; `format` is `format_for_storage`. -/
def prepareForStore (format : String → String) (id : String) (response : HttpResponse) :
    HttpResponse :=
  let response := { response with responseId := id }
  if response.bodyIsText ∧ response.body.utf8ByteSize > windowThreshold then
    { response with
      bodyLineCount := countLines (format response.body), body := "", bodyWindowed := true }
  else response

/-- What `append` stores: the response as it came, and the request as it was sent. -/
structure Completed where
  workspaceId : String
  requestId : String
  response : HttpResponse
  resolvedRequest : HttpRequest

def stored (format : String → String) (id recordedAt : String) (c : Completed) :
    StoredHttpResponse :=
  { id, workspaceId := c.workspaceId, requestId := c.requestId, recordedAt,
    response := prepareForStore format id c.response
    resolvedRequest := some c.resolvedRequest }

/-- Prepend an entry and trim the history to `limit` entries. -/
def pushResponse (limit : ℕ) (entry : StoredHttpResponse) (items : List StoredHttpResponse) :
    List StoredHttpResponse :=
  (entry :: items).take limit

end Voleeo.Responses
