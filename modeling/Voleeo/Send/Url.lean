import Voleeo.Entities
import Voleeo.JsRecord
import Voleeo.JsString
import Voleeo.Template.Resolve

/-!
# Parameter helpers of the web app

The web app finds path parameters in the path that the platform's URL parser
gives, and falls back to the text in front of the query when the parser throws.
The parser is a parameter: `pathname url` is `new URL(url).pathname`, or `none`.
-/
namespace Voleeo.Send
open OrderedMap

/-- The first character of `[a-zA-Z_][a-zA-Z0-9_]*`. -/
def isNameStart (c : Char) : Bool := c.isAlpha || c == '_'

/-- All matches of `:([a-zA-Z_][a-zA-Z0-9_]*)`. A match holds one colon, so the scan that goes on
behind the colon finds the same matches as one that goes on behind the match. -/
def paramMatches : Text → List Text
  | [] => []
  | c :: rest =>
    let name := rest.takeWhile isWordChar
    if c = ':' ∧ name.head?.any isNameStart = true then name :: paramMatches rest
    else paramMatches rest

def extractPathParams (pathname : Text → Option Text) (url : Text) : List Text :=
  match pathname url with
  | some path => paramMatches path
  | none => paramMatches ((url.takeWhile (· ≠ '?')).takeWhile (· ≠ '#'))

/-- The length of a match of `{{[^}]*}}` at the start. -/
def templateLength : Text → Option ℕ
  | '{' :: '{' :: inner =>
    let body := inner.takeWhile (· ≠ '}')
    if ['}', '}'] <+: inner.drop body.length then some (body.length + 4) else none
  | _ => none

/-- `skip` counts the characters that the last template still covers. -/
def encodeQueryFrom : ℕ → Text → Text
  | _, [] => []
  | skip + 1, c :: rest => c :: encodeQueryFrom skip rest
  | 0, c :: rest =>
    match templateLength (c :: rest) with
    | some n => c :: encodeQueryFrom (n - 1) rest
    | none => percentEncodeChar isUriMark c ++ encodeQueryFrom 0 rest

/-- Encode a query value, with its templates left as they are. -/
def encodeQueryValue (val : Text) : Text := encodeQueryFrom 0 val

/-- Parameters whose name is not a path parameter of the URL. -/
def queryParamsOnly (pathname : Text → Option Text) (parameters : List RequestParameter)
    (url : Text) : List RequestParameter :=
  parameters.filter fun p => !(extractPathParams pathname url).contains p.name.toList

/-- The values and the flags of the path parameters, as the editor hands them on. -/
structure PathParams where
  values : JsRecord
  enabled : OrderedMap Text Bool

def PathParams.empty : PathParams := ⟨JsRecord.empty, OrderedMap.empty⟩

/-- A flag written under `__proto__` is ignored, as a value is. -/
def PathParams.set (params : PathParams) (p : RequestParameter) : PathParams where
  values := params.values.set p.name.toList p.value.toList
  enabled :=
    if p.name.toList = protoKey then params.enabled
    else params.enabled.set p.name.toList p.enabled

def storedPathParams (pathname : Text → Option Text) (request : HttpRequest) : PathParams :=
  let urlPathNames := extractPathParams pathname request.url.toList
  (request.parameters.filter fun p => urlPathNames.contains p.name.toList).foldl
    PathParams.set PathParams.empty

example : encodeQueryValue "a b{{ x y }}&".toList = "a%20b{{ x y }}%26".toList := by decide

end Voleeo.Send

/-!
## The URL that the web app sends to

Path parameters are substituted one after another, each at its first place in
the URL. The base is then resolved as a template, and the query is appended.
-/
namespace Voleeo.Send
open Template

structure ResolveCtx where
  vars : List EnvironmentVariable
  fns : List BoundTemplateFunction

/-- The template resolver, called at a place of the send pipeline. -/
def resolve (ctx : ResolveCtx) (site : RenderSite) (value : Text) : Except Rejection Text :=
  resolveTemplateImpl ctx.vars ctx.fns [] site value

/-- `(?=[/?#]|$)`. -/
def isSegmentEnd : Text → Bool
  | [] => true
  | c :: _ => c == '/' || c == '?' || c == '#'

/-- `String.replace` with the pattern `:name(?=[/?#]|$)`: the first match only. The names are
plain words, and an encoded replacement holds no dollar sign. -/
def replaceFirstParam (name replacement : Text) : Text → Text
  | [] => []
  | c :: rest =>
    if (':' :: name) <+: c :: rest ∧ isSegmentEnd (rest.drop name.length) = true then
      replacement ++ rest.drop name.length
    else c :: replaceFirstParam name replacement rest

/-- Disabled and empty path parameters resolve to the empty text. -/
def pathParamValue (ctx : ResolveCtx) (params : PathParams) (site : RenderSite)
    (name value : Text) : Except Rejection Text :=
  if params.enabled.get? name ≠ some false ∧ value ≠ [] then resolve ctx site value else .ok []

def substitutePathParams (ctx : ResolveCtx) (params : PathParams) (urlDraft : Text) :
    Except Rejection Text :=
  params.values.entries.zipIdx.foldlM (fun url e => do
    let v ← pathParamValue ctx params [e.2, 0] e.1.1 e.1.2
    return replaceFirstParam e.1.1 (encodeURIComponent v) url) urlDraft

def queryPart (ctx : ResolveCtx) (site : RenderSite) (p : RequestParameter) :
    Except Rejection Text := do
  let v ← resolve ctx site p.value.toList
  let k := encodeURIComponent p.name.toList
  return if v = [] then k else k ++ '=' :: encodeQueryValue v

def resolveUrl (pathname : Text → Option Text) (ctx : ResolveCtx) (urlDraft : Text)
    (params : PathParams) (request : HttpRequest) : Except Rejection Text := do
  let withParams ← substitutePathParams ctx params urlDraft
  let base ← resolve ctx [1] withParams
  let queryParams := (queryParamsOnly pathname request.parameters urlDraft).filter fun p =>
    p.enabled && !(trim p.name.toList).isEmpty
  let parts ← queryParams.zipIdx.mapM fun p => queryPart ctx [p.2, 2] p.1
  return base ++ if parts.isEmpty then [] else '?' :: List.intercalate ['&'] parts

/-- The URL of a stored request. -/
def storedUrl (pathname : Text → Option Text) (ctx : ResolveCtx) (request : HttpRequest) :
    Except Rejection Text :=
  resolveUrl pathname ctx request.url.toList (storedPathParams pathname request) request

end Voleeo.Send
