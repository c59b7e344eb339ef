import Voleeo.Curl.ShellTokenize
import Voleeo.Resolve.Str
import Voleeo.JsonText

/-!
# Pasted HTTPie commands

What the address bar reads out of an `http …` command: each token is a flag, the
method, the URL, or an item that its separators tell from the others. The random
identifiers of the rows are left out.
-/
namespace Voleeo.Httpie
open Curl (shellTokenize)
open Resolve (splitOnce)

def httpMethods : List Text :=
  ["GET".toList, "POST".toList, "PUT".toList, "PATCH".toList, "DELETE".toList, "QUERY".toList,
    "HEAD".toList, "OPTIONS".toList, "TRACE".toList, "CONNECT".toList]

/-- `/^https?:\/\//i`. -/
def hasHttpScheme (s : Text) : Bool :=
  let lowered := s.map Char.toLower
  "http://".toList.isPrefixOf lowered || "https://".toList.isPrefixOf lowered

/-- The pattern also takes `localhost` with a port or a path. -/
def looksLikeUrl (s : Text) : Bool :=
  hasHttpScheme s || "localhost:".toList.isPrefixOf s || "localhost/".toList.isPrefixOf s ||
    [':'].isPrefixOf s

/-- `/^[A-Za-z][A-Za-z0-9-]*$/`. -/
def isHeaderName : Text → Bool
  | [] => false
  | c :: rest => c.isAlpha && rest.all fun d => d.isAlphanum || d == '-'

def isHeaderToken (s : Text) : Bool :=
  if ['=', '='] <:+: s then false
  else
    match splitOnce [':'] s with
    | none => false
    | some (name, rest) => name ≠ [] && rest.head? ≠ some '=' && isHeaderName name

/-- The class of a token by its separators. -/
inductive TokenClass
  | query (name value : Text)
  | header (name value : Text)
  | field (key : Text) (value : Json)
  | lone

/-- `==` comes first, wherever it stands. A bad `:=` token is a text field. -/
def classify (t : Text) : TokenClass :=
  match splitOnce ['=', '='] t with
  | some (name, value) => .query name value
  | none =>
    match isHeaderToken t, splitOnce [':'] t with
    | true, some (name, value) => .header name value
    | _, _ =>
      match splitOnce [':', '='] t with
      | some (key, rawJson) =>
        .field key ((Json.parse rawJson).getD (.string (String.ofList rawJson)))
      | none =>
        match splitOnce ['='] t with
        | some (key, value) => .field key (.string (String.ofList value))
        | none => .lone

structure ParsedParameter where
  name : Text
  value : Text
  enabled : Bool
  deriving DecidableEq

structure Scan where
  method : Option Text := none
  url : Option Text := none
  headers : List ParsedParameter := []
  queryParams : List ParsedParameter := []
  jsonFields : List (Text × Json) := []
  rawBody : Option Text := none
  basicCreds : Option Text := none
  forceJson : Bool := false
  forceForm : Bool := false

namespace Scan

/-- An item of its class. A query parameter without a name is dropped, and a token without a
separator is the URL when there is none. -/
def addItem (st : Scan) (t : Text) : Scan :=
  match classify t with
  | .query name value =>
    if name = [] then st
    else { st with queryParams := st.queryParams ++ [⟨name, value, true⟩] }
  | .header name value => { st with headers := st.headers ++ [⟨name, value, true⟩] }
  | .field key value => { st with jsonFields := st.jsonFields ++ [(key, value)] }
  | .lone => if st.url = none then { st with url := some t } else st

end Scan

section
variable (upper lower : Text → Text)

def readPositional (st : Scan) (t : Text) : Scan :=
  if st.method = none ∧ upper t ∈ httpMethods then { st with method := some (upper t) }
  else if st.url = none ∧ looksLikeUrl t = true then { st with url := some t }
  else st.addItem t

/-- The loop over the tokens. Some flags take the next token as their value. -/
def readTokens : Scan → List Text → Scan
  | st, [] => st
  | st, t :: rest =>
    if t = "-a".toList ∨ t = "--auth".toList then
      match rest with
      | [] => { st with basicCreds := none }
      | value :: rest => readTokens { st with basicCreds := some value } rest
    else if t = "--raw".toList then
      match rest with
      | [] => { st with rawBody := some [] }
      | value :: rest => readTokens { st with rawBody := some value } rest
    else if t = "--json".toList ∨ t = "-j".toList then
      readTokens { st with forceJson := true } rest
    else if t = "--form".toList ∨ t = "-f".toList then
      readTokens { st with forceForm := true } rest
    else if t = "-A".toList ∨ t = "--auth-type".toList then
      match rest with
      | [] => st
      | _ :: rest => readTokens st rest
    else if t.head? = some '-' then readTokens st rest
    else readTokens (readPositional upper st t) rest

/-! ## The body -/

/-- A plain object that is filled by assignment. A write to `__proto__` sets its prototype, until
the prototype does not have that setter. -/
structure PlainObject where
  members : List (String × Json) := []
  detached : Bool := false

def protoName : String := "__proto__"

def PlainObject.assign (obj : PlainObject) (key : String) (value : Json) : PlainObject :=
  if key ≠ protoName ∨ obj.detached = true then
    { obj with members := Json.putMember key value obj.members }
  else
    match value with
    | .null => { obj with detached := true }
    | .object members => { obj with detached := members.any fun e => e.1 == protoName }
    | _ => obj

def fieldObject (fields : List (Text × Json)) : PlainObject :=
  fields.foldl (fun obj f => obj.assign (String.ofList f.1) f.2) {}

mutual

/-- `String(value)`. -/
def toText : Json → Text
  | .null => "null".toList
  | .bool true => "true".toList
  | .bool false => "false".toList
  | .number text => text.toList
  | .string s => s.toList
  | .array values => List.intercalate [','] (partTexts values)
  | .object _ => "[object Object]".toList

/-- The parts of an array. `null` is an empty one. -/
def partTexts : List Json → List Text
  | [] => []
  | .null :: values => [] :: partTexts values
  | value :: values => toText value :: partTexts values

end

def formText (fields : List (Text × Json)) : Text :=
  List.intercalate ['&'] (fields.map fun f =>
    encodeURIComponent f.1 ++ '=' :: encodeURIComponent (toText f.2))

def sniffKind (body : Text) : BodyKind :=
  let t := trimStart body
  if (t.head? = some '\x7b' ∨ t.head? = some '[') ∧ (Json.parse body).isSome = true then .json
  else if t.head? = some '<' then .xml
  else .text

structure ParsedBody where
  kind : BodyKind
  text : Text

def assembleBody (st : Scan) : Option ParsedBody :=
  match st.rawBody with
  | some rawBody => some ⟨if st.forceJson then .json else sniffKind rawBody, rawBody⟩
  | none =>
    if st.jsonFields = [] then none
    else if st.forceForm then some ⟨.text, formText st.jsonFields⟩
    else some ⟨.json, Json.stringify (.object (fieldObject st.jsonFields).members)⟩

/-! ## Credentials -/

inductive ParsedAuth
  | none
  | basic (username password : Text)
  | bearer (token : Text)
  deriving DecidableEq

def basicAuth (creds : Text) : ParsedAuth :=
  match splitOnce [':'] creds with
  | none => .basic creds []
  | some (username, password) => .basic username password

/-- `/^Bearer\s+(.+)$/i`: the blanks take what they can, and leave one character to the token. -/
def bearerToken (value : Text) : Option Text :=
  if (value.take 6).map Char.toLower = "bearer".toList then
    let rest := value.drop 6
    let blanks := rest.takeWhile isJsSpace
    let token := match rest.dropWhile isJsSpace with
      | [] => blanks.drop (max 1 (blanks.length - 1))
      | token => token
    if blanks ≠ [] ∧ token ≠ [] ∧ token.all (fun c => !isLineTerminator c) = true then some token
    else none
  else none

/-- The credentials, and the headers without the one that they come from. -/
def readAuth (basicCreds : Option Text) (headers : List ParsedParameter) :
    ParsedAuth × List ParsedParameter :=
  match basicCreds.filter fun creds => decide (creds ≠ []) with
  | some creds => (basicAuth creds, headers)
  | none =>
    match headers.findIdx? fun h => lower h.name == "authorization".toList with
    | none => (.none, headers)
    | some idx =>
      match (headers[idx]?).bind fun h => bearerToken h.value with
      | none => (.none, headers)
      | some token => (.bearer token, headers.eraseIdx idx)

structure ParsedRequest where
  method : Text
  url : Text
  parameters : List ParsedParameter
  headers : List ParsedParameter
  body : Option ParsedBody
  auth : ParsedAuth

def assemble (st : Scan) : Option ParsedRequest :=
  match st.url with
  | none => none
  | some url =>
    if url = [] then none
    else
      let body := assembleBody st
      let (auth, headers) := readAuth lower st.basicCreds st.headers
      some {
        method := st.method.getD (if body.isSome then "POST".toList else "GET".toList)
        url
        parameters := st.queryParams
        headers
        body
        auth }

def parseHttpieCommand (input : Text) : Option ParsedRequest :=
  match shellTokenize input with
  | none | some [] => none
  | some (command :: tokens) =>
    if command ≠ "http".toList ∧ command ≠ "https".toList then none
    else assemble lower (readTokens upper {} tokens)

end

end Voleeo.Httpie
