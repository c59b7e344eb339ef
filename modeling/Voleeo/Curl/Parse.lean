import Voleeo.FormUrlEncoded
import Voleeo.Httpie.Parse
import Voleeo.Resolve.Text
import Voleeo.Sse.Decoder

/-!
# Pasted curl commands

What the address bar reads out of a `curl …` command: the options that it knows,
with their values in the next word, and the first other word as the URL. The
random identifiers of the rows are left out.
-/
namespace Voleeo.Curl
open Httpie (ParsedParameter ParsedBody ParsedAuth ParsedRequest sniffKind basicAuth)
open Resolve (splitOnce base64Value)
open Sse (fromUtf8Lossy)

/-! ## Flags -/

def SKIP_VALUE_FLAGS : List Text :=
  ["--cacert".toList, "--cert".toList, "--cert-type".toList, "--connect-timeout".toList,
    "--cookie".toList, "--cookie-jar".toList, "--key".toList, "--key-type".toList,
    "--max-time".toList, "--proxy".toList, "--proxy-user".toList, "--referer".toList,
    "--resolve".toList, "--user-agent".toList, "-A".toList, "-b".toList, "-c".toList,
    "-e".toList, "-m".toList, "-x".toList]

def SKIP_BOOL_FLAGS : List Text :=
  ["-#".toList, "-I".toList, "-L".toList, "-O".toList, "-S".toList, "-f".toList, "-i".toList,
    "-k".toList, "-s".toList, "-v".toList, "--compressed".toList, "--fail".toList,
    "--head".toList, "--include".toList, "--insecure".toList, "--location".toList,
    "--no-progress-meter".toList, "--progress-bar".toList, "--silent".toList,
    "--show-error".toList, "--verbose".toList]

/-- What a flag does with the next word. -/
inductive ValueFlag
  | method
  | header
  | data
  | dataUrlencode
  | user
  | url
  | skip
  deriving DecidableEq

def valueFlag (t : Text) : Option ValueFlag :=
  if t = "-X".toList ∨ t = "--request".toList then some .method
  else if t = "-H".toList ∨ t = "--header".toList then some .header
  else if t = "-d".toList ∨ t = "--data".toList ∨ t = "--data-raw".toList ∨
      t = "--data-binary".toList ∨ t = "--data-ascii".toList then some .data
  else if t = "--data-urlencode".toList then some .dataUrlencode
  else if t = "-u".toList ∨ t = "--user".toList then some .user
  else if t = "--url".toList then some .url
  else if t ∈ SKIP_VALUE_FLAGS then some .skip
  else none

/-! ## The words -/

def splitHeader (raw : Text) : Option ParsedParameter :=
  match splitOnce [':'] raw with
  | none => none
  | some (before, after) =>
    let name := trim before
    if name = [] then none else some ⟨name, trimStart after, true⟩

/-- What the loop has collected. -/
structure Arguments where
  method : Option Text := none
  url : Option Text := none
  headers : List ParsedParameter := []
  bodyText : Option Text := none
  basicCreds : Option Text := none

namespace Arguments

/-- Parts of the body are joined by an ampersand, unless there is only an empty one so far. -/
def addBody (st : Arguments) (v : Text) : Arguments :=
  let bodyText := st.bodyText.getD []
  { st with bodyText := some (if bodyText = [] then v else bodyText ++ '&' :: v) }

/-- `name=value`: only the value is encoded. -/
def encodeData (v : Text) : Text :=
  match splitOnce ['='] v with
  | none => encodeURIComponent v
  | some (name, value) => name ++ '=' :: encodeURIComponent value

variable (upper : Text → Text)

/-- A flag and the word behind it, if there is one. -/
def readValue (st : Arguments) (flag : ValueFlag) (v : Option Text) : Arguments :=
  match flag with
  | .method => { st with method := v.map upper }
  | .header => { st with headers := st.headers ++ (v.bind splitHeader).toList }
  | .data => st.addBody (v.getD [])
  | .dataUrlencode => st.addBody (encodeData (v.getD []))
  | .user => { st with basicCreds := v }
  | .url => { st with url := v }
  | .skip => st

/-- An unknown flag is skipped. The first other word is the URL. -/
def readLone (st : Arguments) (t : Text) : Arguments :=
  if t ∈ SKIP_BOOL_FLAGS ∨ t.head? = some '-' then st
  else if st.url = none then { st with url := some t }
  else st

/-- The loop over the words. -/
def readWords : Arguments → List Text → Arguments
  | st, [] => st
  | st, [t] =>
    match valueFlag t with
    | some flag => st.readValue upper flag none
    | none => st.readLone t
  | st, t :: v :: rest =>
    match valueFlag t with
    | some flag => readWords (st.readValue upper flag (some v)) rest
    | none => readWords (st.readLone t) (v :: rest)

attribute [local simp] readWords

end Arguments

/-! ## Query and body -/

/-- `URLSearchParams`, which drops a leading question mark. -/
def searchParams (qs : Text) : List ParsedParameter :=
  (parseQuery (if qs.head? = some '?' then qs.tail else qs)).map fun p =>
    ⟨fromUtf8Lossy p.1, fromUtf8Lossy p.2, true⟩

def splitUrlAndQuery (url : Text) : Text × List ParsedParameter :=
  match splitOnce ['?'] url with
  | none => (url, [])
  | some (base, rest) =>
    (base, (searchParams (rest.takeWhile (· ≠ '#'))).filter fun p => p.name ≠ [])

/-- `name.toLowerCase() === lowered`. The Kelvin sign is the only letter beyond ASCII with an ASCII
lower case, and no name here has a k. -/
def isNamed (lowered : Text) (h : ParsedParameter) : Bool := h.name.map Char.toLower == lowered

def detectBodyKind (body : Text) (headers : List ParsedParameter) : BodyKind :=
  match (headers.find? (isNamed "content-type".toList)).map fun h => h.value.map Char.toLower with
  | none => sniffKind body
  | some ct =>
    if "json".toList <:+: ct then .json
    else if "xml".toList <:+: ct then .xml
    else if "text".toList <:+: ct then .text
    else sniffKind body

/-! ## Credentials -/

/-- Space characters of the base64 decoder. -/
def isAsciiSpace (c : Char) : Bool :=
  c == ' ' || c == '\t' || c == '\n' || c == '\r' || c.toNat == 12

/-- Whole groups of six-bit digits, and the whole bytes of the last group. -/
def sextetBytes : List ℕ → List UInt8
  | a :: b :: c :: d :: rest =>
    let n := a * 262144 + b * 4096 + c * 64 + d
    UInt8.ofNat (n / 65536) :: UInt8.ofNat (n / 256 % 256) :: UInt8.ofNat (n % 256) ::
      sextetBytes rest
  | [a, b, c] =>
    let n := a * 262144 + b * 4096 + c * 64
    [UInt8.ofNat (n / 65536), UInt8.ofNat (n / 256 % 256)]
  | [a, b] => [UInt8.ofNat ((a * 262144 + b * 4096) / 65536)]
  | _ => []

attribute [local simp] sextetBytes

/-- `atob`, which throws on what is no base64. -/
def atob (s : Text) : Option (List UInt8) :=
  let data := s.filter fun c => !isAsciiSpace c
  let data :=
    if data.length % 4 = 0 then
      if ['=', '='] <:+ data then data.dropLast.dropLast
      else if ['='] <:+ data then data.dropLast
      else data
    else data
  if data.length % 4 = 1 ∨ data.any (fun c => 64 ≤ base64Value c) = true then none
  else some (sextetBytes (data.map base64Value))

/-- Each byte is a character. -/
def latin1 (bytes : List UInt8) : Text := bytes.map fun b => Char.ofNat b.toNat

/-- `/^Scheme\s+(.+)$/i`: the blanks take what they can, and leave one character to the rest. -/
def schemeToken (scheme value : Text) : Option Text :=
  if (value.take scheme.length).map Char.toLower = scheme then
    let rest := value.drop scheme.length
    let blanks := rest.takeWhile isJsSpace
    let token := match rest.dropWhile isJsSpace with
      | [] => blanks.drop (max 1 (blanks.length - 1))
      | token => token
    if blanks ≠ [] ∧ token ≠ [] ∧ token.all (fun c => !isLineTerminator c) = true then some token
    else none
  else none

/-- The auth of a header, if it is read as one. -/
def headerAuth (raw : Text) : Option ParsedAuth :=
  match schemeToken "bearer".toList raw with
  | some token => some (.bearer token)
  | none =>
    match (schemeToken "basic".toList raw).bind atob with
    | some decoded => some (basicAuth (latin1 decoded))
    | none => none

/-- The auth, and the index of the header that it was read from. -/
def deriveAuth (headers : List ParsedParameter) (basicCreds : Option Text) :
    ParsedAuth × Option ℕ :=
  match basicCreds.filter fun creds => decide (creds ≠ []) with
  | some creds => (basicAuth creds, none)
  | none =>
    match headers.findIdx? (isNamed "authorization".toList) with
    | none => (.none, none)
    | some authIdx =>
      match (headers[authIdx]?).bind fun h => headerAuth h.value with
      | none => (.none, none)
      | some auth => (auth, some authIdx)

/-! ## The request -/

/-- A request needs a URL. -/
def assemble (st : Arguments) : Option ParsedRequest :=
  match st.url with
  | none => none
  | some url =>
    if url = [] then none
    else
      let (base, params) := splitUrlAndQuery url
      let (auth, consumed) := deriveAuth st.headers st.basicCreds
      let finalHeaders := match consumed with
        | some idx => st.headers.eraseIdx idx
        | none => st.headers
      let body := (st.bodyText.filter fun text => decide (text ≠ [])).map fun text =>
        ⟨detectBodyKind text finalHeaders, text⟩
      some {
        method := st.method.getD (if body.isSome then "POST".toList else "GET".toList)
        url := base
        parameters := params
        headers := finalHeaders
        body
        auth }

def parseCurlCommand (upper : Text → Text) (input : Text) : Option ParsedRequest :=
  match shellTokenize input with
  | none | some [] => none
  | some (command :: words) =>
    if command ≠ "curl".toList then none
    else assemble (Arguments.readWords upper {} words)

end Voleeo.Curl
