import Voleeo.Resolve.Http
import Voleeo.Send.Auth
import Voleeo.FormUrlEncoded

/-!
# The body that the desktop sends

The web app resolves the templates of a stored body and hands the result to the
backend as an override, with null for no body. The backend takes null for no
override and keeps the stored body, which it then attaches.
-/
namespace Voleeo.Send
open Template
open Resolve (strTrim toAsciiLowercase)

/-! ## The web app -/

def isBlank (s : String) : Bool := (trim s.toList).isEmpty

/-- A body object with its kind and text alone. -/
def bodyOf (kind : BodyKind) (text : String) : RequestBody :=
  { kind, text, fields := none, filePath := none, contentType := none, graphqlVariables := none }

/-- The value of a file field is a path and passes through. -/
def resolveFieldValue (ctx : ResolveCtx) (i : ℕ) (f : BodyField) : Except Rejection String :=
  if f.isFile then .ok f.value else resolveString ctx [i, 1, 3] f.value

def resolveBodyField (ctx : ResolveCtx) (i : ℕ) (f : BodyField) : Except Rejection BodyField := do
  let name ← resolveString ctx [i, 0, 3] f.name
  let value ← resolveFieldValue ctx i f
  return { f with name, value }

def resolveFields (ctx : ResolveCtx) (fields : List BodyField) : Except Rejection (List BodyField) :=
  fields.zipIdx.mapM fun f => resolveBodyField ctx f.2 f.1

/-- Empty variables count as none. -/
def resolveGraphqlVariables (ctx : ResolveCtx) : Option String → Except Rejection (Option String)
  | none => .ok none
  | some vars => if vars = "" then .ok none else (resolveString ctx [5] vars).map some

def resolveBody (ctx : ResolveCtx) : Option RequestBody → Except Rejection (Option RequestBody)
  | none => .ok none
  | some stored =>
    match stored.kind with
    | .none => .ok none
    | .formUrlEncoded | .multipart => do
        let fields ← resolveFields ctx (stored.fields.getD [])
        return some { bodyOf stored.kind "" with fields := some fields }
    | .binary =>
      .ok (some { bodyOf .binary "" with
        filePath := stored.filePath, contentType := stored.contentType })
    | .graphql => do
        let query ← resolveString ctx [4] stored.text
        if isBlank query then return none
        else
          let graphqlVariables ← resolveGraphqlVariables ctx stored.graphqlVariables
          return some { bodyOf .graphql query with graphqlVariables }
    | .json | .xml | .text | .html =>
      if isBlank stored.text then .ok none
      else do
        let text ← resolveString ctx [4] stored.text
        return some (bodyOf stored.kind text)

/-! ## The backend -/

/-- `if let Some(body) = body_override { req.body = Some(body); }`. -/
def withOverride (stored override : Option RequestBody) : Option RequestBody := override.or stored

/-- Libraries and files: how JSON is parsed and written, the last part of a path, which texts are
media types, and what a file holds. -/
structure Libraries where
  Json : Type
  parseJson : String → Option Json
  graphqlJson : String → Option Json → String
  fileName : String → Option String
  isMime : String → Bool
  readFile : String → Except String (List UInt8)

inductive FormPart
  | text (name value : String)
  | file (name fileName : String) (contentType : Option String) (data : List UInt8)

inductive Payload
  | none
  | text (content : String)
  | form (pairs : List (String × String))
  | multipart (parts : List FormPart)
  | bytes (data : List UInt8)

/-- What is attached to a request: a content type unless the headers have one, and the payload. -/
structure Attachment where
  contentType : Option String
  payload : Payload

def Attachment.nothing : Attachment := ⟨none, .none⟩

def rawContentType : BodyKind → Option String
  | .json => some "application/json"
  | .xml => some "application/xml"
  | .html => some "text/html"
  | .text => some "text/plain"
  | _ => none

section Backend
variable (libs : Libraries) (headers : List RequestParameter)

def rustBlank (s : String) : Bool := (strTrim s.toList).isEmpty

def graphqlPayload (body : RequestBody) : String :=
  libs.graphqlJson body.text
    ((body.graphqlVariables.filter fun s => !rustBlank s).bind libs.parseJson)

def userSetContentType : Bool :=
  headers.any fun h =>
    h.enabled && toAsciiLowercase (String.ofList (strTrim h.name.toList)) == "content-type"

def attach (contentType : String) (payload : Payload) : Attachment :=
  ⟨if userSetContentType headers then none else some contentType, payload⟩

def sentFields (body : RequestBody) : List BodyField :=
  (body.fields.getD []).filter fun f => f.enabled && !rustBlank f.name

def multipartPart (f : BodyField) : Except String FormPart :=
  if f.isFile then do
    let data ← libs.readFile f.value
    match f.contentType with
    | some ct =>
      if libs.isMime ct then
        return .file f.name ((libs.fileName f.value).getD "file") (some ct) data
      else .error ("Invalid content type for \"" ++ f.name ++ "\": " ++ ct)
    | none => return .file f.name ((libs.fileName f.value).getD "file") none data
  else .ok (.text f.name f.value)

/-- The error is the message of a `VoleeoError::Http`. -/
def attachBody (body : RequestBody) : Except String Attachment :=
  match body.kind with
  | .none => .ok .nothing
  | .json | .xml | .text | .html =>
    if body.text = "" then .ok .nothing
    else
      .ok (attach headers ((rawContentType body.kind).getD "application/octet-stream")
        (.text body.text))
  | .graphql =>
    if body.text = "" then .ok .nothing
    else .ok (attach headers "application/json" (.text (graphqlPayload libs body)))
  | .formUrlEncoded => .ok ⟨none, .form ((sentFields body).map fun f => (f.name, f.value))⟩
  | .multipart => do
      let parts ← (sentFields body).mapM (multipartPart libs)
      return ⟨none, .multipart parts⟩
  | .binary =>
    match body.filePath.filter fun p => !rustBlank p with
    | none => .error "Binary body has no file selected"
    | some path => do
        let data ← libs.readFile path
        let ct := (body.contentType.filter fun c => !rustBlank c).getD "application/octet-stream"
        return attach headers ct (.bytes data)

/-- What the backend attaches for a stored body and the override of the web app. -/
def sendBody (stored override : Option RequestBody) : Except String Attachment :=
  match withOverride stored override with
  | none => .ok .nothing
  | some body => attachBody libs headers body

end Backend

/-! ## The stored body with its templates resolved -/

/-- Each expression of the text that names a variable has become the value of the variable, which
is resolved in turn if it has an opening. -/
def VariablesReplaced (ctx : ResolveCtx) (text out : Text) : Prop :=
  Parts (fun tok part => ∀ name found, tok = .var name → findVar ctx.vars name = some found →
    if openBraces <:+: found.value.toList then
      ∃ site, resolveTemplateImpl ctx.vars ctx.fns [name] site found.value.toList = .ok part
    else part = found.value.toList) (tokenize text) out

def ResolvedText (ctx : ResolveCtx) (s out : String) : Prop :=
  (∃ site, resolveString ctx site s = .ok out) ∧ VariablesReplaced ctx s.toList out.toList

structure ResolvedField (ctx : ResolveCtx) (f out : BodyField) : Prop where
  rest : out = { f with name := out.name, value := out.value }
  name : ResolvedText ctx f.name out.name
  value : if f.isFile then out.value = f.value else ResolvedText ctx f.value out.value

/-- The body with the templates of its kind resolved. -/
structure ResolvedBody (ctx : ResolveCtx) (stored out : RequestBody) : Prop where
  kind : out.kind = stored.kind
  filePath : out.filePath = stored.filePath
  contentType : out.contentType = stored.contentType
  text : stored.kind ∈ [.json, .xml, .text, .html, .graphql] →
    ResolvedText ctx stored.text out.text
  graphqlVariables : stored.kind = .graphql →
    Option.Rel (ResolvedText ctx) stored.graphqlVariables out.graphqlVariables
  fields : stored.kind ∈ [.formUrlEncoded, .multipart] →
    List.Forall₂ (ResolvedField ctx) (stored.fields.getD []) (out.fields.getD [])

/-- The attachment is that of the resolved stored body, or nothing where the web app has no
body. -/
def SendsResolved (libs : Libraries) (headers : List RequestParameter) (ctx : ResolveCtx)
    (stored override : Option RequestBody) : Prop :=
  match stored, override with
  | some body, some _ => ∃ out, ResolvedBody ctx body out ∧
      sendBody libs headers stored override = attachBody libs headers out
  | _, _ => sendBody libs headers stored override = .ok .nothing

/-- A body with text of which nothing is left: a raw text that is blank, or a query that resolves to
a blank one. -/
def FallsBack (ctx : ResolveCtx) : Option RequestBody → Prop
  | none => False
  | some body => body.text ≠ "" ∧
      match body.kind with
      | .json | .xml | .text | .html => isBlank body.text = true
      | .graphql => ∃ query, resolveString ctx [4] body.text = .ok query ∧ isBlank query = true
      | _ => False

variable {ctx : ResolveCtx} {libs : Libraries} {headers : List RequestParameter}

/-! ## What the resolver replaces -/

theorem variablesReplaced_of_resolve {site : RenderSite} {text out : Text}
    (h : resolve ctx site text = .ok out) : VariablesReplaced ctx text out := by
  rw [resolve, resolveTemplateImpl] at h
  obtain ⟨parts, hparts, hout⟩ := ok_of_bind h
  cases hout
  rw [VariablesReplaced, ← List.zipIdx_map_fst 0 (tokenize text), Parts.map_iff]
  refine (Parts.of_mapM hparts).mono ?_
  rintro ⟨tok, i⟩ - part hpart name found rfl hfound
  simp only [List.not_mem_nil, dif_neg, not_false_eq_true] at hpart
  split at hpart
  · rename_i hnone
    cases hnone.symm.trans hfound
  · rename_i found' hfound'
    cases hfound'.symm.trans hfound
    split_ifs at hpart ⊢
    · exact ⟨_, hpart⟩
    · exact (Except.ok.inj hpart).symm

theorem resolvedText_of_ok {site : RenderSite} {s out : String}
    (h : resolveString ctx site s = .ok out) : ResolvedText ctx s out := by
  refine ⟨⟨site, h⟩, ?_⟩
  rw [resolveString] at h
  cases hrun : resolve ctx site s.toList with
  | error e => simp [hrun, Except.map] at h
  | ok text =>
    simp only [hrun, Except.map, Except.ok.injEq] at h
    subst h
    rw [String.toList_ofList]
    exact variablesReplaced_of_resolve hrun

theorem resolveBodyField_ok {i : ℕ} {f out : BodyField} (h : resolveBodyField ctx i f = .ok out) :
    ResolvedField ctx f out := by
  obtain ⟨name, hname, h⟩ := ok_of_bind h
  obtain ⟨value, hvalue, h⟩ := ok_of_bind h
  cases h
  rw [resolveFieldValue] at hvalue
  refine ⟨rfl, resolvedText_of_ok hname, ?_⟩
  split_ifs at hvalue ⊢ with hfile
  · exact (Except.ok.inj hvalue).symm
  · exact resolvedText_of_ok hvalue

theorem resolveFields_ok {fields out : List BodyField} (h : resolveFields ctx fields = .ok out) :
    List.Forall₂ (ResolvedField ctx) fields out := by
  rw [← List.zipIdx_map_fst 0 fields, List.forall₂_map_left_iff]
  exact (forall₂_of_mapM h).imp fun _ _ hf => resolveBodyField_ok hf

/-! ## What is sent -/

/-- Empty variables are as good as none for the payload. -/
theorem resolveGraphqlVariables_ok {vars out : Option String}
    (h : resolveGraphqlVariables ctx vars = .ok out) :
    ∃ vars', Option.Rel (ResolvedText ctx) vars vars' ∧
      (out.filter fun s => !rustBlank s) = vars'.filter fun s => !rustBlank s := by
  cases vars with
  | none =>
    cases h
    exact ⟨none, .none, rfl⟩
  | some v =>
    rw [resolveGraphqlVariables] at h
    split_ifs at h with hempty
    · cases h
      subst hempty
      have hself : resolveString ctx [5] "" = .ok "" := by
        rw [resolveString, resolve, resolveTemplateImpl_plain (by simp [openBraces])]
        rfl
      exact ⟨some "", .some (resolvedText_of_ok hself), rfl⟩
    · cases hrun : resolveString ctx [5] v with
      | error e => simp [hrun, Except.map] at h
      | ok v' =>
        simp only [hrun, Except.map, Except.ok.injEq] at h
        subst h
        exact ⟨some v', .some (resolvedText_of_ok hrun), rfl⟩

/-- Where the web app has a body, the backend attaches the stored one resolved. -/
theorem attach_override {body override : RequestBody}
    (h : resolveBody ctx (some body) = .ok (some override)) :
    ∃ out, ResolvedBody ctx body out ∧
      attachBody libs headers override = attachBody libs headers out := by
  rcases body with ⟨kind, text, fields, filePath, contentType, vars⟩
  cases kind with
  | none => cases h
  | json | xml | text | html =>
    simp only [resolveBody] at h
    split_ifs at h
    · cases h
    · obtain ⟨out, hout, h⟩ := ok_of_bind h
      cases h
      exact ⟨⟨_, out, fields, filePath, contentType, vars⟩,
        ⟨rfl, rfl, rfl, fun _ => resolvedText_of_ok hout, nofun, by simp⟩, rfl⟩
  | formUrlEncoded | multipart =>
    obtain ⟨out, hout, h⟩ := ok_of_bind h
    cases h
    exact ⟨⟨_, text, some out, filePath, contentType, vars⟩,
      ⟨rfl, rfl, rfl, by simp, nofun, fun _ => resolveFields_ok hout⟩, rfl⟩
  | binary =>
    cases h
    exact ⟨⟨.binary, text, fields, filePath, contentType, vars⟩,
      ⟨rfl, rfl, rfl, by simp, nofun, by simp⟩, rfl⟩
  | graphql =>
    obtain ⟨query, hquery, h⟩ := ok_of_bind h
    split_ifs at h
    · cases h
    · obtain ⟨out, hout, h⟩ := ok_of_bind h
      cases h
      obtain ⟨vars', hvars, hpayload⟩ := resolveGraphqlVariables_ok hout
      refine ⟨⟨.graphql, query, fields, filePath, contentType, vars'⟩,
        ⟨rfl, rfl, rfl, fun _ => resolvedText_of_ok hquery, fun _ => hvars, by simp⟩, ?_⟩
      simp only [attachBody, bodyOf, graphqlPayload, hpayload]

/-- Where the web app has no body though one is stored, the backend attaches the stored one. -/
theorem attach_stored {body : RequestBody} (h : resolveBody ctx (some body) = .ok none) :
    attachBody libs headers body = .ok .nothing ↔ ¬ FallsBack ctx (some body) := by
  rcases body with ⟨kind, text, fields, filePath, contentType, vars⟩
  cases kind with
  | none => simp [attachBody, FallsBack]
  | json | xml | text | html =>
    simp only [resolveBody] at h
    split_ifs at h with hblank
    · by_cases htext : text = "" <;> simp [attachBody, FallsBack, hblank, htext, attach,
        Attachment.nothing]
    · obtain ⟨out, hout, h⟩ := ok_of_bind h
      cases h
  | formUrlEncoded | multipart =>
    obtain ⟨out, hout, h⟩ := ok_of_bind h
    cases h
  | binary => cases h
  | graphql =>
    obtain ⟨query, hquery, h⟩ := ok_of_bind h
    split_ifs at h with hblank
    · by_cases htext : text = "" <;> simp [attachBody, FallsBack, hquery, hblank, htext, attach,
        Attachment.nothing]
    · obtain ⟨out, hout, h⟩ := ok_of_bind h
      cases h

theorem not_fallsBack_of_override {body override : RequestBody}
    (h : resolveBody ctx (some body) = .ok (some override)) : ¬ FallsBack ctx (some body) := by
  rintro ⟨-, hleft⟩
  rcases body with ⟨kind, text, fields, filePath, contentType, vars⟩
  cases kind with
  | none | formUrlEncoded | multipart | binary => exact hleft
  | json | xml | text | html =>
    rw [resolveBody, if_pos hleft] at h
    cases h
  | graphql =>
    obtain ⟨query, hquery, hblank⟩ := hleft
    obtain ⟨query', hquery', h⟩ := ok_of_bind h
    cases hquery.symm.trans hquery'
    rw [if_pos hblank] at h
    cases h

/-- The desktop attaches the resolved stored body, or nothing where the web app has no body, except
where the backend falls back to a stored text. -/
theorem sends_resolved_iff (libs : Libraries) (headers : List RequestParameter) (ctx : ResolveCtx)
    (stored override : Option RequestBody) (h : resolveBody ctx stored = .ok override) :
    SendsResolved libs headers ctx stored override ↔ ¬ FallsBack ctx stored := by
  cases stored with
  | none =>
      cases h
      exact iff_of_true rfl id
  | some body =>
      cases override with
      | some override =>
          exact iff_of_true (attach_override h) (not_fallsBack_of_override h)
      | none => exact attach_stored h

/-! ## An empty query -/

/-- Libraries for examples: JSON texts as they are, and no files. -/
def plainLibraries : Libraries where
  Json := String
  parseJson s := some s
  graphqlJson query vars := query ++ vars.getD "null"
  fileName _ := none
  isMime _ := true
  readFile _ := .error "no such file"

def emptyQuery : ResolveCtx where
  vars := [⟨"QUERY", "", false, true⟩]
  fns := []

def greeting : RequestBody := bodyOf .text "Hello {{ QUERY }}"

theorem greeting_resolves : resolveBody emptyQuery (some greeting) =
    .ok (some (bodyOf .text "Hello ")) := by
  have htokens : tokenize "Hello {{ QUERY }}".toList =
      [.plain "Hello ".toList, .var "QUERY".toList] := rfl
  have hrun : resolveString emptyQuery [4] "Hello {{ QUERY }}" = .ok "Hello " := by
    rw [resolveString, resolve, resolveTemplateImpl, htokens]
    rfl
  have hblank : isBlank "Hello {{ QUERY }}" = false := by decide
  simp only [resolveBody, greeting, bodyOf, hblank, hrun]
  rfl

theorem sends_resolved_greeting :
    SendsResolved plainLibraries [] emptyQuery (some greeting) (some (bodyOf .text "Hello ")) ↔
      ¬ FallsBack emptyQuery (some greeting) :=
  sends_resolved_iff _ _ _ _ _ greeting_resolves

/-- A query that resolves to nothing is sent as its own template. -/
theorem empty_query_sends_template : ¬ ∀ (libs : Libraries) (headers : List RequestParameter)
    (ctx : ResolveCtx) (stored override : Option RequestBody),
    resolveBody ctx stored = .ok override → SendsResolved libs headers ctx stored override := by
  intro h
  have htokens : tokenize "{{ QUERY }}".toList = [.var "QUERY".toList] := rfl
  have hrun : resolveString emptyQuery [4] "{{ QUERY }}" = .ok "" := by
    rw [resolveString, resolve, resolveTemplateImpl, htokens]
    rfl
  have hblank : isBlank "" = true := by decide
  have hsends := h plainLibraries [] emptyQuery (some (bodyOf .graphql "{{ QUERY }}")) none (by
    simp only [resolveBody, bodyOf, hrun]
    rfl)
  cases hsends

end Voleeo.Send

/-!
## The body that is signed

SigV4 and Digest hash the bytes of a body, and the authenticate leg of NTLM
sends them. All three take them from one function, while a plain send attaches
the body by another.
-/
namespace Voleeo.Send

/-- The bytes of a payload. A multipart body has boundaries that are drawn. -/
def payloadBytes (urlencode : List (String × String) → List UInt8) :
    Payload → Option (List UInt8)
  | .none => some []
  | .text content => some (utf8 content.toList)
  | .form pairs => some (urlencode pairs)
  | .multipart _ => none
  | .bytes data => some data

section
variable (libs : Libraries) (urlencode : List (String × String) → List UInt8)

def reproducibleBodyBytes (body : RequestBody) : Option (List UInt8) :=
  match body.kind with
  | .none => some []
  | .json | .xml | .text | .html => some (utf8 body.text.toList)
  | .graphql => some (utf8 (graphqlPayload libs body).toList)
  | .formUrlEncoded => some (urlencode ((sentFields body).map fun f => (f.name, f.value)))
  | .multipart | .binary => none

/-! ## The signers -/

/-- The bytes that SigV4 hashes, or `none` for `UNSIGNED-PAYLOAD`. -/
def payloadSha256 : Option RequestBody → Option (List UInt8)
  | none => some []
  | some body => reproducibleBodyBytes libs urlencode body

def digestBody (body : Option RequestBody) : List UInt8 :=
  (body.bind (reproducibleBodyBytes libs urlencode)).getD []

def contentTypeFor : BodyKind → Option String
  | .json | .graphql => some "application/json"
  | .xml => some "application/xml"
  | .text => some "text/plain"
  | .html => some "text/html"
  | .formUrlEncoded => some "application/x-www-form-urlencoded"
  | .none | .multipart | .binary => none

/-- The body of the authenticate leg, with its content type, and whether it is sent at all. -/
def ntlmBody (body : Option RequestBody) : List UInt8 × Option String × Bool :=
  match body with
  | none => ([], none, true)
  | some body =>
    match reproducibleBodyBytes libs urlencode body with
    | some bytes => (bytes, contentTypeFor body.kind, true)
    | none => ([], none, false)

variable (headers : List RequestParameter)

/-- What the signers take for the bytes of the body is what a plain send attaches. -/
structure SignsWhatIsSent (body : RequestBody) (bytes : List UInt8) : Prop where
  sent : ∃ a, attachBody libs headers body = .ok a ∧ payloadBytes urlencode a.payload = some bytes
  sigV4 : payloadSha256 libs urlencode (some body) = some bytes
  digest : digestBody libs urlencode (some body) = bytes
  ntlm : ntlmBody libs urlencode (some body) = (bytes, contentTypeFor body.kind, true)

end

variable {libs : Libraries} {urlencode : List (String × String) → List UInt8}
  {headers : List RequestParameter} {body : RequestBody} {bytes : List UInt8}

theorem signers_eq (h : reproducibleBodyBytes libs urlencode body = some bytes) :
    payloadSha256 libs urlencode (some body) = some bytes ∧
      digestBody libs urlencode (some body) = bytes ∧
      ntlmBody libs urlencode (some body) = (bytes, contentTypeFor body.kind, true) := by
  refine ⟨?_, ?_, ?_⟩
  · exact h
  · rw [digestBody, Option.bind_some, h, Option.getD_some]
  · rw [ntlmBody, h]

/-- An empty text is attached as no body, which has the same bytes. -/
theorem sent_of_reproducible (hgraphql : body.kind = .graphql → body.text ≠ "")
    (h : reproducibleBodyBytes libs urlencode body = some bytes) :
    ∃ a, attachBody libs headers body = .ok a ∧ payloadBytes urlencode a.payload = some bytes := by
  cases hkind : body.kind with
  | none =>
    simp only [reproducibleBodyBytes, hkind] at h
    simp only [attachBody, hkind]
    exact ⟨_, rfl, h⟩
  | json | xml | text | html =>
    simp only [reproducibleBodyBytes, hkind] at h
    simp only [attachBody, hkind]
    by_cases htext : body.text = ""
    · rw [if_pos htext]
      rw [htext] at h
      exact ⟨_, rfl, h⟩
    · rw [if_neg htext]
      exact ⟨_, rfl, h⟩
  | graphql =>
    simp only [reproducibleBodyBytes, hkind] at h
    simp only [attachBody, hkind, if_neg (hgraphql hkind)]
    exact ⟨_, rfl, h⟩
  | formUrlEncoded =>
    simp only [reproducibleBodyBytes, hkind] at h
    simp only [attachBody, hkind]
    exact ⟨_, rfl, h⟩
  | multipart | binary =>
    simp only [reproducibleBodyBytes, hkind] at h
    exact absurd h nofun

/-- The signers take the bytes that are sent, but for a GraphQL body with an empty query, which a
plain send does not attach. -/
theorem signed_bytes_iff (libs : Libraries) (urlencode : List (String × String) → List UInt8)
    (headers : List RequestParameter) (body : RequestBody)
    (hjson : ∀ query vars, libs.graphqlJson query vars ≠ "") :
    (∀ bytes, reproducibleBodyBytes libs urlencode body = some bytes →
        SignsWhatIsSent libs urlencode headers body bytes) ↔
      (body.kind = .graphql → body.text ≠ "") := by
  constructor
  · intro hall hkind htext
    obtain ⟨⟨a, ha, hbytes⟩, -⟩ := hall (utf8 (graphqlPayload libs body).toList)
      (by simp only [reproducibleBodyBytes, hkind])
    simp only [attachBody, hkind, if_pos htext, Except.ok.injEq] at ha
    subst ha
    have hempty : utf8 (graphqlPayload libs body).toList = [] := (Option.some.inj hbytes).symm
    cases hpayload : (graphqlPayload libs body).toList with
    | nil => exact hjson _ _ (String.toList_eq_nil_iff.mp hpayload)
    | cons c rest =>
        rw [hpayload, utf8_cons] at hempty
        have hpos := length_utf8EncodeChar_pos c
        rw [(List.append_eq_nil_iff.mp hempty).1] at hpos
        exact Nat.lt_irrefl 0 hpos
  · intro hgraphql bytes h
    obtain ⟨hsigV4, hdigest, hntlm⟩ := signers_eq h
    exact ⟨sent_of_reproducible hgraphql h, hsigV4, hdigest, hntlm⟩

/-! ## A query that is still empty -/

/-- Libraries that write a GraphQL body without variables. -/
def graphqlLibraries : Libraries where
  Json := Unit
  parseJson _ := none
  graphqlJson query _ := "\x7b\"query\":\"" ++ query ++ "\",\"variables\":null\x7d"
  fileName _ := none
  isMime _ := false
  readFile path := .error path

theorem graphqlLibraries_graphqlJson (query : String) (vars : Option graphqlLibraries.Json) :
    graphqlLibraries.graphqlJson query vars ≠ "" := by
  simp [graphqlLibraries]

/-- The signers hash `{"query":"","variables":null}`, and no body is sent. -/
theorem empty_query_not_sent :
    ¬ ∀ bytes, reproducibleBodyBytes graphqlLibraries (fun _ => []) (bodyOf .graphql "") =
        some bytes →
      SignsWhatIsSent graphqlLibraries (fun _ => []) [] (bodyOf .graphql "") bytes := by
  intro hall
  obtain ⟨⟨a, ha, hbytes⟩, -⟩ := hall _ rfl
  cases ha
  exact absurd hbytes (by decide)

theorem signed_bytes_empty_query :
    (∀ bytes, reproducibleBodyBytes graphqlLibraries (fun _ => []) (bodyOf .graphql "") =
        some bytes →
      SignsWhatIsSent graphqlLibraries (fun _ => []) [] (bodyOf .graphql "") bytes) ↔
      ((bodyOf .graphql "").kind = .graphql → (bodyOf .graphql "").text ≠ "") :=
  signed_bytes_iff graphqlLibraries (fun _ => []) [] (bodyOf .graphql "")
    graphqlLibraries_graphqlJson

end Voleeo.Send
