import Voleeo.Curl.Serialize
import Voleeo.JsonText
import Voleeo.Httpie.Parse
import Voleeo.JsonRoundTrip

/-!
# Copy as HTTPie

The method is written plainly, and every other part of the request as one quoted
argument: `name==value` for a query parameter, `Name:value` for a header,
`field=value` for a text of the body and `field:=json` for another value of it.
-/
namespace Voleeo.Httpie
open OrderedMap Template Curl
open Send (ResolveCtx)

def contentTypeFor : BodyKind → Option Text
  | .xml => some "application/xml".toList
  | .text => some "text/plain".toList
  | _ => none

structure AuthParts where
  flags : List Text := []
  extraHeaders : List CurlHeader := []
  extraQuery : List CurlHeader := []
  note : Option Text := none

def credentialsFlag (username password : Text) : Text :=
  "-a ".toList ++ shellQuote (username ++ ':' :: password)

def bearerHeader (token : Text) : CurlHeader :=
  ⟨"Authorization".toList, "Bearer ".toList ++ token⟩

def ntlmNote : Text :=
  "NTLM needs the httpie-ntlm plugin: -A ntlm -a 'DOMAIN\\user:pass'".toList

def schemeParts (ctx : ResolveCtx) : AuthConfig → Except Rejection AuthParts
  | .bearer auth => do
      let token ← resolveStr ctx [0, 3] auth.token.toList
      return { extraHeaders := [bearerHeader token] }
  | .basic auth => do
      let user ← resolveStr ctx [0, 3] auth.username.toList
      let pass ← resolveStr ctx [1, 3] auth.password.toList
      return { flags := [credentialsFlag user pass] }
  | .apiKey auth => do
      let key ← resolveStr ctx [0, 3] auth.key.toList
      let value ← resolveStr ctx [1, 3] auth.value.toList
      return match auth.location with
        | .header => { extraHeaders := [⟨key, value⟩] }
        | .query => { extraQuery := [⟨key, value⟩] }
  | .digest auth => do
      let user ← resolveStr ctx [0, 3] auth.username.toList
      let pass ← resolveStr ctx [1, 3] auth.password.toList
      return { flags := ["-A digest".toList, credentialsFlag user pass] }
  | .ntlm _ => .ok { note := some ntlmNote }
  | _ => .ok {}

def buildAuthParts (ctx : ResolveCtx) (auth : AuthConfig) : Except Rejection AuthParts :=
  if authDisabled auth then .ok {} else schemeParts ctx auth

/-- No member is an object. An array may hold one. -/
def isFlat (members : List (String × Json)) : Bool :=
  members.all fun e => e.2.asObject.isNone

def queryArg (q : CurlHeader) : Text := q.name ++ '=' :: '=' :: q.value

def headerArg (h : CurlHeader) : Text := h.name ++ ':' :: h.value

def fieldArg (e : String × Json) : Text :=
  match e.2 with
  | .string s => e.1.toList ++ '=' :: s.toList
  | value => e.1.toList ++ ':' :: '=' :: value.stringify

def rawArg (rawBody : Text) : Text := "--raw ".toList ++ shellQuote rawBody

/-- A flat object has one argument for each member. -/
def jsonArgs (rawBody : Text) : List Text :=
  match Json.parse rawBody with
  | some (.object members) =>
    if isFlat members then members.map fun e => shellQuote (fieldArg e) else [rawArg rawBody]
  | _ => [rawArg rawBody]

def enabledRows (rows : List ResolvedParam) : List CurlHeader :=
  (rows.filter fun p => p.enabled && decide (p.name ≠ [])).map fun p => ⟨p.name, p.value⟩

/-- The type that is added to the headers, and the arguments of the body. -/
def bodyArguments (lower : Text → Text) (headers : List CurlHeader) :
    Option CurlBody → List CurlHeader × List Text
  | none => ([], [])
  | some body =>
    if body.kind = .json then ([], jsonArgs body.text)
    else
      let missing := !headers.any fun h => lower h.name == "content-type".toList
      let type := if missing then (contentTypeFor body.kind).toList else []
      (type.map fun t => ⟨"Content-Type".toList, t⟩, [rawArg body.text])

section
variable (upper lower : Text → Text) (pathname : Text → Option Text) (ctx : Context)

/-- The host signs the URL with its query. -/
def signRequest (request : HttpRequest) (method url : Text) (query : List CurlHeader) :
    Except Rejection Signed := do
  if isSignedScheme request.auth then
    let signUrl := appendQuery url (join (query.map queryPart))
    let signBody ← resolveBody ctx.templates request.body
    ctx.signDynamic request.auth method signUrl signBody
  else .ok {}

/-- The head stands on the first line, and each other argument on a line of its own. -/
def commandLines (headSegments rest : List Text) : Text :=
  List.intercalate [' ', '\\', '\n']
    (List.intercalate [' '] headSegments :: rest.map (' ' :: ' ' :: ·))

def serializeAsHttpie (request : HttpRequest) : Except Rejection Text := do
  let pathNames := extractPathParamNames pathname request.url.toList
  let allParams ← resolveParams ctx.templates [1] request.parameters
  let queryParams := enabledRows (allParams.filter fun p => !pathNames.contains p.name)
  let url ← resolveStr ctx.templates [2] request.url.toList
  let url := substitutePathParams url (pathParamMap pathNames allParams)
  let auth ← buildAuthParts ctx.templates request.auth
  let headerRows ← resolveParams ctx.templates [4] request.headers
  let headers := enabledRows headerRows ++ auth.extraHeaders
  let body ← resolveBody ctx.templates request.body
  let (type, bodyArgs) := bodyArguments lower headers body
  let method := upper request.method.toList
  let query := queryParams ++ auth.extraQuery
  let signed ← signRequest ctx request method url query
  let queryArgs := (query ++ signed.query).map fun q => shellQuote (queryArg q)
  let headerArgs := (headers ++ type ++ signed.headers).map fun h => shellQuote (headerArg h)
  let headSegments := "http".toList :: auth.flags ++ [method, shellQuote url]
  let command := commandLines headSegments (queryArgs ++ headerArgs ++ bodyArgs)
  return match auth.note with
    | none => command
    | some note => "# ".toList ++ note ++ '\n' :: command

end

end Voleeo.Httpie

/-!
## How the items of a command are read

Every item of a command is classified on its own: what the loop collects is what
the single tokens give. A parameter and a header come back under conditions on
their own text.
-/
namespace Voleeo.Httpie
open Curl
open Resolve (splitOnce splitOnce_eq_some splitOnce_eq_none not_infix_of_splitOnce)

/-! ## Separators -/

/-- The first separator stands where the text before it ends. -/
theorem splitOnce_pair {a b : Char} {before after : Text} (hne : a ≠ b) (h : ¬ [a, b] <:+: before) :
    splitOnce [a, b] (before ++ a :: b :: after) = some (before, after) := by
  induction before with
  | nil => simp [splitOnce]
  | cons c before ih =>
    rw [List.infix_cons_iff, not_or] at h
    have hno : ¬ [a, b] <+: c :: (before ++ a :: b :: after) := by
      rintro ⟨rest, hrest⟩
      obtain ⟨hac, htail⟩ := List.cons.inj hrest
      cases before with
      | nil => exact hne (List.cons.inj htail).1.symm
      | cons d before =>
        have hbd : b = d := (List.cons.inj htail).1
        exact h.1 ⟨before, by rw [hac, hbd]; rfl⟩
    rw [List.cons_append, splitOnce, if_neg hno, ih h.2]
    rfl

/-- Also a doubled separator, when the text before it is free of its character. -/
theorem splitOnce_of_not_mem {a : Char} {tail before after : Text} (h : a ∉ before) :
    splitOnce (a :: tail) (before ++ (a :: tail ++ after)) = some (before, after) := by
  induction before with
  | nil => simp [splitOnce]
  | cons c before ih =>
    have hno : ¬ (a :: tail) <+: c :: (before ++ (a :: tail ++ after)) := by
      rintro ⟨rest, hrest⟩
      exact h (by rw [(List.cons.inj hrest).1]; exact List.mem_cons_self)
    rw [List.cons_append, splitOnce, if_neg hno, ih fun hmem => h (List.mem_cons_of_mem c hmem)]
    rfl

theorem not_mem_of_splitOnce {a : Char} {s before after : Text}
    (h : splitOnce [a] s = some (before, after)) : a ∉ before := by
  intro hmem
  obtain ⟨pre, post, rfl⟩ := List.append_of_mem hmem
  exact not_infix_of_splitOnce (by simp) h ⟨pre, post, by simp⟩

/-- A separator does not reach into a text that is free of its first character. -/
theorem infix_append_iff {a : Char} {tail s t : Text} (h : a ∉ s) :
    (a :: tail) <:+: s ++ t ↔ (a :: tail) <:+: t := by
  induction s with
  | nil => rfl
  | cons c s ih =>
    rw [List.cons_append, List.infix_cons_iff, ih fun hmem => h (List.mem_cons_of_mem c hmem)]
    refine or_iff_right ?_
    rintro ⟨rest, hrest⟩
    exact h (by rw [(List.cons.inj hrest).1]; exact List.mem_cons_self)

/-! ## Token names -/

/-- Letters, digits and hyphens. -/
def IsTokenName (name : Text) : Prop :=
  name ≠ [] ∧ ∀ c ∈ name, c.isAlphanum = true ∨ c = '-'

theorem IsTokenName.not_mem {name : Text} (h : IsTokenName name) :
    '=' ∉ name ∧ ':' ∉ name ∧ '\n' ∉ name := by
  refine ⟨fun hc => ?_, fun hc => ?_, fun hc => ?_⟩ <;> rcases h.2 _ hc with hc | hc <;>
    exact absurd hc (by decide)

theorem isHeaderName_iff {name : Text} (h : IsTokenName name) :
    isHeaderName name = true ↔ ∃ c ∈ name.head?, c.isAlpha = true := by
  obtain ⟨hne, hall⟩ := h
  obtain ⟨c, rest, rfl⟩ := List.exists_cons_of_ne_nil hne
  have hrest : (rest.all fun d => d.isAlphanum || d == '-') = true := by
    rw [List.all_eq_true]
    intro d hd
    simpa using hall d (List.mem_cons_of_mem c hd)
  simp [isHeaderName, hrest]

/-! ## Classes -/

theorem classify_query {name value : Text} (h : '=' ∉ name) :
    classify (name ++ '=' :: '=' :: value) = .query name value := by
  have hsplit : splitOnce ['=', '='] (name ++ '=' :: '=' :: value) = some (name, value) :=
    splitOnce_of_not_mem h
  rw [classify, hsplit]

theorem splitOnce_of_isHeaderToken {t : Text} (h : isHeaderToken t = true) :
    ∃ name value, splitOnce [':'] t = some (name, value) ∧ ¬ ['=', '='] <:+: t ∧
      value.head? ≠ some '=' ∧ isHeaderName name = true := by
  rw [isHeaderToken] at h
  split_ifs at h with hquery
  split at h
  · cases h
  · rename_i name value heq
    simp only [Bool.and_eq_true, decide_eq_true_eq] at h
    exact ⟨name, value, heq, hquery, h.1.2, h.2⟩

theorem classify_header_iff {t name value : Text} : classify t = .header name value ↔
    isHeaderToken t = true ∧ splitOnce [':'] t = some (name, value) := by
  constructor
  · intro h
    rw [classify] at h
    split at h
    · cases h
    · split at h
      · rename_i hheader hsplit
        cases h
        exact ⟨hheader, hsplit⟩
      · split at h
        · cases h
        · split at h <;> cases h
  · rintro ⟨hheader, hsplit⟩
    obtain ⟨_, _, -, hquery, -, -⟩ := splitOnce_of_isHeaderToken hheader
    rw [classify, (splitOnce_eq_none (by simp)).mpr hquery, hheader, hsplit]

/-- A field is what neither `==` nor a header name claims. -/
theorem classify_field_iff {t key : Text} {value : Json} : classify t = .field key value ↔
    ¬ ['=', '='] <:+: t ∧ isHeaderToken t = false ∧
      ((∃ rawJson, splitOnce [':', '='] t = some (key, rawJson) ∧
          value = (Json.parse rawJson).getD (.string (String.ofList rawJson))) ∨
        (splitOnce [':', '='] t = none ∧ ∃ text, splitOnce ['='] t = some (key, text) ∧
          value = .string (String.ofList text))) := by
  rw [classify]
  cases hquery : splitOnce ['=', '='] t with
  | some parts =>
    have hwithin : ['=', '='] <:+: t := by
      by_contra hno
      rw [(splitOnce_eq_none (by simp)).mpr hno] at hquery
      cases hquery
    simp [hwithin]
  | none =>
    have hwithin : ¬ ['=', '='] <:+: t := (splitOnce_eq_none (by simp)).mp hquery
    cases hheader : isHeaderToken t with
    | true =>
      obtain ⟨name, rest, hsplit, -, -, -⟩ := splitOnce_of_isHeaderToken hheader
      simp [hsplit]
    | false =>
      cases hraw : splitOnce [':', '='] t with
      | some parts =>
        obtain ⟨before, after⟩ := parts
        simp [hwithin, eq_comm]
      | none =>
        cases hfield : splitOnce ['='] t with
        | some parts =>
          obtain ⟨before, after⟩ := parts
          simp [hwithin, eq_comm]
        | none => simp

/-! ## What a token gives -/

/-- A token that begins with a hyphen is a flag. -/
def isFlag (t : Text) : Bool := t.head? == some '-'

def queryOf (t : Text) : Option ParsedParameter :=
  if isFlag t then none
  else
    match classify t with
    | .query name value => if name = [] then none else some ⟨name, value, true⟩
    | _ => none

def headerOf (t : Text) : Option ParsedParameter :=
  if isFlag t then none
  else
    match classify t with
    | .header name value => some ⟨name, value, true⟩
    | _ => none

def fieldOf (t : Text) : Option (Text × Json) :=
  if isFlag t then none
  else
    match classify t with
    | .field key value => some (key, value)
    | _ => none

/-- What the loop has collected, and what the tokens add to it. -/
def Scan.collect (st : Scan) (ts : List Text) : Scan :=
  { st with
    queryParams := st.queryParams ++ ts.filterMap queryOf
    headers := st.headers ++ ts.filterMap headerOf
    jsonFields := st.jsonFields ++ ts.filterMap fieldOf }

theorem Scan.collect_cons (st : Scan) (t : Text) (ts : List Text) :
    st.collect (t :: ts) = (st.collect [t]).collect ts := by
  simp only [collect, List.filterMap_cons, List.filterMap_nil, List.append_assoc]
  cases queryOf t <;> cases headerOf t <;> cases fieldOf t <;> rfl

theorem Scan.addItem_eq {st : Scan} {t : Text} (hurl : st.url ≠ none) (hflag : isFlag t = false) :
    st.addItem t = st.collect [t] := by
  rw [addItem, collect]
  simp only [List.filterMap_cons, List.filterMap_nil, queryOf, headerOf, fieldOf, hflag]
  cases hclass : classify t with
  | query name value => by_cases hname : name = [] <;> simp [hname]
  | header name value => simp
  | field key value => simp
  | lone => simp [hurl]

/-- Items have a separator, and no flag that the loop knows has one. -/
def IsItem (t : Text) : Prop := ':' ∈ t ∨ '=' ∈ t

theorem IsItem.not_mem_flags {t : Text} (h : IsItem t) :
    t ∉ ["-a".toList, "--auth".toList, "--raw".toList, "--json".toList, "-j".toList,
      "--form".toList, "-f".toList, "-A".toList, "--auth-type".toList] := by
  intro hmem
  simp only [List.mem_cons, List.not_mem_nil, or_false] at hmem
  rcases hmem with rfl | rfl | rfl | rfl | rfl | rfl | rfl | rfl | rfl <;>
    rcases h with h | h <;> exact absurd h (by decide)

theorem readTokens_item {upper : Text → Text} {st : Scan} {t : Text} (ts : List Text)
    (h : IsItem t) (hurl : st.url ≠ none) (hmethod : st.method ≠ none) :
    readTokens upper st (t :: ts) = readTokens upper (st.collect [t]) ts := by
  have hno := h.not_mem_flags
  simp only [List.mem_cons, List.not_mem_nil, or_false, not_or] at hno
  obtain ⟨h1, h2, h3, h4, h5, h6, h7, h8, h9⟩ := hno
  rw [readTokens.eq_def]
  dsimp only
  rw [if_neg (not_or.mpr ⟨h1, h2⟩), if_neg h3, if_neg (not_or.mpr ⟨h4, h5⟩),
    if_neg (not_or.mpr ⟨h6, h7⟩), if_neg (not_or.mpr ⟨h8, h9⟩)]
  by_cases hflag : t.head? = some '-'
  · have hskip : st.collect [t] = st := by
      have : isFlag t = true := by simp [isFlag, hflag]
      simp [Scan.collect, queryOf, headerOf, fieldOf, this]
    rw [if_pos hflag, hskip]
  · have hno : isFlag t = false := by simpa [isFlag] using hflag
    rw [if_neg hflag, readPositional, if_neg fun h => hmethod h.1, if_neg fun h => hurl h.1,
      Scan.addItem_eq hurl hno]

/-- Once the method and the URL are known, every item stands for itself. -/
theorem readTokens_items {upper : Text → Text} {st : Scan} {ts : List Text}
    (h : ∀ t ∈ ts, IsItem t) (hurl : st.url ≠ none) (hmethod : st.method ≠ none) :
    readTokens upper st ts = st.collect ts := by
  induction ts generalizing st with
  | nil => simp [readTokens, Scan.collect]
  | cons t ts ih =>
    rw [readTokens_item ts (h t List.mem_cons_self) hurl hmethod, st.collect_cons t ts]
    exact ih (fun u hu => h u (List.mem_cons_of_mem t hu)) hurl hmethod

/-! ## Parameters and headers -/

/-- An item as the address bar lists it. -/
def row (item : CurlHeader) : ParsedParameter := ⟨item.name, item.value, true⟩

theorem row_injective : Function.Injective row := by
  rintro ⟨name, value⟩ ⟨name', value'⟩ h
  cases h
  rfl

theorem collapse_of_oneLine {s : Text} (h : '\n' ∉ s) : collapse s = s := by
  refine (collapse_eq_self_iff s).mpr ?_
  rintro (hs | hs) <;> exact h (hs.mem (by simp))

theorem isFlag_append {name rest : Text} (h : name ≠ []) :
    isFlag (name ++ rest) = (name.head? == some '-') := by
  rw [isFlag, List.head?_append_of_ne_nil _ h]

theorem isItem_queryArg (q : CurlHeader) : IsItem (queryArg q) := Or.inr (by simp [queryArg])

theorem isItem_headerArg (h : CurlHeader) : IsItem (headerArg h) := Or.inl (by simp [headerArg])

/-- A parameter comes back unless its name begins with a hyphen. It is never anything else. -/
theorem queryArg_read {q : CurlHeader} (hname : IsTokenName q.name) :
    queryOf (queryArg q) = (if q.name.head? = some '-' then none else some (row q)) ∧
      headerOf (queryArg q) = none ∧ fieldOf (queryArg q) = none := by
  have hclass : classify (queryArg q) = .query q.name q.value := classify_query hname.not_mem.1
  have hflag : isFlag (queryArg q) = (q.name.head? == some '-') := isFlag_append hname.1
  rw [queryOf, headerOf, fieldOf, hclass, hflag]
  by_cases hhyphen : q.name.head? = some '-' <;> simp [hhyphen, hname.1, row]

/-- The name begins with a letter, and the value neither has `==` nor begins with `=`. -/
def HeaderSurvives (h : CurlHeader) : Prop :=
  (∃ c ∈ h.name.head?, c.isAlpha = true) ∧ ¬ ['=', '='] <:+: h.value ∧ h.value.head? ≠ some '='

theorem splitOnce_headerArg {h : CurlHeader} (hname : IsTokenName h.name) :
    splitOnce [':'] (headerArg h) = some (h.name, h.value) :=
  splitOnce_of_not_mem hname.not_mem.2.1

theorem infix_headerArg_iff {h : CurlHeader} (hname : IsTokenName h.name) :
    ['=', '='] <:+: headerArg h ↔ ['=', '='] <:+: h.value := by
  rw [headerArg, infix_append_iff hname.not_mem.1]
  exact infix_append_iff (show '=' ∉ [':'] by simp)

theorem isHeaderToken_headerArg_iff {h : CurlHeader} (hname : IsTokenName h.name) :
    isHeaderToken (headerArg h) = true ↔ HeaderSurvives h := by
  rw [isHeaderToken, splitOnce_headerArg hname, HeaderSurvives, ← isHeaderName_iff hname,
    ← infix_headerArg_iff hname]
  by_cases hquery : ['=', '='] <:+: headerArg h
  · simp [hquery]
  · simp only [hquery, if_false, not_false_eq_true, Bool.and_eq_true, decide_eq_true_eq, ne_eq,
      hname.1, true_and]
    exact and_comm

theorem isFlag_headerArg {h : CurlHeader} (hname : IsTokenName h.name) (hs : HeaderSurvives h) :
    isFlag (headerArg h) = false := by
  obtain ⟨⟨c, hc, halpha⟩, -, -⟩ := hs
  rw [headerArg, isFlag_append hname.1, Option.mem_def.mp hc]
  simp only [beq_eq_false_iff_ne, ne_eq, Option.some.injEq]
  rintro rfl
  exact absurd halpha (by decide)

/-- A header that survives comes back and is nothing else. -/
theorem headerArg_read {h : CurlHeader} (hname : IsTokenName h.name) (hs : HeaderSurvives h) :
    headerOf (headerArg h) = some (row h) ∧ queryOf (headerArg h) = none ∧
      fieldOf (headerArg h) = none := by
  have hclass : classify (headerArg h) = .header h.name h.value := classify_header_iff.mpr
    ⟨(isHeaderToken_headerArg_iff hname).mpr hs, splitOnce_headerArg hname⟩
  rw [headerOf, queryOf, fieldOf, hclass, isFlag_headerArg hname hs]
  exact ⟨rfl, rfl, rfl⟩

theorem headerOf_eq_some {t : Text} {p : ParsedParameter} (h : headerOf t = some p) :
    isFlag t = false ∧ classify t = .header p.name p.value ∧ p.enabled = true := by
  rw [headerOf] at h
  split_ifs at h with hflag
  split at h
  · rename_i hclass
    cases h
    exact ⟨Bool.eq_false_iff.mpr hflag, hclass, rfl⟩
  · cases h

/-- Whatever token a header comes from, it is one that survives. -/
theorem survives_of_headerOf {t : Text} {h : CurlHeader} (ht : headerOf t = some (row h)) :
    HeaderSurvives h := by
  obtain ⟨-, hclass, -⟩ := headerOf_eq_some ht
  obtain ⟨hheader, hsplit⟩ := classify_header_iff.mp hclass
  obtain ⟨name, value, hsplit', hquery, hvalue, hname⟩ := splitOnce_of_isHeaderToken hheader
  obtain ⟨rfl, rfl⟩ : name = h.name ∧ value = h.value := by
    rw [hsplit] at hsplit'
    exact ⟨(congrArg Prod.fst (Option.some.inj hsplit')).symm,
      (congrArg Prod.snd (Option.some.inj hsplit')).symm⟩
  refine ⟨?_, fun hwithin => hquery ?_, hvalue⟩
  · cases hcases : h.name with
    | nil =>
      rw [hcases] at hname
      cases hname
    | cons c rest =>
      rw [hcases, isHeaderName, Bool.and_eq_true] at hname
      exact ⟨c, rfl, hname.1⟩
  · rw [splitOnce_eq_some hsplit]
    exact hwithin.trans (List.suffix_append _ _).isInfix

/-- A header with a good name that does not survive is a parameter with a colon in its name. -/
theorem headerArg_lost {h : CurlHeader} (hname : IsTokenName h.name)
    (halpha : ∃ c ∈ h.name.head?, c.isAlpha = true) (hvalue : h.value.head? ≠ some '=')
    (hs : ¬ HeaderSurvives h) : headerOf (headerArg h) = none ∧ fieldOf (headerArg h) = none ∧
      ∃ p, queryOf (headerArg h) = some p ∧ ':' ∈ p.name := by
  have hwithin : ['=', '='] <:+: h.value := by
    by_contra hno
    exact hs ⟨halpha, hno, hvalue⟩
  obtain ⟨c, hc, hletter⟩ := halpha
  have hflag : isFlag (headerArg h) = false := by
    rw [headerArg, isFlag_append hname.1, Option.mem_def.mp hc]
    simp only [beq_eq_false_iff_ne, ne_eq, Option.some.injEq]
    rintro rfl
    exact absurd hletter (by decide)
  cases hsplit : splitOnce ['=', '='] (headerArg h) with
  | none =>
    exact absurd ((infix_headerArg_iff hname).mpr hwithin) ((splitOnce_eq_none (by simp)).mp hsplit)
  | some parts =>
    obtain ⟨name, value⟩ := parts
    have htext := splitOnce_eq_some hsplit
    have hcolon : ':' ∈ name := by
      -- The text before the separator has the whole name of the header and the colon.
      rcases List.append_eq_append_iff.mp (show h.name ++ ':' :: h.value =
        name ++ (['=', '='] ++ value) by simpa [headerArg] using htext) with
        ⟨mid, hmid, hrest⟩ | ⟨mid, hmid, hrest⟩
      · cases mid with
        | nil => cases hrest
        | cons d mid =>
          rw [hmid, (List.cons.inj hrest).1]
          simp
      · cases mid with
        | nil => cases hrest
        | cons d mid =>
          have : d = '=' := (List.cons.inj hrest).1.symm
          exact absurd (by rw [hmid, this]; simp) hname.not_mem.1
    have hclass : classify (headerArg h) = .query name value := by rw [classify, hsplit]
    rw [headerOf, fieldOf, queryOf, hclass, hflag]
    have hne : name ≠ [] := List.ne_nil_of_mem hcolon
    exact ⟨rfl, rfl, ⟨name, value, true⟩, by simp [hne], hcolon⟩

end Voleeo.Httpie
