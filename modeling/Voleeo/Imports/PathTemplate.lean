import Voleeo.Records
import Voleeo.Imports.SchemaReading
import Voleeo.Send.Url

/-!
# Operations of API documents

An operation becomes a request. Its path is a template whose placeholders become path parameters of
the URL, and its declared parameters become rows of the request, under the names that they are
declared with.
-/
namespace Voleeo.Imports.PathTemplate
open Postman (ImportedRequest ImportedParam ImportedBody ImportedAuth ImportedField)
open SchemaExample (resolve refOf lookup lookup_mem_nodes)

/-! ## The URL -/

/-- A name that a variable can have. -/
def sanitizeVar (name : Text) : Text :=
  let out := name.map fun c => if isWordChar c then c else '_'
  if out = [] then "var".toList
  else if out.head?.any Char.isDigit then '_' :: out
  else out

/-- Inside a placeholder the name is collected up to the closing brace. -/
def segmentsFrom : Option Text → Text → Text
  | none, [] => []
  | some name, [] => ':' :: sanitizeVar name
  | none, c :: rest =>
    if c = '\x7b' then segmentsFrom (some []) rest else c :: segmentsFrom none rest
  | some name, c :: rest =>
    if c = '\x7d' then ':' :: (sanitizeVar name ++ segmentsFrom none rest)
    else segmentsFrom (some (name ++ [c])) rest

def pathTemplateToSegments (path : Text) : Text := segmentsFrom none path

/-! ## The parameters -/

/-- The node behind a reference. The chain of references is no longer than the document. -/
def resolveOne (root value : Json) : Json :=
  ((resolve root (root.nodes.length + 2) value []).map (·.1)).getD value

/-- The parameters of the operation and then the shared ones, each name and place once. -/
def mergedParams (root : Json) (shared op : Option Json) : List Json :=
  firstPerKey (fun p => (p.strOr "name" "", p.strOr "in" ""))
    (([op, shared].flatMap fun src => (src.bind Json.asArray).getD []).map (resolveOne root))

def classifyParam (state : ImportedRequest × List String) (p : Json) :
    ImportedRequest × List String :=
  let (req, warns) := state
  let name := p.strOr "name" ""
  if name = "" then (req, warns)
  else
    let location := p.strOr "in" "query"
    let enabled := ((p.get "required").bind Json.asBool).getD false
    let param : ImportedParam := ⟨name, "", enabled⟩
    if location = "path" then
      ({ req with pathParams := req.pathParams ++ [{ param with enabled := true }] }, warns)
    else if location = "header" then ({ req with headers := req.headers ++ [param] }, warns)
    else if location = "cookie" then
      ({ req with headers := req.headers ++ [⟨"Cookie", name ++ "=", enabled⟩] },
        warns ++ ["Cookie parameter `" ++ name ++ "` imported as a Cookie header."])
    else ({ req with query := req.query ++ [param] }, warns)

/-! ## Operations -/

/-- What is read from the document for an operation besides its parameters. -/
structure OperationParts where
  body : Option ImportedBody
  auth : ImportedAuth
  warnings : List String

def operationName (path method : String) (op : Json) : String :=
  (((op.get "summary").bind Json.asStr).or ((op.get "operationId").bind Json.asStr)).getD
    (method.toUpper ++ " " ++ path)

def emptyRequest (basePrefix path method : String) (op : Json) : ImportedRequest where
  name := operationName path method op
  method := method.toUpper
  url := basePrefix ++ String.ofList (pathTemplateToSegments path.toList)
  path := path

section
variable (root : Json) (basePrefix path method : String) (op : Json) (shared : Option Json)
  (parts : OperationParts)

/-- An operation of an OpenAPI 3 document. -/
def openapiOperation : ImportedRequest × List String :=
  let (req, warns) := (mergedParams root shared (op.get "parameters")).foldl classifyParam
    (emptyRequest basePrefix path method op, [])
  ({ req with body := parts.body, auth := parts.auth }, warns ++ parts.warnings)

/-- The parameters of a Swagger 2 document also describe the body. -/
structure SwaggerState where
  state : ImportedRequest × List String
  form : List ImportedField
  hasFile : Bool

/-- `readBody` makes an example of the body parameter. -/
def swaggerParam (readBody : Json → Option ImportedBody) (s : SwaggerState) (p : Json) :
    SwaggerState :=
  let location := p.strOr "in" "query"
  if location = "body" then
    { s with state := ({ s.state.1 with body := readBody p }, s.state.2) }
  else if location = "formData" then
    let isFile := (p.get "type").bind Json.asStr = some "file"
    { s with
      form := s.form ++ [⟨p.strOr "name" "", "", isFile, true⟩]
      hasFile := s.hasFile || isFile }
  else { s with state := classifyParam s.state p }

/-- `consumesMultipart` reads what the operation takes, `accept` what it gives. -/
def swaggerOperation (readBody : Json → Option ImportedBody) (consumesMultipart : Bool)
    (accept : Option String) : ImportedRequest × List String :=
  let s := (mergedParams root shared (op.get "parameters")).foldl (swaggerParam readBody)
    ⟨(emptyRequest basePrefix path method op, []), [], false⟩
  let (req, warns) := s.state
  let body :=
    if s.form ≠ [] ∧ req.body = none then
      if s.hasFile || consumesMultipart then some (.multipart s.form)
      else some (.formUrlEncoded s.form)
    else req.body
  let headers := req.headers ++ (accept.map fun a => (⟨"Accept", a, true⟩ : ImportedParam)).toList
  ({ req with body := body, headers := headers, auth := parts.auth }, warns ++ parts.warnings)

end

/-! ## The declared path parameters -/

/-- With a step for every reference that was not followed, a chain of references ends. -/
theorem exists_resolve {root v : Json} (hv : v ∈ root.nodes) {fuel : ℕ} {seen : List String}
    (h : (unvisited id (root.nodes.filterMap refOf) seen).length < fuel) :
    ∃ r, resolve root fuel v seen = some r := by
  induction fuel generalizing v seen with
  | zero => exact absurd h (Nat.not_lt_zero _)
  | succ fuel ih =>
    rw [resolve]
    cases href : refOf v with
    | none => exact ⟨_, rfl⟩
    | some ptr =>
      simp only
      by_cases hseen : ptr ∈ seen
      · exact ⟨_, if_pos hseen⟩
      rw [if_neg hseen]
      cases hlook : lookup root ptr with
      | none => exact ⟨_, rfl⟩
      | some next =>
        have hmem : ptr ∈ root.nodes.filterMap refOf :=
          List.mem_filterMap.mpr ⟨v, hv, href⟩
        have hlt : (unvisited id (root.nodes.filterMap refOf) (ptr :: seen)).length
            < (unvisited id (root.nodes.filterMap refOf) seen).length :=
          unvisited_lt hmem rfl hseen
        exact ih (lookup_mem_nodes hlook) (by omega)

/-- One reference is always resolved to the end of its chain. -/
theorem resolve_resolveOne (root value : Json) :
    ∃ seen, resolve root (root.nodes.length + 2) value [] = some (resolveOne root value, seen) := by
  have hresolve : ∃ r, resolve root (root.nodes.length + 2) value [] = some r := by
    rw [resolve]
    cases href : refOf value with
    | none => exact ⟨_, rfl⟩
    | some ptr =>
      simp only [List.not_mem_nil, if_false]
      cases hlook : lookup root ptr with
      | none => exact ⟨_, rfl⟩
      | some next =>
        refine exists_resolve (lookup_mem_nodes hlook) (Nat.lt_succ_of_le ?_)
        exact (List.length_filter_le _ _).trans (List.length_filterMap_le _ _)
  obtain ⟨r, hr⟩ := hresolve
  exact ⟨r.2, by rw [resolveOne, hr, Option.map_some, Option.getD_some]⟩

/-- The names of the parameters that are declared in the path. -/
def pathNames (params : List Json) : List String :=
  (params.filter fun p => p.strOr "name" "" ≠ "" ∧ p.strOr "in" "query" = "path").map
    (·.strOr "name" "")

theorem pathParams_classifyParam (state : ImportedRequest × List String) (p : Json) :
    (classifyParam state p).1.pathParams =
      state.1.pathParams ++ (pathNames [p]).map fun name => ⟨name, "", true⟩ := by
  rw [classifyParam, pathNames]
  by_cases hname : p.strOr "name" "" = ""
  · simp [hname]
  by_cases hpath : p.strOr "in" "query" = "path"
  · simp [hname, hpath]
  · simp only [hname, hpath, if_false]
    split_ifs <;> simp [hpath]

theorem url_classifyParam (state : ImportedRequest × List String) (p : Json) :
    (classifyParam state p).1.url = state.1.url := by
  rw [classifyParam]
  simp only
  split_ifs <;> rfl

theorem pathNames_cons (p : Json) (params : List Json) :
    pathNames (p :: params) = pathNames [p] ++ pathNames params := by
  rw [pathNames, pathNames, pathNames, ← List.map_append, ← List.filter_append]
  rfl

theorem foldl_classifyParam (params : List Json) (state : ImportedRequest × List String) :
    (params.foldl classifyParam state).1.pathParams =
        state.1.pathParams ++ (pathNames params).map (fun name => ⟨name, "", true⟩) ∧
      (params.foldl classifyParam state).1.url = state.1.url := by
  induction params generalizing state with
  | nil => simp [pathNames]
  | cons p params ih =>
    obtain ⟨hparams, hurl⟩ := ih (classifyParam state p)
    rw [List.foldl_cons, hparams, hurl, pathParams_classifyParam, url_classifyParam,
      pathNames_cons p params, List.map_append, List.append_assoc]
    exact ⟨rfl, rfl⟩

theorem foldl_swaggerParam (readBody : Json → Option ImportedBody) (params : List Json)
    (s : SwaggerState) :
    (params.foldl (swaggerParam readBody) s).state.1.pathParams =
        s.state.1.pathParams ++ (pathNames params).map (fun name => ⟨name, "", true⟩) ∧
      (params.foldl (swaggerParam readBody) s).state.1.url = s.state.1.url := by
  induction params generalizing s with
  | nil => simp [pathNames]
  | cons p params ih =>
    obtain ⟨hparams, hurl⟩ := ih (swaggerParam readBody s p)
    rw [List.foldl_cons, hparams, hurl, pathNames_cons p params, List.map_append,
      ← List.append_assoc]
    have hstep : (swaggerParam readBody s p).state.1.pathParams =
        s.state.1.pathParams ++ (pathNames [p]).map (fun name => ⟨name, "", true⟩) ∧
          (swaggerParam readBody s p).state.1.url = s.state.1.url := by
      rw [swaggerParam]
      simp only
      split_ifs with hbody hform
      · simp [pathNames, hbody]
      · simp [pathNames, hform]
      · exact ⟨pathParams_classifyParam s.state p, url_classifyParam s.state p⟩
    rw [hstep.1, hstep.2]
    exact ⟨rfl, rfl⟩

theorem strOr_of_path {p : Json} (h : p.strOr "in" "query" = "path") :
    p.strOr "in" "" = "path" := by
  unfold Json.strOr at h ⊢
  cases hin : (p.get "in").bind Json.asStr with
  | none =>
    rw [hin, Option.getD_none] at h
    exact absurd h (by decide)
  | some location =>
    rw [hin, Option.getD_some] at h
    rw [h, Option.getD_some]

/-- A name is declared in the path once. -/
theorem nodup_pathNames (root : Json) (shared op : Option Json) :
    (pathNames (mergedParams root shared op)).Nodup := by
  rw [pathNames]
  have hnodup := nodup_firstPerKey (fun p : Json => (p.strOr "name" "", p.strOr "in" ""))
    (([op, shared].flatMap fun src => (src.bind Json.asArray).getD []).map (resolveOne root))
  refine List.Nodup.map_on (fun p hp q hq hname => ?_) (List.Nodup.filter _ hnodup.of_map)
  obtain ⟨hp, hpath⟩ := List.mem_filter.mp hp
  obtain ⟨hq, hqath⟩ := List.mem_filter.mp hq
  refine List.inj_on_of_nodup_map hnodup hp hq (Prod.ext hname ?_)
  rw [decide_eq_true_eq] at hpath hqath
  rw [strOr_of_path hpath.2, strOr_of_path hqath.2]

end Voleeo.Imports.PathTemplate
