import Voleeo.Entities
import Voleeo.Json
import Voleeo.Resolve.Str
import Voleeo.Resolve.Text

/-!
# Reading a Postman collection

A collection becomes items of the importer: folders within folders, and the
requests in them. Nothing is written yet, and no id is drawn.
-/
namespace Voleeo.Postman

/-! ## What the importer keeps -/

structure ImportedParam where
  name : String
  value : String
  enabled : Bool
  deriving DecidableEq, Repr

structure ImportedVariable where
  key : String
  value : String
  deriving DecidableEq, Repr

inductive RawKind
  | json
  | xml
  | text
  | html
  deriving DecidableEq, Repr

structure ImportedField where
  name : String
  value : String
  isFile : Bool
  enabled : Bool
  deriving DecidableEq, Repr

inductive ImportedBody
  | raw (hint : RawKind) (text : String)
  | formUrlEncoded (fields : List ImportedField)
  | multipart (fields : List ImportedField)
  | binary
  | graphQl (query : String) («variables» : Option String)
  deriving DecidableEq, Repr

inductive ImportedAuth
  | none
  | inherit
  | bearer (token : String)
  | basic (username password : String)
  | apiKey (key value : String) (inHeader : Bool)
  | oauth2 (grant : OAuth2Grant) (authUrl tokenUrl clientId clientSecret scope : String)
  | unsupported (type : String)
  deriving DecidableEq, Repr

structure ImportedRequest where
  name : String
  method : String
  url : String := ""
  path : String := ""
  pathParams : List ImportedParam := []
  query : List ImportedParam := []
  headers : List ImportedParam := []
  body : Option ImportedBody := none
  auth : ImportedAuth := .none
  deriving DecidableEq, Repr

structure ImportedFolder where
  name : String
  description : Option String
  auth : ImportedAuth
  headers : List ImportedParam
  «variables» : List ImportedVariable
  deriving DecidableEq, Repr

inductive ImportedItem
  | folder (f : ImportedFolder) (items : List ImportedItem)
  | request (r : ImportedRequest)

structure ImportedCollection where
  name : String
  version : Option String
  «variables» : List ImportedVariable
  rootAuth : ImportedAuth
  items : List ImportedItem
  warnings : List String

/-! ## Parts of a request -/

/-- `disabled: true` on an entry. -/
def disabled (v : Json) : Bool := (v.get "disabled").bind Json.asBool == some true

def nameOf (v : Json) : String := v.strOr "name" "Untitled"

/-- The entries of an array that have a key. -/
def keyed (v : Option Json) : List Json :=
  ((v.bind Json.asArray).getD []).filter fun e => e.strOr "key" "" ≠ ""

def toParam (enabled : Json → Bool) (v : Json) : ImportedParam where
  name := v.strOr "key" ""
  value := v.strOr "value" ""
  enabled := enabled v

def «variables» (v : Option Json) : List ImportedVariable :=
  (keyed v).map fun e => ⟨e.strOr "key" "", e.strOr "value" ""⟩

def kvLookup (params : Option Json) (key : String) : String :=
  (((params.bind Json.asArray).getD []).find? fun e =>
    (e.get "key").bind Json.asStr = some key).elim "" fun e => e.strOr "value" ""

def toAuth (auth : Json) : ImportedAuth :=
  let ty := auth.strOr "type" "noauth"
  let get := kvLookup (auth.get ty)
  if ty = "noauth" then .none
  else if ty = "bearer" then .bearer (get "token")
  else if ty = "basic" then .basic (get "username") (get "password")
  else if ty = "apikey" then
    .apiKey (if get "key" = "" then "X-API-Key" else get "key") (get "value") (get "in" ≠ "query")
  else if ty = "oauth2" then
    let grant : OAuth2Grant :=
      if get "grant_type" ∈ ["authorization_code", "authorization_code_with_pkce"] then
        .authorizationCode
      else if get "grant_type" ∈ ["password_credentials", "password"] then .password
      else if get "grant_type" = "implicit" then .implicit
      else .clientCredentials
    .oauth2 grant (get "authUrl") (get "accessTokenUrl") (get "clientId") (get "clientSecret")
      (get "scope")
  else .unsupported ty

def rawKind (lang : String) : RawKind :=
  if lang = "json" then .json
  else if lang = "xml" then .xml
  else if lang = "html" then .html
  else .text

def toField (v : Json) : Option ImportedField :=
  ((v.get "key").bind Json.asStr).map fun name =>
    { name
      value := v.strOr "value" ""
      isFile := (v.get "type").bind Json.asStr = some "file"
      enabled := !disabled v }

def formFields (v : Option Json) : List ImportedField :=
  ((v.bind Json.asArray).getD []).filterMap toField

def parseBody (body : Json) : Option ImportedBody :=
  match (body.get "mode").bind Json.asStr with
  | none => none
  | some mode =>
    if mode = "raw" then
      some (.raw (rawKind (body.strAtOr ["options", "raw", "language"])) (body.strOr "raw" ""))
    else if mode = "urlencoded" then some (.formUrlEncoded (formFields (body.get "urlencoded")))
    else if mode = "formdata" then some (.multipart (formFields (body.get "formdata")))
    else if mode = "graphql" then
      some (.graphQl (body.strAtOr ["graphql", "query"])
        (((body.pointer ["graphql", "variables"]).bind Json.asStr).filter (· ≠ "")))
    else if mode = "file" then some .binary
    else none

/-! ## URLs -/

def stripQuery (raw : String) : String := String.ofList (Resolve.stripQuery raw.toList)

/-- The pairs behind the first question mark. A pair without an equals sign has no value. -/
def queryPairs (raw : String) : List ImportedParam :=
  match Resolve.splitOnce ['?'] raw.toList with
  | none => []
  | some (_, qs) => (qs.splitOn '&').filterMap fun pair =>
    let (k, v) := (Resolve.splitOnce ['='] pair).getD (pair, [])
    if k = [] then none else some ⟨String.ofList k, String.ofList v, true⟩

def setUrlString (raw : String) (r : ImportedRequest) : ImportedRequest :=
  { r with url := stripQuery raw, path := raw, query := r.query ++ queryPairs raw }

def joinArr (v : Option Json) (sep : String) : String :=
  sep.intercalate (((v.bind Json.asArray).getD []).filterMap Json.asStr)

/-- The URL from its host and path, where it has no text. -/
def reconstructRaw (url : Json) : String :=
  let host := joinArr (url.get "host") "."
  let path := joinArr (url.get "path") "/"
  if path = "" then host else host ++ "/" ++ path

def parseUrl (url : Json) (r : ImportedRequest) : ImportedRequest :=
  match url.asStr with
  | some raw => setUrlString raw r
  | none =>
    let raw := if url.strOr "raw" "" ≠ "" then url.strOr "raw" "" else reconstructRaw url
    { r with
      url := stripQuery raw
      path := raw
      query := r.query ++ (keyed (url.get "query")).map (toParam fun v => !disabled v)
      pathParams := r.pathParams ++ (keyed (url.get "variable")).map (toParam fun _ => true) }

/-! ## Items -/

def inherited (hasGlobal : Bool) : ImportedAuth := if hasGlobal then .inherit else .none

/-- `upper` stands for the Unicode case mapping. A request may be no more than its URL. -/
def buildRequest (upper : String → String) (name : String) (req : Json) (hasGlobal : Bool) :
    ImportedRequest :=
  match req.asStr with
  | some raw => { setUrlString raw ⟨name, "GET", "", "", [], [], [], none, .none⟩ with
      auth := inherited hasGlobal }
  | none =>
    let r : ImportedRequest :=
      ⟨name, upper (req.strOr "method" "GET"), "", "", [], [], [], none, .none⟩
    let r := (req.get "url").elim r fun url => parseUrl url r
    { r with
      headers := (keyed (req.get "header")).map (toParam fun v => !disabled v)
      body := (req.get "body").bind parseBody
      auth := (req.get "auth").elim (inherited hasGlobal) toAuth }

/-- The scripts of a node that hold more than white space. -/
def countScripts (node : Json) : ℕ :=
  (((node.get "event").bind Json.asArray).getD []).countP fun e =>
    (((e.pointer ["script", "exec"]).bind Json.asArray).getD []).any fun l =>
      (l.asStr.map fun s => !(Resolve.strTrim s.toList).isEmpty).getD false

def importFolder (it : Json) : ImportedFolder where
  name := nameOf it
  description := (it.get "description").bind Json.asStr
  auth := (it.get "auth").elim .inherit toAuth
  headers := []
  «variables» := «variables» (it.get "variable")

/-- The items, and the scripts counted on the way. A node with items is a folder, whatever else
it has. -/
def buildItems (upper : String → String) (hasGlobal : Bool) :
    List Json → List ImportedItem × ℕ
  | [] => ([], 0)
  | it :: rest =>
    let next := buildItems upper hasGlobal rest
    match _h : (it.get "item").bind Json.asArray with
    | some children =>
      let inner := buildItems upper hasGlobal children
      (.folder (importFolder it) inner.1 :: next.1, countScripts it + inner.2 + next.2)
    | none =>
      match it.get "request" with
      | some req =>
        (.request (buildRequest upper (nameOf it) req hasGlobal) :: next.1,
          countScripts it + next.2)
      | none => (next.1, countScripts it + next.2)
termination_by items => sizeOf items
decreasing_by
  · simp only [List.cons.sizeOf_spec]
    omega
  · obtain ⟨v, hv, hchildren⟩ := Option.bind_eq_some_iff.mp _h
    have hget := Json.sizeOf_get_lt hv
    have harray := Json.sizeOf_asArray_lt hchildren
    simp only [List.cons.sizeOf_spec]
    omega

def scriptWarning (scripts : ℕ) : List String :=
  if scripts = 0 then []
  else
    let plural := if scripts = 1 then "" else "s"
    let verb := if scripts = 1 then "was" else "were"
    [s!"{scripts} pre-request/test script{plural} {verb} detected and skipped — " ++
      "Voleeo doesn't run scripts."]

inductive ImportError
  | parse (message : String)
  deriving DecidableEq, Repr

def hasGlobal (doc : Json) : Bool := (doc.get "auth").elim .none toAuth ≠ ImportedAuth.none

/-- The collection of a document that has been parsed. -/
def collectionOf (upper : String → String) (doc : Json) : Except ImportError ImportedCollection :=
  match doc.get "item" with
  | none => .error (.parse "missing `item` array (not a Postman collection)")
  | some item =>
    let schema := doc.strAtOr ["info", "schema"]
    let version := if "v2.0".toList <:+: schema.toList then "2.0" else "2.1"
    let (items, scripts) := buildItems upper (hasGlobal doc) (item.asArray.getD [])
    .ok
      { name := ((doc.pointer ["info", "name"]).bind Json.asStr).getD "Imported API"
        version := some version
        «variables» := «variables» (doc.get "variable")
        rootAuth := (doc.get "auth").elim .none toAuth
        items
        warnings := scriptWarning (countScripts doc + scripts) }

/-- The parser of the text reads JSON, or YAML where that fails. -/
def parsePostman (parseValue : String → Except ImportError Json) (upper : String → String)
    (content : String) : Except ImportError ImportedCollection := do
  let doc ← parseValue content
  collectionOf upper doc

end Voleeo.Postman
