import Voleeo.Imports.GroupAuth

/-!
# Bruno collections

Items nest, and siblings stand in the order of their sequence numbers. An auth on
the request block of a folder or of the collection is for everything below it;
the text `inherit` asks for it.
-/
namespace Voleeo.Imports.Bruno
open Postman

/-! ## The importer -/

def infoStr (it : Json) (key : String) : String := it.strAtOr ["info", key]

def brunoName (it : Json) : String := nameOf ((it.get "info").getD it)

def seqOf (readers : Readers) (it : Json) : ℤ :=
  ((it.pointer ["info", "seq"]).bind readers.asInt).getD 0

/-- The scripts of a node that hold more than white space. -/
def countScripts (node : Json) : ℕ :=
  ([["runtime", "scripts"], ["request", "scripts"]].map fun place =>
    (((node.pointer place).bind Json.asArray).getD []).countP fun s =>
      ((s.get "code").bind Json.asStr).any fun c => !(Resolve.strTrim c.toList).isEmpty).sum

def headersOf (v : Json) : List ImportedParam := (namedEntries (v.get "headers")).map namedParam

/-- A plain text, or a text with its type around it. -/
def scalar (readers : Readers) : Option Json → String
  | some (.string s) => s
  | some (.object members) => (Json.object members).strOr "data" ""
  | some .null | none => ""
  | some other => readers.render other

/-- A secret is exported without its value. -/
def toVariables (readers : Readers) (v : Json) : List ImportedVariable :=
  (namedEntries (some v)).map fun e =>
    ⟨e.strOr "name" "",
      if (e.get "secret").bind Json.asBool = some true then ""
      else scalar readers (e.get "value")⟩

def collectEnvironments (readers : Readers) (doc : Json) : List ImportedEnvironment :=
  (((doc.pointer ["config", "environments"]).bind Json.asArray).getD []).map fun e =>
    ⟨e.strOr "name" "Environment", ((e.get "variables").map (toVariables readers)).getD []⟩

def formFields (data : Option Json) (multipart : Bool) : List ImportedField :=
  ((data.bind Json.asArray).getD []).filterMap fun f =>
    ((f.get "name").bind Json.asStr).map fun name =>
      { name
        value := f.strOr "value" ""
        isFile := multipart && (f.get "type").bind Json.asStr = some "file"
        enabled := !disabled f }

def bodyToBody (body : Json) : Option ImportedBody :=
  ((body.get "type").bind Json.asStr).bind fun ty =>
    if ty = "json" then some (.raw .json (body.strOr "data" ""))
    else if ty = "xml" then some (.raw .xml (body.strOr "data" ""))
    else if ty = "text" ∨ ty = "sparql" then some (.raw .text (body.strOr "data" ""))
    else if ty = "form-urlencoded" then some (.formUrlEncoded (formFields (body.get "data") false))
    else if ty = "multipart-form" then some (.multipart (formFields (body.get "data") true))
    else if ty = "file" then some .binary
    else none

/-- The text `inherit`, or an object with a type. -/
def parseAuth (a : Json) : ImportedAuth :=
  if a.asStr = some "inherit" then .inherit
  else if a.asObject.isNone then .none
  else
    let s := fun key => a.strOr key ""
    let ty := s "type"
    if ty = "basic" then .basic (s "username") (s "password")
    else if ty = "bearer" then .bearer (s "token")
    else if ty = "apikey" then
      apiKeyAuth (s "key") (s "value") ((a.get "placement").bind Json.asStr ≠ some "query")
    else if ty = "oauth2" then
      let cred := fun key => ((a.get "credentials").map fun c => c.strOr key "").getD ""
      .oauth2 (grantKind (s "flow")) (s "authorizationUrl") (s "accessTokenUrl") (cred "clientId")
        (cred "clientSecret") (s "scope")
    else if ty = "" ∨ ty = "none" then .none
    else .unsupported ty

def isPathParam (p : Json) : Bool := (p.get "type").bind Json.asStr = some "path"

def buildRequest (readers : Readers) (it : Json) (inherit : Bool) : ImportedRequest :=
  let url := ((it.get "http").map fun h => h.strOr "url" "").getD ""
  let method := ((it.get "http").map fun h => h.strOr "method" "GET").getD "GET"
  let r : ImportedRequest :=
    { name := brunoName it
      method := methodOf readers method
      url := stripQuery url
      path := url }
  match it.get "http" with
  | none => { r with auth := inherited inherit }
  | some h =>
    let params := namedEntries (h.get "params")
    { r with
      pathParams := (params.filter isPathParam).map fun p => { namedParam p with enabled := true }
      query := (params.filter fun p => !isPathParam p).map namedParam
      headers := headersOf h
      body := (h.get "body").bind bodyToBody
      auth := (h.get "auth").elim (inherited inherit) parseAuth }

/-- The auth entry of a folder or of the collection. -/
def authEntry (v : Json) : Option ImportedAuth :=
  ((v.get "request").bind (·.get "auth")).map parseAuth

/-- An entry that is neither `none` nor `inherit`. -/
def defined (it : Json) : Option ImportedAuth := (authEntry it).filter declares

def importFolder (readers : Readers) (it : Json) (inherit : Bool) : ImportedFolder where
  name := brunoName it
  description := none
  auth := (defined it).getD (inherited inherit)
  headers := ((it.get "request").map headersOf).getD []
  «variables» :=
    (((it.get "request").bind (·.get "variables")).map (toVariables readers)).getD []

/-- Items in their order, and the scripts counted on the way. The children of a folder are put in
order when it is entered. -/
def buildSorted (readers : Readers) (inherit : Bool) : List Json → List ImportedItem × ℕ
  | [] => ([], 0)
  | it :: rest =>
    let next := buildSorted readers inherit rest
    let scripts := countScripts it + next.2
    if infoStr it "type" = "folder" then
      match _h : (it.get "items").bind Json.asArray with
      | some children =>
        let inner := buildSorted readers (inherit || (defined it).isSome)
          (sortBy (seqOf readers) children)
        (.folder (importFolder readers it inherit) inner.1 :: next.1, scripts + inner.2)
      | none => (.folder (importFolder readers it inherit) [] :: next.1, scripts)
    else if infoStr it "type" = "http" then
      (.request (buildRequest readers it inherit) :: next.1, scripts)
    else (next.1, scripts)
termination_by items => sizeOf items
decreasing_by
  · simp only [List.cons.sizeOf_spec]
    omega
  · obtain ⟨v, hv, hchildren⟩ := Option.bind_eq_some_iff.mp _h
    have hget := Json.sizeOf_get_lt hv
    have harray := Json.sizeOf_asArray_lt hchildren
    simp only [List.cons.sizeOf_spec, sizeOf_sortBy]
    omega

def buildItems (readers : Readers) (inherit : Bool) (items : List Json) : List ImportedItem × ℕ :=
  buildSorted readers inherit (sortBy (seqOf readers) items)

/-- The auth of the collection; there is nothing that it could inherit from. -/
def rootAuth (doc : Json) : ImportedAuth :=
  match authEntry doc with
  | some .inherit | none => .none
  | some auth => auth

def scriptWarning (scripts : ℕ) : List String :=
  if scripts = 0 then []
  else
    let plural := if scripts = 1 then "" else "s"
    let verb := if scripts = 1 then "was" else "were"
    [s!"{scripts} script{plural} {verb} detected and skipped — Voleeo doesn't run scripts."]

/-- The collection of a document that has been parsed. -/
def collectionOf (readers : Readers) (doc : Json) : Except ImportError ParsedCollection :=
  if (doc.get "opencollection").isNone then
    .error (.parse "missing `opencollection` key (not a Bruno/OpenCollection file)")
  else
    let (items, scripts) :=
      buildItems readers (rootAuth doc ≠ .none) (((doc.get "items").bind Json.asArray).getD [])
    .ok
      { collection :=
          { name := ((doc.pointer ["info", "name"]).bind Json.asStr).getD "Imported API"
            version := (doc.get "opencollection").bind Json.asStr
            «variables» :=
              ((doc.pointer ["request", "variables"]).map (toVariables readers)).getD []
            rootAuth := rootAuth doc
            items
            warnings := scriptWarning (countScripts doc + scripts) }
        environments := collectEnvironments readers doc }

def parseBruno (readers : Readers) (content : String) : Except ImportError ParsedCollection := do
  let doc ← readers.parseValue content
  collectionOf readers doc

/-! ## Where the requests sit -/

def ownEntry (it : Json) : Option ImportedAuth :=
  (it.get "http").bind fun h => (h.get "auth").map parseAuth

/-- The entry of a group, and no auth where there is none. -/
def groupEntry (it : Json) : ImportedAuth := (authEntry it).getD .none

theorem buildRequest_auth (readers : Readers) (it : Json) (inherit : Bool) :
    (buildRequest readers it inherit).auth = (ownEntry it).getD (inherited inherit) := by
  rw [buildRequest, ownEntry]
  cases it.get "http" with
  | none => rfl
  | some h =>
    change (h.get "auth").elim (inherited inherit) parseAuth = _
    rw [Option.bind_some]
    cases h.get "auth" <;> rfl

def format (readers : Readers) : AuthFormat where
  group := groupEntry
  own := ownEntry
  build := buildRequest readers
  build_auth := buildRequest_auth readers

/-- The items that lie in the given folders, the innermost first. -/
inductive Inside (doc : Json) : List Json → List Json → Prop
  | collection {items : List Json} :
      (doc.get "items").bind Json.asArray = some items → Inside doc [] items
  | folder {groups items children : List Json} {it : Json} :
      Inside doc groups items → it ∈ items → infoStr it "type" = "folder" →
      (it.get "items").bind Json.asArray = some children → Inside doc (it :: groups) children

/-- A request of the document, and the folders around it. -/
def Sits (doc r : Json) (groups : List Json) : Prop :=
  ∃ items, Inside doc groups items ∧ r ∈ items ∧ infoStr r "type" = "http"

theorem defined_eq (it : Json) :
    defined it = if declares (groupEntry it) then some (groupEntry it) else none := by
  rw [defined, groupEntry]
  cases authEntry it with
  | none => rfl
  | some auth => rfl

theorem importFolder_auth (readers : Readers) (it : Json) (inherit : Bool) :
    (importFolder readers it inherit).auth = passedOn (groupEntry it) inherit := by
  change (defined it).getD (inherited inherit) = _
  rw [defined_eq, passedOn]
  split_ifs
  · rfl
  · rfl

theorem isSome_defined (it : Json) : (defined it).isSome = declares (groupEntry it) := by
  rw [defined_eq]
  cases declares (groupEntry it) <;> rfl

section
variable {readers : Readers} {inherit : Bool} {it : Json} {rest children : List Json}

theorem buildSorted_folder (htype : infoStr it "type" = "folder")
    (h : (it.get "items").bind Json.asArray = some children) :
    (buildSorted readers inherit (it :: rest)).1 =
      .folder (importFolder readers it inherit)
          (buildSorted readers (inherit || declares (groupEntry it))
            (sortBy (seqOf readers) children)).1 ::
        (buildSorted readers inherit rest).1 := by
  rw [buildSorted, if_pos htype]
  split
  · rename_i children' h'
    rw [h] at h'
    cases h'
    rw [isSome_defined]
  · rename_i h'
    rw [h] at h'
    cases h'

theorem buildSorted_emptyFolder (htype : infoStr it "type" = "folder")
    (h : (it.get "items").bind Json.asArray = none) :
    (buildSorted readers inherit (it :: rest)).1 =
      .folder (importFolder readers it inherit) [] :: (buildSorted readers inherit rest).1 := by
  rw [buildSorted, if_pos htype]
  split
  · rename_i h'
    rw [h] at h'
    cases h'
  · rfl

end

/-- In folders of the document, the items are built from the requests that sit there. -/
theorem buildSorted_follows {readers : Readers} {doc : Json} {root : ImportedAuth}
    (items xs : List Json) (inherit : Bool) (groups : List Json) (auths : List AuthConfig)
    (hinside : Inside doc groups items) (hxs : ∀ it ∈ xs, it ∈ items)
    (hbelow : Below (format readers) root groups inherit auths) :
    Follows (format readers) root (Sits doc) auths (buildSorted readers inherit xs).1 := by
  induction inherit, xs using buildSorted.induct readers generalizing items groups auths with
  | case1 inherit =>
    rw [buildSorted]
    exact .nil
  | case2 inherit it rest htype children hchildren ihrest ihinner =>
    rw [List.forall_mem_cons] at hxs
    rw [buildSorted_folder htype hchildren]
    refine .folder ?_ (ihrest items groups auths hinside hxs.2 hbelow)
    rw [importFolder_auth]
    rw [isSome_defined] at ihinner
    exact ihinner children _ _ (.folder hinside hxs.1 htype hchildren) (by simp) (hbelow.inside it)
  | case3 inherit it rest htype hnone ihrest =>
    rw [List.forall_mem_cons] at hxs
    rw [buildSorted_emptyFolder htype hnone]
    exact .folder .nil (ihrest items groups auths hinside hxs.2 hbelow)
  | case4 inherit it rest hfolder htype ihrest =>
    rw [List.forall_mem_cons] at hxs
    rw [buildSorted, if_neg hfolder, if_pos htype]
    exact .request hbelow ⟨items, hinside, hxs.1, htype⟩
      (ihrest items groups auths hinside hxs.2 hbelow)
  | case5 inherit it rest hfolder htype ihrest =>
    rw [List.forall_mem_cons] at hxs
    rw [buildSorted, if_neg hfolder, if_neg htype]
    exact ihrest items groups auths hinside hxs.2 hbelow

theorem declares_rootAuth (doc : Json) :
    declares (rootAuth doc) = decide (rootAuth doc ≠ .none) := by
  rw [rootAuth]
  cases authEntry doc with
  | none => rfl
  | some auth => cases auth <;> rfl

/-- The items of a collection are built from the requests of its document. -/
theorem collectionOf_follows {readers : Readers} {doc : Json} {parsed : ParsedCollection}
    (h : collectionOf readers doc = .ok parsed) :
    parsed.collection.rootAuth = rootAuth doc ∧
      Follows (format readers) (rootAuth doc) (Sits doc) [] parsed.collection.items := by
  rw [collectionOf] at h
  split_ifs at h
  cases h
  refine ⟨rfl, ?_⟩
  change Follows _ _ _ _ (buildItems readers _ _).1
  cases hitems : (doc.get "items").bind Json.asArray with
  | none =>
    rw [buildItems, Option.getD_none, sortBy, List.mergeSort_nil, buildSorted]
    exact .nil
  | some items =>
    refine buildSorted_follows items _ _ [] [] (.collection hitems) (by simp) ?_
    rw [← declares_rootAuth]
    exact .outermost

end Voleeo.Imports.Bruno
