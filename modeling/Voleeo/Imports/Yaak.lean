import Voleeo.Imports.GroupAuth
import Voleeo.ParentChain

/-!
# Yaak exports

Folders and requests lie in two lists, and each names its folder; no folder is the
root. The importer follows these names without a guard: it returns when every
folder has an id of its own.
-/
namespace Voleeo.Imports.Yaak
open Postman
open Resolve (splitOnce splitOnce_length strTrim)

/-! ## The importer -/

def openTag : Text := ['$', '{', '[']
def closeTag : Text := [']', '}']

/-- Variables between the tags of the format, in the braces of the app. -/
def convertTags (text : Text) : Text :=
  match _hopen : splitOnce openTag text with
  | none => text
  | some (before, inside) =>
    match _hclose : splitOnce closeTag inside with
    | none => before ++ openTag ++ inside
    | some (tag, rest) => before ++ Resolve.pushToken (strTrim tag) ++ convertTags rest
termination_by text.length
decreasing_by
  exact (splitOnce_length (by decide) _hclose).trans (splitOnce_length (by decide) _hopen)

def convertTemplate (input : String) : String := String.ofList (convertTags input.toList)

theorem convertTemplate_plain {input : String} (h : ¬ openTag <:+: input.toList) :
    convertTemplate input = input := by
  have hnone : splitOnce openTag input.toList = none :=
    (Resolve.splitOnce_eq_none (by decide)).mpr h
  rw [convertTemplate, convertTags]
  split
  · exact String.ofList_toList
  · rename_i hsome
    rw [hnone] at hsome
    cases hsome

def tv (v : Json) (key : String) : String := convertTemplate (v.strOr key "")

def folderIdOf (v : Json) : Option String := (v.get "folderId").bind Json.asStr
def idOf (v : Json) : Option String := (v.get "id").bind Json.asStr

def sortKey (readers : Readers) (v : Json) : ℚ :=
  ((v.get "sortPriority").bind readers.asFloat).getD 0

def enabled (v : Json) : Bool := (v.get "enabled").bind Json.asBool ≠ some false

def typeOf (v : Json) : Option String := (v.get "authenticationType").bind Json.asStr

def authOf (v : Json) : ImportedAuth :=
  let get := fun key =>
    convertTemplate (((v.get "authentication").map fun o => o.strOr key "").getD "")
  let ty := (typeOf v).getD "none"
  if ty = "none" ∨ ty = "" then .none
  else if ty = "basic" then .basic (get "username") (get "password")
  else if ty = "bearer" then .bearer (get "token")
  else if ty = "apikey" then apiKeyAuth (get "key") (get "value") (get "location" ≠ "query")
  else if ty = "oauth2" then
    .oauth2 (grantKind (get "grantType")) (get "authorizationUrl") (get "accessTokenUrl")
      (get "clientId") (get "clientSecret") (get "scope")
  else .unsupported ty

def envVars (e : Json) : List ImportedVariable :=
  (namedEntries (e.get "variables")).map fun v => ⟨v.strOr "name" "", tv v "value"⟩

def isBase (e : Json) : Bool := (e.get "parentModel").bind Json.asStr = some "workspace"

/-- The variables of the last base environment, and the other environments. -/
def collectEnvironments (envs : List Json) :
    List ImportedVariable × List ImportedEnvironment :=
  (((envs.filter isBase).getLast?.map envVars).getD [],
    (envs.filter fun e => !isBase e).map fun e => ⟨nameOf e, envVars e⟩)

def toParam (p : Json) : ImportedParam := ⟨p.strOr "name" "", tv p "value", enabled p⟩

def headersOf (v : Json) : List ImportedParam := (namedEntries (v.get "headers")).map toParam

/-- A colon in front of a name marks a parameter of the path. -/
def pathParam (p : Json) : Option ImportedParam :=
  match (p.strOr "name" "").toList with
  | ':' :: name => some ⟨String.ofList name, tv p "value", true⟩
  | _ => none

def formFields (body : Option Json) : List ImportedField :=
  (((body.bind (·.get "form")).bind Json.asArray).getD []).filterMap fun f =>
    ((f.get "name").bind Json.asStr).map fun name =>
      { name
        value := tv f "value"
        isFile := ((f.get "file").bind Json.asStr).any (· ≠ "")
        enabled := enabled f }

def bodyToBody (r : Json) : Option ImportedBody :=
  ((r.get "bodyType").bind Json.asStr).bind fun bt =>
    let body := r.get "body"
    let text := tv (body.getD .null) "text"
    if bt = "" then none
    else if bt = "application/json" then some (.raw .json text)
    else if bt = "application/x-www-form-urlencoded" then some (.formUrlEncoded (formFields body))
    else if bt = "multipart/form-data" then some (.multipart (formFields body))
    else if bt = "graphql" then
      some (.graphQl (tv (body.getD .null) "query")
        ((((body.bind (·.get "variables")).bind Json.asStr).filter (· ≠ "")).map convertTemplate))
    else if bt = "binary" then some .binary
    else some (.raw .text text)

/-- The entry of a request. -/
def ownEntry (r : Json) : Option ImportedAuth :=
  (typeOf r).map fun ty => if ty = "none" ∨ ty = "" then .none else authOf r

def buildRequest (readers : Readers) (r : Json) (inherit : Bool) : ImportedRequest :=
  let url := tv r "url"
  let params := namedEntries (r.get "urlParameters")
  { name := nameOf r
    method := methodOf readers (r.strOr "method" "")
    url := stripQuery url
    path := url
    pathParams := params.filterMap pathParam
    query := (params.filter fun p => (pathParam p).isNone).map toParam
    headers := headersOf r
    body := bodyToBody r
    auth := (ownEntry r).getD (inherited inherit) }

def hasAuth (f : Json) : Bool := authOf f ≠ .none

def importFolder (f : Json) (inherit : Bool) : ImportedFolder where
  name := nameOf f
  description := ((f.get "description").bind Json.asStr).filter (· ≠ "")
  auth := if hasAuth f then authOf f else inherited inherit
  headers := headersOf f
  «variables» := []

inductive Node
  | folder (f : Json)
  | request (r : Json)

def Node.value : Node → Json
  | .folder f => f
  | .request r => r

/-- The folders and requests in a folder, in their order. -/
def nodesOf (readers : Readers) (folders requests : List Json) (parent : Option String) :
    List Node :=
  sortBy (fun n => sortKey readers n.value)
    ((folders.filter fun f => folderIdOf f = parent).map .folder ++
      (requests.filter fun r => folderIdOf r = parent).map .request)

/-- Build the given nodes; `down` enters a folder. -/
def buildNodes (readers : Readers)
    (down : Option String → Bool → Option (List ImportedItem)) (inherit : Bool) :
    List Node → Option (List ImportedItem)
  | [] => some []
  | .folder f :: nodes => do
      let items ← down (idOf f) (inherit || hasAuth f)
      let rest ← buildNodes readers down inherit nodes
      return .folder (importFolder f inherit) items :: rest
  | .request r :: nodes => do
      let rest ← buildNodes readers down inherit nodes
      return .request (buildRequest readers r inherit) :: rest

/-- `fuel` bounds how deep folders nest. -/
def buildChildren (readers : Readers) (folders requests : List Json) :
    ℕ → Option String → Bool → Option (List ImportedItem)
  | 0, _, _ => none
  | fuel + 1, parent, inherit =>
    buildNodes readers (buildChildren readers folders requests fuel) inherit
      (nodesOf readers folders requests parent)

def arr (resources : Option Json) (key : String) : List Json :=
  ((resources.bind (·.get key)).bind Json.asArray).getD []

def foldersOf (doc : Json) : List Json := arr (doc.get "resources") "folders"

def requestsOf (doc : Json) : List Json := arr (doc.get "resources") "httpRequests"

def workspaceOf (doc : Json) : Option Json := (arr (doc.get "resources") "workspaces").head?

def rootAuth (doc : Json) : ImportedAuth := ((workspaceOf doc).map authOf).getD .none

/-- The collection of a document that has been parsed. -/
def collectionOf (readers : Readers) (fuel : ℕ) (doc : Json) :
    Option (Except ImportError ParsedCollection) :=
  match doc.get "yaakSchema" with
  | none => some (.error (.parse "missing `yaakSchema` (not a Yaak export)"))
  | some schema => do
      let («variables», environments) :=
        collectEnvironments (arr (doc.get "resources") "environments")
      let items ← buildChildren readers (foldersOf doc) (requestsOf doc) fuel none
        (rootAuth doc ≠ .none)
      return .ok
        { collection :=
            { name := (((workspaceOf doc).bind (·.get "name")).bind Json.asStr).getD "Imported API"
              version := some (((readers.asInt schema).map toString).getD "4")
              «variables»
              rootAuth := rootAuth doc
              items
              warnings := [] }
          environments }

def parseYaak (readers : Readers) (fuel : ℕ) (content : String) :
    Option (Except ImportError ParsedCollection) :=
  match readers.parseValue content with
  | .error e => some (.error e)
  | .ok doc => collectionOf readers fuel doc

/-! ## The walk ends -/

/-- The folder that a folder lies in, by its id. -/
def parentOf (folders : List Json) (id : String) : Option (Option String) :=
  (folders.find? fun f => idOf f = some id).map folderIdOf

/-- Every folder has an id of its own. -/
structure OwnIds (folders : List Json) : Prop where
  present : ∀ f ∈ folders, (idOf f).isSome = true
  distinct : (folders.map idOf).Nodup

theorem OwnIds.parentOf_eq {folders : List Json} (h : OwnIds folders) {f : Json} {id : String}
    (hf : f ∈ folders) (hid : idOf f = some id) : parentOf folders id = some (folderIdOf f) := by
  cases hfind : folders.find? fun f => idOf f = some id with
  | none => exact absurd hid (by simpa using List.find?_eq_none.mp hfind f hf)
  | some g =>
    have hg : idOf g = some id := by simpa using List.find?_some hfind
    have hsame : g = f := List.inj_on_of_nodup_map h.distinct (List.mem_of_find?_eq_some hfind) hf
      (hg.trans hid.symm)
    rw [parentOf, hfind, hsame]
    rfl

theorem OwnIds.depth_le {folders : List Json} {parent : Option String} {n : ℕ}
    (h : Depth (parentOf folders) parent n) : n ≤ folders.length := by
  have hall : ∀ id, (parentOf folders id).isSome → id ∈ folders.filterMap idOf := by
    intro id hsome
    rw [parentOf, Option.isSome_map, List.find?_isSome] at hsome
    obtain ⟨f, hf, hid⟩ := hsome
    exact List.mem_filterMap.mpr ⟨f, hf, by simpa using hid⟩
  exact (h.le_length hall).trans (List.length_filterMap_le _ _)

theorem mem_nodesOf {readers : Readers} {folders requests : List Json} {parent : Option String}
    {n : Node} (h : n ∈ nodesOf readers folders requests parent) :
    folderIdOf n.value = parent ∧
      ((∃ f ∈ folders, n = .folder f) ∨ ∃ r ∈ requests, n = .request r) := by
  rw [nodesOf, mem_sortBy, List.mem_append, List.mem_map, List.mem_map] at h
  rcases h with ⟨f, hf, rfl⟩ | ⟨r, hr, rfl⟩
  · rw [List.mem_filter, decide_eq_true_eq] at hf
    exact ⟨hf.2, Or.inl ⟨f, hf.1, rfl⟩⟩
  · rw [List.mem_filter, decide_eq_true_eq] at hr
    exact ⟨hr.2, Or.inr ⟨r, hr.1, rfl⟩⟩

theorem buildNodes_returns {readers : Readers}
    {down : Option String → Bool → Option (List ImportedItem)} {inherit : Bool} (nodes : List Node)
    (hdown : ∀ f, .folder f ∈ nodes → ∃ items, down (idOf f) (inherit || hasAuth f) = some items) :
    ∃ items, buildNodes readers down inherit nodes = some items := by
  induction nodes with
  | nil => exact ⟨[], rfl⟩
  | cons n nodes ih =>
    obtain ⟨rest, hrest⟩ := ih fun f hf => hdown f (List.mem_cons_of_mem _ hf)
    cases n with
    | folder f =>
      obtain ⟨items, hitems⟩ := hdown f List.mem_cons_self
      exact ⟨.folder (importFolder f inherit) items :: rest, by
        rw [buildNodes, hitems, hrest]
        rfl⟩
    | request r =>
      exact ⟨.request (buildRequest readers r inherit) :: rest, by
        rw [buildNodes, hrest]
        rfl⟩

/-- No folder lies deeper than there are folders. -/
theorem buildChildren_returns (readers : Readers) {folders : List Json} (requests : List Json)
    (hown : OwnIds folders) (fuel : ℕ) (parent : Option String) (inherit : Bool) (n : ℕ)
    (hdepth : Depth (parentOf folders) parent n) (hfuel : folders.length < n + fuel) :
    ∃ items, buildChildren readers folders requests fuel parent inherit = some items := by
  induction fuel generalizing parent inherit n with
  | zero =>
    have := OwnIds.depth_le hdepth
    omega
  | succ fuel ih =>
    refine buildNodes_returns _ fun f hf => ?_
    obtain ⟨hparent, hmem⟩ := mem_nodesOf hf
    have hf : f ∈ folders := by
      rcases hmem with ⟨g, hg, heq⟩ | ⟨r, -, heq⟩
      · cases heq
        exact hg
      · cases heq
    obtain ⟨id, hid⟩ := Option.isSome_iff_exists.mp (hown.present f hf)
    have hlink := hown.parentOf_eq hf hid
    rw [show folderIdOf f = parent from hparent] at hlink
    rw [hid]
    exact ih (some id) _ (n + 1) (.link hlink hdepth) (by omega)

/-! ## Where the requests sit -/

theorem buildRequest_auth (readers : Readers) (r : Json) (inherit : Bool) :
    (buildRequest readers r inherit).auth = (ownEntry r).getD (inherited inherit) := rfl

def format (readers : Readers) : AuthFormat where
  group := authOf
  own := ownEntry
  build := buildRequest readers
  build_auth := buildRequest_auth readers

/-- A request of the document, and the folders around it. -/
def Sits (doc r : Json) (groups : List Json) : Prop :=
  r ∈ requestsOf doc ∧ Around idOf folderIdOf (foldersOf doc) none r groups

theorem authOf_ne_inherit (v : Json) : authOf v ≠ .inherit := by
  rw [authOf]
  dsimp only [apiKeyAuth]
  split_ifs <;> simp

theorem hasAuth_eq (f : Json) : hasAuth f = declares (authOf f) := by
  simp [hasAuth, declares, authOf_ne_inherit f]

theorem importFolder_auth (f : Json) (inherit : Bool) :
    (importFolder f inherit).auth = passedOn (authOf f) inherit := by
  change (if hasAuth f then _ else _) = _
  rw [hasAuth_eq, passedOn]

section
variable {readers : Readers} {doc : Json} {root : ImportedAuth}

/-- The nodes that are built come from the requests below their folder. -/
theorem buildNodes_follows {down : Option String → Bool → Option (List ImportedItem)}
    {groups : List Json} {inherit : Bool} {auths : List AuthConfig}
    (hbelow : Below (format readers) root groups inherit auths)
    (hdown : ∀ f items, f ∈ foldersOf doc → Around idOf folderIdOf (foldersOf doc) none f groups →
      down (idOf f) (inherit || hasAuth f) = some items →
      Follows (format readers) root (Sits doc)
        (convertAuth (passedOn (authOf f) inherit) :: auths) items)
    (nodes : List Node)
    (hnodes : ∀ n ∈ nodes, Around idOf folderIdOf (foldersOf doc) none n.value groups ∧
      ((∃ f ∈ foldersOf doc, n = .folder f) ∨ ∃ r ∈ requestsOf doc, n = .request r))
    (items : List ImportedItem) (h : buildNodes readers down inherit nodes = some items) :
    Follows (format readers) root (Sits doc) auths items := by
  induction nodes generalizing items with
  | nil =>
    cases h
    exact .nil
  | cons n nodes ih =>
    rw [List.forall_mem_cons] at hnodes
    obtain ⟨⟨haround, hmem⟩, hnodes⟩ := hnodes
    rcases hmem with ⟨f, hf, rfl⟩ | ⟨r, hr, rfl⟩
    · obtain ⟨inner, hinner, h⟩ := Option.bind_eq_some_iff.mp h
      obtain ⟨rest, hrest, h⟩ := Option.bind_eq_some_iff.mp h
      cases h
      refine .folder ?_ (ih hnodes rest hrest)
      rw [importFolder_auth]
      exact hdown f inner hf haround hinner
    · obtain ⟨rest, hrest, h⟩ := Option.bind_eq_some_iff.mp h
      cases h
      exact .request hbelow ⟨hr, haround⟩ (ih hnodes rest hrest)

theorem buildChildren_follows (fuel : ℕ) (parent : Option String) (groups : List Json)
    (hplace : ∀ v, folderIdOf v = parent → Around idOf folderIdOf (foldersOf doc) none v groups)
    (inherit : Bool) (auths : List AuthConfig)
    (hbelow : Below (format readers) root groups inherit auths) (items : List ImportedItem)
    (h : buildChildren readers (foldersOf doc) (requestsOf doc) fuel parent inherit = some items) :
    Follows (format readers) root (Sits doc) auths items := by
  induction fuel generalizing parent groups inherit auths items with
  | zero => cases h
  | succ fuel ih =>
    refine buildNodes_follows hbelow (fun f inner hf haround hdown => ?_) _ (fun n hn => ?_) items h
    · rw [hasAuth_eq] at hdown
      exact ih (idOf f) (f :: groups) (fun v hv => .inside hf hv haround) _ _
        (hbelow.inside f) inner hdown
    · obtain ⟨hparent, hmem⟩ := mem_nodesOf hn
      exact ⟨hplace _ hparent, hmem⟩

end

/-- With an id of its own on every folder, the collection is built. -/
theorem collectionOf_returns (readers : Readers) {doc : Json}
    (h : (doc.get "yaakSchema").isSome = true) (hown : OwnIds (foldersOf doc)) {fuel : ℕ}
    (hfuel : (foldersOf doc).length < fuel) :
    ∃ parsed, collectionOf readers fuel doc = some (.ok parsed) := by
  obtain ⟨schema, hschema⟩ := Option.isSome_iff_exists.mp h
  obtain ⟨items, hitems⟩ := buildChildren_returns readers (requestsOf doc) hown fuel none
    (rootAuth doc ≠ .none) 0 .root (by omega)
  rw [collectionOf, hschema]
  simp only [hitems]
  exact ⟨_, rfl⟩

theorem declares_rootAuth (doc : Json) :
    declares (rootAuth doc) = decide (rootAuth doc ≠ .none) := by
  rw [rootAuth]
  cases workspaceOf doc with
  | none => rfl
  | some w => exact (hasAuth_eq w).symm

/-- The items of a collection are built from the requests of its document. -/
theorem collectionOf_follows {readers : Readers} {fuel : ℕ} {doc : Json}
    {parsed : ParsedCollection} (h : collectionOf readers fuel doc = some (.ok parsed)) :
    parsed.collection.rootAuth = rootAuth doc ∧
      Follows (format readers) (rootAuth doc) (Sits doc) [] parsed.collection.items := by
  rw [collectionOf] at h
  split at h
  · cases h
  · obtain ⟨items, hitems, h⟩ := Option.bind_eq_some_iff.mp h
    cases h
    refine ⟨rfl, buildChildren_follows fuel none [] (fun v hv => .top hv) _ [] ?_ items hitems⟩
    rw [← declares_rootAuth]
    exact .outermost

end Voleeo.Imports.Yaak
