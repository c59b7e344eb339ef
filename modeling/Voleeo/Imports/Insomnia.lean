import Voleeo.Imports.GroupAuth
import Voleeo.Loops

/-!
# Insomnia exports

Resources lie in one list, and each names its parent. Groups are entered once, so
that a cycle of parents ends. Auth on a group is for everything below it.
-/
namespace Voleeo.Imports.Insomnia
open Postman
open Resolve (splitOnce splitOnce_length opening closing)

/-! ## The importer -/

def typeOf (v : Json) : String := v.strOr "_type" ""
def idOf (v : Json) : String := v.strOr "_id" ""
def parentOf (v : Json) : String := v.strOr "parentId" ""

def sortKey (readers : Readers) (v : Json) : ℚ :=
  ((v.get "metaSortKey").bind readers.asFloat).getD 0

/-- `skip` counts the characters that the last replacement still covers. -/
def replaceFrom (pattern replacement : Text) : ℕ → Text → Text
  | _, [] => []
  | skip + 1, _ :: rest => replaceFrom pattern replacement skip rest
  | 0, c :: rest =>
    if pattern <+: c :: rest then
      replacement ++ replaceFrom pattern replacement (pattern.length - 1) rest
    else c :: replaceFrom pattern replacement 0 rest

def replace (text pattern replacement : String) : String :=
  String.ofList (replaceFrom pattern.toList replacement.toList 0 text.toList)

/-- The tags without the `_.` in front of their names. -/
def normalized (content : String) : String :=
  replace (replace content "\x7b\x7b _." "\x7b\x7b ") "\x7b\x7b_." "\x7b\x7b"

/-- A filter in one of the tags. -/
def hasTemplateFilter (text : Text) : Bool :=
  match _hopen : splitOnce opening text with
  | none => false
  | some (_, inside) =>
    match _hclose : splitOnce closing inside with
    | none => false
    | some (tag, rest) => decide ('|' ∈ tag) || hasTemplateFilter rest
termination_by text.length
decreasing_by
  exact (splitOnce_length (by decide) _hclose).trans (splitOnce_length (by decide) _hopen)

def toAuth (a : Json) : ImportedAuth :=
  if (a.get "disabled").bind Json.asBool = some true then .none
  else
    let s := fun key => a.strOr key ""
    let ty := a.strOr "type" "none"
    if ty = "none" ∨ ty = "" then .none
    else if ty = "bearer" then .bearer (s "token")
    else if ty = "basic" then .basic (s "username") (s "password")
    else if ty = "apikey" then
      apiKeyAuth (s "key") (s "value") ((a.get "addTo").bind Json.asStr ≠ some "queryParams")
    else if ty = "oauth2" then
      .oauth2 (grantKind (s "grantType")) (s "authorizationUrl") (s "accessTokenUrl")
        (s "clientId") (s "clientSecret") (s "scope")
    else .unsupported ty

def envData (readers : Readers) (v : Option Json) : List ImportedVariable :=
  ((v.bind Json.asObject).getD []).map fun e => ⟨e.1, e.2.asStr.getD (readers.render e.2)⟩

/-- The variables of the base environment, the last one that hangs on the root, and the other
environments. -/
def collectEnvironments (readers : Readers) (resources : List Json) (rootId : String) :
    List ImportedVariable × List ImportedEnvironment :=
  let envs := resources.filter fun r => typeOf r = "environment"
  (((envs.filter fun e => parentOf e = rootId).getLast?.map fun e =>
      envData readers (e.get "data")).getD [],
    (envs.filter fun e => parentOf e ≠ rootId).map fun e =>
      ⟨nameOf e, envData readers (e.get "data")⟩)

def headersOf (v : Json) : List ImportedParam := (namedEntries (v.get "headers")).map namedParam

/-- The parameters of a request, or else those in its URL. -/
def queryOf (r : Json) (url : String) : List ImportedParam :=
  let params := (namedEntries (r.get "parameters")).map namedParam
  if params.isEmpty then queryPairs url else params

def hasFileName (v : Json) : Bool := ((v.get "fileName").bind Json.asStr).any (· ≠ "")

def paramsToFields (v : Option Json) : List ImportedField :=
  ((v.bind Json.asArray).getD []).filterMap fun p =>
    ((p.get "name").bind Json.asStr).map fun name =>
      { name
        value := p.strOr "value" ""
        isFile := (p.get "type").bind Json.asStr = some "file" || hasFileName p
        enabled := !disabled p }

def rawKind (mime : String) : RawKind :=
  if "json".toList <:+: mime.toList then .json
  else if "xml".toList <:+: mime.toList then .xml
  else if "html".toList <:+: mime.toList then .html
  else .text

/-- The text of a GraphQL body is JSON with the query and its variables. -/
def graphQlBody (readers : Readers) (text : String) : ImportedBody :=
  let parsed := (readers.readJson text).getD .null
  .graphQl (parsed.strOr "query" "")
    ((parsed.get "variables").bind fun v =>
      match v with
      | .null => none
      | v => some (v.asStr.getD (readers.render v)))

def parseBody (readers : Readers) (body : Json) : Option ImportedBody :=
  let mime := body.strOr "mimeType" ""
  if "graphql".toList <:+: mime.toList then some (graphQlBody readers (body.strOr "text" ""))
  else if "x-www-form-urlencoded".toList <:+: mime.toList then
    some (.formUrlEncoded (paramsToFields (body.get "params")))
  else if "multipart/form-data".toList <:+: mime.toList then
    some (.multipart (paramsToFields (body.get "params")))
  else if hasFileName body then some .binary
  else if body.strOr "text" "" = "" ∧ mime = "" then none
  else some (.raw (rawKind mime) (body.strOr "text" ""))

/-- The entry of a request. An empty object, or what is no object, is no entry. -/
def ownEntry (r : Json) : Option ImportedAuth :=
  match r.get "authentication" with
  | some (.object (member :: members)) => some (toAuth (.object (member :: members)))
  | _ => none

def buildRequest (readers : Readers) (r : Json) (inherit : Bool) : ImportedRequest :=
  let url := r.strOr "url" ""
  { name := nameOf r
    method := methodOf readers (r.strOr "method" "")
    url := stripQuery url
    path := url
    query := queryOf r url
    headers := headersOf r
    body := (r.get "body").bind (parseBody readers)
    auth := (ownEntry r).getD (inherited inherit) }

def groupAuth (r : Json) : ImportedAuth := (r.get "authentication").elim .none toAuth

def hasAuth (r : Json) : Bool := groupAuth r ≠ .none

def importGroup (readers : Readers) (r : Json) (inherit : Bool) : ImportedFolder where
  name := nameOf r
  description := ((r.get "description").bind Json.asStr).filter (· ≠ "")
  auth := if hasAuth r then groupAuth r else inherited inherit
  headers := headersOf r
  «variables» := envData readers (r.get "environment")

def isGroup (r : Json) : Bool := typeOf r = "request_group"

/-- The children of a parent in their order. -/
def kidsOf (readers : Readers) (resources : List Json) (parentId : String) : List Json :=
  sortBy (sortKey readers)
    (resources.filter fun r => parentOf r = parentId ∧ (isGroup r ∨ typeOf r = "request"))

/-- What is built, and the groups that have been entered. -/
abbrev Built := List ImportedItem × List String

/-- Build the given children; `down` enters a group. -/
def buildKids (readers : Readers) (down : String → Bool → List String → Option Built)
    (inherit : Bool) : List Json → List String → Option Built
  | [], seen => some ([], seen)
  | r :: kids, seen =>
    if isGroup r then
      if idOf r ∈ seen then buildKids readers down inherit kids seen
      else do
        let (items, seen) ← down (idOf r) (inherit || hasAuth r) (idOf r :: seen)
        let (rest, seen) ← buildKids readers down inherit kids seen
        return (.folder (importGroup readers r inherit) items :: rest, seen)
    else do
      let (rest, seen) ← buildKids readers down inherit kids seen
      return (.request (buildRequest readers r inherit) :: rest, seen)

/-- `fuel` bounds how deep groups nest. -/
def buildChildren (readers : Readers) (resources : List Json) :
    ℕ → String → Bool → List String → Option Built
  | 0, _, _, _ => none
  | fuel + 1, parentId, inherit, seen =>
    buildKids readers (buildChildren readers resources fuel) inherit
      (kidsOf readers resources parentId) seen

/-- The id of the workspace. Without one, it is a parent that is not a resource itself. -/
def rootIdOf (resources : List Json) : String :=
  match (resources.find? fun r => typeOf r = "workspace").filter fun w => idOf w ≠ "" with
  | some w => idOf w
  | none =>
    let ids := (resources.map idOf).filter (· ≠ "")
    let parents := (resources.filter fun r => isGroup r ∨ typeOf r = "request").map parentOf
    (parents.find? fun p => p ≠ "" ∧ p ∉ ids).getD ""

def templateWarning : String :=
  "Some Insomnia template tags (\x7b% … %\x7d or `|` filters) aren't supported and were left " ++
    "as text — adjust them after import."

/-- The collection of a document that has been parsed; `content` is its text. -/
def collectionOf (readers : Readers) (fuel : ℕ) (content : String) (doc : Json) :
    Option (Except ImportError ParsedCollection) :=
  match (doc.get "resources").bind Json.asArray with
  | none => some (.error (.parse "missing `resources` array (not an Insomnia export)"))
  | some resources => do
      let rootId := rootIdOf resources
      let («variables», environments) := collectEnvironments readers resources rootId
      let (items, _) ← buildChildren readers resources fuel rootId false []
      return .ok
        { collection :=
            { name := (((resources.find? fun r => typeOf r = "workspace").bind fun w =>
                w.get "name").bind Json.asStr).getD "Imported API"
              version := some "4"
              «variables»
              rootAuth := .none
              items
              warnings :=
                if "\x7b%".toList <:+: content.toList ∨
                    hasTemplateFilter (normalized content).toList then [templateWarning]
                else [] }
          environments }

def parseInsomnia (readers : Readers) (fuel : ℕ) (content : String) :
    Option (Except ImportError ParsedCollection) :=
  match readers.parseValue (normalized content) with
  | .error e => some (.error e)
  | .ok doc => collectionOf readers fuel content doc

/-! ## The walk ends -/

theorem mem_of_mem_kidsOf {readers : Readers} {resources : List Json} {parentId : String} {r : Json}
    (h : r ∈ kidsOf readers resources parentId) :
    r ∈ resources ∧ parentOf r = parentId ∧ (isGroup r = true ∨ typeOf r = "request") := by
  rw [kidsOf, mem_sortBy, List.mem_filter, decide_eq_true_eq] at h
  exact h

/-- A walk that enters only groups that have not been seen returns, and has seen no less. -/
theorem buildKids_returns {readers : Readers} {resources : List Json} {inherit : Bool}
    {down : String → Bool → List String → Option Built} {fuel : ℕ}
    (hdown : ∀ parentId inherit seen, (unvisited idOf resources seen).length < fuel →
      ∃ built, down parentId inherit seen = some built ∧ seen ⊆ built.2)
    (kids : List Json) (hkids : ∀ r ∈ kids, r ∈ resources) (seen : List String)
    (hfuel : (unvisited idOf resources seen).length < fuel + 1) :
    ∃ built, buildKids readers down inherit kids seen = some built ∧ seen ⊆ built.2 := by
  induction kids generalizing seen with
  | nil => exact ⟨([], seen), rfl, List.Subset.refl _⟩
  | cons r kids ih =>
    rw [List.forall_mem_cons] at hkids
    rw [buildKids]
    split_ifs with hgroup hseen
    · exact ih hkids.2 seen hfuel
    · have hless := unvisited_lt hkids.1 rfl hseen
      obtain ⟨⟨items, seen'⟩, hitems, hsub⟩ :=
        hdown (idOf r) (inherit || hasAuth r) (idOf r :: seen) (by omega)
      have hgrown : seen ⊆ seen' := fun id hid => hsub (List.mem_cons_of_mem _ hid)
      have hleft : (unvisited idOf resources seen').length ≤
          (unvisited idOf resources seen).length := unvisited_length_le hgrown
      obtain ⟨⟨rest, seen''⟩, hrest, hsub'⟩ := ih hkids.2 seen' (by omega)
      refine ⟨(.folder (importGroup readers r inherit) items :: rest, seen''), ?_, ?_⟩
      · rw [hitems, Option.bind_eq_bind, Option.bind_some]
        simp only [hrest]
        rfl
      · exact fun id hid => hsub' (hgrown hid)
    · obtain ⟨⟨rest, seen'⟩, hrest, hsub⟩ := ih hkids.2 seen hfuel
      exact ⟨(.request (buildRequest readers r inherit) :: rest, seen'), by rw [hrest]; rfl, hsub⟩

theorem buildChildren_returns (readers : Readers) (resources : List Json) (fuel : ℕ)
    (parentId : String) (inherit : Bool) (seen : List String)
    (hfuel : (unvisited idOf resources seen).length < fuel) :
    ∃ built, buildChildren readers resources fuel parentId inherit seen = some built ∧
      seen ⊆ built.2 := by
  induction fuel generalizing parentId inherit seen with
  | zero => exact absurd hfuel (Nat.not_lt_zero _)
  | succ fuel ih =>
    exact buildKids_returns ih _ (fun r hr => (mem_of_mem_kidsOf hr).1) seen hfuel

/-! ## Where the requests sit -/

theorem buildRequest_auth (readers : Readers) (r : Json) (inherit : Bool) :
    (buildRequest readers r inherit).auth = (ownEntry r).getD (inherited inherit) := rfl

def format (readers : Readers) : AuthFormat where
  group := groupAuth
  own := ownEntry
  build := buildRequest readers
  build_auth := buildRequest_auth readers

def groupsOf (resources : List Json) : List Json := resources.filter fun r => isGroup r

/-- A request of the document, and the groups around it. -/
def Sits (resources : List Json) (r : Json) (groups : List Json) : Prop :=
  r ∈ resources ∧ typeOf r = "request" ∧
    Around idOf parentOf (groupsOf resources) (rootIdOf resources) r groups

theorem toAuth_ne_inherit (a : Json) : toAuth a ≠ .inherit := by
  rw [toAuth]
  dsimp only [apiKeyAuth]
  split_ifs <;> simp

theorem hasAuth_eq (r : Json) : hasAuth r = declares (groupAuth r) := by
  have hne : groupAuth r ≠ .inherit := by
    rw [groupAuth]
    cases r.get "authentication" with
    | none => simp
    | some a => exact toAuth_ne_inherit a
  simp [hasAuth, declares, hne]

theorem importGroup_auth (readers : Readers) (r : Json) (inherit : Bool) :
    (importGroup readers r inherit).auth = passedOn (groupAuth r) inherit := by
  change (if hasAuth r then _ else _) = _
  rw [hasAuth_eq, passedOn]

section
variable {readers : Readers} {resources : List Json} {root : ImportedAuth}

/-- The children that are built come from the requests below the groups of their parent. -/
theorem buildKids_follows {down : String → Bool → List String → Option Built}
    {groups : List Json} {inherit : Bool} {auths : List AuthConfig}
    (hbelow : Below (format readers) root groups inherit auths)
    (hdown : ∀ g seen built, g ∈ groupsOf resources →
      Around idOf parentOf (groupsOf resources) (rootIdOf resources) g groups →
      down (idOf g) (inherit || hasAuth g) seen = some built →
      Follows (format readers) root (Sits resources)
        (convertAuth (passedOn (groupAuth g) inherit) :: auths) built.1)
    (kids : List Json)
    (hkids : ∀ r ∈ kids, r ∈ resources ∧ (isGroup r = true ∨ typeOf r = "request") ∧
      Around idOf parentOf (groupsOf resources) (rootIdOf resources) r groups)
    (seen : List String) (built : Built)
    (h : buildKids readers down inherit kids seen = some built) :
    Follows (format readers) root (Sits resources) auths built.1 := by
  induction kids generalizing seen built with
  | nil =>
    cases h
    exact .nil
  | cons r kids ih =>
    rw [List.forall_mem_cons] at hkids
    obtain ⟨⟨hmem, htype, haround⟩, hkids⟩ := hkids
    rw [buildKids] at h
    split_ifs at h with hgroup hseen
    · exact ih hkids seen built h
    · obtain ⟨⟨items, seen'⟩, hitems, h⟩ := Option.bind_eq_some_iff.mp h
      obtain ⟨⟨rest, seen''⟩, hrest, h⟩ := Option.bind_eq_some_iff.mp h
      cases h
      refine .folder ?_ (ih hkids seen' _ hrest)
      rw [importGroup_auth]
      exact hdown r _ _ (List.mem_filter.mpr ⟨hmem, hgroup⟩) haround hitems
    · obtain ⟨⟨rest, seen'⟩, hrest, h⟩ := Option.bind_eq_some_iff.mp h
      cases h
      exact .request hbelow ⟨hmem, htype.resolve_left hgroup, haround⟩ (ih hkids seen _ hrest)

theorem buildChildren_follows (fuel : ℕ) (parentId : String) (groups : List Json)
    (hplace : ∀ r, parentOf r = parentId →
      Around idOf parentOf (groupsOf resources) (rootIdOf resources) r groups)
    (inherit : Bool) (auths : List AuthConfig)
    (hbelow : Below (format readers) root groups inherit auths) (seen : List String)
    (built : Built) (h : buildChildren readers resources fuel parentId inherit seen = some built) :
    Follows (format readers) root (Sits resources) auths built.1 := by
  induction fuel generalizing parentId groups inherit auths seen built with
  | zero => cases h
  | succ fuel ih =>
    refine buildKids_follows hbelow (fun g seen built hg haround hdown => ?_) _
      (fun r hr => ?_) seen built h
    · rw [hasAuth_eq] at hdown
      exact ih (idOf g) (g :: groups) (fun r hr => .inside hg hr haround) _ _
        (hbelow.inside g) seen built hdown
    · obtain ⟨hmem, hparent, htype⟩ := mem_of_mem_kidsOf hr
      exact ⟨hmem, htype, hplace r hparent⟩

end

/-- A walk as deep as there are resources builds the collection. -/
theorem collectionOf_returns (readers : Readers) (content : String) {doc : Json}
    {resources : List Json} (h : (doc.get "resources").bind Json.asArray = some resources)
    {fuel : ℕ} (hfuel : resources.length < fuel) :
    ∃ parsed, collectionOf readers fuel content doc = some (.ok parsed) := by
  have hunseen : (unvisited idOf resources []).length ≤ resources.length := List.length_filter_le ..
  obtain ⟨built, hbuilt, -⟩ := buildChildren_returns readers resources fuel (rootIdOf resources)
    false [] (by omega)
  rw [collectionOf, h]
  simp only [hbuilt]
  exact ⟨_, rfl⟩

/-- The items of a collection are built from the requests of its document. -/
theorem collectionOf_follows {readers : Readers} {fuel : ℕ} {content : String} {doc : Json}
    {parsed : ParsedCollection} (h : collectionOf readers fuel content doc = some (.ok parsed)) :
    ∃ resources, (doc.get "resources").bind Json.asArray = some resources ∧
      parsed.collection.rootAuth = .none ∧
      Follows (format readers) .none (Sits resources) [] parsed.collection.items := by
  rw [collectionOf] at h
  split at h
  · cases h
  · rename_i resources hresources
    refine ⟨resources, hresources, ?_⟩
    obtain ⟨built, hbuilt, h⟩ := Option.bind_eq_some_iff.mp h
    cases h
    exact ⟨rfl, buildChildren_follows fuel _ [] (fun r hr => .top hr) false [] .outermost [] built
      hbuilt⟩

end Voleeo.Imports.Insomnia
