import Voleeo.Imports.Commit
import Voleeo.Postman.ImportedAuth
import Voleeo.StableSort

/-!
# Auth that groups pass on

In other tools groups carry the auth of the requests in them. An importer decides
on the way down which requests inherit; the app looks for an active auth on the
way up, and a scheme that the importer does not know is no auth there. So a
request may find a scheme that its document hides from it.
-/
namespace Voleeo.Imports
open Postman
open Resolve (Chain)
open Send (effective firstActive activeOf firstActive_cons)

/-! ## Reading a document -/

/-- What the importers leave to libraries: the parsers of whole texts, the Unicode case mapping,
the values of numbers, and the text of a value. -/
structure Readers where
  parseValue : String → Except ImportError Json
  readJson : String → Option Json
  upper : String → String
  int : String → Option ℤ
  float : String → ℚ
  render : Json → String

def Readers.asInt (readers : Readers) : Json → Option ℤ
  | .number text => readers.int text
  | _ => none

def Readers.asFloat (readers : Readers) : Json → Option ℚ
  | .number text => some (readers.float text)
  | _ => none

def grantKind (grant : String) : OAuth2Grant :=
  if grant = "authorization_code" then .authorizationCode
  else if grant = "password" then .password
  else if grant = "implicit" then .implicit
  else .clientCredentials

def apiKeyAuth (key value : String) (inHeader : Bool) : ImportedAuth :=
  .apiKey (if key = "" then "X-API-Key" else key) value inHeader

/-- A method in capitals, `GET` where there is none. -/
def methodOf (readers : Readers) (method : String) : String :=
  if readers.upper method = "" then "GET" else readers.upper method

/-- The entries of an array with a name. -/
def namedEntries (v : Option Json) : List Json :=
  ((v.bind Json.asArray).getD []).filter fun e => e.strOr "name" "" ≠ ""

def namedParam (e : Json) : ImportedParam := ⟨e.strOr "name" "", e.strOr "value" "", !disabled e⟩

theorem sizeOf_perm {values values' : List Json} (h : values.Perm values') :
    sizeOf values = sizeOf values' := by
  induction h with
  | nil => rfl
  | cons v _ ih => simp only [List.cons.sizeOf_spec, ih]
  | swap v w _ =>
    simp only [List.cons.sizeOf_spec]
    omega
  | trans _ _ ih ih' => exact ih.trans ih'

/-- Sorting moves values only. -/
theorem sizeOf_sortBy {κ : Type} [LinearOrder κ] (key : Json → κ) (values : List Json) :
    sizeOf (sortBy key values) = sizeOf values :=
  sizeOf_perm (sortBy_perm key values)

/-! ## What a document says -/

/-- A scheme of its own, whether the importer knows it or not. -/
def declares (auth : ImportedAuth) : Bool := auth ≠ .none ∧ auth ≠ .inherit

/-- A scheme that the importer knows. -/
def isKnown : ImportedAuth → Bool
  | .none | .inherit | .unsupported _ => false
  | _ => true

/-- The first scheme of the groups around a request, from the inside outwards. -/
def nearestScheme (around : List ImportedAuth) : ImportedAuth := (around.find? declares).getD .none

/-- The auth that a request is to be sent with. -/
def documentAuth (own : Option ImportedAuth) (around : List ImportedAuth) : ImportedAuth :=
  match own with
  | none | some .inherit => nearestScheme around
  | some auth => auth

/-- The request has an entry of its own, or there is no known scheme around it where the nearest
one is unknown. -/
def Unshadowed (own : Option ImportedAuth) (around : List ImportedAuth) : Prop :=
  (∃ auth, own = some auth ∧ auth ≠ .inherit) ∨
    ∀ ty, nearestScheme around = .unsupported ty → ∀ auth ∈ around, isKnown auth = false

/-! ## What the app finds -/

/-- What the app finds for a request that inherits. -/
def foundAuth (around : List ImportedAuth) : AuthConfig :=
  (firstActive (around.map convertAuth)).getD .none

theorem isActive_convertAuth (auth : ImportedAuth) :
    (convertAuth auth).isActive = isKnown auth := by
  cases auth <;> rfl

theorem isKnown_of_declares {auth : ImportedAuth} (h : declares auth = true) :
    isKnown auth = true ∨ ∃ ty, auth = .unsupported ty := by
  cases auth with
  | none => cases h
  | inherit => cases h
  | unsupported ty => exact Or.inr ⟨ty, rfl⟩
  | _ => exact Or.inl rfl

theorem isKnown_eq_false {auth : ImportedAuth} (h : declares auth = false) :
    isKnown auth = false := by
  cases auth with
  | none => rfl
  | inherit => rfl
  | unsupported ty => rfl
  | _ => cases h

theorem foundAuth_cons (auth : ImportedAuth) (around : List ImportedAuth) :
    foundAuth (auth :: around) = if isKnown auth then convertAuth auth else foundAuth around := by
  rw [foundAuth, List.map_cons, firstActive_cons, isActive_convertAuth]
  split_ifs
  · rfl
  · rfl

theorem nearestScheme_cons (auth : ImportedAuth) (around : List ImportedAuth) :
    nearestScheme (auth :: around) = if declares auth then auth else nearestScheme around := by
  rw [nearestScheme, List.find?_cons]
  cases declares auth <;> rfl

/-- The app finds nothing exactly where no scheme is known. -/
theorem foundAuth_eq_none {around : List ImportedAuth} :
    foundAuth around = .none ↔ ∀ auth ∈ around, isKnown auth = false := by
  induction around with
  | nil => exact ⟨fun _ => by simp, fun _ => rfl⟩
  | cons auth around ih =>
    rw [foundAuth_cons, List.forall_mem_cons, ← ih]
    cases hknown : isKnown auth with
    | false => simp
    | true =>
      have hactive := isActive_convertAuth auth
      rw [hknown] at hactive
      simp only [if_pos, Bool.true_eq_false, false_and, iff_false]
      intro hnone
      rw [hnone] at hactive
      cases hactive

/-- A request that inherits gets the nearest scheme, unless an unknown one hides a known one. -/
theorem foundAuth_eq_iff (around : List ImportedAuth) :
    foundAuth around = convertAuth (nearestScheme around) ↔
      ∀ ty, nearestScheme around = .unsupported ty → ∀ auth ∈ around, isKnown auth = false := by
  induction around with
  | nil => exact ⟨fun _ _ h => (by cases h), fun _ => rfl⟩
  | cons auth around ih =>
    rw [nearestScheme_cons, List.forall_mem_cons]
    cases hdeclares : declares auth with
    | false =>
      have hunknown := isKnown_eq_false hdeclares
      simpa [foundAuth_cons, hunknown] using ih
    | true =>
      rw [if_pos rfl]
      rcases isKnown_of_declares hdeclares with hknown | ⟨ty, rfl⟩
      · rw [foundAuth_cons, if_pos hknown]
        refine ⟨fun _ ty hty => ?_, fun _ => rfl⟩
        rw [hty] at hknown
        cases hknown
      · have hunknown : isKnown (.unsupported ty) = false := rfl
        rw [foundAuth_cons, hunknown, if_neg Bool.false_ne_true]
        exact foundAuth_eq_none.trans ⟨fun h _ _ => ⟨rfl, h⟩, fun h => (h ty rfl).2⟩

/-! ## What an importer passes on -/

/-- A folder without a scheme inherits where something around it has one. -/
def passedOn (auth : ImportedAuth) (inherit : Bool) : ImportedAuth :=
  if declares auth then auth else inherited inherit

theorem convertAuth_inherited_isActive (inherit : Bool) :
    (convertAuth (inherited inherit)).isActive = false := by
  cases inherit <;> rfl

/-- Whatever else a folder gets, it passes on a known scheme only. -/
theorem firstActive_passedOn (auth : ImportedAuth) (inherit : Bool) (auths : List AuthConfig) :
    firstActive (convertAuth (passedOn auth inherit) :: auths) =
      firstActive (convertAuth auth :: auths) := by
  rw [firstActive_cons, firstActive_cons, isActive_convertAuth auth, passedOn]
  cases hdeclares : declares auth with
  | false =>
    rw [if_neg Bool.false_ne_true, convertAuth_inherited_isActive, isKnown_eq_false hdeclares]
    rfl
  | true => rw [if_pos rfl, isActive_convertAuth]

/-- How a format tells the auth of its groups and requests, and builds a request that may
inherit. -/
structure AuthFormat where
  group : Json → ImportedAuth
  own : Json → Option ImportedAuth
  build : Json → Bool → ImportedRequest
  build_auth : ∀ r inherit, (build r inherit).auth = (own r).getD (inherited inherit)

/-- There is a scheme on one of the groups or on the collection. -/
def AuthFormat.passes (format : AuthFormat) (root : ImportedAuth) (groups : List Json) : Bool :=
  groups.any (fun g => declares (format.group g)) || declares root

/-- The auths around a request, those of the groups first. -/
def AuthFormat.around (format : AuthFormat) (root : ImportedAuth) (groups : List Json) :
    List ImportedAuth :=
  groups.map format.group ++ [root]

/-- A flag and the auths of folders that belong to the groups. -/
structure Below (format : AuthFormat) (root : ImportedAuth) (groups : List Json) (inherit : Bool)
    (auths : List AuthConfig) : Prop where
  flag : inherit = format.passes root groups
  active : firstActive auths = firstActive (groups.map fun g => convertAuth (format.group g))

/-- A request as it is built from an entry of the document, below the folders that its groups
became. -/
structure BuiltFrom (format : AuthFormat) (root : ImportedAuth)
    (p : ImportedRequest × List AuthConfig) (q : Json × List Json) : Prop where
  built : p.1 = format.build q.1 (format.passes root q.2)
  active : firstActive p.2 = firstActive (q.2.map fun g => convertAuth (format.group g))

/-- The requests of the items come from entries that sit in the groups whose auths they see. -/
def Follows (format : AuthFormat) (root : ImportedAuth) (Sits : Json → List Json → Prop)
    (auths : List AuthConfig) (items : List ImportedItem) : Prop :=
  ∃ entries, (∀ q ∈ entries, Sits q.1 q.2) ∧
    List.Forall₂ (BuiltFrom format root) (itemsRequests auths items) entries

section
variable {format : AuthFormat} {root : ImportedAuth} {Sits : Json → List Json → Prop}
  {groups : List Json} {inherit : Bool} {auths : List AuthConfig} {items rest : List ImportedItem}

theorem Below.outermost : Below format root [] (declares root) [] := ⟨rfl, rfl⟩

theorem Below.inside (h : Below format root groups inherit auths) (g : Json) :
    Below format root (g :: groups) (inherit || declares (format.group g))
      (convertAuth (passedOn (format.group g) inherit) :: auths) := by
  constructor
  · rw [h.flag, AuthFormat.passes, AuthFormat.passes, List.any_cons, Bool.or_right_comm,
      Bool.or_comm (groups.any _)]
  · rw [firstActive_passedOn, List.map_cons, firstActive_cons, firstActive_cons, h.active]

theorem Follows.nil : Follows format root Sits auths [] := ⟨[], by simp, .nil⟩

theorem Follows.request {r : Json} (hbelow : Below format root groups inherit auths)
    (hsits : Sits r groups) (hrest : Follows format root Sits auths rest) :
    Follows format root Sits auths (.request (format.build r inherit) :: rest) := by
  obtain ⟨entries, hentries, hall⟩ := hrest
  refine ⟨(r, groups) :: entries, List.forall_mem_cons.mpr ⟨hsits, hentries⟩, ?_⟩
  rw [itemsRequests, itemRequests]
  exact .cons ⟨by rw [← hbelow.flag], hbelow.active⟩ hall

theorem Follows.folder {f : ImportedFolder}
    (hitems : Follows format root Sits (convertAuth f.auth :: auths) items)
    (hrest : Follows format root Sits auths rest) :
    Follows format root Sits auths (.folder f items :: rest) := by
  obtain ⟨entries, hentries, hall⟩ := hitems
  obtain ⟨entries', hentries', hall'⟩ := hrest
  refine ⟨entries ++ entries', fun q hq => ?_, ?_⟩
  · exact (List.mem_append.mp hq).elim (hentries q) (hentries' q)
  · rw [itemsRequests, itemRequests]
    exact List.rel_append hall hall'

/-- The flag and the folders of the app together find what the groups pass on. -/
theorem effective_inherited_eq (hactive : firstActive auths =
      firstActive (groups.map fun g => convertAuth (format.group g)))
    {own : ImportedAuth} (hown : own = .inherit ∨ own = inherited (format.passes root groups)) :
    effective (convertAuth own) auths (convertAuth root) =
      foundAuth (format.around root groups) := by
  have hup : effective (convertAuth .inherit) auths (convertAuth root) =
      foundAuth (format.around root groups) := by
    change ((firstActive auths).or (activeOf (convertAuth root))).getD .none = _
    rw [hactive, foundAuth, AuthFormat.around, List.map_append, firstActive, firstActive,
      List.find?_append, List.map_map, List.map_singleton, List.find?_singleton]
    rfl
  cases hflag : format.passes root groups with
  | true =>
    rw [hflag] at hown
    rw [hown.elim id id, hup]
  | false =>
    rcases hown with rfl | rfl
    · exact hup
    · rw [hflag]
      refine (foundAuth_eq_none.mpr fun auth hauth => isKnown_eq_false ?_).symm
      rw [AuthFormat.passes, Bool.or_eq_false_iff, List.any_eq_false] at hflag
      rcases List.mem_append.mp hauth with hauth | hauth
      · obtain ⟨g, hg, rfl⟩ := List.mem_map.mp hauth
        simpa using hflag.1 g hg
      · rw [List.mem_singleton.mp hauth]
        exact hflag.2

/-- The app uses what the document says, exactly when no unknown scheme hides a known one. -/
theorem BuiltFrom.effective_iff {p : ImportedRequest × List AuthConfig} {q : Json × List Json}
    (h : BuiltFrom format root p q) :
    effective (convertAuth p.1.auth) p.2 (convertAuth root) =
      convertAuth (documentAuth (format.own q.1) (format.around root q.2)) ↔
      Unshadowed (format.own q.1) (format.around root q.2) := by
  have hinherits : ∀ own : ImportedAuth, own = .inherit ∨ own = inherited (format.passes root q.2) →
      (effective (convertAuth own) p.2 (convertAuth root) =
        convertAuth (nearestScheme (format.around root q.2)) ↔
      ∀ ty, nearestScheme (format.around root q.2) = .unsupported ty →
        ∀ auth ∈ format.around root q.2, isKnown auth = false) := by
    intro own hown
    rw [effective_inherited_eq h.active hown]
    exact foundAuth_eq_iff _
  rw [h.built, format.build_auth, Unshadowed]
  cases hentry : format.own q.1 with
  | none => simpa [documentAuth] using hinherits _ (Or.inr rfl)
  | some auth =>
    by_cases hinherit : auth = .inherit
    · rw [hinherit]
      simpa [documentAuth] using hinherits _ (Or.inl rfl)
    · have hdoc : documentAuth (some auth) (format.around root q.2) = auth := by
        cases auth with
        | inherit => exact absurd rfl hinherit
        | _ => rfl
      rw [Option.getD_some, hdoc, effective_own hinherit]
      exact ⟨fun _ => Or.inl ⟨auth, rfl, hinherit⟩, fun _ => rfl⟩

end

/-- The groups around an entry of a flat document, from the inside outwards: each entry names the
key of the next group, and the last one that of the root. -/
inductive Around {κ : Type} (keyOf parentOf : Json → κ) (groups : List Json) (root : κ) :
    Json → List Json → Prop
  | top {v : Json} : parentOf v = root → Around keyOf parentOf groups root v []
  | inside {v g : Json} {above : List Json} : g ∈ groups → parentOf v = keyOf g →
      Around keyOf parentOf groups root g above → Around keyOf parentOf groups root v (g :: above)

/-! ## The plan of an import -/

/-- The workspace that was created for an import, with the auth of the collection. -/
def withRootAuth (rootAuth : AuthConfig) (created : Workspace) : Workspace :=
  if rootAuth = .none then created else { created with auth := rootAuth }

theorem withRootAuth_auth {rootAuth : AuthConfig} {created : Workspace}
    (hnew : created.auth = .none) : (withRootAuth rootAuth created).auth = rootAuth := by
  rw [withRootAuth]
  split_ifs with h
  · rw [hnew, h]
  · rfl

/-- What a request of the collection became. -/
def Converted (source : Source) (ws : String) (base : ℚ) (imported : ImportedRequest)
    (r : HttpRequest) : Prop :=
  ∃ parent plan, r = convertRequest source ws base imported parent plan

section
variable (source : Source) (ws : String) (base : ℚ)

mutual

theorem convertItem_converted (parent : Option String) :
    ∀ (item : ImportedItem) (plan : Plan) (auths : List AuthConfig),
      ∃ built, (convertItem source ws base parent item plan).requests = plan.requests ++ built ∧
        List.Forall₂ (fun p r => Converted source ws base p.1 r) (itemRequests auths item) built
  | .folder f items, plan, auths => by
      rw [convertItem, itemRequests]
      exact convertItems_converted _ items _ _
  | .request r, plan, auths => by
      rw [convertItem, itemRequests]
      exact ⟨_, rfl, .cons ⟨parent, plan, rfl⟩ .nil⟩

theorem convertItems_converted (parent : Option String) :
    ∀ (items : List ImportedItem) (plan : Plan) (auths : List AuthConfig),
      ∃ built, (convertItems source ws base parent items plan).requests = plan.requests ++ built ∧
        List.Forall₂ (fun p r => Converted source ws base p.1 r) (itemsRequests auths items) built
  | [], plan, auths => by
      rw [convertItems, itemsRequests]
      exact ⟨[], by simp, .nil⟩
  | item :: rest, plan, auths => by
      rw [convertItems, itemsRequests]
      obtain ⟨built, hbuilt, hall⟩ := convertItem_converted parent item plan auths
      obtain ⟨built', hbuilt', hall'⟩ := convertItems_converted parent rest
        (convertItem source ws base parent item plan) auths
      refine ⟨built ++ built', ?_, List.rel_append hall hall'⟩
      rw [hbuilt', hbuilt, List.append_assoc]

end

/-- A request of the plan, the entry that it came from, and when the app uses for it what the
document says. -/
def Sent (format : AuthFormat) (col : ImportedCollection) (created : Workspace)
    (q : Json × List Json) (r : HttpRequest) : Prop :=
  Converted source ws base (format.build q.1 (format.passes col.rootAuth q.2)) r ∧
    ((Send.resolveInheritedAuthAnnotated r.auth r.folderId (buildPlan source ws base col).folders
        (withRootAuth (buildPlan source ws base col).rootAuth created)).auth =
      convertAuth (documentAuth (format.own q.1) (format.around col.rootAuth q.2)) ↔
      Unshadowed (format.own q.1) (format.around col.rootAuth q.2))

variable {source ws base}

/-- Two lists that belong to a third one belong to each other. -/
theorem forall₂_of_shared {α β γ : Type} {R : α → β → Prop} {S T : α → γ → Prop} {U : β → γ → Prop}
    (hU : ∀ a b c, R a b → S a c → T a c → U b c) {as : List α} {bs : List β} {cs : List γ}
    (hR : List.Forall₂ R as bs) (hS : List.Forall₂ S as cs) (hT : List.Forall₂ T as cs) :
    List.Forall₂ U bs cs := by
  induction hR generalizing cs with
  | nil =>
    cases hS
    exact .nil
  | cons hab _ ih =>
    cases hS with
    | cons hac hS =>
      cases hT with
      | cons hac' hT => exact .cons (hU _ _ _ hab hac hac') (ih hS hT)

theorem Follows.sent (hinj : Function.Injective source.newId) (hid : ∀ n, source.newId n ≠ "")
    {format : AuthFormat} {Sits : Json → List Json → Prop} {col : ImportedCollection}
    (h : Follows format col.rootAuth Sits [] col.items) {created : Workspace}
    (hnew : created.auth = .none) :
    ∃ entries, (∀ q ∈ entries, Sits q.1 q.2) ∧
      List.Forall₂ (Sent source ws base format col created) entries
        (buildPlan source ws base col).requests := by
  obtain ⟨entries, hsits, hentries⟩ := h
  refine ⟨entries, hsits, ?_⟩
  obtain ⟨built, hbuilt, hconverted⟩ :=
    convertItems_converted source ws base none col.items ⟨[], [], 0, 0⟩ []
  have hconverts := @convertItems_converts source ws base hinj none [] col.items ⟨[], [], 0, 0⟩
    ⟨List.nodup_nil, by simp⟩ .root
  obtain ⟨built', hbuilt', hhangs⟩ := hconverts.built
  obtain rfl : built = built' := List.append_cancel_left (hbuilt.symm.trans hbuilt')
  change List.Forall₂ _ _ (convertItems source ws base none col.items _).requests
  rw [hbuilt, List.nil_append]
  have hnodup : ((buildPlan source ws base col).folders.map (·.id)).Nodup := hconverts.drawn.nodup
  have hnamed : ∀ f ∈ (buildPlan source ws base col).folders, f.id ≠ "" := by
    intro f hf
    obtain ⟨n, -, hn⟩ := hconverts.drawn.before f hf
    rw [hn]
    exact hid n
  refine forall₂_of_shared (fun p q r hfrom hconverted hhangs => ?_) hentries hconverted hhangs
  obtain ⟨hauth, chain, hchain, hauths⟩ := hhangs
  refine ⟨hfrom.built ▸ hconverted, ?_⟩
  rw [Send.resolveInheritedAuthAnnotated_auth hnodup hnamed hchain, hauths, hauth,
    withRootAuth_auth hnew]
  exact hfrom.effective_iff

end

end Voleeo.Imports
