import Voleeo.Postman.Convert
import Voleeo.Send.Auth

/-!
# Auth after an import

Postman uses the auth object of a request, or the nearest one around it. By the
collection alone the import decides for each request whether it inherits, and the
app then skips folders whose auth is switched off.
-/
namespace Voleeo.Postman
open Resolve (Chain)
open Send (effective firstActive activeOf firstActive_cons)

/-! ## Postman -/

/-- The requests of the items, each with the auth members of the folders around it, nearest
first. -/
def requestsOf (above : List (Option Json)) : List Json → List (Json × List (Option Json))
  | [] => []
  | it :: rest =>
    match _h : (it.get "item").bind Json.asArray with
    | some children => requestsOf (it.get "auth" :: above) children ++ requestsOf above rest
    | none =>
      match it.get "request" with
      | some req => (req, above) :: requestsOf above rest
      | none => requestsOf above rest
termination_by items => sizeOf items
decreasing_by
  all_goals simp only [List.cons.sizeOf_spec]
  · obtain ⟨v, hv, hchildren⟩ := Option.bind_eq_some_iff.mp _h
    have hget := Json.sizeOf_get_lt hv
    have harray := Json.sizeOf_asArray_lt hchildren
    omega
  all_goals omega

/-- The first auth object, from the request outwards. -/
def nearest (auths : List (Option Json)) : Option Json := auths.findSome? id

/-- The auth of an object; no object is no auth. -/
def authOf (auth : Option Json) : ImportedAuth := auth.elim .none toAuth

/-- There is an auth object, and it is not `noauth`. -/
def IsScheme (auth : Option Json) : Prop := authOf auth ≠ .none

/-- The type of the auth object is one that the importer knows. -/
def Supported (auth : Option Json) : Prop := ∀ ty, authOf auth ≠ .unsupported ty

/-! ## The items of the importer -/

mutual

def itemRequests (above : List AuthConfig) : ImportedItem → List (ImportedRequest × List AuthConfig)
  | .folder f items => itemsRequests (convertAuth f.auth :: above) items
  | .request r => [(r, above)]

/-- The requests of the items, each with the auths of the folders around it. -/
def itemsRequests (above : List AuthConfig) :
    List ImportedItem → List (ImportedRequest × List AuthConfig)
  | [] => []
  | item :: rest => itemRequests above item ++ itemsRequests above rest

end

/-- What a folder's auth member becomes. -/
def folderAuthOf (auth : Option Json) : AuthConfig := convertAuth (auth.elim .inherit toAuth)

def ownAuth (hasGlobal : Bool) (req : Json) : ImportedAuth :=
  (req.get "auth").elim (inherited hasGlobal) toAuth

theorem buildRequest_auth (upper : String → String) (name : String) (req : Json)
    (hasGlobal : Bool) :
    (buildRequest upper name req hasGlobal).auth = ownAuth hasGlobal req := by
  rw [buildRequest, ownAuth]
  cases req with
  | string s => rfl
  | _ => rfl

section
variable {upper : String → String} {global : Bool} {it : Json} {rest children : List Json}
  {above : List (Option Json)} {req : Json}

theorem buildItems_folder (h : (it.get "item").bind Json.asArray = some children) :
    (buildItems upper global (it :: rest)).1 =
      .folder (importFolder it) (buildItems upper global children).1 ::
        (buildItems upper global rest).1 := by
  rw [buildItems]
  split
  · rename_i children' h'
    rw [h] at h'
    cases h'
    rfl
  · rename_i h'
    rw [h] at h'
    cases h'

theorem buildItems_leaf (h : (it.get "item").bind Json.asArray = none) :
    (buildItems upper global (it :: rest)).1 =
      ((it.get "request").map fun req =>
        ImportedItem.request (buildRequest upper (nameOf it) req global)).toList ++
        (buildItems upper global rest).1 := by
  rw [buildItems]
  split
  · rename_i h'
    rw [h] at h'
    cases h'
  · cases it.get "request" <;> rfl

theorem requestsOf_folder (h : (it.get "item").bind Json.asArray = some children) :
    requestsOf above (it :: rest) =
      requestsOf (it.get "auth" :: above) children ++ requestsOf above rest := by
  rw [requestsOf]
  split
  · rename_i children' h'
    rw [h] at h'
    cases h'
    rfl
  · rename_i h'
    rw [h] at h'
    cases h'

theorem requestsOf_leaf (h : (it.get "item").bind Json.asArray = none) :
    requestsOf above (it :: rest) =
      ((it.get "request").map fun req => (req, above)).toList ++ requestsOf above rest := by
  rw [requestsOf]
  split
  · rename_i h'
    rw [h] at h'
    cases h'
  · cases it.get "request" <;> rfl

theorem itemsRequests_append (auths : List AuthConfig) (items items' : List ImportedItem) :
    itemsRequests auths (items ++ items') =
      itemsRequests auths items ++ itemsRequests auths items' := by
  induction items with
  | nil => rfl
  | cons item items ih => rw [List.cons_append, itemsRequests, itemsRequests, ih, List.append_assoc]

end

/-- The importer sees the requests that Postman sees, in the same folders. -/
theorem itemsRequests_buildItems (upper : String → String) (global : Bool) (items : List Json)
    (above : List (Option Json)) :
    (itemsRequests (above.map folderAuthOf) (buildItems upper global items).1).map
        (fun p => (p.1.auth, p.2)) =
      (requestsOf above items).map fun p => (ownAuth global p.1, p.2.map folderAuthOf) := by
  have hleaf : ∀ above it rest, (it.get "item").bind Json.asArray = none →
      (itemsRequests (above.map folderAuthOf) (buildItems upper global rest).1).map
          (fun p => (p.1.auth, p.2)) =
        (requestsOf above rest).map (fun p => (ownAuth global p.1, p.2.map folderAuthOf)) →
      (itemsRequests (above.map folderAuthOf) (buildItems upper global (it :: rest)).1).map
          (fun p => (p.1.auth, p.2)) =
        (requestsOf above (it :: rest)).map
          fun p => (ownAuth global p.1, p.2.map folderAuthOf) := by
    intro above it rest h ih
    rw [buildItems_leaf h, requestsOf_leaf h, itemsRequests_append, List.map_append, ih,
      List.map_append]
    congr 1
    cases it.get "request" with
    | none => rfl
    | some req => simp [itemsRequests, itemRequests, buildRequest_auth]
  induction above, items using requestsOf.induct with
  | case1 above => simp [buildItems, requestsOf, itemsRequests]
  | case2 above it rest children h ihc ihr =>
    rw [buildItems_folder h, requestsOf_folder h, itemsRequests, itemRequests, List.map_append,
      List.map_append, ← ihc, ← ihr]
    rfl
  | case3 above it rest h req hreq ih => exact hleaf above it rest h ih
  | case4 above it rest h hreq ih => exact hleaf above it rest h ih

/-! ## The plan -/

/-- The folders have different ids, all of them drawn before. -/
structure Drawn (source : Source) (plan : Plan) : Prop where
  nodup : (plan.folders.map (·.id)).Nodup
  before : ∀ f ∈ plan.folders, ∃ n < plan.drawn, f.id = source.newId n

/-- The request that an item became, in folders with the auths of the items around it. -/
def Hangs (folders : List ApiFolder) (p : ImportedRequest × List AuthConfig) (r : HttpRequest) :
    Prop :=
  r.auth = convertAuth p.1.auth ∧
    ∃ chain, Chain folders r.folderId chain ∧ chain.map (·.auth) = p.2

theorem Hangs.mono {folders folders' : List ApiFolder} {p : ImportedRequest × List AuthConfig}
    {r : HttpRequest} (h : Hangs folders p r) (hsub : ∀ f ∈ folders, f ∈ folders') :
    Hangs folders' p r := by
  obtain ⟨hauth, chain, hchain, hauths⟩ := h
  exact ⟨hauth, chain, hchain.mono hsub, hauths⟩

/-- The plan has grown by the given requests. -/
structure Converts (source : Source) (plan plan' : Plan)
    (requests : List (ImportedRequest × List AuthConfig)) : Prop where
  drawn : Drawn source plan'
  folders : ∀ f ∈ plan.folders, f ∈ plan'.folders
  built : ∃ built, plan'.requests = plan.requests ++ built ∧
    List.Forall₂ (Hangs plan'.folders) requests built

variable {source : Source} {plan plan' plan'' : Plan} {ws : String} {base : ℚ}

theorem Converts.refl (h : Drawn source plan) : Converts source plan plan [] :=
  ⟨h, fun _ hf => hf, [], by simp, .nil⟩

theorem Converts.trans {requests requests' : List (ImportedRequest × List AuthConfig)}
    (h : Converts source plan plan' requests) (h' : Converts source plan' plan'' requests') :
    Converts source plan plan'' (requests ++ requests') := by
  obtain ⟨built, hbuilt, hhangs⟩ := h.built
  obtain ⟨built', hbuilt', hhangs'⟩ := h'.built
  refine ⟨h'.drawn, fun f hf => h'.folders f (h.folders f hf), built ++ built', ?_, ?_⟩
  · rw [hbuilt', hbuilt, List.append_assoc]
  · exact List.rel_append (hhangs.imp fun p r hp => hp.mono h'.folders) hhangs'

mutual

theorem convertItem_converts (hinj : Function.Injective source.newId) (parent : Option String)
    {chain : List ApiFolder} :
    ∀ (item : ImportedItem) (plan : Plan), Drawn source plan → Chain plan.folders parent chain →
      Converts source plan (convertItem source ws base parent item plan)
        (itemRequests (chain.map (·.auth)) item)
  | .folder f items, plan, hdrawn, hchain => by
      have hnew : ∀ g ∈ plan.folders, g.id ≠ source.newId plan.drawn := by
        intro g hg heq
        obtain ⟨n, hn, hid⟩ := hdrawn.before g hg
        exact absurd (hinj (hid.symm.trans heq)) (by omega)
      rw [convertItem, itemRequests]
      have hstep : Drawn source
          { plan with
            folders := plan.folders ++ [convertFolder source ws base f parent plan]
            counter := plan.counter + 1
            drawn := plan.drawn + 1 + f.headers.length } := by
        constructor
        · rw [List.map_append, List.map_singleton, List.nodup_append]
          refine ⟨hdrawn.nodup, by simp, ?_⟩
          intro id hid id' hid'
          obtain ⟨g, hg, rfl⟩ := List.mem_map.mp hid
          rw [List.mem_singleton.mp hid']
          exact hnew g hg
        · intro g hg
          rcases List.mem_append.mp hg with hg | hg
          · obtain ⟨n, hn, hid⟩ := hdrawn.before g hg
            exact ⟨n, by simp only; omega, hid⟩
          · rw [List.mem_singleton.mp hg]
            exact ⟨plan.drawn, by simp only; omega, rfl⟩
      have hlink := Chain.link (f := convertFolder source ws base f parent plan)
        (List.mem_append_right plan.folders (List.mem_singleton_self _))
        (hchain.mono fun g hg => List.mem_append_left _ hg)
      have hinner := convertItems_converts hinj _ items _ hstep hlink
      exact ⟨hinner.drawn, fun g hg => hinner.folders g (List.mem_append_left _ hg), hinner.built⟩
  | .request r, plan, hdrawn, hchain => by
      rw [convertItem, itemRequests]
      refine ⟨⟨hdrawn.nodup, fun g hg => ?_⟩, fun _ hf => hf, _, rfl, ?_⟩
      · obtain ⟨n, hn, hid⟩ := hdrawn.before g hg
        exact ⟨n, by simp only; omega, hid⟩
      · exact .cons ⟨rfl, chain, hchain, rfl⟩ .nil

/-- Every request is built, below folders that carry the auths of its items. -/
theorem convertItems_converts (hinj : Function.Injective source.newId) (parent : Option String)
    {chain : List ApiFolder} :
    ∀ (items : List ImportedItem) (plan : Plan), Drawn source plan →
      Chain plan.folders parent chain →
      Converts source plan (convertItems source ws base parent items plan)
        (itemsRequests (chain.map (·.auth)) items)
  | [], plan, hdrawn, hchain => by
      rw [convertItems, itemsRequests]
      exact .refl hdrawn
  | item :: rest, plan, hdrawn, hchain => by
      have hitem := convertItem_converts hinj parent item plan hdrawn hchain
      rw [convertItems, itemsRequests]
      exact hitem.trans (convertItems_converts hinj parent rest _ hitem.drawn
        (hchain.mono hitem.folders))

end

/-! ## One request -/

theorem convertAuth_isActive {auth : ImportedAuth} (hnone : auth ≠ .none)
    (hinherit : auth ≠ .inherit)
    (hunsupported : ∀ ty, auth ≠ .unsupported ty) : (convertAuth auth).isActive = true := by
  cases auth with
  | none => exact absurd rfl hnone
  | inherit => exact absurd rfl hinherit
  | unsupported ty => exact absurd rfl (hunsupported ty)
  | _ => rfl

theorem toAuth_ne_inherit (auth : Json) : toAuth auth ≠ .inherit := by
  rw [toAuth]
  dsimp only
  split_ifs <;> simp

theorem authOf_ne_inherit (auth : Option Json) : authOf auth ≠ .inherit := by
  cases auth with
  | none => simp [authOf]
  | some a => exact toAuth_ne_inherit a

/-- A scheme is active in the app, and no scheme is no auth. -/
theorem isActive_of_isScheme {auth : Option Json} (h : IsScheme auth) (hs : Supported auth) :
    (convertAuth (authOf auth)).isActive = true :=
  convertAuth_isActive h (authOf_ne_inherit auth) hs

theorem isActive_folderAuthOf {auth : Option Json} (hs : Supported auth) :
    (folderAuthOf auth).isActive = true ↔ IsScheme auth := by
  cases auth with
  | none => simp [folderAuthOf, convertAuth, AuthConfig.isActive, IsScheme, authOf]
  | some a =>
    constructor
    · intro h hnone
      rw [folderAuthOf, Option.elim_some, show toAuth a = .none from hnone] at h
      cases h
    · exact fun h => isActive_of_isScheme h hs

/-- What the app finds on the way up from a request that inherits. -/
def inheritedAuth (above : List (Option Json)) (root : Option Json) : AuthConfig :=
  ((firstActive (above.map folderAuthOf)).or (activeOf (convertAuth (authOf root)))).getD .none

variable {above : List (Option Json)} {root : Option Json}

theorem inheritedAuth_cons (auth : Option Json) :
    inheritedAuth (auth :: above) root =
      if (folderAuthOf auth).isActive then folderAuthOf auth else inheritedAuth above root := by
  rw [inheritedAuth, List.map_cons, firstActive_cons]
  split_ifs
  · rfl
  · rfl

variable (above) in
theorem inheritedAuth_isActive (hroot : (convertAuth (authOf root)).isActive = true) :
    (inheritedAuth above root).isActive = true := by
  induction above with
  | nil => simp [inheritedAuth, firstActive, activeOf, hroot]
  | cons auth above ih =>
    rw [inheritedAuth_cons]
    split_ifs with h
    · exact h
    · exact ih

/-- If Postman finds a scheme on the way up, the app finds the same one. -/
theorem inheritedAuth_of_scheme (hs : ∀ a ∈ above, Supported a)
    (hroot : (convertAuth (authOf root)).isActive = true)
    (h : IsScheme (nearest (above ++ [root]))) :
    inheritedAuth above root = convertAuth (authOf (nearest (above ++ [root]))) := by
  induction above with
  | nil =>
    cases root with
    | none => exact absurd rfl h
    | some a => simp [inheritedAuth, firstActive, activeOf, hroot, nearest]
  | cons auth above ih =>
    rw [List.forall_mem_cons] at hs
    rw [inheritedAuth_cons]
    cases auth with
    | none => exact ih hs.2 h
    | some a => rw [if_pos ((isActive_folderAuthOf hs.1).mpr h), folderAuthOf]; rfl

theorem isScheme_hasGlobal {doc : Json} : hasGlobal doc = true ↔ IsScheme (doc.get "auth") := by
  rw [hasGlobal, decide_eq_true_eq]
  rfl

theorem isEnabled_convertAuth (auth : ImportedAuth) : (convertAuth auth).isEnabled = true := by
  cases auth <;> rfl

theorem effective_own {auth : ImportedAuth} (h : auth ≠ .inherit) (auths : List AuthConfig)
    (workspace : AuthConfig) : effective (convertAuth auth) auths workspace = convertAuth auth := by
  have henabled := isEnabled_convertAuth auth
  cases auth with
  | inherit => exact absurd rfl h
  | _ => rfl

/-- For a request without an auth object, the app agrees with Postman exactly when Postman finds
a scheme where the collection has one, and none where it has none. -/
theorem effective_inherited (doc : Json) (hs : ∀ a ∈ above, Supported a)
    (hroot : Supported (doc.get "auth")) :
    effective (convertAuth (inherited (hasGlobal doc))) (above.map folderAuthOf)
        (convertAuth (authOf (doc.get "auth"))) =
      convertAuth (authOf (nearest (above ++ [doc.get "auth"]))) ↔
    (IsScheme (nearest (above ++ [doc.get "auth"])) ↔ IsScheme (doc.get "auth")) := by
  have hnearest : Supported (nearest (above ++ [doc.get "auth"])) := by
    cases hn : nearest (above ++ [doc.get "auth"]) with
    | none => simp [Supported, authOf]
    | some a =>
      obtain ⟨x, hx, rfl⟩ := List.exists_of_findSome?_eq_some hn
      rcases List.mem_append.mp hx with hx | hx
      · exact hs _ hx
      · rwa [List.mem_singleton.mp hx]
  by_cases hscheme : IsScheme (doc.get "auth")
  · have hactive := isActive_of_isScheme hscheme hroot
    rw [isScheme_hasGlobal.mpr hscheme]
    change inheritedAuth above (doc.get "auth") = _ ↔ _
    simp only [hscheme, iff_true]
    constructor
    · intro heq hnone
      have := inheritedAuth_isActive above hactive
      rw [heq, show authOf _ = .none from hnone] at this
      cases this
    · exact inheritedAuth_of_scheme hs hactive
  · have hglobal : hasGlobal doc = false := by
      rw [← Bool.not_eq_true, isScheme_hasGlobal]
      exact hscheme
    rw [hglobal]
    change AuthConfig.none = _ ↔ _
    simp only [hscheme, iff_false]
    constructor
    · intro heq hsome
      have := isActive_of_isScheme hsome hnearest
      rw [← heq] at this
      cases this
    · intro hnone
      rw [show authOf _ = .none from not_not.mp hnone]
      rfl

/-! ## A whole collection -/

/-- The requests of a collection, each with the folders around it. -/
def docRequests (doc : Json) : List (Json × List (Option Json)) :=
  requestsOf [] (((doc.get "item").bind Json.asArray).getD [])

/-- The auth object that Postman uses. -/
def postmanAuth (doc : Json) (p : Json × List (Option Json)) : Option Json :=
  nearest (p.1.get "auth" :: p.2 ++ [doc.get "auth"])

/-- The request has an auth object, or Postman finds a scheme around it if and only if the
collection has one. -/
def Agrees (doc : Json) (p : Json × List (Option Json)) : Prop :=
  (p.1.get "auth").isSome = true ∨
    (IsScheme (nearest (p.2 ++ [doc.get "auth"])) ↔ IsScheme (doc.get "auth"))

/-- No auth object has a type that the importer does not know. -/
structure KnownTypes (doc : Json) : Prop where
  root : Supported (doc.get "auth")
  folders : ∀ p ∈ docRequests doc, ∀ a ∈ p.2, Supported a

/-- Every request of the document is in the plan, below folders with the auths of its folders. -/
structure Arrives (source : Source) (doc : Json) (plan : ConvertedPlan) : Prop where
  nodup : (plan.folders.map (·.id)).Nodup
  drawn : ∀ f ∈ plan.folders, ∃ n, f.id = source.newId n
  rootAuth : plan.rootAuth = convertAuth (authOf (doc.get "auth"))
  requests : List.Forall₂ (fun p r => r.auth = convertAuth (ownAuth (hasGlobal doc) p.1) ∧
    ∃ chain, Chain plan.folders r.folderId chain ∧ chain.map (·.auth) = p.2.map folderAuthOf)
    (docRequests doc) plan.requests

theorem buildPlan_arrives (hinj : Function.Injective source.newId) (upper : String → String)
    (ws : String) (base : ℚ) {doc : Json} {col : ImportedCollection}
    (h : collectionOf upper doc = .ok col) :
    Arrives source doc (buildPlan source ws base col) := by
  rw [collectionOf] at h
  cases hitem : doc.get "item" with
  | none =>
    rw [hitem] at h
    cases h
  | some item =>
    rw [hitem] at h
    cases h
    have hempty : Drawn source ⟨[], [], 0, 0⟩ := ⟨List.nodup_nil, by simp⟩
    have hall := @convertItems_converts source ws base hinj none []
      (buildItems upper (hasGlobal doc) (item.asArray.getD [])).1 _ hempty .root
    obtain ⟨built, hbuilt, hhangs⟩ := hall.built
    rw [List.nil_append] at hbuilt
    refine ⟨hall.drawn.nodup, fun f hf => ?_, rfl, ?_⟩
    · obtain ⟨n, -, hid⟩ := hall.drawn.before f hf
      exact ⟨n, hid⟩
    have hsame := itemsRequests_buildItems upper (hasGlobal doc) (item.asArray.getD []) []
    rw [List.map_nil] at hsame hhangs
    have hdoc : docRequests doc = requestsOf [] (item.asArray.getD []) := by
      rw [docRequests, hitem]
      rfl
    rw [hdoc]
    change List.Forall₂ _ _ (convertItems source ws base none _ _).requests
    rw [hbuilt]
    have hpairs := List.forall₂_map_left_iff
      (f := fun p : ImportedRequest × List AuthConfig => (p.1.auth, p.2))
      (R := fun (p : ImportedAuth × List AuthConfig) (r : HttpRequest) =>
        r.auth = convertAuth p.1 ∧ ∃ chain, Chain _ r.folderId chain ∧
          chain.map (·.auth) = p.2) |>.mpr hhangs
    rw [hsame, List.forall₂_map_left_iff] at hpairs
    exact hpairs

theorem effective_iff_agrees {doc : Json} (hknown : KnownTypes doc)
    {p : Json × List (Option Json)} (hp : p ∈ docRequests doc) :
    effective (convertAuth (ownAuth (hasGlobal doc) p.1)) (p.2.map folderAuthOf)
        (convertAuth (authOf (doc.get "auth"))) = convertAuth (authOf (postmanAuth doc p)) ↔
      Agrees doc p := by
  rw [ownAuth, postmanAuth, Agrees]
  cases hown : p.1.get "auth" with
  | none =>
    rw [Option.elim_none, Option.isSome_none]
    simp only [Bool.false_eq_true, false_or]
    exact effective_inherited doc (hknown.folders p hp) hknown.root
  | some a =>
    rw [Option.elim_some, effective_own (toAuth_ne_inherit a)]
    simp [nearest, authOf]

theorem effective_arrives (hid : ∀ n, source.newId n ≠ "") {doc : Json} {plan : ConvertedPlan}
    (h : Arrives source doc plan) (hknown : KnownTypes doc) {workspace : Workspace}
    (hworkspace : workspace.auth = plan.rootAuth) :
    List.Forall₂ (fun p r =>
      (Send.resolveInheritedAuthAnnotated r.auth r.folderId plan.folders workspace).auth =
        convertAuth (authOf (postmanAuth doc p)) ↔ Agrees doc p)
      (docRequests doc) plan.requests := by
  have hnamed : ∀ f ∈ plan.folders, f.id ≠ "" := by
    intro f hf
    obtain ⟨n, hn⟩ := h.drawn f hf
    rw [hn]
    exact hid n
  have hall := (List.forall₂_and_left _ _).mpr ⟨fun p hp => hp, h.requests⟩
  refine hall.imp fun p r ⟨hp, hauth, chain, hchain, hauths⟩ => ?_
  rw [Send.resolveInheritedAuthAnnotated_auth h.nodup hnamed hchain, hauths, hworkspace,
    h.rootAuth, hauth]
  exact effective_iff_agrees hknown hp

theorem exists_collectionOf (upper : String → String) {doc : Json}
    (h : (doc.get "item").isSome = true) : ∃ col, collectionOf upper doc = .ok col := by
  obtain ⟨item, hitem⟩ := Option.isSome_iff_exists.mp h
  exact ⟨_, by rw [collectionOf, hitem]⟩

/-- In a new workspace the app uses for an imported request what Postman uses for it, exactly
when the request agrees with the collection. -/
theorem imported_auth (source : Source) (hinj : Function.Injective source.newId)
    (hid : ∀ n, source.newId n ≠ "") (parseValue : String → Except ImportError Json)
    (upper : String → String) (ws : String) (base : ℚ) (content : String) (doc : Json)
    (hdoc : parseValue content = .ok doc) (hitem : (doc.get "item").isSome = true)
    (hknown : KnownTypes doc) :
    ∃ col, parsePostman parseValue upper content = .ok col ∧
      ∀ workspace : Workspace, workspace.auth = (buildPlan source ws base col).rootAuth →
        List.Forall₂ (fun p r =>
          (Send.resolveInheritedAuthAnnotated r.auth r.folderId
              (buildPlan source ws base col).folders workspace).auth =
            convertAuth (authOf (postmanAuth doc p)) ↔ Agrees doc p)
          (docRequests doc) (buildPlan source ws base col).requests := by
  obtain ⟨col, hcol⟩ := exists_collectionOf upper hitem
  refine ⟨col, by rw [parsePostman, hdoc]; exact hcol, fun workspace hworkspace => ?_⟩
  exact effective_arrives hid (buildPlan_arrives hinj upper ws base hcol) hknown hworkspace

/-! ### A request without auth of its own -/

/-- Ids of growing length. -/
def tally : Source where
  newId n := String.ofList (List.replicate (n + 1) 'i')
  now _ := "2026-01-01T00:00:00Z"

theorem injective_tally : Function.Injective tally.newId := by
  intro m n h
  have hlist := String.ofList_injective h
  simpa using congrArg List.length hlist

theorem tally_ne_empty (n : ℕ) : tally.newId n ≠ "" := by
  intro h
  have hlist := congrArg String.toList h
  rw [tally, String.toList_ofList] at hlist
  cases hlist

def bearerObject : Json :=
  .object [("type", .string "bearer"),
    ("bearer", .array [.object [("key", .string "token"), ("value", .string "t")]])]

theorem toAuth_bearerObject : toAuth bearerObject = .bearer "t" := by decide

/-- A request with nothing but a method. -/
def plainRequest : Json := .object [("method", .string "GET")]

def requestNode : Json := .object [("name", .string "R"), ("request", plainRequest)]

/-- The collection has the auth. -/
def rootAuthDoc : Json := .object [("auth", bearerObject), ("item", .array [requestNode])]

/-- A folder has the auth, and the collection has none. -/
def folderAuthDoc : Json := .object
  [("item", .array [.object [("auth", bearerObject), ("item", .array [requestNode])]])]

theorem requestsOf_requestNode (above : List (Option Json)) :
    requestsOf above [requestNode] = [(plainRequest, above)] := by
  rw [requestsOf_leaf rfl, requestsOf]
  rfl

theorem docRequests_rootAuthDoc : docRequests rootAuthDoc = [(plainRequest, [])] :=
  requestsOf_requestNode []

theorem docRequests_folderAuthDoc :
    docRequests folderAuthDoc = [(plainRequest, [some bearerObject])] := by
  have hfolder : ((Json.object [("auth", bearerObject), ("item", .array [requestNode])]).get
      "item").bind Json.asArray = some [requestNode] := rfl
  change requestsOf [] [_] = _
  rw [requestsOf_folder hfolder, requestsOf_requestNode, requestsOf]
  rfl

theorem supported_bearer : Supported (some bearerObject) := by
  intro ty h
  rw [authOf, Option.elim_some, toAuth_bearerObject] at h
  cases h

theorem knownTypes_rootAuthDoc : KnownTypes rootAuthDoc where
  root := supported_bearer
  folders p hp := by
    rw [docRequests_rootAuthDoc] at hp
    rw [List.mem_singleton.mp hp]
    simp

theorem knownTypes_folderAuthDoc : KnownTypes folderAuthDoc where
  root ty h := by cases h
  folders p hp := by
    rw [docRequests_folderAuthDoc] at hp
    rw [List.mem_singleton.mp hp]
    exact List.forall_mem_singleton.mpr supported_bearer

theorem imported_auth_rootAuthDoc :
    ∃ col, parsePostman (fun _ => .ok rootAuthDoc) id "" = .ok col ∧
      ∀ workspace : Workspace, workspace.auth = (buildPlan tally "w1" 0 col).rootAuth →
        ∀ r ∈ (buildPlan tally "w1" 0 col).requests,
          (Send.resolveInheritedAuthAnnotated r.auth r.folderId
            (buildPlan tally "w1" 0 col).folders workspace).auth = convertAuth (.bearer "t") := by
  obtain ⟨col, hcol, hall⟩ := imported_auth tally injective_tally tally_ne_empty
    (fun _ => .ok rootAuthDoc) id "w1" 0 "" rootAuthDoc rfl rfl knownTypes_rootAuthDoc
  refine ⟨col, hcol, fun workspace hworkspace r hr => ?_⟩
  have hone := hall workspace hworkspace
  rw [docRequests_rootAuthDoc, List.forall₂_cons_left_iff] at hone
  obtain ⟨r', rest, hiff, hnil, hrequests⟩ := hone
  rw [List.forall₂_nil_left_iff.mp hnil] at hrequests
  rw [hrequests] at hr
  rw [List.mem_singleton.mp hr]
  exact hiff.mpr (Or.inr Iff.rfl)

/-- The import drops the auth of a folder, since the collection has none. -/
theorem folder_auth_lost :
    ¬ ∀ (source : Source), Function.Injective source.newId → (∀ n, source.newId n ≠ "") →
      ∀ (doc : Json) (col : ImportedCollection) (workspace : Workspace), KnownTypes doc →
        collectionOf id doc = .ok col →
        workspace.auth = (buildPlan source "w1" 0 col).rootAuth →
        List.Forall₂ (fun p r =>
          (Send.resolveInheritedAuthAnnotated r.auth r.folderId
              (buildPlan source "w1" 0 col).folders workspace).auth =
            convertAuth (authOf (postmanAuth doc p)))
          (docRequests doc) (buildPlan source "w1" 0 col).requests := by
  intro h
  obtain ⟨col, hcol⟩ := exists_collectionOf id (rfl : (folderAuthDoc.get "item").isSome = true)
  have hall := h tally injective_tally tally_ne_empty folderAuthDoc col
    (Send.workspaceWith (buildPlan tally "w1" 0 col).rootAuth) knownTypes_folderAuthDoc hcol rfl
  have hiff := effective_arrives tally_ne_empty (buildPlan_arrives injective_tally id "w1" 0 hcol)
    knownTypes_folderAuthDoc (rfl : (Send.workspaceWith _).auth = _)
  rw [docRequests_folderAuthDoc, List.forall₂_cons_left_iff] at hall hiff
  obtain ⟨r, rest, heq, -, hrequests⟩ := hall
  obtain ⟨r', rest', hagrees, -, hrequests'⟩ := hiff
  obtain rfl : r = r' := (List.cons.inj (hrequests.symm.trans hrequests')).1
  rcases hagrees.mp heq with hown | hscheme
  · cases hown
  · refine hscheme.mp (fun hnone => ?_) rfl
    rw [show authOf _ = toAuth bearerObject from rfl, toAuth_bearerObject] at hnone
    cases hnone

end Voleeo.Postman
