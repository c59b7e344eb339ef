import Voleeo.Postman.Exported
import Voleeo.Postman.ImportedAuth

/-!
# Auth after an export

The export writes out what a folder or a request takes from the workspace, and
leaves out what it takes from its folders. Postman then stops at the first auth
object around a request, where the app goes on to the first active one.
-/
namespace Voleeo.Postman.Export
open Resolve (Chain climb climb_chain chain_cons chain_nil)
open Send (effective firstActive activeOf firstActive_cons isActive_of_firstActive)

/-! ## Auths along a chain of folders -/

/-- What an auth that inherits finds above it. -/
def picked (source : InheritSource) (workspace : AuthConfig) (above : List AuthConfig) :
    Option AuthConfig :=
  match source with
  | .workspace => (activeOf workspace).or (firstActive above)
  | .folder => (firstActive above).or (activeOf workspace)

/-- The auth object of a folder below the given ones. -/
def emitted (workspace auth : AuthConfig) (above : List AuthConfig) : Option Json :=
  match auth with
  | .inherit .workspace => authToPostman ((picked .workspace workspace above).getD auth)
  | auth => authToPostman auth

def emittedRoot (workspace auth : AuthConfig) (above : List AuthConfig) : Option Json :=
  match auth with
  | .inherit source => authToPostman ((picked source workspace above).getD auth)
  | auth => authToPostman auth

/-- The auth objects of folders, nearest first, below further ones. -/
def emits (workspace : AuthConfig) : List AuthConfig → List AuthConfig → List (Option Json)
  | [], _ => []
  | auth :: rest, above => emitted workspace auth (rest ++ above) :: emits workspace rest above

/-- The first folder that does not pass its own folder's auth on decides. If its auth is off,
nothing above it may be active; if it prefers the workspace, the workspace may not hide an
active folder with another auth object. -/
def KeepsAuth (workspace : AuthConfig) (above : List AuthConfig) : List AuthConfig → Prop
  | [] => True
  | .inherit .folder :: rest => KeepsAuth workspace above rest
  | .inherit .workspace :: rest => workspace.isActive = true →
      ∀ auth, firstActive (rest ++ above) = some auth →
        authToPostman auth = authToPostman workspace
  | auth :: rest =>
    auth.isActive = true ∨ firstActive (rest ++ above) = none ∧ workspace.isActive = false

/-- No auth object is the same as `noauth`. -/
def applied (auth : Option Json) : Json := auth.getD noauth

/-- What a request in these folders inherits. -/
def inheritedFrom (workspace : AuthConfig) (above : List AuthConfig) : AuthConfig :=
  (picked .folder workspace above).getD .none

variable {workspace auth : AuthConfig} {above rest : List AuthConfig} {tail : List (Option Json)}

theorem emits_append (folder : AuthConfig) (inner : List AuthConfig) :
    emits workspace (inner ++ [folder]) above =
      emits workspace inner (folder :: above) ++ [emitted workspace folder above] := by
  induction inner with
  | nil => rfl
  | cons a inner ih => rw [List.cons_append, emits, emits, ih, List.append_assoc]; rfl

/-! ## Auth objects -/

theorem authToPostman_active (h : auth.isActive = true) :
    authToPostman auth = some (schemeToPostman auth) := by
  cases auth with
  | none => cases h
  | inherit source => cases h
  | _ => exact if_pos h

theorem schemeToPostman_ne_noauth (h : auth.isActive = true) : schemeToPostman auth ≠ noauth := by
  cases auth with
  | none => cases h
  | inherit source => cases h
  | _ => simp [schemeToPostman, pm, noauth]

theorem authToPostman_off (h : auth.isActive = false)
    (hinherit : ∀ source, auth ≠ .inherit source) : authToPostman auth = some noauth := by
  have hnot : ¬ auth.isActive = true := by simp [h]
  cases auth with
  | none => rfl
  | inherit source => exact absurd rfl (hinherit source)
  | _ => exact if_neg hnot

theorem applied_off (h : auth.isActive = false) : applied (authToPostman auth) = noauth := by
  by_cases hinherit : ∃ source, auth = .inherit source
  · obtain ⟨source, rfl⟩ := hinherit
    rfl
  · rw [authToPostman_off h fun source heq => hinherit ⟨source, heq⟩]
    rfl

theorem applied_ne_noauth (h : auth.isActive = true) : applied (authToPostman auth) ≠ noauth := by
  rw [authToPostman_active h]
  exact schemeToPostman_ne_noauth h

/-! ## The nearest auth object -/

theorem nearest_some (a : Json) (auths : List (Option Json)) :
    nearest (some a :: auths) = some a := rfl

theorem picked_active {source : InheritSource} (h : picked source workspace above = some auth) :
    auth.isActive = true := by
  have hfolder : firstActive above = some auth → auth.isActive = true := isActive_of_firstActive
  have hworkspace : activeOf workspace = some auth → auth.isActive = true := by
    rw [activeOf]
    split_ifs with hactive
    · rintro ⟨⟩
      exact hactive
    · rintro ⟨⟩
  cases source with
  | workspace => exact (Option.or_eq_some_iff.mp h).elim hworkspace fun h => hfolder h.2
  | folder => exact (Option.or_eq_some_iff.mp h).elim hfolder fun h => hworkspace h.2

theorem picked_eq_none (source : InheritSource) :
    picked source workspace above = none ↔
      firstActive above = none ∧ workspace.isActive = false := by
  have hworkspace : activeOf workspace = none ↔ workspace.isActive = false := by simp [activeOf]
  cases source with
  | workspace => rw [picked, Option.or_eq_none_iff, hworkspace, and_comm]
  | folder => rw [picked, Option.or_eq_none_iff, hworkspace]

theorem inheritedFrom_cons :
    inheritedFrom workspace (auth :: above) =
      if auth.isActive then auth else inheritedFrom workspace above := by
  rw [inheritedFrom, picked, firstActive_cons]
  split_ifs
  · rfl
  · rfl

theorem inheritedFrom_off (habove : firstActive above = none)
    (hworkspace : workspace.isActive = false) : inheritedFrom workspace above = .none := by
  rw [inheritedFrom, (picked_eq_none .folder).mpr ⟨habove, hworkspace⟩, Option.getD_none]

theorem firstActive_cons_none :
    firstActive (auth :: above) = none ↔ auth.isActive = false ∧ firstActive above = none := by
  rw [firstActive_cons]
  cases auth.isActive <;> simp

theorem emitted_own (hinherit : ∀ source, auth ≠ .inherit source) :
    emitted workspace auth above = authToPostman auth := by
  cases auth with
  | inherit source => exact absurd rfl (hinherit source)
  | _ => rfl

/-- A folder that prefers the workspace has the object of what it inherits, if there is any. -/
theorem emitted_inherit_workspace :
    emitted workspace (.inherit .workspace) above =
      (picked .workspace workspace above).map schemeToPostman := by
  rw [emitted]
  cases h : picked .workspace workspace above with
  | none => rfl
  | some auth => rw [Option.getD_some, authToPostman_active (picked_active h)]; rfl

/-- A folder below which nothing is active has no scheme. -/
theorem nearest_emitted_off (hworkspace : workspace.isActive = false)
    (hoff : firstActive (auth :: above) = none) (htail : applied (nearest tail) = noauth) :
    applied (nearest (emitted workspace auth above :: tail)) = noauth := by
  obtain ⟨hauth, habove⟩ := firstActive_cons_none.mp hoff
  by_cases hinherit : ∃ source, auth = .inherit source
  · obtain ⟨source, rfl⟩ := hinherit
    cases source with
    | folder => exact htail
    | workspace =>
      rw [emitted_inherit_workspace, (picked_eq_none .workspace).mpr ⟨habove, hworkspace⟩]
      exact htail
  · have hown : ∀ source, auth ≠ .inherit source := fun source heq => hinherit ⟨source, heq⟩
    rw [emitted_own hown, authToPostman_off hauth hown]
    rfl

theorem keepsAuth_own (hown : ∀ source, auth ≠ .inherit source) :
    KeepsAuth workspace above (auth :: rest) ↔
      auth.isActive = true ∨ firstActive (rest ++ above) = none ∧ workspace.isActive = false := by
  cases auth with
  | inherit source => exact absurd rfl (hown source)
  | _ => rfl

theorem applied_inheritedFrom :
    applied (authToPostman (inheritedFrom workspace above)) = noauth ↔
      firstActive above = none ∧ workspace.isActive = false := by
  rw [← picked_eq_none .folder, inheritedFrom]
  cases h : picked .folder workspace above with
  | none => simp [authToPostman, applied]
  | some auth => simpa using applied_ne_noauth (picked_active h)

/-- A folder that prefers the workspace agrees with the app if the workspace hides nothing. -/
theorem nearest_inherit_workspace (hoff : workspace.isActive = false → firstActive above = none →
      applied (nearest tail) = noauth) :
    applied (nearest (emitted workspace (.inherit .workspace) above :: tail)) =
        applied (authToPostman (inheritedFrom workspace above)) ↔
      (workspace.isActive = true → ∀ auth, firstActive above = some auth →
        authToPostman auth = authToPostman workspace) := by
  rw [emitted_inherit_workspace]
  cases hactive : workspace.isActive with
  | false =>
    have hpicked : picked .workspace workspace above = firstActive above := by
      simp [picked, activeOf, hactive]
    have hinherited : inheritedFrom workspace above = (firstActive above).getD .none := by
      simp [inheritedFrom, picked, activeOf, hactive]
    rw [hpicked, hinherited]
    simp only [Bool.false_eq_true, false_implies, iff_true]
    cases hfirst : firstActive above with
    | none => exact hoff hactive hfirst
    | some auth =>
      rw [Option.getD_some, authToPostman_active (isActive_of_firstActive hfirst)]
      rfl
  | true =>
    have hpicked : picked .workspace workspace above = some workspace := by
      simp [picked, activeOf, hactive]
    rw [hpicked, Option.map_some, nearest_some, authToPostman_active hactive, inheritedFrom, picked]
    cases hfirst : firstActive above with
    | none => simp [activeOf, hactive, authToPostman_active]
    | some auth =>
      simp only [Option.some_or, Option.getD_some, Option.some.injEq, forall_true_left, forall_eq']
      rw [authToPostman_active (isActive_of_firstActive hfirst)]
      simp [applied, eq_comm]

/-- A folder with an auth of its own agrees with the app if it is on, or all above is off. -/
theorem nearest_own (hown : ∀ source, auth ≠ .inherit source) :
    applied (nearest (emitted workspace auth above :: tail)) =
        applied (authToPostman (inheritedFrom workspace (auth :: above))) ↔
      auth.isActive = true ∨ firstActive above = none ∧ workspace.isActive = false := by
  rw [emitted_own hown, inheritedFrom_cons]
  cases hactive : auth.isActive with
  | true => rw [authToPostman_active hactive]; simp [nearest_some, authToPostman_active hactive]
  | false =>
    rw [authToPostman_off hactive hown, nearest_some]
    simp only [Bool.false_eq_true, if_false, false_or]
    rw [← applied_inheritedFrom]
    exact eq_comm

/-- Auth objects that agree with the app from the last folders outwards. -/
structure Ends (workspace : AuthConfig) (above last : List AuthConfig)
    (tail : List (Option Json)) : Prop where
  agrees : applied (nearest tail) =
      applied (authToPostman (inheritedFrom workspace (last ++ above))) ↔
    KeepsAuth workspace above last
  off : workspace.isActive = false → firstActive (last ++ above) = none →
    applied (nearest tail) = noauth

/-- A step outwards: one more folder below. -/
theorem Ends.cons {last : List AuthConfig} (h : Ends workspace above last tail)
    (auth : AuthConfig) :
    Ends workspace above (auth :: last) (emitted workspace auth (last ++ above) :: tail) := by
  refine ⟨?_, fun hworkspace hoff =>
    nearest_emitted_off hworkspace hoff (h.off hworkspace (firstActive_cons_none.mp hoff).2)⟩
  rw [List.cons_append]
  by_cases hinherit : ∃ source, auth = .inherit source
  · obtain ⟨source, rfl⟩ := hinherit
    have hskip : inheritedFrom workspace (.inherit source :: (last ++ above)) =
        inheritedFrom workspace (last ++ above) := by
      rw [inheritedFrom_cons, if_neg (by simp [AuthConfig.isActive])]
    rw [hskip]
    cases source with
    | folder => exact h.agrees
    | workspace => exact nearest_inherit_workspace h.off
  · have hown : ∀ source, auth ≠ .inherit source := fun source heq => hinherit ⟨source, heq⟩
    rw [keepsAuth_own hown]
    exact nearest_own hown

/-- All folders between a request and the last ones. -/
theorem Ends.emits {last : List AuthConfig} (h : Ends workspace above last tail)
    (inner : List AuthConfig) :
    Ends workspace above (inner ++ last) (emits workspace inner (last ++ above) ++ tail) := by
  induction inner with
  | nil => exact h
  | cons auth inner ih =>
    have hcons := ih.cons auth
    rw [List.append_assoc] at hcons
    exact hcons

/-- The item of the workspace has the auth of the workspace. -/
theorem ends_workspace (workspace : AuthConfig) :
    Ends workspace [] [] [authToPostman workspace] := by
  have hnearest : nearest [authToPostman workspace] = authToPostman workspace := by
    cases authToPostman workspace <;> rfl
  constructor
  · rw [hnearest]
    simp only [KeepsAuth, iff_true]
    cases hactive : workspace.isActive with
    | true =>
      have hinherited : inheritedFrom workspace ([] ++ []) = workspace := by
        simp [inheritedFrom, picked, activeOf, firstActive, hactive]
      rw [hinherited]
    | false => rw [applied_off hactive, List.nil_append, inheritedFrom_off rfl hactive]; rfl
  · intro hworkspace _
    rw [hnearest, applied_off hworkspace]

/-- A selected folder has the auth that it uses in the app, also where that comes from above. -/
theorem ends_root (workspace auth : AuthConfig) (above : List AuthConfig) :
    Ends workspace above [auth] [emittedRoot workspace auth above] := by
  have hnil : applied (nearest []) = noauth := rfl
  by_cases hfolder : auth = .inherit .folder
  · subst hfolder
    have happlied : applied (nearest [emittedRoot workspace (.inherit .folder) above]) =
        applied (authToPostman (inheritedFrom workspace above)) := by
      rw [emittedRoot, inheritedFrom]
      cases h : picked .folder workspace above with
      | none => rfl
      | some auth => simp [authToPostman_active (picked_active h), nearest_some]
    constructor
    · exact iff_of_true happlied trivial
    · intro hworkspace hoff
      rw [happlied, applied_inheritedFrom]
      exact ⟨(firstActive_cons_none.mp hoff).2, hworkspace⟩
  · have hemitted : emittedRoot workspace auth above = emitted workspace auth above := by
      cases auth with
      | inherit source =>
        cases source with
        | folder => exact absurd rfl hfolder
        | workspace => rfl
      | _ => rfl
    rw [hemitted]
    constructor
    · by_cases hworkspace : auth = .inherit .workspace
      · subst hworkspace
        rw [List.singleton_append, inheritedFrom_cons, if_neg (by simp [AuthConfig.isActive])]
        exact nearest_inherit_workspace fun _ _ => hnil
      · have hown : ∀ source, auth ≠ .inherit source := by
          intro source
          cases source with
          | folder => exact hfolder
          | workspace => exact hworkspace
        rw [keepsAuth_own hown]
        exact nearest_own hown
    · exact fun hworkspace hoff => nearest_emitted_off hworkspace hoff hnil

theorem effective_own (hown : ∀ source, auth ≠ .inherit source) :
    effective auth above workspace = if auth.isActive then auth else .none := by
  cases auth with
  | inherit source => exact absurd rfl (hown source)
  | _ => rfl

/-- A request agrees with the app, unless it takes its auth from folders that do not keep it. -/
theorem Ends.request {last : List AuthConfig} (h : Ends workspace above last tail)
    (own : AuthConfig) :
    applied (nearest (emitted workspace own (last ++ above) :: tail)) =
        applied (authToPostman (effective own (last ++ above) workspace)) ↔
      (own = .inherit .folder → KeepsAuth workspace above last) := by
  by_cases hinherit : ∃ source, own = .inherit source
  · obtain ⟨source, rfl⟩ := hinherit
    cases source with
    | folder => exact h.agrees.trans ⟨fun hkeeps _ => hkeeps, fun hkeeps => hkeeps rfl⟩
    | workspace =>
      refine iff_of_true ?_ (by simp)
      rw [emitted_inherit_workspace]
      change _ = applied (authToPostman ((picked .workspace workspace (last ++ above)).getD .none))
      cases hpicked : picked .workspace workspace (last ++ above) with
      | none =>
        obtain ⟨hoff, hworkspace⟩ := (picked_eq_none .workspace).mp hpicked
        exact h.off hworkspace hoff
      | some auth => rw [Option.getD_some, authToPostman_active (picked_active hpicked)]; rfl
  · have hown : ∀ source, own ≠ .inherit source := fun source heq => hinherit ⟨source, heq⟩
    refine iff_of_true ?_ fun h => absurd h (hown _)
    rw [emitted_own hown, effective_own hown]
    cases hactive : own.isActive with
    | true => rw [if_pos rfl, authToPostman_active hactive]; rfl
    | false => rw [authToPostman_off hactive hown]; rfl

/-! ## The exported items -/

mutual

def leavesOfItem (around : List (Option Json)) : Item → List (HttpRequest × List (Option Json))
  | .folder _ items auth => leaves (auth :: around) items
  | .request r => [(r, around)]

/-- The requests of the items, each with the auth members of the folders around it. -/
def leaves (around : List (Option Json)) : List Item → List (HttpRequest × List (Option Json))
  | [] => []
  | item :: rest => leavesOfItem around item ++ leaves around rest

end

theorem mem_leaves {around : List (Option Json)} {items : List Item}
    {p : HttpRequest × List (Option Json)} :
    p ∈ leaves around items ↔ ∃ item ∈ items, p ∈ leavesOfItem around item := by
  induction items with
  | nil => simp [leaves]
  | cons item rest ih => simp [leaves, ih]

section
variable (b : Bundle)

/-- The request object of an item. -/
def requestJson (r : HttpRequest) : Json := ((httpItem b r).get "request").getD .null

theorem get_item_httpItem (r : HttpRequest) : (httpItem b r).get "item" = none := rfl

theorem get_request_httpItem (r : HttpRequest) :
    (httpItem b r).get "request" = some (requestJson b r) := rfl

variable {b}

theorem get_member {members : List (String × Json)} {key : String} {value : Option Json}
    (h : ∀ e ∈ members, e.1 ≠ key) :
    (Json.object (members ++ member key value)).get key = value := by
  rw [Json.get, List.find?_append, List.find?_eq_none.mpr (by simpa using h), Option.none_or]
  cases value <;> simp [member]

theorem fst_of_mem_member {key : String} {value : Option Json} {e : String × Json}
    (h : e ∈ member key value) : e.1 = key := by
  obtain ⟨v, -, rfl⟩ := List.mem_map.mp h
  rfl

theorem get_auth_requestJson (r : HttpRequest) : (requestJson b r).get "auth" = httpAuth b r := by
  refine @get_member ([("method", _), ("header", _), ("url", _)] ++ member "body" _) "auth" _ ?_
  intro e he
  rcases List.mem_append.mp he with he | he
  · have hkey : e.1 = "method" ∨ e.1 = "header" ∨ e.1 = "url" := by
      simp only [List.mem_cons, List.not_mem_nil, or_false] at he
      rcases he with rfl | rfl | rfl <;> simp
    rcases hkey with h | h | h <;> rw [h] <;> decide
  · rw [fst_of_mem_member he]
    decide

mutual

theorem requestsOf_itemJson (around : List (Option Json)) :
    ∀ (item : Item) (rest : List Json),
      requestsOf around (itemJson (httpItem b) item :: rest) =
        (leavesOfItem around item).map (fun p => (requestJson b p.1, p.2)) ++ requestsOf around rest
  | .folder name items auth, rest => by
      have hitems := requestsOf_itemsJson (auth :: around) items
      have hauth : (itemJson (httpItem b) (.folder name items auth)).get "auth" = auth := by
        rw [itemJson]
        exact get_member (by simp)
      rw [@requestsOf_folder _ rest (itemsJson (httpItem b) items) _ rfl, hauth, hitems]
      rfl
  | .request r, rest => by
      rw [itemJson, requestsOf_leaf (get_item_httpItem b r ▸ rfl), get_request_httpItem]
      rfl

/-- Postman sees the requests of the items. -/
theorem requestsOf_itemsJson (around : List (Option Json)) :
    ∀ items : List Item, requestsOf around (itemsJson (httpItem b) items) =
      (leaves around items).map fun p => (requestJson b p.1, p.2)
  | [] => by simp [itemsJson, leaves, requestsOf]
  | item :: rest => by
      rw [itemsJson, leaves, List.map_append, requestsOf_itemJson around item,
        requestsOf_itemsJson around rest]

end

/-! ## Building the items -/

theorem mem_children {parent : Option String} {node : Node} :
    node ∈ children b parent ↔
      (∃ f ∈ b.folders, f.folderId = parent ∧ node = .folder f) ∨
        ∃ r ∈ b.requests, r.folderId = parent ∧ node = .http r := by
  simp only [children, mem_sortBy, List.mem_append, List.mem_map, List.mem_filter,
    decide_eq_true_eq, and_assoc, @eq_comm _ node]

/-- The links of the folders form a forest. The store refuses an empty id. -/
structure IsForest (folders : List ApiFolder) : Prop where
  nodup : (folders.map (·.id)).Nodup
  nonEmpty : ∀ f ∈ folders, f.id ≠ ""
  chains : ∀ f ∈ folders, ∃ chain, Chain folders (some f.id) chain

theorem IsForest.exists_chain {folders : List ApiFolder} (h : IsForest folders) {f : ApiFolder}
    (hf : f ∈ folders) : ∃ above, Chain folders f.folderId above := by
  obtain ⟨chain, hchain⟩ := h.chains f hf
  cases chain with
  | nil => cases chain_nil.mp hchain
  | cons g above =>
    obtain ⟨hid, hg, habove⟩ := chain_cons.mp hchain
    obtain rfl := List.inj_on_of_nodup_map h.nodup hf hg (Option.some.inj hid)
    exact ⟨above, habove⟩

variable {parent : Option String} {chain : List ApiFolder}

theorem climb_place {folders : List ApiFolder} (hforest : IsForest folders)
    (h : Chain folders parent chain) : climb (fun _ => false) folders [] parent = chain :=
  climb_chain hforest.nodup h (by simp) (by simp)

theorem climb_reverse (hforest : IsForest b.folders) (h : Chain b.folders parent chain) :
    climb (fun _ => false) b.folders.reverse [] parent = chain := by
  refine climb_chain ?_ (h.mono fun f hf => List.mem_reverse.mpr hf) (by simp) (by simp)
  rw [List.map_reverse]
  exact List.nodup_reverse.mpr hforest.nodup

theorem effectiveInheritedAuth_chain (hforest : IsForest b.folders)
    (h : Chain b.folders parent chain) (source : InheritSource) (fallback : AuthConfig) :
    effectiveInheritedAuth b parent source fallback =
      (picked source b.workspace.auth (chain.map (·.auth))).getD fallback := by
  have hfolder : folderAuthAbove b parent = firstActive (chain.map (·.auth)) := by
    rw [folderAuthAbove, climb_reverse hforest h, firstActive, List.find?_map]
    rfl
  cases source with
  | folder => rw [effectiveInheritedAuth, hfolder]; rfl
  | workspace => rw [effectiveInheritedAuth, hfolder]; rfl

theorem authToPostman_writtenAuth (hforest : IsForest b.folders)
    (h : Chain b.folders parent chain) (auth : AuthConfig) :
    authToPostman (writtenAuth b parent auth) =
      emitted b.workspace.auth auth (chain.map (·.auth)) := by
  cases auth with
  | inherit source =>
    cases source with
    | folder => rfl
    | workspace => rw [writtenAuth, effectiveInheritedAuth_chain hforest h, emitted]
  | _ => rfl

theorem authToPostman_effectiveRootAuth (hforest : IsForest b.folders) {f : ApiFolder}
    (h : Chain b.folders f.folderId chain) :
    authToPostman (effectiveRootAuth b f) =
      emittedRoot b.workspace.auth f.auth (chain.map (·.auth)) := by
  rw [effectiveRootAuth]
  cases f.auth with
  | inherit source => simp only [effectiveInheritedAuth_chain hforest h, emittedRoot]
  | _ => rfl

/-- The depth of a tree of folders is at most their number. -/
theorem exists_buildItems (hforest : IsForest b.folders) {depth : ℕ}
    (h : Chain b.folders parent chain) (hdepth : b.folders.length < chain.length + depth) :
    ∃ items, buildItems b depth parent = some items := by
  induction depth generalizing parent chain with
  | zero =>
    have hle := h.length_le hforest.nodup
    omega
  | succ depth ih =>
    refine exists_mapM_eq_some fun node hnode => ?_
    rcases mem_children.mp hnode with ⟨f, hf, rfl, rfl⟩ | ⟨r, -, -, rfl⟩
    · obtain ⟨items, hitems⟩ := ih (.link hf h) (by rw [List.length_cons]; omega)
      exact ⟨_, by rw [nodeItem, folderItem, folderItemWithAuth, hitems, Option.map_some]⟩
    · exact ⟨_, rfl⟩

/-- The request lies below the folders of the chain, with the auth objects of the folders in
between. -/
def Below (b : Bundle) (chain : List ApiFolder) (around : List (Option Json))
    (p : HttpRequest × List (Option Json)) : Prop :=
  p.1 ∈ b.requests ∧ ∃ inner, Chain b.folders p.1.folderId (inner ++ chain) ∧
    p.2 = emits b.workspace.auth (inner.map (·.auth)) (chain.map (·.auth)) ++ around

/-- The items of a folder hold requests below it. -/
theorem leaves_buildItems (hforest : IsForest b.folders) {depth : ℕ}
    (h : Chain b.folders parent chain) {items : List Item}
    (hitems : buildItems b depth parent = some items) {around : List (Option Json)} :
    ∀ p ∈ leaves around items, Below b chain around p := by
  induction depth generalizing parent chain items around with
  | zero => cases hitems
  | succ depth ih =>
    intro p hp
    obtain ⟨item, hitem, hp⟩ := mem_leaves.mp hp
    obtain ⟨node, hnode, hbuilt⟩ := exists_of_mem_forall₂ (mapM_eq_some.mp hitems) hitem
    rcases mem_children.mp hnode with ⟨f, hf, rfl, rfl⟩ | ⟨r, hr, rfl, rfl⟩
    · obtain ⟨inside, hinside, rfl⟩ := Option.map_eq_some_iff.mp hbuilt
      obtain ⟨hr, inner, hchain, haround⟩ := ih (.link hf h) hinside p hp
      refine ⟨hr, inner ++ [f], by simpa using hchain, ?_⟩
      rw [haround, authToPostman_writtenAuth hforest h, List.map_append, List.map_singleton,
        emits_append, List.append_assoc]
      rfl
    · cases hbuilt
      obtain rfl := List.mem_singleton.mp hp
      exact ⟨hr, [], h, rfl⟩

/-- Each request below a folder is among its items. -/
theorem exists_leaves {depth : ℕ} (h : Chain b.folders parent chain) {items : List Item}
    (hitems : buildItems b depth parent = some items) {around : List (Option Json)}
    {r : HttpRequest} (hr : r ∈ b.requests) {inner : List ApiFolder}
    (hplace : Chain b.folders r.folderId (inner ++ chain)) :
    ∃ p ∈ leaves around items, p.1 = r := by
  induction depth generalizing parent chain items around inner with
  | zero => cases hitems
  | succ depth ih =>
    have hsteps := (mapM_eq_some.mp hitems).flip
    rcases List.eq_nil_or_concat inner with rfl | ⟨inner, f, rfl⟩
    · obtain ⟨item, hitem, hbuilt⟩ := exists_of_mem_forall₂ hsteps
        (mem_children.mpr (Or.inr ⟨r, hr, hplace.place_eq h, rfl⟩))
      cases hbuilt
      exact ⟨_, mem_leaves.mpr ⟨_, hitem, List.mem_singleton_self _⟩, rfl⟩
    · rw [List.concat_eq_append, List.append_assoc] at hplace
      obtain ⟨-, hf, hrest⟩ := chain_cons.mp hplace.of_append
      have hparent := hrest.place_eq h
      obtain ⟨item, hitem, hbuilt⟩ := exists_of_mem_forall₂ hsteps
        (mem_children.mpr (Or.inl ⟨f, hf, hparent, rfl⟩))
      obtain ⟨inside, hinside, rfl⟩ := Option.map_eq_some_iff.mp hbuilt
      obtain ⟨p, hp, rfl⟩ := ih (.link hf hrest) hinside hplace
      exact ⟨p, mem_leaves.mpr ⟨_, hitem, hp⟩, rfl⟩

end

/-! ## Selected folders -/

/-- A chain up to the first of the selected folders, and the folders above it. -/
def splitAtRoot (roots : List ApiFolder) : List ApiFolder → List ApiFolder × List ApiFolder
  | [] => ([], [])
  | f :: rest =>
    if f ∈ roots then ([f], rest)
    else (f :: (splitAtRoot roots rest).1, (splitAtRoot roots rest).2)

theorem splitAtRoot_nil (chain : List ApiFolder) : splitAtRoot [] chain = (chain, []) := by
  induction chain with
  | nil => rfl
  | cons f rest ih => rw [splitAtRoot, if_neg List.not_mem_nil, ih]

theorem splitAtRoot_append {roots inner : List ApiFolder} {f : ApiFolder} (hf : f ∈ roots)
    (hinner : ∀ g ∈ inner, g ∉ roots) (above : List ApiFolder) :
    splitAtRoot roots (inner ++ f :: above) = (inner ++ [f], above) := by
  induction inner with
  | nil => exact if_pos hf
  | cons g inner ih =>
    rw [List.forall_mem_cons] at hinner
    rw [List.cons_append, splitAtRoot, if_neg hinner.1, ih hinner.2]
    rfl

section
variable {b : Bundle} {roots : List (String × String)} {f : ApiFolder}

theorem mem_folders_of_root (h : f ∈ rootFolders b roots) : f ∈ b.folders :=
  (List.mem_filter.mp h).1

/-- No selected folder is below another one. -/
theorem not_root_below (hforest : IsForest b.folders) {place : Option String}
    {inner above : List ApiFolder} (hchain : Chain b.folders place (inner ++ f :: above))
    (hf : f ∈ rootFolders b roots) {g : ApiFolder} (hg : g ∈ inner) :
    g ∉ rootFolders b roots := by
  intro hroot
  obtain ⟨before, between, rfl⟩ := List.append_of_mem hg
  rw [List.append_assoc, List.cons_append] at hchain
  have hup := (chain_cons.mp hchain.of_append).2.2
  have hplaces := (Bool.and_eq_true_iff.mp (List.mem_filter.mp hroot).2).2
  have hselected := (Bool.and_eq_true_iff.mp (List.mem_filter.mp hf).2).1
  rw [climb_reverse hforest hup, List.all_eq_true] at hplaces
  have hnot := hplaces _ hup.mem_places
  rw [Option.all_some, hselected] at hnot
  cases hnot

/-- The folders of a request that are exported, and those above them. -/
def exportedFolders (b : Bundle) (roots : List (String × String)) (r : HttpRequest) :
    List ApiFolder × List ApiFolder :=
  splitAtRoot (rootFolders b roots) (climb (fun _ => false) b.folders [] r.folderId)

/-- The request is exported with auth objects that end as the app's auths do. -/
def Exported (b : Bundle) (roots : List (String × String))
    (p : HttpRequest × List (Option Json)) : Prop :=
  p.1 ∈ b.requests ∧ ∃ (inner last above : List ApiFolder) (tail : List (Option Json)),
    Chain b.folders p.1.folderId (inner ++ (last ++ above)) ∧
    splitAtRoot (rootFolders b roots) (inner ++ (last ++ above)) = (inner ++ last, above) ∧
    Ends b.workspace.auth (above.map (·.auth)) (last.map (·.auth)) tail ∧
    p.2 = emits b.workspace.auth (inner.map (·.auth)) ((last ++ above).map (·.auth)) ++ tail

theorem workspaceItem_exported (hforest : IsForest b.folders) {depth : ℕ} {item : Item}
    (hroots : rootFolders b roots = []) (h : workspaceItem b depth = some item) :
    ∀ p ∈ leavesOfItem [] item, Exported b roots p := by
  obtain ⟨items, hitems, rfl⟩ := Option.map_eq_some_iff.mp h
  intro p hp
  obtain ⟨hr, inner, hchain, haround⟩ := leaves_buildItems hforest .root hitems p hp
  refine ⟨hr, inner, [], [], _, hchain, ?_, ends_workspace b.workspace.auth, haround⟩
  rw [hroots, splitAtRoot_nil, List.append_nil, List.append_nil]

theorem rootFolderItem_exported (hforest : IsForest b.folders) {depth : ℕ} {item : Item}
    (hroot : f ∈ rootFolders b roots) (h : rootFolderItem b depth f = some item) :
    ∀ p ∈ leavesOfItem [] item, Exported b roots p := by
  obtain ⟨items, hitems, rfl⟩ := Option.map_eq_some_iff.mp h
  obtain ⟨above, habove⟩ := hforest.exists_chain (mem_folders_of_root hroot)
  intro p hp
  obtain ⟨hr, inner, hplace, haround⟩ :=
    leaves_buildItems hforest (.link (mem_folders_of_root hroot) habove) hitems p hp
  rw [authToPostman_effectiveRootAuth hforest habove] at haround
  exact ⟨hr, inner, [f], above, _, hplace,
    splitAtRoot_append hroot (fun g hg => not_root_below hforest hplace hroot hg) above,
    ends_root _ _ _, haround⟩

theorem exists_rootFolderItem (hforest : IsForest b.folders) {depth : ℕ}
    (hdepth : b.folders.length < depth) (hf : f ∈ b.folders) :
    ∃ item, rootFolderItem b depth f = some item := by
  obtain ⟨above, habove⟩ := hforest.exists_chain hf
  have hbuilt : ∃ items, buildItems b depth (some f.id) = some items :=
    exists_buildItems hforest (.link hf habove) (by omega)
  obtain ⟨items, hitems⟩ := hbuilt
  exact ⟨_, by rw [rootFolderItem, folderItemWithAuth, hitems, Option.map_some]⟩

/-- The request is below the workspace, or below a selected folder. -/
def Reached (b : Bundle) (roots : List (String × String)) (r : HttpRequest) : Prop :=
  ∃ chain, Chain b.folders r.folderId chain ∧
    (rootFolders b roots = [] ∨ ∃ f ∈ chain, f ∈ rootFolders b roots)

/-- The export ends, and has all requests below the workspace or the selected folders. -/
theorem exists_bundleItems (hforest : IsForest b.folders) {depth : ℕ}
    (hdepth : b.folders.length < depth) (roots : List (String × String)) :
    ∃ items, bundleItems b depth roots = some items ∧ (∀ p ∈ leaves [] items, Exported b roots p) ∧
      ∀ r ∈ b.requests, Reached b roots r → ∃ p ∈ leaves [] items, p.1 = r := by
  cases hroots : rootFolders b roots with
  | nil =>
    have hbuilt : ∃ items, buildItems b depth none = some items :=
      exists_buildItems hforest .root (by omega)
    obtain ⟨items, hitems⟩ := hbuilt
    have hitem : workspaceItem b depth = some (.folder b.workspace.name items
        (authToPostman b.workspace.auth)) := by rw [workspaceItem, hitems, Option.map_some]
    refine ⟨[_], by rw [bundleItems, hroots, hitem, Option.map_some], ?_, ?_⟩
    · intro p hp
      obtain ⟨item, hmem, hp⟩ := mem_leaves.mp hp
      obtain rfl := List.mem_singleton.mp hmem
      exact workspaceItem_exported hforest hroots hitem p hp
    · rintro r hr ⟨chain, hchain, -⟩
      obtain ⟨p, hp, rfl⟩ := exists_leaves .root hitems hr (by simpa using hchain)
      exact ⟨p, mem_leaves.mpr ⟨_, List.mem_singleton_self _, hp⟩, rfl⟩
  | cons root rest =>
    have hbuilt : ∃ items, (rootFolders b roots).mapM (rootFolderItem b depth) = some items :=
      exists_mapM_eq_some fun f hf =>
        exists_rootFolderItem hforest hdepth (mem_folders_of_root hf)
    obtain ⟨items, hitems⟩ := hbuilt
    have hbundle : bundleItems b depth roots = some items := by
      rw [bundleItems]
      split
      · rename_i hnil
        rw [hroots] at hnil
        cases hnil
      · exact hitems
    refine ⟨items, hbundle, ?_, ?_⟩
    · intro p hp
      obtain ⟨item, hmem, hp⟩ := mem_leaves.mp hp
      obtain ⟨f, hf, hbuilt⟩ := exists_of_mem_forall₂ (mapM_eq_some.mp hitems) hmem
      exact rootFolderItem_exported hforest hf hbuilt p hp
    · rintro r hr ⟨chain, hchain, hbelow⟩
      obtain ⟨f, hf, hroot⟩ := hbelow.resolve_left (by simp [hroots])
      obtain ⟨inner, above, rfl⟩ := List.append_of_mem hf
      obtain ⟨item, hmem, hbuilt⟩ := exists_of_mem_forall₂ (mapM_eq_some.mp hitems).flip hroot
      obtain ⟨inside, hinside, rfl⟩ := Option.map_eq_some_iff.mp hbuilt
      obtain ⟨p, hp, rfl⟩ := exists_leaves hchain.of_append hinside hr hchain
      exact ⟨p, mem_leaves.mpr ⟨_, hmem, hp⟩, rfl⟩

theorem nearest_append_none (auths : List (Option Json)) :
    nearest (auths ++ [none]) = nearest auths := by
  rw [nearest, List.findSome?_append]
  simp [nearest]

theorem exported_agrees (hforest : IsForest b.folders)
    {p : HttpRequest × List (Option Json)} (h : Exported b roots p) :
    applied (nearest (httpAuth b p.1 :: p.2)) =
        applied (authToPostman (Send.resolveInheritedAuthAnnotated p.1.auth p.1.folderId
          b.folders b.workspace).auth) ↔
      (p.1.auth = .inherit .folder → KeepsAuth b.workspace.auth
        ((exportedFolders b roots p.1).2.map (·.auth))
        ((exportedFolders b roots p.1).1.map (·.auth))) := by
  obtain ⟨-, inner, last, above, tail, hchain, hsplit, hends, haround⟩ := h
  rw [exportedFolders, climb_place hforest hchain, hsplit, httpAuth, authToPostman_writtenAuth hforest hchain,
    Send.resolveInheritedAuthAnnotated_auth hforest.nodup hforest.nonEmpty hchain, haround]
  have hrequest := (hends.emits (inner.map (·.auth))).request p.1.auth
  simpa only [List.map_append, List.append_assoc] using hrequest

/-- The document holds the exported requests, and Postman looks from them outwards. -/
theorem exists_toPostman (hforest : IsForest b.folders) {depth : ℕ}
    (hdepth : b.folders.length < depth) (roots : List (String × String)) :
    ∃ (result : ExportResult) (exported : List (HttpRequest × List (Option Json))),
      toPostmanWithRoots depth [b] roots = some result ∧
      docRequests result.content = exported.map (fun p => (requestJson b p.1, p.2)) ∧
      (∀ r ∈ b.requests, Reached b roots r → ∃ p ∈ exported, p.1 = r) ∧
      ∀ p ∈ exported, Exported b roots p ∧
        postmanAuth result.content (requestJson b p.1, p.2) = nearest (httpAuth b p.1 :: p.2) := by
  obtain ⟨items, hitems, hsound, hcomplete⟩ := exists_bundleItems hforest hdepth roots
  have hflat : [itemsJson (httpItem b) items].flatten = itemsJson (httpItem b) items :=
    List.append_nil _
  refine ⟨_, leaves [] items, by rw [toPostmanWithRoots, List.mapM_cons, hitems]; rfl, ?_,
    hcomplete, fun p hp => ⟨hsound p hp, ?_⟩⟩
  · exact (congrArg (requestsOf []) hflat).trans (requestsOf_itemsJson [] items)
  · rw [postmanAuth, get_auth_requestJson]
    exact nearest_append_none _

/-- For each exported request Postman applies what the app uses exactly when the request does
not take its auth from folders, or these folders keep it. -/
theorem exported_auth (b : Bundle) (roots : List (String × String)) (depth : ℕ)
    (hforest : IsForest b.folders) (hdepth : b.folders.length < depth) :
    ∃ (result : ExportResult) (exported : List (HttpRequest × List (Option Json))),
      toPostmanWithRoots depth [b] roots = some result ∧
      docRequests result.content = exported.map (fun p => (requestJson b p.1, p.2)) ∧
      (∀ r ∈ b.requests, Reached b roots r → ∃ p ∈ exported, p.1 = r) ∧
      ∀ p ∈ exported, p.1 ∈ b.requests ∧
        (applied (postmanAuth result.content (requestJson b p.1, p.2)) =
            applied (authToPostman (Send.resolveInheritedAuthAnnotated p.1.auth p.1.folderId
              b.folders b.workspace).auth) ↔
          (p.1.auth = .inherit .folder → KeepsAuth b.workspace.auth
            ((exportedFolders b roots p.1).2.map (·.auth))
            ((exportedFolders b roots p.1).1.map (·.auth)))) := by
  obtain ⟨result, exported, hresult, hrequests, hcomplete, hall⟩ :=
    exists_toPostman hforest hdepth roots
  refine ⟨result, exported, hresult, hrequests, hcomplete, fun p hp => ?_⟩
  obtain ⟨hexported, hnearest⟩ := hall p hp
  refine ⟨hexported.1, ?_⟩
  rw [hnearest]
  exact exported_agrees hforest hexported

end

/-! ## A folder in a workspace with an auth -/

def sampleFolder (auth : AuthConfig) : ApiFolder where
  id := "f1"
  folderType := "http"
  model := "folder"
  workspaceId := "w1"
  folderId := none
  name := "F"
  headers := []
  auth := auth
  «variables» := []
  color := none
  order := 0
  createdAt := ""
  updatedAt := ""

def sampleRequest : HttpRequest :=
  { HttpRequest.blank with folderId := some "f1", auth := .inherit .folder }

def sampleToken : AuthConfig :=
  .bearer { token := "t", tokenEncrypted := false, enabled := true }

/-- A request that inherits, in a folder with the given auth. -/
def sampleBundle (auth : AuthConfig) : Bundle where
  workspace := Send.workspaceWith sampleToken
  folders := [sampleFolder auth]
  requests := [sampleRequest]
  environments := []

section
variable (auth : AuthConfig)

theorem chain_sample :
    Chain (sampleBundle auth).folders sampleRequest.folderId [sampleFolder auth] :=
  .link (f := sampleFolder auth) (List.mem_singleton_self _) .root

theorem isForest_sample : IsForest (sampleBundle auth).folders where
  nodup := List.nodup_singleton _
  nonEmpty := List.forall_mem_singleton.mpr (by simp [sampleFolder])
  chains := List.forall_mem_singleton.mpr ⟨_, chain_sample auth⟩

theorem rootFolders_nil (b : Bundle) : rootFolders b [] = [] := by simp [rootFolders]

theorem reached_sample : Reached (sampleBundle auth) [] sampleRequest :=
  ⟨_, chain_sample auth, Or.inl (rootFolders_nil _)⟩

theorem exportedFolders_sample :
    exportedFolders (sampleBundle auth) [] sampleRequest = ([sampleFolder auth], []) := by
  rw [exportedFolders, rootFolders_nil, splitAtRoot_nil]
  exact congrArg (·, []) (climb_place (isForest_sample auth) (chain_sample auth))

end

/-- A folder that inherits hides nothing. -/
theorem exported_auth_sample :
    ∃ result p, toPostmanWithRoots 2 [sampleBundle (.inherit .folder)] [] = some result ∧
      p ∈ docRequests result.content ∧
      applied (postmanAuth result.content p) = schemeToPostman sampleToken := by
  obtain ⟨result, exported, hresult, hrequests, hcomplete, hall⟩ :=
    exported_auth (sampleBundle (.inherit .folder)) [] 2 (isForest_sample _) (by decide)
  obtain ⟨p, hp, hsample⟩ := hcomplete sampleRequest (List.mem_singleton_self _)
    (reached_sample _)
  refine ⟨result, _, hresult, hrequests ▸ List.mem_map_of_mem hp, ?_⟩
  have hagrees := (hall p hp).2
  rw [hsample, exportedFolders_sample, Send.resolveInheritedAuthAnnotated_auth
    (isForest_sample _).nodup (isForest_sample _).nonEmpty (chain_sample _)] at hagrees
  rw [hsample]
  exact hagrees.mpr fun _ => trivial

/-- A folder without auth hides the auth of the workspace in Postman only. -/
theorem folder_without_auth_hides :
    ¬ ∀ (b : Bundle) (roots : List (String × String)) (depth : ℕ), IsForest b.folders →
      b.folders.length < depth → ∀ result, toPostmanWithRoots depth [b] roots = some result →
        ∀ r ∈ b.requests, ∀ around, (requestJson b r, around) ∈ docRequests result.content →
          applied (postmanAuth result.content (requestJson b r, around)) =
            applied (authToPostman (Send.resolveInheritedAuthAnnotated r.auth r.folderId
              b.folders b.workspace).auth) := by
  intro h
  obtain ⟨result, exported, hresult, hrequests, hcomplete, hall⟩ :=
    @exists_toPostman (sampleBundle .none) (isForest_sample .none) 2 (by decide) []
  obtain ⟨p, hp, hsample⟩ := hcomplete sampleRequest (List.mem_singleton_self _)
    (reached_sample _)
  obtain ⟨hexported, hnearest⟩ := hall p hp
  have heq := h _ [] 2 (isForest_sample .none) (by decide) result hresult p.1 hexported.1 p.2
    (hrequests ▸ List.mem_map_of_mem hp)
  rw [hnearest, exported_agrees (isForest_sample .none) hexported, hsample,
    exportedFolders_sample] at heq
  rcases heq rfl with hactive | ⟨-, hworkspace⟩
  · cases hactive
  · cases hworkspace

end Voleeo.Postman.Export
