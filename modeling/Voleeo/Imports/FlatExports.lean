import Voleeo.Imports.GroupedFormats
import Voleeo.Imports.InsomniaTree
import Voleeo.Loops

/-!
# Flat exports are rebuilt

An Insomnia export is walked with a guard against cycles, and a Yaak export without one. Where the
walk ends, the requests that hang at the root are in the result once, each in its groups.
-/
namespace Voleeo.Imports
open Postman

namespace Yaak

def flat (readers : Readers) : FlatFormat where
  folder := importFolder
  request := buildRequest readers
  hasAuth := hasAuth
  key := sortKey readers

/-- The walk goes on from a folder to what lies in it; a folder without an id leads to the root. -/
def Enters (folders : List Json) (place place' : Option String) : Prop :=
  ∃ f ∈ folders, folderIdOf f = place ∧ idOf f = place'

variable {readers : Readers} {folders requests : List Json}

theorem folder_mem_nodesOf {f : Json} (hf : f ∈ folders) :
    .folder f ∈ nodesOf readers folders requests (folderIdOf f) := by
  rw [nodesOf, mem_sortBy]
  exact List.mem_append_left _ (List.mem_map_of_mem (List.mem_filter.mpr ⟨hf, by simp⟩))

theorem mem_folder {f : Json} {place : Option String}
    (h : .folder f ∈ nodesOf readers folders requests place) :
    folderIdOf f = place ∧ f ∈ folders := by
  obtain ⟨hplace, ⟨g, hg, heq⟩ | ⟨r, -, heq⟩⟩ := mem_nodesOf h
  · cases heq
    exact ⟨hplace, hg⟩
  · cases heq

theorem enters_of_mem {f : Json} {place : Option String}
    (h : .folder f ∈ nodesOf readers folders requests place) : Enters folders place (idOf f) :=
  ⟨f, (mem_folder h).2, (mem_folder h).1, rfl⟩

theorem down_of_buildNodes {down : Option String → Bool → Option (List ImportedItem)}
    {inherit : Bool} {nodes : List Node} {items : List ImportedItem}
    (h : buildNodes readers down inherit nodes = some items) {f : Json}
    (hf : .folder f ∈ nodes) : ∃ inner, down (idOf f) (inherit || hasAuth f) = some inner := by
  induction nodes generalizing items with
  | nil => cases hf
  | cons n nodes ih =>
    cases n with
    | folder g =>
      obtain ⟨inner, hinner, h⟩ := Option.bind_eq_some_iff.mp h
      obtain ⟨rest, hrest, -⟩ := Option.bind_eq_some_iff.mp h
      rcases List.mem_cons.mp hf with heq | hf
      · cases heq
        exact ⟨inner, hinner⟩
      · exact ih hrest hf
    | request r =>
      obtain ⟨rest, hrest, -⟩ := Option.bind_eq_some_iff.mp h
      rcases List.mem_cons.mp hf with heq | hf
      · cases heq
      · exact ih hrest hf

/-- The walk returns with a fuel exactly when no walk along the folders is as long. -/
theorem buildChildren_returns_iff (fuel : ℕ) (place : Option String) (inherit : Bool) :
    (∃ items, buildChildren readers folders requests fuel place inherit = some items) ↔
      ∀ k place', Steps (Enters folders) k place place' → k < fuel := by
  induction fuel generalizing place inherit with
  | zero =>
    refine iff_of_false (fun ⟨items, h⟩ => by cases h) fun h => ?_
    exact Nat.not_lt_zero 0 (h 0 place (.refl place))
  | succ fuel ih =>
    constructor
    · rintro ⟨items, h⟩ k place' hsteps
      cases hsteps with
      | refl => exact Nat.succ_pos fuel
      | @head _ next _ k hstep hrest =>
        obtain ⟨f, hf, rfl, rfl⟩ := hstep
        have hinner := down_of_buildNodes h (folder_mem_nodesOf hf)
        exact Nat.succ_lt_succ ((ih _ _).mp hinner k place' hrest)
    · intro h
      refine buildNodes_returns _ fun f hf => (ih _ _).mpr fun k place' hsteps => ?_
      exact Nat.lt_of_succ_lt_succ (h (k + 1) place' (.head (enters_of_mem hf) hsteps))

/-- The importer ends exactly where no folder below the root leads back to a place around it. -/
theorem buildChildren_ends_iff (inherit : Bool) :
    (∃ fuel items, buildChildren readers folders requests fuel none inherit = some items) ↔
      NoLoop (Enters folders) none := by
  constructor
  · rintro ⟨fuel, h⟩
    exact noLoop_of_bounded ((buildChildren_returns_iff fuel none inherit).mp h)
  · intro hno
    have htargets : ∀ place place', Enters folders place place' → place' ∈ folders.map idOf := by
      rintro - - ⟨f, hf, -, rfl⟩
      exact List.mem_map_of_mem hf
    refine ⟨folders.length + 1, (buildChildren_returns_iff _ none inherit).mpr fun k place' h => ?_⟩
    have hle := h.le_of_noLoop hno htargets
    rw [List.length_map] at hle
    omega

/-! ## What is rebuilt -/

def foldersIn : List Node → List Json
  | [] => []
  | .folder f :: rest => f :: foldersIn rest
  | .request _ :: rest => foldersIn rest

def requestsIn : List Node → List Json
  | [] => []
  | .folder _ :: rest => requestsIn rest
  | .request r :: rest => r :: requestsIn rest

open Classical in
/-- The requests whose chain of folders passes a place. -/
noncomputable def passing (folders requests : List Json) (place : Option String) : List Json :=
  requests.filter fun r => Passes (parentOf folders) place (folderIdOf r)

/-- What a walk over nodes builds, when `below` holds the requests below a place. -/
theorem buildNodes_rebuilt {down : Option String → Bool → Option (List ImportedItem)}
    {chain : List Json} {inherit : Bool} (nodes : List Node)
    (hdown : ∀ f, .folder f ∈ nodes → ∀ inherit items, down (idOf f) inherit = some items →
      ∃ sources, items = itemsOf (flat readers) inherit sources ∧
        OrderedAll (sortKey readers) sources ∧
        (∀ x ∈ placedIn (f :: chain) sources, Around idOf folderIdOf folders none x.1 x.2) ∧
        ((placedIn (f :: chain) sources).map Prod.fst).Perm (passing folders requests (idOf f)))
    (haround : ∀ n ∈ nodes, Around idOf folderIdOf folders none n.value chain)
    {items : List ImportedItem} (h : buildNodes readers down inherit nodes = some items) :
    ∃ sources, items = itemsOf (flat readers) inherit sources ∧
      sources.map SourceNode.value = nodes.map Node.value ∧
      (∀ n ∈ sources, n.Ordered (sortKey readers)) ∧
      (∀ x ∈ placedIn chain sources, Around idOf folderIdOf folders none x.1 x.2) ∧
      ((placedIn chain sources).map Prod.fst).Perm
        (requestsIn nodes ++ (foldersIn nodes).flatMap fun f =>
          passing folders requests (idOf f)) := by
  induction nodes generalizing items with
  | nil =>
    cases h
    exact ⟨[], rfl, rfl, by simp, by simp [placedIn], .refl _⟩
  | cons n nodes ih =>
    rw [List.forall_mem_cons] at haround
    have hdown' := fun f hf => hdown f (List.mem_cons_of_mem n hf)
    cases n with
    | folder f =>
      obtain ⟨inner, hinner, h⟩ := Option.bind_eq_some_iff.mp h
      obtain ⟨rest, hrest, h⟩ := Option.bind_eq_some_iff.mp h
      cases h
      obtain ⟨sources, rfl, hordered, hplaced, hperm⟩ :=
        hdown f List.mem_cons_self _ _ hinner
      obtain ⟨sources', rfl, hvalues', hordered', hplaced', hperm'⟩ :=
        ih hdown' haround.2 hrest
      refine ⟨.group f sources :: sources', rfl, ?_, ?_, ?_, ?_⟩
      · exact congrArg (f :: ·) hvalues'
      · exact List.forall_mem_cons.mpr ⟨hordered, hordered'⟩
      · intro x hx
        rcases List.mem_append.mp hx with hx | hx
        · exact hplaced x hx
        · exact hplaced' x hx
      · rw [placedIn, SourceNode.placed, List.map_append, requestsIn, foldersIn, List.flatMap_cons]
        exact (hperm.append hperm').trans (List.perm_append_comm_assoc _ _ _)
    | request r =>
      obtain ⟨rest, hrest, h⟩ := Option.bind_eq_some_iff.mp h
      cases h
      obtain ⟨sources', rfl, hvalues', hordered', hplaced', hperm'⟩ :=
        ih hdown' haround.2 hrest
      refine ⟨.request r :: sources', rfl, ?_, ?_, ?_, ?_⟩
      · exact congrArg (r :: ·) hvalues'
      · exact List.forall_mem_cons.mpr ⟨trivial, hordered'⟩
      · exact List.forall_mem_cons.mpr ⟨haround.1, hplaced'⟩
      · exact hperm'.cons r

theorem foldersIn_append (ns ms : List Node) :
    foldersIn (ns ++ ms) = foldersIn ns ++ foldersIn ms := by
  induction ns with
  | nil => rfl
  | cons n ns ih => cases n <;> simp [foldersIn, ih]

theorem requestsIn_append (ns ms : List Node) :
    requestsIn (ns ++ ms) = requestsIn ns ++ requestsIn ms := by
  induction ns with
  | nil => rfl
  | cons n ns ih => cases n <;> simp [requestsIn, ih]

theorem foldersIn_perm {ns ms : List Node} (h : ns.Perm ms) :
    (foldersIn ns).Perm (foldersIn ms) := by
  induction h with
  | nil => exact .nil
  | cons n _ ih =>
    cases n with
    | folder f => exact ih.cons f
    | request r => exact ih
  | swap n m ns => cases n <;> cases m <;> first | exact .swap _ _ _ | exact .refl _
  | trans _ _ ih₁ ih₂ => exact ih₁.trans ih₂

theorem requestsIn_perm {ns ms : List Node} (h : ns.Perm ms) :
    (requestsIn ns).Perm (requestsIn ms) := by
  induction h with
  | nil => exact .nil
  | cons n _ ih =>
    cases n with
    | folder f => exact ih
    | request r => exact ih.cons r
  | swap n m ns => cases n <;> cases m <;> first | exact .swap _ _ _ | exact .refl _
  | trans _ _ ih₁ ih₂ => exact ih₁.trans ih₂

theorem in_nodesOf (place : Option String) :
    (foldersIn (nodesOf readers folders requests place)).Perm
        (folders.filter fun f => folderIdOf f = place) ∧
      (requestsIn (nodesOf readers folders requests place)).Perm
        (requests.filter fun r => folderIdOf r = place) := by
  have hfolders : ∀ l, foldersIn (l.map .folder) = l ∧ requestsIn (l.map .folder) = [] := by
    intro l
    induction l with
    | nil => exact ⟨rfl, rfl⟩
    | cons f l ih => exact ⟨congrArg (f :: ·) ih.1, ih.2⟩
  have hrequests : ∀ l, foldersIn (l.map .request) = [] ∧ requestsIn (l.map .request) = l := by
    intro l
    induction l with
    | nil => exact ⟨rfl, rfl⟩
    | cons r l ih => exact ⟨ih.1, congrArg (r :: ·) ih.2⟩
  constructor
  · refine (foldersIn_perm (sortBy_perm _ _)).trans (.of_eq ?_)
    rw [foldersIn_append, (hfolders _).1, (hrequests _).1, List.append_nil]
  · refine (requestsIn_perm (sortBy_perm _ _)).trans (.of_eq ?_)
    rw [requestsIn_append, (hfolders _).2, (hrequests _).2, List.nil_append]

/-- A child folder of a place, one link further from the root. -/
theorem OwnIds.child (hown : OwnIds folders) {place : Option String} {n : ℕ}
    (hdepth : Depth (parentOf folders) place n) {f : Json} (hf : f ∈ folders)
    (hplace : folderIdOf f = place) :
    ∃ id, idOf f = some id ∧ parentOf folders id = some place ∧
      Depth (parentOf folders) (some id) (n + 1) := by
  obtain ⟨id, hid⟩ := Option.isSome_iff_exists.mp (hown.present f hf)
  have hlink := hown.parentOf_eq hf hid
  rw [hplace] at hlink
  exact ⟨id, hid, hlink, .link hlink hdepth⟩

/-- The requests below a place are those in it, and those below the folders in it. -/
theorem passing_perm (hown : OwnIds folders) {place : Option String} {n : ℕ}
    (hdepth : Depth (parentOf folders) place n) :
    ((requests.filter fun r => folderIdOf r = place) ++
        (folders.filter fun f => folderIdOf f = place).flatMap fun f =>
          passing folders requests (idOf f)).Perm (passing folders requests place) := by
  classical
  have hchild : ∀ f ∈ folders.filter fun f => folderIdOf f = place, ∃ id, idOf f = some id ∧
      parentOf folders id = some place ∧ Depth (parentOf folders) (some id) (n + 1) := by
    intro f hf
    rw [List.mem_filter, decide_eq_true_eq] at hf
    exact hown.child hdepth hf.1 hf.2
  have hapart : (folders.filter fun f => folderIdOf f = place).Pairwise fun f g => ∀ r,
      decide (Passes (parentOf folders) (idOf f) (folderIdOf r)) = true →
      decide (Passes (parentOf folders) (idOf g) (folderIdOf r)) = false := by
    have hids := (List.pairwise_map.mp hown.distinct).filter fun f => folderIdOf f = place
    refine hids.imp_of_mem fun hf hg hne r hfr => decide_eq_false fun hgr => hne ?_
    obtain ⟨id, hid, -, hdepthf⟩ := hchild _ hf
    obtain ⟨id', hid', -, hdepthg⟩ := hchild _ hg
    have hfr := of_decide_eq_true hfr
    rw [hid] at hfr ⊢
    rw [hid'] at hgr ⊢
    exact hfr.unique hgr hdepthf hdepthg
  have hinside := flatMap_filter_perm hapart requests
  have hself : ∀ r, decide (folderIdOf r = place) = true →
      ((folders.filter fun f => folderIdOf f = place).any fun f =>
        decide (Passes (parentOf folders) (idOf f) (folderIdOf r))) = false := by
    intro r hr
    rw [List.any_eq_false]
    intro f hf hpasses
    obtain ⟨id, hid, -, hdepthf⟩ := hchild f hf
    have hpasses := of_decide_eq_true hpasses
    rw [hid, of_decide_eq_true hr] at hpasses
    obtain ⟨m, hm, hdepth'⟩ := hpasses.exists_depth hdepthf
    have := hdepth.unique hdepth'
    omega
  refine (hinside.append_left _).trans ((filter_or_perm hself requests).trans (.of_eq ?_))
  refine List.filter_congr fun r _ => ?_
  rw [Bool.eq_iff_iff, Bool.or_eq_true, decide_eq_true_eq, List.any_eq_true, decide_eq_true_eq,
    passes_iff]
  refine or_congr_right ⟨?_, ?_⟩
  · rintro ⟨f, hf, hpasses⟩
    obtain ⟨id, hid, hlink, -⟩ := hchild f hf
    have hpasses := of_decide_eq_true hpasses
    rw [hid] at hpasses
    exact ⟨id, hlink, hpasses⟩
  · rintro ⟨id, hlink, hpasses⟩
    rw [parentOf, Option.map_eq_some_iff] at hlink
    obtain ⟨f, hfind, hplace⟩ := hlink
    have hid : idOf f = some id := by simpa using List.find?_some hfind
    refine ⟨f, List.mem_filter.mpr ⟨List.mem_of_find?_eq_some hfind, decide_eq_true hplace⟩, ?_⟩
    rw [hid]
    exact decide_eq_true hpasses

/-- With an id of its own on each folder, the walk finds the requests below its place. -/
theorem buildChildren_rebuilt (hown : OwnIds folders) (fuel : ℕ) {place : Option String} {n : ℕ}
    (hdepth : Depth (parentOf folders) place n) {chain : List Json}
    (hplace : ∀ v, folderIdOf v = place → Around idOf folderIdOf folders none v chain)
    {inherit : Bool} {items : List ImportedItem}
    (h : buildChildren readers folders requests fuel place inherit = some items) :
    ∃ sources, items = itemsOf (flat readers) inherit sources ∧
      OrderedAll (sortKey readers) sources ∧
      (∀ x ∈ placedIn chain sources, Around idOf folderIdOf folders none x.1 x.2) ∧
      ((placedIn chain sources).map Prod.fst).Perm (passing folders requests place) := by
  induction fuel generalizing place n chain inherit items with
  | zero => cases h
  | succ fuel ih =>
    obtain ⟨sources, hitems, hvalues, hordered, hplaced, hperm⟩ :=
      @buildNodes_rebuilt readers folders requests _ chain inherit _
        (fun f hf inherit items hdown => by
          obtain ⟨hfolder, hmem⟩ := mem_folder hf
          obtain ⟨id, hid, -, hdepthf⟩ := hown.child hdepth hmem hfolder
          rw [hid] at hdown ⊢
          exact ih hdepthf (fun v hv => .inside hmem (hv.trans hid.symm) (hplace f hfolder)) hdown)
        (fun v hv => hplace _ (mem_nodesOf hv).1) _ h
    refine ⟨sources, hitems, orderedAll_iff.mpr ⟨?_, hordered⟩, hplaced, hperm.trans ?_⟩
    · rw [hvalues, List.pairwise_map]
      exact pairwise_sortBy (fun n : Node => sortKey readers n.value) _
    · obtain ⟨hfolders, hrequests⟩ := @in_nodesOf readers folders requests place
      exact (hrequests.append (hfolders.flatMap_right _)).trans (passing_perm hown hdepth)

/-- A chain of folders to the root is a chain of ids to it. -/
theorem around_iff (hown : OwnIds folders) {v : Json} :
    (∃ chain, Around idOf folderIdOf folders none v chain) ↔
      Passes (parentOf folders) none (folderIdOf v) := by
  rw [passes_root_iff]
  constructor
  · rintro ⟨chain, h⟩
    induction h with
    | top hroot =>
      rw [hroot]
      exact .root
    | @inside v g above hg hparent _ ih =>
      obtain ⟨id, hid⟩ := Option.isSome_iff_exists.mp (hown.present g hg)
      rw [hparent, hid]
      exact .link (hown.parentOf_eq hg hid) ih
  · intro h
    generalize hplace : folderIdOf v = place at h
    induction h generalizing v with
    | root => exact ⟨[], .top hplace⟩
    | @link id place hlink _ ih =>
      rw [parentOf, Option.map_eq_some_iff] at hlink
      obtain ⟨f, hfind, hfolder⟩ := hlink
      obtain ⟨chain, hchain⟩ := ih hfolder
      have hid : idOf f = some id := by simpa using List.find?_some hfind
      exact ⟨f :: chain, .inside (List.mem_of_find?_eq_some hfind) (hplace.trans hid.symm) hchain⟩

theorem rebuilt_of_ownIds (hown : OwnIds folders) {fuel : ℕ} {inherit : Bool}
    {items : List ImportedItem}
    (h : buildChildren readers folders requests fuel none inherit = some items) :
    Rebuilt (flat readers) inherit idOf folderIdOf folders requests none items := by
  classical
  obtain ⟨sources, hitems, hordered, hplaced, hperm⟩ :=
    buildChildren_rebuilt hown fuel .root (fun v hv => .top hv) h
  refine ⟨sources, hitems, hordered, hplaced, hperm.trans (.of_eq ?_)⟩
  rw [passing]
  exact List.filter_congr fun r _ => decide_eq_decide.mpr (around_iff hown).symm

end Yaak

/-! ## Whole documents -/

/-- Every group has an id, and no other group has it. -/
structure Insomnia.OwnGroupIds (resources : List Json) : Prop where
  present : ∀ g ∈ groupsOf resources, ((g.get "_id").bind Json.asStr).isSome = true
  distinct : ((groupsOf resources).map idOf).Nodup

/-- Reading the document ends, and where its groups can be told apart, its tree is rebuilt. -/
structure InsomniaFaithful (readers : Readers) (content : String) : Prop where
  ends : ∃ fuel, (Insomnia.parseInsomnia readers fuel content).isSome = true
  rebuilt : ∀ fuel doc resources parsed,
    readers.parseValue (Insomnia.normalized content) = .ok doc →
    (doc.get "resources").bind Json.asArray = some resources → Insomnia.OwnGroupIds resources →
    Insomnia.parseInsomnia readers fuel content = some (.ok parsed) →
    Rebuilt (Insomnia.flat readers) false Insomnia.idOf Insomnia.parentOf
      (Insomnia.groupsOf resources) (Insomnia.requestsOf resources) (Insomnia.rootIdOf resources)
      parsed.collection.items

structure YaakFaithful (readers : Readers) (content : String) : Prop where
  ends : ∃ fuel, (Yaak.parseYaak readers fuel content).isSome = true
  rebuilt : ∀ fuel doc parsed, readers.parseValue content = .ok doc →
    Yaak.OwnIds (Yaak.foldersOf doc) → Yaak.parseYaak readers fuel content = some (.ok parsed) →
    Rebuilt (Yaak.flat readers) (Yaak.rootAuth doc ≠ .none) Yaak.idOf Yaak.folderIdOf
      (Yaak.foldersOf doc) (Yaak.requestsOf doc) none parsed.collection.items

theorem insomniaFaithful_iff (readers : Readers) (content : String) :
    InsomniaFaithful readers content ↔ ∀ doc resources,
      readers.parseValue (Insomnia.normalized content) = .ok doc →
      (doc.get "resources").bind Json.asArray = some resources → Insomnia.OwnGroupIds resources →
      ¬ Insomnia.RootTwice resources := by
  have hbuilt : ∀ {fuel doc resources parsed},
      readers.parseValue (Insomnia.normalized content) = .ok doc →
      (doc.get "resources").bind Json.asArray = some resources →
      Insomnia.parseInsomnia readers fuel content = some (.ok parsed) →
      ∃ built, Insomnia.buildChildren readers resources fuel (Insomnia.rootIdOf resources) false []
        = some built ∧ parsed.collection.items = built.1 := by
    intro fuel doc resources parsed hdoc hresources hparse
    rw [Insomnia.parseInsomnia, hdoc] at hparse
    simp only [Insomnia.collectionOf, hresources] at hparse
    obtain ⟨built, hbuilt, hparse⟩ := Option.bind_eq_some_iff.mp hparse
    cases hparse
    exact ⟨built, hbuilt, rfl⟩
  constructor
  · intro h doc resources hdoc hresources hown
    obtain ⟨parsed, hparsed⟩ :=
      Insomnia.collectionOf_returns readers content hresources (Nat.lt_succ_self _)
    have hparse : Insomnia.parseInsomnia readers (resources.length + 1) content =
        some (.ok parsed) := by
      rw [Insomnia.parseInsomnia, hdoc]
      exact hparsed
    obtain ⟨built, hbuilt, hitems⟩ := hbuilt hdoc hresources hparse
    refine (Insomnia.rebuilt_iff hbuilt).mp ?_
    rw [← hitems]
    exact h.rebuilt _ doc resources parsed hdoc hresources hown hparse
  · intro h
    refine ⟨?_, fun fuel doc resources parsed hdoc hresources hown hparse => ?_⟩
    · cases hdoc : readers.parseValue (Insomnia.normalized content) with
      | error e => exact ⟨0, by rw [Insomnia.parseInsomnia, hdoc]; rfl⟩
      | ok doc =>
        cases hresources : (doc.get "resources").bind Json.asArray with
        | none =>
          refine ⟨0, ?_⟩
          rw [Insomnia.parseInsomnia, hdoc]
          simp only [Insomnia.collectionOf, hresources]
          rfl
        | some resources =>
          obtain ⟨parsed, hparsed⟩ :=
            Insomnia.collectionOf_returns readers content hresources (Nat.lt_succ_self _)
          refine ⟨resources.length + 1, ?_⟩
          rw [Insomnia.parseInsomnia, hdoc]
          exact Option.isSome_iff_exists.mpr ⟨_, hparsed⟩
    · obtain ⟨built, hbuilt, hitems⟩ := hbuilt hdoc hresources hparse
      rw [hitems]
      exact (Insomnia.rebuilt_iff hbuilt).mpr (h doc resources hdoc hresources hown)

theorem yaakFaithful_iff (readers : Readers) (content : String) :
    YaakFaithful readers content ↔ ∀ doc, readers.parseValue content = .ok doc →
      (doc.get "yaakSchema").isSome = true →
      NoLoop (Yaak.Enters (Yaak.foldersOf doc)) none := by
  constructor
  · rintro ⟨⟨fuel, hends⟩, -⟩ doc hdoc hschema
    obtain ⟨schema, hschema⟩ := Option.isSome_iff_exists.mp hschema
    obtain ⟨result, hresult⟩ := Option.isSome_iff_exists.mp hends
    rw [Yaak.parseYaak, hdoc] at hresult
    simp only [Yaak.collectionOf, hschema] at hresult
    obtain ⟨items, hitems, -⟩ := Option.bind_eq_some_iff.mp hresult
    exact (Yaak.buildChildren_ends_iff _).mp ⟨fuel, items, hitems⟩
  · intro h
    refine ⟨?_, fun fuel doc parsed hdoc hown hparse => ?_⟩
    · cases hdoc : readers.parseValue content with
      | error e => exact ⟨0, by rw [Yaak.parseYaak, hdoc]; rfl⟩
      | ok doc =>
        cases hschema : doc.get "yaakSchema" with
        | none =>
          refine ⟨0, ?_⟩
          rw [Yaak.parseYaak, hdoc]
          simp only [Yaak.collectionOf, hschema]
          rfl
        | some schema =>
          obtain ⟨fuel, items, hitems⟩ : ∃ fuel items, Yaak.buildChildren readers
              (Yaak.foldersOf doc) (Yaak.requestsOf doc) fuel none
              (Yaak.rootAuth doc ≠ .none) = some items :=
            (Yaak.buildChildren_ends_iff _).mpr (h doc hdoc (by rw [hschema]; rfl))
          refine ⟨fuel, ?_⟩
          rw [Yaak.parseYaak, hdoc]
          simp only [Yaak.collectionOf, hschema, hitems]
          rfl
    · rw [Yaak.parseYaak, hdoc] at hparse
      cases hschema : doc.get "yaakSchema" with
      | none =>
        simp only [Yaak.collectionOf, hschema] at hparse
        cases hparse
      | some schema =>
        simp only [Yaak.collectionOf, hschema] at hparse
        obtain ⟨items, hitems, hparse⟩ := Option.bind_eq_some_iff.mp hparse
        cases hparse
        exact Yaak.rebuilt_of_ownIds hown hitems

/-- The importers of flat exports end and lose nothing, but for a group that has the id of the root
it hangs below, in one format, and for folders that lead back to a place around them, in the
other. -/
theorem flatExports_faithful_iff (readers : Readers) (content : String) :
    (InsomniaFaithful readers content ↔ ∀ doc resources,
      readers.parseValue (Insomnia.normalized content) = .ok doc →
      (doc.get "resources").bind Json.asArray = some resources → Insomnia.OwnGroupIds resources →
      ¬ Insomnia.RootTwice resources) ∧
    (YaakFaithful readers content ↔ ∀ doc, readers.parseValue content = .ok doc →
      (doc.get "yaakSchema").isSome = true →
      NoLoop (Yaak.Enters (Yaak.foldersOf doc)) none) :=
  ⟨insomniaFaithful_iff readers content, yaakFaithful_iff readers content⟩

/-! A Yaak export with one folder, which has neither an id nor a folder around it. -/

def idlessText : String :=
  "\x7b\"yaakSchema\":4,\"resources\":\x7b\"folders\":[\x7b\"name\":\"A\"\x7d]\x7d\x7d"

def idlessDoc : Json :=
  .object [("yaakSchema", .number "4"),
    ("resources", .object [("folders", .array [.object [("name", .string "A")]])])]

def idlessReaders : Readers where
  parseValue content :=
    if content = idlessText then .ok idlessDoc else .error (.parse "expected value")
  readJson _ := none
  upper s := s
  int text := text.toInt?
  float text := text.toInt?.getD 0
  render _ := ""

/-- The folder is looked up in the root again and again. -/
theorem idless_folder_never_ends : ¬ ∀ readers content,
    InsomniaFaithful readers content ∧ YaakFaithful readers content := by
  intro h
  have hread : idlessReaders.parseValue idlessText = .ok idlessDoc := by
    simp only [idlessReaders, if_true]
  have hno := (yaakFaithful_iff _ _).mp (h idlessReaders idlessText).2 idlessDoc hread rfl
  have hself : Yaak.Enters (Yaak.foldersOf idlessDoc) none none :=
    ⟨.object [("name", .string "A")], List.mem_singleton.mpr rfl, rfl, rfl⟩
  exact hno none .refl (.single hself)

end Voleeo.Imports
