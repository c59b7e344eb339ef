import Voleeo.GitDiff.MergeLaws

/-!
# Conflicted entities

A conflicted file arrives as three optional sides of a tagged entity. The
chooser shows its conflicts field by field, or as a whole when one side deleted
the entity, and the choice assembles the entity to write back. The merge starts
from ours and visits listed fields only, so what no field lists stays ours.
-/
namespace Voleeo.GitDiff

/-! ## Tagged entities -/

inductive GitNodeKind
  | workspace
  | folder
  | request
  | webSocket
  | grpc
  | jar
  | env
  | snapshot
  | other
  deriving DecidableEq, Repr

def nodeKindToType : GitNodeKind → Option EntityType
  | .request => some .request
  | .webSocket => some .websocket
  | .grpc => some .grpc
  | .folder => some .folder
  | .env => some .environment
  | .jar => some .cookie
  | .workspace => some .workspace
  | .snapshot => some .snapshot
  | .other => none

def kindOf : EntityType → GitNodeKind
  | .request => .request
  | .websocket => .webSocket
  | .grpc => .grpc
  | .folder => .folder
  | .environment => .env
  | .cookie => .jar
  | .workspace => .workspace
  | .snapshot => .snapshot

structure GitEntity where
  kind : GitNodeKind
  request : Option HttpRequest := none
  connection : Option WsConnection := none
  grpc : Option GrpcRequest := none
  folder : Option ApiFolder := none
  environment : Option Environment := none
  jar : Option CookieJar := none
  workspace : Option Workspace := none
  snapshot : Option Snapshot := none
  deriving DecidableEq, Repr

/-- The record behind the tag. -/
def innerOf (entity : Option GitEntity) : (type : EntityType) → Option (Inner type)
  | .request => entity.bind (·.request)
  | .websocket => entity.bind (·.connection)
  | .grpc => entity.bind (·.grpc)
  | .folder => entity.bind (·.folder)
  | .environment => entity.bind (·.environment)
  | .cookie => entity.bind (·.jar)
  | .workspace => entity.bind (·.workspace)
  | .snapshot => entity.bind (·.snapshot)

def wrap : (type : EntityType) → Inner type → GitEntity
  | .request, inner => { kind := .request, request := some inner }
  | .websocket, inner => { kind := .webSocket, connection := some inner }
  | .grpc, inner => { kind := .grpc, grpc := some inner }
  | .folder, inner => { kind := .folder, folder := some inner }
  | .environment, inner => { kind := .env, environment := some inner }
  | .cookie, inner => { kind := .jar, jar := some inner }
  | .workspace, inner => { kind := .workspace, workspace := some inner }
  | .snapshot, inner => { kind := .snapshot, snapshot := some inner }

@[simp] theorem innerOf_wrap (type : EntityType) (inner : Inner type) :
    innerOf (some (wrap type inner)) type = some inner := by
  cases type <;> rfl

/-! ## Names and places -/

def nameOf : (type : EntityType) → Inner type → String
  | .request, e => e.name
  | .websocket, e => e.name
  | .grpc, e => e.name
  | .folder, e => e.name
  | .environment, e => e.name
  | .cookie, e => e.name
  | .workspace, e => e.name
  | .snapshot, e => e.name

def methodOf : (type : EntityType) → Inner type → Option String
  | .request, e => some e.method
  | _, _ => none

/-- Where an entity sits in the tree. -/
structure Place where
  folderId : Option String
  order : ℚ
  deriving DecidableEq, Repr

/-- The entity types that live in the tree have a place. -/
def placeOf : (type : EntityType) → Inner type → Option Place
  | .request, e => some ⟨e.folderId, e.order⟩
  | .websocket, e => some ⟨e.folderId, e.order⟩
  | .grpc, e => some ⟨e.folderId, e.order⟩
  | .folder, e => some ⟨e.folderId, e.order⟩
  | _, _ => none

structure FolderRef where
  id : String
  name : String
  deriving DecidableEq, Repr

def folderNames (folders : List FolderRef) : OrderedMap String String :=
  OrderedMap.ofList (folders.map fun f => (f.id, f.name))

/-- Neither an empty folder id nor an empty name counts as a location. -/
def parentName (folders : OrderedMap String String) (folderId : Option String) : Option String :=
  ((folderId.filter (· ≠ "")).bind folders.get?).filter (· ≠ "")

def locationOf (folders : OrderedMap String String) : (type : EntityType) →
    Option (Inner type) → String
  | .request, e => (parentName folders (e.bind (·.folderId))).getD "Requests"
  | .websocket, e => (parentName folders (e.bind (·.folderId))).getD "WebSockets"
  | .grpc, e => (parentName folders (e.bind (·.folderId))).getD "gRPC"
  | .folder, e => (parentName folders (e.bind (·.folderId))).getD "Folders"
  | .environment, _ => "Environments"
  | .cookie, _ => "Cookies"
  | .snapshot, _ => "Snapshots"
  | .workspace, _ => "Workspace"

/-! ## The chooser -/

structure GitEntityConflict where
  path : String
  nodeId : Option String
  nodeKind : GitNodeKind
  base : Option GitEntity
  ours : Option GitEntity
  theirs : Option GitEntity
  deriving DecidableEq, Repr

/-- A conflicted entity, decided as a whole exactly when one side is missing. -/
structure ConflictEntity where
  path : String
  nodeId : Option String
  type : EntityType
  method : Option String
  name : String
  location : String
  conflicts : List ConflictField
  wholeEntity : Bool
  base : Option GitEntity
  ours : Option GitEntity
  theirs : Option GitEntity
  wholeEntity_eq : wholeEntity = ((innerOf ours type).isNone || (innerOf theirs type).isNone)

/-- The only row of an entity that one side deleted. -/
def wholeEntityField (hasOurs hasTheirs : Bool) : ConflictField where
  id := "__entity"
  group := .general
  label := some "This item"
  yours := if hasOurs then "Keep your version" else "Deleted on your side"
  theirs := if hasTheirs then "Keep their version" else "Deleted on their side"
  canBoth := none
  secret := none

def buildConflictEntity (fmap : OrderedMap String String) (c : GitEntityConflict) :
    Option ConflictEntity :=
  match nodeKindToType c.nodeKind with
  | none => none
  | some type =>
    let ours := innerOf c.ours type
    let theirs := innerOf c.theirs type
    match ours.or theirs with
    | none => none
    | some ref => some
        { path := c.path
          nodeId := c.nodeId
          type := type
          method := methodOf type ref
          name := nameOf type ref
          location := locationOf fmap type (some ref)
          conflicts :=
            match ours, theirs with
            | some o, some t => buildConflicts (specsByType type) (innerOf c.base type) o t
            | o, t => [wholeEntityField o.isSome t.isSome]
          wholeEntity := ours.isNone || theirs.isNone
          base := c.base
          ours := c.ours
          theirs := c.theirs
          wholeEntity_eq := rfl }

def buildConflictEntities (conflicts : List GitEntityConflict) (folders : List FolderRef) :
    List ConflictEntity :=
  conflicts.filterMap (buildConflictEntity (folderNames folders))

/-- The entity to write back; `none` accepts a deletion. -/
def mergeChoice (entity : ConflictEntity) (choice : Choices) : Option GitEntity :=
  let ours := innerOf entity.ours entity.type
  let theirs := innerOf entity.theirs entity.type
  if entity.wholeEntity then
    (if choice "__entity" = some .theirs then theirs else ours).map (wrap entity.type)
  else
    match ours, theirs with
    | some o, some t =>
      some (wrap entity.type
        (mergeEntity (specsByType entity.type) (innerOf entity.base entity.type) o t choice))
    | _, _ => none -- excluded by `wholeEntity_eq`

theorem mergeChoice_of_sides (entity : ConflictEntity) {o t : Inner entity.type}
    (ho : innerOf entity.ours entity.type = some o)
    (ht : innerOf entity.theirs entity.type = some t) (choice : Choices) :
    innerOf (mergeChoice entity choice) entity.type =
      some (mergeEntity (specsByType entity.type) (innerOf entity.base entity.type) o t
        choice) := by
  have hwhole : entity.wholeEntity = false := by
    rw [entity.wholeEntity_eq, ho, ht]
    rfl
  simp [mergeChoice, hwhole, ho, ht]

/-- Picking a side of an entity that one side deleted keeps that side, or deletes it. -/
theorem mergeChoice_of_missing (entity : ConflictEntity)
    (h : innerOf entity.ours entity.type = none ∨ innerOf entity.theirs entity.type = none)
    (choice : Choices) :
    innerOf (mergeChoice entity choice) entity.type =
      if choice "__entity" = some .theirs then innerOf entity.theirs entity.type
      else innerOf entity.ours entity.type := by
  have hwhole : entity.wholeEntity = true := by
    rw [entity.wholeEntity_eq]
    rcases h with h | h <;> simp [h]
  have hwrap : ∀ inner : Option (Inner entity.type),
      innerOf (inner.map (wrap entity.type)) entity.type = inner := by
    intro inner
    cases inner with
    | none => cases entity.type <;> rfl
    | some e => exact innerOf_wrap entity.type e
  simp only [mergeChoice, hwhole, if_true]
  rw [hwrap]

/-! ## What no field lists -/

/-- The entity with every listed property blanked. -/
def unlisted : (type : EntityType) → Inner type → Inner type
  | .request, e =>
    { e with name := "", method := "", url := "", parameters := [], headers := [], body := none,
             auth := .none }
  | .websocket, e => { e with name := "", url := "", parameters := [], headers := [], auth := .none }
  | .grpc, e =>
    { e with name := "", target := "", tls := false, service := none, method := none,
             message := "", metadata := [], auth := .none }
  | .folder, e =>
    { e with name := "", color := none, headers := [], «variables» := [], auth := .none }
  | .environment, e => { e with name := "", color := "", «variables» := [] }
  | .cookie, e => { e with name := "", cookies := [] }
  | .workspace, e => { e with name := "", headers := [], auth := .none, dnsOverrides := [] }
  | .snapshot, e => { e with name := "", pinned := false }

theorem placeOf_unlisted (type : EntityType) (e : Inner type) :
    placeOf type (unlisted type e) = placeOf type e := by
  cases type <;> rfl

theorem unlisted_mergeField (type : EntityType) {g : Field (Inner type)} (hg : g ∈ specsByType type)
    (base : Option (Inner type)) (ours theirs out : Inner type) (choice : Choices) :
    unlisted type (mergeField base ours theirs choice out g) = unlisted type out := by
  cases type with
  | request =>
    simp only [specsByType, requestSpecs, List.mem_cons, List.not_mem_nil, or_false] at hg
    rcases hg with rfl | rfl | rfl | rfl | rfl | rfl | rfl | rfl | rfl <;> rfl
  | websocket =>
    simp only [specsByType, connectionSpecs, List.mem_cons, List.not_mem_nil, or_false] at hg
    rcases hg with rfl | rfl | rfl | rfl | rfl <;> rfl
  | grpc =>
    simp only [specsByType, grpcSpecs, List.mem_cons, List.not_mem_nil, or_false] at hg
    rcases hg with rfl | rfl | rfl | rfl | rfl | rfl | rfl | rfl <;> rfl
  | folder =>
    simp only [specsByType, folderSpecs, List.mem_cons, List.not_mem_nil, or_false] at hg
    rcases hg with rfl | rfl | rfl | rfl | rfl <;> rfl
  | environment =>
    simp only [specsByType, environmentSpecs, List.mem_cons, List.not_mem_nil, or_false] at hg
    rcases hg with rfl | rfl | rfl <;> rfl
  | cookie =>
    simp only [specsByType, jarSpecs, List.mem_cons, List.not_mem_nil, or_false] at hg
    rcases hg with rfl | rfl <;> rfl
  | workspace =>
    simp only [specsByType, workspaceSpecs, List.mem_cons, List.not_mem_nil, or_false] at hg
    rcases hg with rfl | rfl | rfl | rfl <;> rfl
  | snapshot =>
    simp only [specsByType, snapshotSpecs, List.mem_cons, List.not_mem_nil, or_false] at hg
    rcases hg with rfl | rfl | rfl | rfl | rfl | rfl | rfl <;> rfl

theorem unlisted_foldl (type : EntityType) {specs : List (Field (Inner type))}
    (hspecs : ∀ g ∈ specs, g ∈ specsByType type) (base : Option (Inner type))
    (ours theirs out : Inner type) (choice : Choices) :
    unlisted type (specs.foldl (mergeField base ours theirs choice) out) = unlisted type out := by
  induction specs generalizing out with
  | nil => rfl
  | cons g gs ih =>
    rw [List.foldl_cons, ih fun g' hg' => hspecs g' (List.mem_cons_of_mem _ hg')]
    exact unlisted_mergeField type (hspecs g List.mem_cons_self) base ours theirs out choice

/-- The merged entity has the unlisted properties of ours. -/
theorem unlisted_mergeEntity (type : EntityType) (base : Option (Inner type))
    (ours theirs : Inner type) (choice : Choices) :
    unlisted type (mergeEntity (specsByType type) base ours theirs choice) = unlisted type ours :=
  unlisted_foldl type (fun _ h => h) base ours theirs ours choice

theorem placeOf_mergeEntity (type : EntityType) (base : Option (Inner type))
    (ours theirs : Inner type) (choice : Choices) :
    placeOf type (mergeEntity (specsByType type) base ours theirs choice) = placeOf type ours := by
  rw [← placeOf_unlisted, unlisted_mergeEntity, placeOf_unlisted]

/-- Ours is where the base was, and theirs is somewhere else in the tree. -/
def MovedByTheirs (entity : ConflictEntity) : Prop :=
  ∃ b o t p, innerOf entity.base entity.type = some b ∧
    innerOf entity.ours entity.type = some o ∧ innerOf entity.theirs entity.type = some t ∧
    placeOf entity.type b = some p ∧ placeOf entity.type o = some p ∧
    placeOf entity.type t ≠ some p

/-- The entity assembled for a conflict sits where theirs does. -/
def KeepsMoveOfTheirs (entity : ConflictEntity) (choice : Choices) : Prop :=
  ∃ merged t, innerOf (mergeChoice entity choice) entity.type = some merged ∧
    innerOf entity.theirs entity.type = some t ∧
    placeOf entity.type merged = placeOf entity.type t

/-- A move of theirs alone is lost under every choice. -/
theorem move_of_theirs_is_lost (entity : ConflictEntity) (h : MovedByTheirs entity)
    (choice : Choices) : ¬ KeepsMoveOfTheirs entity choice := by
  obtain ⟨b, o, t, p, -, ho, ht, -, hpo, hpt⟩ := h
  rintro ⟨merged, t', hm, ht', hplace⟩
  obtain rfl : t = t' := Option.some.inj (ht.symm.trans ht')
  rw [mergeChoice_of_sides entity ho ht] at hm
  obtain rfl := Option.some.inj hm
  rw [placeOf_mergeEntity, hpo] at hplace
  exact hpt hplace.symm

/-- A request that theirs moved into a folder. -/
def movedRequest : ConflictEntity where
  path := "requests/r1.yaml"
  nodeId := some "r1"
  type := .request
  method := some "POST"
  name := "Create"
  location := "Requests"
  conflicts := []
  wholeEntity := false
  base := some (wrap .request (requestWith none))
  ours := some (wrap .request (requestWith none))
  theirs := some (wrap .request { requestWith none with folderId := some "f2" })
  wholeEntity_eq := rfl

theorem movedRequest_moved : MovedByTheirs movedRequest :=
  ⟨requestWith none, requestWith none, { requestWith none with folderId := some "f2" },
    ⟨none, 0⟩, rfl, rfl, rfl, rfl, rfl, fun h =>
      absurd (congrArg (fun p : Option Place => p.bind (·.folderId)) h) (by decide)⟩

theorem movedRequest_is_lost : ¬ KeepsMoveOfTheirs movedRequest fun _ => none :=
  move_of_theirs_is_lost movedRequest movedRequest_moved fun _ => none

theorem moves_are_not_kept :
    ¬ ∀ (entity : ConflictEntity) (choice : Choices), MovedByTheirs entity →
      KeepsMoveOfTheirs entity choice := by
  intro h
  obtain ⟨merged, t, hm, ht, hplace⟩ :=
    h movedRequest (fun _ => some .theirs) movedRequest_moved
  cases hm
  cases ht
  have hfolder : (none : Option String) = some "f2" :=
    congrArg (fun p : Option Place => p.bind (·.folderId)) hplace
  cases hfolder

end Voleeo.GitDiff
