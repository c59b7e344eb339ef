import Voleeo.Crypto.Cipher
import Voleeo.LineSplit
import Voleeo.Resolve.Str

/-!
# Status of a workspace repository

Git lists the paths with changes. A file whose only change against HEAD is
volatile metadata is hidden, and reset to HEAD before a pull.
-/
namespace Voleeo.Git
open Resolve (isWhitespace strTrim)

inductive GitChange
  | added | modified | deleted | renamed | conflicted | untracked
  deriving DecidableEq, Repr

inductive GitNodeKind
  | workspace | folder | request | webSocket | grpc | jar | env | snapshot | other
  deriving DecidableEq, Repr

structure GitFileChange where
  path : Text
  nodeId : Option Text
  nodeKind : GitNodeKind
  change : GitChange
  staged : Bool
  parentId : Option Text
  deriving DecidableEq, Repr

structure GitStatus where
  files : List GitFileChange
  conflicted : Bool
  deriving DecidableEq, Repr

/-- The status flags of a path. -/
structure Status where
  indexNew : Bool := false
  indexModified : Bool := false
  indexDeleted : Bool := false
  indexRenamed : Bool := false
  indexTypechange : Bool := false
  wtNew : Bool := false
  wtModified : Bool := false
  wtDeleted : Bool := false
  wtRenamed : Bool := false
  wtTypechange : Bool := false
  conflicted : Bool := false
  deriving DecidableEq, Repr

/-- A listed path; a path that is not Unicode has no text. -/
structure Entry where
  path : Option Text
  status : Status

/-- What git and the working directory hold. A repository without a working directory has none. -/
structure Repository where
  /-- The listed paths, untracked ones included, or why git lists none. -/
  statuses : Except VoleeoError (List Entry)
  /-- The working files that can be read as text. -/
  workdir : Option (Text → Option Text)
  /-- The blobs of HEAD that are text. -/
  headBlob : Text → Option Text

/-- The text of a working file. -/
def Repository.working (repo : Repository) (rel : Text) : Option Text :=
  repo.workdir.bind fun workdir => workdir rel

/-! ## Texts and paths -/

/-- The lines without their line breaks, as `str::lines` yields them. -/
def strLines (s : Text) : List Text :=
  let split := splitLines '\n' s
  split.1.map (fun l => if l.getLast? = some '\r' then l.dropLast else l) ++
    if split.2 = [] then [] else [split.2]

def stripPrefix (front s : Text) : Option Text :=
  if front <+: s then some (s.drop front.length) else none

def stripSuffix (back s : Text) : Option Text :=
  if back <:+ s then some (s.take (s.length - back.length)) else none

/-- The name behind the last slash. -/
def fileName (path : Text) : Text := path.rtakeWhile (· != '/')

def classifyPath (path : Text) : GitNodeKind × Option Text :=
  let name := fileName path
  if name = "workspace.yaml".toList then (.workspace, none)
  else
    let kinds : List (String × GitNodeKind) :=
      [("req_", .request), ("ws_", .webSocket), ("grpc_", .grpc), ("folder_", .folder),
        ("jar_", .jar), ("env_", .env), ("snapshot_", .snapshot)]
    let found := kinds.findSome? fun kind =>
      ((stripPrefix kind.1.toList name).bind (stripSuffix ".yaml".toList)).map fun id =>
        (kind.2, some id)
    found.getD (.other, none)

/-- The top-level `folderId` of an entity. -/
def parseFolderId (yaml : Text) : Option Text :=
  ((strLines yaml).findSome? (stripPrefix "folderId:".toList)).bind fun rest =>
    let isQuote := fun c => c == '"' || c == '\''
    let v := ((strTrim rest).dropWhile isQuote).rdropWhile isQuote
    if v = [] ∨ v = "null".toList ∨ v = "~".toList then none else some v

def headParentId (repo : Repository) (rel : Text) : Option Text :=
  (repo.headBlob rel).bind parseFolderId

/-! ## Volatile metadata -/

/-- Keys whose churn is no change. -/
def volatileKeys : List Text := ["updatedAt:".toList]

def stripVolatile (content : Text) : Text :=
  List.intercalate ['\n'] <| (strLines content).filter fun l =>
    !volatileKeys.any fun k => k.isPrefixOf (l.dropWhile isWhitespace)

/-- The working file and its HEAD version are the same without their volatile lines. -/
def onlyVolatileChange (repo : Repository) (rel : Text) : Bool :=
  match repo.working rel, repo.headBlob rel with
  | some working, some head => stripVolatile working == stripVolatile head
  | _, _ => false

/-! ## Status -/

def indexChange (st : Status) : Option GitChange :=
  if st.indexNew then some .added
  else if st.indexDeleted then some .deleted
  else if st.indexRenamed then some .renamed
  else if st.indexModified || st.indexTypechange then some .modified
  else none

def worktreeChange (st : Status) : Option GitChange :=
  if st.wtNew then some .untracked
  else if st.wtDeleted then some .deleted
  else if st.wtRenamed then some .renamed
  else if st.wtModified || st.wtTypechange then some .modified
  else none

/-- The paths that the status leaves out. -/
def isHidden (repo : Repository) (path : Text) (st : Status) : Bool :=
  path == ".gitignore".toList || (!st.conflicted && onlyVolatileChange repo path)

/-- The rows of one listed path. -/
def entryFiles (repo : Repository) (entry : Entry) : List GitFileChange :=
  match entry.path with
  | none => []
  | some p =>
    if isHidden repo p entry.status then []
    else
      let (nodeKind, nodeId) := classifyPath p
      if entry.status.conflicted then
        [⟨p, nodeId, nodeKind, .conflicted, false, none⟩]
      else
        let isItem := nodeKind == .request || nodeKind == .webSocket || nodeKind == .grpc ||
          nodeKind == .folder
        let parentId :=
          if (entry.status.wtDeleted || entry.status.indexDeleted) && isItem then
            headParentId repo p
          else none
        ((indexChange entry.status).map fun change =>
            (⟨p, nodeId, nodeKind, change, true, parentId⟩ : GitFileChange)).toList ++
          ((worktreeChange entry.status).map fun change =>
            (⟨p, nodeId, nodeKind, change, false, parentId⟩ : GitFileChange)).toList

def status (repo : Repository) : Except VoleeoError GitStatus := do
  let statuses ← repo.statuses
  return {
    files := statuses.flatMap (entryFiles repo)
    conflicted := statuses.any fun entry =>
      match entry.path with
      | none => false
      | some p => !isHidden repo p entry.status && entry.status.conflicted }

/-! ## Discarding volatile changes -/

/-- Without untracked files, a path is listed for the index or for a tracked working file. -/
def Status.tracked (st : Status) : Bool :=
  (indexChange st).isSome || st.wtModified || st.wtDeleted || st.wtRenamed || st.wtTypechange ||
    st.conflicted

def Repository.writeFile (repo : Repository) (rel content : Text) : Repository :=
  { repo with workdir := repo.workdir.map fun workdir p =>
      if p = rel then some content else workdir p }

theorem Repository.working_writeFile (repo : Repository) (rel content p : Text) :
    (repo.writeFile rel content).working p =
      if p = rel then repo.workdir.map fun _ => content else repo.working p := by
  rw [working, working, writeFile]
  cases repo.workdir <;> simp

/-- The loop over the listed paths; a path may refuse the write with an error. -/
def discardEntries (refuses : Text → Option String) :
    Repository → List Entry → Repository × Except VoleeoError Unit
  | repo, [] => (repo, .ok ())
  | repo, entry :: rest =>
    match entry.path with
    | none => discardEntries refuses repo rest
    | some rel =>
      if entry.status.conflicted || !onlyVolatileChange repo rel then
        discardEntries refuses repo rest
      else
        match repo.headBlob rel with
        | none => discardEntries refuses repo rest
        | some content =>
          match refuses rel with
          | some e => (repo, .error (.git s!"Failed to reset {String.ofList rel}: {e}"))
          | none => discardEntries refuses (repo.writeFile rel content) rest

def discardVolatileChanges (refuses : Text → Option String) (repo : Repository) :
    Repository × Except VoleeoError Unit :=
  match repo.workdir, repo.statuses with
  | none, _ => (repo, .ok ())
  | some _, .error e => (repo, .error e)
  | some _, .ok statuses =>
    discardEntries refuses repo (statuses.filter fun entry => entry.status.tracked)

end Voleeo.Git
