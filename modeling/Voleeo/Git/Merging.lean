import Mathlib.Data.List.Dedup
import Mathlib.Data.Fin.Basic
import Mathlib.Logic.Function.Basic
import Voleeo.Fallible
import Voleeo.FormUrlEncoded
import Voleeo.Sse.Decoder

/-!
# An index with stages

Stage zero holds what a path will be in the next tree. A conflicted path has
entries at the other stages: the ancestor, our side and their side. Paths and
contents are of any type.
-/
namespace Voleeo.Git

variable {π β : Type} [DecidableEq π]

/-- There are four stages, so that the numerals below name stages. -/
instance neZero_stages : NeZero 4 := ⟨by decide⟩

structure IndexEntry (π β : Type) where
  path : π
  stage : Fin 4
  content : β
  deriving DecidableEq, Repr

/-- The entries, in the order in which the index lists them. -/
abbrev Index (π β : Type) := List (IndexEntry π β)

structure IndexConflict (π β : Type) where
  ancestor : Option (IndexEntry π β)
  our : Option (IndexEntry π β)
  their : Option (IndexEntry π β)

namespace Index

def getPath (index : Index π β) (p : π) (stage : Fin 4) : Option (IndexEntry π β) :=
  index.find? fun e => e.path = p ∧ e.stage = stage

def IsConflicted (index : Index π β) (p : π) : Prop := ∃ e ∈ index, e.path = p ∧ e.stage ≠ 0

instance (index : Index π β) (p : π) : Decidable (index.IsConflicted p) :=
  inferInstanceAs (Decidable (∃ e ∈ index, e.path = p ∧ e.stage ≠ 0))

/-- The content at stage zero, or at the stage of our side. -/
def contentAt (index : Index π β) (p : π) (stage : Fin 4) : Option β :=
  (index.getPath p stage).map (·.content)

def ours (index : Index π β) (p : π) : Option β := index.contentAt p 2

/-- All entries of a path go, the conflicting ones included. -/
def removePath (index : Index π β) (p : π) : Index π β := index.filter fun e => e.path ≠ p

def addPath (index : Index π β) (p : π) (content : β) : Index π β :=
  ⟨p, 0, content⟩ :: index.removePath p

def conflict (index : Index π β) (p : π) : IndexConflict π β where
  ancestor := index.getPath p 1
  our := index.getPath p 2
  their := index.getPath p 3

def conflictedPaths (index : Index π β) : List π :=
  ((index.filter fun e => e.stage ≠ 0).map (·.path)).dedup

def conflicts (index : Index π β) : List (IndexConflict π β) :=
  index.conflictedPaths.map index.conflict

/-- An index with a conflict makes no tree. -/
def writeTree (index : Index π β) : Option (π → Option β) :=
  if index.conflictedPaths = [] then some fun p => index.contentAt p 0 else none

/-! ## What the entries of a path say -/

variable {index : Index π β} {p q : π} {stage : Fin 4} {content : β}

theorem mem_conflictedPaths : p ∈ index.conflictedPaths ↔ index.IsConflicted p := by
  simp only [conflictedPaths, List.mem_dedup, List.mem_map, List.mem_filter, decide_eq_true_eq,
    IsConflicted]
  constructor
  · rintro ⟨e, ⟨he, hstage⟩, rfl⟩
    exact ⟨e, he, rfl, hstage⟩
  · rintro ⟨e, he, rfl, hstage⟩
    exact ⟨e, ⟨he, hstage⟩, rfl⟩

theorem nodup_conflictedPaths : index.conflictedPaths.Nodup := List.nodup_dedup _

theorem getPath_eq_some {e : IndexEntry π β} (h : index.getPath p stage = some e) :
    e ∈ index ∧ e.path = p ∧ e.stage = stage :=
  ⟨List.mem_of_find?_eq_some h, by simpa using List.find?_some h⟩

/-- A conflicted path has an entry at one of the three stages. -/
theorem isConflicted_iff_getPath :
    index.IsConflicted p ↔ ∃ s ∈ [1, 2, 3], (index.getPath p s).isSome = true := by
  constructor
  · rintro ⟨e, he, hp, hstage⟩
    have hmem : e.stage ∈ ([1, 2, 3] : List (Fin 4)) := by
      generalize e.stage = s at hstage
      revert s
      decide
    exact ⟨e.stage, hmem, List.find?_isSome.mpr ⟨e, he, by simp [hp]⟩⟩
  · rintro ⟨s, hs, hsome⟩
    obtain ⟨e, he⟩ := Option.isSome_iff_exists.mp hsome
    obtain ⟨hmem, hp, rfl⟩ := getPath_eq_some he
    refine ⟨e, hmem, hp, fun hzero => ?_⟩
    rw [hzero] at hs
    exact absurd hs (by decide)

/-- One of the sides of a conflict is present, and it names the path. -/
theorem conflict_entry (h : index.IsConflicted p) :
    ∃ e, ((index.conflict p).our <|> (index.conflict p).their <|> (index.conflict p).ancestor) =
      some e ∧ e.path = p := by
  obtain ⟨s, hs, hsome⟩ := isConflicted_iff_getPath.mp h
  have hpath : ∀ s e, index.getPath p s = some e → e.path = p := fun s e he =>
    (getPath_eq_some he).2.1
  simp only [conflict]
  cases hour : index.getPath p 2 with
  | some e => exact ⟨e, rfl, hpath 2 e hour⟩
  | none =>
    cases htheir : index.getPath p 3 with
    | some e => exact ⟨e, rfl, hpath 3 e htheir⟩
    | none =>
      cases hancestor : index.getPath p 1 with
      | some e => exact ⟨e, rfl, hpath 1 e hancestor⟩
      | none =>
        simp only [List.mem_cons, List.not_mem_nil, or_false] at hs
        rcases hs with rfl | rfl | rfl
        · rw [hancestor] at hsome
          cases hsome
        · rw [hour] at hsome
          cases hsome
        · rw [htheir] at hsome
          cases hsome

end Index

/-! ## Verdicts -/

/-- What the index says of a path: still open, with our side, or decided. -/
inductive Verdict (β : Type)
  | unresolved (ours : Option β)
  | resolved (content : Option β)
  deriving DecidableEq, Repr

/-- An open path falls to our side. -/
def Verdict.settled : Verdict β → Option β
  | unresolved ours => ours
  | resolved content => content

namespace Index

def verdict (index : Index π β) (p : π) : Verdict β :=
  if index.IsConflicted p then .unresolved (index.ours p) else .resolved (index.contentAt p 0)

variable {index : Index π β} {p q : π} {stage : Fin 4} {content : β}

theorem verdict_conflicted (h : index.IsConflicted p) :
    index.verdict p = .unresolved (index.ours p) := if_pos h

theorem isConflicted_of_verdict {o : Option β} (h : index.verdict p = .unresolved o) :
    index.IsConflicted p := by
  by_contra hno
  rw [verdict, if_neg hno] at h
  cases h

theorem getPath_removePath : (index.removePath p).getPath q stage =
    if q = p then none else index.getPath q stage := by
  rw [getPath, removePath, List.find?_filter]
  split_ifs with h
  · rw [List.find?_eq_none]
    rintro e -
    simp only [h, decide_eq_true_eq, not_and]
    exact fun hne heq => absurd heq hne
  · congr 1
    funext e
    by_cases he : e.path = q
    · simp [he, h]
    · simp [he]

theorem isConflicted_removePath :
    (index.removePath p).IsConflicted q ↔ q ≠ p ∧ index.IsConflicted q := by
  rw [isConflicted_iff_getPath, isConflicted_iff_getPath]
  simp only [getPath_removePath]
  by_cases h : q = p
  · simp [h]
  · simp [h]

theorem verdict_removePath : (index.removePath p).verdict q =
    if q = p then .resolved none else index.verdict q := by
  by_cases h : q = p
  · rw [verdict, if_neg fun hc => (isConflicted_removePath.mp hc).1 h, contentAt,
      getPath_removePath, if_pos h, if_pos h]
    rfl
  · simp only [verdict, isConflicted_removePath, h, ne_eq, not_false_eq_true, true_and, ours,
      contentAt, getPath_removePath, if_false]

theorem getPath_addPath : (index.addPath p content).getPath q stage =
    if q = p then if stage = 0 then some ⟨p, 0, content⟩ else none
    else index.getPath q stage := by
  have hrest : (index.removePath p).getPath q stage = _ := getPath_removePath
  rw [getPath] at hrest
  rw [addPath, getPath, List.find?_cons, hrest]
  by_cases hq : q = p
  · by_cases hs : stage = 0
    · simp [hq, hs]
    · simp [hq, hs, Ne.symm hs]
  · simp [hq, Ne.symm hq]

theorem verdict_addPath : (index.addPath p content).verdict q =
    if q = p then .resolved (some content) else index.verdict q := by
  by_cases h : q = p
  · have hno : ¬ (index.addPath p content).IsConflicted q := by
      rw [isConflicted_iff_getPath]
      simp [getPath_addPath, h]
    rw [verdict, if_neg hno, contentAt, getPath_addPath, if_pos h, if_pos rfl, if_pos h]
    rfl
  · simp only [verdict, isConflicted_iff_getPath, ours, contentAt, getPath_addPath, h, if_false]

/-- A tree is what the index says of each path, once nothing is open. -/
theorem writeTree_eq (h : ∀ p, ¬ index.IsConflicted p) :
    index.writeTree = some fun p => (index.verdict p).settled := by
  have hnil : index.conflictedPaths = [] :=
    List.eq_nil_iff_forall_not_mem.mpr fun p hp => h p (mem_conflictedPaths.mp hp)
  rw [writeTree, if_pos hnil]
  refine congrArg some (funext fun p => ?_)
  rw [verdict, if_neg (h p)]
  rfl

end Index

end Voleeo.Git

/-!
## Resolving a merge

A repository in the middle of a merge is repaired, resolved and committed. Every
step on the disk may be refused; what was done before it stays. The index is
kept in memory until it is written.
-/
namespace Voleeo.Git
open Fallible (Outcome)
open Sse (fromUtf8Lossy)

abbrev PathBytes := List UInt8

structure Commit (β : Type) where
  id : String
  message : String
  author : String × String
  parents : List String
  tree : PathBytes → Option β

/-- A repository, with contents of any type. It is merging while it has a MERGE_HEAD. -/
structure MergeRepo (β : Type) where
  bare : Bool
  index : Index PathBytes β
  worktree : PathBytes → Option β
  head : Option String
  mergeHead : Option String
  commits : List (Commit β)

inductive DiskOp
  | writeFile (p : PathBytes)
  | removeFile (p : PathBytes)
  | addPath (p : PathBytes)
  | removePath (p : PathBytes)
  | writeIndex
  | signature
  | commit
  | cleanupState

/-- What the disk and git answer during one call. -/
structure Env where
  refuses : DiskOp → Option String
  missingFile : String
  unmergedIndex : String
  user : Option (String × String)
  commitId : String

variable {β : Type}

abbrev GitM (β α : Type) := Fallible (MergeRepo β) VoleeoError α

/-! ## Steps on the disk -/

section
variable (env : Env)

def attempt (op : DiskOp) : GitM β Unit :=
  match env.refuses op with
  | some message => Fallible.throw (.git message)
  | none => pure ()

def writeFile (p : PathBytes) (content : β) : GitM β Unit := do
  attempt env (.writeFile p)
  Fallible.modify fun repo =>
    { repo with worktree := Function.update repo.worktree p (some content) }

def removeIfExists (p : PathBytes) : GitM β Bool := do
  let repo ← Fallible.get
  if (repo.worktree p).isSome then
    attempt env (.removeFile p)
    Fallible.modify fun repo => { repo with worktree := Function.update repo.worktree p none }
    return true
  else return false

/-- The working file is taken into the index. -/
def addPath (index : Index PathBytes β) (p : PathBytes) : GitM β (Index PathBytes β) := do
  attempt env (.addPath p)
  let repo ← Fallible.get
  match repo.worktree p with
  | none => Fallible.throw (.git env.missingFile)
  | some content => return index.addPath p content

def removePath (index : Index PathBytes β) (p : PathBytes) : GitM β (Index PathBytes β) := do
  attempt env (.removePath p)
  return index.removePath p

def writeIndex (index : Index PathBytes β) : GitM β Unit := do
  attempt env .writeIndex
  Fallible.modify fun repo => { repo with index }

end

/-! ## The calls -/

/-- Each conflicted path with our side, or nothing where our side deleted the file. -/
def collectConflictOurs (index : Index PathBytes β) : List (Text × Option β) :=
  index.conflicts.filterMap fun c =>
    (c.our <|> c.their <|> c.ancestor).map fun entry =>
      (fromUtf8Lossy entry.path, c.our.map (·.content))

def safeRel (file : Text) : GitM β PathBytes :=
  if file.head? = some '/' ∨ ['.', '.'] ∈ file.splitOn '/' then
    Fallible.throw (.git s!"unsafe conflict path: {String.ofList file}")
  else pure (utf8 file)

section
variable (env : Env)

/-- Only a conflicted path is staged. -/
def resolve (file : Text) (merged : β) : GitM β Unit := do
  let rel ← safeRel file
  writeFile env rel merged
  let repo ← Fallible.get
  if [1, 2, 3].any fun s => (repo.index.getPath rel s).isSome then
    let index ← addPath env repo.index rel
    writeIndex env index
  else return ()

def resolveDelete (file : Text) : GitM β Unit := do
  let rel ← safeRel file
  let _ ← removeIfExists env rel
  let repo ← Fallible.get
  let index ← removePath env repo.index rel
  writeIndex env index

/-- The working file becomes our side, or goes if our side deleted it. -/
def healItem (healed : Bool) (item : Text × Option β) : GitM β Bool :=
  match item.2 with
  | some content => do
      writeFile env (utf8 item.1) content
      return true
  | none => do
      let removed ← removeIfExists env (utf8 item.1)
      return healed || removed

def healMergeWorktree : GitM β Bool := do
  let repo ← Fallible.get
  if repo.mergeHead.isNone then return false
  else if repo.bare then Fallible.throw (.git "bare repo has no working tree")
  else (collectConflictOurs repo.index).foldlM (healItem env) false

def clearItem (index : Index PathBytes β) (item : Text × Option β) :
    GitM β (Index PathBytes β) :=
  match item.2 with
  | some content => do
      writeFile env (utf8 item.1) content
      addPath env index (utf8 item.1)
  | none => do
      let _ ← removeIfExists env (utf8 item.1)
      removePath env index (utf8 item.1)

/-- Whatever is still open falls to our side. -/
def clearLeftoverConflicts : GitM β Unit := do
  let repo ← Fallible.get
  if repo.bare then Fallible.throw (.git "bare repo has no working tree")
  else
    match collectConflictOurs repo.index with
    | [] => return ()
    | leftovers =>
      let index ← leftovers.foldlM (clearItem env) repo.index
      writeIndex env index

def signature (author : Option (String × String)) : GitM β (String × String) :=
  match author with
  | some author => do
      attempt env .signature
      return author
  | none =>
    match env.user with
    | some user => pure user
    | none =>
      Fallible.throw (.git "no commit author configured — set user.name and user.email")

def writeCommit (message : String) (author : Option (String × String)) (merge : Bool) :
    GitM β (Commit β) := do
  let author ← signature env author
  let repo ← Fallible.get
  match repo.index.writeTree with
  | none => Fallible.throw (.git env.unmergedIndex)
  | some tree =>
    attempt env .commit
    let mergeParents := if merge then repo.mergeHead.toList else []
    let commit := ⟨env.commitId, message, author, repo.head.toList ++ mergeParents, tree⟩
    Fallible.modify fun repo =>
      { repo with head := some env.commitId, commits := repo.commits ++ [commit] }
    if merge then
      attempt env .cleanupState
      Fallible.modify fun repo => { repo with mergeHead := none }
      return commit
    else return commit

def finishMerge (message : String) (author : Option (String × String)) : GitM β (Commit β) := do
  clearLeftoverConflicts env
  writeCommit env message author true

end

end Voleeo.Git
