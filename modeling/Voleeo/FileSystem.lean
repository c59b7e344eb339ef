import Mathlib.Data.List.Basic
import Mathlib.Data.List.Infix

/-!
# File systems with links

A file system maps canonical paths to files, directories and symbolic links. A
path as it is written is resolved against it: `..` leaves the directory that was
reached, and links are followed up to a bound.
-/
namespace Voleeo

/-- A canonical absolute path, as its components. -/
abbrev Path := List (List Char)

/-- A path as it is written, as its components. Empty ones and single dots count for nothing. -/
structure RawPath where
  absolute : Bool
  components : List (List Char)
  deriving DecidableEq, Repr

namespace RawPath

def ofString (s : String) : RawPath where
  absolute := s.toList.head? = some '/'
  components := (s.toList.splitOn '/').filter fun c => c ≠ [] ∧ c ≠ ['.']

/-- `Path::join`: an absolute path replaces the base. -/
def join (base p : RawPath) : RawPath :=
  if p.absolute then p else { base with components := base.components ++ p.components }

end RawPath

inductive Node
  | file (content : String)
  | dir
  | link (target : RawPath)
  deriving DecidableEq, Repr

abbrev FileSystem := Path → Option Node

namespace FileSystem

/-- Walk from a directory. `links` bounds the links that are followed. -/
def walk (fs : FileSystem) : ℕ → Path → List (List Char) → Option Path
  | _, here, [] => some here
  | links, here, c :: rest =>
    if c = ['.', '.'] then walk fs links here.dropLast rest
    else
      match fs (here ++ [c]), links with
      | some .dir, links => walk fs links (here ++ [c]) rest
      | some (.file _), _ => if rest = [] then some (here ++ [c]) else none
      | some (.link target), links + 1 =>
        walk fs links (if target.absolute then [] else here) (target.components ++ rest)
      | some (.link _), 0 => none
      | none, _ => none
termination_by links _ components => (links, components.length)

section Walk
variable {fs : FileSystem} {links : ℕ} {here : Path} {c : List Char} {rest : List (List Char)}

theorem walk_nil : walk fs links here [] = some here := by
  rw [walk]

theorem walk_dir (hc : c ≠ ['.', '.']) (h : fs (here ++ [c]) = some .dir) :
    walk fs links here (c :: rest) = walk fs links (here ++ [c]) rest := by
  rw [walk.eq_def]
  simp only [if_neg hc, h]

theorem walk_file {content : String} (hc : c ≠ ['.', '.'])
    (h : fs (here ++ [c]) = some (.file content)) :
    walk fs links here (c :: rest) = if rest = [] then some (here ++ [c]) else none := by
  rw [walk.eq_def]
  simp only [if_neg hc, h]

theorem walk_link {target : RawPath} (hc : c ≠ ['.', '.'])
    (h : fs (here ++ [c]) = some (.link target)) :
    walk fs (links + 1) here (c :: rest) =
      walk fs links (if target.absolute then [] else here) (target.components ++ rest) := by
  rw [walk.eq_def]
  simp only [if_neg hc, h]

end Walk

/-- The number of links that Linux follows. -/
def maxLinks : ℕ := 40

/-- `std::fs::canonicalize`, of a path from the root. -/
def canonicalize (fs : FileSystem) (p : RawPath) : Option Path := walk fs maxLinks [] p.components

/-- The place that a path names itself, when a link at its end is not followed. -/
def locate (fs : FileSystem) (p : RawPath) : Option Path :=
  match p.components.getLast? with
  | none => some []
  | some name =>
    if name = ['.', '.'] then canonicalize fs p
    else
      match walk fs maxLinks [] p.components.dropLast with
      | some parent => if parent = [] ∨ fs parent = some .dir then some (parent ++ [name]) else none
      | none => none

def lstat (fs : FileSystem) (p : RawPath) : Option Node := (locate fs p).bind fs

def stat (fs : FileSystem) (p : RawPath) : Option Node := (canonicalize fs p).bind fs

/-- `Path::exists`. -/
def pathExists (fs : FileSystem) (p : RawPath) : Bool := (stat fs p).isSome

def readFile (fs : FileSystem) (p : RawPath) : Option String :=
  match stat fs p with
  | some (.file content) => some content
  | _ => none

/-! ## Changes -/

def set (fs : FileSystem) (p : Path) (node : Option Node) : FileSystem :=
  fun q => if q = p then node else fs q

/-- What stays of a directory that is removed with all that is below it: the entries that the
system does not let go, and the directories that they are in. -/
def stays (fs : FileSystem) (kept : List Path) (p q : Path) : Bool :=
  kept.any fun k => p <+: k ∧ q <+: k ∧ (fs k).isSome

/-- `remove_dir_all`; it succeeds if nothing stays. -/
def removeDirAll (fs : FileSystem) (kept : List Path) (p : Path) : FileSystem × Bool :=
  (fun q => if p <+: q ∧ stays fs kept p q = false then none else fs q,
    !stays fs kept p p)

@[simp] theorem set_self (fs : FileSystem) (p : Path) (node : Option Node) :
    fs.set p node p = node := if_pos rfl

theorem set_of_ne {fs : FileSystem} {p q : Path} (h : q ≠ p) (node : Option Node) :
    fs.set p node q = fs q := if_neg h

theorem removeDirAll_outside {fs : FileSystem} {p q : Path} (h : ¬ p <+: q) (kept : List Path) :
    (fs.removeDirAll kept p).1 q = fs q := if_neg fun hboth => h hboth.1

theorem set_none_removes (fs : FileSystem) (p q : Path) :
    fs.set p none q = fs q ∨ fs.set p none q = none := by
  rw [set]
  split_ifs
  · exact .inr rfl
  · exact .inl rfl

theorem removeDirAll_removes (fs : FileSystem) (kept : List Path) (p q : Path) :
    (fs.removeDirAll kept p).1 q = fs q ∨ (fs.removeDirAll kept p).1 q = none := by
  rw [removeDirAll]
  simp only
  split_ifs
  · exact .inr rfl
  · exact .inl rfl

/-- A directory stays if anything below it does. -/
theorem stays_self {fs : FileSystem} {kept : List Path} {p q : Path}
    (h : fs.stays kept p q = true) : fs.stays kept p p = true := by
  rw [stays, List.any_eq_true] at h ⊢
  obtain ⟨k, hk, hboth⟩ := h
  rw [decide_eq_true_eq] at hboth
  exact ⟨k, hk, by rw [decide_eq_true_eq]; exact ⟨hboth.1, hboth.1, hboth.2.2⟩⟩

/-! ## Removing entries moves no path -/

variable {fs fs' : FileSystem}

theorem walk_of_removed (h : ∀ q, fs' q = fs q ∨ fs' q = none) {links : ℕ} {here place : Path}
    {components : List (List Char)} (hwalk : walk fs' links here components = some place) :
    walk fs links here components = some place := by
  have hsome : ∀ {q node}, fs' q = some node → fs q = some node := fun {q node} hnode => by
    rcases h q with heq | hnone
    · rw [← heq, hnode]
    · rw [hnone] at hnode
      cases hnode
  fun_induction walk fs' links here components with
  | case1 => rwa [walk_nil]
  | case2 links here rest ih =>
    rw [walk.eq_def]
    exact ih hwalk
  | case3 here c rest hc links hdir ih =>
    rw [walk_dir hc (hsome hdir)]
    exact ih hwalk
  | case4 links here c hc content hfile =>
    rw [walk_file hc (hsome hfile)]
    exact hwalk
  | case5 => cases hwalk
  | case6 here c rest hc target links hlink ih =>
    rw [walk_link hc (hsome hlink)]
    exact ih hwalk
  | case7 => cases hwalk
  | case8 => cases hwalk

theorem locate_of_removed (h : ∀ q, fs' q = fs q ∨ fs' q = none) {p : RawPath} {place : Path}
    (hlocate : locate fs' p = some place) : locate fs p = some place := by
  rw [locate] at hlocate ⊢
  cases hlast : p.components.getLast? with
  | none =>
    rw [hlast] at hlocate
    exact hlocate
  | some name =>
    rw [hlast] at hlocate
    simp only at hlocate ⊢
    split_ifs with hdots
    · rw [if_pos hdots] at hlocate
      exact walk_of_removed h hlocate
    · rw [if_neg hdots] at hlocate
      cases hparent : walk fs' maxLinks [] p.components.dropLast with
      | none =>
        rw [hparent] at hlocate
        cases hlocate
      | some parent =>
        rw [hparent] at hlocate
        rw [walk_of_removed h hparent]
        simp only at hlocate ⊢
        split_ifs at hlocate with hdir
        · have hdir' : parent = [] ∨ fs parent = some .dir := hdir.imp_right fun hdir => by
            rcases h parent with heq | hnone
            · rw [← heq, hdir]
            · rw [hnone] at hdir
              cases hdir
          rw [if_pos hdir', hlocate]

end FileSystem

/-! ## What a change leaves as it is -/

/-- Nothing differs outside a place. -/
def SameOutside (place : Option Path) (fs fs' : FileSystem) : Prop :=
  ∀ q, (∀ p ∈ place, ¬ p <+: q) → fs' q = fs q

/-- The files at or below a place are all there, as they were. -/
def KeepsFiles (place : Option Path) (fs fs' : FileSystem) : Prop :=
  ∀ p ∈ place, ∀ q content, p <+: q → fs q = some (.file content) → fs' q = some (.file content)

end Voleeo
