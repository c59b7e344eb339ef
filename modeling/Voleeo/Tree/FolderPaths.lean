import Voleeo.Entities
import Voleeo.OrderedMap
import Voleeo.ParentChain

/-!
# Paths of folders

The web app follows the parents of a folder in the list that it was given. None of these
walks remembers where it has been, so each is given a bound and gives `none` where the
bound cuts it off.
-/
namespace Voleeo.Tree
open OrderedMap

/-- The folders from a place up, nearest first. -/
def climb (folders : List ApiFolder) : ℕ → Option String → Option (List ApiFolder)
  | _, none => some []
  | 0, some _ => none
  | fuel + 1, some id =>
    match folders.find? fun f => f.id = id with
    | none => some []
    | some folder => (climb folders fuel folder.folderId).map (folder :: ·)

def getFolderPath (fuel : ℕ) (folders : List ApiFolder) (folderId : Option String) :
    Option String :=
  (climb folders fuel folderId).map fun above =>
    String.intercalate " > " (above.reverse.map ApiFolder.name)

def getAncestorFolderIds (fuel : ℕ) (folders : List ApiFolder) (folderId : Option String) :
    Option (List String) :=
  (climb folders fuel folderId).map fun above => above.map ApiFolder.id

structure FolderPathSegment where
  id : String
  name : String
  deriving DecidableEq, Repr

abbrev PathCache := OrderedMap String (Option (List FolderPathSegment))

/-- The parent, unless it is missing or empty. -/
def ApiFolder.parentLink (f : ApiFolder) : Option String := f.folderId.filter (· ≠ "")

/-- `null` for a folder outside the root, and what is cached after the walk. -/
def pathFor (rootFolderId : String) (byId : OrderedMap String ApiFolder) :
    ℕ → PathCache → String → Option (Option (List FolderPathSegment) × PathCache)
  | 0, _, _ => none
  | fuel + 1, cache, id =>
    if id = rootFolderId then some (some [], cache)
    else
      match cache.get? id with
      | some path => some (path, cache)
      | none =>
        let f := byId.get? id
        let parent := match f.bind ApiFolder.parentLink with
          | none => some (none, cache)
          | some parentId => pathFor rootFolderId byId fuel cache parentId
        parent.map fun (parent, cache) =>
          let path := match f, parent with
            | some f, some parent => some (parent ++ [⟨f.id, f.name⟩])
            | _, _ => none
          (path, cache.set id path)

def pathsFrom (fuel : ℕ) (rootFolderId : String) (byId : OrderedMap String ApiFolder) :
    List ApiFolder → PathCache → OrderedMap String (List FolderPathSegment) →
      Option (OrderedMap String (List FolderPathSegment))
  | [], _, out => some out
  | f :: folders, cache, out =>
    match pathFor rootFolderId byId fuel cache f.id with
    | none => none
    | some (path, cache) =>
      let out := match path with
        | some (segment :: path) => out.set f.id (segment :: path)
        | _ => out
      pathsFrom fuel rootFolderId byId folders cache out

def folderPathsUnder (fuel : ℕ) (rootFolderId : String) (folders : List ApiFolder) :
    Option (OrderedMap String (List FolderPathSegment)) :=
  pathsFrom fuel rootFolderId (byId ApiFolder.id folders) folders empty empty

/-! ## Walks up -/

/-- The parent of the first folder with the id. -/
def parentIn (folders : List ApiFolder) (id : String) : Option (Option String) :=
  (folders.find? fun f => f.id = id).map ApiFolder.folderId

theorem mem_ids_of_parentIn {folders : List ApiFolder} {id : String}
    (h : (parentIn folders id).isSome) : id ∈ folders.map ApiFolder.id := by
  rw [parentIn, Option.isSome_map] at h
  obtain ⟨f, hf⟩ := Option.isSome_iff_exists.mp h
  have hid : f.id = id := by simpa using List.find?_some hf
  exact hid ▸ List.mem_map_of_mem (List.mem_of_find?_eq_some hf)

/-- The chain of parents from a place runs into a cycle. -/
def MeetsCycle (parentOf : String → Option (Option String)) (place : Option String) : Prop :=
  ∃ k, Passes parentOf (some k) place ∧ OnCycle parentOf k

theorem not_meetsCycle_of_climb {folders : List ApiFolder} {fuel : ℕ} {place : Option String}
    (h : (climb folders fuel place).isSome) : ¬ MeetsCycle (parentIn folders) place := by
  rintro ⟨k, hpasses, hcycle⟩
  induction fuel generalizing place k with
  | zero =>
    cases hpasses with
    | self => cases h
    | link => cases h
  | succ fuel ih =>
    cases place with
    | none => cases hpasses
    | some id =>
      rw [climb] at h
      have hup : ∃ next k', parentIn folders id = some next ∧
          Passes (parentIn folders) (some k') next ∧ OnCycle (parentIn folders) k' := by
        cases hpasses with
        | self =>
          obtain ⟨p, hparent, hp⟩ := hcycle.exists_parent
          exact ⟨some p, p, hparent, .self, hp⟩
        | link hparent hrest => exact ⟨_, k, hparent, hrest, hcycle⟩
      obtain ⟨next, k', hparent, hrest, hk'⟩ := hup
      rw [parentIn, Option.map_eq_some_iff] at hparent
      obtain ⟨f, hfind, rfl⟩ := hparent
      rw [hfind, Option.isSome_map] at h
      exact ih h k' hrest hk'

theorem climb_of_not_meetsCycle {folders : List ApiFolder} {place : Option String}
    (h : ¬ MeetsCycle (parentIn folders) place) : ∃ fuel, (climb folders fuel place).isSome := by
  cases place with
  | none => exact ⟨0, rfl⟩
  | some id =>
    refine induction_of_no_cycle (fun k hk => mem_ids_of_parentIn hk)
      (P := fun id => ∃ fuel, (climb folders fuel (some id)).isSome) (fun k ih => ?_)
      fun a ha hcycle => h ⟨a, ha, hcycle⟩
    cases hfind : folders.find? fun f => f.id = k with
    | none => exact ⟨1, by rw [climb, hfind]; rfl⟩
    | some f =>
      have hparent : parentIn folders k = some f.folderId := by rw [parentIn, hfind]; rfl
      obtain ⟨fuel, hfuel⟩ : ∃ fuel, (climb folders fuel f.folderId).isSome := by
        cases hplace : f.folderId with
        | none => exact ⟨0, rfl⟩
        | some p => exact ih p (by rw [hparent, hplace])
      exact ⟨fuel + 1, by rw [climb, hfind, Option.isSome_map]; exact hfuel⟩

/-- A walk up ends exactly if it does not run into a cycle. -/
theorem climb_ends_iff (folders : List ApiFolder) (place : Option String) :
    (∃ fuel, (climb folders fuel place).isSome) ↔ ¬ MeetsCycle (parentIn folders) place :=
  ⟨fun ⟨_, h⟩ => not_meetsCycle_of_climb h, climb_of_not_meetsCycle⟩

/-! ## Paths below a folder -/

/-- The link that a path is built along: none from the root of the paths. -/
def linkIn (rootFolderId : String) (folders : List ApiFolder) (id : String) :
    Option (Option String) :=
  if id = rootFolderId then none
  else ((byId ApiFolder.id folders).get? id).map ApiFolder.parentLink

variable {root : String} {folders : List ApiFolder} {cache cache' : PathCache} {id : String}

theorem mem_ids_of_linkIn (h : (linkIn root folders id).isSome) :
    id ∈ folders.map ApiFolder.id := by
  rw [linkIn] at h
  split_ifs at h
  · cases h
  · rw [Option.isSome_map, get?_isSome, mem_keys_byId] at h
    exact h

theorem linkIn_eq_some {p : String} : linkIn root folders id = some (some p) ↔
    id ≠ root ∧ ((byId ApiFolder.id folders).get? id).bind ApiFolder.parentLink = some p := by
  rw [linkIn]
  split_ifs with h
  · simp [h]
  · rw [Option.map_eq_some_iff, Option.bind_eq_some_iff]
    simp [h]

/-- What a walk passes or finds cached is on no cycle. -/
theorem pathFor_not_onCycle {fuel : ℕ} {path : Option (List FolderPathSegment)}
    (hcache : ∀ k ∈ cache.keys, ¬ OnCycle (linkIn root folders) k)
    (h : pathFor root (byId ApiFolder.id folders) fuel cache id = some (path, cache')) :
    ¬ OnCycle (linkIn root folders) id ∧ ∀ k ∈ cache'.keys, ¬ OnCycle (linkIn root folders) k := by
  induction fuel generalizing cache id path cache' with
  | zero => cases h
  | succ fuel ih =>
    rw [pathFor] at h
    split_ifs at h with hroot
    · cases h
      refine ⟨?_, hcache⟩
      rintro ⟨p, hp, _⟩
      exact (linkIn_eq_some.mp hp).1 hroot
    · split at h
      · rename_i cached hget
        cases h
        exact ⟨hcache id (get?_isSome.mp (by rw [hget]; rfl)), hcache⟩
      · rename_i hget
        obtain ⟨⟨parent, cache₁⟩, hparent, heq⟩ := Option.map_eq_some_iff.mp h
        cases heq
        have hboth : ¬ OnCycle (linkIn root folders) id ∧
            ∀ k ∈ cache₁.keys, ¬ OnCycle (linkIn root folders) k := by
          split at hparent
          · rename_i hlink
            cases hparent
            refine ⟨?_, hcache⟩
            rintro ⟨p, hp, _⟩
            rw [(linkIn_eq_some.mp hp).2] at hlink
            cases hlink
          · rename_i parentId hlink
            obtain ⟨hnot, hcache₁⟩ := ih hcache hparent
            refine ⟨fun hcycle => ?_, hcache₁⟩
            obtain ⟨p, hp, hpcycle⟩ := hcycle.exists_parent
            rw [(linkIn_eq_some.mp hp).2] at hlink
            cases hlink
            exact hnot hpcycle
        refine ⟨hboth.1, fun k hk => ?_⟩
        rcases mem_keys_set.mp hk with rfl | hk
        · exact hboth.1
        · exact hboth.2 k hk

/-- With enough fuel a walk ends, whatever is cached. -/
theorem pathFor_ends (h : ¬ MeetsCycle (linkIn root folders) (some id)) :
    ∃ n, ∀ fuel ≥ n, ∀ cache, (pathFor root (byId ApiFolder.id folders) fuel cache id).isSome := by
  refine induction_of_no_cycle (fun k hk => mem_ids_of_linkIn hk)
    (P := fun id => ∃ n, ∀ fuel ≥ n, ∀ cache,
      (pathFor root (byId ApiFolder.id folders) fuel cache id).isSome)
    (fun k ih => ?_) fun a ha hcycle => h ⟨a, ha, hcycle⟩
  obtain ⟨n, hn⟩ : ∃ n, ∀ p, linkIn root folders k = some (some p) → ∀ fuel ≥ n, ∀ cache,
      (pathFor root (byId ApiFolder.id folders) fuel cache p).isSome := by
    cases hlink : linkIn root folders k with
    | none => exact ⟨0, fun p hp => by cases hp⟩
    | some place =>
      cases place with
      | none => exact ⟨0, fun p hp => by cases hp⟩
      | some p =>
        obtain ⟨n, hn⟩ := ih p hlink
        exact ⟨n, fun q hq => by cases hq; exact hn⟩
  refine ⟨n + 1, fun fuel hfuel cache => ?_⟩
  obtain ⟨fuel, rfl⟩ : ∃ m, fuel = m + 1 := ⟨fuel - 1, by omega⟩
  rw [pathFor]
  split_ifs with hroot
  · rfl
  · split
    · rfl
    · dsimp only
      rw [Option.isSome_map]
      split
      · rfl
      · rename_i p hlink
        exact hn p (linkIn_eq_some.mpr ⟨hroot, hlink⟩) fuel (by omega) cache

theorem folderPathsUnder_ends_iff (root : String) (folders : List ApiFolder) :
    (∃ fuel, (folderPathsUnder fuel root folders).isSome) ↔
      ∀ f ∈ folders, ¬ OnCycle (linkIn root folders) f.id := by
  constructor
  · rintro ⟨fuel, h⟩
    have hloop : ∀ (fs : List ApiFolder) cache out,
        (∀ k ∈ cache.keys, ¬ OnCycle (linkIn root folders) k) →
        (pathsFrom fuel root (byId ApiFolder.id folders) fs cache out).isSome →
        ∀ f ∈ fs, ¬ OnCycle (linkIn root folders) f.id := by
      intro fs
      induction fs with
      | nil => simp
      | cons f fs ih =>
        intro cache out hcache hsome
        rw [pathsFrom] at hsome
        cases hpath : pathFor root (byId ApiFolder.id folders) fuel cache f.id with
        | none =>
          rw [hpath] at hsome
          cases hsome
        | some result =>
          obtain ⟨path, cache'⟩ := result
          rw [hpath] at hsome
          obtain ⟨hf, hcache'⟩ := pathFor_not_onCycle hcache hpath
          exact List.forall_mem_cons.mpr ⟨hf, ih cache' _ hcache' hsome⟩
    exact hloop folders empty empty (fun k hk => by cases hk) h
  · intro h
    have hmeets : ∀ id, ¬ MeetsCycle (linkIn root folders) (some id) := by
      rintro id ⟨k, _, hcycle⟩
      have hlinked : (linkIn root folders k).isSome := by
        obtain ⟨p, hp, _⟩ := hcycle
        rw [hp]
        rfl
      obtain ⟨f, hf, rfl⟩ := List.mem_map.mp (mem_ids_of_linkIn hlinked)
      exact h f hf hcycle
    have hloop : ∀ fs : List ApiFolder, ∃ n, ∀ fuel ≥ n, ∀ cache out,
        (pathsFrom fuel root (byId ApiFolder.id folders) fs cache out).isSome := by
      intro fs
      induction fs with
      | nil => exact ⟨0, fun _ _ _ _ => rfl⟩
      | cons f fs ih =>
        obtain ⟨n, hn⟩ := pathFor_ends (hmeets f.id)
        obtain ⟨m, hm⟩ := ih
        refine ⟨max n m, fun fuel hfuel cache out => ?_⟩
        obtain ⟨result, hresult⟩ := Option.isSome_iff_exists.mp
          (hn fuel (le_trans (le_max_left n m) hfuel) cache)
        rw [pathsFrom, hresult]
        exact hm fuel (le_trans (le_max_right n m) hfuel) _ _
    obtain ⟨n, hn⟩ := hloop folders
    exact ⟨n, hn n le_rfl empty empty⟩

end Voleeo.Tree
