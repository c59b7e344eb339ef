import Mathlib.Data.List.ReduceOption
import Voleeo.Parts
import Voleeo.Web.GitChangeMap

/-!
# When the change markers are right

The walks end where the parents above the changed items form no cycle. They find the right folders
where they follow the parents that the items have.
-/
namespace Voleeo.Web
open Git (GitChange GitFileChange)
open OrderedMap

variable {items : LiveItems} {files : List GitFileChange} {next : Text → Option Text}
  {id node folderId p : Text} {fuel : ℕ}

/-! ## The parents that are followed -/

theorem nextParent_of_parentNode (h : parentNode items files id = some p) :
    nextParent items files id = some p := by
  rw [parentNode] at h
  rw [nextParent, resolveParent]
  cases hlive : (parentMap items).get? id with
  | none =>
    rw [hlive] at h
    exact h
  | some folder =>
    rw [hlive] at h
    cases folder with
    | none => cases h
    | some q => exact h

theorem nextParent_eq (h : ParentsFit items files) :
    nextParent items files = parentNode items files := by
  funext id
  rw [nextParent, resolveParent, parentNode]
  cases hlive : (parentMap items).get? id with
  | none => rfl
  | some folder =>
    cases folder with
    | none =>
      simp only [Option.join_some, h.at_root id hlive]
    | some q => rfl

/-- Only items that are live or deleted have parents. -/
theorem mem_keys_of_nextParent (h : (nextParent items files id).isSome) :
    id ∈ (parentMap items).keys ++ (deletedParentMap files).keys := by
  rw [nextParent, truthy, resolveParent] at h
  rw [List.mem_append, ← get?_isSome, ← get?_isSome]
  cases hlive : (parentMap items).get? id with
  | some folder => exact .inl rfl
  | none =>
    rw [hlive] at h
    cases hhead : (deletedParentMap files).get? id with
    | some q => exact .inr rfl
    | none =>
      rw [hhead] at h
      cases h

/-! ## Walks end without a cycle -/

theorem not_runsIntoCycle_of_next (h : (walkUp next fuel (next node)).isSome) :
    ¬ RunsIntoCycle next node := by
  obtain ⟨ks, hks⟩ := Option.isSome_iff_exists.mp h
  have hwalk : walkUp next (fuel + 1) (some node) = some (node :: ks) := by
    rw [walkUp, hks]
    rfl
  exact not_runsIntoCycle_of_walkUp hwalk

theorem walk_ends {all : List Text} (hall : ∀ k, (next k).isSome → k ∈ all)
    (h : ¬ RunsIntoCycle next node) : ∃ n, ∀ fuel ≥ n, (walkUp next fuel (next node)).isSome := by
  obtain ⟨n, ks, hks⟩ := exists_walkUp hall h
  cases n with
  | zero => cases hks
  | succ n =>
    obtain ⟨rest, hrest, -⟩ := Option.map_eq_some_iff.mp hks
    exact ⟨n, fun fuel hle => by rw [walkUp_mono hle hrest]; rfl⟩

theorem not_runsIntoCycle_of_foldlM {entries : List (Text × GitChange)} {m : Marks}
    (h : (entries.foldlM (fun m e => markAbove next e.2 fuel m (next e.1)) m).isSome) :
    ∀ e ∈ entries, ¬ RunsIntoCycle next e.1 := by
  induction entries generalizing m with
  | nil => simp
  | cons e rest ih =>
    rw [List.foldlM_cons] at h
    obtain ⟨m', hm'⟩ := Option.isSome_iff_exists.mp h
    obtain ⟨m₁, hm₁, hrest⟩ := Option.bind_eq_some_iff.mp hm'
    have hwalk : (walkUp next fuel (next e.1)).isSome := by
      rw [markAbove_eq] at hm₁
      obtain ⟨ks, hks, -⟩ := Option.map_eq_some_iff.mp hm₁
      rw [hks]
      rfl
    refine List.forall_mem_cons.mpr ⟨not_runsIntoCycle_of_next hwalk, @ih m₁ ?_⟩
    rw [hrest]
    rfl

theorem foldlM_ends {all : List Text} (hall : ∀ k, (next k).isSome → k ∈ all)
    {entries : List (Text × GitChange)} (h : ∀ e ∈ entries, ¬ RunsIntoCycle next e.1) :
    ∃ n, ∀ fuel ≥ n, ∀ m,
      (entries.foldlM (fun m e => markAbove next e.2 fuel m (next e.1)) m).isSome := by
  induction entries with
  | nil => exact ⟨0, fun _ _ _ => rfl⟩
  | cons e rest ih =>
    obtain ⟨he, hrest⟩ := List.forall_mem_cons.mp h
    obtain ⟨n, hn⟩ := walk_ends hall he
    obtain ⟨k, hk⟩ := ih hrest
    refine ⟨max n k, fun fuel hle m => ?_⟩
    obtain ⟨ks, hks⟩ := Option.isSome_iff_exists.mp (hn fuel (le_trans (le_max_left n k) hle))
    rw [List.foldlM_cons, markAbove_eq, hks]
    exact hk fuel (le_trans (le_max_right n k) hle) _

/-! ## The loop up to the folder -/

theorem isUnder_eq_some {place : Option Text} {under : Bool}
    (h : isUnder next folderId fuel place = some under) :
    under = true ↔ ∃ k, place = some k ∧ Under (upward next) folderId k := by
  induction fuel generalizing place with
  | zero =>
    cases place with
    | none =>
      cases h
      simp
    | some k => cases h
  | succ fuel ih =>
    cases place with
    | none =>
      cases h
      simp
    | some k =>
      rw [isUnder] at h
      simp only [Option.some.injEq, exists_eq_left']
      split_ifs at h with hk
      · cases h
        exact iff_of_true rfl (hk ▸ .self)
      · rw [ih h, under_upward_iff]
        exact ⟨.inr, fun hor => hor.resolve_left hk⟩

theorem isUnder_ends {place : Option Text} (h : (walkUp next fuel place).isSome) :
    (isUnder next folderId fuel place).isSome := by
  induction fuel generalizing place with
  | zero =>
    cases place with
    | none => rfl
    | some k => cases h
  | succ fuel ih =>
    cases place with
    | none => rfl
    | some k =>
      rw [walkUp, Option.isSome_map] at h
      rw [isUnder]
      split_ifs
      · rfl
      · exact ih h

/-- What is kept of one file. -/
def keptPath (next : Text → Option Text) (folderId : Text) (fuel : ℕ) (f : GitFileChange) :
    Option (Option Text) :=
  match truthy f.nodeId with
  | none => some none
  | some node =>
    if node = folderId then some none
    else (isUnder next folderId fuel (next node)).map fun under =>
      if under then some f.path else none

theorem changedPathsUnderFolder_eq (fuel : ℕ) (folderId : Text) (files : List GitFileChange)
    (items : LiveItems) : changedPathsUnderFolder fuel folderId files items =
      (files.mapM (keptPath (nextParent items files) folderId fuel)).map List.reduceOption := rfl

theorem keptPath_eq_some {f : GitFileChange} {path : Option Text}
    (h : keptPath next folderId fuel f = some path) :
    (path = some f.path ∧ ∃ node, truthy f.nodeId = some node ∧ node ≠ folderId ∧
        Below next folderId node) ∨
      (path = none ∧ ¬ ∃ node, truthy f.nodeId = some node ∧ node ≠ folderId ∧
        Below next folderId node) := by
  rw [keptPath] at h
  cases hnode : truthy f.nodeId with
  | none =>
    rw [hnode] at h
    cases h
    exact .inr ⟨rfl, by simp⟩
  | some node =>
    rw [hnode] at h
    simp only at h
    split_ifs at h with heq
    · cases h
      exact .inr ⟨rfl, by simp [heq]⟩
    · obtain ⟨under, hunder, hpath⟩ := Option.map_eq_some_iff.mp h
      have hiff := isUnder_eq_some hunder
      cases under with
      | true => exact .inl ⟨hpath.symm, node, rfl, heq, hiff.mp rfl⟩
      | false =>
        refine .inr ⟨hpath.symm, ?_⟩
        rintro ⟨_, ⟨⟩, -, hbelow⟩
        exact absurd (hiff.mpr hbelow) Bool.false_ne_true

/-- The paths are those of the files that the walk finds below the folder. -/
theorem paths_of_mapM {kept : GitFileChange → Bool} (hkept : ∀ f, kept f = true ↔
      ∃ node, truthy f.nodeId = some node ∧ node ≠ folderId ∧ Below next folderId node)
    {paths : List (Option Text)} (h : files.mapM (keptPath next folderId fuel) = some paths) :
    paths.reduceOption = (files.filter kept).map GitFileChange.path := by
  induction files generalizing paths with
  | nil =>
    cases h
    rfl
  | cons f rest ih =>
    rw [List.mapM_cons] at h
    obtain ⟨path, hpath, h⟩ := Option.bind_eq_some_iff.mp h
    obtain ⟨others, hothers, h⟩ := Option.bind_eq_some_iff.mp h
    cases h
    rcases keptPath_eq_some hpath with ⟨rfl, hbelow⟩ | ⟨rfl, hnot⟩
    · rw [List.reduceOption_cons_of_some, ih hothers,
        List.filter_cons_of_pos ((hkept f).mpr hbelow)]
      rfl
    · rw [List.reduceOption_cons_of_none, ih hothers,
        List.filter_cons_of_neg fun hf => hnot ((hkept f).mp hf)]

/-! ## Both directions -/

theorem exists_own (h : ∃ c, Changed files node c) : ∃ c, (node, c) ∈ (ownByNode files).entries := by
  obtain ⟨c, hc⟩ := h
  have hworst := isWorst_ownByNode files node
  cases hget : (ownByNode files).get? node with
  | none =>
    rw [hget] at hworst
    exact absurd hc (hworst c)
  | some d => exact ⟨d, get?_eq_some.mp hget⟩

theorem changed_of_own {c : GitChange} (h : (node, c) ∈ (ownByNode files).entries) :
    Changed files node c ∧ ∀ d, Changed files node d → rank d ≤ rank c := by
  have hworst := isWorst_ownByNode files node
  rw [get?_eq_some.mpr h] at hworst
  exact hworst

theorem mapExact_of_build {maps : ChangeMaps} (h : buildChangeMap fuel files items = some maps) :
    MapExact (nextParent items files) files maps := by
  obtain ⟨m, hm, rfl⟩ := Option.map_eq_some_iff.mp h
  have hstart : Stands ⟨ownByNode files, []⟩ (Changed files) (fun _ => False) :=
    ⟨isWorst_ownByNode files, by simp⟩
  have hends := stands_foldlM hstart hm
  constructor
  · intro id
    have hworst := hends.byNode id
    -- an item is marked with its worst change only, which is enough
    have hsplit : ∀ c, (∃ node, Under (upward (nextParent items files)) id node ∧
        Changed files node c) ↔ Changed files id c ∨
          ∃ node, Below (nextParent items files) id node ∧ Changed files node c := by
      intro c
      constructor
      · rintro ⟨node, hunder, hc⟩
        rcases under_upward_iff.mp hunder with rfl | hbelow
        · exact .inl hc
        · exact .inr ⟨node, hbelow, hc⟩
      · rintro (hc | ⟨node, hbelow, hc⟩)
        · exact ⟨id, .self, hc⟩
        · exact ⟨node, under_upward_iff.mpr (.inr hbelow), hc⟩
    cases hget : m.byNode.get? id with
    | none =>
      rw [hget] at hworst
      intro c hc
      rcases (hsplit c).mp hc with hc | ⟨node, hbelow, hc⟩
      · exact hworst c (.inl hc)
      · obtain ⟨d, hd⟩ := exists_own ⟨c, hc⟩
        exact hworst d (.inr ⟨node, hbelow, hd⟩)
    | some c =>
      rw [hget] at hworst
      refine ⟨(hsplit c).mpr ?_, fun d hd => ?_⟩
      · rcases hworst.1 with hc | ⟨node, hbelow, hc⟩
        · exact .inl hc
        · exact .inr ⟨node, hbelow, (changed_of_own hc).1⟩
      · rcases (hsplit d).mp hd with hd | ⟨node, hbelow, hd⟩
        · exact hworst.2 d (.inl hd)
        · obtain ⟨e, he⟩ := exists_own ⟨d, hd⟩
          exact ((changed_of_own he).2 d hd).trans (hworst.2 e (.inr ⟨node, hbelow, he⟩))
  · intro id
    rw [hends.above id]
    constructor
    · rintro (hfalse | ⟨node, c, hbelow, hc⟩)
      · cases hfalse
      · exact ⟨node, c, hbelow, (changed_of_own hc).1⟩
    · rintro ⟨node, c, hbelow, hc⟩
      obtain ⟨d, hd⟩ := exists_own ⟨c, hc⟩
      exact .inr ⟨node, d, hbelow, hd⟩

theorem pathsExact_of_changedPaths {paths : List Text}
    (h : changedPathsUnderFolder fuel folderId files items = some paths) :
    PathsExact (nextParent items files) files folderId paths := by
  classical
  rw [changedPathsUnderFolder_eq] at h
  obtain ⟨found, hfound, rfl⟩ := Option.map_eq_some_iff.mp h
  obtain ⟨kept, hkept⟩ : ∃ kept : GitFileChange → Bool, ∀ f, kept f = true ↔ ∃ node,
      truthy f.nodeId = some node ∧ node ≠ folderId ∧
        Below (nextParent items files) folderId node :=
    ⟨fun f => decide _, fun f => decide_eq_true_iff⟩
  exact ⟨kept, paths_of_mapM hkept hfound, hkept⟩

theorem changesExact_of_parentsFit (h : ParentsFit items files) : ChangesExact items files := by
  have hnext := nextParent_eq h
  have hall : ∀ k, (nextParent items files k).isSome →
      k ∈ (parentMap items).keys ++ (deletedParentMap files).keys :=
    fun k hk => mem_keys_of_nextParent hk
  have hno : ∀ node c, Changed files node c → ¬ RunsIntoCycle (nextParent items files) node := by
    rw [hnext]
    exact h.no_cycle
  refine ⟨?_, fun folderId => ?_, fun fuel maps hmaps => hnext ▸ mapExact_of_build hmaps, ?_,
    fun fuel folderId paths hpaths => hnext ▸ pathsExact_of_changedPaths hpaths⟩
  · have hown : ∀ e ∈ (ownByNode files).entries, ¬ RunsIntoCycle (nextParent items files) e.1 :=
      fun e he => hno e.1 e.2 (changed_of_own he).1
    obtain ⟨n, hn⟩ := foldlM_ends hall hown
    exact ⟨n, by rw [buildChangeMap, Option.isSome_map]; exact hn n le_rfl _⟩
  · have hloop : ∀ fs : List GitFileChange, (∀ f ∈ fs, f ∈ files) → ∃ n, ∀ fuel ≥ n,
        (fs.mapM (keptPath (nextParent items files) folderId fuel)).isSome := by
      intro fs
      induction fs with
      | nil => exact fun _ => ⟨0, fun _ _ => rfl⟩
      | cons f fs ih =>
        intro hsub
        obtain ⟨hf, hfs⟩ := List.forall_mem_cons.mp hsub
        obtain ⟨k, hk⟩ := ih hfs
        obtain ⟨n, hn⟩ : ∃ n, ∀ fuel ≥ n,
            (keptPath (nextParent items files) folderId fuel f).isSome := by
          cases hnode : truthy f.nodeId with
          | none => exact ⟨0, fun fuel _ => by rw [keptPath, hnode]; rfl⟩
          | some node =>
            obtain ⟨n, hn⟩ := walk_ends hall (hno node f.change ⟨f, hf, hnode, rfl⟩)
            refine ⟨n, fun fuel hle => ?_⟩
            rw [keptPath, hnode]
            simp only
            split_ifs
            · rfl
            · rw [Option.isSome_map]
              exact isUnder_ends (hn fuel hle)
        refine ⟨max n k, fun fuel hle => ?_⟩
        obtain ⟨path, hpath⟩ :=
          Option.isSome_iff_exists.mp (hn fuel (le_trans (le_max_left n k) hle))
        obtain ⟨paths, hpaths⟩ :=
          Option.isSome_iff_exists.mp (hk fuel (le_trans (le_max_right n k) hle))
        rw [List.mapM_cons, hpath, Option.bind_eq_bind, Option.bind_some, hpaths]
        rfl
    obtain ⟨n, hn⟩ := hloop files fun f hf => hf
    exact ⟨n, by rw [changedPathsUnderFolder_eq, Option.isSome_map]; exact hn n le_rfl⟩
  · intro files' hperm hhead fuel fuel' maps maps' hmaps hmaps' id
    have hsame : nextParent items files' = nextParent items files := by
      funext k
      rw [nextParent, nextParent, resolveParent, resolveParent, hhead]
    have hworst := (mapExact_of_build hmaps).byNode id
    have hworst' := (mapExact_of_build hmaps').byNode id
    rw [hsame] at hworst'
    refine (hworst'.congr fun c => ?_).rank_eq hworst
    simp only [Changed, hperm.mem_iff]

theorem parentsFit_of_changesExact (h : ChangesExact items files) : ParentsFit items files := by
  obtain ⟨fuel, hfuel⟩ := h.map_ends
  rw [buildChangeMap, Option.isSome_map] at hfuel
  have hno : ∀ node c, Changed files node c → ¬ RunsIntoCycle (nextParent items files) node := by
    intro node c hc
    obtain ⟨d, hd⟩ := exists_own ⟨c, hc⟩
    exact not_runsIntoCycle_of_foldlM hfuel _ hd
  have hunder : ∀ {top k : Text}, Under (upward (parentNode items files)) top k →
      Under (upward (nextParent items files)) top k := by
    intro top k hunder
    induction hunder with
    | self => exact .self
    | link hparent _ ih =>
      exact .link (upward_eq_some.mpr (nextParent_of_parentNode (upward_eq_some.mp hparent))) ih
  constructor
  · intro node c hc hruns
    refine hno node c hc ?_
    obtain ⟨a, ha, p, hp, hpa⟩ := hruns
    exact ⟨a, hunder ha, p,
      upward_eq_some.mpr (nextParent_of_parentNode (upward_eq_some.mp hp)), hunder hpa⟩
  · intro id hroot
    by_contra hhead
    obtain ⟨p, hp⟩ := Option.ne_none_iff_exists'.mp hhead
    -- the file that names the parent in HEAD
    have hmem := mem_of_get?_ofList hp
    obtain ⟨f, hf, hrow⟩ := List.mem_filterMap.mp hmem
    have hf' : truthy f.nodeId = some id ∧ truthy f.parentId = some p := by
      cases hnode : truthy f.nodeId <;> cases hparent : truthy f.parentId <;>
        simp_all
    have hp' : truthy (some p) = some p := by
      have hparent := hf'.2
      rw [truthy, Option.filter_eq_some_iff] at hparent
      simpa [truthy] using hparent.2
    have hnext : nextParent items files id = some p := by
      rw [nextParent, resolveParent, hroot]
      simpa [hp] using hp'
    have hne : id ≠ p := by
      rintro rfl
      exact hno id f.change ⟨f, hf, hf'.1, rfl⟩ ⟨id, .self, id, upward_eq_some.mpr hnext, .self⟩
    obtain ⟨fuel', hpaths⟩ := h.paths_end p
    obtain ⟨paths, hpaths⟩ := Option.isSome_iff_exists.mp hpaths
    obtain ⟨kept, hkept, hkeeps⟩ := h.paths_exact _ _ _ hpaths
    obtain ⟨found, hfound, hfinds⟩ := pathsExact_of_changedPaths hpaths
    -- the loop finds the file, but the item has no parent
    have hsub : ∀ g, kept g = true → found g = true := by
      intro g hg
      obtain ⟨node, hnode, hdiff, q, hq, hbelow⟩ := (hkeeps g).mp hg
      exact (hfinds g).mpr ⟨node, hnode, hdiff, q, nextParent_of_parentNode hq, hunder hbelow⟩
    have hnot : ¬ kept f = true := by
      intro hk
      obtain ⟨node, hnode, -, q, hq, -⟩ := (hkeeps f).mp hk
      rw [hf'.1] at hnode
      cases hnode
      rw [parentNode, hroot] at hq
      cases hq
    have hlt : (files.filter kept).length < (files.filter found).length := by
      have hkeep : files.filter kept = (files.filter found).filter kept := by
        rw [List.filter_filter]
        refine List.filter_congr fun g _ => ?_
        cases hg : kept g with
        | true => simp [hsub g hg]
        | false => rfl
      rw [hkeep]
      refine List.length_filter_lt_length_iff_exists.mpr ⟨f, List.mem_filter.mpr ⟨hf, ?_⟩, hnot⟩
      exact (hfinds f).mpr ⟨id, hf'.1, hne, p, hnext, .self⟩
    have hlength := congrArg List.length (hkept.symm.trans hfound)
    rw [List.length_map, List.length_map] at hlength
    omega

/-- The change markers are found and right exactly where the parents of the items fit. -/
theorem changesExact_iff (items : LiveItems) (files : List GitFileChange) :
    ChangesExact items files ↔ ParentsFit items files :=
  ⟨parentsFit_of_changesExact, changesExact_of_parentsFit⟩

def emptyFolderIn (id parent : String) : ApiFolder :=
  ⟨id, "folder", "folder", "w", some parent, id, [], .none, [], none, 0, "", ""⟩

/-- Two folders in each other: the walk above a change of one has no end. -/
theorem looped_folders_not_exact :
    ¬ ChangesExact ⟨[], [emptyFolderIn "a" "b", emptyFolderIn "b" "a"], [], []⟩
      [⟨"folders/a.yml".toList, some "a".toList, .folder, .modified, false, none⟩] := by
  intro h
  have hab : parentNode ⟨[], [emptyFolderIn "a" "b", emptyFolderIn "b" "a"], [], []⟩
      [⟨"folders/a.yml".toList, some "a".toList, .folder, .modified, false, none⟩] "a".toList =
        some "b".toList := by
    decide
  have hba : parentNode ⟨[], [emptyFolderIn "a" "b", emptyFolderIn "b" "a"], [], []⟩
      [⟨"folders/a.yml".toList, some "a".toList, .folder, .modified, false, none⟩] "b".toList =
        some "a".toList := by
    decide
  exact (parentsFit_of_changesExact h).no_cycle "a".toList .modified
    ⟨_, List.mem_singleton_self _, by decide, rfl⟩
    ⟨"a".toList, .self, "b".toList, upward_eq_some.mpr hab, .link (upward_eq_some.mpr hba) .self⟩

end Voleeo.Web
