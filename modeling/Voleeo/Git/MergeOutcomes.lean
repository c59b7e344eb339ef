import Voleeo.Git.Merging

/-!
# What a call leaves of a merge

A call may stop at any step. What it leaves is said by an outcome: for the calls
of the resolver on each path's verdict, for the repair on each working file.
-/
namespace Voleeo.Git
open Fallible (Outcome)
open Sse (fromUtf8Lossy)

variable {β : Type} {env : Env} {s s' : MergeRepo β} {index : Index PathBytes β}
  {p q : PathBytes}

/-- The conflicted paths are UTF-8. -/
def Readable (index : Index PathBytes β) : Prop :=
  ∀ q, index.IsConflicted q → utf8 (fromUtf8Lossy q) = q

def Env.Refuses (env : Env) : Prop := ∃ op message, env.refuses op = some message

/-- Nothing but working files differs. -/
def FilesOnly (s s' : MergeRepo β) : Prop := ∃ worktree, s' = { s with worktree }

theorem FilesOnly.refl (s : MergeRepo β) : FilesOnly s s := ⟨s.worktree, rfl⟩

/-! ## Steps on the disk -/

theorem attempt_outcome (op : DiskOp) :
    Outcome (attempt env op) s (fun _ s' => s' = s) (fun _ s' => s' = s ∧ env.Refuses) := by
  rw [attempt]
  cases h : env.refuses op with
  | none => exact Outcome.pure rfl
  | some message => exact Outcome.throw ⟨rfl, op, message, h⟩

theorem writeFile_outcome (p : PathBytes) (content : β) :
    Outcome (writeFile env p content) s
      (fun _ s' => s' = { s with worktree := Function.update s.worktree p (some content) })
      (fun _ s' => s' = s ∧ env.Refuses) := by
  refine Outcome.bind (attempt_outcome _) fun _ s₁ h => ?_
  subst h
  exact Outcome.modify rfl

theorem removeIfExists_outcome (p : PathBytes) :
    Outcome (removeIfExists env p) s
      (fun _ s' => s' = { s with worktree := Function.update s.worktree p none })
      (fun _ s' => s' = s ∧ env.Refuses) := by
  refine Outcome.bind (Outcome.get (Q := fun a s' => s = a ∧ s = s') ⟨rfl, rfl⟩) ?_
  rintro _ _ ⟨rfl, rfl⟩
  split_ifs with h
  · refine Outcome.bind (attempt_outcome _) fun _ s₁ h₁ => ?_
    subst h₁
    exact Outcome.bind (Q := fun _ s' => s' = _) (Outcome.modify rfl) fun _ _ hs => hs
  · refine Outcome.pure ?_
    have hnone : none = s.worktree p := by simpa using (Option.not_isSome_iff_eq_none.mp h).symm
    rw [Function.update_eq_self_iff.mpr hnone]

theorem addPath_outcome (index : Index PathBytes β) (p : PathBytes) :
    Outcome (addPath env index p) s
      (fun index' s' => s' = s ∧ ∃ content, s.worktree p = some content ∧
        index' = index.addPath p content)
      (fun _ s' => s' = s ∧ (env.Refuses ∨ s.worktree p = none)) := by
  refine Outcome.bind ((attempt_outcome _).mono (fun _ _ h => h) fun _ _ h => ⟨h.1, Or.inl h.2⟩)
    fun _ s₁ h => ?_
  subst h
  refine Outcome.bind (Outcome.get (Q := fun a s' => s₁ = a ∧ s₁ = s') ⟨rfl, rfl⟩) ?_
  rintro _ _ ⟨rfl, rfl⟩
  cases h : s₁.worktree p with
  | none => exact Outcome.throw ⟨rfl, Or.inr rfl⟩
  | some content => exact Outcome.pure ⟨rfl, content, rfl, rfl⟩

theorem removePath_outcome (index : Index PathBytes β) (p : PathBytes) :
    Outcome (removePath env index p) s (fun index' s' => s' = s ∧ index' = index.removePath p)
      (fun _ s' => s' = s ∧ env.Refuses) := by
  refine Outcome.bind (attempt_outcome _) fun _ s₁ h => ?_
  subst h
  exact Outcome.pure ⟨rfl, rfl⟩

theorem writeIndex_outcome (index : Index PathBytes β) :
    Outcome (writeIndex env index) s (fun _ s' => s' = { s with index })
      (fun _ s' => s' = s ∧ env.Refuses) := by
  refine Outcome.bind (attempt_outcome _) fun _ s₁ h => ?_
  subst h
  exact Outcome.modify rfl

/-! ## Resolutions -/

theorem safeRel_outcome (file : Text) :
    Outcome (safeRel file) s (fun rel s' => rel = utf8 file ∧ s' = s) (fun _ s' => s' = s) := by
  rw [safeRel]
  split_ifs
  · exact Outcome.throw rfl
  · exact Outcome.pure ⟨rfl, rfl⟩

/-- A conflicted path is decided, and no other path changes. -/
theorem resolve_outcome (file : Text) (merged : β) :
    Outcome (resolve env file merged) s
      (fun _ s' => s'.commits = s.commits ∧ ∀ q, s'.index.verdict q =
        if q = utf8 file ∧ s.index.IsConflicted q then .resolved (some merged)
        else s.index.verdict q)
      (fun _ => FilesOnly s) := by
  refine Outcome.bind ((safeRel_outcome file).mono (fun _ _ h => h) fun _ _ h => ?_) ?_
  · exact h ▸ FilesOnly.refl s
  rintro _ s₁ ⟨rfl, h₁⟩
  refine Outcome.bind ((writeFile_outcome _ merged).mono (fun _ _ h => h) fun _ _ h => ?_) ?_
  · exact h.1 ▸ h₁ ▸ FilesOnly.refl s
  rintro _ s₂ h₂
  have hfiles : FilesOnly s s₂ := ⟨_, by rw [h₂, h₁]⟩
  have hfile : s₂.worktree (utf8 file) = some merged := by
    rw [h₂]
    exact Function.update_self _ _ _
  have hindex : s₂.index = s.index := by rw [h₂, h₁]
  have hcommits : s₂.commits = s.commits := by rw [h₂, h₁]
  refine Outcome.bind (Outcome.get (Q := fun a s' => s₂ = a ∧ s₂ = s') ⟨rfl, rfl⟩) ?_
  rintro _ _ ⟨rfl, rfl⟩
  have hstages : ([1, 2, 3].any fun s => (s₂.index.getPath (utf8 file) s).isSome) = true ↔
      s.index.IsConflicted (utf8 file) := by
    rw [Index.isConflicted_iff_getPath, hindex, List.any_eq_true]
  split_ifs with hconflicted
  · rw [hstages] at hconflicted
    refine Outcome.bind ((addPath_outcome _ _).mono (fun _ _ h => h) fun _ _ h => ?_) ?_
    · exact h.1 ▸ hfiles
    rintro index s₃ ⟨rfl, content, hcontent, rfl⟩
    obtain rfl : merged = content := Option.some.inj (hfile.symm.trans hcontent)
    refine (writeIndex_outcome _).mono (fun _ s₄ h₄ => ?_) fun _ _ h => h.1 ▸ hfiles
    rw [h₄]
    refine ⟨hcommits, fun q => ?_⟩
    rw [Index.verdict_addPath, hindex]
    by_cases hq : q = utf8 file
    · rw [if_pos hq, if_pos ⟨hq, hq ▸ hconflicted⟩]
    · rw [if_neg hq, if_neg fun h => hq h.1]
  · rw [hstages] at hconflicted
    refine Outcome.pure ⟨hcommits, fun q => ?_⟩
    rw [hindex, if_neg]
    rintro ⟨rfl, hq⟩
    exact hconflicted hq

/-- A path is decided as deleted, conflicted or not. -/
theorem resolveDelete_outcome (file : Text) :
    Outcome (resolveDelete env file) s
      (fun _ s' => s'.commits = s.commits ∧ ∀ q, s'.index.verdict q =
        if q = utf8 file then .resolved none else s.index.verdict q)
      (fun _ => FilesOnly s) := by
  refine Outcome.bind ((safeRel_outcome file).mono (fun _ _ h => h) fun _ _ h => ?_) ?_
  · exact h ▸ FilesOnly.refl s
  rintro _ s₁ ⟨rfl, h₁⟩
  refine Outcome.bind ((removeIfExists_outcome _).mono (fun _ _ h => h) fun _ _ h => ?_) ?_
  · exact h.1 ▸ h₁ ▸ FilesOnly.refl s
  rintro _ s₂ h₂
  have hfiles : FilesOnly s s₂ := ⟨_, by rw [h₂, h₁]⟩
  have hindex : s₂.index = s.index := by rw [h₂, h₁]
  have hcommits : s₂.commits = s.commits := by rw [h₂, h₁]
  refine Outcome.bind (Outcome.get (Q := fun a s' => s₂ = a ∧ s₂ = s') ⟨rfl, rfl⟩) ?_
  rintro _ _ ⟨rfl, rfl⟩
  refine Outcome.bind ((removePath_outcome _ _).mono (fun _ _ h => h) fun _ _ h => ?_) ?_
  · exact h.1 ▸ hfiles
  rintro index s₃ ⟨rfl, rfl⟩
  refine (writeIndex_outcome _).mono (fun _ s₄ h₄ => ?_) fun _ _ h => h.1 ▸ hfiles
  rw [h₄]
  refine ⟨hcommits, fun q => ?_⟩
  rw [Index.verdict_removePath, hindex]

/-! ## The repair -/

theorem mem_collectConflictOurs (hread : Readable index) {item : Text × Option β} :
    item ∈ collectConflictOurs index ↔ index.IsConflicted (utf8 item.1) ∧
      fromUtf8Lossy (utf8 item.1) = item.1 ∧ item.2 = index.ours (utf8 item.1) := by
  have hentry : ∀ p, index.IsConflicted p → (((index.conflict p).our <|>
      (index.conflict p).their <|> (index.conflict p).ancestor).map fun entry =>
        (fromUtf8Lossy entry.path, (index.conflict p).our.map (·.content))) =
      some (fromUtf8Lossy p, index.ours p) := by
    intro p hp
    obtain ⟨e, he, hpath⟩ := Index.conflict_entry hp
    rw [he, Option.map_some, hpath]
    rfl
  rw [collectConflictOurs, Index.conflicts, List.filterMap_map, List.mem_filterMap]
  constructor
  · rintro ⟨p, hp, hitem⟩
    rw [Index.mem_conflictedPaths] at hp
    rw [Function.comp_apply, hentry p hp, Option.some_inj] at hitem
    subst hitem
    rw [hread p hp]
    exact ⟨hp, rfl, rfl⟩
  · rintro ⟨hp, hlossy, hours⟩
    refine ⟨utf8 item.1, Index.mem_conflictedPaths.mpr hp, ?_⟩
    rw [Function.comp_apply, hentry _ hp, hlossy, ← hours]

/-- The paths of a list of conflicts. -/
def itemPaths (items : List (Text × Option β)) : List PathBytes := items.map fun x => utf8 x.1

theorem mem_itemPaths (hread : Readable index) :
    q ∈ itemPaths (collectConflictOurs index) ↔ index.IsConflicted q := by
  rw [itemPaths, List.mem_map]
  constructor
  · rintro ⟨item, hitem, rfl⟩
    exact ((mem_collectConflictOurs hread).mp hitem).1
  · intro hq
    have hlossy := hread q hq
    refine ⟨(fromUtf8Lossy q, index.ours q), ?_, hlossy⟩
    rw [mem_collectConflictOurs hread, hlossy]
    exact ⟨hq, rfl, rfl⟩

/-- The working files, with our side for the given paths. -/
def oursOn (index : Index PathBytes β) (done : List PathBytes)
    (worktree : PathBytes → Option β) : PathBytes → Option β :=
  fun q => if q ∈ done then index.ours q else worktree q

theorem update_oursOn {done : List PathBytes} {worktree : PathBytes → Option β} :
    Function.update (oursOn index done worktree) p (index.ours p) =
      oursOn index (done ++ [p]) worktree := by
  funext q
  rw [Function.update_apply, oursOn, oursOn]
  by_cases h : q = p
  · rw [if_pos h, if_pos (List.mem_append_right _ (List.mem_singleton.mpr h)), h]
  · rw [if_neg h]
    simp only [List.mem_append, List.mem_singleton, h, or_false]

/-- Where our side already stands, our side changes nothing. -/
theorem oursOn_of_ours {done : List PathBytes} {worktree : PathBytes → Option β}
    (h : ∀ q ∈ done, worktree q = index.ours q) : oursOn index done worktree = worktree := by
  funext q
  rw [oursOn]
  split_ifs with hq
  · exact (h q hq).symm
  · rfl

theorem healItem_outcome (healed : Bool) (item : Text × Option β) :
    Outcome (healItem env healed item) s
      (fun _ s' => s' = { s with worktree := Function.update s.worktree (utf8 item.1) item.2 })
      (fun _ s' => s' = s ∧ env.Refuses) := by
  rw [healItem]
  split
  · rename_i content h
    rw [h]
    exact Outcome.bind (writeFile_outcome _ _) fun _ s₁ h₁ => Outcome.pure h₁
  · rename_i h
    rw [h]
    exact Outcome.bind (removeIfExists_outcome _) fun _ s₁ h₁ => Outcome.pure h₁

/-- The state in which some conflicted paths have our side in the working tree. -/
def Healed (s s' : MergeRepo β) : Prop :=
  ∃ done, (∀ q ∈ done, s.index.IsConflicted q) ∧
    s' = { s with worktree := oursOn s.index done s.worktree }

theorem Healed.refl (s : MergeRepo β) : Healed s s :=
  ⟨[], by simp, by rw [oursOn_of_ours (by simp)]⟩

variable (env) in
theorem healMergeWorktree_outcome (hread : Readable s.index) :
    Outcome (healMergeWorktree env) s
      (fun _ s' => s' = s ∧ s.mergeHead = none ∨ s' = { s with
        worktree := oursOn s.index (itemPaths (collectConflictOurs s.index)) s.worktree })
      (fun _ => Healed s) := by
  refine Outcome.bind (Outcome.get (Q := fun a s' => s = a ∧ s = s') ⟨rfl, rfl⟩) ?_
  rintro _ _ ⟨rfl, rfl⟩
  split_ifs with hmerging hbare
  · exact Outcome.pure (Or.inl ⟨rfl, Option.isNone_iff_eq_none.mp hmerging⟩)
  · exact Outcome.throw (Healed.refl s)
  refine (Outcome.foldlM (J := fun done _ s' =>
    s' = { s with worktree := oursOn s.index (itemPaths done) s.worktree })
    (E := fun _ => Healed s) ?_ ?_).mono (fun _ _ h => Or.inr h) fun _ _ h => h
  · rw [itemPaths, List.map_nil, oursOn_of_ours (by simp)]
  · intro done item rest hitems healed s₁ hs₁
    have hmem : item ∈ collectConflictOurs s.index := hitems ▸ by simp
    have hours := ((mem_collectConflictOurs hread).mp hmem).2.2
    refine (healItem_outcome healed item).mono (fun _ s₂ h₂ => ?_) fun _ s₂ h₂ => ?_
    · rw [h₂, hs₁, hours, update_oursOn, itemPaths, itemPaths, List.map_append]
      rfl
    · refine ⟨itemPaths done, fun q hq => ?_, by rw [h₂.1, hs₁]⟩
      obtain ⟨x, hx, rfl⟩ := List.mem_map.mp hq
      have hx : x ∈ collectConflictOurs s.index := hitems ▸ List.mem_append_left _ hx
      exact ((mem_collectConflictOurs hread).mp hx).1

variable (env) in
/-- However the repair ends, it has given some conflicted paths our side. -/
theorem healed_heal (hread : Readable s.index) : Healed s (healMergeWorktree env s).2 := by
  have h := healMergeWorktree_outcome env hread
  rw [Outcome] at h
  split at h
  · rename_i hrun
    rw [hrun]
    rcases h with ⟨rfl, -⟩ | rfl
    · exact Healed.refl _
    · exact ⟨_, fun q hq => (mem_itemPaths hread).mp hq, rfl⟩
  · rename_i hrun
    rw [hrun]
    exact h

theorem worktree_of_healed (h : Healed s s') (hq : s'.worktree q ≠ s.worktree q) :
    s.index.IsConflicted q ∧ s'.worktree q = s.index.ours q := by
  obtain ⟨done, hdone, rfl⟩ := h
  by_cases hmem : q ∈ done
  · exact ⟨hdone q hmem, if_pos hmem⟩
  · exact absurd (if_neg hmem) hq

/-- A repair that went through leaves nothing to the next one. -/
theorem heal_twice (hread : Readable s.index) {env' : Env} {b : Bool}
    (h : (healMergeWorktree env s).1 = .ok b) :
    (healMergeWorktree env' (healMergeWorktree env s).2).2 = (healMergeWorktree env s).2 := by
  obtain ⟨s₁, hrun⟩ : ∃ s₁, healMergeWorktree env s = (.ok b, s₁) := ⟨_, Prod.ext h rfl⟩
  have hs₁ := (healMergeWorktree_outcome env hread).of_ok hrun
  rw [hrun]
  rcases hs₁ with ⟨rfl, hnone⟩ | hs₁
  · have hgo : healMergeWorktree env' s₁ = (.ok false, s₁) := by
      simp only [healMergeWorktree, Fallible.bind_apply, Fallible.get_apply, hnone,
        Option.isNone_none, if_true, Fallible.pure_apply]
    rw [hgo]
  · have hread₁ : Readable s₁.index := by rw [hs₁]; exact hread
    obtain ⟨done, hdone, hs₂⟩ := healed_heal env' hread₁
    have hours : ∀ q ∈ done, s₁.worktree q = s₁.index.ours q := by
      intro q hq
      have hconf := hdone q hq
      rw [hs₁] at hconf ⊢
      exact if_pos ((mem_itemPaths hread).mpr hconf)
    rw [hs₂, oursOn_of_ours hours]

/-! ## The commit -/

/-- The index with our side for the given paths. -/
def Settles (index index' : Index PathBytes β) (done : List PathBytes) : Prop :=
  ∀ q, index'.verdict q =
    if q ∈ done then .resolved (index.ours q) else index.verdict q

theorem Settles.decide {index index' next : Index PathBytes β} {done : List PathBytes}
    (h : Settles index index' done) (hnext : ∀ q, next.verdict q =
      if q = p then .resolved (index.ours p) else index'.verdict q) :
    Settles index next (done ++ [p]) := by
  intro q
  rw [hnext]
  by_cases hq : q = p
  · rw [if_pos hq, if_pos (List.mem_append_right _ (List.mem_singleton.mpr hq)), hq]
  · rw [if_neg hq, h q]
    simp only [List.mem_append, List.mem_singleton, hq, or_false]

theorem clearItem_outcome (index' : Index PathBytes β) (item : Text × Option β) :
    Outcome (clearItem env index' item) s
      (fun next s' => FilesOnly s s' ∧ ∀ q, next.verdict q =
        if q = utf8 item.1 then .resolved item.2 else index'.verdict q)
      (fun _ s' => FilesOnly s s' ∧ env.Refuses) := by
  rw [clearItem]
  split
  · rename_i content h
    rw [h]
    refine Outcome.bind ((writeFile_outcome _ content).mono (fun _ _ h => h) fun _ _ h => ?_) ?_
    · exact ⟨h.1 ▸ FilesOnly.refl s, h.2⟩
    rintro _ s₁ h₁
    have hfiles : FilesOnly s s₁ := ⟨_, h₁⟩
    have hfile : s₁.worktree (utf8 item.1) = some content := by
      rw [h₁]
      exact Function.update_self _ _ _
    refine (addPath_outcome _ _).mono (fun next s₂ h₂ => ?_) fun _ s₂ h₂ => ?_
    · obtain ⟨rfl, content', hcontent, rfl⟩ := h₂
      obtain rfl : content = content' := Option.some.inj (hfile.symm.trans hcontent)
      exact ⟨hfiles, fun q => Index.verdict_addPath⟩
    · rw [hfile] at h₂
      exact ⟨h₂.1 ▸ hfiles, h₂.2.resolve_right (by simp)⟩
  · rename_i h
    rw [h]
    refine Outcome.bind ((removeIfExists_outcome _).mono (fun _ _ h => h) fun _ _ h => ?_) ?_
    · exact ⟨h.1 ▸ FilesOnly.refl s, h.2⟩
    rintro _ s₁ h₁
    have hfiles : FilesOnly s s₁ := ⟨_, h₁⟩
    refine (removePath_outcome _ _).mono (fun next s₂ h₂ => ?_) fun _ s₂ h₂ => ?_
    · obtain ⟨rfl, rfl⟩ := h₂
      exact ⟨hfiles, fun q => Index.verdict_removePath⟩
    · exact ⟨h₂.1 ▸ hfiles, h₂.2⟩

/-- Every path is decided, the open ones for our side. -/
def AllSettled (s s' : MergeRepo β) : Prop :=
  ∀ q, s'.index.verdict q = .resolved (s.index.verdict q).settled

theorem settled_of_settles (hread : Readable index) {index' : Index PathBytes β}
    (h : Settles index index' (itemPaths (collectConflictOurs index))) (q : PathBytes) :
    index'.verdict q = .resolved (index.verdict q).settled := by
  rw [h q]
  split_ifs with hq
  · rw [mem_itemPaths hread] at hq
    rw [Index.verdict_conflicted hq]
    rfl
  · rw [mem_itemPaths hread] at hq
    rw [Index.verdict, if_neg hq]
    rfl

theorem clearLeftoverConflicts_outcome (hread : Readable s.index) :
    Outcome (clearLeftoverConflicts env) s (fun _ s' => s'.commits = s.commits ∧ AllSettled s s')
      (fun _ s' => FilesOnly s s' ∧ (s.bare = true ∨ env.Refuses)) := by
  refine Outcome.bind (Outcome.get (Q := fun a s' => s = a ∧ s = s') ⟨rfl, rfl⟩) ?_
  rintro _ _ ⟨rfl, rfl⟩
  split_ifs with hbare
  · exact Outcome.throw ⟨FilesOnly.refl s, Or.inl hbare⟩
  split
  · rename_i hnil
    refine Outcome.pure ⟨rfl, settled_of_settles hread fun q => ?_⟩
    rw [hnil, itemPaths, List.map_nil, if_neg List.not_mem_nil]
  · rename_i leftovers _
    refine Outcome.bind (Outcome.foldlM (J := fun done index' s' =>
      FilesOnly s s' ∧ Settles s.index index' (itemPaths done))
      (E := fun _ s' => FilesOnly s s' ∧ (s.bare = true ∨ env.Refuses)) ?_ ?_) ?_
    · exact ⟨FilesOnly.refl s, fun q => (if_neg List.not_mem_nil).symm⟩
    · rintro done item rest hitems index' s₁ ⟨⟨worktree, rfl⟩, hsettles⟩
      have hmem : item ∈ collectConflictOurs s.index := hitems ▸ by simp
      have hours := ((mem_collectConflictOurs hread).mp hmem).2.2
      refine (clearItem_outcome index' item).mono ?_ ?_
      · rintro next _ ⟨⟨worktree', rfl⟩, hnext⟩
        rw [hours] at hnext
        refine ⟨⟨worktree', rfl⟩, ?_⟩
        rw [itemPaths, List.map_append]
        exact hsettles.decide hnext
      · rintro _ _ ⟨⟨worktree', rfl⟩, hrefuses⟩
        exact ⟨⟨worktree', rfl⟩, Or.inr hrefuses⟩
    · rintro index' _ ⟨⟨worktree, rfl⟩, hsettles⟩
      refine (writeIndex_outcome _).mono ?_ ?_
      · rintro _ _ rfl
        exact ⟨rfl, settled_of_settles hread hsettles⟩
      · rintro _ _ ⟨rfl, hrefuses⟩
        exact ⟨⟨worktree, rfl⟩, Or.inr hrefuses⟩

/-- A commit, if there is one, holds what the index says of each path, open paths included. -/
def Commits (s s' : MergeRepo β) (c : Commit β) : Prop :=
  s'.commits = s.commits ++ [c] ∧ ∀ q, c.tree q = (s.index.verdict q).settled

theorem signature_outcome (author : Option (String × String)) :
    Outcome (signature env author) s (fun _ s' => s' = s)
      (fun _ s' => s' = s ∧ (env.Refuses ∨ author = none ∧ env.user = none)) := by
  rw [signature.eq_def]
  split
  · refine Outcome.bind ((attempt_outcome _).mono (fun _ _ h => h) fun _ _ h => ?_) ?_
    · exact ⟨h.1, Or.inl h.2⟩
    · exact fun _ _ h => Outcome.pure h
  · split
    · exact Outcome.pure rfl
    · rename_i huser
      exact Outcome.throw ⟨rfl, Or.inr ⟨rfl, huser⟩⟩

theorem writeCommit_outcome (hopen : ∀ q, ¬ s.index.IsConflicted q) (message : String)
    (author : Option (String × String)) (merge : Bool) :
    Outcome (writeCommit env message author merge) s
      (fun c s' => s'.index = s.index ∧ Commits s s' c)
      (fun _ s' => s'.index = s.index ∧ (s'.commits = s.commits ∨ ∃ c, Commits s s' c) ∧
        (env.Refuses ∨ author = none ∧ env.user = none)) := by
  refine Outcome.bind ((signature_outcome author).mono (fun _ _ h => h) fun _ _ h => ?_) ?_
  · rw [h.1]
    exact ⟨rfl, Or.inl rfl, h.2⟩
  intro sig s₁ h₁
  subst h₁
  refine Outcome.bind (Outcome.get (Q := fun a s' => s₁ = a ∧ s₁ = s') ⟨rfl, rfl⟩) ?_
  rintro _ _ ⟨rfl, rfl⟩
  rw [Index.writeTree_eq hopen]
  refine Outcome.bind ((attempt_outcome _).mono (fun _ _ h => h) fun _ _ h => ?_) ?_
  · rw [h.1]
    exact ⟨rfl, Or.inl rfl, Or.inl h.2⟩
  intro _ s₂ h₂
  subst h₂
  refine Outcome.bind (Q := fun _ s' => s' = _) (Outcome.modify rfl) fun _ s₃ h₃ => ?_
  subst h₃
  split_ifs
  · refine Outcome.bind ((attempt_outcome _).mono (fun _ _ h => h) fun _ _ h => ?_) ?_
    · rw [h.1]
      exact ⟨rfl, Or.inr ⟨_, rfl, fun q => rfl⟩, Or.inl h.2⟩
    intro _ s₄ h₄
    subst h₄
    exact Outcome.bind (Q := fun _ s' => s' = _) (Outcome.modify rfl) fun _ s₅ h₅ =>
      Outcome.pure (by rw [h₅]; exact ⟨rfl, rfl, fun q => rfl⟩)
  · exact Outcome.pure ⟨rfl, rfl, fun q => rfl⟩

variable (env) in
theorem finishMerge_outcome (hread : Readable s.index) (message : String)
    (author : Option (String × String)) :
    Outcome (finishMerge env message author) s (fun c s' => AllSettled s s' ∧ Commits s s' c)
      (fun _ s' => (s'.index = s.index ∨ AllSettled s s') ∧
        (s'.commits = s.commits ∨ ∃ c, Commits s s' c) ∧
        (s.bare = true ∨ env.Refuses ∨ author = none ∧ env.user = none)) := by
  refine Outcome.bind ((clearLeftoverConflicts_outcome hread).mono (fun _ _ h => h)
    fun _ _ h => ?_) ?_
  · obtain ⟨⟨worktree, rfl⟩, hwhy⟩ := h
    exact ⟨Or.inl rfl, Or.inl rfl, hwhy.imp_right Or.inl⟩
  rintro _ s₁ ⟨hcommits, hsettled⟩
  have hopen : ∀ q, ¬ s₁.index.IsConflicted q := fun q hq => by
    have := hsettled q
    rw [Index.verdict_conflicted hq] at this
    cases this
  have hcommit : ∀ {s₂ c}, Commits s₁ s₂ c → Commits s s₂ c := fun {s₂ c} h =>
    ⟨by rw [h.1, hcommits], fun q => by rw [h.2 q, hsettled q]; rfl⟩
  refine (writeCommit_outcome hopen message author true).mono ?_ ?_
  · rintro c s₂ ⟨hindex, hc⟩
    exact ⟨fun q => by rw [hindex, hsettled q], hcommit hc⟩
  · rintro _ s₂ ⟨hindex, hc, hwhy⟩
    refine ⟨Or.inr fun q => by rw [hindex, hsettled q], ?_, Or.inr hwhy⟩
    rcases hc with hc | ⟨c, hc⟩
    · exact Or.inl (hc.trans hcommits)
    · exact Or.inr ⟨c, hcommit hc⟩

end Voleeo.Git
