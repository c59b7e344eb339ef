import Voleeo.Git.MergeOutcomes

/-!
# Runs of a merge

The calls of the resolver, the repair and the commit follow one another in any
order, and each may fail. The commit has, for each path, what the last call that
decided it said.
-/
namespace Voleeo.Git
open Fallible (Outcome)
open Sse (fromUtf8Lossy)

variable {β : Type} {env : Env} {s s' : MergeRepo β} {q : PathBytes}

inductive Call (β : Type)
  | resolve (file : Text) (merged : β)
  | resolveDelete (file : Text)
  | heal
  | finish (message : String) (author : Option (String × String))

/-- The call, with what it returns beside success left out. -/
def Call.run (env : Env) : Call β → GitM β Unit
  | .resolve file merged => Git.resolve env file merged
  | .resolveDelete file => Git.resolveDelete env file
  | .heal => do let _ ← healMergeWorktree env
  | .finish message author => do let _ ← finishMerge env message author

/-- The repository after the calls, whether they succeed or not. -/
def runCalls : List (Env × Call β) → MergeRepo β → MergeRepo β
  | [], s => s
  | (env, call) :: rest, s => runCalls rest (call.run env s).2

theorem runCalls_append (before after : List (Env × Call β)) (s : MergeRepo β) :
    runCalls (before ++ after) s = runCalls after (runCalls before s) := by
  induction before generalizing s with
  | nil => rfl
  | cons e before ih => exact ih _

/-- A call decides a path when it succeeds and is a deletion, or a resolution of an open path. -/
inductive Decides (env : Env) (s : MergeRepo β) (q : PathBytes) : Call β → Option β → Prop
  | resolve {file : Text} {merged : β} (hfile : utf8 file = q) (hopen : s.index.IsConflicted q)
      (hok : (Git.resolve env file merged s).1 = .ok ()) :
      Decides env s q (.resolve file merged) (some merged)
  | delete {file : Text} (hfile : utf8 file = q)
      (hok : (Git.resolveDelete env file s).1 = .ok ()) :
      Decides env s q (.resolveDelete file) none

/-- None of the calls decides the path. -/
def Undecided (q : PathBytes) : List (Env × Call β) → MergeRepo β → Prop
  | [], _ => True
  | (env, call) :: rest, s =>
    (∀ content, ¬ Decides env s q call content) ∧ Undecided q rest (call.run env s).2

/-- What a call does to the verdict on one path. -/
inductive Judged (env : Env) (s s' : MergeRepo β) (q : PathBytes) (call : Call β) : Prop
  | kept (h : s'.index.verdict q = s.index.verdict q)
  | settled (h : s'.index.verdict q = .resolved (s.index.verdict q).settled)
  | decided (content : Option β) (hdecides : Decides env s q call content)
      (h : s'.index.verdict q = .resolved content)

theorem ok_or_error (x : GitM β Unit) (s : MergeRepo β) :
    x s = (.ok (), (x s).2) ∨ ∃ e, x s = (.error e, (x s).2) := by
  rcases hx : x s with ⟨_ | e, s'⟩
  · exact Or.inr ⟨_, rfl⟩
  · exact Or.inl rfl

theorem discard_snd {α : Type} (x : GitM β α) (s : MergeRepo β) :
    ((do let _ ← x : GitM β Unit) s).2 = (x s).2 := by
  rw [Fallible.bind_apply]
  rcases x s with ⟨_ | a, s'⟩ <;> rfl

theorem Judged.of_files {call : Call β} (h : FilesOnly s s') : Judged env s s' q call := by
  obtain ⟨worktree, rfl⟩ := h
  exact .kept rfl

variable (env) in
theorem judged (hread : Readable s.index) (call : Call β) (q : PathBytes) :
    Judged env s (call.run env s).2 q call := by
  cases call with
  | resolve file merged =>
    rw [Call.run]
    rcases ok_or_error (Git.resolve env file merged) s with hok | ⟨e, herror⟩
    · have hverdict := ((resolve_outcome file merged).of_ok hok).2 q
      split_ifs at hverdict with hq
      · exact .decided _ (.resolve hq.1.symm (hq.1 ▸ hq.2) (by rw [hok])) hverdict
      · exact .kept hverdict
    · exact .of_files ((resolve_outcome file merged).of_error herror)
  | resolveDelete file =>
    rw [Call.run]
    rcases ok_or_error (Git.resolveDelete env file) s with hok | ⟨e, herror⟩
    · have hverdict := ((resolveDelete_outcome file).of_ok hok).2 q
      split_ifs at hverdict with hq
      · exact .decided _ (.delete hq.symm (by rw [hok])) hverdict
      · exact .kept hverdict
    · exact .of_files ((resolveDelete_outcome file).of_error herror)
  | heal =>
    rw [Call.run, discard_snd]
    obtain ⟨done, -, hs'⟩ := healed_heal env hread
    exact .of_files ⟨_, hs'⟩
  | finish message author =>
    rw [Call.run, discard_snd]
    have h := finishMerge_outcome env hread message author
    rw [Outcome] at h
    split at h
    · rename_i hrun
      rw [hrun]
      exact .settled (h.1 q)
    · rename_i hrun
      rw [hrun]
      rcases h.1 with hindex | hsettled
      · exact .kept (by rw [hindex])
      · exact .settled (hsettled q)

/-- No call opens a path. -/
theorem readable_call (hread : Readable s.index) (call : Call β) :
    Readable (call.run env s).2.index := by
  intro q hq
  refine hread q ?_
  have hverdict := Index.verdict_conflicted hq
  cases judged env hread call q with
  | kept h => exact Index.isConflicted_of_verdict (h.symm.trans hverdict)
  | settled h => cases h.symm.trans hverdict
  | decided content _ h => cases h.symm.trans hverdict

theorem readable_runCalls {calls : List (Env × Call β)} (hread : Readable s.index) :
    Readable (runCalls calls s).index := by
  induction calls generalizing s with
  | nil => exact hread
  | cons e calls ih => exact ih (readable_call hread e.2)

/-- A path that no call decides keeps what it would settle to. -/
theorem settled_of_undecided {calls : List (Env × Call β)} (hread : Readable s.index)
    (h : Undecided q calls s) :
    ((runCalls calls s).index.verdict q).settled = (s.index.verdict q).settled := by
  induction calls generalizing s with
  | nil => rfl
  | cons e calls ih =>
    obtain ⟨hstep, hrest⟩ := h
    rw [runCalls, ih (readable_call hread e.2) hrest]
    cases judged e.1 hread e.2 q with
    | kept h => rw [h]
    | settled h => rw [h, Verdict.settled]
    | decided content hdecides h => exact absurd hdecides (hstep content)

theorem verdict_of_decides {call : Call β} {content : Option β} (h : Decides env s q call content) :
    (call.run env s).2.index.verdict q = .resolved content := by
  cases h with
  | @resolve file merged hfile hopen hok =>
    have hrun : Git.resolve env file merged s = (.ok (), (Git.resolve env file merged s).2) :=
      Prod.ext hok rfl
    rw [Call.run, ((resolve_outcome file merged).of_ok hrun).2 q, if_pos ⟨hfile.symm, hopen⟩]
  | @delete file hfile hok =>
    have hrun : Git.resolveDelete env file s = (.ok (), (Git.resolveDelete env file s).2) :=
      Prod.ext hok rfl
    rw [Call.run, ((resolveDelete_outcome file).of_ok hrun).2 q, if_pos hfile.symm]

/-- Each path of the tree has the content of the last call that decided it. A path that no call
decided has our side if it was in conflict, and what the merge gave it otherwise. -/
def TreeFollows (repo : MergeRepo β) (calls : List (Env × Call β)) (c : Commit β) : Prop :=
  (∀ q, Undecided q calls repo → c.tree q = (repo.index.verdict q).settled) ∧
  ∀ q before env call after content, calls = before ++ (env, call) :: after →
    Decides env (runCalls before repo) q call content →
    Undecided q after (call.run env (runCalls before repo)).2 → c.tree q = content

theorem treeFollows_of_commits {repo : MergeRepo β} {calls : List (Env × Call β)}
    (hread : Readable repo.index) {c : Commit β} (h : Commits (runCalls calls repo) s' c) :
    TreeFollows repo calls c := by
  constructor
  · intro q hq
    rw [h.2 q, settled_of_undecided hread hq]
  · rintro q before env call after content rfl hdecides hafter
    rw [h.2 q, runCalls_append, runCalls,
      settled_of_undecided (readable_call (readable_runCalls hread) call) hafter,
      verdict_of_decides hdecides, Verdict.settled]

/-- At the end of every run, the repair touches open paths only, and the commit follows the
decisions. Nothing but a refusal or a missing author keeps the merge from its commit. -/
theorem merge_keeps_decisions (repo : MergeRepo β) (hread : Readable repo.index)
    (calls : List (Env × Call β)) (env : Env) :
    let s := runCalls calls repo
    (∀ q, (healMergeWorktree env s).2.worktree q ≠ s.worktree q →
      s.index.IsConflicted q ∧ (healMergeWorktree env s).2.worktree q = s.index.ours q) ∧
    (healMergeWorktree env s).2.index = s.index ∧
    (∀ env' b, (healMergeWorktree env s).1 = .ok b →
      (healMergeWorktree env' (healMergeWorktree env s).2).2 = (healMergeWorktree env s).2) ∧
    ∀ message author,
      ((finishMerge env message author s).2.commits = s.commits ∨
        ∃ c, (finishMerge env message author s).2.commits = s.commits ++ [c] ∧
          TreeFollows repo calls c) ∧
      (s.bare = false → ¬ env.Refuses → (author.isSome ∨ env.user.isSome) →
        ∃ c, (finishMerge env message author s).1 = .ok c ∧
          (finishMerge env message author s).2.commits = s.commits ++ [c]) := by
  intro s
  have hreads : Readable s.index := readable_runCalls hread
  have hhealed := healed_heal env hreads
  refine ⟨fun q => worktree_of_healed hhealed, ?_, fun env' b => heal_twice hreads, ?_⟩
  · obtain ⟨done, -, hs'⟩ := hhealed
    rw [hs']
  intro message author
  have h := finishMerge_outcome env hreads message author
  rw [Outcome] at h
  split at h
  · rename_i c s' hrun
    rw [hrun]
    exact ⟨Or.inr ⟨c, h.2.1, treeFollows_of_commits hread h.2⟩, fun _ _ _ => ⟨c, rfl, h.2.1⟩⟩
  · rename_i e s' hrun
    rw [hrun]
    obtain ⟨-, hcommits, hwhy⟩ := h
    refine ⟨hcommits.imp_right fun ⟨c, hc⟩ => ⟨c, hc.1, treeFollows_of_commits hread hc⟩, ?_⟩
    intro hbare hrefuses hauthor
    rcases hwhy with hwhy | hwhy | ⟨rfl, huser⟩
    · rw [hbare] at hwhy
      cases hwhy
    · exact absurd hwhy hrefuses
    · rw [huser] at hauthor
      simp at hauthor

/-! ### A file changed on both sides -/

def quiet : Env where
  refuses _ := none
  missingFile := "could not find the file"
  unmergedIndex := "cannot create a tree from a not fully merged index."
  user := some ("A", "a@example.org")
  commitId := "c2"

/-- The file `a` is conflicted, and its working file has conflict markers. -/
def bothChanged : MergeRepo Text where
  bare := false
  index := [⟨utf8 ['a'], 1, ['0']⟩, ⟨utf8 ['a'], 2, ['1']⟩, ⟨utf8 ['a'], 3, ['2']⟩]
  worktree := fun q => if q = utf8 ['a'] then some ['<', '='] else none
  head := some "c0"
  mergeHead := some "c1"
  commits := []

theorem readable_bothChanged : Readable bothChanged.index := by
  intro q hq
  obtain ⟨e, he, rfl, -⟩ := hq
  have hpath : ∀ e ∈ bothChanged.index, e.path = utf8 ['a'] := by simp [bothChanged]
  rw [hpath e he]
  decide

theorem merge_keeps_decisions_bothChanged :
    (healMergeWorktree quiet bothChanged).2.index = bothChanged.index ∧
    ∃ c, (finishMerge quiet "merge" none
      (runCalls [(quiet, .resolve ['a'] ['3'])] bothChanged)).1 = .ok c := by
  have hempty := merge_keeps_decisions bothChanged readable_bothChanged [] quiet
  have hrun := merge_keeps_decisions bothChanged readable_bothChanged
    [(quiet, .resolve ['a'] ['3'])] quiet
  obtain ⟨c, hc, -⟩ := (hrun.2.2.2 "merge" none).2 rfl
    (fun ⟨_, _, h⟩ => by cases h) (Or.inr rfl)
  exact ⟨hempty.2.1, c, hc⟩

/-- A second resolution of the same path writes the working file only. -/
theorem second_resolution_not_committed :
    ¬ ∀ (repo : MergeRepo Text) (before : List (Env × Call Text)) (env : Env) (file merged : Text)
      (message : String) (author : Option (String × String)) (c : Commit Text),
      Readable repo.index → repo.index.IsConflicted (utf8 file) →
      (Git.resolve env file merged (runCalls before repo)).1 = .ok () →
      (finishMerge env message author
        (runCalls (before ++ [(env, .resolve file merged)]) repo)).1 = .ok c →
      c.tree (utf8 file) = some merged := by
  intro h
  let calls : List (Env × Call Text) :=
    [(quiet, .resolve ['a'] ['3']), (quiet, .resolve ['a'] ['4'])]
  have hread : Readable (runCalls calls bothChanged).index := readable_runCalls readable_bothChanged
  have hverdict : (runCalls calls bothChanged).index.verdict (utf8 ['a']) =
      .resolved (some ['3']) := by decide
  have hfinish := finishMerge_outcome quiet hread "merge" none
  rw [Outcome] at hfinish
  split at hfinish
  · rename_i c s' hrun
    have htree := h bothChanged [(quiet, .resolve ['a'] ['3'])] quiet ['a'] ['4'] "merge" none c
      readable_bothChanged (by decide) (by decide) (congrArg Prod.fst hrun)
    rw [hfinish.2.2, hverdict] at htree
    exact absurd htree (by decide)
  · obtain ⟨-, -, hbare | ⟨op, message, hop⟩ | ⟨-, huser⟩⟩ := hfinish
    · exact absurd hbare (by decide)
    · cases hop
    · cases huser

end Voleeo.Git
