import Voleeo.Entities
import Voleeo.FileSystem
import Voleeo.Storage.Ids

/-!
# Opening a folder as a workspace

A folder with a `workspace.yaml` is adopted by linking the slot of its id to it.
The run of the command is the list of file systems that it passes through, with
its result.
-/
namespace Voleeo.SyncDir

/-- What the operating system lets through: each step may fail. -/
structure Outcomes where
  read : Bool
  readLink : Bool
  removeLink : Bool
  /-- Paths that `remove_dir_all` cannot remove. -/
  kept : List Path
  linkDir : Bool
  /-- The text of a failure. -/
  error : String

structure Run (α : Type) where
  states : List FileSystem
  result : Except VoleeoError α

def workspaceYaml : RawPath := ⟨false, ["workspace.yaml".toList]⟩

/-- `app_data_dir.join("workspaces").join(&id)`. -/
def internalDir (appDataDir : RawPath) (id : String) : RawPath :=
  (appDataDir.join ⟨false, ["workspaces".toList]⟩).join (.ofString id)

/-- Link the slot to the folder: nothing may be there, in a directory that exists. -/
def linkDir (outcomes : Outcomes) (folder internal : RawPath) (ws : Workspace) (fs : FileSystem) :
    Run Workspace :=
  match fs.locate internal with
  | some place =>
    if outcomes.linkDir ∧ fs place = none then
      ⟨[fs, fs.set place (some (.link folder))], .ok ws⟩
    else ⟨[fs], .error (.storage s!"create link: {outcomes.error}")⟩
  | none => ⟨[fs], .error (.storage s!"create link: {outcomes.error}")⟩

/-- What `register_workspace_folder` does once `workspace.yaml` is parsed. -/
def claimSlot (outcomes : Outcomes) (folder internal : RawPath) (ws : Workspace)
    (fs : FileSystem) : Run Workspace :=
  match fs.locate internal with
  | none => linkDir outcomes folder internal ws fs
  | some place =>
    match fs place with
    | some (.link target) =>
      if outcomes.readLink = false then
        ⟨[fs], .error (.storage s!"read symlink: {outcomes.error}")⟩
      else if target = folder then ⟨[fs], .ok ws⟩
      else if outcomes.removeLink = false then
        ⟨[fs], .error (.storage s!"remove symlink: {outcomes.error}")⟩
      else
        let run := linkDir outcomes folder internal ws (fs.set place none)
        { run with states := fs :: run.states }
    | some .dir =>
      let removed := fs.removeDirAll outcomes.kept place
      if removed.2 then
        let run := linkDir outcomes folder internal ws removed.1
        { run with states := fs :: run.states }
      else ⟨[fs, removed.1], .error (.storage s!"remove dir: {outcomes.error}")⟩
    | some (.file _) => ⟨[fs], .error (.storage s!"remove dir: {outcomes.error}")⟩
    | none => linkDir outcomes folder internal ws fs

/-- `heal` recovers a folder in the middle of a merge; `parse` reads YAML. -/
def registerWorkspaceFolder (outcomes : Outcomes) (heal : FileSystem → FileSystem)
    (parse : String → Option Workspace) (appDataDir folder : RawPath) (fs : FileSystem) :
    Run Workspace :=
  if fs.pathExists (folder.join workspaceYaml) = false then
    ⟨[fs], .error (.invalidConfig "This folder is not a Voleeo workspace (no workspace.yaml)")⟩
  else
    let healed := heal fs
    match if outcomes.read then healed.readFile (folder.join workspaceYaml) else none with
    | none => ⟨[fs, healed], .error (.storage s!"read workspace.yaml: {outcomes.error}")⟩
    | some content =>
      match parse content with
      | none =>
        ⟨[fs, healed], .error (.invalidConfig
          "workspace.yaml exists but could not be parsed as a Voleeo workspace.")⟩
      | some ws =>
        let run := claimSlot outcomes folder (internalDir appDataDir ws.id) ws healed
        { run with states := fs :: run.states }

end Voleeo.SyncDir

/-!
## Opening a folder and its slot

The command never checks the id that it reads. With a checked id it changes
nothing but the slot; what it removes there is lost.
-/
namespace Voleeo.SyncDir
open FileSystem Storage

/-- The run changes the slot of a checked id only and keeps the files in it, or it fails and
changes nothing. -/
def OwnSlotOnly (fs : FileSystem) (slot : Option Path) (id : String) (run : Run Workspace) : Prop :=
  (validateId id = .ok () ∧
    ∀ fs' ∈ run.states, SameOutside slot fs fs' ∧ KeepsFiles slot fs fs') ∨
  (∃ e, run.result = .error e) ∧ ∀ fs' ∈ run.states, fs' = fs

/-- No directory with files is removed from the slot: if one is there, its files do not go. -/
def SlotFree (outcomes : Outcomes) (fs healed : FileSystem) (slot : Option Path) : Prop :=
  ∀ place ∈ slot, healed place = some .dir → ∀ q content, place <+: q →
    fs q = some (.file content) → healed.stays outcomes.kept place q = true

/-- The first change already fails. -/
def Blocked (outcomes : Outcomes) (folder : RawPath) (fs : FileSystem) (slot : Option Path) :
    Prop :=
  ∀ place ∈ slot,
    match fs place with
    | some (.link target) =>
      outcomes.readLink = false ∨ target ≠ folder ∧ outcomes.removeLink = false
    | some .dir => ∀ q, place <+: q → (fs q).isSome → fs.stays outcomes.kept place q = true
    | some (.file _) => True
    | none => outcomes.linkDir = false

variable {outcomes : Outcomes} {folder internal : RawPath} {ws : Workspace} {fs : FileSystem}

/-- One step into the slot: the link that is set there, or nothing. -/
theorem states_linkDir {healed : FileSystem} (hlocate : ∀ q, fs q = healed q ∨ fs q = none)
    {fs' : FileSystem} (h : fs' ∈ (linkDir outcomes folder internal ws fs).states) :
    fs' = fs ∨ ∃ place, healed.locate internal = some place ∧
      fs' = fs.set place (some (.link folder)) := by
  rw [linkDir] at h
  split at h
  · rename_i place hplace
    split_ifs at h
    · rcases List.mem_pair.mp h with rfl | rfl
      · exact .inl rfl
      · exact .inr ⟨place, locate_of_removed hlocate hplace, rfl⟩
    · exact .inl (List.mem_singleton.mp h)
  · exact .inl (List.mem_singleton.mp h)

/-- What a run may do to the slot. -/
inductive SlotChange (kept : List Path) (fs : FileSystem) (place : Path) : FileSystem → Prop
  | entry (node : Option Node) (hdir : fs place ≠ some .dir)
      (hfile : ∀ content, fs place ≠ some (.file content)) :
      SlotChange kept fs place (fs.set place node)
  | removed (hdir : fs place = some .dir) : SlotChange kept fs place (fs.removeDirAll kept place).1
  | replaced (hdir : fs place = some .dir) (hgone : fs.stays kept place place = false)
      (node : Option Node) :
      SlotChange kept fs place ((fs.removeDirAll kept place).1.set place node)

theorem states_claimSlot {fs' : FileSystem}
    (h : fs' ∈ (claimSlot outcomes folder internal ws fs).states) :
    fs' = fs ∨ ∃ place ∈ fs.locate internal, SlotChange outcomes.kept fs place fs' := by
  cases hlocate : fs.locate internal with
  | none =>
    rw [claimSlot, hlocate] at h
    rcases states_linkDir (fun _ => .inl rfl) h with heq | ⟨place, hplace, -⟩
    · exact .inl heq
    · rw [hlocate] at hplace
      cases hplace
  | some place =>
    have hself : ∀ {p}, fs.locate internal = some p → p = place := fun hp => by
      rw [hlocate] at hp
      exact (Option.some.inj hp).symm
    rw [claimSlot, hlocate] at h
    simp only at h
    cases hnode : fs place with
    | none =>
      rw [hnode] at h
      rcases states_linkDir (fun _ => .inl rfl) h with heq | ⟨p, hp, rfl⟩
      · exact .inl heq
      · rw [hself hp]
        exact .inr ⟨place, rfl, .entry _ (by simp [hnode]) (by simp [hnode])⟩
    | some node =>
      rw [hnode] at h
      cases node with
      | file content => exact .inl (List.mem_singleton.mp h)
      | link target =>
        simp only at h
        have hentry : ∀ node, SlotChange outcomes.kept fs place (fs.set place node) :=
          fun node => .entry node (by simp [hnode]) (by simp [hnode])
        split_ifs at h
        · exact .inl (List.mem_singleton.mp h)
        · exact .inl (List.mem_singleton.mp h)
        · exact .inl (List.mem_singleton.mp h)
        · rcases List.mem_cons.mp h with rfl | h
          · exact .inl rfl
          · rcases states_linkDir (set_none_removes fs place) h with rfl | ⟨p, hp, rfl⟩
            · exact .inr ⟨place, rfl, hentry none⟩
            · rw [hself hp]
              refine .inr ⟨place, rfl, ?_⟩
              have hset : (fs.set place none).set place (some (.link folder)) =
                  fs.set place (some (.link folder)) := by
                funext q
                simp only [FileSystem.set]
                split_ifs <;> rfl
              rw [hset]
              exact hentry _
      | dir =>
        simp only at h
        split_ifs at h with hall
        · rcases List.mem_cons.mp h with rfl | h
          · exact .inl rfl
          · have hgone : fs.stays outcomes.kept place place = false := by
              simpa [FileSystem.removeDirAll] using hall
            rcases states_linkDir (removeDirAll_removes fs _ place) h with rfl | ⟨p, hp, rfl⟩
            · exact .inr ⟨place, rfl, .removed hnode⟩
            · rw [hself hp]
              exact .inr ⟨place, rfl, .replaced hnode hgone _⟩
        · rcases List.mem_pair.mp h with rfl | rfl
          · exact .inl rfl
          · exact .inr ⟨place, rfl, .removed hnode⟩

/-! ## Every change that a run can make is made -/

theorem self_mem_linkDir : fs ∈ (linkDir outcomes folder internal ws fs).states := by
  rw [linkDir]
  split
  · split_ifs <;> exact List.mem_cons_self
  · exact List.mem_cons_self

theorem self_mem_claimSlot : fs ∈ (claimSlot outcomes folder internal ws fs).states := by
  rw [claimSlot]
  split
  · exact self_mem_linkDir
  · split
    · split_ifs <;> exact List.mem_cons_self
    · simp only
      split_ifs <;> exact List.mem_cons_self
    · exact List.mem_cons_self
    · exact self_mem_linkDir

theorem removed_mem_claimSlot {place : Path} (hplace : fs.locate internal = some place)
    (hdir : fs place = some .dir) :
    (fs.removeDirAll outcomes.kept place).1 ∈
      (claimSlot outcomes folder internal ws fs).states := by
  rw [claimSlot, hplace]
  simp only [hdir]
  split_ifs
  · exact List.mem_cons_of_mem _ self_mem_linkDir
  · exact List.mem_cons_of_mem _ List.mem_cons_self

/-! ## With a checked id -/

variable {healed : FileSystem}

theorem SlotChange.sameOutside {kept : List Path} {place : Path} {fs fs' : FileSystem}
    (h : SlotChange kept fs place fs') : SameOutside (some place) fs fs' := by
  intro q hq
  have hout : ¬ place <+: q := hq place rfl
  have hne : q ≠ place := by
    rintro rfl
    exact hout (List.prefix_refl _)
  cases h with
  | entry node => exact set_of_ne hne node
  | removed => exact removeDirAll_outside hout kept
  | replaced _ _ node => rw [set_of_ne hne node, removeDirAll_outside hout kept]

theorem SlotChange.keepsFiles {place : Path} {fs' : FileSystem}
    (h : SlotChange outcomes.kept healed place fs') (hkeeps : KeepsFiles (some place) fs healed)
    (hfree : SlotFree outcomes fs healed (some place)) : KeepsFiles (some place) fs fs' := by
  rintro p ⟨⟩ q content hq hfile
  have hhealed := hkeeps place rfl q content hq hfile
  cases h with
  | entry node hdir hnofile =>
    have hne : q ≠ place := by
      rintro rfl
      exact hnofile content hhealed
    rw [set_of_ne hne, hhealed]
  | removed hdir =>
    have hstays := hfree place rfl hdir q content hq hfile
    rw [FileSystem.removeDirAll]
    simp only
    rw [if_neg (by simp [hstays]), hhealed]
  | replaced hdir hgone node =>
    have hstays := stays_self (hfree place rfl hdir q content hq hfile)
    rw [hgone] at hstays
    cases hstays

theorem slot_iff :
    (∀ fs' ∈ fs :: (claimSlot outcomes folder internal ws healed).states,
        SameOutside (healed.locate internal) fs fs' ∧ KeepsFiles (healed.locate internal) fs fs') ↔
      SameOutside (healed.locate internal) fs healed ∧
        KeepsFiles (healed.locate internal) fs healed ∧
        SlotFree outcomes fs healed (healed.locate internal) := by
  constructor
  · intro h
    obtain ⟨hsame, hkeeps⟩ := h healed (List.mem_cons_of_mem _ self_mem_claimSlot)
    refine ⟨hsame, hkeeps, fun place hplace hdir q content hq hfile => ?_⟩
    have hremoved := (h _ (List.mem_cons_of_mem _
      (removed_mem_claimSlot (Option.mem_def.mp hplace) hdir))).2 place hplace q content hq hfile
    by_contra hgone
    rw [Bool.not_eq_true] at hgone
    rw [FileSystem.removeDirAll] at hremoved
    simp only [if_pos (And.intro hq hgone)] at hremoved
    cases hremoved
  · rintro ⟨hsame, hkeeps, hfree⟩ fs' hfs'
    rcases List.mem_cons.mp hfs' with rfl | hfs'
    · exact ⟨fun _ _ => rfl, fun _ _ _ _ _ hfile => hfile⟩
    · rcases states_claimSlot hfs' with rfl | ⟨place, hplace, hchange⟩
      · exact ⟨hsame, hkeeps⟩
      · rw [Option.mem_def.mp hplace] at hsame hkeeps hfree ⊢
        exact ⟨fun q hq => (hchange.sameOutside q hq).trans (hsame q hq),
          hchange.keepsFiles hkeeps hfree⟩

/-! ## Without one -/

theorem blocked_of_unchanged {e : VoleeoError}
    (herror : (claimSlot outcomes folder internal ws fs).result = .error e)
    (hsame : ∀ fs' ∈ (claimSlot outcomes folder internal ws fs).states, fs' = fs) :
    Blocked outcomes folder fs (fs.locate internal) := by
  intro place hplace
  rw [Option.mem_def] at hplace
  rw [claimSlot, hplace] at herror hsame
  cases hnode : fs place with
  | none =>
    simp only [hnode, linkDir, hplace] at herror
    by_contra hok
    rw [if_pos (by simpa using hok)] at herror
    cases herror
  | some node =>
    simp only [hnode] at herror hsame ⊢
    cases node with
    | file content => trivial
    | dir =>
      intro q hq hsome
      have hremoved : (fs.removeDirAll outcomes.kept place).1 = fs := by
        have hmem := @removed_mem_claimSlot outcomes folder internal ws fs place hplace hnode
        rw [claimSlot, hplace] at hmem
        simp only [hnode] at hmem
        exact hsame _ hmem
      by_contra hgone
      rw [Bool.not_eq_true] at hgone
      have hq' := congrFun hremoved q
      rw [FileSystem.removeDirAll] at hq'
      simp only [if_pos (And.intro hq hgone)] at hq'
      rw [← hq'] at hsome
      cases hsome
    | link target =>
      simp only at herror hsame ⊢
      split_ifs at herror hsame with hread htarget hremove
      · exact .inl hread
      · exact .inr ⟨htarget, hremove⟩
      · have hset := hsame _ (List.mem_cons_of_mem _ self_mem_linkDir)
        have hat := congrFun hset place
        rw [set_self, hnode] at hat
        cases hat

theorem unchanged_of_blocked (h : Blocked outcomes folder fs (fs.locate internal)) :
    (∃ e, (claimSlot outcomes folder internal ws fs).result = .error e) ∧
      ∀ fs' ∈ (claimSlot outcomes folder internal ws fs).states, fs' = fs := by
  cases hplace : fs.locate internal with
  | none => simp [claimSlot, linkDir, hplace]
  | some place =>
    have hblocked := h place hplace
    simp only [claimSlot, hplace]
    cases hnode : fs place with
    | none =>
      simp only [hnode] at hblocked
      simp [linkDir, hplace, hblocked]
    | some node =>
      simp only [hnode] at hblocked
      cases node with
      | file content => simp
      | link target =>
        rcases hblocked with hread | ⟨htarget, hremove⟩
        · simp [hread]
        · by_cases hread : outcomes.readLink = false
          · simp [hread]
          · simp [hread, htarget, hremove]
      | dir =>
        have hself := hblocked place (List.prefix_refl _) (by rw [hnode]; rfl)
        have hremoved : (fs.removeDirAll outcomes.kept place).1 = fs := by
          funext q
          rw [FileSystem.removeDirAll]
          simp only
          split_ifs with hboth
          · by_contra hne
            have hsome : (fs q).isSome := by
              rw [Option.isSome_iff_ne_none]
              exact fun hnone => hne hnone.symm
            rw [hblocked q hboth.1 hsome] at hboth
            cases hboth.2
          · rfl
        have hfails : (fs.removeDirAll outcomes.kept place).2 = false := by
          simp [FileSystem.removeDirAll, hself]
        simp [hfails, hremoved]

/-! ## The command -/

/-- The folder holds a `workspace.yaml` that is read and parses, after a merge is recovered. -/
structure Opens (outcomes : Outcomes) (heal : FileSystem → FileSystem)
    (parse : String → Option Workspace) (folder : RawPath) (fs : FileSystem) (ws : Workspace) :
    Prop where
  found : fs.pathExists (folder.join workspaceYaml) = true
  read : outcomes.read = true
  parsed : ((heal fs).readFile (folder.join workspaceYaml)).bind parse = some ws

variable {heal : FileSystem → FileSystem} {parse : String → Option Workspace}
  {appDataDir : RawPath}

theorem register_eq (h : Opens outcomes heal parse folder fs ws) :
    registerWorkspaceFolder outcomes heal parse appDataDir folder fs =
      { claimSlot outcomes folder (internalDir appDataDir ws.id) ws (heal fs) with
        states := fs ::
          (claimSlot outcomes folder (internalDir appDataDir ws.id) ws (heal fs)).states } := by
  obtain ⟨content, hread, hparse⟩ := Option.bind_eq_some_iff.mp h.parsed
  rw [registerWorkspaceFolder, if_neg (by simp [h.found])]
  simp only [if_pos h.read, hread, hparse]

/-- The command stays in its slot exactly if the id is checked, the recovery of a merge changes no
more than the slot, and no directory with files goes; or if nothing can be changed at all. -/
theorem register_iff (h : Opens outcomes heal parse folder fs ws) :
    OwnSlotOnly fs ((heal fs).locate (internalDir appDataDir ws.id)) ws.id
        (registerWorkspaceFolder outcomes heal parse appDataDir folder fs) ↔
      (validateId ws.id = .ok () ∧
        SameOutside ((heal fs).locate (internalDir appDataDir ws.id)) fs (heal fs) ∧
        KeepsFiles ((heal fs).locate (internalDir appDataDir ws.id)) fs (heal fs) ∧
        SlotFree outcomes fs (heal fs) ((heal fs).locate (internalDir appDataDir ws.id))) ∨
      heal fs = fs ∧
        Blocked outcomes folder (heal fs) ((heal fs).locate (internalDir appDataDir ws.id)) := by
  rw [OwnSlotOnly, register_eq h, slot_iff]
  refine or_congr Iff.rfl ⟨?_, ?_⟩
  · rintro ⟨⟨e, herror⟩, hsame⟩
    have hhealed := hsame _ (List.mem_cons_of_mem _ self_mem_claimSlot)
    refine ⟨hhealed, blocked_of_unchanged herror fun fs' hfs' => ?_⟩
    rw [hsame fs' (List.mem_cons_of_mem _ hfs'), hhealed]
  · rintro ⟨hhealed, hblocked⟩
    obtain ⟨herror, hsame⟩ := unchanged_of_blocked hblocked
    refine ⟨herror, fun fs' hfs' => ?_⟩
    rcases List.mem_cons.mp hfs' with rfl | hfs'
    · rfl
    · rw [hsame fs' hfs', hhealed]

/-! A cloned folder whose `workspace.yaml` names a directory of the user as its id. -/

def allGoesWell : Outcomes := ⟨true, true, true, [], true, ""⟩

def clonedWorkspace (id : String) : Workspace where
  id := id
  name := ""
  model := "workspace"
  encrypted := false
  syncDir := none
  keyCheck := none
  headers := []
  auth := .none
  dnsOverrides := []
  createdAt := ""
  updatedAt := ""

/-- The application's directory, a clone, and a directory with a file. -/
def threeFolders : FileSystem := fun p =>
  if p = ["app".toList] ∨ p = ["app".toList, "workspaces".toList] ∨ p = ["clone".toList] ∨
    p = ["docs".toList] then some .dir
  else if p = ["docs".toList, "thesis".toList] then some (.file "all of it")
  else if p = ["clone".toList, "workspace.yaml".toList] then some (.file "id: ...")
  else none

theorem opens_threeFolders (id : String) :
    Opens allGoesWell (fun fs => fs) (fun _ => some (clonedWorkspace id))
      ⟨true, ["clone".toList]⟩ threeFolders (clonedWorkspace id) := by
  have hyaml : canonicalize threeFolders (RawPath.join ⟨true, ["clone".toList]⟩ workspaceYaml) =
      some ["clone".toList, "workspace.yaml".toList] := by
    have hfound : threeFolders ["clone".toList, "workspace.yaml".toList] =
        some (.file "id: ...") := by decide
    change walk threeFolders maxLinks [] ["clone".toList, "workspace.yaml".toList] = _
    rw [walk_dir (by decide) (by decide), walk_file (by decide) hfound, if_pos rfl]
    rfl
  have hfile : stat threeFolders (RawPath.join ⟨true, ["clone".toList]⟩ workspaceYaml) =
      some (.file "id: ...") := by
    rw [stat, hyaml]
    decide
  exact ⟨by rw [pathExists, hfile]; rfl, rfl, by rw [readFile, hfile]; rfl⟩

theorem register_iff_plain_id :
    OwnSlotOnly threeFolders (threeFolders.locate (internalDir ⟨true, ["app".toList]⟩ "w1")) "w1"
        (registerWorkspaceFolder allGoesWell (fun fs => fs) (fun _ => some (clonedWorkspace "w1"))
          ⟨true, ["app".toList]⟩ ⟨true, ["clone".toList]⟩ threeFolders) ↔
      (validateId "w1" = .ok () ∧
        SameOutside (threeFolders.locate (internalDir ⟨true, ["app".toList]⟩ "w1")) threeFolders
          threeFolders ∧
        KeepsFiles (threeFolders.locate (internalDir ⟨true, ["app".toList]⟩ "w1")) threeFolders
          threeFolders ∧
        SlotFree allGoesWell threeFolders threeFolders
          (threeFolders.locate (internalDir ⟨true, ["app".toList]⟩ "w1"))) ∨
      threeFolders = threeFolders ∧
        Blocked allGoesWell ⟨true, ["clone".toList]⟩ threeFolders
          (threeFolders.locate (internalDir ⟨true, ["app".toList]⟩ "w1")) :=
  register_iff (opens_threeFolders "w1")

theorem slot_threeFolders :
    threeFolders.locate (internalDir ⟨true, ["app".toList]⟩ "/docs") = some ["docs".toList] := by
  have hraw : internalDir ⟨true, ["app".toList]⟩ "/docs" = ⟨true, ["docs".toList]⟩ := by decide
  rw [hraw]
  simp only [locate, List.getLast?_singleton, List.dropLast_singleton, walk_nil]
  decide

theorem absolute_id_removes_directory :
    ¬ OwnSlotOnly threeFolders
      (threeFolders.locate (internalDir ⟨true, ["app".toList]⟩ "/docs")) "/docs"
      (registerWorkspaceFolder allGoesWell (fun fs => fs) (fun _ => some (clonedWorkspace "/docs"))
        ⟨true, ["app".toList]⟩ ⟨true, ["clone".toList]⟩ threeFolders) := by
  rw [register_eq (opens_threeFolders "/docs")]
  rintro (⟨hvalid, -⟩ | ⟨⟨e, herror⟩, hsame⟩)
  · revert hvalid
    decide
  · have hblocked := blocked_of_unchanged herror
      fun fs' hfs' => hsame fs' (List.mem_cons_of_mem _ hfs')
    have hthesis := hblocked _ slot_threeFolders ["docs".toList, "thesis".toList]
      (by decide) (by decide)
    revert hthesis
    decide

end Voleeo.SyncDir
