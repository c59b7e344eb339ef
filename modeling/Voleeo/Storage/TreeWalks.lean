import Voleeo.Storage.Deletions
import Voleeo.Storage.RequestRuns
import Voleeo.Tree.FolderPaths

/-!
# Walks through a tree that is none

Parent links on disk may form a cycle, as after a merge. The recursions of the store do
not remember where they have been; one that starts on a cycle has no depth at which it
ends, and every other one has.
-/
namespace Voleeo.Storage
open Fallible (Outcome)

/-- `duplicateFolder` with the depth of its recursion. -/
def duplicateFolderWithin (env : Env) (workspaceId : String) (fuel : ℕ) (id : String) :
    Store ApiFolder := do
  let src ← getFolder env workspaceId id
  let order ← orderAfter env workspaceId src.folderId src.order
  let copy ← copyFolder env src src.folderId s!"Copy of {src.name}" order
  copyFolderChildren env workspaceId fuel id copy.id
  return copy

/-- Some depth is enough for a recursion. -/
def Stops {α : Type} (x : ℕ → Store α) (w : World) : Prop :=
  ∃ fuel, (x fuel w).1 ≠ .error .outOfFuel

/-- The ids drawn from one world to another are accepted. -/
def DrawsAccepted (env : Env) (w w' : World) : Prop :=
  ∀ t, w.tick ≤ t → t < w'.tick → validateId (env.newId t) = .ok ()

/-- Every depth is too small, as long as no id that is drawn is refused. -/
def NeverStops {α : Type} (env : Env) (x : ℕ → Store α) (w : World) : Prop :=
  ∀ fuel, DrawsAccepted env w (x fuel w).2 → (x fuel w).1 = .error .outOfFuel

/-- The file system does what it is asked, and the workspace has a proper id. -/
def Quiet (env : Env) (ws : String) : Prop :=
  (∀ t, env.fault t = none) ∧ validateId ws = .ok ()

/-- The files of the workspace have proper ids. -/
structure ProperIds (ws : String) (w : World) : Prop where
  folders : ∀ f ∈ w.folders.toList, f.workspaceId = ws → validateId f.id = .ok ()
  requests : ∀ r ∈ w.requests.toList, r.workspaceId = ws → validateId r.id = .ok ()

variable {env : Env} {w₀ w w' : World} {ws id : String} {f : ApiFolder} {r : HttpRequest}

/-! ## How an operation fails -/

/-- An error that is no cut, and comes up only when something is not calm. -/
def Fault (calm : World → Prop) (e : Failure) (w : World) : Prop := e ≠ .outOfFuel ∧ ¬ calm w

/-- A recursion that is calm fails by being cut, and one that is low is not cut. -/
def Ended (calm : World → Prop) (low : Prop) (e : Failure) (w : World) : Prop :=
  (calm w → e = .outOfFuel) ∧ (low → e ≠ .outOfFuel)

variable {calm : World → Prop}

theorem Fault.ended {e : Failure} (h : Fault calm e w) (low : Prop) : Ended calm low e w :=
  ⟨fun hcalm => absurd hcalm h.2, fun _ => h.1⟩

theorem Ended.of_lower {low low' : Prop} {e : Failure} (h : Ended calm low e w)
    (hlow : low' → low) : Ended calm low' e w := ⟨h.1, fun hl => h.2 (hlow hl)⟩

theorem Reads.or_fault {α : Type} {x : Store α} {Q : α → Prop} (hx : Reads x w Q)
    (hok : ∀ e w', x w = (.error e, w') → ¬ calm w') :
    Outcome x w (fun a w' => SameFiles w w' ∧ Q a) (Fault calm) := by
  rw [Reads] at hx
  rw [Outcome] at hx ⊢
  split
  · rename_i hrun
    rw [hrun] at hx
    exact hx
  · rename_i e w' hrun
    rw [hrun] at hx
    exact ⟨hx.1, hok e w' hrun⟩

section Primitives
variable (hquiet : ∀ w, calm w → Quiet env ws)
include hquiet

theorem fileSystem_or_fault :
    Outcome (fileSystem env) w (fun _ w' => SameFiles w w') (Fault calm) := by
  refine (Reads.or_fault .fileSystem fun e w' hrun hcalm => ?_).mono (fun _ _ h => h.1)
    fun _ _ he => he
  rw [fileSystem_run, (hquiet w' hcalm).1] at hrun
  cases hrun

theorem listFolders_or_fault : Outcome (listFolders env ws) w
    (fun folders w' => SameFiles w w' ∧
      ∀ f, f ∈ folders ↔ f ∈ w.folders.toList ∧ f.workspaceId = ws) (Fault calm) := by
  refine listFolders_reads.or_fault fun e w' hrun hcalm => ?_
  obtain ⟨hfault, hws⟩ := hquiet w' hcalm
  simp only [listFolders, workspaceDir, hws, Fallible.bind_apply, lift_run, fileSystem_run, hfault,
    Fallible.get_apply, ask_run, Fallible.pure_apply] at hrun
  cases hrun

theorem listRequests_or_fault : Outcome (listRequests env ws) w
    (fun requests w' => SameFiles w w' ∧
      ∀ r, r ∈ requests ↔ r ∈ w.requests.toList ∧ r.workspaceId = ws) (Fault calm) := by
  refine listRequests_reads.or_fault fun e w' hrun hcalm => ?_
  obtain ⟨hfault, hws⟩ := hquiet w' hcalm
  simp only [listRequests, workspaceDir, hws, Fallible.bind_apply, lift_run, fileSystem_run, hfault,
    Fallible.get_apply, ask_run, Fallible.pure_apply] at hrun
  cases hrun

omit hquiet in
theorem validate_or_fault {x : String} (hid : calm w → validateId x = .ok ()) :
    Outcome (lift (validateId x)) w (fun _ w' => SameFiles w w') (Fault calm) := by
  refine (Reads.or_fault (.lift _) fun e w' hrun hcalm => ?_).mono (fun _ _ h => h.1)
    fun _ _ he => he
  rw [lift_run] at hrun
  cases hvalid : validateId x with
  | ok u =>
    rw [hvalid] at hrun
    cases hrun
  | error e' =>
    rw [hvalid] at hrun
    cases hrun
    rw [hid hcalm] at hvalid
    cases hvalid

theorem deleteRequest_or_fault (hid : ∀ w, calm w → validateId id = .ok ()) :
    Outcome (deleteRequest env ws id) w
      (fun _ w' => Shrinks w w' ∧ w'.folders = w.folders) (Fault calm) := by
  refine .bind (validate_or_fault fun hcalm => (hquiet w hcalm).2) fun _ w₁ h₁ => ?_
  refine .bind (validate_or_fault (hid w₁)) fun _ w₂ h₂ => ?_
  have h₁₂ := h₁.trans h₂
  refine .bind (.get (Q := fun a w' => a = w₂ ∧ w' = w₂) ⟨rfl, rfl⟩) ?_
  rintro _ _ ⟨rfl, rfl⟩
  split_ifs with hfind
  · refine .bind (fileSystem_or_fault hquiet) fun _ w₃ h₃ => .modify ⟨?_, (h₁₂.trans h₃).folders⟩
    exact (Shrinks.of_same (h₁₂.trans h₃)).trans
      ⟨fun f hf => hf, fun r hr => (Records.mem_remove.mp hr).1⟩
  · exact .pure ⟨.of_same h₁₂, h₁₂.folders⟩

theorem deleteFolder_or_fault (hid : ∀ w, calm w → validateId id = .ok ()) :
    Outcome (deleteFolder env ws id) w
      (fun _ w' => Shrinks w w' ∧
        ∀ f ∈ w.folders.toList, folderKey f ≠ (ws, id) → f ∈ w'.folders.toList) (Fault calm) := by
  refine .bind (validate_or_fault fun hcalm => (hquiet w hcalm).2) fun _ w₁ h₁ => ?_
  refine .bind (validate_or_fault (hid w₁)) fun _ w₂ h₂ => ?_
  have h₁₂ := h₁.trans h₂
  refine .bind (.get (Q := fun a w' => a = w₂ ∧ w' = w₂) ⟨rfl, rfl⟩) ?_
  rintro _ _ ⟨rfl, rfl⟩
  split_ifs with hfind
  · refine .bind (fileSystem_or_fault hquiet) fun _ w₃ h₃ => .modify ⟨?_, fun f hf hkey => ?_⟩
    · exact (Shrinks.of_same (h₁₂.trans h₃)).trans
        ⟨fun f hf => (Records.mem_remove.mp hf).1, fun r hr => hr⟩
    · exact Records.mem_remove.mpr ⟨(h₁₂.trans h₃).folders ▸ hf, hkey⟩
  · exact .pure ⟨.of_same h₁₂, fun f hf _ => h₁₂.folders ▸ hf⟩

end Primitives

/-! ## The depth below a folder -/

/-- The recursion is in a folder below one on no cycle, and has depth left for all folders
below. -/
def Low (w₀ : World) (ws : String) (fuel : ℕ) (id : String) : Prop :=
  ∃ top d, ¬ OnCycle (w₀.parentOf ws) top ∧ Under (w₀.parentOf ws) top id ∧
    Depth (Function.update (w₀.parentOf ws) top (some none)) (some id) d ∧
    w₀.folders.toList.length + 1 < d + fuel

theorem not_low_zero : ¬ Low w₀ ws 0 id := by
  rintro ⟨top, d, -, -, hdepth, hlt⟩
  have hle := @Depth.le_length _ _ _ _ (top :: w₀.folders.toList.map (·.id)) hdepth fun k hk => by
    by_cases hk' : k = top
    · exact hk' ▸ List.mem_cons_self
    · rw [Function.update_of_ne hk'] at hk
      obtain ⟨parent, hparent⟩ := Option.isSome_iff_exists.mp hk
      obtain ⟨f, hf, -, rfl, -⟩ := parentOf_eq_some_iff.mp hparent
      exact List.mem_cons_of_mem _ (List.mem_map_of_mem hf)
  rw [List.length_cons, List.length_map] at hle
  omega

theorem Low.child {fuel : ℕ} {c : String} (h : Low w₀ ws (fuel + 1) id)
    (hc : w₀.parentOf ws c = some (some id)) : Low w₀ ws fuel c := by
  obtain ⟨top, d, hno, hunder, hdepth, hlt⟩ := h
  have hne := hunder.ne_of_no_cycle hno hc
  exact ⟨top, d + 1, hno, .link hc hunder, .link (by rwa [Function.update_of_ne hne]) hdepth,
    by omega⟩

theorem low_start (h : ¬ OnCycle (w₀.parentOf ws) id) :
    Low w₀ ws (w₀.folders.toList.length + 2) id :=
  ⟨id, 1, h, .self, .link (Function.update_self ..) .root, by omega⟩

/-! ## Reading -/

theorem mapM_outcome {α β : Type} {g : α → Store β} {xs : List α} {I : World → Prop}
    {D : α → Prop} {E : Failure → World → Prop} (hI : I w)
    (h : ∀ x ∈ xs, ∀ w, I w → Outcome (g x) w (fun _ w' => I w' ∧ D x) E) :
    Outcome (xs.mapM g) w (fun _ w' => I w' ∧ ∀ x ∈ xs, D x) E := by
  induction xs generalizing w with
  | nil => exact .pure ⟨hI, by simp⟩
  | cons x xs ih =>
    rw [List.mapM_cons]
    refine .bind (h x List.mem_cons_self w hI) fun _ w₁ ⟨hI₁, hx⟩ => ?_
    refine .bind (ih hI₁ fun y hy => h y (List.mem_cons_of_mem _ hy)) fun _ w₂ ⟨hI₂, hxs⟩ => ?_
    exact .pure ⟨hI₂, List.forall_mem_cons.mpr ⟨hx, hxs⟩⟩

/-- A folder on a cycle has a child there. -/
theorem exists_file_on_cycle (h : OnCycle (w₀.parentOf ws) id) :
    ∃ f ∈ w₀.folders.toList, f.workspaceId = ws ∧ f.folderId = some id ∧
      OnCycle (w₀.parentOf ws) f.id := by
  obtain ⟨c, hc, hcycle⟩ := h.exists_child
  obtain ⟨f, hf, hws, rfl, hplace⟩ := parentOf_eq_some_iff.mp hc
  exact ⟨f, hf, hws, hplace, hcycle⟩

theorem requestIdsBelow_ends {fuel : ℕ} (hquiet : ∀ w, calm w → Quiet env ws)
    (hsame : SameFiles w₀ w) : Outcome (requestIdsBelow env ws fuel id) w
      (fun _ w' => SameFiles w₀ w' ∧ ¬ OnCycle (w₀.parentOf ws) id)
      (Ended calm (Low w₀ ws fuel id)) := by
  induction fuel generalizing w id with
  | zero => exact .throw ⟨fun _ => rfl, fun hlow => absurd hlow not_low_zero⟩
  | succ fuel ih =>
    rw [requestIdsBelow]
    refine .bind ((listRequests_or_fault hquiet).mono (fun _ _ h => h) fun _ _ he => he.ended _)
      fun requests w₁ hend => ?_
    obtain ⟨h₁, _⟩ := hend
    refine .bind ((listFolders_or_fault hquiet).mono (fun _ _ h => h) fun _ _ he => he.ended _)
      fun folders w₂ hend => ?_
    obtain ⟨h₂, hfolders⟩ := hend
    have hsame₂ := hsame.trans (h₁.trans h₂)
    have hmem : ∀ f, f ∈ folders.filter (fun f => f.folderId = some id) ↔
        f ∈ w₀.folders.toList ∧ f.workspaceId = ws ∧ f.folderId = some id := fun f => by
      rw [List.mem_filter, decide_eq_true_eq, hfolders, (hsame.trans h₁).folders, and_assoc]
    refine .bind (mapM_outcome (I := fun w' => SameFiles w₀ w')
      (D := fun f => ¬ OnCycle (w₀.parentOf ws) f.id) hsame₂ fun f hf w' hsame' => ?_)
      fun _ w₃ h₃ => .pure ⟨h₃.1, fun hcycle => ?_⟩
    · obtain ⟨hf, rfl, hplace⟩ := (hmem f).mp hf
      have hlink := parentOf_of_mem hf
      rw [hplace] at hlink
      exact (ih hsame').mono (fun _ _ h => h) fun _ _ he => he.of_lower fun hlow => hlow.child hlink
    · obtain ⟨f, hf, hws, hplace, hf'⟩ := exists_file_on_cycle hcycle
      exact h₃.2 f ((hmem f).mpr ⟨hf, hws, hplace⟩) hf'

/-! ## Deleting -/

/-- The links of the folders on cycles are as they were. -/
def Intact (ws : String) (w₀ w : World) : Prop :=
  ∀ f ∈ w₀.folders.toList, f.workspaceId = ws → OnCycle (w₀.parentOf ws) f.id →
    f ∈ w.folders.toList

theorem Intact.of_folders (h : Intact ws w₀ w) (hfolders : w'.folders = w.folders) :
    Intact ws w₀ w' := fun f hf hws hcycle => by
  rw [hfolders]
  exact h f hf hws hcycle

theorem deleteFolderTree_ends {fuel : ℕ} (hquiet : ∀ w, calm w → Quiet env ws)
    (hids : ∀ w, calm w → ProperIds ws w₀ ∧ validateId id = .ok ()) (hshrinks : Shrinks w₀ w)
    (hintact : Intact ws w₀ w) : Outcome (deleteFolderTree env ws fuel id) w
      (fun _ w' => (Shrinks w₀ w' ∧ Intact ws w₀ w') ∧ ¬ OnCycle (w₀.parentOf ws) id)
      (Ended calm (Low w₀ ws fuel id)) := by
  induction fuel generalizing w id with
  | zero => exact .throw ⟨fun _ => rfl, fun hlow => absurd hlow not_low_zero⟩
  | succ fuel ih =>
    rw [deleteFolderTree]
    refine .bind ((listRequests_or_fault hquiet).mono (fun _ _ h => h) fun _ _ he => he.ended _)
      fun requests w₁ hend => ?_
    obtain ⟨h₁, hrequests⟩ := hend
    refine .bind (.forM (I := fun w' => Shrinks w₀ w' ∧ Intact ws w₀ w')
      ⟨hshrinks.trans (.of_same h₁), hintact.of_folders h₁.folders⟩
      fun r hr w' hinv => ?_) fun _ w₂ hend => ?_
    · obtain ⟨hshrinks', hintact'⟩ := hinv
      obtain ⟨hr, hws⟩ := (hrequests r).mp (List.mem_of_mem_filter hr)
      refine (deleteRequest_or_fault hquiet fun w hcalm =>
        (hids w hcalm).1.requests r (hshrinks.requests r hr) hws).mono
        (fun _ _ h => ⟨hshrinks'.trans h.1, hintact'.of_folders h.2⟩) fun _ _ he => he.ended _
    obtain ⟨hshrinks₂, hintact₂⟩ := hend
    refine .bind ((listFolders_or_fault hquiet).mono (fun _ _ h => h) fun _ _ he => he.ended _)
      fun folders w₃ hend => ?_
    obtain ⟨h₃, hfolders⟩ := hend
    have hmem : ∀ f, f ∈ folders.filter (fun f => f.folderId = some id) ↔
        f ∈ w₂.folders.toList ∧ f.workspaceId = ws ∧ f.folderId = some id := fun f => by
      rw [List.mem_filter, decide_eq_true_eq, hfolders, and_assoc]
    refine .bind (.forM_done (I := fun w' => Shrinks w₀ w' ∧ Intact ws w₀ w')
      (D := fun f _ => ¬ OnCycle (w₀.parentOf ws) f.id)
      ⟨hshrinks₂.trans (.of_same h₃), hintact₂.of_folders h₃.folders⟩
      fun f hf w' hinv => ?_) fun _ w₄ hend => ?_
    · obtain ⟨hshrinks', hintact'⟩ := hinv
      obtain ⟨hf, hws, hplace⟩ := (hmem f).mp hf
      have hf₀ := hshrinks₂.folders f hf
      have hlink := parentOf_of_mem hf₀
      rw [hws, hplace] at hlink
      exact (ih (fun w hcalm => ⟨(hids w hcalm).1, (hids w hcalm).1.folders f hf₀ hws⟩) hshrinks'
        hintact').mono (fun _ _ h => ⟨h.1, h.2, fun _ hy => hy⟩)
        fun _ _ he => he.of_lower fun hlow => hlow.child hlink
    obtain ⟨⟨hshrinks₄, hintact₄⟩, hchildren, _⟩ := hend
    have hnot : ¬ OnCycle (w₀.parentOf ws) id := fun hcycle => by
      obtain ⟨f, hf, hws, hplace, hf'⟩ := exists_file_on_cycle hcycle
      exact hchildren f ((hmem f).mpr ⟨hintact₂ f hf hws hf', hws, hplace⟩) hf'
    refine (deleteFolder_or_fault hquiet fun w hcalm => (hids w hcalm).2).mono
      (fun _ w₅ h₅ => ⟨⟨hshrinks₄.trans h₅.1, fun f hf hws hcycle => ?_⟩, hnot⟩)
      fun _ _ he => he.ended _
    refine h₅.2 f (hintact₄ f hf hws hcycle) fun hkey => hnot ?_
    rwa [← show f.id = id from congrArg Prod.snd hkey]

/-! ## Copying -/

/-- No folder of the workspace has an id that is yet to be drawn. -/
def FreshIn (env : Env) (ws : String) (w : World) : Prop :=
  ∀ t, w.tick ≤ t → ∀ f ∈ w.folders.toList, f.workspaceId = ws → f.id ≠ env.newId t

theorem Fresh.freshIn (h : Fresh env w) (ws : String) : FreshIn env ws w :=
  fun t ht f hf _ => h t ht f hf

/-- The copy goes on: the files are there, no drawn id is used, and nothing was put into the
folders of `T`. -/
structure Copying (env : Env) (ws : String) (T : Set String) (w₀ w : World) : Prop where
  kept : ∀ f ∈ w₀.folders.toList, f ∈ w.folders.toList
  children : ∀ f ∈ w.folders.toList, f.workspaceId = ws → ∀ x ∈ T, f.folderId = some x →
    f ∈ w₀.folders.toList
  fresh : FreshIn env ws w
  tick : w₀.tick ≤ w.tick

/-- Calm as long as the ids that were drawn are accepted. -/
def CalmDraws (env : Env) (ws : String) (w₀ w : World) : Prop :=
  (Quiet env ws ∧ ProperIds ws w₀) ∧ DrawsAccepted env w₀ w

variable {T : Set String}

theorem Copying.of_folders (h : Copying env ws T w₀ w) (hfolders : w'.folders = w.folders)
    (htick : w.tick ≤ w'.tick) : Copying env ws T w₀ w' := by
  refine ⟨fun f hf => ?_, fun f hf => ?_, fun t ht f hf hws => ?_, h.tick.trans htick⟩
  · rw [hfolders]
    exact h.kept f hf
  · exact h.children f (hfolders ▸ hf)
  · exact h.fresh t (htick.trans ht) f (hfolders ▸ hf) hws

theorem CalmDraws.quiet (h : CalmDraws env ws w₀ w) : Quiet env ws := h.1.1

theorem CalmDraws.valid (h : CalmDraws env ws w₀ w') (hcopying : Copying env ws T w₀ w)
    (hlt : w.tick < w'.tick) : validateId (env.newId w.tick) = .ok () :=
  h.2 w.tick hcopying.tick hlt

theorem ask_outcome {α : Type} {answer : ℕ → α} {E : Failure → World → Prop} :
    Outcome (ask answer) w (fun a w' => a = answer w.tick ∧ SameFiles w w' ∧ w.tick < w'.tick) E :=
  ⟨rfl, ⟨rfl, rfl, Nat.le_succ _⟩, Nat.lt_succ_self _⟩

theorem copyRequest_or_fault {folderId : Option String} {name : String} {order : ℚ}
    (h : Copying env ws T w₀ w) (hws : r.workspaceId = ws) :
    Outcome (copyRequest env r folderId name order) w
      (fun _ w' => Copying env ws T w₀ w') (Fault (CalmDraws env ws w₀)) := by
  rw [copyRequest]
  refine .bind ask_outcome fun id w₁ ⟨hid, h₁, hlt₁⟩ => ?_
  refine .bind ask_outcome fun now w₂ ⟨_, h₂, hlt₂⟩ => ?_
  refine .bind (validate_or_fault fun hcalm => ?_) fun _ w₃ h₃ => ?_
  · rw [hws]
    exact hcalm.quiet.2
  refine .bind (validate_or_fault fun hcalm => ?_) fun _ w₄ h₄ => ?_
  · rw [hid]
    exact hcalm.valid h ((hlt₁.trans hlt₂).trans_le h₃.tick)
  refine .bind (.bind (fileSystem_or_fault fun _ hcalm => hcalm.quiet) fun _ w₅ h₅ => .modify ?_)
    fun _ w₆ (h₆ : Copying env ws T w₀ w₆) => .pure h₆
  have hsame := (((h₁.trans h₂).trans h₃).trans h₄).trans h₅
  exact h.of_folders hsame.folders hsame.tick

theorem copyFolder_or_fault {folderId : Option String} {name : String} {order : ℚ}
    (h : Copying env ws T w₀ w) (hws : f.workspaceId = ws) (hT : ∀ x ∈ T, folderId ≠ some x) :
    Outcome (copyFolder env f folderId name order) w
      (fun c w' => Copying env ws T w₀ w' ∧
        ∀ g ∈ w₀.folders.toList, g.workspaceId = ws → g.id ≠ c.id)
      (Fault (CalmDraws env ws w₀)) := by
  rw [copyFolder]
  refine .bind ask_outcome fun id w₁ ⟨hid, h₁, hlt₁⟩ => ?_
  refine .bind ask_outcome fun now w₂ ⟨_, h₂, hlt₂⟩ => ?_
  refine .bind (validate_or_fault fun hcalm => ?_) fun _ w₃ h₃ => ?_
  · rw [hws]
    exact hcalm.quiet.2
  refine .bind (validate_or_fault fun hcalm => ?_) fun _ w₄ h₄ => ?_
  · rw [hid]
    exact hcalm.valid h ((hlt₁.trans hlt₂).trans_le h₃.tick)
  have hsame := ((h₁.trans h₂).trans h₃).trans h₄
  have hlt : w.tick < w₄.tick := (hlt₁.trans hlt₂).trans_le (h₃.trans h₄).tick
  have hnew : ∀ g ∈ w.folders.toList, g.workspaceId = ws → g.id ≠ id := fun g hg hgws => by
    rw [hid]
    exact h.fresh w.tick le_rfl g hg hgws
  refine .bind (Q := fun _ w' => Copying env ws T w₀ w')
    (.bind (fileSystem_or_fault fun _ hcalm => hcalm.quiet) fun _ w₅ h₅ => .modify ?_)
    fun _ w₆ h₆ => .pure ⟨h₆, fun g hg => hnew g (h.kept g hg)⟩
  have hsame₅ := hsame.trans h₅
  refine ⟨fun g hg => ?_, fun g hg hgws x hx hplace => ?_, fun t ht g hg hgws => ?_,
    h.tick.trans hsame₅.tick⟩
  · have hg' := h.kept g hg
    refine Records.mem_put.mpr (.inr ⟨hsame₅.folders ▸ hg', fun hkey => ?_⟩)
    exact hnew g hg' ((congrArg Prod.fst hkey).trans hws) (congrArg Prod.snd hkey)
  · rcases Records.mem_put.mp hg with rfl | ⟨hg, _⟩
    · exact absurd hplace (hT x hx)
    · exact h.children g (hsame₅.folders ▸ hg) hgws x hx hplace
  · have hle : w₄.tick ≤ t := h₅.tick.trans ht
    rcases Records.mem_put.mp hg with rfl | ⟨hg, _⟩
    · intro heq
      have := env.newId_injective (hid.symm.trans heq)
      omega
    · exact h.fresh t (hlt.le.trans hle) g (hsame₅.folders ▸ hg) hgws

theorem copyFolderChildren_ends {fuel : ℕ} {src dst : String} (hclosed : Closed (w₀.parentOf ws) T)
    (hknown : ∀ x ∈ T, ∃ f ∈ w₀.folders.toList, f.workspaceId = ws ∧ f.id = x)
    (h : Copying env ws T w₀ w) (hdst : dst ∉ T) : Outcome (copyFolderChildren env ws fuel src dst) w
      (fun _ w' => Copying env ws T w₀ w' ∧ ¬ OnCycle (w₀.parentOf ws) src)
      (Ended (CalmDraws env ws w₀) (src ∈ T ∧ Low w₀ ws fuel src)) := by
  have hquiet : ∀ w, CalmDraws env ws w₀ w → Quiet env ws := fun _ hcalm => hcalm.quiet
  induction fuel generalizing w src dst with
  | zero => exact .throw ⟨fun _ => rfl, fun hlow => absurd hlow.2 not_low_zero⟩
  | succ fuel ih =>
    rw [copyFolderChildren]
    refine .bind ((listRequests_or_fault hquiet).mono (fun _ _ h => h) fun _ _ he => he.ended _)
      fun requests w₁ hend => ?_
    obtain ⟨h₁, hrequests⟩ := hend
    refine .bind (.forM (I := Copying env ws T w₀) (h.of_folders h₁.folders h₁.tick)
      fun r hr w' h' => ?_) fun _ w₂ h₂ => ?_
    · obtain ⟨hr, hws⟩ := (hrequests r).mp (List.mem_of_mem_filter hr)
      refine .bind ((copyRequest_or_fault h' hws).mono (fun _ _ h => h) fun _ _ he => he.ended _)
        fun _ w'' h'' => .pure h''
    refine .bind ((listFolders_or_fault hquiet).mono (fun _ _ h => h) fun _ _ he => he.ended _)
      fun folders w₃ hend => ?_
    obtain ⟨h₃, hfolders⟩ := hend
    have hmem : ∀ f, f ∈ folders.filter (fun f => f.folderId = some src) ↔
        f ∈ w₂.folders.toList ∧ f.workspaceId = ws ∧ f.folderId = some src := fun f => by
      rw [List.mem_filter, decide_eq_true_eq, hfolders, and_assoc]
    refine (Outcome.forM_done (I := Copying env ws T w₀)
      (D := fun f _ => ¬ OnCycle (w₀.parentOf ws) f.id) (h₂.of_folders h₃.folders h₃.tick)
      fun f hf w' h' => ?_).mono (fun _ w₄ h₄ => ⟨h₄.1, fun hcycle => ?_⟩)
      fun _ _ he => he
    · obtain ⟨hf, hws, hplace⟩ := (hmem f).mp hf
      refine .bind ((copyFolder_or_fault h' hws fun x hx heq => hdst (by
        cases heq
        exact hx)).mono (fun _ _ h => h) fun _ _ he => he.ended _) fun c w'' hend => ?_
      obtain ⟨h'', hunused⟩ := hend
      have hc : c.id ∉ T := fun hc => by
        obtain ⟨g, hg, hgws, hid⟩ := hknown c.id hc
        exact hunused g hg hgws hid
      refine (ih h'' hc).mono (fun _ _ h => ⟨h.1, h.2, fun _ hy => hy⟩)
        fun _ _ he => he.of_lower fun hend => ?_
      obtain ⟨hsrc, hlow⟩ := hend
      have hlink := parentOf_of_mem (h₂.children f hf hws src hsrc hplace)
      rw [hws, hplace] at hlink
      exact ⟨hclosed _ _ hlink hsrc, hlow.child hlink⟩
    · obtain ⟨f, hf, hws, hplace, hf'⟩ := exists_file_on_cycle hcycle
      exact h₄.2.1 f ((hmem f).mpr ⟨h₂.kept f hf, hws, hplace⟩) hf'

theorem duplicateFolderWithin_ends {fuel : ℕ} (hfresh : FreshIn env ws w)
    (hstart : ∃ f ∈ w.folders.toList, folderKey f = (ws, id))
    (hclosed : Closed (w.parentOf ws) T)
    (hknown : ∀ x ∈ T, ∃ f ∈ w.folders.toList, f.workspaceId = ws ∧ f.id = x)
    (hplace : ∀ x ∈ T, w.parentOf ws id ≠ some (some x)) :
    Outcome (duplicateFolderWithin env ws fuel id) w (fun _ _ => ¬ OnCycle (w.parentOf ws) id)
      (Ended (CalmDraws env ws w) (id ∈ T ∧ Low w ws fuel id)) := by
  have hquiet : ∀ w', CalmDraws env ws w w' → Quiet env ws := fun _ hcalm => hcalm.quiet
  obtain ⟨f, hf, hkey⟩ := hstart
  have hfind : w.folders.find? (ws, id) = some f := Records.find?_eq_some_iff.mpr ⟨hf, hkey⟩
  have hread : Outcome (getFolder env ws id) w (fun src w' => SameFiles w w' ∧
      src ∈ w.folders.toList ∧ src.workspaceId = ws ∧ src.id = id)
      (Fault (CalmDraws env ws w)) := by
    refine getFolder_reads.or_fault fun e w' hrun hcalm => ?_
    obtain ⟨hfault, hws⟩ := hcalm.quiet
    have hid : validateId id = .ok () := by
      rw [← show f.id = id from congrArg Prod.snd hkey]
      exact hcalm.1.2.folders f hf (congrArg Prod.fst hkey)
    simp only [getFolder, Fallible.bind_apply, lift_run, hws, hid, Fallible.get_apply, hfind,
      fileSystem_run, hfault, Fallible.pure_apply] at hrun
    cases hrun
  refine .bind (hread.mono (fun _ _ h => h) fun _ _ he => he.ended _) fun src w₁ hend => ?_
  obtain ⟨h₁, hsrc, hws, hid⟩ := hend
  refine .bind (Q := fun _ w' => SameFiles w₁ w') ?_ fun order w₂ h₂ => ?_
  · rw [orderAfter]
    refine .bind ((listRequests_or_fault hquiet).mono (fun _ _ h => h) fun _ _ he => he.ended _)
      fun requests w₂ hend => ?_
    obtain ⟨h₂, _⟩ := hend
    refine .bind ((listFolders_or_fault hquiet).mono (fun _ _ h => h) fun _ _ he => he.ended _)
      fun folders w₃ h₃ => .pure (h₂.trans h₃.1)
  have hsame := h₁.trans h₂
  have hcopying : Copying env ws T w w₂ :=
    ⟨fun g hg => hsame.folders ▸ hg, fun g hg _ _ _ _ => hsame.folders ▸ hg,
      fun t ht g hg hgws => hfresh t (hsame.tick.trans ht) g (hsame.folders ▸ hg) hgws, hsame.tick⟩
  have hparent := parentOf_of_mem hsrc
  rw [hws, hid] at hparent
  refine .bind ((copyFolder_or_fault hcopying hws fun x hx heq => hplace x hx (by
    rw [hparent, heq])).mono (fun _ _ h => h) fun _ _ he => he.ended _) fun c w₃ hend => ?_
  obtain ⟨h₃, hunused⟩ := hend
  have hc : c.id ∉ T := fun hc => by
    obtain ⟨g, hg, hgws, hid⟩ := hknown c.id hc
    exact hunused g hg hgws hid
  exact .bind (copyFolderChildren_ends hclosed hknown h₃ hc) fun _ _ h => .pure h.2

/-! ## Where the walks end -/

theorem not_cut {α : Type} {x : Store α} {Q : α → World → Prop} {low : Prop}
    (h : Outcome x w Q (Ended calm low)) (hlow : low) : (x w).1 ≠ .error .outOfFuel := by
  intro hrun
  exact (h.of_error (Prod.ext hrun rfl : x w = (.error .outOfFuel, (x w).2))).2 hlow rfl

theorem is_cut {α : Type} {x : Store α} {Q : α → World → Prop} {low : Prop}
    (h : Outcome x w Q (Ended calm low)) (hno : ∀ a w', ¬ Q a w') (hcalm : calm (x w).2) :
    (x w).1 = .error .outOfFuel := by
  cases hrun : (x w).1 with
  | ok a => exact absurd (h.of_ok (Prod.ext hrun rfl : x w = (.ok a, (x w).2))) (hno _ _)
  | error e =>
    rw [(h.of_error (Prod.ext hrun rfl : x w = (.error e, (x w).2))).1 hcalm]

/-- Whatever the file system does, a walk from a folder on no cycle ends. -/
theorem walks_stop (hno : ¬ OnCycle (w.parentOf ws) id) :
    Stops (fun fuel => requestIdsBelow env ws fuel id) w ∧
      Stops (fun fuel => deleteFolderTree env ws fuel id) w := by
  have hquiet : ∀ w : World, (fun _ => False) w → Quiet env ws := fun _ h => h.elim
  exact ⟨⟨_, not_cut (requestIdsBelow_ends hquiet (.refl w)) (low_start hno)⟩,
    ⟨_, not_cut (deleteFolderTree_ends hquiet (fun _ h => h.elim) (.of_same (.refl w))
      fun f hf _ _ => hf) (low_start hno)⟩⟩

theorem duplicate_stops (hfresh : Fresh env w)
    (hstart : ∃ f ∈ w.folders.toList, folderKey f = (ws, id))
    (hno : ¬ OnCycle (w.parentOf ws) id) :
    Stops (fun fuel => duplicateFolderWithin env ws fuel id) w := by
  let T : Set String := {x | Under (w.parentOf ws) id x}
  have hknown : ∀ x ∈ T, ∃ f ∈ w.folders.toList, f.workspaceId = ws ∧ f.id = x := by
    intro x hx
    cases hx with
    | self =>
      obtain ⟨f, hf, hkey⟩ := hstart
      exact ⟨f, hf, congrArg Prod.fst hkey, congrArg Prod.snd hkey⟩
    | link hparent _ =>
      obtain ⟨f, hf, hws, hid, _⟩ := parentOf_eq_some_iff.mp hparent
      exact ⟨f, hf, hws, hid⟩
  have hplace : ∀ x ∈ T, w.parentOf ws id ≠ some (some x) := fun x hx heq => hno ⟨x, heq, hx⟩
  exact ⟨_, not_cut (duplicateFolderWithin_ends (hfresh.freshIn ws) hstart (closed_under id) hknown
    hplace) ⟨.self, low_start hno⟩⟩

/-- On a cycle every depth is too small. -/
theorem walks_cut (hquiet : Quiet env ws) (hids : ProperIds ws w)
    (hstart : ∃ f ∈ w.folders.toList, folderKey f = (ws, id)) (hcycle : OnCycle (w.parentOf ws) id)
    (fuel : ℕ) : (requestIdsBelow env ws fuel id w).1 = .error .outOfFuel ∧
      (deleteFolderTree env ws fuel id w).1 = .error .outOfFuel := by
  obtain ⟨f, hf, hkey⟩ := hstart
  have hid : validateId id = .ok () := by
    rw [← show f.id = id from congrArg Prod.snd hkey]
    exact hids.folders f hf (congrArg Prod.fst hkey)
  have hcalm : ∀ w : World, (fun _ => True) w → Quiet env ws := fun _ _ => hquiet
  exact ⟨is_cut (requestIdsBelow_ends hcalm (.refl w)) (fun _ _ h => h.2 hcycle) trivial,
    is_cut (deleteFolderTree_ends hcalm (fun _ _ => ⟨hids, hid⟩) (.of_same (.refl w))
      fun f hf _ _ => hf) (fun _ _ h => h.2 hcycle) trivial⟩

theorem duplicate_cut (hquiet : Quiet env ws) (hids : ProperIds ws w) (hfresh : Fresh env w)
    (hstart : ∃ f ∈ w.folders.toList, folderKey f = (ws, id))
    (hcycle : OnCycle (w.parentOf ws) id) :
    NeverStops env (fun fuel => duplicateFolderWithin env ws fuel id) w := by
  intro fuel hdraws
  have hclosed : Closed (w.parentOf ws) ∅ := fun _ _ _ h => h
  exact is_cut (duplicateFolderWithin_ends (hfresh.freshIn ws) hstart hclosed (fun _ h => h.elim)
    fun _ h => h.elim) (fun _ _ h => h hcycle) ⟨⟨hquiet, hids⟩, hdraws⟩

/-- The walks of the store end exactly from folders that are on no cycle. The walks of the
web app end exactly if they run into none, and the paths below a root exactly if every cycle
goes through the root. -/
theorem tree_walks_end_iff (hquiet : Quiet env ws) (hids : ProperIds ws w) (hfresh : Fresh env w)
    (hstart : ∃ f ∈ w.folders.toList, folderKey f = (ws, id))
    (folders : List ApiFolder) (place : Option String) (root : String) :
    (Stops (fun fuel => requestIdsBelow env ws fuel id) w ↔ ¬ OnCycle (w.parentOf ws) id) ∧
    (Stops (fun fuel => deleteFolderTree env ws fuel id) w ↔ ¬ OnCycle (w.parentOf ws) id) ∧
    (¬ OnCycle (w.parentOf ws) id →
      Stops (fun fuel => duplicateFolderWithin env ws fuel id) w) ∧
    (OnCycle (w.parentOf ws) id →
      NeverStops env (fun fuel => duplicateFolderWithin env ws fuel id) w) ∧
    ((∃ fuel, (Tree.getFolderPath fuel folders place).isSome) ↔
      ¬ Tree.MeetsCycle (Tree.parentIn folders) place) ∧
    ((∃ fuel, (Tree.getAncestorFolderIds fuel folders place).isSome) ↔
      ¬ Tree.MeetsCycle (Tree.parentIn folders) place) ∧
    ((∃ fuel, (Tree.folderPathsUnder fuel root folders).isSome) ↔
      ∀ f ∈ folders, ¬ OnCycle (Tree.linkIn root folders) f.id) := by
  refine ⟨⟨?_, fun h => (walks_stop h).1⟩, ⟨?_, fun h => (walks_stop h).2⟩,
    duplicate_stops hfresh hstart, duplicate_cut hquiet hids hfresh hstart, ?_, ?_,
    Tree.folderPathsUnder_ends_iff root folders⟩
  · rintro ⟨fuel, hfuel⟩ hcycle
    exact hfuel (walks_cut hquiet hids hstart hcycle fuel).1
  · rintro ⟨fuel, hfuel⟩ hcycle
    exact hfuel (walks_cut hquiet hids hstart hcycle fuel).2
  · simp only [Tree.getFolderPath, Option.isSome_map]
    exact Tree.climb_ends_iff folders place
  · simp only [Tree.getAncestorFolderIds, Option.isSome_map]
    exact Tree.climb_ends_iff folders place

theorem faultless_quiet : Quiet faultless "ws1" := ⟨fun _ => rfl, by decide⟩

/-- A drawn id begins with an `n`. -/
theorem fresh_faultless (hfirst : ∀ f ∈ w.folders.toList, f.id.toList.head? ≠ some 'n') :
    Fresh faultless w := by
  intro t _ f hf heq
  refine hfirst f hf ?_
  rw [heq]
  exact congrArg List.head? String.toList_ofList

theorem tree_walks_end_one_folder :
    Stops (fun fuel => requestIdsBelow faultless "ws1" fuel "f1") oneFolder ∧
      Stops (fun fuel => duplicateFolderWithin faultless "ws1" fuel "f1") oneFolder := by
  have hno : ¬ OnCycle (oneFolder.parentOf "ws1") "f1" := by
    rintro ⟨p, hp, _⟩
    cases hp
  have hends := @tree_walks_end_iff faultless oneFolder "ws1" "f1" faultless_quiet
    ⟨by decide, by decide⟩ (fresh_faultless (by decide))
    ⟨authFolder, List.mem_singleton_self _, rfl⟩ [] none "f1"
  exact ⟨hends.1.mpr hno, hends.2.2.1 hno⟩

/-- A folder on disk that names the other one as its parent. -/
def turnedFolder (id parent : String) : ApiFolder :=
  { authFolder with id, folderId := some parent }

/-- What a merge leaves after each side has moved one folder into the other. -/
def mergedMoves : World where
  folders := ⟨[turnedFolder "f1" "f2", turnedFolder "f2" "f1"], by decide⟩
  requests := ⟨[], List.nodup_nil⟩
  tick := 0

theorem merged_moves_do_not_end :
    ¬ Stops (fun fuel => requestIdsBelow faultless "ws1" fuel "f1") mergedMoves ∧
      ¬ Stops (fun fuel => deleteFolderTree faultless "ws1" fuel "f1") mergedMoves ∧
      NeverStops faultless (fun fuel => duplicateFolderWithin faultless "ws1" fuel "f1")
        mergedMoves ∧
      ¬ ∃ fuel, (Tree.getFolderPath fuel mergedMoves.folders.toList (some "f1")).isSome := by
  have hlink : mergedMoves.parentOf "ws1" "f1" = some (some "f2") := by decide
  have hback : mergedMoves.parentOf "ws1" "f2" = some (some "f1") := by decide
  have hcycle : OnCycle (mergedMoves.parentOf "ws1") "f1" := ⟨"f2", hlink, .link hback .self⟩
  have hstart : ∃ f ∈ mergedMoves.folders.toList, folderKey f = ("ws1", "f1") :=
    ⟨turnedFolder "f1" "f2", List.mem_cons_self, rfl⟩
  have hids : ProperIds "ws1" mergedMoves := ⟨by decide, by decide⟩
  have hcut := walks_cut faultless_quiet hids hstart hcycle
  refine ⟨fun ⟨fuel, h⟩ => h (hcut fuel).1, fun ⟨fuel, h⟩ => h (hcut fuel).2,
    duplicate_cut faultless_quiet hids (fresh_faultless (by decide)) hstart hcycle, ?_⟩
  simp only [Tree.getFolderPath, Option.isSome_map]
  have hlist : Tree.parentIn mergedMoves.folders.toList "f1" = some (some "f2") := by decide
  have hlist' : Tree.parentIn mergedMoves.folders.toList "f2" = some (some "f1") := by decide
  rw [Tree.climb_ends_iff, not_not]
  exact ⟨"f1", .self, "f2", hlist, .link hlist' .self⟩

end Voleeo.Storage
