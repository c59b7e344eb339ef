import Voleeo.Imports.Bundle

/-!
# Importing several workspaces

A workspace of a bundle is written as a whole: when something is refused, its
directories are removed again. So the import leaves something behind just when
a workspace was in place before a later one was refused.
-/
namespace Voleeo.Imports
open Storage
open Fallible (Asks Outcome)

/-! ## The same files -/

/-- The same files lie at the same places. -/
def SameDisk (d d' : Disk) : Prop := ∀ x, d'.Has x ↔ d.Has x

/-- The files outside one workspace are the same. -/
def SameBeside (wid : String) (d d' : Disk) : Prop :=
  ∀ x : File, x.workspaceId ≠ wid → (d'.Has x ↔ d.Has x)

/-- No id that is drawn from now on names a workspace. -/
def FreshWorkspaces (m : Machine) (d : Disk) : Prop :=
  ∀ t, d.tick ≤ t → ∀ x, d.Has x → x.workspaceId ≠ m.newId t

variable {m : Machine} {d d' : Disk} {wid : String} {vw : VoleeoWorkspace}

theorem SameDisk.later {n : ℕ} (h : SameDisk d d') : SameDisk d (d'.later n) := fun x => by
  rw [Disk.has_later, h]

theorem SameBeside.put {x : File} (h : SameBeside wid d d') (hx : x.workspaceId = wid) :
    SameBeside wid d (d'.put x) := by
  intro y hy
  have hne : y.path ≠ x.path := fun heq => hy (by rw [← hx]; exact congrArg Prod.fst heq)
  rw [Disk.has_put, ← h y hy]
  refine ⟨?_, fun hhas => .inr ⟨hhas, hne⟩⟩
  rintro (rfl | ⟨hhas, -⟩)
  · exact absurd hx hy
  · exact hhas

theorem SameBeside.withoutStale {e : Environment} (h : SameBeside wid d d')
    (he : e.workspaceId = wid) : SameBeside wid d (d'.withoutStale e) := by
  intro y hy
  rw [Disk.withoutStale, Disk.has_keep, ← h y hy, decide_eq_true_iff, and_iff_left_iff_imp]
  rintro - heq
  exact hy (by rw [← he]; exact congrArg Prod.fst heq)

/-- The workspace has its file. -/
def HasWorkspace (d : Disk) (wid : String) : Prop := ∃ w, d.Has (.workspace w) ∧ w.id = wid

theorem HasWorkspace.put {x : File} (h : HasWorkspace d wid) : HasWorkspace (d.put x) wid := by
  obtain ⟨w, hw, hid⟩ := h
  by_cases hx : (File.workspace w).path = x.path
  · cases x with
    | workspace w' =>
      refine ⟨w', Disk.has_put.mpr (.inl rfl), ?_⟩
      rw [← hid]
      exact (congrArg Prod.fst hx).symm
    | _ => exact absurd (congrArg (fun p => p.2.1) hx) nofun
  · exact ⟨w, Disk.has_put.mpr (.inr ⟨hw, hx⟩), hid⟩

theorem HasWorkspace.withoutStale {e : Environment} (h : HasWorkspace d wid) :
    HasWorkspace (d.withoutStale e) wid := by
  obtain ⟨w, hw, hid⟩ := h
  refine ⟨w, Disk.has_keep.mpr ⟨hw, decide_eq_true fun heq => ?_⟩, hid⟩
  have hkind := congrArg (fun p : String × FileKind × String => p.2.1) heq
  rw [staleName] at hkind
  cases hs : e.shared <;> simp [File.path, File.name, hs] at hkind

/-- While a new workspace is written, the files outside it stay. -/
def Inside (d : Disk) (wid : String) (_ : Bool) (d' : Disk) : Prop :=
  SameBeside wid d d' ∧ HasWorkspace d' wid

theorem inside_free : Free (Inside d wid) wid where
  timeless := by
    rintro - d' n ⟨hsame, w, hw, hid⟩
    exact ⟨fun x hx => by rw [Disk.has_later, hsame x hx], w, by rwa [Disk.has_later], hid⟩
  shown := fun x hx _ d' h => ⟨h.1.put hx, h.2.put⟩
  cleared := fun _ d' e he h => ⟨h.1.withoutStale he, h.2.withoutStale⟩

theorem noEnvironments_of_fresh (h : ∀ x, d.Has x → x.workspaceId ≠ wid) :
    NoEnvironments d wid := by
  intro shared id
  rw [Records.find?_eq_none_iff]
  intro e he heq
  have hws : e.workspaceId = wid := congrArg Prod.fst heq
  cases shared with
  | true => exact h (.sharedEnvironment e) he hws
  | false => exact h (.localEnvironment e) he hws

/-! ## One workspace -/

/-- The demands of one workspace of the bundle: it is created and written, or undone. -/
def workspaceDemands (vw : VoleeoWorkspace) : List Demand :=
  Demand.asWhole (createDemands ++ contentDemands vw)

theorem removeDirAll_run (hremove : ∀ t, m.removeFault t = none) (stays : File → Bool) :
    removeDirAll m stays d = (.ok (), (d.later 1).keep stays) := by
  have hask : onWorld (ask m.removeFault) d = (.ok (m.removeFault d.tick), d.later 1) := rfl
  rw [removeDirAll, Fallible.bind_eq_ok hask, hremove]
  rfl

theorem deleteWorkspace_run (hremove : ∀ t, m.removeFault t = none)
    (hwid : validateId wid = .ok ()) (h : HasWorkspace d wid) :
    deleteWorkspace m wid d =
      (.ok (), (d.later 1).keep fun x => x.isLocal || x.workspaceId ≠ wid) := by
  obtain ⟨w, hw, hid⟩ := h
  have hfind : (d.workspaces.find? wid).isSome = true := by
    rw [Records.find?_eq_some_iff.mpr ⟨hw, hid⟩]
    rfl
  rw [deleteWorkspace, Fallible.bind_eq_ok (validate_run hwid),
    Fallible.bind_eq_ok (Fallible.get_apply d), if_pos hfind]
  exact removeDirAll_run hremove _

/-- Whether or not there are any, no local environments are left. -/
theorem deleteLocalEnvironments_run (hremove : ∀ t, m.removeFault t = none)
    (hwid : validateId wid = .ok ()) :
    ∃ d', deleteLocalEnvironments m wid d = (.ok (), d') ∧
      ∀ x, d'.Has x ↔ d.Has x ∧ (x.isLocal = true → x.workspaceId ≠ wid) := by
  rw [deleteLocalEnvironments, Fallible.bind_eq_ok (validate_run hwid),
    Fallible.bind_eq_ok (Fallible.get_apply d)]
  split_ifs with hany
  · refine ⟨_, removeDirAll_run hremove _, fun x => ?_⟩
    rw [Disk.has_keep, Disk.has_later]
    cases x.isLocal <;> simp
  · refine ⟨d, rfl, fun x => ⟨fun hx => ⟨hx, fun hlocal hws => hany ?_⟩, And.left⟩⟩
    cases x with
    | localEnvironment e => exact List.any_eq_true.mpr ⟨e, hx, decide_eq_true hws⟩
    | _ => exact absurd hlocal Bool.false_ne_true

theorem importOne_outcome (hremove : ∀ t, m.removeFault t = none) (hfresh : FreshWorkspaces m d)
    (done : ImportSummary) (hsound : Fallible.Sound (DrawsValid m) d.tick (workspaceDemands vw)) :
    Outcome (importOne m done vw) d
      (fun _ d' => Demand.granted (refuses m.toEnv) d.tick (workspaceDemands vw) = some d'.tick ∧
        d.tick < d'.tick ∧ Inside d (m.newId d.tick) true d')
      (fun _ d' => Demand.granted (refuses m.toEnv) d.tick (workspaceDemands vw) = none ∧
        SameDisk d d') := by
  have hsound' : Fallible.Sound (DrawsValid m) d.tick (createDemands ++ contentDemands vw) := by
    rwa [Fallible.Sound, workspaceDemands, Demand.ticks_asWhole] at hsound
  have hnew : Calls m (fun b d' => b = false → SameDisk d d')
      (createWorkspace m vw.workspace.name false) createDemands d _ :=
    createWorkspace_calls (fun b d' n h hb => (h hb).later) fun _ _ _ _ _ hb => absurd hb nofun
  have hcreate := hnew hsound'.left false fun _ _ => Iff.rfl
  rw [workspaceDemands, Demand.granted_asWhole, Demand.granted_append]
  rw [Outcome] at hcreate
  rcases hrun : createWorkspace m vw.workspace.name false d with ⟨e | created, d₁⟩
  · -- nothing has been written when the creation fails
    rw [hrun] at hcreate
    obtain ⟨hnone, hsame⟩ := hcreate
    rw [Outcome, importOne, Fallible.bind_eq_error hrun, hnone]
    refine ⟨rfl, hsame ?_⟩
    have hlast : createDemands = Demand.asWhole [.draw, .draw, .call, .call] := rfl
    rw [Bool.false_or, hlast, Demand.marked_asWhole]
    rw [hlast, Demand.granted_asWhole] at hnone
    rw [hnone]
    rfl
  · rw [hrun] at hcreate
    obtain ⟨hsome, -, hwid, rfl, rfl⟩ := hcreate
    have hsound₁ : Fallible.Sound (DrawsValid m) (d.tick + 4) (contentDemands vw) := hsound'.right
    set w := newWorkspace (m.newId d.tick) (m.now (d.tick + 1)) vw.workspace.name false with hw
    have hinside : Inside d (m.newId d.tick) true ((d.later 4).put (.workspace w)) := by
      refine ⟨SameBeside.put (fun x _ => Disk.has_later) rfl, w, ?_, rfl⟩
      exact Disk.has_put.mpr (.inl rfl)
    have hnone : NoEnvironments ((d.later 4).put (.workspace w)) (m.newId d.tick) :=
      noEnvironments_of_fresh (d := d) fun x hx => hfresh d.tick (Nat.le_refl _) x hx
    have hwrite :=
      writeVoleeoWorkspace_calls (m := m) (v := vw) inside_free hwid hnone hsound₁ true hinside
    rw [Outcome] at hwrite
    rcases hrun' : writeVoleeoWorkspace m (m.newId d.tick) vw
      ((d.later 4).put (.workspace w)) with ⟨e | counts, d₂⟩
    · rw [hrun'] at hwrite
      obtain ⟨hrefused, hinside₂⟩ := hwrite
      have hattempt : Fallible.attempt (writeVoleeoWorkspace m w.id vw)
          ((d.later 4).put (.workspace w)) = (.ok (.error e), d₂) :=
        Fallible.attempt_eq hrun'
      have hdelete := deleteWorkspace_run hremove hwid hinside₂.2
      obtain ⟨d₃, hlocal, hhas⟩ := deleteLocalEnvironments_run (m := m)
        (d := (d₂.later 1).keep fun x => x.isLocal || x.workspaceId ≠ m.newId d.tick) hremove hwid
      have hdelete' : Fallible.attempt (deleteWorkspace m w.id) d₂ = (.ok (.ok ()),
          (d₂.later 1).keep fun x => x.isLocal || x.workspaceId ≠ m.newId d.tick) :=
        Fallible.attempt_eq hdelete
      have hlocal' : Fallible.attempt (deleteLocalEnvironments m w.id)
          ((d₂.later 1).keep fun x => x.isLocal || x.workspaceId ≠ m.newId d.tick) =
          (.ok (.ok ()), d₃) := Fallible.attempt_eq hlocal
      have hone : importOne m done vw d = (.error e, d₃) := by
        rw [importOne, Fallible.bind_eq_ok hrun, Fallible.bind_eq_ok hattempt]
        exact (Fallible.bind_eq_ok hdelete').trans (Fallible.bind_eq_ok hlocal')
      rw [Outcome, hone, hsome, Option.bind_some]
      refine ⟨hrefused, fun x => ?_⟩
      rw [hhas, Disk.has_keep, Disk.has_later]
      by_cases hx : x.workspaceId = m.newId d.tick
      · have hd : ¬ d.Has x := fun hd => hfresh d.tick (Nat.le_refl _) x hd hx
        cases x.isLocal <;> simp [hx, hd]
      · rw [← hinside₂.1 x hx]
        simp [hx]
    · rw [hrun'] at hwrite
      obtain ⟨hgranted, hinside₂, -, n, hd₂⟩ := hwrite
      have hattempt : Fallible.attempt (writeVoleeoWorkspace m w.id vw)
          ((d.later 4).put (.workspace w)) = (.ok (.ok counts), d₂) :=
        Fallible.attempt_eq hrun'
      rw [Outcome, importOne, Fallible.bind_eq_ok hrun, Fallible.bind_eq_ok hattempt, hsome,
        Option.bind_some]
      refine ⟨hgranted, ?_, hinside₂⟩
      have htick := Demand.eq_of_granted hgranted
      rw [Disk.tick_put, Disk.tick_later] at htick
      omega

/-! ## The selected workspaces -/

/-- The demands of the import: the content is a bundle, something is selected, and the selected
workspaces are restored one after another. -/
def bundleDemands (parsed : Except String VoleeoBundle) (workspaceIds : List String) :
    List Demand :=
  match parsed with
  | .error _ => [.check false]
  | .ok doc => .check (!(doc.selected workspaceIds).isEmpty) ::
      (doc.selected workspaceIds).flatMap workspaceDemands

/-- Before the first mark the files are the same; after it, a workspace is new. -/
def Left (d₀ : Disk) (b : Bool) (d : Disk) : Prop :=
  if b then ∃ wid, HasWorkspace d wid ∧ ¬ HasWorkspace d₀ wid else SameDisk d₀ d

theorem not_same_of_left {d₀ : Disk} (h : Left d₀ true d) : ¬ SameDisk d₀ d := by
  obtain ⟨wid, ⟨w, hw, hid⟩, hnew⟩ := h
  exact fun hsame => hnew ⟨w, (hsame _).mp hw, hid⟩

variable {d₀ : Disk}

theorem FreshWorkspaces.inside (hfresh : FreshWorkspaces m d) (htick : d.tick < d'.tick)
    (h : SameBeside (m.newId d.tick) d d') : FreshWorkspaces m d' := by
  intro t ht x hx heq
  by_cases hwid : x.workspaceId = m.newId d.tick
  · have hsame := m.newId_injective (hwid.symm.trans heq)
    omega
  · exact hfresh t (by omega) x ((h x hwid).mp hx) heq

theorem importOne_calls (hremove : ∀ t, m.removeFault t = none) (hfresh₀ : FreshWorkspaces m d₀)
    (hfresh : FreshWorkspaces m d) (htick : d₀.tick ≤ d.tick) (done : ImportSummary) :
    Calls m (Left d₀) (importOne m done vw) (workspaceDemands vw) d
      fun _ d' => FreshWorkspaces m d' ∧ d₀.tick ≤ d'.tick := by
  intro hsound b hb
  have hmarked := Demand.marked_asWhole (r := refuses m.toEnv) (t := d.tick)
    (u := createDemands ++ contentDemands vw)
  refine (importOne_outcome hremove hfresh done hsound).mono ?_ ?_
  · rintro _ d' ⟨hgranted, hlt, hinside⟩
    have hall : Demand.marked (refuses m.toEnv) d.tick (workspaceDemands vw) = true := by
      rw [workspaceDemands, Demand.granted_asWhole] at hgranted
      rw [workspaceDemands, hmarked, hgranted]
      rfl
    refine ⟨hgranted, ?_, hfresh.inside hlt hinside.1, by omega⟩
    rw [hall, Bool.or_true]
    refine ⟨m.newId d.tick, hinside.2, ?_⟩
    rintro ⟨w, hw, hid⟩
    exact hfresh₀ d.tick htick (.workspace w) hw hid
  · rintro _ d' ⟨hrefused, hsame⟩
    have hnone : Demand.marked (refuses m.toEnv) d.tick (workspaceDemands vw) = false := by
      rw [workspaceDemands, Demand.granted_asWhole] at hrefused
      rw [workspaceDemands, hmarked, hrefused]
      rfl
    refine ⟨hrefused, ?_⟩
    rw [hnone, Bool.or_false]
    cases b with
    | false => exact fun x => (hsame x).trans (hb x)
    | true =>
      obtain ⟨wid, ⟨w, hw, hid⟩, hnew⟩ := hb
      exact ⟨wid, ⟨w, (hsame _).mpr hw, hid⟩, hnew⟩

theorem importVoleeo_calls (hremove : ∀ t, m.removeFault t = none) (hfresh : FreshWorkspaces m d)
    (parsed : Except String VoleeoBundle) (workspaceIds : List String) :
    Calls m (Left d) (importVoleeo m parsed workspaceIds) (bundleDemands parsed workspaceIds) d
      fun _ _ => True := by
  cases parsed with
  | error e => exact ((lift_calls (.error _)).bind (u := [_]) (v := []) fun a _ h =>
    absurd h.1 nofun)
  | ok doc =>
    have hrun : importVoleeo m (.ok doc) workspaceIds =
        if (doc.selected workspaceIds).isEmpty then
          fail (.importError "No workspaces selected to import.")
        else (doc.selected workspaceIds).foldlM (importOne m) ⟨"", 0, 0, 0, []⟩ := rfl
    rw [hrun, bundleDemands]
    cases hempty : (doc.selected workspaceIds).isEmpty with
    | true =>
      intro _ b hb
      exact ⟨rfl, by simpa [Demand.marked] using hb⟩
    | false =>
      have hall : Calls m (Left d)
          ((doc.selected workspaceIds).foldlM (importOne m) ⟨"", 0, 0, 0, []⟩)
          ((doc.selected workspaceIds).flatMap workspaceDemands) d
          fun _ d' => FreshWorkspaces m d' ∧ d.tick ≤ d'.tick :=
        Asks.foldlM (J := fun d' => FreshWorkspaces m d' ∧ d.tick ≤ d'.tick) ⟨hfresh, Nat.le_refl _⟩
          fun done _ _ _ h => importOne_calls hremove hfresh h.1 h.2 done
      exact calls_of_check (hall.mono fun _ _ _ => trivial)

end Voleeo.Imports
