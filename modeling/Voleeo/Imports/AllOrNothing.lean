import Voleeo.Imports.CommitDemands
import Voleeo.Storage.EnvironmentRuns

/-!
# Imports that fail

An import that fails leaves the disk as it was just when nothing is refused
behind something that stays: behind a workspace of the bundle that is in place,
or behind the first file of a collection.
-/
namespace Voleeo.Imports
open Storage
open Fallible (Sound)

inductive ImportCall
  | importVoleeo (parsed : Except String VoleeoBundle) (workspaceIds : List String)
  | importCommit (parsed : Except String ParsedCollection) (dest : ImportDest)
      (selected : Option (List String))

namespace ImportCall

def exec (supplies : Supplies) (m : Machine) : ImportCall → OnDisk ImportSummary
  | .importVoleeo parsed workspaceIds => Imports.importVoleeo m parsed workspaceIds
  | .importCommit parsed dest selected => Imports.importCommit supplies m parsed dest selected

/-- What the import asks for on this disk. -/
def demands (supplies : Supplies) (m : Machine) (d : Disk) : ImportCall → List Demand
  | .importVoleeo parsed workspaceIds => bundleDemands parsed workspaceIds
  | .importCommit parsed dest selected => commitDemands supplies m d parsed dest selected

end ImportCall

/-- A failed import leaves all files as they were just when its demands are spared: none is
refused after the first thing that stays. -/
theorem imports_unchanged_iff (supplies : Supplies) (m : Machine) (d : Disk) (call : ImportCall)
    (hremove : ∀ t, m.removeFault t = none) (hfresh : FreshIds m d)
    (hvalid : Sound (DrawsValid m) d.tick (call.demands supplies m d)) :
    (∀ e d', call.exec supplies m d = (.error e, d') → SameDisk d d') ↔
      Demand.Spared (refuses m.toEnv) d.tick (call.demands supplies m d) := by
  have hself : SameDisk d d := fun _ => Iff.rfl
  cases call with
  | importVoleeo parsed workspaceIds =>
      have hcalls := importVoleeo_calls hremove hfresh.workspaces parsed workspaceIds
      exact hcalls.unchanged_iff hvalid hself (fun _ h => h) fun _ h => not_same_of_left h
  | importCommit parsed dest selected =>
      have hcalls := importCommit_calls supplies hfresh parsed dest selected
      exact hcalls.unchanged_iff hvalid hself (fun _ h => h) fun _ h => not_same_of_changed h

/-! ## A bundle whose second workspace is refused -/

/-- A workspace of a bundle with folders of the given ids. -/
def bundled (id : String) (folderIds : List String) : VoleeoWorkspace where
  workspace := newWorkspace id "" id false
  folders := folderIds.map fun folderId => { authFolder with id := folderId, workspaceId := id }
  requests := []
  websockets := []
  grpc := []
  environments := []

/-- The second workspace has an item whose id cannot be a file name. -/
def refusedBundle : VoleeoBundle where
  voleeoBundle := "1.0"
  workspaces := [bundled "w1" [], bundled "w2" ["a b"]]

def noSupplies : Supplies where
  key _ := .error (.notFound "key")
  nonces _ _ := default
  envColor _ := ""

def refusedImport : ImportCall := .importVoleeo (.ok refusedBundle) ["w1", "w2"]

theorem fresh_emptyDisk (m : Machine) : FreshIds m emptyDisk := by
  intro t _ x hx
  cases x <;> exact absurd hx List.not_mem_nil

theorem refusedImport_valid :
    Sound (DrawsValid faultlessMachine) emptyDisk.tick
      (refusedImport.demands noSupplies faultlessMachine emptyDisk) := by
  have hvalid : ∀ k < 14, validateId (faultless.newId k) = .ok () := by decide
  have hticks : Demand.ticks (refusedImport.demands noSupplies faultlessMachine emptyDisk) = 14 := by
    decide
  intro k _ hk
  rw [hticks] at hk
  exact hvalid k (by simpa [Disk.tick, emptyDisk] using hk)

/-- The workspace `w1` stays although the import fails on an id of `w2`. -/
theorem refused_bundle_leaves_workspace :
    ¬ ∀ e d', refusedImport.exec noSupplies faultlessMachine emptyDisk = (.error e, d') →
      SameDisk emptyDisk d' := by
  have hcalls := importVoleeo_calls (m := faultlessMachine) (fun _ => rfl)
    (fresh_emptyDisk faultlessMachine).workspaces (.ok refusedBundle) ["w1", "w2"]
  have hiff := hcalls.unchanged_iff refusedImport_valid (fun _ => Iff.rfl) (fun _ h => h)
    fun _ h => not_same_of_left h
  exact fun hall => absurd (hiff.mp hall) (by decide)

theorem imports_unchanged_refused_bundle :
    (∀ e d', refusedImport.exec noSupplies faultlessMachine emptyDisk = (.error e, d') →
        SameDisk emptyDisk d') ↔
      Demand.Spared (refuses faultlessMachine.toEnv) emptyDisk.tick
        (refusedImport.demands noSupplies faultlessMachine emptyDisk) :=
  imports_unchanged_iff noSupplies faultlessMachine emptyDisk refusedImport (fun _ => rfl)
    (fresh_emptyDisk _) refusedImport_valid

end Voleeo.Imports
