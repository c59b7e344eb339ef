import Voleeo.ParentChain
import Voleeo.Storage.RequestStore

/-!
# The forest of folders

Every folder and every request hangs, over its chain of parents, under the
root. What one write, move or removal does to the chains is stated about the
files; the operations of the store then keep the forest at every point where
they can end.
-/
namespace Voleeo.Storage
open Fallible (Outcome)

/-- The parent that a folder file of the workspace names. -/
def World.parentOf (w : World) (workspaceId id : String) : Option (Option String) :=
  (w.folders.find? (workspaceId, id)).map (·.folderId)

/-- Every parent exists, and no chain of parents is a cycle. -/
structure Forest (w : World) : Prop where
  folders : ∀ f ∈ w.folders.toList, Rooted (w.parentOf f.workspaceId) (some f.id)
  requests : ∀ r ∈ w.requests.toList, Rooted (w.parentOf r.workspaceId) r.folderId

/-- No folder has an id that is yet to be drawn. -/
def Fresh (env : Env) (w : World) : Prop :=
  ∀ t, w.tick ≤ t → ∀ f ∈ w.folders.toList, f.id ≠ env.newId t

variable {env : Env} {w w' : World} {ws id : String} {f : ApiFolder} {r : HttpRequest}

/-! ## Files and chains -/

theorem parentOf_eq_some_iff {place : Option String} : w.parentOf ws id = some place ↔
    ∃ f ∈ w.folders.toList, f.workspaceId = ws ∧ f.id = id ∧ f.folderId = place := by
  rw [World.parentOf, Option.map_eq_some_iff]
  constructor
  · rintro ⟨f, hfind, rfl⟩
    obtain ⟨hmem, hkey⟩ := Records.find?_eq_some_iff.mp hfind
    exact ⟨f, hmem, congrArg Prod.fst hkey, congrArg Prod.snd hkey, rfl⟩
  · rintro ⟨f, hmem, rfl, rfl, rfl⟩
    exact ⟨f, Records.find?_eq_some_iff.mpr ⟨hmem, rfl⟩, rfl⟩

theorem parentOf_of_mem (hf : f ∈ w.folders.toList) :
    w.parentOf f.workspaceId f.id = some f.folderId :=
  parentOf_eq_some_iff.mpr ⟨f, hf, rfl, rfl, rfl⟩

theorem Forest.rooted_parent (h : Forest w) (hf : f ∈ w.folders.toList) :
    Rooted (w.parentOf f.workspaceId) f.folderId := by
  obtain ⟨place, hparent, hplace⟩ := (h.folders f hf).exists_parent
  rw [parentOf_of_mem hf] at hparent
  cases hparent
  exact hplace

theorem depth_le_length {place : Option String} {n : ℕ} (h : Depth (w.parentOf ws) place n) :
    n ≤ w.folders.toList.length := by
  have hle := @Depth.le_length _ _ _ _ (w.folders.toList.map (·.id)) h fun k hk => by
    obtain ⟨parent, hparent⟩ := Option.isSome_iff_exists.mp hk
    obtain ⟨f, hf, -, rfl, -⟩ := parentOf_eq_some_iff.mp hparent
    exact List.mem_map_of_mem hf
  rwa [List.length_map] at hle

theorem parentOf_putFolder (w : World) (f : ApiFolder) (ws : String) :
    World.parentOf { w with folders := w.folders.put f } ws =
      if ws = f.workspaceId then Function.update (w.parentOf ws) f.id (some f.folderId)
      else w.parentOf ws := by
  funext id
  rw [World.parentOf, Records.find?_put]
  split_ifs with hkey hws hws
  · rw [show id = f.id from (congrArg Prod.snd hkey).symm, Function.update_self]
    rfl
  · exact absurd (congrArg Prod.fst hkey).symm hws
  · rw [Function.update_of_ne fun hid => hkey (by rw [hws, hid, folderKey])]
    rfl
  · rfl

theorem parentOf_removeFolder (w : World) (id ws ws' : String) :
    World.parentOf { w with folders := w.folders.remove (ws, id) } ws' =
      if ws' = ws then Function.update (w.parentOf ws') id none else w.parentOf ws' := by
  funext id'
  rw [World.parentOf, Records.find?_remove]
  split_ifs with hkey hws hws
  · rw [show id' = id from congrArg Prod.snd hkey, Function.update_self]
    rfl
  · exact absurd (congrArg Prod.fst hkey) hws
  · rw [Function.update_of_ne fun hid => hkey (by rw [hws, hid])]
    rfl
  · rfl

/-! ## What a change does to the forest -/

/-- A change of the folders that keeps all chains keeps the forest. -/
theorem Forest.of_rooted (h : Forest w) (hrequests : w'.requests = w.requests)
    (hrooted : ∀ ws place, Rooted (w.parentOf ws) place → Rooted (w'.parentOf ws) place)
    (hfolders : ∀ f ∈ w'.folders.toList, f ∉ w.folders.toList →
      Rooted (w'.parentOf f.workspaceId) (some f.id)) : Forest w' := by
  refine ⟨fun f hf => ?_, fun r hr => hrooted _ _ (h.requests r (hrequests ▸ hr))⟩
  by_cases hmem : f ∈ w.folders.toList
  · exact hrooted _ _ (h.folders f hmem)
  · exact hfolders f hf hmem

/-- A folder is hung under a place whose chain does not pass through it. -/
theorem Forest.putFolder (h : Forest w)
    (hparent : Avoids (w.parentOf f.workspaceId) f.id f.folderId) :
    Forest { w with folders := w.folders.put f } := by
  have hrooted : ∀ ws place, Rooted (w.parentOf ws) place →
      Rooted (World.parentOf { w with folders := w.folders.put f } ws) place := by
    intro ws place hplace
    rw [parentOf_putFolder]
    split_ifs with hws
    · subst hws
      exact hplace.update hparent
    · exact hplace
  refine h.of_rooted rfl hrooted fun g hg hnot => ?_
  obtain rfl | ⟨hmem, -⟩ := Records.mem_put.mp hg
  · exact .link (parentOf_of_mem (w := { w with folders := w.folders.put g }) hg)
      (hrooted _ _ hparent.rooted)
  · exact absurd hmem hnot

theorem Forest.putRequest (h : Forest w) (hparent : Rooted (w.parentOf r.workspaceId) r.folderId) :
    Forest { w with requests := w.requests.put r } := by
  refine ⟨h.folders, fun r' hr' => ?_⟩
  obtain rfl | ⟨hmem, -⟩ := Records.mem_put.mp hr'
  · exact hparent
  · exact h.requests r' hmem

theorem Forest.removeRequest (h : Forest w) (key : FileKey) :
    Forest { w with requests := w.requests.remove key } :=
  ⟨h.folders, fun r hr => h.requests r (Records.mem_remove.mp hr).1⟩

/-- A folder that nothing is in can go. -/
theorem Forest.removeFolder (h : Forest w)
    (hfolders : ∀ f ∈ w.folders.toList, f.workspaceId = ws → f.folderId ≠ some id)
    (hrequests : ∀ r ∈ w.requests.toList, r.workspaceId = ws → r.folderId ≠ some id) :
    Forest { w with folders := w.folders.remove (ws, id) } := by
  have hleaf : ∀ k, w.parentOf ws k ≠ some (some id) := by
    intro k hk
    obtain ⟨f, hf, hws, -, hparent⟩ := parentOf_eq_some_iff.mp hk
    exact hfolders f hf hws hparent
  have hrooted : ∀ ws' place, (ws' = ws → place ≠ some id) → Rooted (w.parentOf ws') place →
      Rooted (World.parentOf { w with folders := w.folders.remove (ws, id) } ws') place := by
    intro ws' place hne hplace
    rw [parentOf_removeFolder]
    split_ifs with hws
    · subst hws
      exact hplace.avoids_leaf hleaf (hne rfl)
    · exact hplace
  refine ⟨fun f hf => ?_, fun r hr => ?_⟩
  · obtain ⟨hmem, hkey⟩ := Records.mem_remove.mp hf
    refine hrooted _ _ (fun hws hid => hkey ?_) (h.folders f hmem)
    rw [folderKey, hws, Option.some.inj hid]
  · exact hrooted _ _ (hrequests r hr) (h.requests r hr)

end Voleeo.Storage
