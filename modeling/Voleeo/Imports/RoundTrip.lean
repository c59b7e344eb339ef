import Voleeo.Imports.Bundle
import Voleeo.Storage.QuietRuns

/-!
# A bundle brings back what was exported

The export clears the flags of encrypted values, and the import does so again. In
a fresh workspace the stores then read the exported items: each belongs to the new
workspace and is otherwise as it was.
-/
namespace Voleeo.Imports
open Storage
open Mcp (setSecretsEncrypted)

/-! ## What is to come back -/

/-- The folder links of all items. -/
def Bundle.places (b : Bundle) : List (Option String) :=
  b.folders.map (·.folderId) ++ b.requests.map (·.folderId) ++ b.ws.map (·.folderId) ++
    b.grpc.map (·.folderId)

/-- What the export is given: the ids of a kind are valid and different, and folder links lead to
folders. -/
structure Bundle.WellFormed (b : Bundle) : Prop where
  folders : (b.folders.map (·.id)).Nodup ∧ ∀ f ∈ b.folders, validateId f.id = .ok ()
  requests : (b.requests.map (·.id)).Nodup ∧ ∀ r ∈ b.requests, validateId r.id = .ok ()
  connections : (b.ws.map (·.id)).Nodup ∧ ∀ c ∈ b.ws, validateId c.id = .ok ()
  grpc : (b.grpc.map (·.id)).Nodup ∧ ∀ g ∈ b.grpc, validateId g.id = .ok ()
  environments : (b.environments.map (·.id)).Nodup ∧
    ∀ e ∈ b.environments, validateId e.id = .ok ()
  links : ∀ place ∈ b.places, ∀ id, place = some id → id ∈ b.folders.map (·.id)

section
variable (wid : String)

/-! The items in the new workspace, with the flags of their secrets cleared. -/

def movedFolder (f : ApiFolder) : ApiFolder := { plainFolder f with workspaceId := wid }

def movedRequest (r : HttpRequest) : HttpRequest := { plainRequest r with workspaceId := wid }

def movedConnection (c : WsConnection) : WsConnection :=
  { plainConnection c with workspaceId := wid }

def movedGrpc (g : GrpcRequest) : GrpcRequest := { plainGrpc g with workspaceId := wid }

def movedEnvironment (e : Environment) : Environment :=
  { plainEnvironment e with workspaceId := wid }

def movedWorkspace (ws : Workspace) : Workspace := { plainWorkspace ws with id := wid }

end

/-! ## Clearing flags twice -/

@[simp] theorem markSecretsPlaintext_idem (auth : AuthConfig) :
    markSecretsPlaintext (markSecretsPlaintext auth) = markSecretsPlaintext auth := by
  cases auth <;> rfl

@[simp] theorem plainVariables_idem (vs : List EnvironmentVariable) :
    plainVariables (plainVariables vs) = plainVariables vs := by
  simp [plainVariables]

theorem reparent_eq {known : List String} {place : Option String}
    (h : ∀ id, place = some id → id ∈ known) : reparent known place = place := by
  cases place with
  | none => rfl
  | some id => simp [reparent, h id rfl]

section
variable {wid : String} {b : Bundle}

theorem folderIds_workspaceDoc (b : Bundle) :
    (workspaceDoc b).folderIds = b.folders.map (·.id) := by
  simp [VoleeoWorkspace.folderIds, workspaceDoc, plainFolder]

theorem Bundle.WellFormed.reparent_eq (h : b.WellFormed) {place : Option String}
    (hplace : place ∈ b.places) : reparent (workspaceDoc b).folderIds place = place := by
  rw [folderIds_workspaceDoc]
  exact Imports.reparent_eq (h.links place hplace)

/-- The import adds nothing but the workspace to what the export wrote. -/
theorem Bundle.WellFormed.restoredFiles_eq (h : b.WellFormed) :
    restoredFiles wid (workspaceDoc b) =
      .workspace (movedWorkspace wid b.workspace) ::
        (b.folders.map fun f => .folder (movedFolder wid f)) ++
        (b.requests.map fun r => .request (movedRequest wid r)) ++
        (b.ws.map fun c => .connection (movedConnection wid c)) ++
        b.grpc.map fun g => .grpc (movedGrpc wid g) := by
  have hplaces : b.places = b.folders.map (·.folderId) ++ b.requests.map (·.folderId) ++
      b.ws.map (·.folderId) ++ b.grpc.map (·.folderId) := rfl
  have hfolders : ∀ f ∈ b.folders, File.folder
      (restoredFolder wid (workspaceDoc b).folderIds (plainFolder f)) =
      .folder (movedFolder wid f) := by
    intro f hf
    have hplace : f.folderId ∈ b.places := by
      simp only [hplaces, List.mem_append, List.mem_map]
      exact .inl (.inl (.inl ⟨f, hf, rfl⟩))
    simp [restoredFolder, movedFolder, plainFolder, h.reparent_eq hplace]
  have hrequests : ∀ r ∈ b.requests, File.request
      (restoredRequest wid (workspaceDoc b).folderIds (plainRequest r)) =
      .request (movedRequest wid r) := by
    intro r hr
    have hplace : r.folderId ∈ b.places := by
      simp only [hplaces, List.mem_append, List.mem_map]
      exact .inl (.inl (.inr ⟨r, hr, rfl⟩))
    simp [restoredRequest, movedRequest, plainRequest, h.reparent_eq hplace]
  have hconnections : ∀ c ∈ b.ws, File.connection
      (restoredConnection wid (workspaceDoc b).folderIds (plainConnection c)) =
      .connection (movedConnection wid c) := by
    intro c hc
    have hplace : c.folderId ∈ b.places := by
      simp only [hplaces, List.mem_append, List.mem_map]
      exact .inl (.inr ⟨c, hc, rfl⟩)
    simp [restoredConnection, movedConnection, plainConnection, h.reparent_eq hplace]
  have hgrpc : ∀ g ∈ b.grpc, File.grpc
      (restoredGrpc wid (workspaceDoc b).folderIds (plainGrpc g)) = .grpc (movedGrpc wid g) := by
    intro g hg
    have hplace : g.folderId ∈ b.places := by
      simp only [hplaces, List.mem_append, List.mem_map]
      exact .inr ⟨g, hg, rfl⟩
    simp [restoredGrpc, movedGrpc, plainGrpc, h.reparent_eq hplace]
  have hworkspace : restoredWorkspace wid (plainWorkspace b.workspace) =
      movedWorkspace wid b.workspace := by
    simp [restoredWorkspace, movedWorkspace, plainWorkspace]
  rw [restoredFiles, ← List.map_congr_left hfolders, ← List.map_congr_left hrequests,
    ← List.map_congr_left hconnections, ← List.map_congr_left hgrpc, ← hworkspace]
  generalize (workspaceDoc b).folderIds = known
  simp only [workspaceDoc, List.map_map, Function.comp_def]

theorem restoredEnvironment_plain (e : Environment) :
    restoredEnvironment wid (plainEnvironment e) = movedEnvironment wid e := by
  simp [restoredEnvironment, movedEnvironment, plainEnvironment]

/-- The files of the new workspace have different paths. -/
theorem Bundle.WellFormed.nodup_paths (h : b.WellFormed) :
    ((restoredFiles wid (workspaceDoc b)).map File.path).Nodup := by
  have hkind : ∀ kind (ids : List String), ids.Nodup →
      (ids.map fun id => (wid, (kind : FileKind), id)).Nodup := fun kind ids hids =>
    hids.map fun id id' heq => by simpa using heq
  have hpaths : (restoredFiles wid (workspaceDoc b)).map File.path =
      (wid, .workspace, "") :: ((b.folders.map (·.id)).map fun id => (wid, .folder, id)) ++
        ((b.requests.map (·.id)).map fun id => (wid, .request, id)) ++
        ((b.ws.map (·.id)).map fun id => (wid, .connection, id)) ++
        (b.grpc.map (·.id)).map fun id => (wid, .grpc, id) := by
    rw [h.restoredFiles_eq]
    simp only [List.map_cons, List.map_append, List.map_map, Function.comp_def]
    rfl
  rw [hpaths]
  simp only [List.cons_append, List.nodup_cons, List.nodup_append, List.mem_append, List.mem_map]
  refine ⟨?_, ⟨⟨hkind _ _ h.folders.1, hkind _ _ h.requests.1, ?_⟩,
    hkind _ _ h.connections.1, ?_⟩, hkind _ _ h.grpc.1, ?_⟩
  · simp
  · rintro - ⟨id, -, rfl⟩ - ⟨id', -, rfl⟩ heq
    simp at heq
  · rintro - (⟨id, -, rfl⟩ | ⟨id, -, rfl⟩) - ⟨id', -, rfl⟩ heq
    · simp at heq
    · simp at heq
  · rintro - ((⟨id, -, rfl⟩ | ⟨id, -, rfl⟩) | ⟨id, -, rfl⟩) - ⟨id', -, rfl⟩ heq
    · simp at heq
    · simp at heq
    · simp at heq

/-! ## What lies in the new workspace -/

/-- No file lies in the workspace but its own. -/
def Fresh (d : Disk) (wid : String) : Prop :=
  ∀ x, d.Has x → x.workspaceId = wid → x.name.1 = .workspace

variable {d : Disk}

theorem has_saved {e : Environment} {y : File}
    (hy : y.name.1 ≠ .sharedEnvironment ∧ y.name.1 ≠ .localEnvironment) :
    (d.saved e).Has y ↔ d.Has y := by
  have hkind : (environmentFile e).name.1 = .sharedEnvironment ∨
      (environmentFile e).name.1 = .localEnvironment := by
    rw [environmentFile]
    split_ifs
    · exact .inl rfl
    · exact .inr rfl
  have hstale : (staleName e).1 = .sharedEnvironment ∨ (staleName e).1 = .localEnvironment := by
    rw [staleName]
    split_ifs
    · exact .inr rfl
    · exact .inl rfl
  have hput : (d.put (environmentFile e)).Has y ↔ d.Has y := by
    rw [Disk.has_put]
    refine ⟨?_, fun h => .inr ⟨h, fun heq => ?_⟩⟩
    · rintro (rfl | ⟨h, -⟩)
      · exact absurd hkind (by simp [hy])
      · exact h
    · rw [← show y.name = (environmentFile e).name from congrArg Prod.snd heq] at hkind
      exact absurd hkind (by simp [hy])
  rw [Disk.saved]
  split_ifs
  · rw [Disk.withoutStale, Disk.has_keep, hput, decide_eq_true_iff, and_iff_left_iff_imp]
    intro _ heq
    rw [← show y.name = staleName e from congrArg Prod.snd heq] at hstale
    exact absurd hstale (by simp [hy])
  · exact hput

theorem has_savedAll {es : List Environment} {y : File}
    (hy : y.name.1 ≠ .sharedEnvironment ∧ y.name.1 ≠ .localEnvironment) :
    (d.savedAll es).Has y ↔ d.Has y := by
  induction es generalizing d with
  | nil => rfl
  | cons e es ih => exact ih.trans (has_saved hy)

/-- The items of the new workspace are those of the bundle. -/
theorem has_restoredDisk (h : b.WellFormed) (hfresh : Fresh d wid) {y : File}
    (hy : y.name.1 ≠ .sharedEnvironment ∧ y.name.1 ≠ .localEnvironment)
    (hws : y.workspaceId = wid) :
    (restoredDisk d wid (workspaceDoc b)).Has y ↔ y ∈ restoredFiles wid (workspaceDoc b) := by
  rw [restoredDisk, has_savedAll hy]
  refine ⟨fun hhas => ?_, Disk.has_putAll_of_mem h.nodup_paths⟩
  rcases Disk.has_putAll_cases hhas with hmem | ⟨hd, hne⟩
  · exact hmem
  · have hkind := hfresh y hd hws
    have hfirst : File.workspace (movedWorkspace wid b.workspace) ∈
        restoredFiles wid (workspaceDoc b) := by
      rw [h.restoredFiles_eq]
      simp
    cases y with
    | workspace w =>
      have hpath : (File.workspace w).path =
          (File.workspace (movedWorkspace wid b.workspace)).path := Prod.ext hws rfl
      exact absurd hpath (hne _ hfirst)
    | _ => cases hkind

theorem mem_mergedEnvironments {ws : String} {e : Environment} :
    e ∈ mergedEnvironments d ws ↔ d.environment? (ws, e.id) = some e := by
  have hfind : ∀ s : Records environmentKey,
      s.find? (ws, e.id) = some e ↔ e ∈ s.toList ∧ e.workspaceId = ws := by
    intro s
    rw [Records.find?_eq_some_iff, environmentKey, Prod.mk.injEq, and_iff_left rfl]
  have hnone : d.sharedEnvironments.find? (ws, e.id) = none ↔
      ∀ e' ∈ d.sharedEnvironments.toList.filter fun e' => e'.workspaceId = ws, e'.id ≠ e.id := by
    rw [Records.find?_eq_none_iff]
    simp only [List.mem_filter, decide_eq_true_eq, environmentKey, ne_eq, Prod.mk.injEq, not_and,
      and_imp]
  rw [mergedEnvironments, Disk.environment?, List.mem_append, List.mem_filter, List.mem_filter,
    decide_eq_true_eq, decide_eq_true_eq, Option.or_eq_some_iff, hfind, hfind, hnone]
  tauto

theorem Fresh.noEnvironments (hfresh : Fresh d wid) : NoEnvironments d wid := by
  intro shared id
  rw [Records.find?_eq_none_iff]
  intro e he hkey
  have hws : e.workspaceId = wid := congrArg Prod.fst hkey
  cases shared with
  | true => exact absurd (hfresh (.sharedEnvironment e) he hws) nofun
  | false => exact absurd (hfresh (.localEnvironment e) he hws) nofun

/-- The environment of an id is the only one that was saved under it. -/
theorem environment?_restoredDisk (hfresh : Fresh d wid) (id : String) :
    (restoredDisk d wid (workspaceDoc b)).environment? (wid, id) =
      (b.environments.map (movedEnvironment wid)).reverse.find? fun e =>
        environmentKey e = (wid, id) := by
  have hbase : NoEnvironments (d.putAll (restoredFiles wid (workspaceDoc b))) wid :=
    hfresh.noEnvironments.putAll fun x hx => restoredFiles_name hx
  have hmoved : (workspaceDoc b).environments.map (restoredEnvironment wid) =
      b.environments.map (movedEnvironment wid) := by
    simp only [workspaceDoc, List.map_map, Function.comp_def, restoredEnvironment_plain]
  rw [environment?_eq, restoredDisk, hmoved, Disk.find?_environments_savedAll,
    Disk.find?_environments_savedAll]
  cases (b.environments.map (movedEnvironment wid)).reverse.find? fun e =>
      environmentKey e = (wid, id) with
  | none => simp [hbase true id, hbase false id]
  | some e => cases hshared : e.shared <;> simp [hshared]

/-- An environment of the new workspace is one of the bundle. -/
theorem mem_merged_restoredDisk (h : b.WellFormed) (hfresh : Fresh d wid) {e : Environment} :
    e ∈ mergedEnvironments (restoredDisk d wid (workspaceDoc b)) wid ↔
      e ∈ b.environments.map (movedEnvironment wid) := by
  have hkey : ∀ e ∈ b.environments.map (movedEnvironment wid), environmentKey e = (wid, e.id) := by
    simp only [List.forall_mem_map]
    exact fun _ _ => rfl
  have hids : ((b.environments.map (movedEnvironment wid)).map (·.id)).Nodup := by
    rw [List.map_map]
    exact h.environments.1
  rw [mem_mergedEnvironments, environment?_restoredDisk hfresh]
  constructor
  · intro hfind
    exact List.mem_reverse.mp (List.mem_of_find?_eq_some hfind)
  · intro he
    have hsome : ((b.environments.map (movedEnvironment wid)).reverse.find? fun e' =>
        environmentKey e' = (wid, e.id)).isSome := by
      rw [List.find?_isSome]
      exact ⟨e, List.mem_reverse.mpr he, decide_eq_true (hkey e he)⟩
    obtain ⟨e', hfind⟩ := Option.isSome_iff_exists.mp hsome
    have he' := List.mem_reverse.mp (List.mem_of_find?_eq_some hfind)
    have hsame : environmentKey e' = (wid, e.id) := by simpa using List.find?_some hfind
    rw [hkey e' he'] at hsame
    rw [hfind, List.inj_on_of_nodup_map hids he' he (congrArg Prod.snd hsame)]

/-- Records that are told apart by their ids, as they are in the new workspace. -/
theorem perm_moved {α β κ : Type} [DecidableEq κ] {key : β → κ} {s : Records key} {p : β → Bool}
    {moved : α → β} {i : β → String} {l : List α} (hids : (l.map fun a => i (moved a)).Nodup)
    (hs : ∀ x, p x = true → (x ∈ s.toList ↔ x ∈ l.map moved))
    (hp : ∀ a ∈ l, p (moved a) = true) : (s.toList.filter p).Perm (l.map moved) := by
  have hl : (l.map moved).Nodup := by
    refine List.Nodup.of_map i ?_
    rwa [List.map_map]
  rw [List.perm_ext_iff_of_nodup (s.nodup.of_map.filter p) hl]
  intro x
  rw [List.mem_filter]
  refine ⟨fun ⟨hx, hpx⟩ => (hs x hpx).mp hx, fun hx => ?_⟩
  obtain ⟨a, ha, rfl⟩ := List.mem_map.mp hx
  exact ⟨(hs _ (hp a ha)).mpr hx, hp a ha⟩

/-! What the lists of the new workspace are made of. -/

theorem perm_folders (h : b.WellFormed) (hfresh : Fresh d wid) :
    ((restoredDisk d wid (workspaceDoc b)).store.folders.toList.filter
      fun f => f.workspaceId = wid).Perm (b.folders.map (movedFolder wid)) := by
  refine perm_moved (i := (·.id)) h.folders.1 (fun f hf => ?_) fun _ _ => decide_eq_true rfl
  have hhas := has_restoredDisk h hfresh (y := .folder f) ⟨nofun, nofun⟩ (of_decide_eq_true hf)
  rw [h.restoredFiles_eq] at hhas
  simpa [Disk.Has] using hhas

theorem perm_requests (h : b.WellFormed) (hfresh : Fresh d wid) :
    ((restoredDisk d wid (workspaceDoc b)).store.requests.toList.filter
      fun r => r.workspaceId = wid).Perm (b.requests.map (movedRequest wid)) := by
  refine perm_moved (i := (·.id)) h.requests.1 (fun r hr => ?_) fun _ _ => decide_eq_true rfl
  have hhas := has_restoredDisk h hfresh (y := .request r) ⟨nofun, nofun⟩ (of_decide_eq_true hr)
  rw [h.restoredFiles_eq] at hhas
  simpa [Disk.Has] using hhas

theorem perm_connections (h : b.WellFormed) (hfresh : Fresh d wid) :
    ((restoredDisk d wid (workspaceDoc b)).connections.toList.filter
      fun c => c.workspaceId = wid).Perm (b.ws.map (movedConnection wid)) := by
  refine perm_moved (i := (·.id)) h.connections.1 (fun c hc => ?_) fun _ _ => decide_eq_true rfl
  have hhas := has_restoredDisk h hfresh (y := .connection c) ⟨nofun, nofun⟩ (of_decide_eq_true hc)
  rw [h.restoredFiles_eq] at hhas
  simpa [Disk.Has] using hhas

theorem perm_grpc (h : b.WellFormed) (hfresh : Fresh d wid) :
    ((restoredDisk d wid (workspaceDoc b)).grpcRequests.toList.filter
      fun g => g.workspaceId = wid).Perm (b.grpc.map (movedGrpc wid)) := by
  refine perm_moved (i := (·.id)) h.grpc.1 (fun g hg => ?_) fun _ _ => decide_eq_true rfl
  have hhas := has_restoredDisk h hfresh (y := .grpc g) ⟨nofun, nofun⟩ (of_decide_eq_true hg)
  rw [h.restoredFiles_eq] at hhas
  simpa [Disk.Has] using hhas

theorem perm_environments (h : b.WellFormed) (hfresh : Fresh d wid) :
    (mergedEnvironments (restoredDisk d wid (workspaceDoc b)) wid).Perm
      (b.environments.map (movedEnvironment wid)) := by
  have hids : ((b.environments.map (movedEnvironment wid)).map (·.id)).Nodup := by
    rw [List.map_map]
    exact h.environments.1
  rw [List.perm_ext_iff_of_nodup (nodup_merged _ _).of_map hids.of_map]
  exact fun e => mem_merged_restoredDisk h hfresh

theorem find?_workspace_restoredDisk (h : b.WellFormed) (hfresh : Fresh d wid) :
    (restoredDisk d wid (workspaceDoc b)).workspaces.find? wid =
      some (movedWorkspace wid b.workspace) := by
  have hhas := has_restoredDisk h hfresh (y := .workspace (movedWorkspace wid b.workspace))
    ⟨nofun, nofun⟩ rfl
  rw [h.restoredFiles_eq] at hhas
  exact Records.find?_eq_some_iff.mpr ⟨hhas.mpr (by simp), rfl⟩

/-! ## Reading it back -/

/-- The stores read the contents of the bundle in the workspace, in some order. -/
structure ReadsBack (m : Machine) (d : Disk) (wid : String) (b : Bundle) : Prop where
  workspace : (getWorkspace m wid d).1 = .ok (movedWorkspace wid b.workspace)
  folders : ∃ l, (onWorld (listFolders m.toEnv wid) d).1 = .ok l ∧
    l.Perm (b.folders.map (movedFolder wid))
  requests : ∃ l, (onWorld (listRequests m.toEnv wid) d).1 = .ok l ∧
    l.Perm (b.requests.map (movedRequest wid))
  connections : ∃ l, (listConnections m wid d).1 = .ok l ∧
    l.Perm (b.ws.map (movedConnection wid))
  grpc : ∃ l, (listGrpc m wid d).1 = .ok l ∧ l.Perm (b.grpc.map (movedGrpc wid))
  environments : ∃ l, (listEnvironments m wid d).1 = .ok l ∧
    l.Perm (b.environments.map (movedEnvironment wid))

variable {m : Machine}

theorem readsBack_restoredDisk (hquiet : ∀ t, m.fault t = none) (h : b.WellFormed)
    (hwid : validateId wid = .ok ()) (hfresh : Fresh d wid) :
    ReadsBack m (restoredDisk d wid (workspaceDoc b)) wid b where
  workspace := getWorkspace_quiet hquiet hwid (find?_workspace_restoredDisk h hfresh)
  folders := (listFolders_quiet hquiet hwid _).imp fun _ hl =>
    ⟨hl.1, hl.2.trans (perm_folders h hfresh)⟩
  requests := (listRequests_quiet hquiet hwid _).imp fun _ hl =>
    ⟨hl.1, hl.2.trans (perm_requests h hfresh)⟩
  connections := (listConnections_quiet hquiet hwid _).imp fun _ hl =>
    ⟨hl.1, hl.2.trans (perm_connections h hfresh)⟩
  grpc := (listGrpc_quiet hquiet hwid _).imp fun _ hl =>
    ⟨hl.1, hl.2.trans (perm_grpc h hfresh)⟩
  environments := (listEnvironments_quiet hquiet hwid _).imp fun _ hl =>
    ⟨hl.1, hl.2.trans (perm_environments h hfresh)⟩

/-! ## Writing it -/

/-- Files that are written one after another, as the loops of the import do. -/
theorem writeVoleeoWorkspace_quiet (hquiet : ∀ t, m.fault t = none) (h : b.WellFormed)
    (hwid : validateId wid = .ok ()) (d : Disk) :
    ∃ n, writeVoleeoWorkspace m wid (workspaceDoc b) d =
      (.ok (countsOf (workspaceDoc b)), restoredDisk (d.later n) wid (workspaceDoc b)) := by
  have hfolders : ∀ f ∈ (workspaceDoc b).folders.map
      (restoredFolder wid (workspaceDoc b).folderIds),
      validateId f.workspaceId = .ok () ∧ validateId f.id = .ok () := by
    simp only [workspaceDoc, List.map_map, List.forall_mem_map]
    exact fun f hf => ⟨hwid, h.folders.2 f hf⟩
  have hrequests : ∀ r ∈ (workspaceDoc b).requests.map
      (restoredRequest wid (workspaceDoc b).folderIds),
      validateId r.workspaceId = .ok () ∧ validateId r.id = .ok () := by
    simp only [workspaceDoc, List.map_map, List.forall_mem_map]
    exact fun r hr => ⟨hwid, h.requests.2 r hr⟩
  have hconnections : ∀ c ∈ (workspaceDoc b).websockets, validateId c.id = .ok () := by
    simp only [workspaceDoc, List.forall_mem_map]
    exact h.connections.2
  have hgrpc : ∀ g ∈ (workspaceDoc b).grpc, validateId g.id = .ok () := by
    simp only [workspaceDoc, List.forall_mem_map]
    exact h.grpc.2
  have henvironments : ∀ e ∈ (workspaceDoc b).environments, validateId e.id = .ok () := by
    simp only [workspaceDoc, List.forall_mem_map]
    exact h.environments.2
  generalize workspaceDoc b = vw at *
  have h₀ : saveWorkspace m (restoredWorkspace wid vw.workspace) d =
      (.ok (), (d.later 2).putAll [.workspace (restoredWorkspace wid vw.workspace)]) :=
    saveWorkspace_quiet hquiet hwid d
  obtain ⟨n₁, h₁⟩ := writeBulk_quiet hquiet hfolders hrequests
    ((d.later 2).putAll [.workspace (restoredWorkspace wid vw.workspace)])
  rw [Disk.putAll_later_putAll, List.map_map, List.map_map] at h₁
  obtain ⟨n₂, h₂⟩ := forM_quiet
    (f := fun c => .connection (restoredConnection wid vw.folderIds c))
    (fun c hc => saveConnection_quiet hquiet hwid (hconnections c hc))
    ((d.later (2 + n₁)).putAll ([.workspace (restoredWorkspace wid vw.workspace)] ++
      (vw.folders.map (File.folder ∘ restoredFolder wid vw.folderIds) ++
        vw.requests.map (File.request ∘ restoredRequest wid vw.folderIds))))
  rw [Disk.putAll_later_putAll] at h₂
  obtain ⟨n₃, h₃⟩ := forM_quiet
    (f := fun g => .grpc (restoredGrpc wid vw.folderIds g))
    (fun g hg => saveGrpc_quiet hquiet hwid (hgrpc g hg))
    ((d.later (2 + n₁ + n₂)).putAll ([.workspace (restoredWorkspace wid vw.workspace)] ++
      (vw.folders.map (File.folder ∘ restoredFolder wid vw.folderIds) ++
        vw.requests.map (File.request ∘ restoredRequest wid vw.folderIds)) ++
      vw.websockets.map fun c => .connection (restoredConnection wid vw.folderIds c)))
  rw [Disk.putAll_later_putAll, append_restoredFiles] at h₃
  have hvalid : ∀ e ∈ vw.environments, validateId (restoredEnvironment wid e).workspaceId = .ok () ∧
      validateId (restoredEnvironment wid e).id = .ok () := fun e he => ⟨hwid, henvironments e he⟩
  obtain ⟨n₄, h₄⟩ := saveEnvironments_quiet hquiet hvalid
    ((d.later (2 + n₁ + n₂ + n₃)).putAll (restoredFiles wid vw))
  rw [Disk.putAll_later, Disk.later_later] at h₄
  refine ⟨2 + n₁ + n₂ + n₃ + n₄, ?_⟩
  rw [writeVoleeoWorkspace, Fallible.bind_eq_ok h₀, Fallible.bind_eq_ok h₁,
    Fallible.bind_eq_ok h₂, Fallible.bind_eq_ok h₃, Fallible.bind_eq_ok h₄]
  rfl

/-- No link is dropped. -/
theorem Bundle.WellFormed.warnings_eq (h : b.WellFormed) :
    (countsOf (workspaceDoc b)).warnings = [] := by
  have hplaces : (workspaceDoc b).places = b.places := by
    simp only [VoleeoWorkspace.places, Bundle.places, workspaceDoc, List.map_map]
    rfl
  have hdangling : (workspaceDoc b).places.countP
      (fun place => (reparent (workspaceDoc b).folderIds place).isNone && place.isSome) = 0 := by
    rw [hplaces, List.countP_eq_zero]
    intro place hplace
    rw [h.reparent_eq hplace]
    cases place <;> simp
  rw [countsOf, hdangling]
  rfl

/-- The import into any fresh workspace succeeds, and the bundle is then read there. -/
def Restores (m : Machine) (b : Bundle) (vw : VoleeoWorkspace) : Prop :=
  ∀ (d : Disk) (wid : String), validateId wid = .ok () → Fresh d wid →
    ∃ counts d', writeVoleeoWorkspace m wid vw d = (.ok counts, d') ∧ counts.warnings = [] ∧
      ReadsBack m d' wid b

theorem restores_workspaceDoc (hquiet : ∀ t, m.fault t = none) (h : b.WellFormed) :
    Restores m b (workspaceDoc b) := by
  intro d wid hwid hfresh
  obtain ⟨n, hrun⟩ := writeVoleeoWorkspace_quiet hquiet h hwid d
  exact ⟨_, _, hrun, h.warnings_eq, readsBack_restoredDisk hquiet h hwid hfresh⟩

def exportedRequest : HttpRequest :=
  { loginRequest with folderId := some "f1", auth := .bearer ⟨"s3cret", true, true⟩ }

def exportedEnvironment : Environment :=
  { newPersonal "e1" "ws1" "" "Dev" "" true with
    «variables» := [⟨"token", "s3cret", true, true⟩] }

def exportedBundle : Bundle where
  workspace := newWorkspace "ws1" "" "Api" true
  folders := [authFolder]
  requests := [exportedRequest]
  ws := []
  grpc := []
  environments := [exportedEnvironment]

theorem wellFormed_exportedBundle : exportedBundle.WellFormed where
  folders := ⟨List.nodup_singleton _, List.forall_mem_singleton.mpr (by decide)⟩
  requests := ⟨List.nodup_singleton _, List.forall_mem_singleton.mpr (by decide)⟩
  connections := ⟨List.nodup_nil, fun _ hc => absurd hc List.not_mem_nil⟩
  grpc := ⟨List.nodup_nil, fun _ hg => absurd hg List.not_mem_nil⟩
  environments := ⟨List.nodup_singleton _, List.forall_mem_singleton.mpr (by decide)⟩
  links := by decide

end

end Voleeo.Imports
