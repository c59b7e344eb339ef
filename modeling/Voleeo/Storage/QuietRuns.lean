import Voleeo.Storage.EnvironmentRuns

/-!
# The stores without faults

When no call to the file system fails, a save succeeds and leaves its file, and a list
holds what lies in its directory.
-/
namespace Voleeo.Storage

variable {m : Machine} (hquiet : ∀ t, m.fault t = none) {ws id : String}
include hquiet

theorem call_quiet (d : Disk) : call m d = (.ok (), d.later 1) := by
  rw [call, onWorld, Fallible.zoom, fileSystem_run, hquiet]
  rfl

theorem createDir_quiet (hws : validateId ws = .ok ()) (d : Disk) :
    createDir m ws d = (.ok (), d.later 1) := by
  rw [createDir, workspaceDir, hws]
  exact call_quiet hquiet d

theorem writeFile_quiet (x : File) (d : Disk) : writeFile m x d = (.ok (), (d.later 1).put x) := by
  rw [writeFile, Fallible.bind_eq_ok (call_quiet hquiet d)]
  rfl

/-! ## Saving -/

theorem saveWorkspace_quiet {w : Workspace} (hid : validateId w.id = .ok ()) (d : Disk) :
    saveWorkspace m w d = (.ok (), (d.later 2).put (.workspace w)) := by
  rw [saveWorkspace, Fallible.bind_eq_ok (createDir_quiet hquiet hid d),
    Fallible.bind_eq_ok (validate_run hid), writeFile_quiet hquiet, Disk.later_later]

/-- A file below its workspace, as folders and requests are written. -/
theorem writeItem_quiet (hws : validateId ws = .ok ()) (hid : validateId id = .ok ()) (x : File)
    (d : Disk) :
    (createDir m ws >>= fun _ => validate id >>= fun _ => writeFile m x) d =
      (.ok (), (d.later 2).put x) := by
  rw [Fallible.bind_eq_ok (createDir_quiet hquiet hws d), Fallible.bind_eq_ok (validate_run hid),
    writeFile_quiet hquiet, Disk.later_later]

theorem saveConnection_quiet {c : WsConnection} (hws : validateId c.workspaceId = .ok ())
    (hid : validateId c.id = .ok ()) (d : Disk) :
    saveConnection m c d = (.ok (), (d.later 2).put (.connection c)) := by
  rw [saveConnection, Fallible.bind_eq_ok (createDir_quiet hquiet hws d),
    Fallible.bind_eq_ok (validate_run hws), Fallible.bind_eq_ok (validate_run hid),
    writeFile_quiet hquiet, Disk.later_later]

theorem saveGrpc_quiet {g : GrpcRequest} (hws : validateId g.workspaceId = .ok ())
    (hid : validateId g.id = .ok ()) (d : Disk) :
    saveGrpc m g d = (.ok (), (d.later 2).put (.grpc g)) := by
  rw [saveGrpc, Fallible.bind_eq_ok (createDir_quiet hquiet hws d),
    Fallible.bind_eq_ok (validate_run hws), Fallible.bind_eq_ok (validate_run hid),
    writeFile_quiet hquiet, Disk.later_later]

omit hquiet in
/-- A loop that writes one file for each element. -/
theorem forM_quiet {γ : Type} {g : γ → OnDisk PUnit} {f : γ → File} {xs : List γ}
    (h : ∀ x ∈ xs, ∀ d, g x d = (.ok (), (d.later 2).put (f x))) (d : Disk) :
    ∃ n, xs.forM g d = (.ok (), (d.later n).putAll (xs.map f)) := by
  induction xs generalizing d with
  | nil => exact ⟨0, rfl⟩
  | cons x xs ih =>
    obtain ⟨hx, hxs⟩ := List.forall_mem_cons.mp h
    obtain ⟨n, hrest⟩ := ih hxs ((d.later 2).put (f x))
    refine ⟨2 + n, (Fallible.bind_eq_ok (hx d)).trans (hrest.trans ?_)⟩
    rw [Disk.put_later, Disk.later_later]
    rfl

theorem writeBulk_quiet {folders : List ApiFolder} {requests : List HttpRequest}
    (hfolders : ∀ f ∈ folders, validateId f.workspaceId = .ok () ∧ validateId f.id = .ok ())
    (hrequests : ∀ r ∈ requests, validateId r.workspaceId = .ok () ∧ validateId r.id = .ok ())
    (d : Disk) :
    ∃ n, writeBulk m folders requests d =
      (.ok (), (d.later n).putAll (folders.map .folder ++ requests.map .request)) := by
  obtain ⟨n, hn⟩ := forM_quiet (f := .folder) (fun f hf => writeItem_quiet hquiet
    (hfolders f hf).1 (hfolders f hf).2 (.folder f)) d
  obtain ⟨k, hk⟩ := forM_quiet (f := .request) (fun r hr => writeItem_quiet hquiet
    (hrequests r hr).1 (hrequests r hr).2 (.request r)) ((d.later n).putAll (folders.map .folder))
  refine ⟨n + k, ?_⟩
  rw [writeBulk, Fallible.bind_eq_ok hn, hk, Disk.putAll_later_putAll]

theorem saveEnvironment_quiet {e : Environment} (hws : validateId e.workspaceId = .ok ())
    (hid : validateId e.id = .ok ()) (d : Disk) :
    ∃ n, saveEnvironment m e d = (.ok (), (d.later n).saved e) := by
  have hstale : staleFile ((d.later 2).put (environmentFile e)) e = staleFile d e :=
    Disk.staleFile_put _ _
  have hlater : ∀ n, staleFile (d.later n) e = staleFile d e := fun _ => rfl
  rw [saveEnvironment, Fallible.bind_eq_ok (validate_run hws),
    Fallible.bind_eq_ok (validate_run hid), Fallible.bind_eq_ok (createDir_quiet hquiet hws d),
    Fallible.bind_eq_ok (writeFile_quiet hquiet _ _), Disk.later_later,
    Fallible.bind_eq_ok (Fallible.get_apply _), hstale]
  cases hsome : (staleFile d e).isSome with
  | true =>
    refine ⟨3, ?_⟩
    rw [if_pos rfl, Fallible.bind_eq_ok (call_quiet hquiet _), Disk.put_later, Disk.later_later,
      Disk.saved, hlater, if_pos hsome]
    rfl
  | false =>
    refine ⟨2, ?_⟩
    rw [if_neg Bool.false_ne_true, Disk.saved, hlater, hsome, if_neg Bool.false_ne_true]
    rfl

/-- A loop that saves one environment for each element. -/
theorem saveEnvironments_quiet {γ : Type} {env : γ → Environment} {xs : List γ}
    (h : ∀ x ∈ xs, validateId (env x).workspaceId = .ok () ∧ validateId (env x).id = .ok ())
    (d : Disk) :
    ∃ n, (xs.forM fun x => saveEnvironment m (env x)) d =
      (.ok (), (d.later n).savedAll (xs.map env)) := by
  induction xs generalizing d with
  | nil => exact ⟨0, rfl⟩
  | cons x xs ih =>
    obtain ⟨hx, hxs⟩ := List.forall_mem_cons.mp h
    obtain ⟨n, hn⟩ := saveEnvironment_quiet hquiet hx.1 hx.2 d
    obtain ⟨k, hk⟩ := ih hxs ((d.later n).saved (env x))
    refine ⟨n + k, (Fallible.bind_eq_ok hn).trans (hk.trans ?_)⟩
    rw [Disk.saved_later, Disk.later_later]
    rfl

/-! ## Reading -/

theorem getWorkspace_quiet (hws : validateId ws = .ok ()) {d : Disk} {w : Workspace}
    (hw : d.workspaces.find? ws = some w) : (getWorkspace m ws d).1 = .ok w := by
  rw [getWorkspace_run hws, hquiet, hw]

/-- What is listed is what lies there, in some order. -/
theorem listSorted_quiet {α κ : Type} [LinearOrder κ] (items : Disk → List α) (key : α → κ)
    (d : Disk) : ∃ l, (listSorted m items key d).1 = .ok l ∧ l.Perm (items (d.later 1)) := by
  have hask : ∀ d : Disk, onWorld (ask fun t => m.readDir t (items (d.later 1))) (d.later 1) =
      (.ok (m.readDir (d.tick + 1) (items (d.later 1))), (d.later 1).later 1) := fun _ => rfl
  refine ⟨sortBy key (m.readDir (d.tick + 1) (items (d.later 1))), ?_, ?_⟩
  · rw [listSorted, Fallible.bind_eq_ok (call_quiet hquiet d),
      Fallible.bind_eq_ok (Fallible.get_apply _), Fallible.bind_eq_ok (hask d)]
    rfl
  · exact (sortBy_perm key _).trans (m.readDir_perm _ _)

/-- A list of a workspace, after its directory is made sure of. -/
theorem listItems_quiet {α κ : Type} [LinearOrder κ] (items : Disk → List α) (key : α → κ)
    (hws : validateId ws = .ok ()) (d : Disk) (hlater : ∀ n, items (d.later n) = items d) :
    ∃ l, ((createDir m ws >>= fun _ => listSorted m items key) d).1 = .ok l ∧ l.Perm (items d) := by
  obtain ⟨l, hl, hperm⟩ := listSorted_quiet hquiet items key (d.later 1)
  rw [Fallible.bind_eq_ok (createDir_quiet hquiet hws d)]
  refine ⟨l, hl, ?_⟩
  rwa [Disk.later_later, hlater] at hperm

theorem listFolders_quiet (hws : validateId ws = .ok ()) (d : Disk) :
    ∃ l, (onWorld (listFolders m.toEnv ws) d).1 = .ok l ∧
      l.Perm (d.store.folders.toList.filter fun f => f.workspaceId = ws) := by
  have hlist : onWorld (listFolders m.toEnv ws) = createDir m ws >>= fun _ => listSorted m
      (fun d => d.store.folders.toList.filter fun f => f.workspaceId = ws)
      fun f => toLex (f.order, f.createdAt) := by
    simp only [listFolders, onWorld_bind]
    rfl
  rw [hlist]
  exact listItems_quiet hquiet _ _ hws d fun _ => rfl

theorem listRequests_quiet (hws : validateId ws = .ok ()) (d : Disk) :
    ∃ l, (onWorld (listRequests m.toEnv ws) d).1 = .ok l ∧
      l.Perm (d.store.requests.toList.filter fun r => r.workspaceId = ws) := by
  have hlist : onWorld (listRequests m.toEnv ws) = createDir m ws >>= fun _ => listSorted m
      (fun d => d.store.requests.toList.filter fun r => r.workspaceId = ws)
      fun r => toLex (r.order, r.createdAt) := by
    simp only [listRequests, onWorld_bind]
    rfl
  rw [hlist]
  exact listItems_quiet hquiet _ _ hws d fun _ => rfl

theorem listConnections_quiet (hws : validateId ws = .ok ()) (d : Disk) :
    ∃ l, (listConnections m ws d).1 = .ok l ∧
      l.Perm (d.connections.toList.filter fun c => c.workspaceId = ws) :=
  listItems_quiet hquiet _ _ hws d fun _ => rfl

theorem listGrpc_quiet (hws : validateId ws = .ok ()) (d : Disk) :
    ∃ l, (listGrpc m ws d).1 = .ok l ∧
      l.Perm (d.grpcRequests.toList.filter fun g => g.workspaceId = ws) :=
  listItems_quiet hquiet _ _ hws d fun _ => rfl

theorem listEnvironments_quiet (hws : validateId ws = .ok ()) (d : Disk) :
    ∃ l, (listEnvironments m ws d).1 = .ok l ∧ l.Perm (mergedEnvironments d ws) := by
  obtain ⟨l, hl, hperm⟩ := listSorted_quiet hquiet (fun d => mergedEnvironments d ws)
    (fun e => toLex (kindOrder e.kind, e.createdAt)) (d.later 3)
  refine ⟨l, ?_, hperm⟩
  rw [listEnvironments, Fallible.bind_eq_ok (createDir_quiet hquiet hws d),
    Fallible.bind_eq_ok (createDir_quiet hquiet hws _), Fallible.bind_eq_ok (call_quiet hquiet _)]
  exact hl

end Voleeo.Storage
