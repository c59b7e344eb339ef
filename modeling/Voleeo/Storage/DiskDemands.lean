import Voleeo.Demands
import Voleeo.Storage.Disk

/-!
# What the operations on the disk ask for

Each operation of the stores is given by its demands and by the disk that it
leaves when they are granted: the old one, some ticks later, with files put
into it. A write is a call, and a mark where the disk is seen to have changed.
-/
namespace Voleeo.Storage
open Fallible (Asks Outcome)

/-! ## Files on the disk -/

namespace Disk

variable {d : Disk} {x y : File} {stays : File → Bool} {n k : ℕ}

theorem has_put : (d.put x).Has y ↔ y = x ∨ d.Has y ∧ y.path ≠ x.path := by
  cases x <;> cases y <;>
    simp [put, Has, File.path, File.workspaceId, File.name, Records.mem_put, folderKey, requestKey,
      connectionKey, grpcKey, environmentKey, OtherFile.key]

theorem has_keep : (d.keep stays).Has y ↔ d.Has y ∧ stays y = true := by
  cases y <;> simp [keep, Has, Records.mem_filter]

/-- A path holds one file. -/
theorem eq_of_path (hx : d.Has x) (hy : d.Has y) (h : x.path = y.path) : x = y := by
  cases x <;> cases y <;>
    simp only [File.path, File.workspaceId, File.name, Prod.mk.injEq, reduceCtorEq, false_and,
      and_false, true_and, and_true] at h
  case workspace.workspace => rw [List.inj_on_of_nodup_map d.workspaces.nodup hx hy h]
  case folder.folder =>
    rw [List.inj_on_of_nodup_map d.store.folders.nodup hx hy (Prod.ext h.1 h.2)]
  case request.request =>
    rw [List.inj_on_of_nodup_map d.store.requests.nodup hx hy (Prod.ext h.1 h.2)]
  case connection.connection =>
    rw [List.inj_on_of_nodup_map d.connections.nodup hx hy (Prod.ext h.1 h.2)]
  case grpc.grpc =>
    rw [List.inj_on_of_nodup_map d.grpcRequests.nodup hx hy (Prod.ext h.1 h.2)]
  case sharedEnvironment.sharedEnvironment =>
    rw [List.inj_on_of_nodup_map d.sharedEnvironments.nodup hx hy (Prod.ext h.1 h.2)]
  case localEnvironment.localEnvironment =>
    rw [List.inj_on_of_nodup_map d.localEnvironments.nodup hx hy (Prod.ext h.1 h.2)]
  case other.other => rw [List.inj_on_of_nodup_map d.others.nodup hx hy (Prod.ext h.1 h.2)]

@[simp] theorem has_later : (d.later n).Has y ↔ d.Has y := by
  cases y <;> simp [later, Has, World.later]

def tick (d : Disk) : ℕ := d.store.tick

@[simp] theorem tick_later : (d.later n).tick = d.tick + n := rfl

@[simp] theorem tick_put : (d.put x).tick = d.tick := by
  cases x <;> rfl

@[simp] theorem tick_keep : (d.keep stays).tick = d.tick := rfl

@[simp] theorem later_later : (d.later n).later k = d.later (n + k) := by
  simp [later]

@[simp] theorem later_zero : d.later 0 = d := rfl

theorem put_later : (d.put x).later n = (d.later n).put x := by
  cases x <;> rfl

end Disk

/-! ## Single calls -/

def refuses (env : Env) (t : ℕ) : Bool := (env.fault t).isSome

def idDemand (id : String) : Demand := .check (validateId id).isOk

/-- What is tracked of the disk does not depend on the time. -/
def Timeless (T : Bool → Disk → Prop) : Prop := ∀ b d n, T b d → T b (d.later n)

/-- The id that is drawn at the time is made of letters and digits. -/
def DrawsValid (m : Machine) (t : ℕ) : Prop := validateId (m.newId t) = .ok ()

/-- An operation on the disk, its demands, and the disk it leaves. -/
abbrev Calls {α : Type} (m : Machine) (T : Bool → Disk → Prop) (x : OnDisk α) (ds : List Demand)
    (d : Disk) (Q : α → Disk → Prop) : Prop :=
  Asks (refuses m.toEnv) (DrawsValid m) Disk.tick T x ds d Q

variable {m : Machine} {T : Bool → Disk → Prop} {d : Disk} {ws id : String}

theorem call_calls (hT : Timeless T) : Calls m T (call m) [.call] d fun _ d' => d' = d.later 1 := by
  intro _ b hb
  cases hfault : m.fault d.tick with
  | none =>
    have hrun : call m d = (.ok (), d.later 1) := by
      rw [Disk.tick] at hfault
      rw [call, onWorld, Fallible.zoom, fileSystem_run]
      simp only [hfault]
      rfl
    rw [Outcome, hrun]
    simp only [Demand.granted, Demand.marked, refuses, hfault]
    simpa using hT _ _ 1 hb
  | some message =>
    have hrun : call m d = (.error (.error (.storage message)), d.later 1) := by
      rw [Disk.tick] at hfault
      rw [call, onWorld, Fallible.zoom, fileSystem_run]
      simp only [hfault]
      rfl
    rw [Outcome, hrun]
    simp only [Demand.granted, Demand.marked, refuses, hfault]
    simpa using hT _ _ 1 hb

theorem ask_calls {α : Type} {answer : ℕ → α} (hT : Timeless T) :
    Calls m T (onWorld (ask answer)) [.draw] d fun a d' => a = answer d.tick ∧ d' = d.later 1 := by
  intro _ b hb
  change Demand.granted _ _ _ = _ ∧ _
  refine ⟨rfl, ?_, rfl, rfl⟩
  change T (b || false) (d.later 1)
  rw [Bool.or_false]
  exact hT _ _ 1 hb

theorem lift_calls {α : Type} (r : Except VoleeoError α) :
    Calls m T (onWorld (lift r)) [.check r.isOk] d fun a d' => r = .ok a ∧ d' = d := by
  intro _ b hb
  cases r with
  | error e =>
    change Demand.granted _ _ _ = _ ∧ _
    refine ⟨rfl, ?_⟩
    simpa [Demand.marked, Except.isOk, Except.toBool] using hb
  | ok a =>
    change Demand.granted _ _ _ = _ ∧ _
    refine ⟨rfl, ?_, rfl, rfl⟩
    simpa [Demand.marked] using hb

theorem validate_calls : Calls m T (validate id) [idDemand id] d fun _ d' => d' = d :=
  (lift_calls (validateId id)).mono fun _ _ h => h.2

theorem valid_calls (h : validateId id = .ok ()) :
    Calls m T (validate id) [] d fun _ d' => d' = d := by
  rw [validate, h]
  exact Asks.pure rfl

/-- A directory for the right id takes one call. -/
theorem createDir_calls (hT : Timeless T) (h : validateId ws = .ok ()) :
    Calls m T (createDir m ws) [.call] d fun _ d' => d' = d.later 1 := by
  have hcall : createDir m ws = call m := by
    rw [createDir, workspaceDir, h]
    rfl
  rw [hcall]
  exact call_calls hT

/-- A mark, if something shows. -/
def marks (b : Bool) : List Demand := if b then [.mark] else []

theorem modify_calls {f : Disk → Disk} {b : Bool} (htick : (f d).tick = d.tick)
    (hf : ∀ k, T k d → T (k || b) (f d)) :
    Calls m T (Fallible.modify f) (marks b) d fun _ d' => d' = f d := by
  intro _ k hk
  refine Outcome.modify ⟨?_, ?_, rfl⟩
  · cases b <;> simp [marks, Demand.granted, htick]
  · cases b <;> simpa [marks, Demand.marked] using hf k hk

theorem writeFile_calls {x : File} {b : Bool} (hT : Timeless T)
    (hput : ∀ k, T k (d.later 1) → T (k || b) ((d.later 1).put x)) :
    Calls m T (writeFile m x) (.call :: marks b) d fun _ d' => d' = (d.later 1).put x := by
  refine (call_calls hT).bind (u := [.call]) fun _ d₁ hd₁ => ?_
  subst hd₁
  exact modify_calls Disk.tick_put hput

/-! ## Files of one kind -/

/-- A file that is written shows. -/
def Shown (T : Bool → Disk → Prop) (x : File) : Prop := ∀ k d, T k d → T true (d.put x)

theorem writeShown_calls {x : File} (hT : Timeless T) (hx : Shown T x) :
    Calls m T (writeFile m x) [.call, .mark] d fun _ d' => d' = (d.later 1).put x :=
  writeFile_calls (b := true) hT fun k h => by
    rw [Bool.or_true]
    exact hx k _ h

theorem saveWorkspace_calls {w : Workspace} (hT : Timeless T) (hid : validateId w.id = .ok ())
    (hw : Shown T (.workspace w)) :
    Calls m T (saveWorkspace m w) [.call, .call, .mark] d
      fun _ d' => d' = (d.later 2).put (.workspace w) := by
  refine (createDir_calls hT hid).bind (u := [.call]) fun _ d₁ hd₁ => ?_
  refine (valid_calls hid).bind (u := []) fun _ d₂ hd₂ => ?_
  refine (writeShown_calls hT hw).mono fun _ d' hd' => ?_
  rw [hd', hd₂, hd₁, Disk.later_later]

/-- The demands of an item: its directory, its id and its file. -/
def itemDemands (id : String) : List Demand := [.call, idDemand id, .call, .mark]

section
variable {x : File}

/-- The three stores of items go through the same calls. -/
theorem writeItem_calls (hT : Timeless T) (hws : validateId ws = .ok ()) (hx : Shown T x) :
    Calls m T (do createDir m ws; validate id; writeFile m x) (itemDemands id) d
      fun _ d' => d' = (d.later 2).put x := by
  refine (createDir_calls hT hws).bind (u := [.call]) fun _ d₁ hd₁ => ?_
  refine validate_calls.bind (u := [idDemand id]) fun _ d₂ hd₂ => ?_
  refine (writeShown_calls hT hx).mono fun _ d' hd' => ?_
  rw [hd', hd₂, hd₁, Disk.later_later]

theorem saveConnection_calls {c : WsConnection} (hT : Timeless T)
    (hws : validateId c.workspaceId = .ok ()) (hx : Shown T (.connection c)) :
    Calls m T (saveConnection m c) (itemDemands c.id) d
      fun _ d' => d' = (d.later 2).put (.connection c) := by
  have hsave : saveConnection m c = (do
      createDir m c.workspaceId
      validate c.id
      writeFile m (.connection c)) := by
    rw [saveConnection, validate, hws]
    rfl
  rw [hsave]
  exact writeItem_calls hT hws hx

theorem saveGrpc_calls {g : GrpcRequest} (hT : Timeless T)
    (hws : validateId g.workspaceId = .ok ()) (hx : Shown T (.grpc g)) :
    Calls m T (saveGrpc m g) (itemDemands g.id) d fun _ d' => d' = (d.later 2).put (.grpc g) := by
  have hsave : saveGrpc m g = (do
      createDir m g.workspaceId
      validate g.id
      writeFile m (.grpc g)) := by
    rw [saveGrpc, validate, hws]
    rfl
  rw [hsave]
  exact writeItem_calls hT hws hx

end

/-! ## Loops over files -/

namespace Disk

def putAll (d : Disk) (xs : List File) : Disk := xs.foldl put d

theorem putAll_append (d : Disk) (xs ys : List File) :
    d.putAll (xs ++ ys) = (d.putAll xs).putAll ys := List.foldl_append

theorem putAll_later (d : Disk) (xs : List File) (n : ℕ) :
    (d.putAll xs).later n = (d.later n).putAll xs := by
  induction xs generalizing d with
  | nil => rfl
  | cons x xs ih =>
    rw [putAll, List.foldl_cons, ← putAll, ih, put_later]
    rfl

theorem putAll_later_putAll (d : Disk) (xs ys : List File) (n k : ℕ) :
    (((d.later n).putAll xs).later k).putAll ys = (d.later (n + k)).putAll (xs ++ ys) := by
  rw [putAll_later, later_later, putAll_append]

/-- A file that is there when files have been put is one of them, or was there before. -/
theorem has_putAll_cases {d : Disk} {xs : List File} {y : File} (h : (d.putAll xs).Has y) :
    y ∈ xs ∨ d.Has y ∧ ∀ x ∈ xs, y.path ≠ x.path := by
  induction xs generalizing d with
  | nil => exact .inr ⟨h, by simp⟩
  | cons x xs ih =>
    rcases ih h with hmem | ⟨hput, hne⟩
    · exact .inl (List.mem_cons_of_mem _ hmem)
    · rcases has_put.mp hput with rfl | ⟨hd, hx⟩
      · exact .inl List.mem_cons_self
      · exact .inr ⟨hd, List.forall_mem_cons.mpr ⟨hx, hne⟩⟩

/-- Files at other places stay. -/
theorem has_putAll_of_has {d : Disk} {xs : List File} {y : File} (h : d.Has y)
    (hne : ∀ x ∈ xs, y.path ≠ x.path) : (d.putAll xs).Has y := by
  induction xs generalizing d with
  | nil => exact h
  | cons x xs ih =>
    obtain ⟨hx, hxs⟩ := List.forall_mem_cons.mp hne
    exact ih (has_put.mpr (.inr ⟨h, hx⟩)) hxs

/-- Files at places of their own are all there. -/
theorem has_putAll_of_mem {d : Disk} {xs : List File} (hxs : (xs.map File.path).Nodup) {y : File}
    (hy : y ∈ xs) : (d.putAll xs).Has y := by
  induction xs generalizing d with
  | nil => exact absurd hy List.not_mem_nil
  | cons x xs ih =>
    rw [List.map_cons, List.nodup_cons] at hxs
    rcases List.mem_cons.mp hy with rfl | hmem
    · change ((d.put y).putAll xs).Has y
      exact has_putAll_of_has (has_put.mpr (.inl rfl)) fun z hz heq =>
        hxs.1 (List.mem_map.mpr ⟨z, hz, heq.symm⟩)
    · exact ih hxs.2 hmem

end Disk

theorem Demand.along_const {γ : Type} (f : γ → List Demand) (done xs : List γ) :
    Demand.along (fun _ => f) done xs = xs.flatMap f := by
  induction xs generalizing done with
  | nil => rfl
  | cons x xs ih => rw [Demand.along, ih, List.flatMap_cons]

/-- A loop in which each round writes one file. -/
theorem forM_calls {γ : Type} {g : γ → OnDisk PUnit} {f : γ → File} {demands : γ → List Demand}
    {xs : List γ} (hg : ∀ x ∈ xs, ∀ d, Calls m T (g x) (demands x) d
      fun _ d' => ∃ n, d' = (d.later n).put (f x)) :
    Calls m T (xs.forM g) (xs.flatMap demands) d
      fun _ d' => ∃ n, d' = (d.later n).putAll (xs.map f) := by
  rw [← Demand.along_const demands []]
  refine Asks.forM (l := [])
    (J := fun done d' => ∃ n, d' = (d.later n).putAll (done.map f)) ⟨0, rfl⟩ ?_
  rintro done x d₁ hx ⟨n, rfl⟩
  refine (hg x hx _).mono ?_
  rintro - d' ⟨k, rfl⟩
  refine ⟨n + k, ?_⟩
  rw [List.map_append, Disk.putAll_append, Disk.putAll_later, Disk.later_later]
  rfl

theorem writeBulk_calls {folders : List ApiFolder} {requests : List HttpRequest} (hT : Timeless T)
    (hfolders : ∀ f ∈ folders, validateId f.workspaceId = .ok () ∧ Shown T (.folder f))
    (hrequests : ∀ r ∈ requests, validateId r.workspaceId = .ok () ∧ Shown T (.request r)) :
    Calls m T (writeBulk m folders requests)
      ((folders.map (·.id)).flatMap itemDemands ++ (requests.map (·.id)).flatMap itemDemands) d
      fun _ d' => ∃ n, d' =
        (d.later n).putAll (folders.map File.folder ++ requests.map File.request) := by
  rw [List.flatMap_map, List.flatMap_map]
  refine Asks.bind (forM_calls (f := File.folder) fun f hf d =>
    (writeItem_calls hT (hfolders f hf).1 (hfolders f hf).2).mono fun _ d' hd' => ⟨2, hd'⟩) ?_
  rintro - d₁ ⟨n, rfl⟩
  refine (forM_calls (f := File.request) fun r hr d =>
    (writeItem_calls hT (hrequests r hr).1 (hrequests r hr).2).mono
      fun _ d' hd' => ⟨2, hd'⟩).mono ?_
  rintro - d' ⟨k, rfl⟩
  refine ⟨n + k, ?_⟩
  rw [Disk.putAll_later, Disk.later_later, Disk.putAll_append]

/-! ## Environments -/

namespace Disk

/-- The environments of one directory. -/
def environments (d : Disk) (shared : Bool) : Records environmentKey :=
  if shared then d.sharedEnvironments else d.localEnvironments

theorem environments_putAll {d : Disk} {xs : List File}
    (hxs : ∀ x ∈ xs, x.name.1 ≠ .sharedEnvironment ∧ x.name.1 ≠ .localEnvironment)
    (shared : Bool) : (d.putAll xs).environments shared = d.environments shared := by
  induction xs generalizing d with
  | nil => rfl
  | cons x xs ih =>
    obtain ⟨hx, hrest⟩ := List.forall_mem_cons.mp hxs
    refine (ih hrest).trans ?_
    cases x with
    | sharedEnvironment e => exact absurd rfl hx.1
    | localEnvironment e => exact absurd rfl hx.2
    | _ => rfl

def withoutStale (d : Disk) (e : Environment) : Disk :=
  d.keep fun x => x.path ≠ (e.workspaceId, staleName e)

/-- The disk with an environment saved, and its old file in the other directory gone. -/
def saved (d : Disk) (e : Environment) : Disk :=
  if (staleFile d e).isSome then (d.put (environmentFile e)).withoutStale e
  else d.put (environmentFile e)

theorem has_environmentFile {d : Disk} {e : Environment} :
    d.Has (environmentFile e) ↔ (d.environments e.shared).find? (environmentKey e) = some e := by
  rw [Records.find?_eq_some_iff, environmentFile, environments, and_iff_left rfl]
  cases e.shared <;> rfl

theorem staleFile_eq (d : Disk) (e : Environment) :
    staleFile d e = (d.environments (!e.shared)).find? (environmentKey e) := by
  rw [staleFile, environments]
  cases e.shared <;> rfl

@[simp] theorem tick_saved {d : Disk} {e : Environment} : (d.saved e).tick = d.tick := by
  rw [saved]
  split_ifs
  · rw [withoutStale, tick_keep, tick_put]
  · exact tick_put

theorem saved_later (d : Disk) (e : Environment) (n : ℕ) :
    (d.saved e).later n = (d.later n).saved e := by
  have hstale : staleFile (d.later n) e = staleFile d e := rfl
  rw [saved, saved, hstale]
  split_ifs
  · rw [← put_later]
    rfl
  · rw [put_later]

theorem staleFile_put (d : Disk) (e : Environment) :
    staleFile (d.put (environmentFile e)) e = staleFile d e := by
  rw [staleFile, staleFile, environmentFile]
  cases e.shared <;> rfl

theorem find?_environments_put (d : Disk) (e : Environment) (shared : Bool) (k : FileKey) :
    ((d.put (environmentFile e)).environments shared).find? k =
      if shared = e.shared ∧ k = environmentKey e then some e
      else (d.environments shared).find? k := by
  cases he : e.shared <;> cases shared <;>
    simp [environments, put, environmentFile, he, Records.find?_put, eq_comm]

theorem find?_environments_withoutStale (d : Disk) (e : Environment) (shared : Bool) (k : FileKey) :
    ((d.withoutStale e).environments shared).find? k =
      if shared = !e.shared ∧ k = environmentKey e then none
      else (d.environments shared).find? k := by
  have hfilter : ∀ (s : Records environmentKey) (p : Environment → Bool),
      (∀ e', environmentKey e' = k → p e' = decide (k ≠ environmentKey e)) →
      (s.filter p).find? k = if k = environmentKey e then none else s.find? k := by
    intro s p hp
    rw [Records.find?_filter]
    cases hfind : s.find? k with
    | none => simp
    | some e' =>
      rw [Option.filter_some, hp e' (Records.find?_eq_some_iff.mp hfind).2]
      by_cases hk : k = environmentKey e <;> simp [hk]
  have hall : ∀ (s : Records environmentKey) (p : Environment → Bool), (∀ e', p e' = true) →
      (s.filter p).find? k = s.find? k := by
    intro s p hp
    rw [Records.find?_filter]
    cases s.find? k <;> simp [hp]
  cases he : e.shared <;> cases shared <;>
    simp only [withoutStale, environments, keep, Bool.not_false, Bool.not_true, true_and, false_and,
      Bool.false_eq_true, reduceIte, Bool.true_eq_false]
  · exact hall _ _ fun e' => by simp [File.path, File.name, staleName, he]
  · refine hfilter _ _ fun e' hk => ?_
    subst hk
    simp [File.path, File.name, File.workspaceId, staleName, he, environmentKey]
  · refine hfilter _ _ fun e' hk => ?_
    subst hk
    simp [File.path, File.name, File.workspaceId, staleName, he, environmentKey]
  · exact hall _ _ fun e' => by simp [File.path, File.name, staleName, he]

/-- A saved environment is in its own directory only. -/
theorem find?_environments_saved (d : Disk) (e : Environment) (shared : Bool) (k : FileKey) :
    ((d.saved e).environments shared).find? k =
      if k = environmentKey e then (if shared = e.shared then some e else none)
      else (d.environments shared).find? k := by
  have hstale := staleFile_eq d e
  rw [saved]
  by_cases hk : k = environmentKey e
  · subst hk
    by_cases hshared : shared = e.shared
    · subst hshared
      by_cases hsome : (staleFile d e).isSome = true
      · simp [hsome, find?_environments_withoutStale, find?_environments_put]
      · simp [hsome, find?_environments_put]
    · obtain rfl : shared = !e.shared := by cases shared <;> cases hs : e.shared <;> simp_all
      by_cases hsome : (staleFile d e).isSome = true
      · simp [hsome, find?_environments_withoutStale]
      · have hnone := Option.not_isSome_iff_eq_none.mp hsome
        rw [hstale] at hnone
        simp [hsome, find?_environments_put, hnone]
  · by_cases hsome : (staleFile d e).isSome = true
    · simp [hsome, find?_environments_withoutStale, find?_environments_put, hk]
    · simp [hsome, find?_environments_put, hk]

end Disk

/-- The demands of an environment: its directory, its file, and the file to be removed. -/
def environmentDemands (shows stale clears : Bool) : List Demand :=
  .call :: .call :: marks shows ++ if stale then .call :: marks clears else []

theorem saveEnvironment_calls {e : Environment} {b c : Bool} (hT : Timeless T)
    (hws : validateId e.workspaceId = .ok ())
    (hput : ∀ k n, T k (d.later n) → T (k || b) ((d.later n).put (environmentFile e)))
    (hclear : (staleFile d e).isSome = true → ∀ k n, T k ((d.later n).put (environmentFile e)) →
      T (k || c) (((d.later n).put (environmentFile e)).withoutStale e)) :
    Calls m T (saveEnvironment m e)
      (idDemand e.id :: environmentDemands b (staleFile d e).isSome c) d
      fun _ d' => ∃ n, d' = (d.later n).saved e := by
  refine (valid_calls hws).bind (u := []) fun _ d₁ hd₁ => ?_
  subst hd₁
  refine validate_calls.bind (u := [_]) fun _ d₂ hd₂ => ?_
  subst hd₂
  refine (createDir_calls hT hws).bind (u := [_]) fun _ d₃ hd₃ => ?_
  subst hd₃
  refine (writeFile_calls hT fun k => ?_).bind (u := .call :: marks b) fun _ d₄ hd₄ => ?_
  · rw [Disk.later_later]
    exact hput k 2
  rw [Disk.later_later] at hd₄
  subst hd₄
  have hstale : staleFile ((d₂.later 2).put (environmentFile e)) e = staleFile d₂ e := by
    rw [Disk.staleFile_put]
    rfl
  refine Asks.bind (u := []) (Q := fun a d' => a = d' ∧ d' = (d₂.later 2).put (environmentFile e))
    (fun _ k hk => Outcome.get ⟨rfl, by simpa [Demand.marked] using hk, rfl, rfl⟩) ?_
  rintro _ _ ⟨rfl, rfl⟩
  rw [hstale]
  have hlater : ∀ n, staleFile (d₂.later n) e = staleFile d₂ e := fun _ => rfl
  cases hsome : (staleFile d₂ e).isSome with
  | true =>
    refine (call_calls hT).bind (u := [_]) fun _ d₅ hd₅ => ?_
    subst hd₅
    refine (modify_calls (f := fun d => d.withoutStale e) rfl fun k => ?_).mono
      fun _ d' hd' => ⟨3, ?_⟩
    · rw [Disk.put_later, Disk.later_later]
      exact hclear hsome k 3
    · rw [hd', Disk.saved, hlater, hsome, if_pos rfl, Disk.put_later, Disk.later_later]
  | false =>
    refine Asks.pure ⟨2, ?_⟩
    rw [Disk.saved, hlater, hsome, if_neg Bool.false_ne_true]

namespace Disk

/-- Environments that are saved one after another. -/
def savedAll (d : Disk) (es : List Environment) : Disk := es.foldl saved d

theorem savedAll_concat (d : Disk) (es : List Environment) (e : Environment) :
    d.savedAll (es ++ [e]) = (d.savedAll es).saved e := List.foldl_append

theorem savedAll_later (d : Disk) (es : List Environment) (n : ℕ) :
    (d.savedAll es).later n = (d.later n).savedAll es := by
  induction es generalizing d with
  | nil => rfl
  | cons e es ih =>
    rw [savedAll, List.foldl_cons, ← savedAll, ih, saved_later]
    rfl

/-- The last environment of a key is in its own directory only. -/
theorem find?_environments_savedAll (d : Disk) (es : List Environment) (shared : Bool)
    (k : FileKey) :
    ((d.savedAll es).environments shared).find? k =
      match es.reverse.find? fun e => environmentKey e = k with
      | some e => if shared = e.shared then some e else none
      | none => (d.environments shared).find? k := by
  induction es using List.reverseRecOn with
  | nil => rfl
  | append_singleton es e ih =>
    rw [savedAll_concat, find?_environments_saved, List.reverse_concat, List.find?_cons]
    by_cases hk : k = environmentKey e
    · simp [hk]
    · rw [if_neg hk, ih]
      simp [Ne.symm hk]

end Disk

/-! ## Workspaces -/

/-- The demands of a new workspace: its id, the time, its directory and its file. -/
def createDemands : List Demand := [.draw, .draw, .call, .call, .mark]

theorem createWorkspace_calls {name : String} {encrypted : Bool} (hT : Timeless T)
    (hw : ∀ w : Workspace, w.id = m.newId d.tick → Shown T (.workspace w)) :
    Calls m T (createWorkspace m name encrypted) createDemands d fun a d' =>
      DrawsValid m d.tick ∧ a = newWorkspace (m.newId d.tick) (m.now (d.tick + 1)) name encrypted ∧
        d' = (d.later 4).put (.workspace a) := by
  refine Asks.of_draw fun hvalid => ?_
  refine (ask_calls hT).bind (u := [_]) fun id d₁ hd₁ => ?_
  obtain ⟨rfl, rfl⟩ := hd₁
  refine (ask_calls hT).bind (u := [_]) fun now d₂ hd₂ => ?_
  obtain ⟨rfl, rfl⟩ := hd₂
  refine (saveWorkspace_calls hT (by exact hvalid) (hw _ rfl)).bind (u := [_, _, _])
    (v := []) fun _ d₃ hd₃ => Asks.pure ⟨hvalid, rfl, ?_⟩
  rw [hd₃, Disk.later_later, Disk.later_later]

/-! ## Reading -/

theorem onWorld_bind {α β : Type} (x : Store α) (f : α → Store β) :
    onWorld (x >>= f) = onWorld x >>= fun a => onWorld (f a) := by
  funext d
  rw [Fallible.bind_apply, onWorld, onWorld, Fallible.zoom, Fallible.zoom, Fallible.bind_apply]
  rcases x d.store with ⟨e | a, w⟩ <;> rfl

theorem get_calls : Calls m T (onWorld Fallible.get) [] d fun _ d' => d' = d := by
  intro _ b hb
  change Demand.granted _ _ _ = _ ∧ _
  exact ⟨rfl, by simpa [Demand.marked] using hb, rfl⟩

/-- A directory is opened and read, in the order that the file system gives. -/
def listDemands : List Demand := [.call, .call, .draw]

theorem listRequests_calls (hT : Timeless T) (hws : validateId ws = .ok ()) :
    Calls m T (onWorld (listRequests m.toEnv ws)) listDemands d fun _ d' => d' = d.later 3 := by
  rw [listRequests, onWorld_bind]
  refine (createDir_calls hT hws).bind (u := [_]) fun _ d₁ hd₁ => ?_
  rw [onWorld_bind]
  refine (call_calls hT).bind (u := [_]) fun _ d₂ hd₂ => ?_
  rw [onWorld_bind]
  refine get_calls.bind (u := []) fun _ d₃ hd₃ => ?_
  rw [onWorld_bind]
  refine (ask_calls hT).bind (u := [_]) (v := []) fun _ d₄ hd₄ => Asks.pure ?_
  rw [hd₄.2, hd₃, hd₂, hd₁, Disk.later_later, Disk.later_later]

theorem listFolders_calls (hT : Timeless T) (hws : validateId ws = .ok ()) :
    Calls m T (onWorld (listFolders m.toEnv ws)) listDemands d fun _ d' => d' = d.later 3 := by
  rw [listFolders, onWorld_bind]
  refine (createDir_calls hT hws).bind (u := [_]) fun _ d₁ hd₁ => ?_
  rw [onWorld_bind]
  refine (call_calls hT).bind (u := [_]) fun _ d₂ hd₂ => ?_
  rw [onWorld_bind]
  refine get_calls.bind (u := []) fun _ d₃ hd₃ => ?_
  rw [onWorld_bind]
  refine (ask_calls hT).bind (u := [_]) (v := []) fun _ d₄ hd₄ => Asks.pure ?_
  rw [hd₄.2, hd₃, hd₂, hd₁, Disk.later_later, Disk.later_later]

theorem validate_run (h : validateId id = .ok ()) : validate id d = (.ok (), d) := by
  rw [validate, h]
  rfl

theorem getWorkspace_run (hws : validateId ws = .ok ()) :
    getWorkspace m ws d = match m.fault d.tick, d.workspaces.find? ws with
      | none, some w => (.ok w, d.later 1)
      | _, _ => (.error (.error (.notFound s!"workspace '{ws}'")), d.later 1) := by
  have hask : onWorld (ask m.fault) d = (.ok (m.fault d.tick), d.later 1) := rfl
  rw [getWorkspace, Fallible.bind_eq_ok (validate_run hws), Fallible.bind_eq_ok hask]
  cases hfault : m.fault d.tick with
  | some message => rfl
  | none =>
    have hlater : (d.later 1).workspaces.find? ws = d.workspaces.find? ws := rfl
    change (Fallible.get >>= fun d' : Disk => _) (d.later 1) = _
    rw [Fallible.bind_eq_ok (Fallible.get_apply _), hlater]
    cases d.workspaces.find? ws <;> rfl

theorem getWorkspace_calls (hT : Timeless T) (hws : validateId ws = .ok ()) :
    Calls m T (getWorkspace m ws) [.call, .check (d.workspaces.find? ws).isSome] d
      fun w d' => d.workspaces.find? ws = some w ∧ d' = d.later 1 := by
  intro _ b hb
  have hlater := hT _ _ 1 hb
  have hrun := getWorkspace_run (m := m) (d := d) hws
  cases hfault : m.fault d.tick with
  | some message =>
    rw [hfault] at hrun
    rw [Outcome, hrun]
    simp [Demand.granted, Demand.marked, refuses, hfault, hlater]
  | none =>
    cases hfind : d.workspaces.find? ws with
    | none =>
      rw [hfault, hfind] at hrun
      rw [Outcome, hrun]
      simp [Demand.granted, Demand.marked, refuses, hfault, hlater]
    | some w =>
      rw [hfault, hfind] at hrun
      rw [Outcome, hrun]
      simp [Demand.granted, Demand.marked, refuses, hfault, hlater]

/-! ## Environments of known ids -/

/-- A check that passes asks for nothing. -/
theorem calls_of_check {α : Type} {x : OnDisk α} {ds : List Demand} {Q : α → Disk → Prop}
    (h : Calls m T x (.check true :: ds) d Q) : Calls m T x ds d Q := h

/-- An environment that lies nowhere else takes two calls. -/
theorem saveEnvironment_calls_of_new {e : Environment} (hT : Timeless T)
    (hws : validateId e.workspaceId = .ok ()) (hid : validateId e.id = .ok ())
    (hstale : staleFile d e = none) (hshown : Shown T (environmentFile e)) :
    Calls m T (saveEnvironment m e) [.call, .call, .mark] d
      fun _ d' => ∃ n, d' = (d.later n).saved e := by
  have hsave := saveEnvironment_calls (m := m) (d := d) (b := true) (c := true) hT hws
    (fun k n hk => by
      rw [Bool.or_true]
      exact hshown _ _ hk)
    (fun hsome => by
      rw [hstale] at hsome
      exact absurd hsome Bool.false_ne_true)
  rw [idDemand, hid, hstale] at hsave
  exact calls_of_check hsave

namespace Disk

/-- The environment as it is read: the shared file comes first. -/
def environment? (d : Disk) (k : FileKey) : Option Environment :=
  (d.sharedEnvironments.find? k).or (d.localEnvironments.find? k)

theorem environments_none {d : Disk} {k : FileKey} (h : d.environment? k = none)
    (shared : Bool) : (d.environments shared).find? k = none := by
  rw [environment?, Option.or_eq_none_iff] at h
  cases shared with
  | true => exact h.1
  | false => exact h.2

end Disk

theorem getEnvironment_calls (hT : Timeless T) (hws : validateId ws = .ok ())
    (hid : validateId id = .ok ()) :
    Calls m T (getEnvironment m ws id) (if (d.environment? (ws, id)).isSome then [.call] else []) d
      fun e d' => e = d.environment? (ws, id) ∧ ∃ n, d' = d.later n := by
  refine (valid_calls hws).bind (u := []) fun _ d₁ hd₁ => ?_
  subst hd₁
  refine (valid_calls hid).bind (u := []) fun _ d₂ hd₂ => ?_
  subst hd₂
  refine Asks.bind (u := []) (Q := fun a d' => a = d₂ ∧ d' = d₂)
    (fun _ b hb => ⟨rfl, by simpa [Demand.marked] using hb, rfl, rfl⟩) ?_
  rintro _ _ ⟨rfl, rfl⟩
  beta_reduce
  unfold Disk.environment?
  generalize hfind : Option.or _ _ = found
  cases found with
  | none => exact Asks.pure ⟨rfl, 0, rfl⟩
  | some e =>
    refine (call_calls hT).bind (u := [_]) (v := []) fun _ d' hd' => ?_
    exact Asks.pure ⟨rfl, 1, hd'⟩

/-- A global environment that is missing is created. -/
theorem ensureGlobal_calls_of_none (hT : Timeless T) (hws : validateId ws = .ok ())
    (hnone : d.environment? (ws, globalEnvId) = none)
    (hshown : ∀ now, Shown T (environmentFile (newGlobal ws now))) :
    Calls m T (ensureGlobal m ws) [.draw, .call, .call, .mark] d
      fun e d' => ∃ now n, e = newGlobal ws now ∧ d' = (d.later n).saved e := by
  have hglobal : validateId globalEnvId = .ok () := by decide
  have hget := getEnvironment_calls (m := m) (d := d) hT hws hglobal
  rw [hnone] at hget
  refine hget.bind (u := []) ?_
  rintro _ d₁ ⟨rfl, n, rfl⟩
  refine (ask_calls hT).bind (u := [_]) ?_
  rintro now d₂ ⟨rfl, rfl⟩
  have hstale : staleFile ((d.later n).later 1) (newGlobal ws (m.now (d.later n).tick)) = none :=
    Disk.environments_none hnone true
  refine (saveEnvironment_calls_of_new hT hws hglobal hstale (hshown _)).bind
    (u := [_, _, _]) (v := []) ?_
  rintro - d₃ ⟨k, rfl⟩
  refine Asks.pure ⟨_, n + (1 + k), rfl, ?_⟩
  rw [Disk.later_later, Disk.later_later]

theorem ensureGlobal_calls_of_some {e : Environment} (hT : Timeless T)
    (hws : validateId ws = .ok ()) (hsome : d.environment? (ws, globalEnvId) = some e) :
    Calls m T (ensureGlobal m ws) [.call] d fun a d' => a = e ∧ ∃ n, d' = d.later n := by
  have hglobal : validateId globalEnvId = .ok () := by decide
  have hget := getEnvironment_calls (m := m) (d := d) hT hws hglobal
  rw [hsome] at hget
  refine hget.bind (u := [_]) (v := []) ?_
  rintro _ d₁ ⟨rfl, n, rfl⟩
  exact Asks.pure ⟨rfl, n, rfl⟩

theorem createPersonal_calls {name color : String} (hT : Timeless T) (hws : validateId ws = .ok ())
    (hshared : d.sharedEnvironments.find? (ws, m.newId d.tick) = none)
    (hshown : ∀ e : Environment, e.workspaceId = ws → e.id = m.newId d.tick →
      Shown T (environmentFile e)) :
    Calls m T (createPersonal m ws name color false) [.draw, .draw, .call, .call, .mark] d
      fun e d' => DrawsValid m d.tick ∧
        ∃ now n, e = newPersonal (m.newId d.tick) ws now name color false ∧
          d' = (d.later n).saved e := by
  refine Asks.of_draw fun hvalid => ?_
  refine (ask_calls hT).bind (u := [_]) ?_
  rintro id d₁ ⟨rfl, rfl⟩
  refine (ask_calls hT).bind (u := [_]) ?_
  rintro now d₂ ⟨rfl, rfl⟩
  have hstale : staleFile ((d.later 1).later 1)
      (newPersonal (m.newId d.tick) ws (m.now (d.later 1).tick) name color false) = none := hshared
  refine (saveEnvironment_calls_of_new hT hws (by exact hvalid) hstale
    (hshown _ rfl rfl)).bind (u := [_, _, _]) (v := []) ?_
  rintro - d₃ ⟨k, rfl⟩
  refine Asks.pure ⟨hvalid, _, 1 + (1 + k), rfl, ?_⟩
  rw [Disk.later_later, Disk.later_later]

end Voleeo.Storage
