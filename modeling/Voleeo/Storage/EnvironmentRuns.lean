import Voleeo.Storage.DiskDemands
import Voleeo.Storage.ForestRuns

/-!
# The environment store as a map

An environment lies in one of two directories, by a flag that any save may flip.
Over runs of the operations the two directories stand for one map, from the ids
of workspaces and environments to what was last saved under them.
-/
namespace Voleeo.Storage
open Fallible (Asks Outcome)

/-! ## Operations -/

def Disk.withoutEnvironment (d : Disk) (shared : Bool) (k : FileKey) : Disk :=
  d.keep fun x => x.path ≠
    (k.1, (if shared then FileKind.sharedEnvironment else FileKind.localEnvironment), k.2)

section Operations
variable (m : Machine)

def removeEnvironment (shared : Bool) (k : FileKey) : OnDisk Unit := do
  if (((← Fallible.get).environments shared).find? k).isSome then
    call m
    Fallible.modify fun d => d.withoutEnvironment shared k

def deleteEnvironment (workspaceId id : String) : OnDisk Unit := do
  validate workspaceId
  validate id
  removeEnvironment m true (workspaceId, id)
  removeEnvironment m false (workspaceId, id)

/-- The operations that change environments. -/
inductive EnvironmentOp
  | save (e : Environment)
  | delete (workspaceId id : String)
  | createPersonal (workspaceId name color : String) (shared : Bool)
  | ensureGlobal (workspaceId : String)

/-- An operation, with the environment that it is given or returns. -/
def EnvironmentOp.exec : EnvironmentOp → OnDisk (Option Environment)
  | .save e => do
      saveEnvironment m e
      return some e
  | .delete workspaceId id => do
      deleteEnvironment m workspaceId id
      return none
  | .createPersonal workspaceId name color shared => do
      let e ← Storage.createPersonal m workspaceId name color shared
      return some e
  | .ensureGlobal workspaceId => do
      let e ← Storage.ensureGlobal m workspaceId
      return some e

end Operations

/-! ## The map -/

/-- What was last saved under each id. -/
abbrev SavedMap := FileKey → Option Environment

/-- What an operation does to the map. A global environment that is there stays. -/
def EnvironmentOp.effect (stored : SavedMap) : EnvironmentOp → Option Environment → SavedMap
  | .delete workspaceId id, _ => Function.update stored (workspaceId, id) none
  | .ensureGlobal workspaceId, e =>
    if (stored (workspaceId, globalEnvId)).isSome then stored
    else Function.update stored (workspaceId, globalEnvId) e
  | .save e, _ => Function.update stored (environmentKey e) (some e)
  | .createPersonal _ _ _ _, some e => Function.update stored (environmentKey e) (some e)
  | .createPersonal _ _ _ _, none => stored

/-- The operations one after another, with the map that they lead to. -/
def execAll (m : Machine) (ops : List EnvironmentOp) (stored : SavedMap) : OnDisk SavedMap :=
  ops.foldlM (fun stored op => do
    let e ← op.exec m
    return op.effect stored e) stored

/-- Each directory has the environments of the map that belong there. -/
def Represents (d : Disk) (stored : SavedMap) : Prop :=
  ∀ shared k, (d.environments shared).find? k = (stored k).filter fun e => e.shared = shared

/-- The weaker bond in the middle of an operation: a file in the wrong directory may be left, if
it is not what is read. -/
structure Shows (d : Disk) (stored : SavedMap) : Prop where
  read : ∀ k, d.environment? k = stored k
  sided : ∀ shared k e, (d.environments shared).find? k = some e → e.shared = shared

variable {m : Machine} {d : Disk} {stored : SavedMap} {e : Environment} {k : FileKey} {n : ℕ}

theorem environment?_eq (d : Disk) (k : FileKey) :
    d.environment? k = ((d.environments true).find? k).or ((d.environments false).find? k) := rfl

theorem Represents.later (h : Represents d stored) : Represents (d.later n) stored := h

theorem Shows.later (h : Shows d stored) : Shows (d.later n) stored := ⟨h.read, h.sided⟩

theorem Represents.shows (h : Represents d stored) : Shows d stored where
  read k := by
    rw [environment?_eq, h, h]
    cases hk : stored k with
    | none => rfl
    | some e => cases hshared : e.shared <;> simp [hshared]
  sided shared k e he := by
    rw [h, Option.filter_eq_some_iff] at he
    simpa using he.2

/-- An environment that is not to be shared has no file in the workspaces. -/
theorem Shows.hidden (h : Shows d stored) (hk : stored k = some e) (he : e.shared = false) :
    d.sharedEnvironments.find? k = none := by
  cases hfind : (d.environments true).find? k with
  | none => exact hfind
  | some e' =>
    have hread := h.read k
    rw [environment?_eq, hfind, hk, Option.some_or] at hread
    obtain rfl := Option.some.inj hread
    exact absurd (h.sided true k e' hfind) (by simp [he])

theorem Represents.saved (h : Represents d stored) (e : Environment) :
    Represents (d.saved e) (Function.update stored (environmentKey e) (some e)) := by
  intro shared k
  rw [Disk.find?_environments_saved]
  by_cases hk : k = environmentKey e
  · subst hk
    rw [if_pos rfl, Function.update_self]
    by_cases hshared : shared = e.shared
    · simp [hshared, Option.filter_some]
    · simp [hshared, Ne.symm hshared, Option.filter_some]
  · rw [if_neg hk, Function.update_of_ne hk, h]

theorem find?_environments_withoutEnvironment (d : Disk) (gone shared : Bool) (k k' : FileKey) :
    ((d.withoutEnvironment gone k).environments shared).find? k' =
      if shared = gone ∧ k' = k then none else (d.environments shared).find? k' := by
  have hstale : d.withoutEnvironment gone k =
      d.withoutStale (newPersonal k.2 k.1 "" "" "" !gone) := by
    cases gone <;> rfl
  rw [hstale, Disk.find?_environments_withoutStale]
  simp [newPersonal, environmentKey]

/-! ## In the middle of a save -/

/-- A write changes the map unless a shared file of the same id is still in front. -/
theorem Shows.put (h : Shows d stored) (e : Environment) :
    Shows (d.put (environmentFile e))
      (if e.shared || (staleFile d e).isNone then
        Function.update stored (environmentKey e) (some e) else stored) where
  read k := by
    have hstale := Disk.staleFile_eq d e
    rw [environment?_eq, Disk.find?_environments_put, Disk.find?_environments_put]
    by_cases hk : k = environmentKey e
    · subst hk
      cases hshared : e.shared with
      | true => simp
      | false =>
        rw [hshared, Bool.not_false] at hstale
        cases hsome : staleFile d e with
        | none =>
          rw [hsome] at hstale
          simp [← hstale]
        | some e' =>
          rw [hsome] at hstale
          have hread := h.read (environmentKey e)
          rw [environment?_eq, ← hstale, Option.some_or] at hread
          simp [← hstale, ← hread]
    · rw [if_neg (fun hand => hk hand.2), if_neg (fun hand => hk hand.2), ← environment?_eq, h.read]
      split
      · rw [Function.update_of_ne hk]
      · rfl
  sided shared k e' he' := by
    rw [Disk.find?_environments_put] at he'
    split_ifs at he' with hk
    · obtain rfl := Option.some.inj he'
      exact hk.1.symm
    · exact h.sided shared k e' he'

/-- Once the file in the wrong directory is gone, the new one is read. -/
theorem Shows.withoutStale (h : Shows d stored)
    (hfile : (d.environments e.shared).find? (environmentKey e) = some e) :
    Shows (d.withoutStale e) (Function.update stored (environmentKey e) (some e)) where
  read k := by
    rw [environment?_eq, Disk.find?_environments_withoutStale, Disk.find?_environments_withoutStale]
    by_cases hk : k = environmentKey e
    · subst hk
      rw [Function.update_self]
      cases hshared : e.shared with
      | true =>
        rw [hshared] at hfile
        simp [hfile]
      | false =>
        rw [hshared] at hfile
        simp [hfile]
    · rw [if_neg (fun hand => hk hand.2), if_neg (fun hand => hk hand.2), ← environment?_eq,
        h.read, Function.update_of_ne hk]
  sided shared k e' he' := by
    rw [Disk.find?_environments_withoutStale] at he'
    split_ifs at he' with hk
    exact h.sided shared k e' he'

theorem Shows.withoutEnvironment (h : Shows d stored) (shared : Bool)
    (hother : (d.environments !shared).find? k = none) :
    Shows (d.withoutEnvironment shared k) (Function.update stored k none) where
  read k' := by
    rw [environment?_eq, find?_environments_withoutEnvironment,
      find?_environments_withoutEnvironment]
    by_cases hk : k' = k
    · subst hk
      rw [Function.update_self]
      cases shared with
      | true =>
        rw [Bool.not_true] at hother
        simp [hother]
      | false =>
        rw [Bool.not_false] at hother
        simp [hother]
    · rw [if_neg (fun hand => hk hand.2), if_neg (fun hand => hk hand.2), ← environment?_eq,
        h.read, Function.update_of_ne hk]
  sided shared' k' e he := by
    rw [find?_environments_withoutEnvironment] at he
    split_ifs at he with hk
    exact h.sided shared' k' e he

/-! ## What the operations do -/

/-- The disk shows the map before the operation or the one after it. -/
def Tracks (before after : SavedMap) (b : Bool) (d : Disk) : Prop :=
  Shows d (if b then after else before)

theorem tracks_timeless (before after : SavedMap) : Timeless (Tracks before after) :=
  fun _ _ _ h => h.later

theorem check_notMem_environmentDemands (shows stale clears : Bool) :
    .check false ∉ environmentDemands shows stale clears := by
  cases shows <;> cases stale <;> cases clears <;> simp [environmentDemands, marks]

theorem ticks_environmentDemands_le (shows stale clears : Bool) :
    Demand.ticks (environmentDemands shows stale clears) ≤ 3 := by
  cases shows <;> cases stale <;> cases clears <;> decide

theorem save_calls (hws : validateId e.workspaceId = .ok ()) (hid : validateId e.id = .ok ()) :
    Calls m (Tracks stored (Function.update stored (environmentKey e) (some e)))
      (saveEnvironment m e)
      (environmentDemands (e.shared || (staleFile d e).isNone) (staleFile d e).isSome true) d
      fun _ d' => ∃ n, d' = (d.later n).saved e := by
  have hsave := saveEnvironment_calls (m := m) (d := d)
    (b := e.shared || (staleFile d e).isNone) (c := true)
    (tracks_timeless stored (Function.update stored (environmentKey e) (some e))) hws
    (fun b n hb => by
      have hput := Shows.put hb e
      have hstale : staleFile (d.later n) e = staleFile d e := rfl
      rw [hstale] at hput
      cases b with
      | true => simpa [Tracks] using hput
      | false => simpa [Tracks] using hput)
    (fun hsome b n hb => by
      have hfile : ((((d.later n).put (environmentFile e)).environments e.shared).find?
          (environmentKey e)) = some e := by
        rw [Disk.find?_environments_put, if_pos ⟨rfl, rfl⟩]
      have hclear := Shows.withoutStale hb hfile
      rw [Bool.or_true]
      cases b with
      | true => simpa [Tracks] using hclear
      | false => simpa [Tracks] using hclear)
  rw [idDemand, hid] at hsave
  exact calls_of_check hsave

theorem removeEnvironment_calls_of_none {T : Bool → Disk → Prop} {shared : Bool}
    (hnone : (d.environments shared).find? k = none) :
    Calls m T (removeEnvironment m shared k) [] d fun _ d' => d' = d := by
  refine Asks.bind (u := []) (Q := fun a d' => a = d ∧ d' = d)
    (fun _ b hb => ⟨rfl, by simpa [Demand.marked] using hb, rfl, rfl⟩) ?_
  rintro _ _ ⟨rfl, rfl⟩
  rw [hnone]
  exact Asks.pure rfl

theorem removeEnvironment_calls_of_some {T : Bool → Disk → Prop} {shared : Bool}
    (hT : Timeless T) (hsome : ((d.environments shared).find? k).isSome = true)
    (hgone : ∀ b, T b (d.later 1) → T true ((d.later 1).withoutEnvironment shared k)) :
    Calls m T (removeEnvironment m shared k) [.call, .mark] d
      fun _ d' => d' = (d.later 1).withoutEnvironment shared k := by
  refine Asks.bind (u := []) (Q := fun a d' => a = d ∧ d' = d)
    (fun _ b hb => ⟨rfl, by simpa [Demand.marked] using hb, rfl, rfl⟩) ?_
  rintro _ _ ⟨rfl, rfl⟩
  rw [if_pos hsome]
  refine (call_calls hT).bind (u := [_]) (v := [.mark]) fun _ d₁ hd₁ => ?_
  subst hd₁
  exact modify_calls (b := true) rfl fun b hb => by
    rw [Bool.or_true]
    exact hgone b hb

theorem Represents.withoutEnvironment (h : Represents d stored) {shared : Bool}
    (hother : (d.environments !shared).find? k = none) :
    Represents (d.withoutEnvironment shared k) (Function.update stored k none) := by
  intro shared' k'
  rw [find?_environments_withoutEnvironment]
  by_cases hk : k' = k
  · subst hk
    rw [Function.update_self, Option.filter_none]
    by_cases hshared : shared' = shared
    · rw [if_pos ⟨hshared, rfl⟩]
    · rw [if_neg (fun hand => hshared hand.1)]
      rwa [← Bool.eq_not.mpr hshared] at hother
  · rw [if_neg (fun hand => hk hand.2), Function.update_of_ne hk, h]

/-- What an operation does, as seen from outside and from the middle. -/
def Does (m : Machine) (op : EnvironmentOp) (d : Disk) (stored : SavedMap) : Prop :=
  ∃ e u, .check false ∉ u ∧ Demand.ticks u ≤ 5 ∧
    Calls m (Tracks stored (op.effect stored e)) (op.exec m) u d fun e' d' =>
      e' = e ∧ Represents d' (op.effect stored e)

theorem does_save (h : Represents d stored) (hws : validateId e.workspaceId = .ok ())
    (hid : validateId e.id = .ok ()) : Does m (.save e) d stored := by
  refine ⟨some e, _, ?_, ?_, (save_calls hws hid).bind (v := []) ?_⟩
  · rw [List.append_nil]
    exact check_notMem_environmentDemands _ _ _
  · rw [List.append_nil]
    exact (ticks_environmentDemands_le _ _ _).trans (by decide)
  · rintro - d' ⟨n, rfl⟩
    exact Asks.pure ⟨rfl, h.later.saved e⟩

theorem deleteEnvironment_calls {ws id : String} (h : Represents d stored)
    (hws : validateId ws = .ok ()) (hid : validateId id = .ok ()) :
    Calls m (Tracks stored (Function.update stored (ws, id) none)) (deleteEnvironment m ws id)
      (if (stored (ws, id)).isSome then [.call, .mark] else []) d
      fun _ d' => Represents d' (Function.update stored (ws, id) none) := by
  have hT := tracks_timeless stored (Function.update stored (ws, id) none)
  have hgone (shared : Bool) (d : Disk) (hother : (d.environments !shared).find? (ws, id) = none)
      (b : Bool) (hb : Tracks stored (Function.update stored (ws, id) none) b (d.later 1)) :
      Tracks stored (Function.update stored (ws, id) none) true
        ((d.later 1).withoutEnvironment shared (ws, id)) := by
    have hshows := Shows.withoutEnvironment hb shared hother
    cases b with
    | true => simpa [Tracks] using hshows
    | false => simpa [Tracks] using hshows
  have hfiles (shared : Bool) := h shared (ws, id)
  refine (valid_calls hws).bind (u := []) fun _ d₁ hd₁ => ?_
  subst hd₁
  refine (valid_calls hid).bind (u := []) fun _ d₂ hd₂ => ?_
  subst hd₂
  cases hstored : stored (ws, id) with
  | none =>
    have hnone (shared : Bool) : (d₂.environments shared).find? (ws, id) = none := by
      rw [hfiles, hstored, Option.filter_none]
    refine (removeEnvironment_calls_of_none (hnone true)).bind (u := []) fun _ d₃ hd₃ => ?_
    subst hd₃
    refine (removeEnvironment_calls_of_none (hnone false)).mono fun _ d' hd' => ?_
    rw [hd', ← hstored, Function.update_eq_self]
    exact h
  | some e =>
    have hpresent : ((d₂.environments e.shared).find? (ws, id)).isSome = true := by
      rw [hfiles, hstored, Option.filter_some]
      simp
    have hother : (d₂.environments !e.shared).find? (ws, id) = none := by
      rw [hfiles, hstored, Option.filter_some]
      simp
    cases hshared : e.shared with
    | true =>
      rw [hshared] at hpresent hother
      refine (removeEnvironment_calls_of_some hT hpresent (hgone true _ hother)).bind
        (u := [_, _]) (v := []) fun _ d₃ hd₃ => ?_
      have hlocal : (d₃.environments false).find? (ws, id) = none := by
        rw [hd₃, find?_environments_withoutEnvironment, if_neg (by simp)]
        exact hother
      refine (removeEnvironment_calls_of_none hlocal).mono fun _ d' hd' => ?_
      rw [hd', hd₃]
      exact h.later.withoutEnvironment hother
    | false =>
      rw [hshared] at hpresent hother
      refine (removeEnvironment_calls_of_none hother).bind (u := []) fun _ d₃ hd₃ => ?_
      subst hd₃
      refine (removeEnvironment_calls_of_some hT hpresent (hgone false _ hother)).mono
        fun _ d' hd' => ?_
      rw [hd']
      exact h.later.withoutEnvironment hother

theorem does_delete {ws id : String} (h : Represents d stored) (hws : validateId ws = .ok ())
    (hid : validateId id = .ok ()) : Does m (.delete ws id) d stored := by
  refine ⟨none, _, ?_, ?_, (deleteEnvironment_calls h hws hid).bind (v := []) fun _ d' hd' => ?_⟩
  · split <;> simp
  · split <;> decide
  · exact Asks.pure ⟨rfl, hd'⟩

/-- A new environment is saved after its time is drawn. -/
theorem createPersonal_saves (stored : SavedMap) {ws : String} (name color : String)
    (shared : Bool) (hws : validateId ws = .ok ()) :
    ∃ e u, .check false ∉ u ∧ Demand.ticks u ≤ 5 ∧
      Calls m (Tracks stored (Function.update stored (environmentKey e) (some e)))
        (createPersonal m ws name color shared) u d
        fun e' d' => e' = e ∧ ∃ n, d' = (d.later n).saved e := by
  let e := newPersonal (m.newId d.tick) ws (m.now (d.later 1).tick) name color shared
  have hT := tracks_timeless stored (Function.update stored (environmentKey e) (some e))
  refine ⟨e, .draw :: .draw :: (environmentDemands (e.shared || (staleFile d e).isNone)
    (staleFile d e).isSome true ++ []), ?_, ?_, Asks.of_draw fun hdrawn => ?_⟩
  · simpa using check_notMem_environmentDemands (e.shared || (staleFile d e).isNone)
      (staleFile d e).isSome true
  · rw [List.append_nil]
    exact Nat.add_le_add_right (Nat.add_le_add_right (ticks_environmentDemands_le _ _ _) 1) 1
  · refine (ask_calls hT).bind (u := [.draw]) ?_
    rintro id d₁ ⟨rfl, rfl⟩
    refine (ask_calls hT).bind (u := [.draw]) ?_
    rintro now d₂ ⟨rfl, rfl⟩
    refine (save_calls (d := (d.later 1).later 1) (e := e) hws hdrawn).bind ?_
    rintro - d₃ ⟨n, rfl⟩
    refine Asks.pure ⟨rfl, 1 + (1 + n), ?_⟩
    rw [Disk.later_later, Disk.later_later]

theorem does_createPersonal {ws name color : String} {shared : Bool} (h : Represents d stored)
    (hws : validateId ws = .ok ()) : Does m (.createPersonal ws name color shared) d stored := by
  obtain ⟨e, u, hu, hticks, hcreate⟩ :=
    createPersonal_saves (m := m) (d := d) stored name color shared hws
  refine ⟨some e, u ++ [], by rwa [List.append_nil], by rwa [List.append_nil], hcreate.bind ?_⟩
  rintro e' d' ⟨he', n, hd'⟩
  rw [he', hd']
  exact Asks.pure ⟨rfl, h.later.saved e⟩

theorem getEnvironment_stored_calls {T : Bool → Disk → Prop} {ws id : String} (hT : Timeless T)
    (h : Represents d stored) (hws : validateId ws = .ok ()) (hid : validateId id = .ok ()) :
    Calls m T (getEnvironment m ws id) (if (stored (ws, id)).isSome then [.call] else []) d
      fun e d' => e = stored (ws, id) ∧ ∃ n, d' = d.later n := by
  have hget := getEnvironment_calls (m := m) (d := d) hT hws hid
  rwa [h.shows.read] at hget

theorem does_ensureGlobal {ws : String} (h : Represents d stored) (hws : validateId ws = .ok ()) :
    Does m (.ensureGlobal ws) d stored := by
  have hglobal : validateId globalEnvId = .ok () := by decide
  cases hfound : stored (ws, globalEnvId) with
  | some found =>
    have heffect : EnvironmentOp.effect stored (.ensureGlobal ws) (some found) = stored := by
      simp [EnvironmentOp.effect, hfound]
    refine ⟨some found, [.call] ++ [] ++ [], by simp, by decide, ?_⟩
    rw [heffect]
    have hget :=
      getEnvironment_stored_calls (m := m) (tracks_timeless stored stored) h hws hglobal
    rw [hfound] at hget
    have hensure : Calls m (Tracks stored stored) (ensureGlobal m ws) ([.call] ++ []) d
        fun e d' => e = found ∧ ∃ n, d' = d.later n := by
      refine hget.bind ?_
      rintro _ d₁ ⟨rfl, n, rfl⟩
      exact Asks.pure ⟨rfl, n, rfl⟩
    refine hensure.bind ?_
    rintro _ d' ⟨rfl, n, rfl⟩
    exact Asks.pure ⟨rfl, h.later⟩
  | none =>
    let e := newGlobal ws (m.now d.tick)
    have hT := tracks_timeless stored (Function.update stored (environmentKey e) (some e))
    have heffect : EnvironmentOp.effect stored (.ensureGlobal ws) (some e) =
        Function.update stored (environmentKey e) (some e) := by
      simp only [EnvironmentOp.effect, hfound, Option.isSome_none, Bool.false_eq_true, if_false]
      rfl
    refine ⟨some e, [] ++ ([.draw] ++ (environmentDemands (e.shared || (staleFile d e).isNone)
      (staleFile d e).isSome true ++ [])) ++ [], ?_, ?_, ?_⟩
    · simpa using check_notMem_environmentDemands (e.shared || (staleFile d e).isNone)
        (staleFile d e).isSome true
    · have hle := ticks_environmentDemands_le (e.shared || (staleFile d e).isNone)
        (staleFile d e).isSome true
      simp only [Demand.ticks_append, Demand.ticks]
      omega
    · rw [heffect]
      have hget := getEnvironment_stored_calls (m := m) hT h hws hglobal
      rw [hfound] at hget
      have hensure : Calls m (Tracks stored (Function.update stored (environmentKey e) (some e)))
          (ensureGlobal m ws)
          ([] ++ ([.draw] ++ (environmentDemands (e.shared || (staleFile d e).isNone)
            (staleFile d e).isSome true ++ []))) d
          fun e' d' => e' = e ∧ ∃ n, d' = (d.later n).saved e := by
        refine hget.and_tick.bind ?_
        rintro _ d₁ ⟨⟨rfl, n, rfl⟩, htick⟩
        obtain rfl : n = 0 := by simpa [Demand.ticks] using htick
        refine (ask_calls hT).bind ?_
        rintro now d₂ ⟨rfl, rfl⟩
        refine (save_calls (d := d.later 1) (e := e) hws hglobal).bind ?_
        rintro - d₃ ⟨n, rfl⟩
        exact Asks.pure ⟨rfl, 1 + n, by rw [Disk.later_later]⟩
      refine hensure.bind ?_
      rintro _ d' ⟨rfl, n, rfl⟩
      exact Asks.pure ⟨rfl, h.later.saved e⟩

/-! ## Runs -/

/-- The ids that an operation is given are names of files. -/
def EnvironmentOp.Valid : EnvironmentOp → Prop
  | .save e => validateId e.workspaceId = .ok () ∧ validateId e.id = .ok ()
  | .delete workspaceId id => validateId workspaceId = .ok () ∧ validateId id = .ok ()
  | .createPersonal workspaceId _ _ _ => validateId workspaceId = .ok ()
  | .ensureGlobal workspaceId => validateId workspaceId = .ok ()

theorem does_of_valid {op : EnvironmentOp} (h : Represents d stored) (hvalid : op.Valid) :
    Does m op d stored := by
  cases op with
  | save e => exact does_save h hvalid.1 hvalid.2
  | delete ws id => exact does_delete h hvalid.1 hvalid.2
  | createPersonal ws name color shared => exact does_createPersonal h hvalid
  | ensureGlobal ws => exact does_ensureGlobal h hvalid

/-- The ids that are drawn in the next ticks are names of files. -/
def DrawsValidFor (m : Machine) (d : Disk) (n : ℕ) : Prop :=
  ∀ t, d.tick ≤ t → t < d.tick + n → DrawsValid m t

theorem refuses_of_quiet (hquiet : ∀ t, m.fault t = none) (t : ℕ) : refuses m.toEnv t = false := by
  rw [refuses, hquiet]
  rfl

theorem execAll_represents (hquiet : ∀ t, m.fault t = none) {ops : List EnvironmentOp}
    (hvalid : ∀ op ∈ ops, op.Valid) (hdraws : DrawsValidFor m d (5 * ops.length))
    (h : Represents d stored) :
    ∃ stored' d', execAll m ops stored d = (.ok stored', d') ∧ Represents d' stored' ∧
      d.tick ≤ d'.tick ∧ d'.tick ≤ d.tick + 5 * ops.length := by
  induction ops generalizing d stored with
  | nil => exact ⟨stored, d, rfl, h, Nat.le_refl _, Nat.le_refl _⟩
  | cons op ops ih =>
    obtain ⟨hop, hops⟩ := List.forall_mem_cons.mp hvalid
    rw [List.length_cons, Nat.mul_succ] at hdraws
    obtain ⟨e, u, hu, hticks, hcalls⟩ := does_of_valid (m := m) h hop
    obtain ⟨_, d₁, hrun, ⟨rfl, h₁⟩, htick⟩ := hcalls.and_tick.eq_ok
      (fun t ht hlt => hdraws t ht (by omega)) h.shows (refuses_of_quiet hquiet) hu
    obtain ⟨stored', d', hrest, h', hfrom, hto⟩ :=
      ih hops (fun t ht hlt => hdraws t (by omega) (by omega)) h₁
    refine ⟨stored', d', ?_, h', by omega, ?_⟩
    · rw [execAll, List.foldlM_cons]
      refine (Fallible.bind_eq_ok ?_).trans hrest
      exact Fallible.bind_eq_ok hrun
    · rw [List.length_cons, Nat.mul_succ]
      omega

/-! ## What is read -/

/-- The live environments of a workspace, each once, the global ones first and those of one kind
by their creation time. -/
structure ListsLive (stored : SavedMap) (workspaceId : String) (l : List Environment) : Prop where
  live : ∀ id e, (e ∈ l ∧ e.id = id) ↔ stored (workspaceId, id) = some e
  distinct : (l.map (·.id)).Nodup
  sorted : l.Pairwise fun a b => a.kind = .global ∧ b.kind = .personal ∨
    a.kind = b.kind ∧ a.createdAt ≤ b.createdAt

/-- No environment that is not to be shared has a file below `workspaces/`. -/
def Hidden (d : Disk) (stored : SavedMap) : Prop :=
  ∀ k e, stored k = some e → e.shared = false → d.sharedEnvironments.find? k = none

theorem Represents.key_eq (h : Represents d stored) (hk : stored k = some e) :
    environmentKey e = k := by
  have hfind : (d.environments e.shared).find? k = some e := by
    rw [h, hk, Option.filter_some]
    simp
  exact (Records.find?_eq_some_iff.mp hfind).2

theorem Represents.mem_iff (h : Represents d stored) (shared : Bool) :
    e ∈ (d.environments shared).toList ↔
      stored (environmentKey e) = some e ∧ e.shared = shared := by
  have hfind := h shared (environmentKey e)
  constructor
  · intro he
    rw [Records.find?_eq_some_iff.mpr ⟨he, rfl⟩] at hfind
    obtain ⟨hstored, hshared⟩ := Option.filter_eq_some_iff.mp hfind.symm
    exact ⟨hstored, by simpa using hshared⟩
  · rintro ⟨hstored, hshared⟩
    rw [hstored, Option.filter_some, if_pos (by simpa using hshared)] at hfind
    exact (Records.find?_eq_some_iff.mp hfind).1

theorem Represents.mem_merged (h : Represents d stored) {ws : String} :
    e ∈ mergedEnvironments d ws ↔ stored (ws, e.id) = some e := by
  have hshared := h.mem_iff (e := e) true
  have hlocal := h.mem_iff (e := e) false
  change (e ∈ d.sharedEnvironments.toList ↔ _) at hshared
  change (e ∈ d.localEnvironments.toList ↔ _) at hlocal
  simp only [mergedEnvironments, List.mem_append, List.mem_filter, decide_eq_true_eq, hshared,
    hlocal]
  constructor
  · rintro (⟨⟨hstored, -⟩, rfl⟩ | ⟨⟨hstored, -⟩, rfl, -⟩)
    · exact hstored
    · exact hstored
  · intro hstored
    have hkey : environmentKey e = (ws, e.id) := h.key_eq hstored
    obtain ⟨rfl, -⟩ := Prod.mk.injEq .. ▸ hkey
    cases hside : e.shared with
    | true => exact Or.inl ⟨⟨hstored, rfl⟩, rfl⟩
    | false =>
      refine Or.inr ⟨⟨hstored, rfl⟩, rfl, ?_⟩
      rintro e' ⟨he', hws⟩ hid
      obtain ⟨hstored', hside'⟩ := (h.mem_iff true).mp he'
      have hsame : environmentKey e' = environmentKey e := Prod.ext hws hid
      rw [hsame] at hstored'
      obtain rfl := Option.some.inj (hstored'.symm.trans hstored)
      exact absurd hside' (by simp [hside])

theorem nodup_merged (d : Disk) (ws : String) : ((mergedEnvironments d ws).map (·.id)).Nodup := by
  have hids (s : Records environmentKey) (p : Environment → Bool)
      (hp : ∀ e, p e = true → e.workspaceId = ws) : ((s.toList.filter p).map (·.id)).Nodup := by
    refine List.Nodup.map_on ?_ (s.nodup.of_map.filter p)
    intro a ha b hb hid
    obtain ⟨ha, hpa⟩ := List.mem_filter.mp ha
    obtain ⟨hb, hpb⟩ := List.mem_filter.mp hb
    exact List.inj_on_of_nodup_map s.nodup ha hb (Prod.ext ((hp a hpa).trans (hp b hpb).symm) hid)
  rw [mergedEnvironments, List.map_append, List.nodup_append]
  refine ⟨hids _ _ (by simp), hids _ _ (by simp +contextual), ?_⟩
  intro id hshared id' hlocal
  obtain ⟨a, ha, rfl⟩ := List.mem_map.mp hshared
  obtain ⟨b, hb, rfl⟩ := List.mem_map.mp hlocal
  have hb' := (List.mem_filter.mp hb).2
  simp only [decide_eq_true_eq] at hb'
  exact hb'.2 a ha

theorem listEnvironments_calls {T : Bool → Disk → Prop} {ws : String} (hT : Timeless T)
    (hws : validateId ws = .ok ()) :
    Calls m T (listEnvironments m ws) [.call, .call, .call, .call, .draw] d fun l _ =>
      ∃ entries : List Environment, entries.Perm (mergedEnvironments d ws) ∧
        l = sortBy (fun e => toLex (kindOrder e.kind, e.createdAt)) entries := by
  refine (createDir_calls hT hws).bind (u := [_]) fun _ d₁ hd₁ => ?_
  subst hd₁
  refine (createDir_calls hT hws).bind (u := [_]) fun _ d₂ hd₂ => ?_
  subst hd₂
  refine (call_calls hT).bind (u := [_]) fun _ d₃ hd₃ => ?_
  subst hd₃
  refine (call_calls hT).bind (u := [_]) fun _ d₄ hd₄ => ?_
  subst hd₄
  refine Asks.bind (u := []) (v := [_])
    (Q := fun a d' => a = d' ∧ d' = (((d.later 1).later 1).later 1).later 1)
    (fun _ b hb => ⟨rfl, by simpa [Demand.marked] using hb, rfl, rfl⟩) ?_
  rintro _ _ ⟨rfl, rfl⟩
  refine (ask_calls hT).bind (u := [_]) (v := []) ?_
  rintro entries d₆ ⟨hentries, -⟩
  refine Asks.pure ⟨entries, ?_, rfl⟩
  rw [hentries]
  exact m.readDir_perm _ _

theorem listsLive_sortBy {ws : String} (h : Represents d stored) {entries : List Environment}
    (hentries : entries.Perm (mergedEnvironments d ws)) :
    ListsLive stored ws (sortBy (fun e => toLex (kindOrder e.kind, e.createdAt)) entries) := by
  have hperm := (sortBy_perm (fun e => toLex (kindOrder e.kind, e.createdAt)) entries).trans
    hentries
  refine ⟨fun id e => ?_, ?_, ?_⟩
  · rw [hperm.mem_iff, h.mem_merged]
    constructor
    · rintro ⟨hstored, rfl⟩
      exact hstored
    · intro hstored
      have hid : e.id = id := congrArg Prod.snd (h.key_eq hstored)
      exact ⟨by rwa [hid], hid⟩
  · exact (hperm.map (·.id)).nodup_iff.mpr (nodup_merged d ws)
  · refine (pairwise_sortBy _ entries).imp fun {a b} hle => ?_
    rw [Prod.Lex.toLex_le_toLex] at hle
    cases ha : a.kind <;> cases hb : b.kind <;> simp [ha, hb, kindOrder] at hle ⊢
    · exact hle
    · exact hle

/-! ## The map that the store is -/

theorem getEnvironment_stored (hquiet : ∀ t, m.fault t = none) (hdraws : DrawsValidFor m d 5)
    (h : Represents d stored) {ws id : String} (hws : validateId ws = .ok ())
    (hid : validateId id = .ok ()) :
    (getEnvironment m ws id d).1 = .ok (stored (ws, id)) := by
  have hcalls := getEnvironment_stored_calls (m := m) (T := fun _ _ => True)
    (fun _ _ _ _ => trivial) h hws hid
  have hticks : Demand.ticks (if (stored (ws, id)).isSome then [.call] else []) ≤ 5 := by
    split <;> decide
  obtain ⟨e, d', hrun, rfl, -⟩ := hcalls.eq_ok (fun t ht hlt => hdraws t ht (by omega)) trivial
    (refuses_of_quiet hquiet) (by split <;> simp)
  rw [hrun]

theorem listEnvironments_live (hquiet : ∀ t, m.fault t = none) (hdraws : DrawsValidFor m d 5)
    (h : Represents d stored) {ws : String} (hws : validateId ws = .ok ()) :
    ∃ l, (listEnvironments m ws d).1 = .ok l ∧ ListsLive stored ws l := by
  have hcalls := listEnvironments_calls (m := m) (d := d) (T := fun _ _ => True)
    (fun _ _ _ _ => trivial) hws
  obtain ⟨l, d', hrun, entries, hentries, rfl⟩ := hcalls.eq_ok hdraws trivial
    (refuses_of_quiet hquiet) (by simp)
  exact ⟨_, by rw [hrun], listsLive_sortBy h hentries⟩

/-- The store on a disk is the map: reads give what was last saved, lists have each live environment
once, and nothing that is not to be shared lies in the workspaces. The last holds in the middle of
a further operation too, where the map is the one before it or the one after it. -/
structure StoresMap (m : Machine) (d : Disk) (stored : SavedMap) : Prop where
  get : ∀ ws id, validateId ws = .ok () → validateId id = .ok () →
    (getEnvironment m ws id d).1 = .ok (stored (ws, id))
  list : ∀ ws, validateId ws = .ok () →
    ∃ l, (listEnvironments m ws d).1 = .ok l ∧ ListsLive stored ws l
  hidden : Hidden d stored
  between : ∀ op : EnvironmentOp, op.Valid → ∀ stopped : Machine, DrawsValidFor stopped d 5 →
    ∀ failure d', op.exec stopped d = (.error failure, d') →
      ∃ seen, (seen = stored ∨ ∃ e, seen = op.effect stored e) ∧
        (∀ k, d'.environment? k = seen k) ∧ Hidden d' seen

theorem Represents.storesMap (hquiet : ∀ t, m.fault t = none) (hdraws : DrawsValidFor m d 5)
    (h : Represents d stored) : StoresMap m d stored where
  get _ _ hws hid := getEnvironment_stored hquiet hdraws h hws hid
  list _ hws := listEnvironments_live hquiet hdraws h hws
  hidden _ _ := h.shows.hidden
  between op hop stopped hstopped failure d' hfails := by
    obtain ⟨e, u, -, hticks, hcalls⟩ := does_of_valid (m := stopped) h hop
    obtain ⟨b, hb⟩ := hcalls.tracked_of_error
      (fun t ht hlt => hstopped t ht (by omega)) h.shows hfails
    refine ⟨_, ?_, hb.read, fun k e => hb.hidden⟩
    cases b with
    | true => exact Or.inr ⟨e, rfl⟩
    | false => exact Or.inl rfl

/-- Over any run from empty directories the store is the map of what was last saved. -/
theorem environments_refine_map (m : Machine) (hquiet : ∀ t, m.fault t = none) (d : Disk)
    (hempty : ∀ shared, (d.environments shared).toList = []) (ops : List EnvironmentOp)
    (hvalid : ∀ op ∈ ops, op.Valid) (hdraws : DrawsValidFor m d (5 * ops.length + 5)) :
    ∃ stored d', execAll m ops (fun _ => none) d = (.ok stored, d') ∧ StoresMap m d' stored := by
  have hnone : Represents d fun _ => none := by
    intro shared k
    rw [Option.filter_none, Records.find?_eq_none_iff, hempty]
    simp
  obtain ⟨stored, d', hrun, h, hfrom, hto⟩ := execAll_represents hquiet hvalid
    (fun t ht hlt => hdraws t ht (by omega)) hnone
  exact ⟨stored, d', hrun, h.storesMap hquiet fun t ht hlt => hdraws t (by omega) (by omega)⟩

def emptyDisk : Disk where
  store := ⟨⟨[], List.nodup_nil⟩, ⟨[], List.nodup_nil⟩, 0⟩
  connections := ⟨[], List.nodup_nil⟩
  grpcRequests := ⟨[], List.nodup_nil⟩
  workspaces := ⟨[], List.nodup_nil⟩
  sharedEnvironments := ⟨[], List.nodup_nil⟩
  localEnvironments := ⟨[], List.nodup_nil⟩
  others := ⟨[], List.nodup_nil⟩

def faultlessMachine : Machine where
  toEnv := faultless
  removeFault _ := none

/-- An environment is created for its owner alone, and shared later. -/
theorem environments_refine_map_shared_later :
    ∃ stored d', execAll faultlessMachine
        [.createPersonal "w1" "Dev" "" false,
          .save (newPersonal "n" "w1" "2024-01-01T00:00:00.000000" "Dev" "" true)]
        (fun _ => none) emptyDisk = (.ok stored, d') ∧
      StoresMap faultlessMachine d' stored := by
  refine environments_refine_map faultlessMachine (fun _ => rfl) emptyDisk ?_ _ ?_ ?_
  · intro shared
    cases shared with
    | true => rfl
    | false => rfl
  · have hcreate : validateId "w1" = .ok () := by decide
    have hid : validateId "n" = .ok () := by decide
    exact List.forall_mem_cons.mpr ⟨hcreate, List.forall_mem_singleton.mpr ⟨hcreate, hid⟩⟩
  · have hvalid : ∀ k < 15, validateId (faultless.newId k) = .ok () := by decide
    exact fun t _ hlt => hvalid t (by simpa [Disk.tick, emptyDisk] using hlt)

end Voleeo.Storage
