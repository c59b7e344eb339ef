import Voleeo.Imports.BundleImport
import Voleeo.Imports.Commit

/-!
# What the import of a collection asks for

Nothing is undone when such an import is refused. How many items the plan has,
and which of their auths are encrypted, does not depend on the ids that are
drawn; so the demands are known beforehand.
-/
namespace Voleeo.Imports
open Storage Postman
open Fallible (Asks Outcome)

/-! ## The plan without its ids -/

/-- What a plan asks for: the auths of its folders and requests, and its draws. -/
def shape (plan : Plan) : List AuthConfig × List AuthConfig × ℕ :=
  (plan.folders.map (·.auth), plan.requests.map (·.auth), plan.drawn)

mutual

theorem shape_convertItem (s₁ s₂ : Source) (w₁ w₂ : String) (b₁ b₂ : ℚ) (p₁ p₂ : Option String) :
    ∀ (item : ImportedItem) (plan₁ plan₂ : Plan), shape plan₁ = shape plan₂ →
      shape (convertItem s₁ w₁ b₁ p₁ item plan₁) = shape (convertItem s₂ w₂ b₂ p₂ item plan₂)
  | .folder f items, plan₁, plan₂, h => by
      rw [convertItem, convertItem]
      refine shape_convertItems s₁ s₂ w₁ w₂ b₁ b₂ _ _ items _ _ ?_
      simp only [shape, Prod.mk.injEq] at h ⊢
      obtain ⟨hfolders, hrequests, hdrawn⟩ := h
      exact ⟨by simp [hfolders, convertFolder], hrequests, by rw [hdrawn]⟩
  | .request r, plan₁, plan₂, h => by
      rw [convertItem, convertItem]
      simp only [shape, Prod.mk.injEq] at h ⊢
      obtain ⟨hfolders, hrequests, hdrawn⟩ := h
      exact ⟨hfolders, by simp [hrequests, convertRequest], by rw [hdrawn]⟩

theorem shape_convertItems (s₁ s₂ : Source) (w₁ w₂ : String) (b₁ b₂ : ℚ) (p₁ p₂ : Option String) :
    ∀ (items : List ImportedItem) (plan₁ plan₂ : Plan), shape plan₁ = shape plan₂ →
      shape (convertItems s₁ w₁ b₁ p₁ items plan₁) = shape (convertItems s₂ w₂ b₂ p₂ items plan₂)
  | [], _, _, h => by rwa [convertItems, convertItems]
  | item :: rest, plan₁, plan₂, h => by
      rw [convertItems, convertItems]
      exact shape_convertItems s₁ s₂ w₁ w₂ b₁ b₂ p₁ p₂ rest _ _
        (shape_convertItem s₁ s₂ w₁ w₂ b₁ b₂ p₁ p₂ item plan₁ plan₂ h)

end

/-- The plan of a collection before any id is drawn. -/
def draft (col : ImportedCollection) : Plan :=
  convertItems ⟨fun _ => "", fun _ => ""⟩ "" 0 none col.items ⟨[], [], 0, 0⟩

theorem shape_draft (source : Source) (ws : String) (base : ℚ) (col : ImportedCollection) :
    shape (convertItems source ws base none col.items ⟨[], [], 0, 0⟩) = shape (draft col) :=
  shape_convertItems _ _ _ _ _ _ _ _ _ _ _ rfl

/-- The items of a plan lie in its workspace, under ids that were drawn for them. -/
structure Planned (source : Source) (ws : String) (plan : Plan) : Prop where
  folders : ∀ f ∈ plan.folders, f.workspaceId = ws ∧ ∃ k < plan.drawn, f.id = source.newId k
  requests : ∀ r ∈ plan.requests, r.workspaceId = ws ∧ ∃ k < plan.drawn, r.id = source.newId k
  nodup : (plan.requests.map (·.id)).Nodup

mutual

theorem planned_convertItem {source : Source} (hinj : Function.Injective source.newId)
    (ws : String) (base : ℚ) (parent : Option String) :
    ∀ (item : ImportedItem) (plan : Plan), Planned source ws plan →
      Planned source ws (convertItem source ws base parent item plan)
  | .folder f items, plan, h => by
      rw [convertItem]
      refine planned_convertItems hinj ws base _ items _ ⟨?_, ?_, h.nodup⟩
      · intro g hg
        rcases List.mem_append.mp hg with hg | hg
        · obtain ⟨hws, k, hk, hid⟩ := h.folders g hg
          exact ⟨hws, k, by simp only; omega, hid⟩
        · rw [List.mem_singleton.mp hg]
          exact ⟨rfl, plan.drawn, by simp only; omega, rfl⟩
      · intro r hr
        obtain ⟨hws, k, hk, hid⟩ := h.requests r hr
        exact ⟨hws, k, by simp only; omega, hid⟩
  | .request r, plan, h => by
      rw [convertItem]
      have hown : plan.drawn + r.pathParams.length + r.query.length <
          plan.drawn + requestDraws r := by
        rw [requestDraws]
        omega
      refine ⟨?_, ?_, ?_⟩
      · intro f hf
        obtain ⟨hws, k, hk, hid⟩ := h.folders f hf
        exact ⟨hws, k, by simp only; omega, hid⟩
      · intro q hq
        rcases List.mem_append.mp hq with hq | hq
        · obtain ⟨hws, k, hk, hid⟩ := h.requests q hq
          exact ⟨hws, k, by simp only; omega, hid⟩
        · rw [List.mem_singleton.mp hq]
          exact ⟨rfl, _, hown, rfl⟩
      · rw [List.map_append, List.map_singleton, List.nodup_append]
        refine ⟨h.nodup, by simp, ?_⟩
        intro id hid id' hid' heq
        obtain ⟨q, hq, rfl⟩ := List.mem_map.mp hid
        rw [List.mem_singleton.mp hid'] at heq
        obtain ⟨-, k, hk, hk'⟩ := h.requests q hq
        have hsame : k = plan.drawn + r.pathParams.length + r.query.length :=
          hinj (hk'.symm.trans heq)
        omega

theorem planned_convertItems {source : Source} (hinj : Function.Injective source.newId)
    (ws : String) (base : ℚ) (parent : Option String) :
    ∀ (items : List ImportedItem) (plan : Plan), Planned source ws plan →
      Planned source ws (convertItems source ws base parent items plan)
  | [], _, h => by rwa [convertItems]
  | item :: rest, plan, h => by
      rw [convertItems]
      exact planned_convertItems hinj ws base parent rest _
        (planned_convertItem hinj ws base parent item plan h)

end

/-! ## Encrypting -/

variable {supplies : Supplies} {ws : String}

/-- An auth with secrets takes the key of the workspace. -/
def encryptable (supplies : Supplies) (ws : String) (auth : AuthConfig) : Bool :=
  auth.secretFields.isEmpty || (supplies.key ws).isOk

theorem isOk_mapM {ε α β : Type} {f : α → Except ε β} {xs : List α} :
    (xs.mapM f).isOk = xs.all fun x => (f x).isOk := by
  induction xs with
  | nil => rfl
  | cons x xs ih =>
    rw [List.mapM_cons, List.all_cons, ← ih]
    cases f x with
    | error e => rfl
    | ok y => cases xs.mapM f <;> rfl

theorem isOk_transformSecret (aead : Crypto.Aead) (nonce : Crypto.Nonce) (secret : String) :
    (Commands.transformSecret aead .encrypt nonce secret).isOk = true := by
  rw [Commands.transformSecret]
  split_ifs <;> rfl

theorem isOk_encryptAuth (owner : String) (auth : AuthConfig) :
    (encryptAuth supplies ws owner auth).isOk = encryptable supplies ws auth := by
  have hall : ((Mcp.markSecretsEncrypted auth).secretFields.all fun f => !f.2) =
      auth.secretFields.isEmpty := by
    cases auth <;> rfl
  rw [encryptAuth, Commands.transformAuthSecrets, hall, encryptable]
  cases auth.secretFields.isEmpty with
  | true => rfl
  | false =>
    cases supplies.key ws with
    | error e => rfl
    | ok aead =>
      have hvalues : ((Mcp.markSecretsEncrypted auth).secretFields.zipIdx.mapM
          fun f : (String × Bool) × ℕ => if f.1.2 then
            Commands.transformSecret aead .encrypt (supplies.nonces owner f.2) f.1.1
          else .ok f.1.1).isOk = true := by
        rw [isOk_mapM, List.all_eq_true]
        rintro ⟨⟨secret, flag⟩, i⟩ -
        cases flag with
        | true => exact isOk_transformSecret _ _ _
        | false => rfl
      have hset : ∀ r : Except VoleeoError (List String), r.isOk = true →
          (r.map (Mcp.markSecretsEncrypted auth).setSecrets).isOk = true := by
        rintro (e | values) hr
        · exact hr
        · rfl
      exact hset _ hvalues

theorem isOk_encryptPlan {s : Supplies} {w : String} (plan : ConvertedPlan) :
    (encryptPlan s w plan).isOk =
      ((plan.folders.map (·.auth)).all (encryptable s w) &&
        (plan.requests.map (·.auth)).all (encryptable s w)) := by
  have hfolders : (plan.folders.mapM fun f : ApiFolder => do
      let auth ← encryptAuth s w f.id f.auth
      return ({ f with auth } : ApiFolder)).isOk =
      (plan.folders.map (·.auth)).all (encryptable s w) := by
    rw [isOk_mapM, List.all_map]
    congr 1
    funext f
    rw [Function.comp_apply, ← isOk_encryptAuth f.id]
    cases encryptAuth s w f.id f.auth <;> rfl
  have hrequests : (plan.requests.mapM fun r : HttpRequest => do
      let auth ← encryptAuth s w r.id r.auth
      return ({ r with auth } : HttpRequest)).isOk =
      (plan.requests.map (·.auth)).all (encryptable s w) := by
    rw [isOk_mapM, List.all_map]
    congr 1
    funext r
    rw [Function.comp_apply, ← isOk_encryptAuth r.id]
    cases encryptAuth s w r.id r.auth <;> rfl
  rw [← hfolders, ← hrequests, encryptPlan]
  have hboth : ∀ (x : Except VoleeoError (List ApiFolder))
      (y : Except VoleeoError (List HttpRequest)),
      (do
        let folders ← x
        let requests ← y
        return ({ plan with folders, requests } : ConvertedPlan)).isOk = (x.isOk && y.isOk) := by
    rintro (e | folders) (e' | requests) <;> rfl
  exact hboth _ _

/-! ## What has changed -/

/-- No id that is drawn from now on names a workspace or a file. -/
def FreshIds (m : Machine) (d : Disk) : Prop :=
  ∀ t, d.tick ≤ t → ∀ x, d.Has x → x.workspaceId ≠ m.newId t ∧ x.name.2 ≠ m.newId t

theorem FreshIds.workspaces {m : Machine} {d : Disk} (h : FreshIds m d) : FreshWorkspaces m d :=
  fun t ht x hx => (h t ht x hx).1

def globalKey (ws : String) : FileKey := (ws, globalEnvId)

def NotGlobal (ws : String) (x : File) : Prop :=
  ∀ shared : Bool,
    x.path ≠ (ws, if shared then .sharedEnvironment else .localEnvironment, globalEnvId)

/-- A file lies where there was none, and it is not the global environment. -/
def NewFile (ws : String) (d₀ d : Disk) : Prop :=
  ∃ x, d.Has x ∧ NotGlobal ws x ∧ ∀ y, d₀.Has y → y.path ≠ x.path

def GlobalChanged (ws : String) (d₀ d : Disk) : Prop :=
  ∃ shared, (d.environments shared).find? (globalKey ws) ≠
    (d₀.environments shared).find? (globalKey ws)

/-- Before the first mark the files are the same; after it, one is new or has changed. -/
def Changed (ws : String) (d₀ : Disk) (b : Bool) (d : Disk) : Prop :=
  if b then NewFile ws d₀ d ∨ GlobalChanged ws d₀ d else SameDisk d₀ d

variable {m : Machine} {d₀ d : Disk} {x : File} {e : Environment}

theorem changed_timeless : Timeless (Changed ws d₀) := by
  intro b d n h
  cases b with
  | false => exact SameDisk.later h
  | true =>
    rcases h with ⟨x, hx, hpath⟩ | hglobal
    · exact .inl ⟨x, Disk.has_later.mpr hx, hpath⟩
    · exact .inr hglobal

theorem environments_of_same (h : SameDisk d₀ d) (shared : Bool) (k : FileKey) :
    (d.environments shared).find? k = (d₀.environments shared).find? k := by
  ext e
  rw [Records.find?_eq_some_iff, Records.find?_eq_some_iff]
  cases shared with
  | true => rw [show e ∈ (d.environments true).toList ↔ e ∈ (d₀.environments true).toList from
      h (.sharedEnvironment e)]
  | false => rw [show e ∈ (d.environments false).toList ↔ e ∈ (d₀.environments false).toList from
      h (.localEnvironment e)]

theorem not_same_of_changed (h : Changed ws d₀ true d) : ¬ SameDisk d₀ d := by
  intro hsame
  rcases h with ⟨x, hx, -, hpath⟩ | ⟨shared, hne⟩
  · exact hpath x ((hsame x).mp hx) rfl
  · exact hne (environments_of_same hsame shared _)

theorem shown_of_new (hnot : NotGlobal ws x) (hpath : ∀ y, d₀.Has y → y.path ≠ x.path) :
    Shown (Changed ws d₀) x := fun _ _ _ =>
  .inl ⟨x, Disk.has_put.mpr (.inl rfl), hnot, hpath⟩

/-- A global environment shows where there was none. -/
theorem shown_global (hkey : environmentKey e = globalKey ws)
    (hnone : d₀.environment? (globalKey ws) = none) :
    Shown (Changed ws d₀) (environmentFile e) := by
  refine fun _ d _ => .inr ⟨e.shared, ?_⟩
  rw [Disk.environments_none hnone, Disk.find?_environments_put, hkey, if_pos ⟨rfl, rfl⟩]
  nofun

theorem notGlobal_of_kind (hshared : x.name.1 ≠ .sharedEnvironment)
    (hlocal : x.name.1 ≠ .localEnvironment) : NotGlobal ws x := by
  intro shared heq
  have hkind := congrArg (fun p : String × FileKind × String => p.2.1) heq
  cases shared with
  | true => exact hshared hkind
  | false => exact hlocal hkind

/-- Nothing lies under a name that is drawn. -/
theorem path_ne_of_fresh (hfresh : FreshIds m d₀) {t : ℕ} (ht : d₀.tick ≤ t)
    (hx : x.name.2 = m.newId t) : ∀ y, d₀.Has y → y.path ≠ x.path := by
  intro y hy heq
  refine (hfresh t ht y hy).2 ?_
  rw [← hx]
  exact congrArg (fun p : String × FileKind × String => p.2.2) heq

theorem path_ne_of_fresh_workspace (hfresh : FreshIds m d₀) {t : ℕ} (ht : d₀.tick ≤ t)
    (hx : x.workspaceId = m.newId t) : ∀ y, d₀.Has y → y.path ≠ x.path := by
  intro y hy heq
  refine (hfresh t ht y hy).1 ?_
  rw [← hx]
  exact congrArg Prod.fst heq

/-- An environment with a drawn id shows, even if that id is the one of the global environment. -/
theorem shown_of_fresh_environment (hfresh : FreshIds m d₀) {t : ℕ} (ht : d₀.tick ≤ t)
    (hws : e.workspaceId = ws) (hid : e.id = m.newId t) :
    Shown (Changed ws d₀) (environmentFile e) := by
  have hname : (environmentFile e).name.2 = m.newId t := by
    rw [environmentFile, ← hid]
    cases e.shared <;> rfl
  have hpath := path_ne_of_fresh hfresh ht hname
  by_cases hglobal : e.id = globalEnvId
  · have hkey : environmentKey e = globalKey ws := by
      rw [environmentKey, hws, hglobal, globalKey]
    refine shown_global hkey ?_
    rw [Disk.environment?, Option.or_eq_none_iff, Records.find?_eq_none_iff,
      Records.find?_eq_none_iff]
    constructor
    · intro e' he' hkey'
      exact (hfresh t ht (.sharedEnvironment e') he').2
        ((congrArg Prod.snd hkey').trans (hglobal.symm.trans hid))
    · intro e' he' hkey'
      exact (hfresh t ht (.localEnvironment e') he').2
        ((congrArg Prod.snd hkey').trans (hglobal.symm.trans hid))
  · refine shown_of_new (fun shared heq => hglobal ?_) hpath
    have hsnd := congrArg (fun p : String × FileKind × String => p.2.2) heq
    rw [hid, ← hname]
    exact hsnd

/-! ## The steps of the import -/

/-- Where the import is: later than it began, with no shared environment under a drawn id. -/
structure Running (m : Machine) (ws : String) (d₀ d : Disk) : Prop where
  tick : d₀.tick ≤ d.tick
  shared : ∀ t, d₀.tick ≤ t → d.sharedEnvironments.find? (ws, m.newId t) = none

theorem Running.later (h : Running m ws d₀ d) (n : ℕ) : Running m ws d₀ (d.later n) :=
  ⟨h.tick.trans (Nat.le_add_right _ _), h.shared⟩

theorem Running.saved (h : Running m ws d₀ d)
    (he : e.shared = true → ∀ t, d₀.tick ≤ t → environmentKey e ≠ (ws, m.newId t)) :
    Running m ws d₀ (d.saved e) where
  tick := by
    rw [Disk.tick_saved]
    exact h.tick
  shared := fun t ht => by
    have hfind := Disk.find?_environments_saved d e true (ws, m.newId t)
    change (d.saved e).sharedEnvironments.find? _ = _ at hfind
    rw [hfind]
    split_ifs with hkey hshared
    · exact absurd hkey.symm (he hshared.symm t ht)
    · rfl
    · exact h.shared t ht

/-- The demands of a new environment, and of one that is written again. -/
def saveDemands : List Demand := [.call, .call, .mark]

/-- The global environment is created or read, and saved when variables are added. -/
def globalDemands (d : Disk) (ws : String) (vs : List EnvironmentVariable) : List Demand :=
  match d.environment? (globalKey ws) with
  | none => .draw :: saveDemands ++ if vs.isEmpty then [] else saveDemands
  | some e => .call :: if (addedVariables e vs).isEmpty then [] else
      environmentDemands
        (decide ((d.environments e.shared).find? (globalKey ws) ≠ some (extended e vs)))
        (staleFile d e).isSome true

theorem environment?_congr {k : FileKey}
    (h : ∀ shared, (d.environments shared).find? k = (d₀.environments shared).find? k) :
    d.environment? k = d₀.environment? k :=
  congrArg₂ Option.or (h true) (h false)

theorem mem_of_environment? {k : FileKey} (h : d.environment? k = some e) :
    environmentKey e = k ∧ (d.Has (.sharedEnvironment e) ∨ d.Has (.localEnvironment e)) := by
  rw [Disk.environment?, Option.or_eq_some_iff] at h
  rcases h with h | ⟨-, h⟩
  · exact ⟨(Records.find?_eq_some_iff.mp h).2, .inl (Records.find?_eq_some_iff.mp h).1⟩
  · exact ⟨(Records.find?_eq_some_iff.mp h).2, .inr (Records.find?_eq_some_iff.mp h).1⟩

/-- An environment that is saved lies in no other directory. -/
theorem staleFile_saved {e e' : Environment} (hkey : environmentKey e' = environmentKey e)
    (hshared : e'.shared = e.shared) : staleFile (d.saved e) e' = none := by
  rw [Disk.staleFile_eq, hshared, hkey, Disk.find?_environments_saved, if_pos rfl]
  cases e.shared <;> rfl

variable {vs : List EnvironmentVariable}

theorem addGlobals_calls_of_none (hws : validateId ws = .ok ()) (hrun : Running m ws d₀ d)
    (hglobal : ∀ shared, (d.environments shared).find? (globalKey ws) =
      (d₀.environments shared).find? (globalKey ws))
    (hnone : d₀.environment? (globalKey ws) = none) :
    Calls m (Changed ws d₀) (addGlobals m ws vs)
      (.draw :: saveDemands ++ if vs.isEmpty then [] else saveDemands) d
      fun _ d' => Running m ws d₀ d' := by
  have hnone' : d.environment? (ws, globalEnvId) = none := (environment?_congr hglobal).trans hnone
  refine (ensureGlobal_calls_of_none changed_timeless hws hnone' fun now =>
    shown_global rfl hnone).bind ?_
  rintro _ d₁ ⟨now, n, rfl, rfl⟩
  have hadded : addedVariables (newGlobal ws now) vs = vs := by
    simp [addedVariables, newGlobal]
  have hrun₁ : Running m ws d₀ ((d.later n).saved (newGlobal ws now)) :=
    (hrun.later n).saved nofun
  rw [hadded]
  cases hempty : vs.isEmpty with
  | true => exact Asks.pure hrun₁
  | false =>
    have hstale : staleFile ((d.later n).saved (newGlobal ws now))
        (extended (newGlobal ws now) vs) = none := staleFile_saved rfl rfl
    have hid : validateId globalEnvId = .ok () := by decide
    refine (saveEnvironment_calls_of_new changed_timeless hws hid hstale
      (shown_global rfl hnone)).bind (u := saveDemands) (v := []) ?_
    rintro - d₂ ⟨k, rfl⟩
    exact Asks.pure ((hrun₁.later k).saved nofun)

theorem environmentFile_path (e : Environment) :
    (environmentFile e).path =
      (e.workspaceId, if e.shared then .sharedEnvironment else .localEnvironment, e.id) := by
  rw [environmentFile]
  cases e.shared <;> rfl

/-- Writing the global environment shows when it is not the one that was there. -/
theorem changed_put_global {b : Bool} (hglobal : ∀ shared, (d.environments shared).find?
      (globalKey ws) = (d₀.environments shared).find? (globalKey ws))
    (hkey : environmentKey e = globalKey ws) (h : Changed ws d₀ b d) :
    Changed ws d₀ (b || decide ((d₀.environments e.shared).find? (globalKey ws) ≠ some e))
      (d.put (environmentFile e)) := by
  have hpath : (environmentFile e).path =
      (ws, if e.shared then .sharedEnvironment else .localEnvironment, globalEnvId) := by
    obtain ⟨hws, hid⟩ := Prod.mk.inj hkey
    rw [environmentFile_path, hws, hid]
  cases b with
  | true =>
    rcases h with ⟨x, hx, hnot, hnew⟩ | ⟨shared, hne⟩
    · refine .inl ⟨x, Disk.has_put.mpr (.inr ⟨hx, ?_⟩), hnot, hnew⟩
      rw [hpath]
      exact hnot e.shared
    · exact absurd (hglobal shared) hne
  | false =>
    by_cases hsame : (d₀.environments e.shared).find? (globalKey ws) = some e
    · rw [decide_eq_false (not_not.mpr hsame)]
      have hhas : d₀.Has (environmentFile e) := by
        rw [Disk.has_environmentFile, hkey, hsame]
      intro y
      rw [Disk.has_put, h y]
      constructor
      · rintro (rfl | ⟨hy, -⟩)
        · exact hhas
        · exact hy
      · intro hy
        by_cases heq : y.path = (environmentFile e).path
        · exact .inl (Disk.eq_of_path hy hhas heq)
        · exact .inr ⟨hy, heq⟩
    · rw [decide_eq_true hsame]
      refine .inr ⟨e.shared, ?_⟩
      rw [Disk.find?_environments_put, hkey, if_pos ⟨rfl, rfl⟩]
      exact Ne.symm hsame

theorem changed_withoutStale {b : Bool} (hkey : environmentKey e = globalKey ws)
    (hstale : (staleFile d₀ e).isSome = true) : Changed ws d₀ (b || true) (d.withoutStale e) := by
  rw [Bool.or_true]
  refine .inr ⟨!e.shared, ?_⟩
  rw [Disk.find?_environments_withoutStale, if_pos ⟨rfl, hkey.symm⟩]
  rw [Disk.staleFile_eq, hkey] at hstale
  intro hnone
  rw [← hnone] at hstale
  exact absurd hstale Bool.false_ne_true

/-- The global environment that is there is saved with the added variables. -/
theorem addGlobals_calls_of_some (hfresh : FreshIds m d₀) (hws : validateId ws = .ok ())
    (hrun : Running m ws d₀ d)
    (hglobal : ∀ shared, (d.environments shared).find? (globalKey ws) =
      (d₀.environments shared).find? (globalKey ws))
    (hsome : d₀.environment? (globalKey ws) = some e) :
    Calls m (Changed ws d₀) (addGlobals m ws vs)
      (.call :: if (addedVariables e vs).isEmpty then [] else
        environmentDemands
          (decide ((d₀.environments e.shared).find? (globalKey ws) ≠ some (extended e vs)))
          (staleFile d₀ e).isSome true) d
      fun _ d' => Running m ws d₀ d' := by
  obtain ⟨hkey, hmem⟩ := mem_of_environment? hsome
  have hkey' : environmentKey (extended e vs) = globalKey ws := hkey
  have hsome' : d.environment? (ws, globalEnvId) = some e := (environment?_congr hglobal).trans hsome
  refine (ensureGlobal_calls_of_some changed_timeless hws hsome').bind (u := [_])
    (v := if (addedVariables e vs).isEmpty then [] else _) ?_
  rintro a d₁ ⟨ha, n, rfl⟩
  rw [ha]
  cases hempty : (addedVariables e vs).isEmpty with
  | true =>
    rw [if_pos rfl, if_pos rfl]
    exact Asks.pure (hrun.later n)
  | false =>
    rw [if_neg Bool.false_ne_true, if_neg Bool.false_ne_true]
    have hid : idDemand (extended e vs).id = .check true := by
      have hid : (extended e vs).id = globalEnvId := congrArg Prod.snd hkey
      rw [hid]
      decide
    have hwid : (extended e vs).workspaceId = ws := congrArg Prod.fst hkey
    have hstale : (staleFile (d.later n) (extended e vs)).isSome = (staleFile d₀ e).isSome := by
      rw [Disk.staleFile_eq, Disk.staleFile_eq, hkey', hkey]
      exact congrArg Option.isSome (hglobal _)
    have hsave := saveEnvironment_calls (m := m) (d := d.later n) (e := extended e vs)
      (T := Changed ws d₀) (c := true)
      (b := decide ((d₀.environments e.shared).find? (globalKey ws) ≠ some (extended e vs)))
      changed_timeless (by rwa [hwid])
      (fun b k h => changed_put_global (e := extended e vs) hglobal hkey' h)
      (fun hsome b k _ => changed_withoutStale hkey' (by
        rw [Disk.staleFile_eq, hkey']
        rw [Disk.staleFile_eq, hkey'] at hsome
        exact (congrArg Option.isSome (hglobal _)).symm.trans hsome))
    rw [hid, hstale] at hsave
    rw [← List.append_nil (environmentDemands _ _ _)]
    refine (calls_of_check hsave).bind ?_
    rintro - d₂ ⟨k, rfl⟩
    refine Asks.pure (((hrun.later n).later k).saved fun _ t ht hdrawn => ?_)
    have hid' : e.id = m.newId t := congrArg Prod.snd (hkey.trans (hkey'.symm.trans hdrawn))
    rcases hmem with hmem | hmem
    · exact (hfresh t ht _ hmem).2 hid'
    · exact (hfresh t ht _ hmem).2 hid'

theorem addGlobals_calls (hfresh : FreshIds m d₀) (hws : validateId ws = .ok ())
    (hrun : Running m ws d₀ d)
    (hglobal : ∀ shared, (d.environments shared).find? (globalKey ws) =
      (d₀.environments shared).find? (globalKey ws)) :
    Calls m (Changed ws d₀) (addGlobals m ws vs) (globalDemands d₀ ws vs) d
      fun _ d' => Running m ws d₀ d' := by
  rw [globalDemands]
  cases hfind : d₀.environment? (globalKey ws) with
  | none => exact addGlobals_calls_of_none hws hrun hglobal hfind
  | some e => exact addGlobals_calls_of_some hfresh hws hrun hglobal hfind

/-- The demands of a named environment: it is created and then saved with its variables. -/
def namedDemands : List Demand := [.draw, .draw, .draw] ++ saveDemands ++ saveDemands

theorem addEnvironment_calls (hfresh : FreshIds m d₀) (hws : validateId ws = .ok ())
    (hrun : Running m ws d₀ d) (ie : ImportedEnvironment) :
    Calls m (Changed ws d₀) (addEnvironment supplies m ws ie) namedDemands d
      fun _ d' => Running m ws d₀ d' := by
  refine (ask_calls changed_timeless).bind (u := [.draw])
    (v := [.draw, .draw] ++ saveDemands ++ saveDemands) fun color d₁ hd₁ => ?_
  have hrun₁ : Running m ws d₀ d₁ := by
    rw [hd₁.2]
    exact hrun.later 1
  refine (createPersonal_calls changed_timeless hws (hrun₁.shared _ hrun₁.tick) fun e hws' hid =>
    shown_of_fresh_environment hfresh hrun₁.tick hws' hid).bind ?_
  rintro e d₂ ⟨hvalid, now, n, he, rfl⟩
  have hshared : e.shared = false := by rw [he]; rfl
  have hid : e.id = m.newId d₁.tick := by rw [he]; rfl
  have hews : e.workspaceId = ws := by rw [he]; rfl
  have hrun₂ : Running m ws d₀ ((d₁.later n).saved e) :=
    (hrun₁.later n).saved fun hs => by
      rw [hshared] at hs
      exact absurd hs Bool.false_ne_true
  have hstale : staleFile ((d₁.later n).saved e)
      { e with «variables» := ie.variables.map toEnvVar } = none := staleFile_saved rfl rfl
  refine (saveEnvironment_calls_of_new changed_timeless (by rwa [hews])
    (by rw [hid]; exact hvalid) hstale
    (shown_of_fresh_environment hfresh hrun₁.tick hews hid)).mono ?_
  rintro - d₃ ⟨k, rfl⟩
  refine (hrun₂.later k).saved fun hs => ?_
  rw [hshared] at hs
  exact absurd hs Bool.false_ne_true

/-! ## Before the global environment -/

/-- The workspace is there, and its environments are still the ones before the import. -/
structure Prepared (m : Machine) (ws : String) (d₀ : Disk) (isNew : Bool) (d : Disk) : Prop where
  running : Running m ws d₀ d
  workspace : isNew = true → HasWorkspace d ws
  environments : ∀ shared k, (d.environments shared).find? k = (d₀.environments shared).find? k

variable {isNew : Bool}

theorem HasWorkspace.later (h : HasWorkspace d ws) (n : ℕ) : HasWorkspace (d.later n) ws := by
  obtain ⟨w, hw, hid⟩ := h
  exact ⟨w, Disk.has_later.mpr hw, hid⟩

theorem HasWorkspace.putAll {xs : List File} (h : HasWorkspace d ws) :
    HasWorkspace (d.putAll xs) ws := by
  induction xs generalizing d with
  | nil => exact h
  | cons x xs ih => exact ih h.put

theorem Prepared.later (h : Prepared m ws d₀ isNew d) (n : ℕ) :
    Prepared m ws d₀ isNew (d.later n) :=
  ⟨h.running.later n, fun hn => (h.workspace hn).later n, h.environments⟩

theorem tick_putAll {xs : List File} : (d.putAll xs).tick = d.tick := by
  induction xs generalizing d with
  | nil => rfl
  | cons x xs ih => exact ih.trans Disk.tick_put

theorem Prepared.putAll {xs : List File} (h : Prepared m ws d₀ isNew d)
    (hxs : ∀ x ∈ xs, x.name.1 ≠ .sharedEnvironment ∧ x.name.1 ≠ .localEnvironment) :
    Prepared m ws d₀ isNew (d.putAll xs) where
  running := by
    refine ⟨by rw [tick_putAll]; exact h.running.tick, fun t ht => ?_⟩
    have hsame := Disk.environments_putAll (d := d) hxs true
    exact (congrArg (fun r : Records environmentKey => r.find? (ws, m.newId t)) hsame).trans
      (h.running.shared t ht)
  workspace := fun hn => (h.workspace hn).putAll
  environments := fun shared k => by
    rw [Disk.environments_putAll hxs, h.environments]

/-! ## The target -/

def destId (m : Machine) (d : Disk) : ImportDest → String
  | .newWorkspace _ _ => m.newId d.tick
  | .existingWorkspace ws _ => ws

def destEncrypted (d : Disk) : ImportDest → Bool
  | .newWorkspace _ encrypted => encrypted
  | .existingWorkspace ws _ => (d.workspaces.find? ws).any fun w => w.encrypted

def ImportDest.creates : ImportDest → Bool
  | .newWorkspace _ _ => true
  | .existingWorkspace _ _ => false

def targetDemands (d : Disk) : ImportDest → List Demand
  | .newWorkspace _ encrypted => createDemands ++ if encrypted then [.call, .call] else []
  | .existingWorkspace ws _ => [idDemand ws, .call, .check (d.workspaces.find? ws).isSome]

theorem prepared_of_fresh (hfresh : FreshIds m d) : Prepared m ws d false d where
  running := ⟨Nat.le_refl _, fun t ht => by
    rw [Records.find?_eq_none_iff]
    exact fun e he hkey => (hfresh t ht (.sharedEnvironment e) he).2 (congrArg Prod.snd hkey)⟩
  workspace := nofun
  environments := fun _ _ => rfl

theorem shown_new_workspace (hfresh : FreshIds m d₀) {w : Workspace}
    (hid : w.id = m.newId d₀.tick) : Shown (Changed ws d₀) (.workspace w) :=
  shown_of_new (notGlobal_of_kind nofun nofun)
    (path_ne_of_fresh_workspace hfresh (Nat.le_refl _) hid)

theorem target_calls (hfresh : FreshIds m d) (dest : ImportDest) :
    Calls m (Changed (destId m d dest) d) (target m dest) (targetDemands d dest) d fun a d' =>
      validateId (destId m d dest) = .ok () ∧ a.workspaceId = destId m d dest ∧
        a.encrypted = destEncrypted d dest ∧ a.applyRootAuth = dest.creates ∧
        Prepared m (destId m d dest) d dest.creates d' := by
  cases dest with
  | newWorkspace name encrypted =>
    refine (createWorkspace_calls changed_timeless fun w hw =>
      shown_new_workspace hfresh hw).bind ?_
    rintro w d₁ ⟨hvalid, hw, rfl⟩
    have hid : w.id = m.newId d.tick := by rw [hw]; rfl
    have hprepared : Prepared m (m.newId d.tick) d true ((d.later 4).put (.workspace w)) := by
      have h : Prepared m (m.newId d.tick) d false (d.later 4) :=
        (prepared_of_fresh hfresh).later 4
      refine ⟨⟨?_, h.running.shared⟩, fun _ => ⟨w, Disk.has_put.mpr (.inl rfl), hid⟩,
        h.environments⟩
      rw [Disk.tick_put]
      exact h.running.tick
    cases encrypted with
    | false => exact Asks.pure ⟨hvalid, hid, rfl, rfl, hprepared⟩
    | true =>
      refine Asks.bind (u := [.call, .call]) (v := [])
        (Q := fun _ d' => d' = ((d.later 4).put (.workspace w)).later 2) ?_ ?_
      · refine (call_calls changed_timeless).bind (u := [_]) fun _ d₂ hd₂ => ?_
        refine (call_calls changed_timeless).mono fun _ d₃ hd₃ => ?_
        rw [hd₃, hd₂, Disk.later_later]
      · rintro - d₂ rfl
        exact Asks.pure ⟨hvalid, hid, rfl, rfl, hprepared.later 2⟩
  | existingWorkspace ws parent =>
    cases hvalid : validateId ws with
    | error e =>
      intro _ b hb
      have hrun : target m (.existingWorkspace ws parent) d = (.error (.error e), d) := by
        have hvalidate : validate ws d = (.error (.error e), d) := by
          rw [validate, hvalid]
          rfl
        rw [target, getWorkspace]
        exact Fallible.bind_eq_error (Fallible.bind_eq_error hvalidate)
      rw [Outcome, hrun]
      simpa [targetDemands, idDemand, hvalid, Demand.granted, Demand.marked, Except.isOk,
        Except.toBool] using hb
    | ok u =>
      have hid : idDemand ws = .check true := by rw [idDemand, hvalid]; rfl
      rw [targetDemands, hid]
      refine (getWorkspace_calls changed_timeless hvalid).bind (u := [_, _]) (v := []) ?_
      rintro w d₁ ⟨hw, rfl⟩
      refine Asks.pure ⟨hvalid, rfl, ?_, rfl, (prepared_of_fresh hfresh).later 1⟩
      rw [destEncrypted, hw]
      rfl

/-! ## The plan -/

def orderDemands : ImportDest → List Demand
  | .newWorkspace _ _ => [.draw]
  | .existingWorkspace _ _ => listDemands ++ listDemands

theorem nextOrderBase_calls (hws : validateId ws = .ok ()) (h : Prepared m ws d₀ isNew d)
    (dest : ImportDest) :
    Calls m (Changed ws d₀) (nextOrderBase m ws dest) (orderDemands dest) d
      fun _ d' => Prepared m ws d₀ isNew d' := by
  cases dest with
  | newWorkspace name encrypted =>
    refine (ask_calls changed_timeless).mono ?_
    rintro _ d' ⟨-, rfl⟩
    exact h.later 1
  | existingWorkspace ws' parent =>
    refine (listRequests_calls changed_timeless hws).bind ?_
    rintro requests d₁ rfl
    rw [← List.append_nil listDemands]
    refine (listFolders_calls changed_timeless hws).bind ?_
    rintro folders d₂ rfl
    exact Asks.pure ((h.later 3).later 3)

theorem ticks_draws (n : ℕ) : Demand.ticks (List.replicate n .draw) = n := by
  induction n with
  | zero => rfl
  | succ n ih => rw [List.replicate_succ, Demand.ticks, ih]

theorem granted_draws (refused : ℕ → Bool) (t n : ℕ) :
    Demand.granted refused t (List.replicate n .draw) = some (t + n) := by
  induction n generalizing t with
  | zero => rfl
  | succ n ih => rw [List.replicate_succ, Demand.granted, ih, Nat.add_assoc, Nat.add_comm 1]

theorem marked_draws (refused : ℕ → Bool) (t n : ℕ) :
    Demand.marked refused t (List.replicate n .draw) = false := by
  induction n generalizing t with
  | zero => rfl
  | succ n ih => rw [List.replicate_succ, Demand.marked, ih]

/-- The id was drawn since the time, and is made of letters and digits. -/
def DrawnId (m : Machine) (t₀ : ℕ) (id : String) : Prop :=
  ∃ t, t₀ ≤ t ∧ DrawsValid m t ∧ id = m.newId t

/-- A plan for the workspace, with drawn ids, as large as the collection asks for. -/
structure PlanFor (m : Machine) (ws : String) (t₀ : ℕ) (col : ImportedCollection)
    (plan : ConvertedPlan) : Prop where
  folders : ∀ f ∈ plan.folders, f.workspaceId = ws ∧ DrawnId m t₀ f.id
  requests : ∀ r ∈ plan.requests, r.workspaceId = ws ∧ DrawnId m t₀ r.id
  folderCount : plan.folders.length = (draft col).folders.length
  requestCount : plan.requests.length = (draft col).requests.length
  «variables» : plan.variables = col.variables.map toEnvVar
  rootAuth : plan.rootAuth = convertAuth col.rootAuth

variable {col : ImportedCollection} {plan plan' : ConvertedPlan} {t₀ : ℕ}

theorem planFor_buildPlan (m : Machine) (ws : String) (t : ℕ) (ht : t₀ ≤ t) (base : ℚ)
    (col : ImportedCollection) (hvalid : ∀ k < (draft col).drawn, DrawsValid m (t + k)) :
    PlanFor m ws t₀ col
      (buildPlan ⟨fun k => m.newId (t + k), fun k => m.now (t + k)⟩ ws base col) := by
  have hinj : Function.Injective fun k => m.newId (t + k) := fun a b h => by
    have := m.newId_injective h
    omega
  have hplanned := @planned_convertItems ⟨fun k => m.newId (t + k), fun k => m.now (t + k)⟩ hinj
    ws base none col.items ⟨[], [], 0, 0⟩ ⟨by simp, by simp, by simp⟩
  have hshape := shape_draft ⟨fun k => m.newId (t + k), fun k => m.now (t + k)⟩ ws base col
  simp only [shape, Prod.mk.injEq] at hshape
  have hdrawn := hshape.2.2
  refine ⟨fun f hf => ?_, fun r hr => ?_, ?_, ?_, rfl, rfl⟩
  · obtain ⟨hws, k, hk, hid⟩ := hplanned.folders f hf
    exact ⟨hws, t + k, by omega, hvalid k (hdrawn ▸ hk), hid⟩
  · obtain ⟨hws, k, hk, hid⟩ := hplanned.requests r hr
    exact ⟨hws, t + k, by omega, hvalid k (hdrawn ▸ hk), hid⟩
  · have hlen := congrArg List.length hshape.1
    rwa [List.length_map, List.length_map] at hlen
  · have hlen := congrArg List.length hshape.2.1
    rwa [List.length_map, List.length_map] at hlen

/-- Changes that keep the places and the numbers of the items. -/
theorem PlanFor.of_keys (h : PlanFor m ws t₀ col plan)
    (hfolders : plan'.folders.map folderKey = plan.folders.map folderKey)
    (hrequests : plan'.requests.map requestKey = plan.requests.map requestKey)
    (hvariables : plan'.variables = plan.variables) (hroot : plan'.rootAuth = plan.rootAuth) :
    PlanFor m ws t₀ col plan' := by
  have hlen := congrArg List.length hfolders
  have hlen' := congrArg List.length hrequests
  simp only [List.length_map] at hlen hlen'
  refine ⟨fun f hf => ?_, fun r hr => ?_, hlen.trans h.folderCount, hlen'.trans h.requestCount,
    hvariables.trans h.variables, hroot.trans h.rootAuth⟩
  · have hmem := List.mem_map_of_mem (f := folderKey) hf
    rw [hfolders] at hmem
    obtain ⟨g, hg, hkey⟩ := List.mem_map.mp hmem
    obtain ⟨hws, t, ht, hvalid, hid⟩ := h.folders g hg
    exact ⟨(congrArg Prod.fst hkey).symm.trans hws, t, ht, hvalid,
      (congrArg Prod.snd hkey).symm.trans hid⟩
  · have hmem := List.mem_map_of_mem (f := requestKey) hr
    rw [hrequests] at hmem
    obtain ⟨q, hq, hkey⟩ := List.mem_map.mp hmem
    obtain ⟨hws, t, ht, hvalid, hid⟩ := h.requests q hq
    exact ⟨(congrArg Prod.fst hkey).symm.trans hws, t, ht, hvalid,
      (congrArg Prod.snd hkey).symm.trans hid⟩

theorem keys_reparentPlan (parent : Option String) (plan : ConvertedPlan) :
    (reparentPlan parent plan).folders.map folderKey = plan.folders.map folderKey ∧
      (reparentPlan parent plan).requests.map requestKey = plan.requests.map requestKey ∧
      (reparentPlan parent plan).folders.map (·.auth) = plan.folders.map (·.auth) ∧
      (reparentPlan parent plan).requests.map (·.auth) = plan.requests.map (·.auth) ∧
      (reparentPlan parent plan).variables = plan.variables ∧
      (reparentPlan parent plan).rootAuth = plan.rootAuth := by
  cases parent with
  | none => exact ⟨rfl, rfl, rfl, rfl, rfl, rfl⟩
  | some parent =>
    exact ⟨List.map_map, List.map_map, List.map_map, List.map_map, rfl, rfl⟩

theorem keys_encryptPlan (h : encryptPlan supplies ws plan = .ok plan') :
    plan'.folders.map folderKey = plan.folders.map folderKey ∧
      plan'.requests.map requestKey = plan.requests.map requestKey ∧
      plan'.variables = plan.variables ∧ plan'.rootAuth = plan.rootAuth := by
  rw [encryptPlan] at h
  obtain ⟨folders, hfolders, h⟩ := ok_of_bind h
  obtain ⟨requests, hrequests, h⟩ := ok_of_bind h
  cases h
  refine ⟨map_eq_of_mapM (fun f g hg => ?_) hfolders, map_eq_of_mapM (fun r q hq => ?_) hrequests,
    rfl, rfl⟩
  · obtain ⟨auth, -, hg⟩ := ok_of_bind hg
    cases hg
    rfl
  · obtain ⟨auth, -, hq⟩ := ok_of_bind hq
    cases hq
    rfl

/-- The encryption of a plan, where the workspace is encrypted. -/
def encryptDemands (supplies : Supplies) (ws : String) (encrypted : Bool)
    (col : ImportedCollection) : List Demand :=
  if encrypted then
    [.check (((draft col).folders.map (·.auth)).all (encryptable supplies ws) &&
      ((draft col).requests.map (·.auth)).all (encryptable supplies ws))]
  else []

theorem planItems_calls (h : Prepared m ws d₀ isNew d) (base : ℚ) (target : Target)
    (hid : target.workspaceId = ws) :
    Calls m (Changed ws d₀) (planItems supplies m target base col)
      (List.replicate (draft col).drawn .draw ++ encryptDemands supplies ws target.encrypted col) d
      fun plan d' => PlanFor m ws d₀.tick col plan ∧ Prepared m ws d₀ isNew d' := by
  have hdraw : Calls m (Changed ws d₀) (drawPlan m ws base col)
      (List.replicate (draft col).drawn .draw) d fun plan d' =>
        (PlanFor m ws d₀.tick col plan ∧
          plan.folders.map (·.auth) = (draft col).folders.map (·.auth) ∧
          plan.requests.map (·.auth) = (draft col).requests.map (·.auth)) ∧
        Prepared m ws d₀ isNew d' := by
    intro hsound b hb
    have hshape := shape_draft ⟨fun k => m.newId (d.tick + k), fun k => m.now (d.tick + k)⟩ ws base
      col
    simp only [shape, Prod.mk.injEq] at hshape
    obtain ⟨hfolders, hrequests, hdrawn⟩ := hshape
    have hvalid : ∀ k < (draft col).drawn, DrawsValid m (d.tick + k) := fun k hk =>
      hsound _ (Nat.le_add_right _ _) (by rw [ticks_draws]; omega)
    rw [granted_draws, marked_draws, Bool.or_false, ← hdrawn]
    exact ⟨rfl, changed_timeless _ _ _ hb,
      ⟨planFor_buildPlan m ws d.tick h.running.tick base col hvalid, hfolders, hrequests⟩,
      h.later _⟩
  rw [planItems, hid]
  refine hdraw.bind ?_
  rintro plan d₁ ⟨⟨hplan, hfolders, hrequests⟩, hprepared⟩
  obtain ⟨hfk, hrk, hfa, hra, hv, hr⟩ := keys_reparentPlan target.parentFolder plan
  have hplan' := hplan.of_keys hfk hrk hv hr
  cases target.encrypted with
  | false => exact Asks.pure ⟨hplan', hprepared⟩
  | true =>
    have hcheck := isOk_encryptPlan (s := supplies) (w := ws)
      (reparentPlan target.parentFolder plan)
    rw [hfa, hra, hfolders, hrequests] at hcheck
    rw [encryptDemands, if_pos rfl, ← hcheck]
    refine (lift_calls _).mono ?_
    rintro plan' d' ⟨hok, rfl⟩
    obtain ⟨hfk', hrk', hv', hr'⟩ := keys_encryptPlan hok
    exact ⟨hplan'.of_keys hfk' hrk' hv' hr', hprepared⟩

/-- The demands of an item under an id that was drawn. -/
def newItemDemands : List Demand := [.call, .check true, .call, .mark]

theorem flatMap_itemDemands {ids : List String} (h : ∀ id ∈ ids, validateId id = .ok ()) :
    ids.flatMap itemDemands = (List.replicate ids.length newItemDemands).flatten := by
  induction ids with
  | nil => rfl
  | cons id ids ih =>
    obtain ⟨hid, hids⟩ := List.forall_mem_cons.mp h
    rw [List.flatMap_cons, ih hids, List.length_cons, List.replicate_succ, List.flatten_cons,
      itemDemands, idDemand, hid]
    rfl

def bulkDemands (col : ImportedCollection) : List Demand :=
  (List.replicate (draft col).folders.length newItemDemands).flatten ++
    (List.replicate (draft col).requests.length newItemDemands).flatten

theorem plan_writeBulk_calls (hfresh : FreshIds m d₀) (hws : validateId ws = .ok ())
    (h : Prepared m ws d₀ isNew d) (hplan : PlanFor m ws d₀.tick col plan) :
    Calls m (Changed ws d₀) (writeBulk m plan.folders plan.requests) (bulkDemands col) d
      fun _ d' => Prepared m ws d₀ isNew d' := by
  have hvalid : ∀ id, DrawnId m d₀.tick id → validateId id = .ok () := by
    rintro id ⟨t, -, hvalid, rfl⟩
    exact hvalid
  have hfolderIds : ((plan.folders.map (·.id)).flatMap itemDemands) =
      (List.replicate (draft col).folders.length newItemDemands).flatten := by
    rw [flatMap_itemDemands, List.length_map, hplan.folderCount]
    intro id hid
    obtain ⟨f, hf, rfl⟩ := List.mem_map.mp hid
    exact hvalid _ (hplan.folders f hf).2
  have hrequestIds : ((plan.requests.map (·.id)).flatMap itemDemands) =
      (List.replicate (draft col).requests.length newItemDemands).flatten := by
    rw [flatMap_itemDemands, List.length_map, hplan.requestCount]
    intro id hid
    obtain ⟨r, hr, rfl⟩ := List.mem_map.mp hid
    exact hvalid _ (hplan.requests r hr).2
  rw [bulkDemands, ← hfolderIds, ← hrequestIds]
  refine (writeBulk_calls changed_timeless (fun f hf => ?_) fun r hr => ?_).mono ?_
  · obtain ⟨hfws, t, ht, -, hid⟩ := hplan.folders f hf
    exact ⟨by rwa [hfws], shown_of_new (notGlobal_of_kind nofun nofun)
      (path_ne_of_fresh hfresh ht hid)⟩
  · obtain ⟨hrws, t, ht, -, hid⟩ := hplan.requests r hr
    exact ⟨by rwa [hrws], shown_of_new (notGlobal_of_kind nofun nofun)
      (path_ne_of_fresh hfresh ht hid)⟩
  · rintro - d' ⟨n, rfl⟩
    refine (h.later n).putAll fun x hx => ?_
    rcases List.mem_append.mp hx with hx | hx
    · obtain ⟨f, -, rfl⟩ := List.mem_map.mp hx
      exact ⟨nofun, nofun⟩
    · obtain ⟨r, -, rfl⟩ := List.mem_map.mp hx
      exact ⟨nofun, nofun⟩

/-! ## The auth of the collection -/

def rootAuthDemands (supplies : Supplies) (ws : String) (encrypted : Bool) (dest : ImportDest)
    (rootAuth : AuthConfig) : List Demand :=
  if dest.creates ∧ rootAuth ≠ .none then
    (if encrypted then [.check (encryptable supplies ws rootAuth)] else []) ++
      [.call, .draw, .call, .call, .mark]
  else []

theorem updateAuth_calls (hfresh : FreshIds m d₀) (hvalid : validateId ws = .ok ())
    (hws : ws = m.newId d₀.tick) (h : Prepared m ws d₀ true d) (auth : AuthConfig) :
    Calls m (Changed ws d₀) (updateAuth m ws auth) [.call, .draw, .call, .call, .mark] d
      fun _ d' => Prepared m ws d₀ true d' := by
  obtain ⟨w, hw, hid⟩ := h.workspace rfl
  have hfind : d.workspaces.find? ws = some w := Records.find?_eq_some_iff.mpr ⟨hw, hid⟩
  have hget := getWorkspace_calls (m := m) (d := d) (T := Changed ws d₀) changed_timeless hvalid
  rw [hfind] at hget
  refine Asks.bind (u := [.call, .check true]) (v := [.draw, .call, .call, .mark]) hget ?_
  rintro w' d₁ ⟨hw', rfl⟩
  cases hw'
  refine (ask_calls changed_timeless).bind (u := [_]) ?_
  rintro now d₂ ⟨rfl, rfl⟩
  refine (saveWorkspace_calls (w := { w with auth, updatedAt := _ }) changed_timeless
    (hid ▸ hvalid) (shown_new_workspace hfresh (hid.trans hws))).mono ?_
  rintro - d' rfl
  have hkinds : ∀ x ∈ [File.workspace { w with auth, updatedAt := m.now (d.later 1).tick }],
      x.name.1 ≠ .sharedEnvironment ∧ x.name.1 ≠ .localEnvironment :=
    List.forall_mem_singleton.mpr ⟨nofun, nofun⟩
  exact (((h.later 1).later 1).later 2).putAll hkinds

theorem applyRootAuth_calls (hfresh : FreshIds m d₀) {dest : ImportDest}
    (hvalid : validateId ws = .ok ()) (hws : dest.creates = true → ws = m.newId d₀.tick) (h : Prepared m ws d₀ dest.creates d)
    (target : Target) (hid : target.workspaceId = ws) (happly : target.applyRootAuth = dest.creates)
    (rootAuth : AuthConfig) :
    Calls m (Changed ws d₀) (applyRootAuth supplies m target rootAuth)
      (rootAuthDemands supplies ws target.encrypted dest rootAuth) d
      fun _ d' => Prepared m ws d₀ dest.creates d' := by
  rw [applyRootAuth, rootAuthDemands, happly, hid]
  by_cases hcond : dest.creates = true ∧ rootAuth ≠ .none
  · rw [if_pos hcond, if_pos hcond]
    have hnew := hcond.1
    rw [hnew] at h ⊢
    cases target.encrypted with
    | false =>
      exact Asks.bind (u := []) (Asks.pure (Q := fun _ d' => d' = d) rfl) fun auth d₁ hd₁ => by
        subst hd₁
        exact updateAuth_calls hfresh hvalid (hws hnew) h _
    | true =>
      rw [if_pos rfl, if_pos rfl, ← isOk_encryptAuth ws]
      refine (lift_calls _).bind ?_
      rintro auth d₁ ⟨-, rfl⟩
      exact updateAuth_calls hfresh hvalid (hws hnew) h _
  · rw [if_neg hcond, if_neg hcond]
    exact Asks.pure h

/-! ## The import -/

/-- The demands of an import: its target, its plan, the auth of the collection, and the
environments. -/
def commitDemands (supplies : Supplies) (m : Machine) (d : Disk)
    (parsed : Except String ParsedCollection) (dest : ImportDest)
    (selected : Option (List String)) : List Demand :=
  match parsed with
  | .error _ => [.check false]
  | .ok parsed =>
    let col := select parsed.collection selected
    let ws := destId m d dest
    let encrypted := destEncrypted d dest
    targetDemands d dest ++ (orderDemands dest ++
      ((List.replicate (draft col).drawn .draw ++ encryptDemands supplies ws encrypted col) ++
      (bulkDemands col ++
      (rootAuthDemands supplies ws encrypted dest (convertAuth col.rootAuth) ++
      (globalDemands d ws (col.variables.map toEnvVar) ++
      (parsed.environments.filter fun ie => !ie.variables.isEmpty).flatMap
        fun _ => namedDemands)))))

variable (supplies) in
theorem importCommit_calls (hfresh : FreshIds m d) (parsed : Except String ParsedCollection)
    (dest : ImportDest) (selected : Option (List String)) :
    Calls m (Changed (destId m d dest) d) (importCommit supplies m parsed dest selected)
      (commitDemands supplies m d parsed dest selected) d fun _ _ => True := by
  cases parsed with
  | error e =>
    exact (lift_calls (.error _)).bind (u := [_]) (v := []) fun a _ h => absurd h.1 nofun
  | ok parsed =>
    rw [importCommit, commitDemands]
    refine Asks.bind (u := []) (Q := fun a d' => a = parsed ∧ d' = d)
      (fun _ b hb => ⟨rfl, by simpa [Demand.marked] using hb, rfl, rfl⟩) ?_
    rintro a d₁ ⟨rfl, rfl⟩
    refine (target_calls hfresh dest).bind ?_
    rintro target d₂ ⟨hvalid, hid, hencrypted, happly, hprepared⟩
    rw [hid]
    refine (nextOrderBase_calls hvalid hprepared dest).bind fun base d₃ hprepared => ?_
    rw [← hencrypted]
    refine (planItems_calls hprepared base target hid).bind ?_
    rintro plan d₄ ⟨hplan, hprepared⟩
    refine (plan_writeBulk_calls hfresh hvalid hprepared hplan).bind fun _ d₅ hprepared => ?_
    rw [hplan.rootAuth, hplan.variables]
    refine (applyRootAuth_calls hfresh hvalid ?_ hprepared target hid happly _).bind
      fun _ d₆ hprepared => ?_
    · cases dest with
      | newWorkspace name encrypted => exact fun _ => rfl
      | existingWorkspace ws parent => exact nofun
    refine (addGlobals_calls hfresh hvalid hprepared.running
      fun shared => hprepared.environments shared _).bind fun added d₇ hrunning => ?_
    dsimp only
    have hnamed : Calls m (Changed (destId m d₁ dest) d₁)
        ((a.environments.filter fun ie => !ie.variables.isEmpty).forM
          (addEnvironment supplies m (destId m d₁ dest)))
        (Demand.along (fun _ _ => namedDemands) []
          (a.environments.filter fun ie => !ie.variables.isEmpty)) d₇
        fun _ d' => Running m (destId m d₁ dest) d₁ d' :=
      Asks.forM (J := fun _ d' => Running m (destId m d₁ dest) d₁ d') hrunning
        fun _ ie d' _ hrunning => addEnvironment_calls hfresh hvalid hrunning ie
    rw [← Demand.along_const _ [], ← List.append_nil (Demand.along _ _ _)]
    exact hnamed.bind fun _ _ _ => Asks.pure trivial

end Voleeo.Imports
