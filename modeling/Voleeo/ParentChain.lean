import Mathlib.Data.Fintype.EquivFin
import Mathlib.Data.List.Nodup
import Mathlib.Data.List.Perm.Subperm
import Mathlib.Logic.Function.Basic

/-!
# Parent chains

Every key names its parent, or says that it stands at the root. A key is rooted
when its chain of parents ends there. Hanging a key under another place keeps
all keys rooted when the chain of that place does not pass through the key.
-/
namespace Voleeo

variable {κ : Type*}

/-- The chain from a place ends at the root; `none` is the root itself. -/
inductive Rooted (parentOf : κ → Option (Option κ)) : Option κ → Prop
  | root : Rooted parentOf none
  | link {k : κ} {place : Option κ} :
      parentOf k = some place → Rooted parentOf place → Rooted parentOf (some k)

/-- How many links there are to the root. -/
inductive Depth (parentOf : κ → Option (Option κ)) : Option κ → ℕ → Prop
  | root : Depth parentOf none 0
  | link {k : κ} {place : Option κ} {n : ℕ} :
      parentOf k = some place → Depth parentOf place n → Depth parentOf (some k) (n + 1)

variable {parentOf parentOf' : κ → Option (Option κ)} {place : Option κ} {k : κ}

theorem Rooted.exists_parent (h : Rooted parentOf (some k)) :
    ∃ place, parentOf k = some place ∧ Rooted parentOf place := by
  cases h with
  | link hparent hplace => exact ⟨_, hparent, hplace⟩

theorem Rooted.mono (h : Rooted parentOf place)
    (hmono : ∀ k place, parentOf k = some place → parentOf' k = some place) :
    Rooted parentOf' place := by
  induction h with
  | root => exact .root
  | link hparent _ ih => exact .link (hmono _ _ hparent) ih

/-! ## Moving a key -/

section Update
variable [DecidableEq κ]

/-- The chain from a place does not pass through a key: it ends at the root without it. -/
def Avoids (parentOf : κ → Option (Option κ)) (k : κ) (place : Option κ) : Prop :=
  Rooted (Function.update parentOf k none) place

theorem Avoids.rooted (h : Avoids parentOf k place) : Rooted parentOf place := by
  refine Rooted.mono h fun k' place' hparent => ?_
  by_cases hk : k' = k
  · rw [hk, Function.update_self] at hparent
    cases hparent
  · rwa [Function.update_of_ne hk] at hparent

theorem Avoids.rooted_update (h : Avoids parentOf k place) (link : Option (Option κ)) :
    Rooted (Function.update parentOf k link) place := by
  refine Rooted.mono h fun k' place' hparent => ?_
  by_cases hk : k' = k
  · rw [hk, Function.update_self] at hparent
    cases hparent
  · rwa [Function.update_of_ne hk] at hparent ⊢

theorem not_avoids_self : ¬ Avoids parentOf k (some k) := by
  intro h
  obtain ⟨place, hparent, -⟩ := Rooted.exists_parent h
  rw [Function.update_self] at hparent
  cases hparent

theorem Rooted.avoids_unknown (h : Rooted parentOf place) (hk : parentOf k = none) :
    Avoids parentOf k place := by
  rwa [Avoids, ← hk, Function.update_eq_self]

/-- What avoids a key also does from the parent on. -/
theorem Avoids.parent {k' : κ} (h : Avoids parentOf k (some k'))
    (hparent : parentOf k' = some place) : Avoids parentOf k place := by
  obtain ⟨place', hlink, hplace⟩ := Rooted.exists_parent h
  by_cases hk : k' = k
  · rw [hk, Function.update_self] at hlink
    cases hlink
  · rw [Function.update_of_ne hk, hparent] at hlink
    cases hlink
    exact hplace

/-- Only its own place has a chain through a key that is no one's parent. -/
theorem Rooted.avoids_leaf (h : Rooted parentOf place) (hleaf : ∀ k', parentOf k' ≠ some (some k))
    (hne : place ≠ some k) : Avoids parentOf k place := by
  induction h with
  | root => exact .root
  | @link k' place' hparent _ ih =>
    have hk : k' ≠ k := fun hk => hne (by rw [hk])
    refine .link (by rwa [Function.update_of_ne hk]) (ih fun heq => hleaf k' ?_)
    rw [hparent, heq]

/-- Everything stays rooted when a key is hung under a place whose chain avoids it. -/
theorem Rooted.update {target : Option κ} (htarget : Avoids parentOf k target)
    (h : Rooted parentOf place) : Rooted (Function.update parentOf k (some target)) place := by
  induction h with
  | root => exact .root
  | @link k' place' hparent _ ih =>
    by_cases hk : k' = k
    · rw [hk]
      exact .link (Function.update_self ..) (htarget.rooted_update _)
    · exact .link (by rwa [Function.update_of_ne hk]) ih

end Update

/-! ## The length of a chain -/

theorem Rooted.exists_depth (h : Rooted parentOf place) : ∃ n, Depth parentOf place n := by
  induction h with
  | root => exact ⟨0, .root⟩
  | link hparent _ ih =>
    obtain ⟨n, hn⟩ := ih
    exact ⟨n + 1, .link hparent hn⟩

theorem Depth.unique {m n : ℕ} (hm : Depth parentOf place m) (hn : Depth parentOf place n) :
    m = n := by
  induction hm generalizing n with
  | root =>
    cases hn
    rfl
  | link hparent _ ih =>
    cases hn with
    | link hparent' hn' =>
      rw [hparent] at hparent'
      cases hparent'
      rw [ih hn']

theorem Depth.mono {n : ℕ} (h : Depth parentOf place n)
    (hmono : ∀ k place, parentOf k = some place → parentOf' k = some place) :
    Depth parentOf' place n := by
  induction h with
  | root => exact .root
  | link hparent _ ih => exact .link (hmono _ _ hparent) ih

/-- A chain avoids every key that is deeper than its place. -/
theorem Depth.avoids [DecidableEq κ] {m : ℕ} (h : Depth parentOf place m)
    (hdeep : ∀ n, Depth parentOf (some k) n → m < n) : Avoids parentOf k place := by
  induction h with
  | root => exact .root
  | @link k' place' n hparent hdepth ih =>
    have hne : k' ≠ k := by
      rintro rfl
      exact absurd (hdeep _ (.link hparent hdepth)) (Nat.lt_irrefl _)
    refine .link (by rwa [Function.update_of_ne hne]) (ih fun n' hn' => ?_)
    exact Nat.lt_trans (Nat.lt_succ_self n) (hdeep n' hn')

/-- The chain of a parent does not come back. -/
theorem Rooted.avoids_parent [DecidableEq κ] (h : Rooted parentOf (some k))
    (hparent : parentOf k = some place) : Avoids parentOf k place := by
  obtain ⟨place', hparent', hplace⟩ := h.exists_parent
  rw [hparent] at hparent'
  cases hparent'
  obtain ⟨m, hm⟩ := hplace.exists_depth
  exact hm.avoids fun n hn => by
    rw [hn.unique (.link hparent hm)]
    exact Nat.lt_succ_self m

/-- The keys of a chain are different, since their depths are. -/
theorem Depth.exists_keys {n : ℕ} (h : Depth parentOf place n) :
    ∃ keys : List κ, keys.length = n ∧ keys.Nodup ∧
      ∀ k ∈ keys, (parentOf k).isSome ∧ ∃ m ≤ n, Depth parentOf (some k) m := by
  induction h with
  | root => exact ⟨[], rfl, List.nodup_nil, by simp⟩
  | @link k place n hparent hdepth ih =>
    obtain ⟨keys, hlen, hnodup, hkeys⟩ := ih
    refine ⟨k :: keys, by simp [hlen], List.nodup_cons.mpr ⟨fun hmem => ?_, hnodup⟩, ?_⟩
    · obtain ⟨-, m, hm, hdepth'⟩ := hkeys k hmem
      have heq := hdepth'.unique (.link hparent hdepth)
      omega
    · intro k' hk'
      rcases List.mem_cons.mp hk' with rfl | hk'
      · exact ⟨by rw [hparent]; rfl, n + 1, Nat.le_refl _, .link hparent hdepth⟩
      · obtain ⟨hsome, m, hm, hdepth'⟩ := hkeys k' hk'
        exact ⟨hsome, m, by omega, hdepth'⟩

/-- A chain is no longer than the list of all keys. -/
theorem Depth.le_length {n : ℕ} {all : List κ} (h : Depth parentOf place n)
    (hall : ∀ k, (parentOf k).isSome → k ∈ all) : n ≤ all.length := by
  obtain ⟨keys, rfl, hnodup, hkeys⟩ := h.exists_keys
  exact (List.subperm_of_subset hnodup fun k hk => hall k (hkeys k hk).1).length_le

/-! ## What hangs under a key -/

/-- The key is `top`, or its chain of parents passes through `top`. -/
inductive Under (parentOf : κ → Option (Option κ)) (top : κ) : κ → Prop
  | self : Under parentOf top top
  | link {k p : κ} : parentOf k = some (some p) → Under parentOf top p → Under parentOf top k

theorem Under.trans {top mid : κ} (h : Under parentOf mid k) (hmid : Under parentOf top mid) :
    Under parentOf top k := by
  induction h with
  | self => exact hmid
  | link hparent _ ih => exact .link hparent ih

/-- A set of keys with everything that hangs under them. -/
def Closed (parentOf : κ → Option (Option κ)) (S : Set κ) : Prop :=
  ∀ k p, parentOf k = some (some p) → p ∈ S → k ∈ S

theorem Closed.mem_of_under {S : Set κ} {top : κ} (hS : Closed parentOf S) (htop : top ∈ S)
    (h : Under parentOf top k) : k ∈ S := by
  induction h with
  | self => exact htop
  | link hparent _ ih => exact hS _ _ hparent ih

theorem closed_under (top : κ) : Closed parentOf {k | Under parentOf top k} :=
  fun _ _ hparent hp => .link hparent hp

theorem Closed.union {S T : Set κ} (hS : Closed parentOf S) (hT : Closed parentOf T) :
    Closed parentOf (S ∪ T) :=
  fun k p hparent hp => hp.imp (hS k p hparent) (hT k p hparent)

/-- What hangs under a key is the key, or hangs under one of its children. -/
theorem under_iff {top : κ} : Under parentOf top k ↔
    k = top ∨ ∃ c, parentOf c = some (some top) ∧ Under parentOf c k := by
  constructor
  · intro h
    induction h with
    | self => exact .inl rfl
    | @link k p hparent _ ih =>
      rcases ih with rfl | ⟨c, hc, hunder⟩
      · exact .inr ⟨k, hparent, .self⟩
      · exact .inr ⟨c, hc, .link hparent hunder⟩
  · rintro (rfl | ⟨c, hc, hunder⟩)
    · exact .self
    · exact hunder.trans (.link hc .self)

/-! ## Chains that pass a place -/

/-- The chain of parents from a place passes through `top`. -/
inductive Passes (parentOf : κ → Option (Option κ)) (top : Option κ) : Option κ → Prop
  | self : Passes parentOf top top
  | link {k : κ} {place : Option κ} :
      parentOf k = some place → Passes parentOf top place → Passes parentOf top (some k)

variable {top top' : Option κ}

theorem passes_root_iff : Passes parentOf none place ↔ Rooted parentOf place := by
  constructor
  · intro h
    induction h with
    | self => exact .root
    | link hparent _ ih => exact .link hparent ih
  · intro h
    induction h with
    | root => exact .self
    | link hparent _ ih => exact .link hparent ih

theorem Passes.trans (h : Passes parentOf top place) (htop : Passes parentOf top' top) :
    Passes parentOf top' place := by
  induction h with
  | self => exact htop
  | link hparent _ ih => exact .link hparent ih

/-- A chain that passes a place stops there or passes one of its children. -/
theorem passes_iff : Passes parentOf top place ↔
    place = top ∨ ∃ k, parentOf k = some top ∧ Passes parentOf (some k) place := by
  constructor
  · intro h
    induction h with
    | self => exact .inl rfl
    | @link k place hparent _ ih =>
      rcases ih with rfl | ⟨c, hc, hpasses⟩
      · exact .inr ⟨k, hparent, .self⟩
      · exact .inr ⟨c, hc, .link hparent hpasses⟩
  · rintro (rfl | ⟨c, hc, hpasses⟩)
    · exact .self
    · exact hpasses.trans (.link hc .self)

theorem Passes.exists_depth {n : ℕ} (h : Passes parentOf top place) (htop : Depth parentOf top n) :
    ∃ m ≥ n, Depth parentOf place m := by
  induction h with
  | self => exact ⟨n, Nat.le_refl n, htop⟩
  | link hparent _ ih =>
    obtain ⟨m, hm, hdepth⟩ := ih
    exact ⟨m + 1, Nat.le_succ_of_le hm, .link hparent hdepth⟩

/-- One chain does not pass two places of the same depth. -/
theorem Passes.unique {n : ℕ} (h : Passes parentOf top place) (h' : Passes parentOf top' place)
    (htop : Depth parentOf top n) (htop' : Depth parentOf top' n) : top = top' := by
  induction h with
  | self => cases h' with
    | self => rfl
    | link hparent hpasses =>
      obtain ⟨m, hm, hdepth⟩ := hpasses.exists_depth htop'
      have := htop.unique (.link hparent hdepth)
      omega
  | link hparent hpasses ih => cases h' with
    | self =>
      obtain ⟨m, hm, hdepth⟩ := hpasses.exists_depth htop
      have := htop'.unique (.link hparent hdepth)
      omega
    | link hparent' hpasses' =>
      rw [hparent] at hparent'
      cases hparent'
      exact ih hpasses'

/-! ## Cycles -/

/-- The chain of parents of the key comes back to it. -/
def OnCycle (parentOf : κ → Option (Option κ)) (k : κ) : Prop :=
  ∃ p, parentOf k = some (some p) ∧ Under parentOf k p

/-- The key before it on the cycle. -/
theorem OnCycle.exists_child (h : OnCycle parentOf k) :
    ∃ c, parentOf c = some (some k) ∧ OnCycle parentOf c := by
  obtain ⟨p, hparent, hunder⟩ := h
  rcases under_iff.mp hunder with rfl | ⟨c, hc, hcp⟩
  · exact ⟨p, hparent, p, hparent, .self⟩
  · exact ⟨c, hc, k, hc, .link hparent hcp⟩

theorem OnCycle.exists_parent (h : OnCycle parentOf k) :
    ∃ p, parentOf k = some (some p) ∧ OnCycle parentOf p := by
  obtain ⟨p, hparent, hunder⟩ := h
  refine ⟨p, hparent, ?_⟩
  cases hunder with
  | self => exact ⟨k, hparent, .self⟩
  | link hlink hrest => exact ⟨_, hlink, hrest.trans (.link hparent .self)⟩

/-- What hangs under a key that is on no cycle does not hang above it. -/
theorem Under.ne_of_no_cycle {top c : κ} (h : Under parentOf top k) (hno : ¬ OnCycle parentOf top)
    (hc : parentOf c = some (some k)) : c ≠ top := by
  rintro rfl
  exact hno ⟨k, hc, h⟩

/-- Without a cycle above a key, what passes from parents to their children holds of it. -/
theorem induction_of_no_cycle {all : List κ} (hall : ∀ k, (parentOf k).isSome → k ∈ all)
    {P : κ → Prop} (hstep : ∀ k, (∀ p, parentOf k = some (some p) → P p) → P k)
    (hno : ∀ a, Passes parentOf (some a) (some k) → ¬ OnCycle parentOf a) : P k := by
  classical
  let above : κ → κ → Prop := fun a b => ∃ p, parentOf b = some (some p) ∧ Under parentOf a p
  let Good : κ → Prop := fun k => ∀ a, Passes parentOf (some a) (some k) → ¬ OnCycle parentOf a
  let r : {k : κ // k ∈ all ∧ Good k} → {k : κ // k ∈ all ∧ Good k} → Prop :=
    fun a b => above a.1 b.1
  have : IsTrans _ r := ⟨fun a b c ⟨p, hp, hab⟩ ⟨q, hq, hbc⟩ => ⟨q, hq, hbc.trans (.link hp hab)⟩⟩
  have : Std.Irrefl r := ⟨fun a haa => a.2.2 a.1 .self haa⟩
  have : Finite {k : κ // k ∈ all ∧ Good k} :=
    Finite.of_injective
      (fun k => (⟨k.1, List.mem_toFinset.mpr k.2.1⟩ : {k : κ // k ∈ all.toFinset}))
      fun a b h => Subtype.ext (Subtype.mk.inj h)
  have hwf := Finite.wellFounded_of_trans_of_irrefl r
  have hknown : ∀ x : {k : κ // k ∈ all ∧ Good k}, P x.1 := by
    intro x
    induction x using hwf.induction with
    | _ x ih =>
      refine hstep x.1 fun p hp => ?_
      have hgood : Good p := fun a ha => x.2.2 a (.link hp ha)
      by_cases hknown : p ∈ all
      · exact ih ⟨p, hknown, hgood⟩ ⟨p, hp, .self⟩
      · refine hstep p fun q hq => absurd (hall p ?_) hknown
        rw [hq]
        rfl
  by_cases hknown' : k ∈ all
  · exact hknown ⟨k, hknown', hno⟩
  · refine hstep k fun q hq => absurd (hall k ?_) hknown'
    rw [hq]
    rfl

end Voleeo

/-!
## Walks along links

A walk follows the link of each key to the next, until a key has none. It ends exactly where the
links do not run into a cycle.
-/
namespace Voleeo

variable {κ : Type*} {link : κ → Option κ} {k p q : κ}

/-- Links as parents; a key without one is unknown. -/
def upward (link : κ → Option κ) (k : κ) : Option (Option κ) := (link k).map some

@[simp] theorem upward_eq_some : upward link k = some (some p) ↔ link k = some p := by
  simp [upward]

theorem isSome_upward : (upward link k).isSome = (link k).isSome := Option.isSome_map

/-- The keys from a place on, as far as so many steps lead. -/
def walkUp (link : κ → Option κ) : ℕ → Option κ → Option (List κ)
  | _, none => some []
  | 0, some _ => none
  | n + 1, some k => (walkUp link n (link k)).map (k :: ·)

/-- The walk from a key comes to a cycle. -/
def RunsIntoCycle (link : κ → Option κ) (k : κ) : Prop :=
  ∃ a, Under (upward link) a k ∧ OnCycle (upward link) a

theorem under_upward_iff : Under (upward link) p k ↔
    k = p ∨ ∃ q, link k = some q ∧ Under (upward link) p q := by
  constructor
  · intro h
    cases h with
    | self => exact .inl rfl
    | link hparent hunder => exact .inr ⟨_, upward_eq_some.mp hparent, hunder⟩
  · rintro (rfl | ⟨q, hq, hunder⟩)
    · exact .self
    · exact .link (upward_eq_some.mpr hq) hunder

theorem RunsIntoCycle.exists_next (h : RunsIntoCycle link k) :
    ∃ q, link k = some q ∧ RunsIntoCycle link q := by
  obtain ⟨a, hunder, hcycle⟩ := h
  rcases under_upward_iff.mp hunder with rfl | ⟨q, hq, hunder⟩
  · obtain ⟨p, hp, hcycle⟩ := hcycle.exists_parent
    exact ⟨p, upward_eq_some.mp hp, p, .self, hcycle⟩
  · exact ⟨q, hq, a, hunder, hcycle⟩

theorem mem_walkUp {n : ℕ} {place : Option κ} {ks : List κ} (h : walkUp link n place = some ks) :
    p ∈ ks ↔ ∃ k, place = some k ∧ Under (upward link) p k := by
  induction n generalizing place ks with
  | zero =>
    cases place with
    | none =>
      cases h
      simp
    | some k => cases h
  | succ n ih =>
    cases place with
    | none =>
      cases h
      simp
    | some k =>
      obtain ⟨rest, hrest, rfl⟩ := Option.map_eq_some_iff.mp h
      rw [List.mem_cons, ih hrest]
      simp only [Option.some.injEq, exists_eq_left']
      rw [under_upward_iff, eq_comm]

theorem not_runsIntoCycle_of_walkUp {n : ℕ} {ks : List κ} (h : walkUp link n (some k) = some ks) :
    ¬ RunsIntoCycle link k := by
  intro hruns
  induction n generalizing k ks with
  | zero => cases h
  | succ n ih =>
    obtain ⟨q, hq, hruns⟩ := hruns.exists_next
    obtain ⟨rest, hrest, -⟩ := Option.map_eq_some_iff.mp h
    rw [hq] at hrest
    exact ih hrest hruns

theorem walkUp_mono {m n : ℕ} {place : Option κ} {ks : List κ} (hle : m ≤ n)
    (h : walkUp link m place = some ks) : walkUp link n place = some ks := by
  induction m generalizing n place ks with
  | zero =>
    cases place with
    | none =>
      cases h
      cases n <;> rfl
    | some k => cases h
  | succ m ih =>
    cases place with
    | none =>
      cases h
      cases n <;> rfl
    | some k =>
      obtain ⟨n, rfl⟩ : ∃ n', n = n' + 1 := ⟨n - 1, by omega⟩
      obtain ⟨rest, hrest, rfl⟩ := Option.map_eq_some_iff.mp h
      rw [walkUp, ih (by omega) hrest]
      rfl

/-- When only finitely many keys have links, a walk that runs into no cycle ends. -/
theorem exists_walkUp {all : List κ} (hall : ∀ k, (link k).isSome → k ∈ all)
    (h : ¬ RunsIntoCycle link k) : ∃ n ks, walkUp link n (some k) = some ks := by
  have hunder : ∀ {a : κ} {place : Option κ}, Passes (upward link) (some a) place →
      ∀ k, place = some k → Under (upward link) a k := by
    intro a place hpasses
    induction hpasses with
    | self =>
      rintro _ ⟨⟩
      exact .self
    | @link k' place hparent _ ih =>
      rintro _ ⟨⟩
      obtain ⟨q, hq, rfl⟩ := Option.map_eq_some_iff.mp hparent
      exact .link hparent (ih q rfl)
  refine @induction_of_no_cycle _ (upward link) k _
    (fun k hk => hall k (by rwa [isSome_upward] at hk))
    (fun k => ∃ n ks, walkUp link n (some k) = some ks) (fun k ih => ?_)
    fun a ha hcycle => h ⟨a, hunder ha k rfl, hcycle⟩
  cases hlink : link k with
  | none => exact ⟨1, [k], by rw [walkUp, hlink]; rfl⟩
  | some q =>
    obtain ⟨n, ks, hks⟩ := ih q (upward_eq_some.mpr hlink)
    exact ⟨n + 1, k :: ks, by rw [walkUp, hlink, hks]; rfl⟩

end Voleeo
