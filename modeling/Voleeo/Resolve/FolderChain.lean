import Voleeo.Entities
import Voleeo.Loops
import Mathlib.Data.List.Dedup

/-!
# Ancestor chains of folders

Both resolvers climb from a folder to its parents, and stop at a missing parent
or at a folder they have already visited. The web app also stops at an empty id,
which is falsy in a loop condition; the Rust resolver looks it up.
-/
namespace Voleeo.Resolve

/-- Climb from `current` towards the root, nearest folder first. `stop` tells the ids that end
the loop before the folder list is searched. -/
def climb (stop : String → Bool) (folders : List ApiFolder) (seen : List String) :
    Option String → List ApiFolder
  | none => []
  | some id =>
    if _hid : stop id = true ∨ id ∈ seen then []
    else
      match _hf : folders.find? (fun f => f.id = id) with
      | none => []
      | some f => f :: climb stop folders (id :: seen) f.folderId
termination_by (unvisited (·.id) folders seen).length
decreasing_by
  exact unvisited_lt (List.mem_of_find?_eq_some _hf) (by simpa using List.find?_some _hf)
    fun h => _hid (Or.inr h)

/-- The web app's chain, root first. -/
def ancestorChainRootFirst (start : Option String) (folders : List ApiFolder) : List ApiFolder :=
  (climb (fun id => id == "") folders [] start).reverse

/-- The Rust resolver's chain, root first. -/
def ancestorChainRootFirstRs (start : Option String) (folders : List ApiFolder) :
    List ApiFolder :=
  (climb (fun _ => false) folders [] start).reverse

theorem climb_eq (stop : String → Bool) (folders : List ApiFolder) (seen : List String)
    (id : String) :
    climb stop folders seen (some id) = if stop id = true ∨ id ∈ seen then []
      else
        match folders.find? (fun f => f.id = id) with
        | none => []
        | some f => f :: climb stop folders (id :: seen) f.folderId := by
  rw [climb]
  by_cases hid : stop id = true ∨ id ∈ seen
  · rw [dif_pos hid, if_pos hid]
  · rw [dif_neg hid, if_neg hid]
    split
    · rename_i hf
      rw [hf]
    · rename_i f hf
      rw [hf]

theorem mem_of_mem_climb {stop : String → Bool} {folders : List ApiFolder} {seen : List String}
    {current : Option String} {f : ApiFolder} (h : f ∈ climb stop folders seen current) :
    f ∈ folders := by
  induction seen, current using climb.induct stop folders with
  | case1 seen => simp [climb] at h
  | case2 seen id hid =>
    rw [climb_eq, if_pos hid] at h
    cases h
  | case3 seen id hid hf =>
    simp [climb_eq, hid, hf] at h
  | case4 seen id hid g hf ih =>
    simp only [climb_eq, if_neg hid, hf, List.mem_cons] at h
    rcases h with rfl | h
    · exact List.mem_of_find?_eq_some hf
    · exact ih h

/-- The web app's chain is the Rust one up to the first empty id. -/
theorem climb_prefix (folders : List ApiFolder) (seen : List String) (current : Option String) :
    climb (fun id => id == "") folders seen current <+:
      climb (fun _ => false) folders seen current := by
  induction seen, current using climb.induct (fun id => id == "") folders with
  | case1 seen => simp [climb]
  | case2 seen id hid =>
    rw [climb_eq, if_pos hid]
    exact List.nil_prefix
  | case3 seen id hid hf =>
    simp only [climb_eq, if_neg hid, hf]
    exact List.nil_prefix
  | case4 seen id hid f hf ih =>
    have hseen : id ∉ seen := fun h => hid (Or.inr h)
    simp only [climb_eq (fun _ => false), Bool.false_eq_true, false_or, if_neg hseen, hf]
    simp only [climb_eq (fun id => id == ""), if_neg hid, hf]
    exact (List.prefix_cons_inj f).mpr ih

/-- The two chains are the same when no folder is reached through an empty id. -/
theorem climb_eq_of_no_empty (folders : List ApiFolder) (hid : ∀ f ∈ folders, f.id ≠ "")
    (seen : List String) (current : Option String) :
    climb (fun id => id == "") folders seen current =
      climb (fun _ => false) folders seen current := by
  induction seen, current using climb.induct (fun _ => false) folders with
  | case1 seen => simp [climb]
  | case2 seen id h =>
    have hseen : id ∈ seen := by simpa using h
    rw [climb_eq, climb_eq, if_pos h, if_pos (Or.inr hseen)]
  | case3 seen id h hf =>
    rw [climb_eq, climb_eq, if_neg h]
    simp [hf]
  | case4 seen id h f hf ih =>
    have hne : id ≠ "" := by
      have hfid : f.id = id := by simpa using List.find?_some hf
      exact hfid ▸ hid f (List.mem_of_find?_eq_some hf)
    have hseen : id ∉ seen := fun hs => h (Or.inr hs)
    have hgo : ¬ ((id == "") = true ∨ id ∈ seen) := by simp [hne, hseen]
    rw [climb_eq, climb_eq, if_neg hgo, if_neg h]
    simp only [hf, ih]

/-! ## Complete chains -/

/-- The folders from a place up to the root, nearest first. -/
inductive Chain (folders : List ApiFolder) : Option String → List ApiFolder → Prop
  | root : Chain folders none []
  | link {f : ApiFolder} {rest : List ApiFolder} :
      f ∈ folders → Chain folders f.folderId rest → Chain folders (some f.id) (f :: rest)

variable {folders : List ApiFolder} {place : Option String} {chain chain' : List ApiFolder}

theorem Chain.mem (h : Chain folders place chain) : ∀ f ∈ chain, f ∈ folders := by
  induction h with
  | root => simp
  | link hf _ ih => exact List.forall_mem_cons.mpr ⟨hf, ih⟩

theorem Chain.mono {folders' : List ApiFolder} (h : Chain folders place chain)
    (hsub : ∀ f ∈ folders, f ∈ folders') : Chain folders' place chain := by
  induction h with
  | root => exact .root
  | link hf _ ih => exact .link (hsub _ hf) ih

theorem find?_folder (hnodup : (folders.map (·.id)).Nodup) {f : ApiFolder} (hf : f ∈ folders) :
    folders.find? (fun g => g.id = f.id) = some f := by
  cases hfind : folders.find? fun g => g.id = f.id with
  | none => simpa using List.find?_eq_none.mp hfind f hf
  | some g =>
    have hid : g.id = f.id := by simpa using List.find?_some hfind
    rw [List.inj_on_of_nodup_map hnodup (List.mem_of_find?_eq_some hfind) hf hid]

theorem Chain.unique (hnodup : (folders.map (·.id)).Nodup) (h : Chain folders place chain)
    (h' : Chain folders place chain') : chain = chain' := by
  induction h generalizing chain' with
  | root =>
    cases h'
    rfl
  | @link f rest hf _ ih =>
    generalize hplace : some f.id = place' at h'
    cases h' with
    | root => cases hplace
    | @link f' rest' hf' hrest' =>
      obtain rfl : f = f' :=
        List.inj_on_of_nodup_map hnodup hf hf' (Option.some.inj hplace)
      rw [ih hrest']

/-- Each folder of a chain begins a chain that is no longer. -/
theorem Chain.of_mem (h : Chain folders place chain) {f : ApiFolder} (hf : f ∈ chain) :
    ∃ chain', Chain folders (some f.id) chain' ∧ chain'.length ≤ chain.length := by
  induction h with
  | root => cases hf
  | @link g rest hg hrest ih =>
    rcases List.mem_cons.mp hf with rfl | hmem
    · exact ⟨_, .link hg hrest, Nat.le_refl _⟩
    · obtain ⟨chain', hchain', hle⟩ := ih hmem
      exact ⟨chain', hchain', hle.trans (by simp)⟩

/-- A chain does not come back to a folder. -/
theorem Chain.nodup (hnodup : (folders.map (·.id)).Nodup) (h : Chain folders place chain) :
    (chain.map (·.id)).Nodup := by
  induction h with
  | root => exact List.nodup_nil
  | @link f rest hf hrest ih =>
    rw [List.map_cons, List.nodup_cons]
    refine ⟨fun hmem => ?_, ih⟩
    obtain ⟨g, hg, hid⟩ := List.mem_map.mp hmem
    obtain ⟨chain', hchain', hle⟩ := hrest.of_mem hg
    rw [hid] at hchain'
    have heq := Chain.unique hnodup hchain' (.link hf hrest)
    rw [heq, List.length_cons] at hle
    exact absurd hle (by omega)

theorem chain_cons {f : ApiFolder} :
    Chain folders place (f :: chain) ↔
      place = some f.id ∧ f ∈ folders ∧ Chain folders f.folderId chain := by
  constructor
  · rintro ⟨⟩
    exact ⟨rfl, ‹_›, ‹_›⟩
  · rintro ⟨rfl, hf, h⟩
    exact .link hf h

theorem chain_nil : Chain folders place [] ↔ place = none := by
  constructor
  · rintro ⟨⟩
    rfl
  · rintro rfl
    exact .root

theorem Chain.place_eq {place' : Option String} (h : Chain folders place chain)
    (h' : Chain folders place' chain) : place = place' := by
  cases chain with
  | nil => rw [chain_nil.mp h, chain_nil.mp h']
  | cons f chain => rw [(chain_cons.mp h).1, (chain_cons.mp h').1]

/-- The rest of a chain is the chain of the place where it begins. -/
theorem Chain.of_append {inner : List ApiFolder} {f : ApiFolder}
    (h : Chain folders place (inner ++ f :: chain)) : Chain folders (some f.id) (f :: chain) := by
  induction inner generalizing place with
  | nil =>
    obtain rfl := (chain_cons.mp h).1
    exact h
  | cons g inner ih => exact ih (chain_cons.mp h).2.2

/-- A folder of the chain is the place of a folder below it, or where the chain begins. -/
theorem Chain.mem_places {inner : List ApiFolder} {f : ApiFolder}
    (h : Chain folders place (inner ++ f :: chain)) :
    some f.id ∈ place :: (inner ++ f :: chain).map (·.folderId) := by
  induction inner generalizing place with
  | nil => exact List.mem_cons.mpr (Or.inl (chain_cons.mp h).1.symm)
  | cons g inner ih => exact List.mem_cons_of_mem _ (ih (chain_cons.mp h).2.2)

/-- Chains are no longer than the list of folders. -/
theorem Chain.length_le (hnodup : (folders.map (·.id)).Nodup) (h : Chain folders place chain) :
    chain.length ≤ folders.length := by
  have hsub : chain.map (·.id) ⊆ folders.map (·.id) := List.map_subset _ h.mem
  simpa using ((h.nodup hnodup).subperm hsub).length_le

/-- Climbing goes through the whole chain. -/
theorem climb_chain (hnodup : (folders.map (·.id)).Nodup) {stop : String → Bool}
    (h : Chain folders place chain) (hstop : ∀ f ∈ chain, stop f.id = false)
    {seen : List String} (hseen : ∀ f ∈ chain, f.id ∉ seen) :
    climb stop folders seen place = chain := by
  induction h generalizing seen with
  | root => rw [climb]
  | @link f rest hf hrest ih =>
    obtain ⟨hstopf, hstoprest⟩ := List.forall_mem_cons.mp hstop
    obtain ⟨hseenf, hseenrest⟩ := List.forall_mem_cons.mp hseen
    have hgo : ¬ (stop f.id = true ∨ f.id ∈ seen) := by simp [hstopf, hseenf]
    have hfresh : ∀ g ∈ rest, g.id ∉ f.id :: seen := by
      have hdistinct := (Chain.link hf hrest).nodup hnodup
      rw [List.map_cons, List.nodup_cons] at hdistinct
      intro g hg
      rw [List.mem_cons, not_or]
      exact ⟨fun hid => hdistinct.1 (hid ▸ List.mem_map_of_mem hg), hseenrest g hg⟩
    rw [climb_eq, if_neg hgo, find?_folder hnodup hf]
    simp only [ih hstoprest hfresh]

end Voleeo.Resolve
