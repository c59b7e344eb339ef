import Mathlib

/-!
# Tries

A node holds values and, under keys, further nodes. The branches of a node are in the order of
their keys. What a trie holds is the list of its values with the paths that lead to them.
-/
namespace Voleeo

mutual

inductive Trie (κ α : Type)
  | node (values : List α) (branches : Branches κ α)

inductive Branches (κ α : Type)
  | nil
  | cons (key : κ) (child : Trie κ α) (rest : Branches κ α)

end

variable {κ α : Type}

namespace Trie

def values : Trie κ α → List α
  | .node values _ => values

def branches : Trie κ α → Branches κ α
  | .node _ branches => branches

def empty : Trie κ α := .node [] .nil

end Trie

def Branches.isEmpty : Branches κ α → Bool
  | .nil => true
  | .cons _ _ _ => false

def Branches.keys : Branches κ α → List κ
  | .nil => []
  | .cons key _ rest => key :: rest.keys

/-- What a value under a branch looks like from the node above. -/
def underKey (key : κ) (e : List κ × α) : List κ × α := (key :: e.1, e.2)

mutual

def Trie.entries : Trie κ α → List (List κ × α)
  | .node values branches => values.map (fun a => ([], a)) ++ branches.entries

def Branches.entries : Branches κ α → List (List κ × α)
  | .nil => []
  | .cons key child rest => child.entries.map (underKey key) ++ rest.entries

end

@[simp] theorem Trie.entries_empty : (Trie.empty : Trie κ α).entries = [] := rfl

theorem Branches.path_ne_nil : ∀ {b : Branches κ α}, ∀ e ∈ b.entries, e.1 ≠ []
  | .nil, _, h => absurd h List.not_mem_nil
  | .cons key child rest, e, h => by
      rw [entries, List.mem_append, List.mem_map] at h
      obtain ⟨e, -, rfl⟩ | h := h
      · exact List.cons_ne_nil _ _
      · exact path_ne_nil e h

section
variable [LinearOrder κ]

/-- The node under a key is changed; where there is none, an empty one is put in its place. -/
def Branches.entry (key : κ) (f : Trie κ α → Trie κ α) : Branches κ α → Branches κ α
  | .nil => .cons key (f .empty) .nil
  | .cons k child rest =>
    if key = k then .cons k (f child) rest
    else if key < k then .cons key (f .empty) (.cons k child rest)
    else .cons k child (rest.entry key f)

def Trie.insert (a : α) : List κ → Trie κ α → Trie κ α
  | [], .node values branches => .node (values ++ [a]) branches
  | key :: path, .node values branches => .node values (branches.entry key (Trie.insert a path))

def Trie.ofList (path : α → List κ) (l : List α) : Trie κ α :=
  l.foldl (fun t a => t.insert a (path a)) .empty

mutual

/-- The keys of every node grow. -/
def Trie.Ordered : Trie κ α → Prop
  | .node _ branches => branches.Ordered

def Branches.Ordered : Branches κ α → Prop
  | .nil => True
  | .cons key child rest => (∀ k ∈ rest.keys, key < k) ∧ child.Ordered ∧ rest.Ordered

end

/-! ## The order of keys -/

theorem Branches.mem_keys_entry {key k : κ} {f : Trie κ α → Trie κ α} (b : Branches κ α) :
    k ∈ (b.entry key f).keys ↔ k = key ∨ k ∈ b.keys := by
  match b with
  | .nil => simp [entry, keys]
  | .cons k' child rest =>
    rw [entry]
    split_ifs with heq hlt
    · simp [keys, heq]
    · simp [keys]
    · simp only [keys, List.mem_cons, mem_keys_entry rest]
      tauto

theorem Trie.ordered_empty : (Trie.empty : Trie κ α).Ordered := trivial

theorem Branches.lt_keys_cons {key k : κ} {child : Trie κ α} {rest : Branches κ α} (h : key < k)
    (hkeys : ∀ k' ∈ rest.keys, k < k') : ∀ k' ∈ (cons k child rest).keys, key < k' := by
  intro k' hk'
  rcases List.mem_cons.mp hk' with rfl | hmem
  · exact h
  · exact lt_trans h (hkeys k' hmem)

theorem Branches.Ordered.entry {key : κ} {f : Trie κ α → Trie κ α}
    (hf : ∀ t, t.Ordered → (f t).Ordered) :
    ∀ {b : Branches κ α}, b.Ordered → (b.entry key f).Ordered
  | .nil, _ => ⟨by simp [keys], hf _ Trie.ordered_empty, trivial⟩
  | .cons k child rest, h => by
      obtain ⟨hkeys, hchild, hrest⟩ := h
      rw [Branches.entry]
      split_ifs with heq hlt
      · exact ⟨hkeys, hf _ hchild, hrest⟩
      · exact ⟨lt_keys_cons hlt hkeys, hf _ Trie.ordered_empty, hkeys, hchild, hrest⟩
      · refine ⟨?_, hchild, hrest.entry hf⟩
        intro k' hk'
        rcases (mem_keys_entry rest).mp hk' with rfl | hmem
        · exact lt_of_le_of_ne (not_lt.mp hlt) (Ne.symm heq)
        · exact hkeys k' hmem

theorem Trie.Ordered.insert {a : α} {path : List κ} {t : Trie κ α} (h : t.Ordered) :
    (t.insert a path).Ordered := by
  induction path generalizing t with
  | nil =>
    obtain ⟨values, branches⟩ := t
    exact h
  | cons key path ih =>
    obtain ⟨values, branches⟩ := t
    exact Branches.Ordered.entry (fun t ht => ih ht) h

/-! ## What an insertion adds -/

theorem Branches.entries_entry_perm (key : κ) {f : Trie κ α → Trie κ α} {path : List κ} {a : α}
    (hf : ∀ t, (f t).entries.Perm ((path, a) :: t.entries)) (b : Branches κ α) :
    (b.entry key f).entries.Perm ((key :: path, a) :: b.entries) := by
  match b with
  | .nil =>
    have hmap := (hf .empty).map (underKey key)
    simpa [entry, entries, underKey] using hmap
  | .cons k child rest =>
    rw [entry]
    split_ifs with heq hlt
    · subst heq
      exact ((hf child).map (underKey key)).append_right rest.entries
    · have hmap := (hf .empty).map (underKey key)
      exact hmap.append_right _
    · have hrest :=
        (entries_entry_perm key hf rest).append_left (child.entries.map (underKey k))
      exact hrest.trans List.perm_middle

/-- An insertion adds one value, under its path. -/
theorem Trie.entries_insert_perm (a : α) (path : List κ) (t : Trie κ α) :
    (t.insert a path).entries.Perm ((path, a) :: t.entries) := by
  induction path generalizing t with
  | nil =>
    obtain ⟨values, branches⟩ := t
    simp only [insert, entries, List.map_append, List.append_assoc]
    exact List.perm_middle
  | cons key path ih =>
    obtain ⟨values, branches⟩ := t
    have hbranches := branches.entries_entry_perm key ih
    exact (hbranches.append_left _).trans List.perm_middle

theorem Trie.entries_ofList_perm (path : α → List κ) (l : List α) :
    (ofList path l).entries.Perm (l.map fun a => (path a, a)) := by
  have hfold : ∀ t : Trie κ α, (l.foldl (fun t a => t.insert a (path a)) t).entries.Perm
      (t.entries ++ l.map fun a => (path a, a)) := by
    induction l with
    | nil => simp
    | cons a l ih =>
      intro t
      have hinsert := (entries_insert_perm a (path a) t).append_right (l.map fun a => (path a, a))
      exact (ih _).trans (hinsert.trans List.perm_middle.symm)
  exact hfold .empty

/-! ## The values of one path -/

theorem filter_underKey (key : κ) (path : List κ) (entries : List (List κ × α)) :
    (entries.map (underKey key)).filter (·.1 = key :: path) =
      (entries.filter (·.1 = path)).map (underKey key) := by
  rw [List.filter_map]
  congr 1
  apply List.filter_congr
  intro e he
  simp [underKey]

theorem filter_underKey_other {key k : κ} (h : k ≠ key) (path : List κ)
    (entries : List (List κ × α)) :
    (entries.map (underKey k)).filter (·.1 = key :: path) = [] := by
  rw [List.filter_map, List.filter_eq_nil_iff.mpr, List.map_nil]
  intro e he
  simp [underKey, h]

/-- No value under other keys has a path through this one. -/
theorem Branches.filter_entries_other {key : κ} (path : List κ) :
    ∀ {b : Branches κ α}, key ∉ b.keys → b.entries.filter (·.1 = key :: path) = []
  | .nil, _ => rfl
  | .cons k child rest, h => by
      rw [keys, List.mem_cons, not_or] at h
      rw [entries, List.filter_append, filter_underKey_other (Ne.symm h.1),
        filter_entries_other path h.2]
      rfl

theorem Branches.not_mem_keys_of_lt {key : κ} {b : Branches κ α} (h : ∀ k ∈ b.keys, key < k) :
    key ∉ b.keys := fun hmem => lt_irrefl key (h key hmem)

/-- What is added at one path stands behind all that is there, when nothing else is. -/
theorem ite_append_comm {P : Prop} [Decidable P] {β : Type} {x r : List β} (h : P → r = []) :
    (if P then x else []) ++ r = r ++ if P then x else [] := by
  split_ifs with hp
  · rw [h hp, List.append_nil, List.nil_append]
  · rw [List.append_nil, List.nil_append]

section
variable {key : κ} {f : Trie κ α → Trie κ α} {path : List κ} {a : α}
  (hf : ∀ t, t.Ordered → ∀ p, (f t).entries.filter (·.1 = p) =
    t.entries.filter (·.1 = p) ++ if p = path then [(path, a)] else [])
include hf

theorem filter_underKey_change {t : Trie κ α} (ht : t.Ordered) (k : κ) (p : List κ) :
    ((f t).entries.map (underKey key)).filter (·.1 = k :: p) =
      (t.entries.map (underKey key)).filter (·.1 = k :: p) ++
        if k :: p = key :: path then [(key :: path, a)] else [] := by
  by_cases hk : k = key
  · subst hk
    rw [filter_underKey, filter_underKey, hf t ht, List.map_append]
    simp only [List.cons.injEq, true_and]
    split_ifs <;> rfl
  · rw [filter_underKey_other (Ne.symm hk), filter_underKey_other (Ne.symm hk),
      if_neg fun h => hk (List.cons.inj h).1]
    rfl

theorem Branches.filter_entries_entry {b : Branches κ α} (hb : b.Ordered) (p : List κ) :
    (b.entry key f).entries.filter (·.1 = p) =
      b.entries.filter (·.1 = p) ++ if p = key :: path then [(key :: path, a)] else [] := by
  obtain _ | ⟨k', p⟩ := p
  · have hnil : ∀ b : Branches κ α, b.entries.filter (·.1 = []) = [] := fun b =>
      List.filter_eq_nil_iff.mpr fun e he => by simpa using path_ne_nil e he
    rw [hnil, hnil, if_neg (List.cons_ne_nil _ _).symm]
    rfl
  · match b with
    | .nil =>
      have hnew := @filter_underKey_change _ _ _ key _ _ _ hf _ Trie.ordered_empty k' p
      simpa [entry, entries] using hnew
    | .cons k child rest =>
      obtain ⟨hkeys, hchild, hrest⟩ := hb
      rw [entry]
      by_cases heq : key = k
      · subst heq
        rw [if_pos rfl, entries, entries, List.filter_append, List.filter_append,
          filter_underKey_change hf hchild, List.append_assoc, List.append_assoc,
          ite_append_comm]
        intro hpath
        rw [(List.cons.inj hpath).1]
        exact filter_entries_other p (not_mem_keys_of_lt hkeys)
      by_cases hlt : key < k
      · rw [if_neg heq, if_pos hlt, entries, List.filter_append,
          filter_underKey_change hf Trie.ordered_empty, Trie.entries_empty, List.map_nil,
          List.filter_nil, List.nil_append, ite_append_comm]
        intro hpath
        rw [(List.cons.inj hpath).1]
        exact filter_entries_other p (not_mem_keys_of_lt (lt_keys_cons hlt hkeys))
      · rw [if_neg heq, if_neg hlt, entries, entries, List.filter_append, List.filter_append,
          filter_entries_entry hrest (k' :: p), List.append_assoc]

end

/-- An insertion adds its value behind those of the same path. -/
theorem Trie.filter_entries_insert {t : Trie κ α} (h : t.Ordered) (a : α) (path p : List κ) :
    (t.insert a path).entries.filter (·.1 = p) =
      t.entries.filter (·.1 = p) ++ if p = path then [(path, a)] else [] := by
  induction path generalizing t p with
  | nil =>
    obtain ⟨values, branches⟩ := t
    simp only [insert, entries, List.map_append, List.filter_append, List.append_assoc]
    congr 1
    have hone : ([a].map fun a => (([] : List κ), a)).filter (·.1 = p) =
        if p = [] then [([], a)] else [] := by
      obtain _ | ⟨k, p⟩ := p <;> simp
    rw [hone]
    apply ite_append_comm
    rintro rfl
    exact List.filter_eq_nil_iff.mpr fun e he => by simpa using Branches.path_ne_nil e he
  | cons key path ih =>
    obtain ⟨values, branches⟩ := t
    simp only [insert, entries, List.filter_append, List.append_assoc]
    congr 1
    exact Branches.filter_entries_entry (fun t ht p => ih ht p) h p

/-- The values of one path are in the order of the list. -/
theorem Trie.filter_entries_ofList (path : α → List κ) (l : List α) (p : List κ) :
    ((ofList path l).entries.filter (·.1 = p)).map Prod.snd = l.filter (path · = p) := by
  have hfold : ∀ t : Trie κ α, t.Ordered →
      ((l.foldl (fun t a => t.insert a (path a)) t).entries.filter (·.1 = p)).map Prod.snd =
        (t.entries.filter (·.1 = p)).map Prod.snd ++ l.filter (path · = p) := by
    induction l with
    | nil => simp
    | cons a l ih =>
      intro t ht
      rw [List.foldl_cons, ih _ ht.insert, filter_entries_insert ht, List.map_append,
        List.append_assoc, List.filter_cons]
      congr 1
      by_cases hp : path a = p
      · simp [hp]
      · simp [hp, Ne.symm hp]
  exact hfold .empty ordered_empty

end

end Voleeo
