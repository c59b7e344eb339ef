import Voleeo.Entities
import Voleeo.Git.Status
import Voleeo.OrderedMap
import Voleeo.ParentChain

/-!
# Change markers of the tree

Each changed file marks its item, and every folder above it. The walks up follow the parents of the
live items, and of deleted ones as they are in HEAD; they do not remember where they have been, so
each is given a bound and gives `none` where the bound cuts it off.
-/
namespace Voleeo.Web
open Git (GitChange GitFileChange)
open OrderedMap

/-- Higher rank: more severe. -/
def rank : GitChange → ℕ
  | .conflicted => 5
  | .deleted => 4
  | .renamed => 3
  | .modified => 3
  | .added => 2
  | .untracked => 1

def worse (a b : GitChange) : GitChange := if rank b ≤ rank a then a else b

/-- The live items of a workspace. -/
structure LiveItems where
  requests : List HttpRequest
  folders : List ApiFolder
  connections : List WsConnection
  grpcRequests : List GrpcRequest

/-- The ids with their parents, in the order in which they are written. -/
def LiveItems.rows (items : LiveItems) : List (Text × Option Text) :=
  items.requests.map (fun r => (r.id.toList, r.folderId.map String.toList)) ++
    items.connections.map (fun c => (c.id.toList, c.folderId.map String.toList)) ++
    items.grpcRequests.map (fun g => (g.id.toList, g.folderId.map String.toList)) ++
    items.folders.map fun f => (f.id.toList, f.folderId.map String.toList)

def parentMap (items : LiveItems) : OrderedMap Text (Option Text) := OrderedMap.ofList items.rows

/-- A text that a condition takes for true. -/
def truthy (s : Option Text) : Option Text := s.filter (· ≠ [])

def deletedParentMap (files : List GitFileChange) : OrderedMap Text Text :=
  OrderedMap.ofList (files.filterMap fun f =>
    match truthy f.nodeId, truthy f.parentId with
    | some node, some parent => some (node, parent)
    | _, _ => none)

/-- `parentOf[id] ?? deletedParentOf[id] ?? null`. -/
def resolveParent (items : LiveItems) (files : List GitFileChange) (id : Text) : Option Text :=
  match ((parentMap items).get? id).join with
  | some parent => some parent
  | none => (deletedParentMap files).get? id

/-- The next folder of a walk up. -/
def nextParent (items : LiveItems) (files : List GitFileChange) (id : Text) : Option Text :=
  truthy (resolveParent items files id)

/-- A change counts where it is worse than what is there. -/
def mark (marks : OrderedMap Text GitChange) (id : Text) (change : GitChange) :
    OrderedMap Text GitChange :=
  marks.set id (match marks.get? id with
    | some prev => worse prev change
    | none => change)

def ownByNode (files : List GitFileChange) : OrderedMap Text GitChange :=
  files.foldl (fun own f =>
    match truthy f.nodeId with
    | none => own
    | some node => mark own node f.change) OrderedMap.empty

structure ChangeMaps where
  byNode : OrderedMap Text GitChange
  ownByNode : OrderedMap Text GitChange
  folderDescendantChanged : List Text

/-- What the walks up write: the marks, and the folders with a change below. -/
structure Marks where
  byNode : OrderedMap Text GitChange
  above : List Text

def Marks.add (m : Marks) (change : GitChange) (p : Text) : Marks :=
  ⟨mark m.byNode p change, if p ∈ m.above then m.above else m.above ++ [p]⟩

/-- The loop of one changed item. -/
def markAbove (next : Text → Option Text) (change : GitChange) :
    ℕ → Marks → Option Text → Option Marks
  | _, m, none => some m
  | 0, _, some _ => none
  | fuel + 1, m, some p => markAbove next change fuel (m.add change p) (next p)

def buildChangeMap (fuel : ℕ) (files : List GitFileChange) (items : LiveItems) :
    Option ChangeMaps :=
  let own := ownByNode files
  let next := nextParent items files
  (own.entries.foldlM (fun m e => markAbove next e.2 fuel m (next e.1)) (⟨own, []⟩ : Marks)).map
    fun m => ⟨m.byNode, own, m.above⟩

/-- The loop of one changed item, up to the folder. -/
def isUnder (next : Text → Option Text) (folderId : Text) : ℕ → Option Text → Option Bool
  | _, none => some false
  | 0, some _ => none
  | fuel + 1, some p => if p = folderId then some true else isUnder next folderId fuel (next p)

def changedPathsUnderFolder (fuel : ℕ) (folderId : Text) (files : List GitFileChange)
    (items : LiveItems) : Option (List Text) :=
  let next := nextParent items files
  (files.mapM fun (f : GitFileChange) =>
    match truthy f.nodeId with
    | none => some none
    | some node =>
      if node = folderId then some none
      else (isUnder next folderId fuel (next node)).map fun (under : Bool) =>
        if under then some f.path else none).map List.reduceOption

/-! ## What the markers stand for -/

/-- The parent of an item: its folder as long as it lives, else its folder in HEAD. -/
def parentNode (items : LiveItems) (files : List GitFileChange) (id : Text) : Option Text :=
  truthy (match (parentMap items).get? id with
    | some folderId => folderId
    | none => (deletedParentMap files).get? id)

/-- A file of the list has changed the item. -/
def Changed (files : List GitFileChange) (node : Text) (change : GitChange) : Prop :=
  ∃ f ∈ files, truthy f.nodeId = some node ∧ f.change = change

/-- The item hangs somewhere below the folder. -/
def Below (next : Text → Option Text) (folder node : Text) : Prop :=
  ∃ p, next node = some p ∧ Under (upward next) folder p

/-- The most severe one of some changes, or none where there is none. -/
def IsWorst (S : GitChange → Prop) : Option GitChange → Prop
  | none => ∀ c, ¬ S c
  | some c => S c ∧ ∀ d, S d → rank d ≤ rank c

/-- What the map says, by the parents of the items. -/
structure MapExact (next : Text → Option Text) (files : List GitFileChange) (maps : ChangeMaps) :
    Prop where
  byNode : ∀ id, IsWorst (fun c => ∃ node, Under (upward next) id node ∧ Changed files node c)
    (maps.byNode.get? id)
  descendants : ∀ id, id ∈ maps.folderDescendantChanged ↔
    ∃ node c, Below next id node ∧ Changed files node c

/-- The paths of the changed items below a folder. -/
def PathsExact (next : Text → Option Text) (files : List GitFileChange) (folderId : Text)
    (paths : List Text) : Prop :=
  ∃ kept : GitFileChange → Bool, paths = (files.filter kept).map GitFileChange.path ∧
    ∀ f, kept f = true ↔ ∃ node, truthy f.nodeId = some node ∧ node ≠ folderId ∧
      Below next folderId node

/-- The map and the paths are found, and are right. -/
structure ChangesExact (items : LiveItems) (files : List GitFileChange) : Prop where
  map_ends : ∃ fuel, (buildChangeMap fuel files items).isSome
  paths_end : ∀ folderId, ∃ fuel, (changedPathsUnderFolder fuel folderId files items).isSome
  map_exact : ∀ fuel maps, buildChangeMap fuel files items = some maps →
    MapExact (parentNode items files) files maps
  /-- Another order of the files marks no item more or less severely. -/
  order : ∀ files', files'.Perm files →
    (∀ id, (deletedParentMap files').get? id = (deletedParentMap files).get? id) →
      ∀ fuel fuel' maps maps', buildChangeMap fuel files items = some maps →
        buildChangeMap fuel' files' items = some maps' → ∀ id,
          (maps'.byNode.get? id).map rank = (maps.byNode.get? id).map rank
  paths_exact : ∀ fuel folderId paths,
    changedPathsUnderFolder fuel folderId files items = some paths →
      PathsExact (parentNode items files) files folderId paths

/-- The parents above changed items form no cycle, and an item that lives at the root has no parent
in HEAD. -/
structure ParentsFit (items : LiveItems) (files : List GitFileChange) : Prop where
  no_cycle : ∀ node c, Changed files node c → ¬ RunsIntoCycle (parentNode items files) node
  at_root : ∀ id, (parentMap items).get? id = some none → (deletedParentMap files).get? id = none

/-! ## Marking -/

theorem rank_le_worse (a b : GitChange) : rank a ≤ rank (worse a b) ∧ rank b ≤ rank (worse a b) := by
  rw [worse]
  split_ifs with h
  · exact ⟨le_rfl, h⟩
  · exact ⟨(Nat.lt_of_not_le h).le, le_rfl⟩

theorem worse_eq_or (a b : GitChange) : worse a b = a ∨ worse a b = b := by
  rw [worse]
  split_ifs
  · exact .inl rfl
  · exact .inr rfl

section
variable {S T : GitChange → Prop} {o : Option GitChange} {m : OrderedMap Text GitChange}
  {id p : Text} {c : GitChange}

theorem IsWorst.congr (h : IsWorst S o) (hST : ∀ c, S c ↔ T c) : IsWorst T o := by
  have heq : S = T := funext fun c => propext (hST c)
  exact heq ▸ h

theorem IsWorst.rank_eq {o' : Option GitChange} (h : IsWorst S o) (h' : IsWorst S o') :
    o.map rank = o'.map rank := by
  cases o with
  | none =>
    cases o' with
    | none => rfl
    | some c' => exact absurd h'.1 (h c')
  | some c =>
    cases o' with
    | none => exact absurd h.1 (h' c)
    | some c' => exact congrArg some (le_antisymm (h'.2 c h.1) (h.2 c' h'.1))

/-- One more mark counts for its key, and for no other. -/
theorem isWorst_mark (h : IsWorst S (m.get? id)) (p : Text) (c : GitChange) :
    IsWorst (fun d => S d ∨ id = p ∧ d = c) ((mark m p c).get? id) := by
  rw [mark, get?_set]
  split_ifs with hid
  · subst hid
    cases hget : m.get? id with
    | none =>
      rw [hget] at h
      refine ⟨.inr ⟨rfl, rfl⟩, ?_⟩
      rintro d (hd | ⟨-, rfl⟩)
      · exact absurd hd (h d)
      · exact le_rfl
    | some prev =>
      rw [hget] at h
      obtain ⟨hprev, hnew⟩ := rank_le_worse prev c
      refine ⟨?_, ?_⟩
      · rcases worse_eq_or prev c with heq | heq
        · exact .inl (by simpa only [heq] using h.1)
        · exact .inr ⟨rfl, heq⟩
      · rintro d (hd | ⟨-, rfl⟩)
        · exact (h.2 d hd).trans hprev
        · exact hnew
  · exact h.congr fun d => by simp [hid]

end

theorem isWorst_ownByNode (files : List GitFileChange) (id : Text) :
    IsWorst (Changed files id) ((ownByNode files).get? id) := by
  induction files using List.reverseRecOn with
  | nil => exact fun c hc => by obtain ⟨f, hf, -⟩ := hc; cases hf
  | append_singleton files f ih =>
    rw [ownByNode, List.foldl_append, List.foldl_cons, List.foldl_nil, ← ownByNode]
    cases hnode : truthy f.nodeId with
    | none =>
      refine ih.congr fun c => ?_
      simp [Changed, or_and_right, exists_or, hnode]
    | some node =>
      refine (isWorst_mark ih node f.change).congr fun c => ?_
      simp [Changed, or_and_right, exists_or, hnode, eq_comm]

/-! ## The walks -/

section
variable {next : Text → Option Text} {fuel : ℕ} {change : GitChange} {m m' : Marks}
  {place : Option Text}

/-- The loop is a walk up that marks what it passes. -/
theorem markAbove_eq : markAbove next change fuel m place =
    (walkUp next fuel place).map fun ks => ks.foldl (fun m p => m.add change p) m := by
  induction fuel generalizing m place with
  | zero => cases place <;> rfl
  | succ fuel ih =>
    cases place with
    | none => rfl
    | some p =>
      rw [markAbove, walkUp, ih, Option.map_map]
      rfl

theorem mem_above_add {p id : Text} : id ∈ (m.add change p).above ↔ id ∈ m.above ∨ id = p := by
  rw [Marks.add]
  split_ifs with h
  · exact ⟨.inl, fun hid => hid.elim (·) fun heq => heq ▸ h⟩
  · simp

/-- The marks stand for these changes at these places. -/
structure Stands (m : Marks) (marked : Text → GitChange → Prop) (above : Text → Prop) : Prop where
  byNode : ∀ id, IsWorst (marked id) (m.byNode.get? id)
  above : ∀ id, id ∈ m.above ↔ above id

theorem Stands.congr {marked marked' : Text → GitChange → Prop} {above above' : Text → Prop}
    (h : Stands m marked above) (hmarked : ∀ id c, marked id c ↔ marked' id c)
    (habove : ∀ id, above id ↔ above' id) : Stands m marked' above' :=
  ⟨fun id => (h.byNode id).congr (hmarked id), fun id => (h.above id).trans (habove id)⟩

theorem Stands.foldl {marked : Text → GitChange → Prop} {above : Text → Prop}
    (h : Stands m marked above) (ks : List Text) :
    Stands (ks.foldl (fun m p => m.add change p) m)
      (fun id c => marked id c ∨ id ∈ ks ∧ c = change) (fun id => above id ∨ id ∈ ks) := by
  induction ks generalizing m marked above with
  | nil => exact h.congr (by simp) (by simp)
  | cons p ks ih =>
    have hstep : Stands (m.add change p) (fun id c => marked id c ∨ id = p ∧ c = change)
        (fun id => above id ∨ id = p) :=
      ⟨fun id => isWorst_mark (h.byNode id) p change,
        fun id => mem_above_add.trans (or_congr_left (h.above id))⟩
    refine (ih hstep).congr (fun id c => ?_) fun id => ?_
    · rw [List.mem_cons]
      tauto
    · rw [List.mem_cons]
      tauto

theorem Stands.markAbove {marked : Text → GitChange → Prop} {above : Text → Prop}
    (h : Stands m marked above) {node : Text}
    (hm : Web.markAbove next change fuel m (next node) = some m') :
    Stands m' (fun id c => marked id c ∨ Below next id node ∧ c = change)
      (fun id => above id ∨ Below next id node) := by
  rw [markAbove_eq] at hm
  obtain ⟨ks, hks, rfl⟩ := Option.map_eq_some_iff.mp hm
  have hmem : ∀ id, id ∈ ks ↔ Below next id node := fun id => mem_walkUp hks
  exact (h.foldl ks).congr (fun id c => by rw [hmem]) fun id => by rw [hmem]

theorem stands_foldlM {entries : List (Text × GitChange)} {marked : Text → GitChange → Prop}
    {above : Text → Prop} (h : Stands m marked above)
    (hm : entries.foldlM (fun m e => Web.markAbove next e.2 fuel m (next e.1)) m = some m') :
    Stands m' (fun id c => marked id c ∨ ∃ node, Below next id node ∧ (node, c) ∈ entries)
      (fun id => above id ∨ ∃ node c, Below next id node ∧ (node, c) ∈ entries) := by
  induction entries generalizing m marked above with
  | nil =>
    cases hm
    exact h.congr (by simp) (by simp)
  | cons e rest ih =>
    rw [List.foldlM_cons] at hm
    obtain ⟨m₁, hm₁, hrest⟩ := Option.bind_eq_some_iff.mp hm
    refine (ih (h.markAbove hm₁) hrest).congr (fun id c => ?_) fun id => ?_
    · simp only [List.mem_cons, Prod.ext_iff, and_or_left, exists_or, or_assoc]
      refine or_congr_right (or_congr_left ⟨fun hb => ⟨e.1, hb.1, rfl, hb.2⟩, ?_⟩)
      rintro ⟨node, hb, rfl, hc⟩
      exact ⟨hb, hc⟩
    · simp only [List.mem_cons, Prod.ext_iff, and_or_left, exists_or, or_assoc]
      refine or_congr_right (or_congr_left ⟨fun hb => ⟨e.1, e.2, hb, rfl, rfl⟩, ?_⟩)
      rintro ⟨node, c, hb, rfl, -⟩
      exact hb

end

end Voleeo.Web
