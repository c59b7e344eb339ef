import Voleeo.OrderedMap

/-!
# Three-way merge of scalars and keyed lists

Values and rows are merged against a common base. A list is indexed by an
identity before it is merged, so the index keeps one row for each identity.
-/
namespace Voleeo.GitDiff
open OrderedMap

structure ScalarMerge where
  /-- The merged value, or `ours` when the sides clash. -/
  value : String
  conflict : Bool
  yours : String
  theirs : String
  deriving DecidableEq, Repr

def merge3Scalar (base : Option String) (ours theirs : String) : ScalarMerge :=
  let b := base.getD ""
  if ours = theirs then ⟨ours, false, ours, theirs⟩
  else if ours = b then ⟨theirs, false, ours, theirs⟩
  else if theirs = b then ⟨ours, false, ours, theirs⟩
  else ⟨ours, true, ours, theirs⟩

theorem merge3Scalar_conflict {base : Option String} {ours theirs : String} :
    (merge3Scalar base ours theirs).conflict = true ↔
      ours ≠ theirs ∧ ours ≠ base.getD "" ∧ theirs ≠ base.getD "" := by
  simp only [merge3Scalar]
  split_ifs <;> simp_all

/-- A key on which both sides moved away from the base in different ways. -/
structure ListConflict (α : Type*) where
  key : String
  ours : Option α
  theirs : Option α
  deriving DecidableEq, Repr

structure ListMerge (α : Type*) where
  resolved : List α
  conflicts : List (ListConflict α)
  deriving DecidableEq, Repr

variable {α : Type*}

/-- Both rows absent, or both present and equal. -/
def eqRows (equal : α → α → Bool) : Option α → Option α → Bool
  | none, none => true
  | some x, some y => equal x y
  | _, _ => false

/-- One turn of the merge loop. -/
def mergeKey (b o t : OrderedMap String α) (equal : α → α → Bool) (m : ListMerge α)
    (key : String) : ListMerge α :=
  let ov := o.get? key
  let tv := t.get? key
  let bv := b.get? key
  if eqRows equal ov tv then { m with resolved := m.resolved ++ ov.toList }
  else if eqRows equal ov bv then
    { m with resolved := m.resolved ++ tv.toList } -- only theirs changed
  else if eqRows equal tv bv then
    { m with resolved := m.resolved ++ ov.toList } -- only ours changed
  else { m with conflicts := m.conflicts ++ [⟨key, ov, tv⟩] }

def merge3List (base ours theirs : List α) (idOf : α → String) (equal : α → α → Bool) :
    ListMerge α :=
  let b := byId idOf base
  let o := byId idOf ours
  let t := byId idOf theirs
  (distinct (o.keys ++ t.keys ++ b.keys)).foldl (mergeKey b o t equal) ⟨[], []⟩

/-! ## What the loop leaves behind -/

/-- The row a key resolves to, when it needs no choice. -/
def resolvedAt (b o t : OrderedMap String α) (equal : α → α → Bool) (key : String) : Option α :=
  if eqRows equal (o.get? key) (t.get? key) then o.get? key
  else if eqRows equal (o.get? key) (b.get? key) then t.get? key
  else if eqRows equal (t.get? key) (b.get? key) then o.get? key
  else none

def clashesAt (b o t : OrderedMap String α) (equal : α → α → Bool) (key : String) : Bool :=
  !(eqRows equal (o.get? key) (t.get? key) || eqRows equal (o.get? key) (b.get? key) ||
    eqRows equal (t.get? key) (b.get? key))

theorem mergeKey_eq (b o t : OrderedMap String α) (equal : α → α → Bool) (m : ListMerge α)
    (key : String) :
    mergeKey b o t equal m key =
      ⟨m.resolved ++ (resolvedAt b o t equal key).toList,
        m.conflicts ++ if clashesAt b o t equal key then
          [⟨key, o.get? key, t.get? key⟩] else []⟩ := by
  simp only [mergeKey, resolvedAt, clashesAt]
  split_ifs <;> simp_all

theorem foldl_mergeKey (b o t : OrderedMap String α) (equal : α → α → Bool)
    (ks : List String) (m : ListMerge α) :
    ks.foldl (mergeKey b o t equal) m =
      ⟨m.resolved ++ ks.filterMap (resolvedAt b o t equal),
        m.conflicts ++ (ks.filter (clashesAt b o t equal)).map
          fun key => ⟨key, o.get? key, t.get? key⟩⟩ := by
  induction ks generalizing m with
  | nil => simp
  | cons k ks ih =>
    rw [List.foldl_cons, ih, mergeKey_eq]
    cases hr : resolvedAt b o t equal k <;> cases hc : clashesAt b o t equal k <;>
      simp [hr, hc]

theorem merge3List_resolved (base ours theirs : List α) (idOf : α → String) (equal : α → α → Bool) :
    (merge3List base ours theirs idOf equal).resolved =
      (distinct ((byId idOf ours).keys ++ (byId idOf theirs).keys ++
        (byId idOf base).keys)).filterMap
        (resolvedAt (byId idOf base) (byId idOf ours) (byId idOf theirs) equal) := by
  simp [merge3List, foldl_mergeKey]

theorem merge3List_conflicts (base ours theirs : List α) (idOf : α → String)
    (equal : α → α → Bool) :
    (merge3List base ours theirs idOf equal).conflicts =
      ((distinct ((byId idOf ours).keys ++ (byId idOf theirs).keys ++ (byId idOf base).keys)).filter
        (clashesAt (byId idOf base) (byId idOf ours) (byId idOf theirs) equal)).map
        fun key => ⟨key, (byId idOf ours).get? key, (byId idOf theirs).get? key⟩ := by
  simp [merge3List, foldl_mergeKey]

/-! ## One-sided edits -/

theorem eqRows_self {equal : α → α → Bool} (hrefl : ∀ x, equal x x = true) (v : Option α) :
    eqRows equal v v = true := by
  cases v with
  | none => rfl
  | some x => exact hrefl x

/-- When theirs is the base, every row of the index of ours comes through in order. -/
theorem merge3List_ours_only {equal : α → α → Bool} (hrefl : ∀ x, equal x x = true)
    (base ours : List α) (idOf : α → String) :
    merge3List base ours base idOf equal = ⟨(byId idOf ours).values, []⟩ := by
  have hc : (merge3List base ours base idOf equal).conflicts = [] := by
    rw [merge3List_conflicts, List.map_eq_nil_iff, List.filter_eq_nil_iff]
    intro key _
    simp [clashesAt, eqRows_self hrefl]
  have hr : (merge3List base ours base idOf equal).resolved = (byId idOf ours).values := by
    rw [merge3List_resolved, List.append_assoc]
    obtain ⟨rest, heq, hno⟩ := distinct_append (nodup_keys (byId idOf ours))
      ((byId idOf base).keys ++ (byId idOf base).keys)
    -- a key of the base only is kept out: ours does not have it, and theirs is the base
    have hval : ∀ key, resolvedAt (byId idOf base) (byId idOf ours) (byId idOf base) equal key =
        ((byId idOf ours).get? key).map id := by
      intro key
      simp only [resolvedAt, eqRows_self hrefl, if_true, Option.map_id_fun, id_eq]
      split_ifs with h1
      · rfl
      · rfl
    have hrest : rest.filterMap (fun key => ((byId idOf ours).get? key).map id) = [] := by
      rw [List.filterMap_eq_nil_iff]
      intro key hk
      simp [get?_eq_none.mpr (hno key hk)]
    rw [heq, List.filterMap_congr fun key _ => hval key, List.filterMap_append, hrest,
      List.append_nil]
    exact filterMap_keys (byId idOf ours) fun _ => id
  exact congrArg₂ ListMerge.mk hr hc

/-- The row that stands for a row of theirs when ours is the base: the base's own row when the
two count as equal. -/
def keptRow (b : OrderedMap String α) (equal : α → α → Bool) (key : String) (row : α) : α :=
  match b.get? key with
  | some bv => if equal bv row then bv else row
  | none => row

theorem merge3List_theirs_only {equal : α → α → Bool} (hrefl : ∀ x, equal x x = true)
    (base theirs : List α) (idOf : α → String) :
    (merge3List base base theirs idOf equal).conflicts = [] ∧
      (merge3List base base theirs idOf equal).resolved.Perm
        ((byId idOf theirs).entries.map fun e => keptRow (byId idOf base) equal e.1 e.2) := by
  constructor
  · rw [merge3List_conflicts, List.map_eq_nil_iff, List.filter_eq_nil_iff]
    intro key _
    simp [clashesAt, eqRows_self hrefl]
  · have hval : ∀ key, resolvedAt (byId idOf base) (byId idOf base) (byId idOf theirs) equal key =
        ((byId idOf theirs).get? key).map (keptRow (byId idOf base) equal key) := by
      intro key
      simp only [resolvedAt, eqRows_self hrefl, if_true]
      cases hb : (byId idOf base).get? key with
      | none => cases ht : (byId idOf theirs).get? key <;> simp [eqRows, keptRow, hb]
      | some bv =>
        cases ht : (byId idOf theirs).get? key with
        | none => simp [eqRows]
        | some tv => by_cases he : equal bv tv <;> simp [eqRows, keptRow, hb, he]
    rw [merge3List_resolved, List.filterMap_congr fun key _ => hval key]
    apply filterMap_perm _ _ (nodup_distinct _)
    intro key hk
    rw [mem_distinct, List.mem_append, List.mem_append]
    exact Or.inl (Or.inr hk)

end Voleeo.GitDiff

/-!
## The declarative diff engine

An entity is described by a list of fields. Reviews, conflict choosers, merges
and per-field discards are derived from that list alone. Setters return the
updated entity in place of mutating it.
-/
namespace Voleeo.GitDiff
open OrderedMap

inductive FieldGroup
  | general
  | url
  | queryParameters
  | headers
  | metadata
  | body
  | response
  | query
  | «variables»
  | message
  | authentication
  | dnsOverrides
  | value
  deriving DecidableEq, Repr

inductive FieldKind
  | added
  | removed
  | changed
  deriving DecidableEq, Repr

/-- One semantic edit inside an entity. Only an edit of a listed field has a key. -/
structure FieldChange where
  group : FieldGroup
  label : Option String
  kind : FieldKind
  before : Option String
  after : Option String
  secret : Option Bool
  key : Option String
  deriving DecidableEq, Repr

inductive Choice
  | yours
  | theirs
  | both
  deriving DecidableEq, Repr

/-- One conflicting field, offered as a choice between two displayed values. -/
structure ConflictField where
  id : String
  group : FieldGroup
  label : Option String
  yours : String
  theirs : String
  canBoth : Option Bool
  secret : Option Bool
  deriving DecidableEq, Repr

structure Common where
  id : String
  group : FieldGroup
  label : Option String := none
  secret : Option Bool := none

/-- A plain string field. -/
structure ScalarField (E : Type) extends Common where
  get : E → String
  set : E → String → E

/-- A keyed list field. -/
structure ListField (E : Type) extends Common where
  Item : Type
  canBoth : Option Bool := none
  get : E → List Item
  set : E → List Item → E
  idOf : Item → String
  equal : Item → Item → Bool
  labelOf : Item → String
  valueOf : Item → String
  secretOf : Item → Bool

/-- A labelled part of a blob. -/
structure BlobEntry where
  label : String
  value : String
  secret : Bool
  deriving DecidableEq, Repr

/-- An opaque object field, merged as a whole and diffed through `compare`. -/
structure BlobField (E : Type) extends Common where
  compare : E → String
  summary : E → String
  /-- `copy source target` is the target with the source's value. -/
  copy : E → E → E
  entries : Option (E → List BlobEntry) := none

inductive Field (E : Type)
  | scalar (f : ScalarField E)
  | list (f : ListField E)
  | blob (f : BlobField E)

variable {E : Type}

def Field.common : Field E → Common
  | .scalar f => f.toCommon
  | .list f => f.toCommon
  | .blob f => f.toCommon

def Field.id (f : Field E) : String := f.common.id

/-! ## Reviewing changes -/

/-- `undefined` counts as the empty string on either side. -/
def scalarField (group : FieldGroup) (before after : Option String) (label : Option String)
    (secret : Option Bool) (key : String) : Option FieldChange :=
  let b := before.getD ""
  let a := after.getD ""
  if b = a then none
  else if b = "" then some ⟨group, label, .added, none, some a, secret, some key⟩
  else if a = "" then some ⟨group, label, .removed, some b, none, secret, some key⟩
  else some ⟨group, label, .changed, some b, some a, secret, some key⟩

structure ListDiff (α : Type) where
  added : List (String × α)
  removed : List (String × α)
  changed : List (String × α × α)

def diffList {α : Type} (oldList newList : List α) (idOf : α → String)
    (equal : α → α → Bool) : ListDiff α :=
  let oldBy := byId idOf oldList
  let newBy := byId idOf newList
  { added := newBy.entries.filter fun e => (oldBy.get? e.1).isNone
    changed := newBy.entries.filterMap fun e =>
      match oldBy.get? e.1 with
      | none => none
      | some prev => if equal prev e.2 then none else some (e.1, prev, e.2)
    removed := oldBy.entries.filter fun e => (newBy.get? e.1).isNone }

def itemKey (keyPrefix id : String) : String := keyPrefix ++ ":" ++ id

def listToFields (f : ListField E) (diff : ListDiff f.Item) : List FieldChange :=
  diff.added.map (fun e =>
    ⟨f.group, some (f.labelOf e.2), .added, none, some (f.valueOf e.2), some (f.secretOf e.2),
      some (itemKey f.id e.1)⟩) ++
  diff.removed.map (fun e =>
    ⟨f.group, some (f.labelOf e.2), .removed, some (f.valueOf e.2), none,
      some (f.secretOf e.2), some (itemKey f.id e.1)⟩) ++
  diff.changed.map (fun e =>
    ⟨f.group, some (f.labelOf e.2.2), .changed, some (f.valueOf e.2.1), some (f.valueOf e.2.2),
      some (f.secretOf e.2.2), some (itemKey f.id e.1)⟩)

def showEntry (e : BlobEntry) : String := if e.secret then "••••" else e.value

/-- Every entry row carries the blob's key, since the blob reverts as a whole. -/
def entryFields (group : FieldGroup) (key : String) (oldEntries newEntries : List BlobEntry) :
    List FieldChange :=
  let oMap := byId BlobEntry.label oldEntries
  let nMap := byId BlobEntry.label newEntries
  nMap.entries.filterMap (fun e =>
    match oMap.get? e.1 with
    | none => some ⟨group, some e.1, .added, none, some (showEntry e.2), none, some key⟩
    | some oe =>
      if oe.value = e.2.value then none
      else some ⟨group, some e.1, .changed, some (showEntry oe), some (showEntry e.2), none,
        some key⟩) ++
  (oMap.entries.filter fun e => (nMap.get? e.1).isNone).map fun e =>
    ⟨group, some e.1, .removed, some (showEntry e.2), none, none, some key⟩

/-- A blob without entries: one row when the compared texts differ. -/
def blobRow (f : BlobField E) (oldE newE : Option E) : List FieldChange :=
  let bc := (oldE.map f.compare).getD ""
  let ac := (newE.map f.compare).getD ""
  if bc = ac then []
  else [⟨f.group, f.label, if bc = "" then .added else if ac = "" then .removed else .changed,
    if bc = "" then none else oldE.map f.summary,
    if ac = "" then none else newE.map f.summary, f.secret, some f.id⟩]

/-- The rows one field contributes to a review. -/
def fieldRows (oldE newE : Option E) : Field E → List FieldChange
  | .list f =>
    listToFields f (diffList ((oldE.map f.get).getD []) ((newE.map f.get).getD []) f.idOf f.equal)
  | .blob f =>
    match f.entries with
    | some entries =>
      entryFields f.group f.id ((oldE.map entries).getD []) ((newE.map entries).getD [])
    | none => blobRow f oldE newE
  | .scalar f =>
    (scalarField f.group (oldE.map f.get) (newE.map f.get) f.label f.secret f.id).toList

def buildFields (specs : List (Field E)) (oldE newE : Option E) : List FieldChange :=
  specs.flatMap (fieldRows oldE newE)

/-! ## Conflicts -/

def listConflictField (f : ListField E) (c : ListConflict f.Item) : ConflictField :=
  let ref := c.ours.or c.theirs
  { id := itemKey f.id c.key
    group := f.group
    label := some ((ref.map f.labelOf).getD c.key)
    yours := (c.ours.map f.valueOf).getD "(removed)"
    theirs := (c.theirs.map f.valueOf).getD "(removed)"
    secret := some ((ref.map f.secretOf).getD false)
    canBoth := f.canBoth }

/-- The one conflict row of a scalar or blob field, compared by `cmp` and shown by `display`. -/
def valueConflict (c : Common) (cmp display : E → String) (base : Option E) (ours theirs : E) :
    List ConflictField :=
  if (merge3Scalar (base.map cmp) (cmp ours) (cmp theirs)).conflict then
    [⟨c.id, c.group, c.label, display ours, display theirs, none, c.secret⟩]
  else []

def fieldConflicts (base : Option E) (ours theirs : E) : Field E → List ConflictField
  | .list f =>
    (merge3List ((base.map f.get).getD []) (f.get ours) (f.get theirs) f.idOf
      f.equal).conflicts.map (listConflictField f)
  | .blob f => valueConflict f.toCommon f.compare f.summary base ours theirs
  | .scalar f => valueConflict f.toCommon f.get f.get base ours theirs

def buildConflicts (specs : List (Field E)) (base : Option E) (ours theirs : E) :
    List ConflictField :=
  specs.flatMap (fieldConflicts base ours theirs)

/-! ## Merging and reverting -/

/-- The user's pick for each conflict id; a missing pick keeps ours. -/
abbrev Choices := String → Option Choice

/-- The rows a list conflict contributes, given the pick for it. -/
def chosenRows {α : Type} (pick : Option Choice) (c : ListConflict α) : List α :=
  match pick with
  | some .theirs => c.theirs.toList
  | some .both => c.ours.toList ++ c.theirs.toList
  | _ => c.ours.toList

def mergeItems (f : ListField E) (base : Option E) (ours theirs : E) (choice : Choices) :
    List f.Item :=
  let m := merge3List ((base.map f.get).getD []) (f.get ours) (f.get theirs) f.idOf f.equal
  m.resolved ++ m.conflicts.flatMap fun c => chosenRows (choice (itemKey f.id c.key)) c

/-- The side a scalar or blob field is taken from. Without a base nothing counts as unchanged. -/
def mergeSource (cmp : E → String) (id : String) (base : Option E) (ours theirs : E)
    (choice : Choices) : E :=
  let m := merge3Scalar (base.map cmp) (cmp ours) (cmp theirs)
  if m.conflict = false then
    match base with
    | none => ours
    | some b => if cmp ours ≠ cmp theirs ∧ cmp ours = cmp b then theirs else ours
  else if choice id = some .theirs then theirs
  else ours

/-- One turn of the merge loop: write one field of the entity being assembled. -/
def mergeField (base : Option E) (ours theirs : E) (choice : Choices) (out : E) : Field E → E
  | .list f => f.set out (mergeItems f base ours theirs choice)
  | .blob f => f.copy (mergeSource f.compare f.id base ours theirs choice) out
  | .scalar f => f.set out (f.get (mergeSource f.get f.id base ours theirs choice))

def mergeEntity (specs : List (Field E)) (base : Option E) (ours theirs : E)
    (choice : Choices) : E :=
  specs.foldl (mergeField base ours theirs choice) ours

/-- Split a row key at its first colon into the field id and the item id. -/
def splitKey (key : String) : String × Option String :=
  match key.toList.dropWhile (· ≠ ':') with
  | [] => (key, none)
  | _ :: item => (String.ofList (key.toList.takeWhile (· ≠ ':')), some (String.ofList item))

/-- Put one field back to its committed value. -/
def revertOne (oldE : Option E) (working : E) (item : Option String) : Field E → E
  | .list f =>
    match item with
    | some itemId =>
      let oldItem := ((oldE.map f.get).getD []).find? fun i => f.idOf i = itemId
      let without := (f.get working).filter fun i => f.idOf i ≠ itemId
      f.set working (without ++ oldItem.toList)
    | none => working
  | .blob f =>
    match oldE with
    | some old => f.copy old working
    | none => working
  | .scalar f => f.set working ((oldE.map f.get).getD "")

/-- Restore the single row `key` of `working` to its committed value. -/
def revertField (specs : List (Field E)) (oldE : Option E) (working : E) (key : String) : E :=
  match specs.find? fun s => s.id = (splitKey key).1 with
  | none => working
  | some f => revertOne oldE working (splitKey key).2 f

end Voleeo.GitDiff
