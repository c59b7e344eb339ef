import Voleeo.Yaml.Rows

/-!
# Values as rows

A serialised record is a mapping whose values are scalars, mappings and lists.
Its fields stand in rows of one column, the items of a list behind bullets in
the column of the key. The rows determine the tree.
-/
namespace Voleeo.Yaml

mutual

inductive Value (α : Type) where
  | scalar (value : α)
  | mapping (fields : Fields α)
  | sequence (items : Items α)

inductive Fields (α : Type) where
  | nil
  | cons (key : Text) (value : Value α) (rest : Fields α)

inductive Items (α : Type) where
  | nil
  | cons (item : Value α) (rest : Items α)

end

variable {α β : Type}

mutual

def Value.map (f : α → β) : Value α → Value β
  | .scalar value => .scalar (f value)
  | .mapping fields => .mapping (fields.map f)
  | .sequence items => .sequence (items.map f)

def Fields.map (f : α → β) : Fields α → Fields β
  | .nil => .nil
  | .cons key value rest => .cons key (value.map f) (rest.map f)

def Items.map (f : α → β) : Items α → Items β
  | .nil => .nil
  | .cons item rest => .cons (item.map f) (rest.map f)

end

/-! ## Writing a tree -/

/-- What stands behind the key or the bullet. -/
def Value.lead : Value RowValue → RowValue
  | .scalar value => value
  | .mapping .nil => .inline "{}".toList
  | .sequence .nil => .inline "[]".toList
  | _ => .opens

mutual

/-- The rows below a key in the column. -/
def Value.rowsBelow (column : ℕ) : Value RowValue → List Row
  | .scalar _ => []
  | .mapping fields => fields.rows (column + 2) 0
  | .sequence items => items.rows column 0

def Fields.rows (indent bullets : ℕ) : Fields RowValue → List Row
  | .nil => []
  | .cons key value rest =>
    ⟨indent, bullets, key, value.lead⟩ ::
      (value.rowsBelow (indent + 2 * bullets) ++ rest.rows (indent + 2 * bullets) 0)

/-- The rows of a list item, which has the last of the bullets. -/
def Value.itemRows (indent bullets : ℕ) : Value RowValue → List Row
  | .scalar value => [⟨indent, bullets, [], value⟩]
  | .mapping .nil => [⟨indent, bullets, [], .inline "{}".toList⟩]
  | .mapping fields => fields.rows indent bullets
  | .sequence .nil => [⟨indent, bullets, [], .inline "[]".toList⟩]
  | .sequence items => items.rows indent bullets

def Items.rows (indent bullets : ℕ) : Items RowValue → List Row
  | .nil => []
  | .cons item rest => item.itemRows indent (bullets + 1) ++ rest.rows (indent + 2 * bullets) 0

end

/-! ## Records -/

def IsKey (key : Text) : Prop := key ≠ [] ∧ ∀ c ∈ key, isWordChar c = true

/-- The values that a scalar is written as. -/
structure IsScalar (value : RowValue) : Prop where
  valid : value.Valid
  not_opens : value ≠ .opens
  not_mapping : value ≠ .inline "{}".toList
  not_sequence : value ≠ .inline "[]".toList

def Fields.startsWith (key : Text) : Fields α → Prop
  | .nil => False
  | .cons key' _ _ => key' = key

mutual

/-- Mappings have keys, none begins with the stamp, and a stamp is a scalar of its own form. -/
def Value.Valid (stamp : Text) (IsValue IsStamp : α → Prop) : Value α → Prop
  | .scalar value => IsValue value
  | .mapping fields => ¬ fields.startsWith stamp ∧ fields.Valid stamp IsValue IsStamp
  | .sequence items => items.Valid stamp IsValue IsStamp

def Fields.Valid (stamp : Text) (IsValue IsStamp : α → Prop) : Fields α → Prop
  | .nil => True
  | .cons key value rest =>
    IsKey key ∧ (key = stamp → ∃ a, value = .scalar a ∧ IsStamp a) ∧
      value.Valid stamp IsValue IsStamp ∧ rest.Valid stamp IsValue IsStamp

def Items.Valid (stamp : Text) (IsValue IsStamp : α → Prop) : Items α → Prop
  | .nil => True
  | .cons item rest => item.Valid stamp IsValue IsStamp ∧ rest.Valid stamp IsValue IsStamp

end

mutual

theorem Value.Valid.map {stamp : Text} {P Q : α → Prop} {P' Q' : β → Prop} {f : α → β}
    (hP : ∀ a, P a → P' (f a)) (hQ : ∀ a, Q a → Q' (f a)) :
    {v : Value α} → v.Valid stamp P Q → (v.map f).Valid stamp P' Q'
  | .scalar a, h => hP a h
  | .mapping .nil, h => ⟨h.1, trivial⟩
  | .mapping (.cons ..), h => ⟨h.1, h.2.map hP hQ⟩
  | .sequence _, h => Items.Valid.map hP hQ h

theorem Fields.Valid.map {stamp : Text} {P Q : α → Prop} {P' Q' : β → Prop} {f : α → β}
    (hP : ∀ a, P a → P' (f a)) (hQ : ∀ a, Q a → Q' (f a)) :
    {fields : Fields α} → fields.Valid stamp P Q → (fields.map f).Valid stamp P' Q'
  | .nil, _ => trivial
  | .cons key value rest, h => by
      refine ⟨h.1, fun hkey => ?_, h.2.2.1.map hP hQ, h.2.2.2.map hP hQ⟩
      obtain ⟨a, rfl, ha⟩ := h.2.1 hkey
      exact ⟨f a, rfl, hQ a ha⟩

theorem Items.Valid.map {stamp : Text} {P Q : α → Prop} {P' Q' : β → Prop} {f : α → β}
    (hP : ∀ a, P a → P' (f a)) (hQ : ∀ a, Q a → Q' (f a)) :
    {items : Items α} → items.Valid stamp P Q → (items.map f).Valid stamp P' Q'
  | .nil, _ => trivial
  | .cons _ _, h => ⟨h.1.map hP hQ, h.2.map hP hQ⟩

end

mutual

theorem Value.map_injective {f : α → β} (hf : Function.Injective f) :
    (v v' : Value α) → v.map f = v'.map f → v = v'
  | .scalar _, .scalar _, h => congrArg _ (hf (Value.scalar.inj h))
  | .mapping fields, .mapping fields', h =>
    congrArg _ (fields.map_injective hf fields' (Value.mapping.inj h))
  | .sequence items, .sequence items', h =>
    congrArg _ (items.map_injective hf items' (Value.sequence.inj h))

theorem Fields.map_injective {f : α → β} (hf : Function.Injective f) :
    (fields fields' : Fields α) → fields.map f = fields'.map f → fields = fields'
  | .nil, .nil, _ => rfl
  | .cons key value rest, .cons key' value' rest', h => by
      obtain ⟨rfl, hvalue, hrest⟩ := Fields.cons.inj h
      rw [value.map_injective hf value' hvalue, rest.map_injective hf rest' hrest]

theorem Items.map_injective {f : α → β} (hf : Function.Injective f) :
    (items items' : Items α) → items.map f = items'.map f → items = items'
  | .nil, .nil, _ => rfl
  | .cons item rest, .cons item' rest', h => by
      obtain ⟨hitem, hrest⟩ := Items.cons.inj h
      rw [item.map_injective hf item' hitem, rest.map_injective hf rest' hrest]

end

/-! ## The first rows -/

variable {stamp : Text} {IsStamp : RowValue → Prop} {i b column : ℕ} {R R' : List Row}

theorem isInline_flow : IsInline "{}".toList ∧ IsInline "[]".toList := by
  constructor
  · exact ⟨by decide, by decide, by decide, by decide, fun key rest hne hall heq =>
      absurd heq (ne_key_of_front (by decide) hne hall), by decide⟩
  · exact ⟨by decide, by decide, by decide, by decide, fun key rest hne hall heq =>
      absurd heq (ne_key_of_front (by decide) hne hall), by decide⟩

theorem Value.Valid.lead {v : Value RowValue} (h : v.Valid stamp IsScalar IsStamp) :
    v.lead.Valid := by
  match v, h with
  | .scalar value, h => exact h.valid
  | .mapping .nil, _ => exact isInline_flow.1
  | .mapping (.cons ..), _ => trivial
  | .sequence .nil, _ => exact isInline_flow.2
  | .sequence (.cons ..), _ => trivial

theorem Value.lead_cases (v : Value RowValue) : (∃ a, v = .scalar a) ∨ v.lead = .opens ∨
    v = .mapping .nil ∨ v = .sequence .nil := by
  match v with
  | .scalar a => exact .inl ⟨a, rfl⟩
  | .mapping .nil => exact .inr (.inr (.inl rfl))
  | .sequence .nil => exact .inr (.inr (.inr rfl))
  | .mapping (.cons ..) => exact .inr (.inl rfl)
  | .sequence (.cons ..) => exact .inr (.inl rfl)

theorem Value.scalar_of_block {v : Value RowValue}
    (h : ∃ header ls, v.lead = .block header ls) : ∃ a, v = .scalar a := by
  obtain ⟨header, ls, hlead⟩ := h
  obtain hscalar | hopens | rfl | rfl := v.lead_cases
  · exact hscalar
  · rw [hopens] at hlead
    cases hlead
  · cases hlead
  · cases hlead

/-- The value behind a key or a bullet tells the values without rows of their own. -/
theorem Value.lead_inj {v v' : Value RowValue} (h : v.Valid stamp IsScalar IsStamp)
    (h' : v'.Valid stamp IsScalar IsStamp) (hopens : v.lead ≠ .opens) (hlead : v.lead = v'.lead) :
    v = v' := by
  have hopens' : v'.lead ≠ .opens := hlead ▸ hopens
  obtain ⟨a, rfl⟩ | hv | rfl | rfl := v.lead_cases <;>
    obtain ⟨a', rfl⟩ | hv' | rfl | rfl := v'.lead_cases
  case inr.inl.inl | inr.inl.inr.inl | inr.inl.inr.inr.inl | inr.inl.inr.inr.inr =>
    exact absurd hv hopens
  case inl.inr.inl | inr.inr.inl.inr.inl | inr.inr.inr.inr.inl => exact absurd hv' hopens'
  case inl.inl => exact congrArg Value.scalar hlead
  case inl.inr.inr.inl => exact absurd hlead h.not_mapping
  case inl.inr.inr.inr => exact absurd hlead h.not_sequence
  case inr.inr.inl.inl => exact absurd hlead.symm h'.not_mapping
  case inr.inr.inr.inl => exact absurd hlead.symm h'.not_sequence
  case inr.inr.inl.inr.inr.inl => rfl
  case inr.inr.inr.inr.inr.inr => rfl
  case inr.inr.inl.inr.inr.inr => exact absurd hlead (by decide)
  case inr.inr.inr.inr.inr.inl => exact absurd hlead (by decide)

theorem Value.itemRows_of_closed {v : Value RowValue} (h : v.lead ≠ .opens) :
    v.itemRows i b = [⟨i, b, [], v.lead⟩] := by
  match v, h with
  | .scalar _, _ => rfl
  | .mapping .nil, _ => rfl
  | .sequence .nil, _ => rfl
  | .mapping (.cons ..), h => exact absurd rfl h
  | .sequence (.cons ..), h => exact absurd rfl h

mutual

theorem Value.itemRows_head (i b : ℕ) : (v : Value RowValue) →
    ∃ r rest, v.itemRows i b = r :: rest ∧ r.indent = i ∧ b ≤ r.bullets
  | .scalar _ => ⟨_, _, rfl, rfl, le_rfl⟩
  | .mapping .nil => ⟨_, _, rfl, rfl, le_rfl⟩
  | .mapping (.cons ..) => ⟨_, _, rfl, rfl, le_rfl⟩
  | .sequence .nil => ⟨_, _, rfl, rfl, le_rfl⟩
  | .sequence (.cons item rest) => by
      obtain ⟨r, rows, hrows, hindent, hbullets⟩ := Items.rows_head i b item rest
      exact ⟨r, rows, hrows, hindent, Nat.le_of_lt hbullets⟩

theorem Items.rows_head (i b : ℕ) : (item : Value RowValue) → (rest : Items RowValue) →
    ∃ r rows, (Items.cons item rest).rows i b = r :: rows ∧ r.indent = i ∧ b < r.bullets
  | item, rest => by
      obtain ⟨r, rows, hrows, hindent, hbullets⟩ := Value.itemRows_head i (b + 1) item
      refine ⟨r, rows ++ rest.rows (i + 2 * b) 0, ?_, hindent, hbullets⟩
      rw [Items.rows, hrows, List.cons_append]

end

/-- A mapping or a list in a list begins with a key or a further bullet. -/
theorem Value.itemRows_of_opens {v : Value RowValue} (h : v.Valid stamp IsScalar IsStamp)
    (hopens : v.lead = .opens) : ∃ r rest, v.itemRows i b = r :: rest ∧
      (r.key ≠ [] ∨ b < r.bullets) := by
  match v, h, hopens with
  | .scalar _, h, hopens => exact absurd hopens h.not_opens
  | .mapping (.cons ..), h, _ => exact ⟨_, _, rfl, .inl h.2.1.1⟩
  | .sequence (.cons item rest), _, _ =>
    obtain ⟨r, rows, hrows, -, hbullets⟩ := Items.rows_head i b item rest
    exact ⟨r, rows, hrows, .inr hbullets⟩

/-! ## The rows are nested -/

def Left (column : ℕ) (R : List Row) : Prop := ∀ r ∈ R.head?, r.indent ≤ column

theorem Fields.rows_left (fields : Fields RowValue) (h : Left i R) :
    Left i (fields.rows i b ++ R) := by
  cases fields with
  | nil => exact h
  | cons key value rest =>
    rintro r ⟨⟩
    exact le_rfl

theorem Items.rows_left (items : Items RowValue) (h : Left i R) : Left i (items.rows i b ++ R) := by
  cases items with
  | nil => exact h
  | cons item rest =>
    obtain ⟨r, rows, hrows, hindent, -⟩ := Items.rows_head i b item rest
    rw [hrows]
    rintro r ⟨⟩
    exact hindent.le

mutual

theorem Value.rowsBelow_nested {column : ℕ} {R : List Row} : (v : Value RowValue) →
    v.Valid stamp IsScalar IsStamp → Nested R → Left column R → Nested (v.rowsBelow column ++ R)
  | .scalar _, _, hR, _ => hR
  | .mapping fields, h, hR, hleft =>
    fields.rows_nested h.2 hR fun r hr => (hleft r hr).trans (by omega)
  | .sequence items, h, hR, hleft =>
    items.rows_nested h hR fun r hr => (hleft r hr).trans (by omega)

theorem Fields.rows_nested {i b : ℕ} {R : List Row} : (fields : Fields RowValue) →
    fields.Valid stamp IsScalar IsStamp → Nested R → Left (i + 2 * b) R →
    Nested (fields.rows i b ++ R)
  | .nil, _, hR, _ => hR
  | .cons key value rest, h, hR, hleft => by
      have hrest : Nested (rest.rows (i + 2 * b) 0 ++ R) := rest.rows_nested h.2.2.2 hR hleft
      have hrestLeft : Left (i + 2 * b) (rest.rows (i + 2 * b) 0 ++ R) := rest.rows_left hleft
      rw [Fields.rows, List.cons_append, List.append_assoc]
      refine .cons _ _ ⟨h.1.2, fun hkey => absurd hkey h.1.1, h.2.2.1.lead⟩ ?_
        (value.rowsBelow_nested h.2.2.1 hrest hrestLeft)
      intro r hr hblock
      obtain ⟨a, rfl⟩ := Value.scalar_of_block hblock
      rw [Row.bodyIndent, if_neg h.1.1, Row.keyIndent]
      exact Nat.lt_of_le_of_lt (hrestLeft r hr) (by simp)

theorem Value.itemRows_nested {i b : ℕ} {R : List Row} (v : Value RowValue)
    (h : v.Valid stamp IsScalar IsStamp) (hR : Nested R) (hleft : Left (i + 2 * b) R) :
    Nested (v.itemRows i (b + 1) ++ R) := by
  have hdeep : Left (i + 2 * (b + 1)) R := fun r hr => (hleft r hr).trans (by omega)
  by_cases hopens : v.lead = .opens
  · match v, h, hopens with
    | .scalar _, h, hopens => exact absurd hopens h.not_opens
    | .mapping (.cons key value rest), h, _ =>
      exact (Fields.cons key value rest).rows_nested h.2 hR hdeep
    | .sequence (.cons item rest), h, _ => exact (Items.cons item rest).rows_nested h hR hdeep
  · rw [Value.itemRows_of_closed hopens]
    refine .cons _ _ ⟨fun c hc => (List.not_mem_nil hc).elim, fun _ => ⟨?_, hopens⟩, h.lead⟩ ?_ hR
    · exact Nat.succ_ne_zero b
    · intro r hr _
      exact Nat.lt_of_le_of_lt (hleft r hr) (by simp [Row.bodyIndent, Row.keyIndent])

theorem Items.rows_nested {i b : ℕ} {R : List Row} : (items : Items RowValue) →
    items.Valid stamp IsScalar IsStamp → Nested R → Left (i + 2 * b) R →
    Nested (items.rows i b ++ R)
  | .nil, _, hR, _ => hR
  | .cons item rest, h, hR, hleft => by
      rw [Items.rows, List.append_assoc]
      exact item.itemRows_nested h.1 (rest.rows_nested h.2 hR hleft) (rest.rows_left hleft)

end

/-! ## The rows determine the value -/

/-- The rows of a mapping in the column are over. -/
def MappingOver (column : ℕ) (R : List Row) : Prop := ∀ r ∈ R.head?, r.indent < column

/-- The rows of a list in the column are over. -/
def ListOver (column : ℕ) (R : List Row) : Prop :=
  ∀ r ∈ R.head?, r.indent < column ∨ r.indent = column ∧ r.bullets = 0

theorem Fields.rows_listOver (fields : Fields RowValue) (h : MappingOver i R) :
    ListOver i (fields.rows i 0 ++ R) := by
  cases fields with
  | nil => exact fun r hr => .inl (h r hr)
  | cons key value rest =>
    rintro r ⟨⟩
    exact .inr ⟨rfl, rfl⟩

theorem Items.not_listOver {item : Value RowValue} {rest : Items RowValue} (hb : b = 0)
    (heq : R = (Items.cons item rest).rows i b ++ R') : ¬ ListOver (i + 2 * b) R := by
  obtain ⟨r, rows, hrows, hindent, hbullets⟩ := Items.rows_head i b item rest
  intro hover
  have hr := hover r (by rw [heq, hrows]; rfl)
  omega

theorem Items.rows_mappingOver (items : Items RowValue) (h : ListOver i R) :
    MappingOver (i + 1) (items.rows i b ++ R) := by
  refine fun r hr => Nat.lt_succ_of_le (items.rows_left (fun r hr => ?_) r hr)
  exact (h r hr).elim Nat.le_of_lt fun heq => heq.1.le

mutual

theorem Value.rowsBelow_inj {column : ℕ} {R R' : List Row} : (v v' : Value RowValue) →
    v.Valid stamp IsScalar IsStamp → v'.Valid stamp IsScalar IsStamp → ListOver column R →
    ListOver column R' → v.lead = v'.lead →
    v.rowsBelow column ++ R = v'.rowsBelow column ++ R' → v = v' ∧ R = R'
  | v, v', h, h', hR, hR', hlead, heq => by
      by_cases hopens : v.lead = .opens
      · have hopens' : v'.lead = .opens := hlead ▸ hopens
        have hover : ∀ {R : List Row}, ListOver column R → MappingOver (column + 2) R :=
          fun hR r hr => (hR r hr).elim (by omega) (by omega)
        match v, v', h, h', hopens, hopens' with
        | .scalar _, _, h, _, hopens, _ => exact absurd hopens h.not_opens
        | .mapping _, .scalar _, _, h', _, hopens' => exact absurd hopens' h'.not_opens
        | .sequence _, .scalar _, _, h', _, hopens' => exact absurd hopens' h'.not_opens
        | .mapping (.cons key value rest), .mapping (.cons key' value' rest'), h, h', _, _ =>
          obtain ⟨hfields, hrest⟩ := Fields.rows_inj (i := column + 2) (b := 0) _ _ h.2 h'.2
            (hover hR) (hover hR') (fun _ => ⟨nofun, nofun⟩) heq
          exact ⟨congrArg _ hfields, hrest⟩
        | .sequence (.cons item rest), .sequence (.cons item' rest'), h, h', _, _ =>
          obtain ⟨hitems, hrest⟩ := Items.rows_inj (i := column) (b := 0) _ _ h h' hR hR'
            (fun _ => ⟨nofun, nofun⟩) heq
          exact ⟨congrArg _ hitems, hrest⟩
        | .mapping (.cons key value rest), .sequence (.cons item' rest'), _, _, _, _ =>
          obtain ⟨r, rows, hrows, hindent, -⟩ := Items.rows_head column 0 item' rest'
          rw [Value.rowsBelow, Value.rowsBelow, hrows] at heq
          rw [← (List.cons.inj heq).1] at hindent
          simp at hindent
        | .sequence (.cons item rest), .mapping (.cons key' value' rest'), _, _, _, _ =>
          obtain ⟨r, rows, hrows, hindent, -⟩ := Items.rows_head column 0 item rest
          rw [Value.rowsBelow, Value.rowsBelow, hrows] at heq
          rw [(List.cons.inj heq).1] at hindent
          simp at hindent
      · obtain rfl := Value.lead_inj h h' hopens hlead
        exact ⟨rfl, List.append_cancel_left heq⟩
termination_by structural v => v

theorem Fields.rows_inj {i b : ℕ} {R R' : List Row} : (fields fields' : Fields RowValue) →
    fields.Valid stamp IsScalar IsStamp → fields'.Valid stamp IsScalar IsStamp →
    MappingOver (i + 2 * b) R → MappingOver (i + 2 * b) R' →
    (b ≠ 0 → fields ≠ .nil ∧ fields' ≠ .nil) →
    fields.rows i b ++ R = fields'.rows i b ++ R' → fields = fields' ∧ R = R'
  | .nil, .nil, _, _, _, _, _, heq => ⟨rfl, heq⟩
  | .nil, .cons .., _, _, hR, _, hne, heq => by
      have hb : b = 0 := by_contra fun hb => (hne hb).1 rfl
      subst hb
      have hlt := hR _ (by rw [show R = _ from heq]; rfl)
      simp at hlt
  | .cons .., .nil, _, _, _, hR', hne, heq => by
      have hb : b = 0 := by_contra fun hb => (hne hb).2 rfl
      subst hb
      have hlt := hR' _ (by rw [show R' = _ from heq.symm]; rfl)
      simp at hlt
  | .cons key value rest, .cons key' value' rest', h, h', hR, hR', _, heq => by
      rw [Fields.rows, Fields.rows, List.cons_append, List.cons_append, List.append_assoc,
        List.append_assoc] at heq
      obtain ⟨hrow, htail⟩ := List.cons.inj heq
      obtain ⟨-, -, rfl, hlead⟩ := Row.mk.inj hrow
      obtain ⟨rfl, hrows⟩ := Value.rowsBelow_inj value value' h.2.2.1 h'.2.2.1
        (rest.rows_listOver hR) (rest'.rows_listOver hR') hlead htail
      obtain ⟨rfl, rfl⟩ := Fields.rows_inj (i := i + 2 * b) (b := 0) rest rest' h.2.2.2 h'.2.2.2
        hR hR' (fun hb => absurd rfl hb) hrows
      exact ⟨rfl, rfl⟩
termination_by structural fields => fields

theorem Value.itemRows_inj {i b : ℕ} {R R' : List Row} : (v v' : Value RowValue) →
    v.Valid stamp IsScalar IsStamp → v'.Valid stamp IsScalar IsStamp →
    MappingOver (i + 2 * b + 1) R → MappingOver (i + 2 * b + 1) R' →
    v.itemRows i (b + 1) ++ R = v'.itemRows i (b + 1) ++ R' → v = v' ∧ R = R'
  | v, v', h, h', hR, hR', heq => by
      by_cases hopens : v.lead = .opens <;> by_cases hopens' : v'.lead = .opens
      · have hover : ∀ {R : List Row}, MappingOver (i + 2 * b + 1) R →
            MappingOver (i + 2 * (b + 1)) R := fun hR r hr => (hR r hr).trans (by omega)
        match v, v', h, h', hopens, hopens' with
        | .scalar _, _, h, _, hopens, _ => exact absurd hopens h.not_opens
        | .mapping _, .scalar _, _, h', _, hopens' => exact absurd hopens' h'.not_opens
        | .sequence _, .scalar _, _, h', _, hopens' => exact absurd hopens' h'.not_opens
        | .mapping (.cons key value rest), .mapping (.cons key' value' rest'), h, h', _, _ =>
          obtain ⟨hfields, hrest⟩ := Fields.rows_inj (i := i) (b := b + 1) _ _ h.2 h'.2
            (hover hR) (hover hR') (fun _ => ⟨nofun, nofun⟩) heq
          exact ⟨congrArg _ hfields, hrest⟩
        | .sequence (.cons item rest), .sequence (.cons item' rest'), h, h', _, _ =>
          obtain ⟨hitems, hrest⟩ := Items.rows_inj (i := i) (b := b + 1) _ _ h h'
            (fun r hr => .inl (hover hR r hr)) (fun r hr => .inl (hover hR' r hr))
            (fun _ => ⟨nofun, nofun⟩) heq
          exact ⟨congrArg _ hitems, hrest⟩
        | .mapping (.cons key value rest), .sequence (.cons item' rest'), _, _, _, _ =>
          obtain ⟨r, rows, hrows, -, hbullets⟩ := Items.rows_head i (b + 1) item' rest'
          change _ = (Items.cons item' rest').rows i (b + 1) ++ R' at heq
          rw [hrows] at heq
          rw [← (List.cons.inj heq).1] at hbullets
          simp at hbullets
        | .sequence (.cons item rest), .mapping (.cons key' value' rest'), _, _, _, _ =>
          obtain ⟨r, rows, hrows, -, hbullets⟩ := Items.rows_head i (b + 1) item rest
          change (Items.cons item rest).rows i (b + 1) ++ R = _ at heq
          rw [hrows] at heq
          rw [(List.cons.inj heq).1] at hbullets
          simp at hbullets
      · obtain ⟨r, rows, hrows, hr⟩ := Value.itemRows_of_opens (i := i) (b := b + 1) h hopens
        rw [hrows, Value.itemRows_of_closed hopens'] at heq
        rw [(List.cons.inj heq).1] at hr
        simp at hr
      · obtain ⟨r, rows, hrows, hr⟩ := Value.itemRows_of_opens (i := i) (b := b + 1) h' hopens'
        rw [hrows, Value.itemRows_of_closed hopens] at heq
        rw [← (List.cons.inj heq).1] at hr
        simp at hr
      · rw [Value.itemRows_of_closed hopens, Value.itemRows_of_closed hopens'] at heq
        obtain ⟨hrow, hrest⟩ := List.cons.inj heq
        exact ⟨Value.lead_inj h h' hopens (Row.mk.inj hrow).2.2.2, hrest⟩
termination_by structural v => v

theorem Items.rows_inj {i b : ℕ} {R R' : List Row} : (items items' : Items RowValue) →
    items.Valid stamp IsScalar IsStamp → items'.Valid stamp IsScalar IsStamp →
    ListOver (i + 2 * b) R → ListOver (i + 2 * b) R' →
    (b ≠ 0 → items ≠ .nil ∧ items' ≠ .nil) →
    items.rows i b ++ R = items'.rows i b ++ R' → items = items' ∧ R = R'
  | .nil, .nil, _, _, _, _, _, heq => ⟨rfl, heq⟩
  | .nil, .cons .., _, _, hR, _, hne, heq => by
      have hb : b = 0 := by_contra fun hb => (hne hb).1 rfl
      exact absurd hR (Items.not_listOver hb heq)
  | .cons .., .nil, _, _, _, hR', hne, heq => by
      have hb : b = 0 := by_contra fun hb => (hne hb).2 rfl
      exact absurd hR' (Items.not_listOver hb heq.symm)
  | .cons item rest, .cons item' rest', h, h', hR, hR', _, heq => by
      rw [Items.rows, Items.rows, List.append_assoc, List.append_assoc] at heq
      obtain ⟨rfl, hrows⟩ := Value.itemRows_inj item item' h.1 h'.1
        (rest.rows_mappingOver hR) (rest'.rows_mappingOver hR') heq
      obtain ⟨rfl, rfl⟩ := Items.rows_inj (i := i + 2 * b) (b := 0) rest rest' h.2 h'.2 hR hR'
        (fun hb => absurd rfl hb) hrows
      exact ⟨rfl, rfl⟩
termination_by structural items => items

end

/-- A document determines its fields. -/
theorem rows_injective {fields fields' : Fields RowValue}
    (h : fields.Valid stamp IsScalar IsStamp) (h' : fields'.Valid stamp IsScalar IsStamp)
    (heq : lines (fields.rows 0 0) = lines (fields'.rows 0 0)) : fields = fields' := by
  have hnested : ∀ {fields : Fields RowValue}, fields.Valid stamp IsScalar IsStamp →
      Nested (fields.rows 0 0) := fun {fields} h => by
    have := fields.rows_nested (i := 0) (b := 0) h .nil nofun
    rwa [List.append_nil] at this
  have hrows := lines_injective (hnested h) (hnested h') heq
  exact (@Fields.rows_inj stamp IsStamp 0 0 [] [] _ _ h h' nofun nofun
    (fun hb => absurd rfl hb) (by rw [List.append_nil, List.append_nil, hrows])).1

end Voleeo.Yaml
