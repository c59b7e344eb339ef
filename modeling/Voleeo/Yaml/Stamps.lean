import Voleeo.Yaml.Values

/-!
# Leaving stamps out

A line that starts with the key of a stamp is noise. Among the rows of a
document these lines are the stamps; in a block they are text of the block.
-/
namespace Voleeo.Yaml

variable {α : Type}

mutual

/-- The value without the fields of the key. -/
def Value.without (stamp : Text) : Value α → Value α
  | .scalar value => .scalar value
  | .mapping fields => .mapping (fields.without stamp)
  | .sequence items => .sequence (items.without stamp)

def Fields.without (stamp : Text) : Fields α → Fields α
  | .nil => .nil
  | .cons key value rest =>
    if key = stamp then rest.without stamp
    else .cons key (value.without stamp) (rest.without stamp)

def Items.without (stamp : Text) : Items α → Items α
  | .nil => .nil
  | .cons item rest => .cons (item.without stamp) (rest.without stamp)

end

/-- Noise in a block is left out; its header stays. -/
def RowValue.quiet (isNoise : Text → Bool) : RowValue → RowValue
  | .block header ls => .block header (ls.filter fun l => !isNoise l)
  | value => value

variable {space : Char → Bool} {stamp : Text}

/-- The line starts with the key, wherever it is indented. -/
def isNoise (space : Char → Bool) (stamp line : Text) : Bool :=
  (stamp ++ [':']).isPrefixOf (line.dropWhile space)

/-- What counts as space in front of a line. -/
structure IsSpace (space : Char → Bool) : Prop where
  blank : space ' ' = true
  bullet : space '-' = false
  key : ∀ c, isWordChar c = true → space c = false

/-! ## Noise among the rows -/

theorem isNoise_pad (hspace : IsSpace space) (n : ℕ) (line : Text) :
    isNoise space stamp (pad n ++ line) = isNoise space stamp line := by
  rw [isNoise, isNoise, pad, List.dropWhile_append_of_pos]
  intro c hc
  rw [List.eq_of_mem_replicate hc]
  exact hspace.blank

theorem isNoise_bodyLine (hspace : IsSpace space) (r : Row) (line : Text) :
    isNoise space stamp (r.bodyLine line) = isNoise space stamp line := by
  rw [Row.bodyLine]
  split_ifs with hnil
  · rw [hnil]
  · exact isNoise_pad hspace _ line

theorem isNoise_head (hspace : IsSpace space) (hstamp : IsKey stamp) {r : Row} (h : r.Valid) :
    isNoise space stamp r.head = true ↔ r.bullets = 0 ∧ r.key = stamp := by
  obtain ⟨c, cs, hcons⟩ := List.exists_cons_of_ne_nil hstamp.1
  have hc : isWordChar c = true := hstamp.2 c (by rw [hcons]; exact List.mem_cons_self)
  rw [Row.head, isNoise_pad hspace, isNoise]
  cases hbullets : r.bullets with
  | succ n =>
    have hdash : c ≠ '-' := (Row.not_wordChar hc).2.1
    simp [bulletText, List.replicate_succ, hspace.bullet, hcons, hdash]
  | zero =>
    have hkey : r.key ≠ [] := fun hnil => (h.item hnil).1 hbullets
    have hcolon : ∀ {key : Text}, (∀ c ∈ key, isWordChar c = true) → ∀ c ∈ key, c ≠ ':' :=
      fun hkey c hc => (Row.not_wordChar (hkey c hc)).2.2.1
    have hstart : (bulletText 0 ++ r.content).dropWhile space = r.content := by
      obtain ⟨d, ds, hdcons⟩ := List.exists_cons_of_ne_nil hkey
      have hd : isWordChar d = true := h.key d (by rw [hdcons]; exact List.mem_cons_self)
      rw [show bulletText 0 ++ r.content = r.content from rfl, Row.content, if_neg hkey, hdcons,
        List.cons_append, List.dropWhile_cons_of_neg (by simp [hspace.key d hd])]
    rw [hstart, Row.content, if_neg hkey, List.isPrefixOf_iff_prefix]
    constructor
    · rintro ⟨tail, htail⟩
      rw [List.append_assoc, List.singleton_append] at htail
      exact ⟨rfl, (append_inj_of_split htail (hcolon hstamp.2) (by simp) (hcolon h.key)
        (by simp)).1.symm⟩
    · rintro ⟨-, rfl⟩
      exact ⟨_, List.append_assoc ..⟩

/-! ## Leaving noise out -/

theorem IsScalar.quiet {isNoise : Text → Bool} {value : RowValue} (h : IsScalar value) :
    IsScalar (value.quiet isNoise) := by
  cases value with
  | inline text => exact h
  | opens => exact h
  | block header ls =>
    refine ⟨⟨h.valid.1, fun l hl => h.valid.2 l (List.mem_of_mem_filter hl)⟩, nofun, nofun, nofun⟩

/-- The value without its stamps and without the noise in its blocks. -/
def Value.quiet (space : Char → Bool) (stamp : Text) (v : Value RowValue) : Value RowValue :=
  (v.without stamp).map (RowValue.quiet (isNoise space stamp))

def Fields.quiet (space : Char → Bool) (stamp : Text) (fields : Fields RowValue) :
    Fields RowValue :=
  (fields.without stamp).map (RowValue.quiet (isNoise space stamp))

def Items.quiet (space : Char → Bool) (stamp : Text) (items : Items RowValue) : Items RowValue :=
  (items.without stamp).map (RowValue.quiet (isNoise space stamp))

theorem Fields.quiet_cons (key : Text) (value : Value RowValue) (rest : Fields RowValue) :
    (Fields.cons key value rest).quiet space stamp = if key = stamp then rest.quiet space stamp
      else .cons key (value.quiet space stamp) (rest.quiet space stamp) := by
  rw [Fields.quiet, Fields.without]
  split_ifs
  · rfl
  · rfl

def IsInlineValue (value : RowValue) : Prop := ∃ text, value = .inline text

theorem Fields.quiet_startsWith {fields : Fields RowValue} (h : ¬ fields.startsWith stamp) :
    ¬ (fields.quiet space stamp).startsWith stamp := by
  cases fields with
  | nil => exact h
  | cons key value rest =>
    rw [Fields.quiet_cons, if_neg (show ¬ key = stamp from h)]
    exact h

variable {IsStamp : RowValue → Prop}

mutual

theorem Value.Valid.quiet : {v : Value RowValue} → v.Valid stamp IsScalar IsStamp →
    (v.quiet space stamp).Valid stamp IsScalar IsStamp
  | .scalar _, h => IsScalar.quiet h
  | .mapping _, h => ⟨Fields.quiet_startsWith h.1, h.2.quiet⟩
  | .sequence _, h => Items.Valid.quiet h

theorem Fields.Valid.quiet : {fields : Fields RowValue} → fields.Valid stamp IsScalar IsStamp →
    (fields.quiet space stamp).Valid stamp IsScalar IsStamp
  | .nil, _ => trivial
  | .cons key value rest, h => by
      rw [Fields.quiet_cons]
      split_ifs with hkey
      · exact h.2.2.2.quiet
      · exact ⟨h.1, fun heq => absurd heq hkey, h.2.2.1.quiet, h.2.2.2.quiet⟩

theorem Items.Valid.quiet : {items : Items RowValue} → items.Valid stamp IsScalar IsStamp →
    (items.quiet space stamp).Valid stamp IsScalar IsStamp
  | .nil, _ => trivial
  | .cons _ _, h => ⟨h.1.quiet, h.2.quiet⟩

end

theorem Value.Valid.lead_quiet {v : Value RowValue} (h : v.Valid stamp IsScalar IsStamp) :
    (v.quiet space stamp).lead = v.lead.quiet (isNoise space stamp) := by
  match v, h with
  | .scalar _, _ => rfl
  | .mapping .nil, _ => rfl
  | .mapping (.cons key value rest), h =>
    change (Value.mapping ((Fields.cons key value rest).quiet space stamp)).lead = _
    rw [Fields.quiet_cons, if_neg (show ¬ key = stamp from h.1)]
    rfl
  | .sequence .nil, _ => rfl
  | .sequence (.cons ..), _ => rfl

/-! ## Filtering the lines -/

/-- The lines of a document that are not noise. -/
def quietLines (space : Char → Bool) (stamp : Text) (rows : List Row) : List Text :=
  (lines rows).filter fun l => !isNoise space stamp l

theorem quietLines_append (rows rows' : List Row) :
    quietLines space stamp (rows ++ rows') =
      quietLines space stamp rows ++ quietLines space stamp rows' := by
  rw [quietLines, lines, List.flatMap_append, List.filter_append]
  rfl

theorem quietLines_row (hspace : IsSpace space) (hstamp : IsKey stamp) {r : Row} (h : r.Valid)
    (hkept : ¬ (r.bullets = 0 ∧ r.key = stamp)) :
    quietLines space stamp [r] =
      lines [{ r with value := r.value.quiet (isNoise space stamp) }] := by
  have hhead : isNoise space stamp r.head = false :=
    Bool.eq_false_iff.mpr fun hnoise => hkept ((isNoise_head hspace hstamp h).mp hnoise)
  obtain ⟨indent, bullets, key, value⟩ := r
  rw [quietLines, lines_cons, List.filter_cons_of_pos (by simp [hhead])]
  cases value with
  | inline text => rfl
  | opens => rfl
  | block header ls =>
    let r : Row := ⟨indent, bullets, key, .block header ls⟩
    refine congrArg (List.cons _) ?_
    change ((ls.map r.bodyLine ++ []).filter fun l => !isNoise space stamp l) =
      (ls.filter fun l => !isNoise space stamp l).map r.bodyLine ++ []
    rw [List.append_nil, List.append_nil, List.filter_map]
    simp only [Function.comp_def, isNoise_bodyLine hspace]

mutual

theorem Value.quietLines_rowsBelow {column : ℕ} (hspace : IsSpace space) (hstamp : IsKey stamp) :
    (v : Value RowValue) → v.Valid stamp IsScalar IsInlineValue →
    quietLines space stamp (v.rowsBelow column) = lines ((v.quiet space stamp).rowsBelow column)
  | .scalar _, _ => rfl
  | .mapping fields, h => fields.quietLines_rows hspace hstamp h.2 fun hb => absurd rfl hb
  | .sequence items, h => items.quietLines_rows hspace hstamp h

theorem Fields.quietLines_rows {i b : ℕ} (hspace : IsSpace space) (hstamp : IsKey stamp) :
    (fields : Fields RowValue) → fields.Valid stamp IsScalar IsInlineValue →
    (b ≠ 0 → ¬ fields.startsWith stamp) →
    quietLines space stamp (fields.rows i b) = lines ((fields.quiet space stamp).rows i b)
  | .nil, _, _ => rfl
  | .cons key value rest, h, hfirst => by
      have hrest := rest.quietLines_rows (i := i + 2 * b) (b := 0) hspace hstamp h.2.2.2
        fun hb => absurd rfl hb
      have hvalid : (⟨i, b, key, value.lead⟩ : Row).Valid :=
        ⟨h.1.2, fun hkey => absurd hkey h.1.1, h.2.2.1.lead⟩
      rw [Fields.quiet_cons, Fields.rows, ← List.singleton_append, quietLines_append,
        quietLines_append, hrest]
      split_ifs with hkey
      · have hb : b = 0 := by_contra fun hb => hfirst hb hkey
        obtain ⟨_, rfl, text, rfl⟩ := h.2.1 hkey
        subst hb
        have hnoise : isNoise space stamp (Row.head ⟨i, 0, key, .inline text⟩) = true :=
          (isNoise_head hspace hstamp hvalid).mpr ⟨rfl, hkey⟩
        have hrow : quietLines space stamp [⟨i, 0, key, .inline text⟩] = [] := by
          rw [quietLines, lines_cons]
          exact List.filter_cons_of_neg (by simpa using hnoise)
        exact (congrArg (· ++ _) hrow).trans rfl
      · rw [quietLines_row hspace hstamp hvalid fun hrow => hkey hrow.2,
          value.quietLines_rowsBelow hspace hstamp h.2.2.1, Fields.rows, h.2.2.1.lead_quiet]
        simp [lines]

theorem Value.quietLines_itemRows {i b : ℕ} (hspace : IsSpace space) (hstamp : IsKey stamp) :
    (v : Value RowValue) → v.Valid stamp IsScalar IsInlineValue →
    quietLines space stamp (v.itemRows i (b + 1)) = lines ((v.quiet space stamp).itemRows i (b + 1))
  | v, h => by
      have hlead : (v.quiet space stamp).lead = _ := h.lead_quiet
      by_cases hopens : v.lead = .opens
      · match v, h, hopens with
        | .scalar _, h, hopens => exact absurd hopens h.not_opens
        | .mapping (.cons key value rest), h, _ =>
          have hfields := (Fields.cons key value rest).quietLines_rows (i := i) (b := b + 1)
            hspace hstamp h.2 fun _ => h.1
          change _ = lines ((Value.mapping (Fields.quiet space stamp _)).itemRows i (b + 1))
          rw [Fields.quiet_cons, if_neg (show ¬ key = stamp from h.1)] at hfields ⊢
          exact hfields
        | .sequence (.cons item rest), h, _ =>
          exact (Items.cons item rest).quietLines_rows (i := i) (b := b + 1) hspace hstamp h
      · have hopens' : (v.quiet space stamp).lead ≠ .opens := by
          rw [hlead]
          revert hopens
          cases v.lead <;> simp [RowValue.quiet]
        rw [Value.itemRows_of_closed hopens, Value.itemRows_of_closed hopens', hlead]
        exact quietLines_row hspace hstamp
          ⟨fun c hc => (List.not_mem_nil hc).elim, fun _ => ⟨Nat.succ_ne_zero b, hopens⟩, h.lead⟩
          fun hrow => Nat.succ_ne_zero b hrow.1

theorem Items.quietLines_rows {i b : ℕ} (hspace : IsSpace space) (hstamp : IsKey stamp) :
    (items : Items RowValue) → items.Valid stamp IsScalar IsInlineValue →
    quietLines space stamp (items.rows i b) = lines ((items.quiet space stamp).rows i b)
  | .nil, _ => rfl
  | .cons item rest, h => by
      have hrest := rest.quietLines_rows (i := i + 2 * b) (b := 0) hspace hstamp h.2
      have hitem := item.quietLines_itemRows (i := i) (b := b) hspace hstamp h.1
      rw [Items.rows, quietLines_append, hitem, hrest]
      exact (List.flatMap_append ..).symm

end

/-- The lines that are not noise determine a document up to its stamps and its noise. -/
theorem quietLines_eq_iff (hspace : IsSpace space) (hstamp : IsKey stamp)
    {fields fields' : Fields RowValue} (h : fields.Valid stamp IsScalar IsInlineValue)
    (h' : fields'.Valid stamp IsScalar IsInlineValue) :
    quietLines space stamp (fields.rows 0 0) = quietLines space stamp (fields'.rows 0 0) ↔
      fields.quiet space stamp = fields'.quiet space stamp := by
  rw [fields.quietLines_rows hspace hstamp h fun hb => absurd rfl hb,
    fields'.quietLines_rows hspace hstamp h' fun hb => absurd rfl hb]
  constructor
  · exact rows_injective h.quiet h'.quiet
  · intro heq
    rw [heq]

end Voleeo.Yaml
