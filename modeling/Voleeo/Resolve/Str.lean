import Voleeo.OrderedMap
import Voleeo.Resolve.Text
import Voleeo.Loops

/-!
# Template variables in the Rust resolver

`resolve_str` looks for braces without an eye on quotes. A known name is
replaced by its resolved value; anything else between braces is written back.
-/
namespace Voleeo.Resolve
open OrderedMap

/-- `White_Space`, which `str::trim` takes off. -/
def isWhitespace (c : Char) : Bool :=
  let n := c.toNat
  (9 ≤ n && n ≤ 13) || n == 0x20 || n == 0x85 || n == 0xA0 || n == 0x1680 ||
    (0x2000 ≤ n && n ≤ 0x200A) || n == 0x2028 || n == 0x2029 || n == 0x202F || n == 0x205F ||
    n == 0x3000

def strTrim (s : Text) : Text := (s.dropWhile isWhitespace).rdropWhile isWhitespace

/-- The text in front of the first occurrence of a pattern, and the text behind it. -/
def splitOnce (pattern : Text) : Text → Option (Text × Text)
  | [] => if pattern = [] then some ([], []) else none
  | c :: rest =>
    if pattern <+: c :: rest then some ([], (c :: rest).drop pattern.length)
    else (splitOnce pattern rest).map fun parts => (c :: parts.1, parts.2)

theorem splitOnce_eq_some {pattern s before after : Text}
    (h : splitOnce pattern s = some (before, after)) : s = before ++ pattern ++ after := by
  induction s generalizing before with
  | nil =>
    rw [splitOnce] at h
    split_ifs at h with hp
    cases h
    rw [hp]
    rfl
  | cons c rest ih =>
    rw [splitOnce] at h
    split_ifs at h with hp
    · cases h
      obtain ⟨tail, htail⟩ := hp
      rw [← htail, List.drop_left]
      rfl
    · rw [Option.map_eq_some_iff] at h
      obtain ⟨⟨before', after'⟩, hrest, heq⟩ := h
      cases heq
      rw [ih hrest]
      rfl

/-- The split is at the first occurrence. -/
theorem not_infix_of_splitOnce {pattern s before after : Text} (hne : pattern ≠ [])
    (h : splitOnce pattern s = some (before, after)) : ¬ pattern <:+: before := by
  induction s generalizing before with
  | nil =>
    rw [splitOnce, if_neg hne] at h
    cases h
  | cons c rest ih =>
    rw [splitOnce] at h
    split_ifs at h with hp
    · cases h
      simpa using hne
    · obtain ⟨⟨before', after'⟩, hrest, heq⟩ := Option.map_eq_some_iff.mp h
      cases heq
      rw [List.infix_cons_iff, not_or]
      refine ⟨fun hstart => hp (hstart.trans ?_), ih hrest⟩
      exact ⟨pattern ++ after', by rw [splitOnce_eq_some hrest]; simp⟩

theorem splitOnce_eq_none {pattern s : Text} (hne : pattern ≠ []) :
    splitOnce pattern s = none ↔ ¬ pattern <:+: s := by
  induction s with
  | nil => simp [splitOnce, hne]
  | cons c rest ih =>
    rw [splitOnce, List.infix_cons_iff]
    split_ifs with hp
    · simp [hp]
    · rw [Option.map_eq_none_iff, ih]
      simp [hp]

theorem splitOnce_length {pattern s before after : Text} (hne : pattern ≠ [])
    (h : splitOnce pattern s = some (before, after)) : after.length < s.length := by
  have hpos : 0 < pattern.length := List.length_pos_iff.mpr hne
  rw [splitOnce_eq_some h, List.length_append, List.length_append]
  omega

def opening : Text := ['{', '{']
def closing : Text := ['}', '}']

def pushToken (inner : Text) : Text := ['{', '{', ' '] ++ inner ++ [' ', '}', '}']

/-- `visited` holds the names on the way down; a name leaves it again when its value is done. -/
def resolveInner (tables : UnicodeTables) (vars : OrderedMap Text Text) (visited : List Text)
    (text : Text) : Text :=
  match _hopen : splitOnce opening text with
  | none => text
  | some (before, inside) =>
    match _hclose : splitOnce closing inside with
    | none => before ++ opening ++ inside
    | some (inner, rest) =>
      let name := strTrim inner
      let resolved :=
        if isIdentifier tables name = true then
          if _hv : name ∈ visited then pushToken name -- cycle guard
          else
            match _hvalue : vars.get? name with
            | some value => resolveInner tables vars (name :: visited) value
            | none => pushToken name
        else pushToken name
      before ++ resolved ++ resolveInner tables vars visited rest
termination_by ((unvisited id vars.keys visited).length, text.length)
decreasing_by
  · have hmem := get?_isSome.mp (Option.isSome_of_mem _hvalue)
    exact Prod.Lex.left _ _ (unvisited_lt hmem rfl _hv)
  · have hinside := splitOnce_length (by decide) _hopen
    have hrest := splitOnce_length (by decide) _hclose
    exact Prod.Lex.right _ (hrest.trans hinside)

def resolveStr (tables : UnicodeTables) (text : Text) (vars : OrderedMap Text Text) : Text :=
  resolveInner tables vars [] text

theorem resolveStr_plain (tables : UnicodeTables) (vars : OrderedMap Text Text) {text : Text}
    (h : ¬ opening <:+: text) : resolveStr tables text vars = text := by
  have hnone : splitOnce opening text = none := (splitOnce_eq_none (by decide)).mpr h
  rw [resolveStr, resolveInner]
  split
  · rfl
  · rename_i hsome
    rw [hnone] at hsome
    cases hsome

/-! ## Step by step -/

section
variable (tables : UnicodeTables) (vars : OrderedMap Text Text) (visited : List Text)

/-- What an expression becomes. -/
def resolveName (name : Text) : Text :=
  if isIdentifier tables name = true ∧ name ∉ visited then
    match vars.get? name with
    | some value => resolveInner tables vars (name :: visited) value
    | none => pushToken name
  else pushToken name

variable {tables vars visited}

/-- The text up to the first closed expression, the expression, and the rest. -/
theorem resolveInner_eq (text : Text) : resolveInner tables vars visited text =
    match splitOnce opening text with
    | none => text
    | some (before, inside) =>
      match splitOnce closing inside with
      | none => before ++ opening ++ inside
      | some (inner, rest) =>
        before ++ resolveName tables vars visited (strTrim inner) ++
          resolveInner tables vars visited rest := by
  rw [resolveInner]
  split
  · rename_i hopen
    simp only [hopen]
  · rename_i before inside hopen
    simp only [hopen]
    split
    · rename_i hclose
      simp only [hclose]
    · rename_i inner rest hclose
      simp only [hclose, resolveName]
      congr 2
      by_cases hid : isIdentifier tables (strTrim inner) = true
      · by_cases hv : strTrim inner ∈ visited
        · simp only [hid, hv, dif_pos, if_true, not_true, and_false, if_false]
        · simp only [hid, hv, dif_neg, not_false_eq_true, if_true, and_true]
          split
          · rename_i hvalue
            simp only [hvalue]
          · rename_i hvalue
            simp only [hvalue]
      · simp only [hid, if_false, Bool.false_eq_true, false_and]

/-- A text that closes nothing stays. -/
theorem resolveInner_unclosed {text : Text} (h : ¬ closing <:+: text) :
    resolveInner tables vars visited text = text := by
  rw [resolveInner_eq]
  cases hopen : splitOnce opening text with
  | none => rfl
  | some parts =>
    have htext := splitOnce_eq_some hopen
    have hinside : parts.2 <:+: text := ⟨parts.1 ++ opening, [], by rw [htext]; simp⟩
    have hnone : splitOnce closing parts.2 = none :=
      (splitOnce_eq_none (by decide)).mpr fun hclose => h (hclose.trans hinside)
    simp only [hnone]
    exact htext.symm

/-- A character that opens nothing stays. -/
theorem resolveInner_char {c : Char} {rest : Text} (h : ¬ opening <+: c :: rest) :
    resolveInner tables vars visited (c :: rest) = c :: resolveInner tables vars visited rest := by
  rw [resolveInner_eq, resolveInner_eq, splitOnce, if_neg h]
  cases splitOnce opening rest with
  | none => rfl
  | some parts =>
    simp only [Option.map_some]
    cases splitOnce closing parts.2 with
    | none => rfl
    | some ends => rfl

/-- An expression is replaced, and the rest is resolved after it. -/
theorem resolveInner_expr {inside inner rest : Text}
    (h : splitOnce closing inside = some (inner, rest)) :
    resolveInner tables vars visited (opening ++ inside) =
      resolveName tables vars visited (strTrim inner) ++ resolveInner tables vars visited rest := by
  have hopen : splitOnce opening (opening ++ inside) = some ([], inside) := by
    rw [show opening ++ inside = '{' :: '{' :: inside from rfl, splitOnce, if_pos ⟨inside, rfl⟩]
    rfl
  rw [resolveInner_eq]
  simp only [hopen, h, List.nil_append]

end

end Voleeo.Resolve
