import Voleeo.Entities
import Voleeo.JsString
import Voleeo.LineSplit
import Voleeo.OrderedMap

/-!
# The text view of an environment

The view writes one line for each variable, an encrypted value inside an encrypt
chip, and reads the lines back. The enabled flags, and the encrypted flags of
plain lines, come from the variables that were there, by key.
-/
namespace Voleeo.Environments

/-! ## Lines -/

def chipStart : Text := "encrypt(value=\"".toList

/-- An encrypted value in the text view. -/
def chip (value : Text) : Text :=
  ['{', '{', ' '] ++ chipStart ++ value ++ ['"', ')', ' ', '}', '}']

def variableLine (v : EnvironmentVariable) : Text :=
  v.key.toList ++ '=' :: if v.encrypted then chip v.value.toList else v.value.toList

def serializeVars (vars : List EnvironmentVariable) : Text :=
  List.intercalate ['\n'] (vars.map variableLine)

/-! ## Reading -/

/-- `/^\{\{\s*encrypt\(value="([^"]*)"\)\s*\}\}$/`: the value of a chip. Each part ends where
the next begins, so the match never has a choice. -/
def encryptMatch (raw : Text) : Option Text := do
  let rest ← ['{', '{'].isPrefixOf? raw
  let rest ← chipStart.isPrefixOf? (rest.dropWhile isJsSpace)
  let value := rest.takeWhile (· ≠ '"')
  let rest ← "\")".toList.isPrefixOf? (rest.dropWhile (· ≠ '"'))
  if rest.dropWhile isJsSpace = ['}', '}'] then some value else none

/-- The variable of a line, unless the line has no equals sign behind its first character. -/
def parseLine (original : OrderedMap String EnvironmentVariable) (line : Text) :
    Option EnvironmentVariable :=
  match line.span (· ≠ '=') with
  | ([], _) => none
  | (_, []) => none
  | (name, _ :: rawVal) =>
    let key := trimString (String.ofList name)
    some {
      key := key
      value := String.ofList ((encryptMatch rawVal).getD rawVal)
      encrypted := (encryptMatch rawVal).isSome ||
        ((original.get? key).map (·.encrypted)).getD false
      enabled := ((original.get? key).map (·.enabled)).getD true }

def parse (text : Text) (original : List EnvironmentVariable) : List EnvironmentVariable :=
  (text.splitOn '\n').filterMap (parseLine (OrderedMap.byId (·.key) original))

/-! ## The chip -/

/-- A text of the shape that the regular expression matches. -/
structure IsChip (raw value : Text) : Prop where
  noQuote : '"' ∉ value
  shape : ∃ ws ws', (∀ c ∈ ws, isJsSpace c) ∧ (∀ c ∈ ws', isJsSpace c) ∧
    raw = ['{', '{'] ++ (ws ++ (chipStart ++ (value ++ ("\")".toList ++ (ws' ++ ['}', '}'])))))

theorem encryptMatch_eq_some_iff {raw value : Text} :
    encryptMatch raw = some value ↔ IsChip raw value := by
  constructor
  · intro h
    simp only [encryptMatch, Option.bind_eq_bind, Option.bind_eq_some_iff,
      isPrefixOf?_eq_some_iff] at h
    obtain ⟨r₁, h₁, r₂, h₂, r₃, h₃, h⟩ := h
    split_ifs at h with h₄
    cases h
    refine ⟨fun hmem => by simpa using List.mem_takeWhile_imp hmem,
      r₁.takeWhile isJsSpace, r₃.takeWhile isJsSpace, fun _ => List.mem_takeWhile_imp,
      fun _ => List.mem_takeWhile_imp, ?_⟩
    rw [← h₄, List.takeWhile_append_dropWhile, ← h₃, List.takeWhile_append_dropWhile, ← h₂,
      List.takeWhile_append_dropWhile, h₁]
  · rintro ⟨hquote, ws, ws', hws, hws', rfl⟩
    have hplain : ∀ c ∈ value, (decide (c ≠ '"')) = true := fun c hc =>
      decide_eq_true fun heq => hquote (heq ▸ hc)
    simp only [encryptMatch, Option.bind_eq_bind, Option.bind_eq_some_iff, isPrefixOf?_eq_some_iff]
    refine ⟨_, rfl, value ++ ("\")".toList ++ (ws' ++ ['}', '}'])), ?_, ws' ++ ['}', '}'], ?_, ?_⟩
    · rw [List.dropWhile_append_of_pos hws]
      rfl
    · rw [List.dropWhile_append_of_pos hplain]
      rfl
    · rw [List.dropWhile_append_of_pos hws', List.takeWhile_append_of_pos hplain, if_pos (by rfl)]
      exact congrArg some (List.append_nil value)

/-! ## Leaving the view without typing -/

/-- A key that a line can hold. -/
structure ValidKey (key : String) : Prop where
  nonempty : key.toList ≠ []
  noEquals : '=' ∉ key.toList
  noNewline : '\n' ∉ key.toList
  trimmed : trim key.toList = key.toList

/-- The variable comes back from its line. -/
structure Survives (vars : List EnvironmentVariable) (v : EnvironmentVariable) : Prop where
  oneLine : '\n' ∉ v.value.toList
  noQuote : v.encrypted = true → '"' ∉ v.value.toList
  notChip : v.encrypted = false → ∀ w, ¬ IsChip v.value.toList w
  /-- The last variable with the key is enabled alike, and encrypted only if this one is. -/
  sameFlags : ∀ u ∈ vars.reverse.find? fun u => u.key = v.key,
    u.enabled = v.enabled ∧ (u.encrypted = true → v.encrypted = true)

variable {vars : List EnvironmentVariable} {v : EnvironmentVariable}

/-- What the parser makes of the first line of a variable. -/
def readBack (vars : List EnvironmentVariable) (key : String) (rawVal : Text) :
    EnvironmentVariable :=
  let original := OrderedMap.byId (·.key) vars
  { key := key
    value := String.ofList ((encryptMatch rawVal).getD rawVal)
    encrypted := (encryptMatch rawVal).isSome ||
      ((original.get? key).map (·.encrypted)).getD false
    enabled := ((original.get? key).map (·.enabled)).getD true }

theorem parseLine_variable (hkey : ValidKey v.key) (rawVal : Text) :
    parseLine (OrderedMap.byId (·.key) vars) (v.key.toList ++ '=' :: rawVal) =
      some (readBack vars v.key rawVal) := by
  have hspan : (v.key.toList ++ '=' :: rawVal).span (fun c => decide (c ≠ '=')) =
      (v.key.toList, '=' :: rawVal) := by
    have hplain : ∀ c ∈ v.key.toList, decide (c ≠ '=') = true := fun c hc =>
      decide_eq_true fun heq => hkey.noEquals (heq ▸ hc)
    rw [List.span_eq_takeWhile_dropWhile, List.takeWhile_append_of_pos hplain,
      List.dropWhile_append_of_pos hplain]
    simp
  have htrim : trimString (String.ofList v.key.toList) = v.key := by
    rw [trimString, String.toList_ofList, hkey.trimmed, String.ofList_toList]
  rw [parseLine, hspan]
  split
  · rename_i heq
    exact absurd (congrArg Prod.fst heq) hkey.nonempty
  · rename_i heq
    cases congrArg Prod.snd heq
  · rename_i heq
    cases heq
    rw [htrim]
    rfl

/-- The variables that the parser makes of the lines of one variable. -/
def readLines (vars : List EnvironmentVariable) (v : EnvironmentVariable) :
    List EnvironmentVariable :=
  ((variableLine v).splitOn '\n').filterMap (parseLine (OrderedMap.byId (·.key) vars))

theorem parse_serializeVars (vars : List EnvironmentVariable) :
    parse (serializeVars vars) vars = vars.flatMap (readLines vars) := by
  by_cases h : vars = []
  · subst h
    have hnone : parseLine (OrderedMap.byId (·.key) []) [] = none := rfl
    simp [parse, serializeVars, hnone]
  · rw [parse, serializeVars, splitOn_intercalate_flatMap _ (by simpa using h), List.flatMap_map,
      List.filterMap_flatMap]
    rfl

/-- The value of a variable as its line has it. -/
def lineValue (v : EnvironmentVariable) : Text :=
  if v.encrypted then chip v.value.toList else v.value.toList

theorem newline_mem_lineValue : '\n' ∈ lineValue v ↔ '\n' ∈ v.value.toList := by
  rw [lineValue]
  split_ifs
  · have hopen : '\n' ∉ ['{', '{', ' '] := by decide
    have hstart : '\n' ∉ chipStart := by decide
    have hclose : '\n' ∉ ['"', ')', ' ', '}', '}'] := by decide
    simp only [chip, List.mem_append, hopen, hstart, hclose, false_or, or_false]
  · exact Iff.rfl

theorem readLines_of_oneLine (hkey : ValidKey v.key) (h : '\n' ∉ v.value.toList) :
    readLines vars v = [readBack vars v.key (lineValue v)] := by
  have hline : '\n' ∉ variableLine v := by
    rw [variableLine, List.mem_append, List.mem_cons]
    rintro (hmem | heq | hmem)
    · exact hkey.noNewline hmem
    · cases heq
    · exact h (newline_mem_lineValue.mp hmem)
  rw [readLines, List.splitOn_eq_singleton hline, variableLine, ← lineValue,
    List.filterMap_cons_some (parseLine_variable hkey (lineValue v)), List.filterMap_nil]

/-- A value with a line break is cut off at the first one. -/
theorem readLines_of_newline (hkey : ValidKey v.key) (h : '\n' ∈ v.value.toList) :
    ∃ rawVal, '\n' ∉ rawVal ∧ ∃ rest, readLines vars v = readBack vars v.key rawVal :: rest := by
  obtain ⟨rawVal, after, hvalue, hraw⟩ :=
    List.eq_append_cons_of_mem (newline_mem_lineValue.mpr h)
  have hhead : '\n' ∉ v.key.toList ++ '=' :: rawVal := by
    rw [List.mem_append, List.mem_cons]
    rintro (hmem | heq | hmem)
    · exact hkey.noNewline hmem
    · cases heq
    · exact hraw hmem
  have hline : variableLine v = (v.key.toList ++ '=' :: rawVal) ++ '\n' :: after := by
    rw [variableLine, ← lineValue, hvalue, List.append_assoc, List.cons_append]
  refine ⟨rawVal, hraw,
    (after.splitOn '\n').filterMap (parseLine (OrderedMap.byId (·.key) vars)), ?_⟩
  rw [readLines, hline, List.splitOn_append_cons_self_of_not_mem hhead,
    List.filterMap_cons_some (parseLine_variable hkey rawVal)]

theorem count_quote_of_space {ws : Text} (h : ∀ c ∈ ws, isJsSpace c) : ws.count '"' = 0 :=
  List.count_eq_zero.mpr fun hmem => absurd (h _ hmem) (by decide)

/-- A chip has two quotes, those around its value. -/
theorem IsChip.count_quote {raw value : Text} (h : IsChip raw value) : raw.count '"' = 2 := by
  obtain ⟨hquote, ws, ws', hws, hws', rfl⟩ := h
  simp only [List.count_append, count_quote_of_space hws, count_quote_of_space hws',
    List.count_eq_zero.mpr hquote]
  rfl

theorem IsChip.length_lt {raw value : Text} (h : IsChip raw value) : value.length < raw.length := by
  obtain ⟨-, ws, ws', -, -, rfl⟩ := h
  simp only [List.length_append, show ['{', '{'].length = 2 from rfl]
  omega

theorem encryptMatch_chip (value : Text) :
    encryptMatch (chip value) = if '"' ∈ value then none else some value := by
  split_ifs with hquote
  · rw [Option.eq_none_iff_forall_ne_some]
    intro w hw
    have hcount := (encryptMatch_eq_some_iff.mp hw).count_quote
    have hpos := List.count_pos_iff.mpr hquote
    simp only [chip, List.count_append, show ['{', '{', ' '].count '"' = 0 from rfl,
      show chipStart.count '"' = 1 from rfl,
      show ['"', ')', ' ', '}', '}'].count '"' = 1 from rfl] at hcount
    omega
  · refine encryptMatch_eq_some_iff.mpr ⟨hquote, [' '], [' '], by simp [isJsSpace], by simp [isJsSpace], ?_⟩
    simp [chip]

theorem lookup_last (hv : v ∈ vars) :
    ∃ u, (OrderedMap.byId (·.key) vars).get? v.key = some u ∧
      (vars.reverse.find? fun u => u.key = v.key) = some u := by
  have hsome : (vars.reverse.find? fun u => u.key = v.key).isSome = true :=
    List.find?_isSome.mpr ⟨v, List.mem_reverse.mpr hv, by simp⟩
  obtain ⟨u, hu⟩ := Option.isSome_iff_exists.mp hsome
  exact ⟨u, (OrderedMap.get?_byId (·.key) vars v.key).trans hu, hu⟩

theorem readBack_eq_iff (hv : v ∈ vars) (h : '\n' ∉ v.value.toList) :
    readBack vars v.key (lineValue v) = v ↔ Survives vars v := by
  obtain ⟨u, hget, hlast⟩ := lookup_last hv
  have hsurvives : Survives vars v ↔ (v.encrypted = true → '"' ∉ v.value.toList) ∧
      (v.encrypted = false → ∀ w, ¬ IsChip v.value.toList w) ∧
      u.enabled = v.enabled ∧ (u.encrypted = true → v.encrypted = true) := by
    constructor
    · rintro ⟨-, hquote, hchip, hflags⟩
      exact ⟨hquote, hchip, hflags u hlast⟩
    · rintro ⟨hquote, hchip, hflags⟩
      exact ⟨h, hquote, hchip, fun u' hu' => by cases hlast.symm.trans hu'; exact hflags⟩
  rw [hsurvives, readBack, hget]
  rcases v with ⟨key, value, encrypted, enabled⟩
  cases encrypted with
  | true =>
    simp only [lineValue, if_true, encryptMatch_chip]
    by_cases hquote : '"' ∈ value.toList
    · have hne : String.ofList (chip value.toList) ≠ value := fun heq => by
        have hlength := congrArg (·.toList.length) heq
        rw [String.toList_ofList] at hlength
        simp only [chip, List.length_append, show ['{', '{', ' '].length = 3 from rfl] at hlength
        omega
      simp [hquote, hne]
    · simp [hquote]
  | false =>
    simp only [lineValue, Bool.false_eq_true, if_false]
    cases hmatch : encryptMatch value.toList with
    | none =>
      have hchip : ∀ w, ¬ IsChip value.toList w := fun w hw => by
        cases hmatch.symm.trans (encryptMatch_eq_some_iff.mpr hw)
      simp [hchip, and_comm]
    | some w =>
      have hchip := encryptMatch_eq_some_iff.mp hmatch
      have hne : String.ofList w ≠ value := fun heq => by
        have hlength := congrArg (·.toList.length) heq
        rw [String.toList_ofList] at hlength
        exact absurd hlength hchip.length_lt.ne
      have hnot : ¬ ∀ w, ¬ IsChip value.toList w := fun hno => hno w hchip
      simp [hne, hnot]

theorem newline_not_mem_read {rawVal : Text} (h : '\n' ∉ rawVal) :
    '\n' ∉ (encryptMatch rawVal).getD rawVal := by
  cases hmatch : encryptMatch rawVal with
  | none => exact h
  | some w =>
    obtain ⟨-, ws, ws', -, -, rfl⟩ := encryptMatch_eq_some_iff.mp hmatch
    exact fun hmem => h (by simp [show '\n' ∈ w from hmem])

/-- A list whose elements are each replaced by some elements is the same list only if each element
is replaced by itself. -/
theorem flatMap_eq_self_iff {α : Type*} {f : α → List α} {xs : List α}
    (h : ∀ x ∈ xs, f x ≠ []) : xs.flatMap f = xs ↔ ∀ x ∈ xs, f x = [x] := by
  induction xs with
  | nil => simp
  | cons x xs ih =>
    rw [List.forall_mem_cons] at h
    rw [List.flatMap_cons, List.forall_mem_cons, ← ih h.2]
    constructor
    · intro heq
      have hlong : xs.length ≤ (xs.flatMap f).length := by
        have hone := List.length_le_sum_of_one_le (xs.map fun x => (f x).length) fun i hi => by
          obtain ⟨x, hx, rfl⟩ := List.mem_map.mp hi
          exact List.length_pos_iff.mpr (h.2 x hx)
        rwa [List.length_map, ← List.length_flatMap] at hone
      obtain ⟨y, ys, hy⟩ := List.exists_cons_of_ne_nil h.1
      have hlength := congrArg List.length heq
      rw [hy, List.length_append, List.length_cons, List.length_cons] at hlength
      have hys : ys = [] := List.length_eq_zero_iff.mp (by omega)
      subst hys
      rw [hy, List.singleton_append, List.cons.injEq] at heq
      rw [hy, heq.1]
      exact ⟨rfl, heq.2⟩
    · rintro ⟨hx, hxs⟩
      rw [hx, hxs, List.singleton_append]

/-- Leaving the text view untouched keeps every variable if and only if every variable survives. -/
theorem text_view_lossless_iff (vars : List EnvironmentVariable)
    (hkeys : ∀ v ∈ vars, ValidKey v.key) :
    parse (serializeVars vars) vars = vars ↔ ∀ v ∈ vars, Survives vars v := by
  have hread : ∀ v ∈ vars, readLines vars v ≠ [] ∧ (readLines vars v = [v] ↔ Survives vars v) := by
    intro v hv
    by_cases hline : '\n' ∈ v.value.toList
    · obtain ⟨rawVal, hraw, rest, heq⟩ := @readLines_of_newline vars v (hkeys v hv) hline
      refine ⟨by simp [heq], iff_of_false (fun hself => ?_) fun hsurvives => hsurvives.oneLine hline⟩
      rw [heq, List.cons.injEq] at hself
      have hvalue := congrArg (·.value.toList) hself.1
      simp only [readBack, String.toList_ofList] at hvalue
      rw [← hvalue] at hline
      exact newline_not_mem_read hraw hline
    · rw [readLines_of_oneLine (hkeys v hv) hline]
      exact ⟨by simp, by rw [← readBack_eq_iff hv hline, List.cons.injEq, and_iff_left rfl]⟩
  rw [parse_serializeVars, flatMap_eq_self_iff fun v hv => (hread v hv).1]
  exact forall₂_congr fun v hv => (hread v hv).2

/-- Variables with flags, an encrypted value and a value of several words. -/
def quietVars : List EnvironmentVariable :=
  [⟨"HOST", "api.example.com", false, true⟩, ⟨"TOKEN", "s3cret", true, false⟩]

theorem quietVars_lossless :
    parse (serializeVars quietVars) quietVars = quietVars ↔
      ∀ v ∈ quietVars, Survives quietVars v :=
  text_view_lossless_iff quietVars (by
    simp only [quietVars, List.forall_mem_cons, List.not_mem_nil, false_imp_iff, implies_true,
      and_true]
    exact ⟨⟨by decide, by decide, by decide, by decide⟩, ⟨by decide, by decide, by decide, by decide⟩⟩)

/-- A value of two lines loses the second. -/
theorem line_break_is_lost : ¬ ∀ vars : List EnvironmentVariable,
    (∀ v ∈ vars, ValidKey v.key) → parse (serializeVars vars) vars = vars := by
  intro h
  have hparse := h [⟨"PEM", "a\nb", false, true⟩] (by
    simp only [List.forall_mem_cons, List.not_mem_nil, false_imp_iff, implies_true, and_true]
    exact ⟨by decide, by decide, by decide, by decide⟩)
  exact absurd hparse (by decide)

end Voleeo.Environments
