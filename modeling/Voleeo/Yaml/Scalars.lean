import Voleeo.Yaml.Values

/-!
# Writing scalars

A text with line breaks is written as a block of its lines, with a header that
tells how it ends. How the other scalars are written on one line is up to the
emitter.
-/
namespace Voleeo.Yaml

variable {ρ : Type}

/-- A text, or a value of another type, such as a number. -/
inductive Scalar (ρ : Type) where
  | plain (token : ρ)
  | text (s : Text)

/-- The lines of a block. -/
def blockLines (s : Text) : List Text :=
  let split := splitLines '\n' s
  split.1 ++ if split.2 = [] then [] else [split.2]

/-- An indentation indicator in front of space, and how the last line ends. -/
def blockHeader (s : Text) : Text :=
  let indicator := if s.head? = some ' ' ∨ s.head? = some '\n' then ['2'] else []
  let chomping :=
    if (splitLines '\n' s).2 ≠ [] then ['-']
    else if s = ['\n'] ∨ ['\n', '\n'] <:+ s then ['+']
    else []
  '|' :: (indicator ++ chomping)

/-- How scalars are written, and what can be read back. -/
structure Emitter (ρ : Type) where
  inline : Scalar ρ → Text
  /-- The texts that are written as a block. -/
  isLiteral : Text → Bool
  isInline : ∀ v, IsInline (inline v)
  not_flow : ∀ v, inline v ≠ "{}".toList ∧ inline v ≠ "[]".toList
  injective : Function.Injective inline
  literal : ∀ s, isLiteral s = true → '\n' ∈ s ∧ '\r' ∉ s

/-! ## A block determines its text -/

theorem isBlockHeader_blockHeader (s : Text) : IsBlockHeader (blockHeader s) := by
  refine ⟨rfl, ?_⟩
  simp only [blockHeader]
  split_ifs <;> decide

theorem mem_of_mem_blockLines {s l : Text} (hl : l ∈ blockLines s) {c : Char} (hc : c ∈ l) :
    c ∈ s := by
  rw [← joinLines_splitLines '\n' s, List.mem_append]
  rw [blockLines, List.mem_append] at hl
  rcases hl with hl | hl
  · exact .inl (List.mem_flatMap.mpr ⟨l, hl, List.mem_append_left _ hc⟩)
  · split_ifs at hl with hnil
    · cases hl
    · rw [List.mem_singleton.mp hl] at hc
      exact .inr hc

theorem newline_not_mem_blockLines {s l : Text} (hl : l ∈ blockLines s) : '\n' ∉ l := by
  rw [blockLines, List.mem_append] at hl
  rcases hl with hl | hl
  · exact sep_not_mem_lines '\n' s l hl
  · split_ifs at hl with hnil
    · cases hl
    · rw [List.mem_singleton.mp hl]
      exact sep_not_mem_rest '\n' s

theorem minus_mem_blockHeader (s : Text) : '-' ∈ blockHeader s ↔ (splitLines '\n' s).2 ≠ [] := by
  simp only [blockHeader]
  split_ifs with _ hrest _ _ hrest <;> simp_all

theorem block_injective {s t : Text} (hheader : blockHeader s = blockHeader t)
    (hlines : blockLines s = blockLines t) : s = t := by
  have hrest : (splitLines '\n' s).2 ≠ [] ↔ (splitLines '\n' t).2 ≠ [] := by
    rw [← minus_mem_blockHeader, ← minus_mem_blockHeader, hheader]
  have hsplit : splitLines '\n' s = splitLines '\n' t := by
    simp only [blockLines] at hlines
    by_cases hs : (splitLines '\n' s).2 = []
    · have ht : (splitLines '\n' t).2 = [] := not_not.mp fun ht => hrest.mpr ht hs
      rw [if_pos hs, if_pos ht, List.append_nil, List.append_nil] at hlines
      exact Prod.ext hlines (hs.trans ht.symm)
    · have ht := hrest.mp hs
      rw [if_neg hs, if_neg ht] at hlines
      obtain ⟨hinit, hlast⟩ := List.append_inj' hlines rfl
      exact Prod.ext hinit (List.cons.inj hlast).1
  rw [← joinLines_splitLines '\n' s, ← joinLines_splitLines '\n' t, hsplit]

namespace Emitter

variable (e : Emitter ρ)

def write : Scalar ρ → RowValue
  | .plain token => .inline (e.inline (.plain token))
  | .text s =>
    if e.isLiteral s then .block (blockHeader s) (blockLines s) else .inline (e.inline (.text s))

theorem write_cases (v : Scalar ρ) : e.write v = .inline (e.inline v) ∨
    ∃ s, v = .text s ∧ e.isLiteral s = true ∧ e.write v = .block (blockHeader s) (blockLines s) := by
  cases v with
  | plain token => exact .inl rfl
  | text s =>
    rw [write]
    split_ifs with hliteral
    · exact .inr ⟨s, rfl, hliteral, rfl⟩
    · exact .inl rfl

theorem isScalar_write (v : Scalar ρ) : IsScalar (e.write v) := by
  obtain hinline | ⟨s, -, hliteral, hblock⟩ := e.write_cases v
  · rw [hinline]
    exact ⟨e.isInline v, nofun, fun h => (e.not_flow v).1 (RowValue.inline.inj h),
      fun h => (e.not_flow v).2 (RowValue.inline.inj h)⟩
  · rw [hblock]
    refine ⟨⟨isBlockHeader_blockHeader s, fun l hl => ⟨newline_not_mem_blockLines hl, fun hr => ?_⟩⟩,
      nofun, nofun, nofun⟩
    exact (e.literal s hliteral).2 (mem_of_mem_blockLines hl hr)

theorem write_injective : Function.Injective e.write := by
  intro v v' h
  obtain hinline | ⟨s, rfl, -, hblock⟩ := e.write_cases v <;>
    obtain hinline' | ⟨s', rfl, -, hblock'⟩ := e.write_cases v'
  · rw [hinline, hinline'] at h
    exact e.injective (RowValue.inline.inj h)
  · rw [hinline, hblock'] at h
    cases h
  · rw [hblock, hinline'] at h
    cases h
  · rw [hblock, hblock'] at h
    obtain ⟨hheader, hlines⟩ := RowValue.block.inj h
    rw [block_injective hheader hlines]

end Emitter

/-! ## Quoting -/

def escapeChar (c : Char) : Text :=
  if c = '"' then ['\\', '"']
  else if c = '\\' then ['\\', '\\']
  else if c = '\n' then ['\\', 'n']
  else if c = '\r' then ['\\', 'r']
  else [c]

def quote (s : Text) : Text := '"' :: (s.flatMap escapeChar ++ ['"'])

def isWord (s : Text) : Bool :=
  s != [] && s.getLast? != some ':' &&
    s.all fun c => isWordChar c || c == '-' || c == ':' || c == '.'

/-- A text that needs no quotes. -/
def isPlainWord (s : Text) : Bool := isWord s && s != "true".toList && s != "false".toList

/-- Words stand as they are, other texts are quoted. -/
def quotingInline : Scalar Bool → Text
  | .plain true => "true".toList
  | .plain false => "false".toList
  | .text s => if isPlainWord s then s else quote s

def unescape : Text → Text
  | '\\' :: 'n' :: rest => '\n' :: unescape rest
  | '\\' :: 'r' :: rest => '\r' :: unescape rest
  | '\\' :: c :: rest => c :: unescape rest
  | c :: rest => c :: unescape rest
  | [] => []

theorem unescape_escapeChar (c : Char) (rest : Text) :
    unescape (escapeChar c ++ rest) = c :: unescape rest := by
  rw [escapeChar]
  split_ifs with hquote hslash hn hr
  · rw [hquote]
    rfl
  · rw [hslash]
    rfl
  · rw [hn]
    rfl
  · rw [hr]
    rfl
  · rw [List.singleton_append, unescape]
    all_goals
      rintro _ h
      simp_all

theorem unescape_flatMap (s : Text) : unescape (s.flatMap escapeChar) = s := by
  induction s with
  | nil => rfl
  | cons c s ih => rw [List.flatMap_cons, unescape_escapeChar, ih]

theorem isOneLine_escapeChar (c : Char) : IsOneLine (escapeChar c) := by
  rw [escapeChar]
  split_ifs with hquote hslash hn hr
  · exact .of_forall (by simp)
  · exact .of_forall (by simp)
  · exact .of_forall (by simp)
  · exact .of_forall (by simp)
  · exact .of_forall (by simpa using ⟨hn, hr⟩)

theorem isInline_quote (s : Text) : IsInline (quote s) := by
  refine ⟨List.cons_ne_nil _ _, nofun, nofun, ?_, fun key rest hne hall heq => ?_, ?_⟩
  · rintro ⟨tail, htail⟩
    cases (List.cons.inj htail).1
  · exact absurd heq (ne_key_of_front (by decide) hne hall)
  · have hbody : IsOneLine (s.flatMap escapeChar) := .of_forall fun c hc => by
      obtain ⟨d, -, hc⟩ := List.mem_flatMap.mp hc
      have hd := isOneLine_escapeChar d
      exact ⟨fun hn => hd.1 (hn ▸ hc), fun hr => hd.2 (hr ▸ hc)⟩
    exact (IsOneLine.of_forall (s := ['"']) (by simp)).append
      (hbody.append (.of_forall (s := ['"']) (by simp)))

theorem isInline_of_isWord {s : Text} (h : isWord s = true) : IsInline s := by
  simp only [isWord, Bool.and_eq_true, bne_iff_ne, ne_eq, List.all_eq_true] at h
  obtain ⟨⟨hne, hlast⟩, hall⟩ := h
  have hchar : ∀ c ∈ s, c ≠ ' ' ∧ c ≠ '|' ∧ c ≠ '\n' ∧ c ≠ '\r' := by
    intro c hc
    have hc := hall c hc
    refine ⟨?_, ?_, ?_, ?_⟩ <;> rintro rfl <;> revert hc <;> decide
  refine ⟨hne, fun hhead => ?_, fun hhead => ?_, ?_, ?_, ?_⟩
  · exact (hchar ' ' (List.mem_of_mem_head? hhead)).1 rfl
  · exact (hchar '|' (List.mem_of_mem_head? hhead)).2.1 rfl
  · rintro ⟨tail, rfl⟩
    exact (hchar ' ' (by simp)).1 rfl
  · rintro key rest - - rfl
    constructor
    · rintro rfl
      simp at hlast
    · intro hhead
      exact (hchar ' ' (by simp [List.mem_of_mem_head? hhead])).1 rfl
  · exact ⟨fun hn => (hchar _ hn).2.2.1 rfl, fun hr => (hchar _ hr).2.2.2 rfl⟩

theorem quotingInline_cases (v : Scalar Bool) :
    isWord (quotingInline v) = true ∨ ∃ s, v = .text s ∧ quotingInline v = quote s := by
  match v with
  | .plain true => exact .inl (by decide)
  | .plain false => exact .inl (by decide)
  | .text s =>
    rw [quotingInline]
    split_ifs with hword
    · rw [isPlainWord, Bool.and_eq_true, Bool.and_eq_true] at hword
      exact .inl hword.1.1
    · exact .inr ⟨s, rfl, rfl⟩

theorem isWord_ne_cons {s cs : Text} {c : Char} (h : isWord s = true)
    (hc : (isWordChar c || c == '-' || c == ':' || c == '.') = false) : s ≠ c :: cs := by
  rintro rfl
  simp only [isWord, Bool.and_eq_true, List.all_cons, hc] at h
  exact absurd h.2.1 (by decide)

def readInline (s : Text) : Scalar Bool :=
  if s = "true".toList then .plain true
  else if s = "false".toList then .plain false
  else
    match s with
    | '"' :: rest => .text (unescape rest.dropLast)
    | _ => .text s

theorem readInline_quotingInline (v : Scalar Bool) : readInline (quotingInline v) = v := by
  match v with
  | .plain true => rfl
  | .plain false => rfl
  | .text s =>
    rw [quotingInline]
    split_ifs with hword
    · simp only [isPlainWord, Bool.and_eq_true, bne_iff_ne] at hword
      rw [readInline, if_neg hword.1.2, if_neg hword.2]
      exact fun rest => isWord_ne_cons hword.1.1 (by decide)
    · change Scalar.text (unescape (s.flatMap escapeChar ++ ['"']).dropLast) = _
      rw [List.dropLast_concat, unescape_flatMap]

/-- Words stand as they are, and texts with line breaks as blocks; other texts are quoted. -/
def quoting : Emitter Bool where
  inline := quotingInline
  isLiteral s := s.contains '\n' && !s.contains '\r'
  isInline v := by
    obtain hword | ⟨s, -, hquote⟩ := quotingInline_cases v
    · exact isInline_of_isWord hword
    · rw [hquote]
      exact isInline_quote s
  not_flow v := by
    obtain hword | ⟨s, -, hquote⟩ := quotingInline_cases v
    · exact ⟨isWord_ne_cons hword (by decide), isWord_ne_cons hword (by decide)⟩
    · rw [hquote]
      exact ⟨nofun, nofun⟩
  injective := Function.LeftInverse.injective readInline_quotingInline
  literal s h := by simpa using h

end Voleeo.Yaml
