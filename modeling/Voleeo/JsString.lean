import Mathlib

/-!
# JavaScript string helpers

Text is a list of characters wherever a program scans it. Whitespace is the
ECMAScript set: the `WhiteSpace` and `LineTerminator` productions, which is what
`trim` and the `\s` class of a regular expression use.
-/
namespace Voleeo

abbrev Text := List Char

instance lawfulBEq_text : LawfulBEq (List Char) := inferInstance

/-- A predicate on the characters of a text is checked along the text. -/
instance (priority := high) decidableForallMemText (p : Char → Prop) [DecidablePred p]
    (s : Text) : Decidable (∀ c ∈ s, p c) := List.decidableBAll p s

/-- ECMAScript `WhiteSpace` or `LineTerminator`. -/
def isJsSpace (c : Char) : Bool :=
  let n := c.toNat
  (9 ≤ n && n ≤ 13) || n == 0x20 || n == 0xA0 || n == 0x1680 || (0x2000 ≤ n && n ≤ 0x200A) ||
    n == 0x2028 || n == 0x2029 || n == 0x202F || n == 0x205F || n == 0x3000 || n == 0xFEFF

/-- `LineTerminator`: what the dot of a regular expression without the `s` flag refuses. -/
def isLineTerminator (c : Char) : Bool :=
  c == '\n' || c == '\r' || c.toNat == 0x2028 || c.toNat == 0x2029

def trimStart (s : Text) : Text := s.dropWhile isJsSpace

def trimEnd (s : Text) : Text := s.rdropWhile isJsSpace

def trim (s : Text) : Text := trimEnd (trimStart s)

/-- `trim` on a whole string. -/
def trimString (s : String) : String := String.ofList (trim s.toList)

/-- `\w` of a regular expression without the `u` flag. -/
def isWordChar (c : Char) : Bool := c.isAlphanum || c == '_'

theorem wordChar_range {c : Char} (h : isWordChar c = true) : c.toNat = 95 ∨
    (48 ≤ c.toNat ∧ c.toNat ≤ 57) ∨ (65 ≤ c.toNat ∧ c.toNat ≤ 90) ∨
    (97 ≤ c.toNat ∧ c.toNat ≤ 122) := by
  simp only [isWordChar, Char.isAlphanum, Char.isAlpha, Char.isUpper, Char.isLower, Char.isDigit,
    Bool.or_eq_true, Bool.and_eq_true, decide_eq_true_eq, beq_iff_eq, UInt32.le_iff_toNat_le,
    ge_iff_le] at h
  have hn : c.val.toNat = c.toNat := rfl
  rw [hn] at h
  rcases h with ((hupper | hlower) | hdigit) | rfl
  · exact .inr (.inr (.inl hupper))
  · exact .inr (.inr (.inr hlower))
  · exact .inr (.inl hdigit)
  · exact .inl rfl

/-- Decimal digits read from the left. -/
def digitsValue (digits : Text) : ℕ := digits.foldl (fun n c => 10 * n + (c.toNat - '0'.toNat)) 0

def hexDigit (n : ℕ) : Char := "0123456789abcdef".toList.getD n '0'

/-- One character of a JSON string literal, as `JSON.stringify` writes it. -/
def jsonEscape (c : Char) : Text :=
  if c = '"' then ['\\', '"']
  else if c = '\\' then ['\\', '\\']
  else if c.toNat = 8 then ['\\', 'b']
  else if c.toNat = 12 then ['\\', 'f']
  else if c = '\n' then ['\\', 'n']
  else if c = '\r' then ['\\', 'r']
  else if c = '\t' then ['\\', 't']
  else if c.toNat < 32 then
    ['\\', 'u', '0', '0', hexDigit (c.toNat / 16), hexDigit (c.toNat % 16)]
  else [c]

theorem isPrefixOf?_eq_some_iff {s t rest : Text} :
    s.isPrefixOf? t = some rest ↔ t = s ++ rest := by
  induction s generalizing t with
  | nil => simp [eq_comm]
  | cons c s ih => cases t with
    | nil => simp [List.isPrefixOf?]
    | cons d t =>
      simp only [List.isPrefixOf?, beq_iff_eq, List.cons_append, List.cons.injEq]
      by_cases h : c = d
      · simp [h, ih]
      · simp [h, Ne.symm h]

theorem trim_of_ends {s : Text} (hhead : ∀ c ∈ s.head?, isJsSpace c = false)
    (hlast : ∀ c ∈ s.getLast?, isJsSpace c = false) : trim s = s := by
  have hstart : trimStart s = s := by
    cases s with
    | nil => rfl
    | cons c cs => simp [trimStart, hhead c (by simp)]
  rw [trim, hstart, trimEnd]
  rcases List.eq_nil_or_concat s with rfl | ⟨cs, c, rfl⟩
  · rfl
  · rw [List.concat_eq_append] at hlast ⊢
    exact List.rdropWhile_concat_neg _ _ _ (by simp [hlast c (by simp)])

theorem trimStart_space (ws s : Text) (h : ∀ c ∈ ws, isJsSpace c = true) :
    trimStart (ws ++ s) = trimStart s := by
  rw [trimStart, List.dropWhile_append_of_pos h]
  rfl

theorem trimEnd_space (s ws : Text) (h : ∀ c ∈ ws, isJsSpace c = true) :
    trimEnd (s ++ ws) = trimEnd s := by
  induction ws using List.reverseRecOn with
  | nil => rw [List.append_nil]
  | append_singleton ws c ih =>
    rw [trimEnd, ← List.append_assoc, List.rdropWhile_concat_pos _ _ _ (h c (by simp))]
    exact ih fun d hd => h d (List.mem_append_left _ hd)

/-- Trimming takes whitespace off both ends. -/
theorem trim_split (s : Text) : ∃ v w, (∀ c ∈ v, isJsSpace c = true) ∧
    (∀ c ∈ w, isJsSpace c = true) ∧ s = v ++ trim s ++ w := by
  refine ⟨s.takeWhile isJsSpace, (trimStart s).rtakeWhile isJsSpace,
    fun c hc => List.mem_takeWhile_imp hc, fun c hc => List.mem_rtakeWhile_imp hc, ?_⟩
  rw [trim, trimEnd, List.append_assoc, List.rdropWhile_append_rtakeWhile, trimStart,
    List.takeWhile_append_dropWhile]

theorem trim_head (s : Text) : ∀ c ∈ (trim s).head?, isJsSpace c = false := by
  intro c hc
  obtain ⟨rest, hrest⟩ := List.rdropWhile_prefix isJsSpace (trimStart s)
  have hhead : (trimStart s).head? = some c := by
    rw [← hrest, List.head?_append]
    exact Option.mem_def.mp (by simpa [trim, trimEnd] using Or.inl hc)
  have hnot := List.head?_dropWhile_not isJsSpace s
  rw [show s.dropWhile isJsSpace = trimStart s from rfl, hhead] at hnot
  simpa using hnot

theorem trim_last (s : Text) : ∀ c ∈ (trim s).getLast?, isJsSpace c = false := by
  intro c hc
  have hne : (trimStart s).rdropWhile isJsSpace ≠ [] := by
    rintro hnil
    rw [trim, trimEnd, hnil] at hc
    cases hc
  have hlast := List.rdropWhile_last_not isJsSpace (trimStart s) hne
  rw [trim, trimEnd, List.getLast?_eq_some_getLast hne] at hc
  obtain rfl := Option.some.inj hc
  simpa using hlast

theorem trim_trim (s : Text) : trim (trim s) = trim s := trim_of_ends (trim_head s) (trim_last s)

/-- Whitespace around a text that has none at its ends is all that trimming takes off. -/
theorem trim_padding {v w s : Text} (hv : ∀ c ∈ v, isJsSpace c = true)
    (hw : ∀ c ∈ w, isJsSpace c = true) : trim (v ++ trim s ++ w) = trim s := by
  rw [trim, List.append_assoc, trimStart_space v _ hv]
  cases hs : trim s with
  | nil =>
    rw [List.nil_append]
    have hall : trimStart w = [] := List.dropWhile_eq_nil_iff.mpr hw
    rw [hall]
    rfl
  | cons c cs =>
    have hc : isJsSpace c = false := trim_head s c (by rw [hs]; rfl)
    have hstart : trimStart ((c :: cs) ++ w) = (c :: cs) ++ w := by simp [trimStart, hc]
    have hself : trimStart (c :: cs) = c :: cs := by simp [trimStart, hc]
    have htrim := trim_trim s
    rw [hs, trim, hself] at htrim
    rw [hstart, trimEnd_space _ _ hw, htrim]

def jsonString (s : String) : String :=
  String.ofList ('"' :: s.toList.flatMap jsonEscape ++ ['"'])

end Voleeo

/-!
## Percent encoding

The URL encoders of both languages write a character as it is or as the bytes of
its UTF-8 form. They differ in which characters they keep.
-/
namespace Voleeo

/-- RFC 3986 `unreserved`. -/
def isUnreserved (c : Char) : Bool :=
  c.isAlphanum || c == '-' || c == '_' || c == '.' || c == '~'

def upperHexDigit (n : ℕ) : Char := "0123456789ABCDEF".toList.getD n '0'

def percentByte (b : UInt8) : Text :=
  ['%', upperHexDigit (b.toNat / 16), upperHexDigit (b.toNat % 16)]

def percentEncodeChar (keep : Char → Bool) (c : Char) : Text :=
  if keep c then [c] else (String.utf8EncodeChar c).flatMap percentByte

def percentEncode (keep : Char → Bool) (s : Text) : Text := s.flatMap (percentEncodeChar keep)

/-- What `encodeURIComponent` keeps. -/
def isUriMark (c : Char) : Bool :=
  isUnreserved c || c == '!' || c == '*' || c == '\'' || c == '(' || c == ')'

def encodeURIComponent (s : Text) : Text := percentEncode isUriMark s

theorem percentEncode_of_kept {keep : Char → Bool} {s : Text} (h : ∀ c ∈ s, keep c = true) :
    percentEncode keep s = s := by
  induction s with
  | nil => rfl
  | cons c s ih =>
    have hc : percentEncodeChar keep c = [c] := by
      rw [percentEncodeChar, if_pos (h c List.mem_cons_self)]
    rw [percentEncode, List.flatMap_cons, hc]
    exact congrArg _ (ih fun d hd => h d (List.mem_cons_of_mem _ hd))

theorem encodeURIComponent_of_unreserved {s : Text} (h : ∀ c ∈ s, isUnreserved c = true) :
    encodeURIComponent s = s :=
  percentEncode_of_kept fun c hc => by simp [isUriMark, h c hc]

example : encodeURIComponent "a b/é".toList = "a%20b%2F%C3%A9".toList := by decide

end Voleeo
