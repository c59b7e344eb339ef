import Voleeo.JsRecord
import Voleeo.Json

/-!
# JSON texts

`JSON.parse` and `JSON.stringify`. A number keeps the text that it is written
with, and half of a surrogate pair is read as the replacement character. The
object that is read lists its array-index keys first, in numeric order, and the
other keys in the order of their first appearance.
-/
namespace Voleeo.Json

/-! ## Members in the order of the language -/

/-- A key that is listed before another, whichever was written first. -/
def comesBefore (a b : String) : Bool :=
  isArrayIndex a.toList &&
    (!isArrayIndex b.toList || digitsValue a.toList < digitsValue b.toList)

/-- Define an own property. -/
def putMember (key : String) (value : Json) : List (String × Json) → List (String × Json)
  | [] => [(key, value)]
  | e :: rest =>
    if e.1 = key then (key, value) :: rest
    else if comesBefore key e.1 then (key, value) :: e :: rest
    else e :: putMember key value rest

attribute [local simp] putMember

/-- Distinct keys in the order of the language. -/
def Ordered (members : List (String × Json)) : Prop :=
  members.Pairwise fun a b => a.1 ≠ b.1 ∧ comesBefore b.1 a.1 = false

/-! ## Writing -/

def quote (s : String) : Text := '"' :: s.toList.flatMap jsonEscape ++ ['"']

mutual

def stringify : Json → Text
  | .null => ['n', 'u', 'l', 'l']
  | .bool true => ['t', 'r', 'u', 'e']
  | .bool false => ['f', 'a', 'l', 's', 'e']
  | .number text => text.toList
  | .string s => quote s
  | .array values => '[' :: List.intercalate [','] (elementTexts values) ++ [']']
  | .object members => '\x7b' :: List.intercalate [','] (memberTexts members) ++ ['\x7d']

def elementTexts : List Json → List Text
  | [] => []
  | v :: vs => stringify v :: elementTexts vs

def memberTexts : List (String × Json) → List Text
  | [] => []
  | e :: es => memberText e :: memberTexts es

def memberText : String × Json → Text
  | (key, value) => quote key ++ ':' :: stringify value

end

/-! ## Reading -/

def isBlank (c : Char) : Bool := c == ' ' || c == '\t' || c == '\n' || c == '\r'

def skipBlanks (s : Text) : Text := s.dropWhile isBlank

def hexValue (c : Char) : Option ℕ :=
  if '0' ≤ c ∧ c ≤ '9' then some (c.toNat - '0'.toNat)
  else if 'a' ≤ c ∧ c ≤ 'f' then some (c.toNat - 'a'.toNat + 10)
  else if 'A' ≤ c ∧ c ≤ 'F' then some (c.toNat - 'A'.toNat + 10)
  else none

def codeUnit (a b c d : Char) : Option ℕ := do
  let a ← hexValue a
  let b ← hexValue b
  let c ← hexValue c
  let d ← hexValue d
  return 16 * (16 * (16 * a + b) + c) + d

/-- What a backslash makes of its successor. -/
def escaped : Char → Option Char
  | '"' => some '"'
  | '\\' => some '\\'
  | '/' => some '/'
  | 'b' => some (Char.ofNat 8)
  | 'f' => some (Char.ofNat 12)
  | 'n' => some '\n'
  | 'r' => some '\r'
  | 't' => some '\t'
  | _ => none

/-- The code units of a literal behind its opening quote, and what follows the closing one. -/
def readUnits : Text → Option (List ℕ × Text)
  | [] => none
  | '"' :: rest => some ([], rest)
  | '\\' :: 'u' :: a :: b :: c :: d :: rest => do
      let unit ← codeUnit a b c d
      let (units, rest) ← readUnits rest
      return (unit :: units, rest)
  | '\\' :: c :: rest => do
      let meant ← escaped c
      let (units, rest) ← readUnits rest
      return (meant.toNat :: units, rest)
  | c :: rest =>
    if c = '\\' ∨ c.toNat < 32 then none
    else do
      let (units, rest) ← readUnits rest
      return (c.toNat :: units, rest)

attribute [local simp] readUnits

def isHigh (n : ℕ) : Bool := 0xD800 ≤ n && n ≤ 0xDBFF

def isLow (n : ℕ) : Bool := 0xDC00 ≤ n && n ≤ 0xDFFF

def charOfUnit (n : ℕ) : Char := if isHigh n || isLow n then Char.ofNat 0xFFFD else Char.ofNat n

/-- Two halves of a surrogate pair are one character. -/
def joinPairs : List ℕ → Text
  | [] => []
  | [n] => [charOfUnit n]
  | n :: m :: rest =>
    if isHigh n && isLow m then
      Char.ofNat (0x10000 + 0x400 * (n - 0xD800) + (m - 0xDC00)) :: joinPairs rest
    else charOfUnit n :: joinPairs (m :: rest)

attribute [local simp] joinPairs

def readString (s : Text) : Option (String × Text) := do
  let (units, rest) ← readUnits s
  return (String.ofList (joinPairs units), rest)

def isNumberChar (c : Char) : Bool := c.isDigit || ['+', '-', '.', 'e', 'E'].contains c

def isExponent : Text → Bool
  | [] => true
  | c :: rest =>
    let digits := match rest with
      | '+' :: digits => digits
      | '-' :: digits => digits
      | digits => digits
    (c == 'e' || c == 'E') && digits ≠ [] && digits.all Char.isDigit

def isFraction : Text → Bool
  | '.' :: rest => rest.takeWhile Char.isDigit ≠ [] && isExponent (rest.dropWhile Char.isDigit)
  | rest => isExponent rest

def isUnsigned (s : Text) : Bool :=
  let int := s.takeWhile Char.isDigit
  int ≠ [] && (int == ['0'] || int.head? ≠ some '0') && isFraction (s.dropWhile Char.isDigit)

def isNumeral : Text → Bool
  | '-' :: rest => isUnsigned rest
  | s => isUnsigned s

/-- No other character may follow a number without a separator. -/
def readNumber (s : Text) : Option (Json × Text) :=
  let text := s.takeWhile isNumberChar
  if isNumeral text then some (.number (String.ofList text), s.dropWhile isNumberChar) else none

mutual

/-- The value at the head of a text, and what follows it. -/
def readValue : ℕ → Text → Option (Json × Text)
  | 0, _ => none
  | fuel + 1, s =>
    match s with
    | '"' :: rest => do
        let (text, rest) ← readString rest
        return (.string text, rest)
    | '[' :: rest =>
      match skipBlanks rest with
      | ']' :: rest => some (.array [], rest)
      | rest => do
          let (values, rest) ← readElements fuel rest
          return (.array values, rest)
    | '\x7b' :: rest =>
      match skipBlanks rest with
      | '\x7d' :: rest => some (.object [], rest)
      | rest => do
          let (members, rest) ← readMembers fuel [] rest
          return (.object members, rest)
    | 'n' :: 'u' :: 'l' :: 'l' :: rest => some (.null, rest)
    | 't' :: 'r' :: 'u' :: 'e' :: rest => some (.bool true, rest)
    | 'f' :: 'a' :: 'l' :: 's' :: 'e' :: rest => some (.bool false, rest)
    | s => readNumber s

def readElements : ℕ → Text → Option (List Json × Text)
  | 0, _ => none
  | fuel + 1, s => do
      let (value, rest) ← readValue fuel s
      match skipBlanks rest with
      | ',' :: rest => do
          let (values, rest) ← readElements fuel (skipBlanks rest)
          return (value :: values, rest)
      | ']' :: rest => return ([value], rest)
      | _ => none

/-- A key that appears again overwrites its value. -/
def readMembers : ℕ → List (String × Json) → Text → Option (List (String × Json) × Text)
  | fuel + 1, members, '"' :: rest => do
      let (key, rest) ← readString rest
      match skipBlanks rest with
      | ':' :: rest => do
          let (value, rest) ← readValue fuel (skipBlanks rest)
          let members := putMember key value members
          match skipBlanks rest with
          | ',' :: rest => readMembers fuel members (skipBlanks rest)
          | '\x7d' :: rest => return (members, rest)
          | _ => none
      | _ => none
  | _, _, _ => none

end

/-- Each character is charged twice: for the value that it opens and for the element that this
value is. -/
def parse (text : Text) : Option Json := do
  let (value, rest) ← readValue (2 * text.length + 2) (skipBlanks text)
  if skipBlanks rest = [] then return value else none

/-! ## Strings -/

theorem hexValue_hexDigit : ∀ n < 16, hexValue (hexDigit n) = some n := by decide

theorem readUnits_cons {c : Char} {rest : Text} (hquote : c ≠ '"') (hback : c ≠ '\\')
    (hlow : ¬ c.toNat < 32) :
    readUnits (c :: rest) = (readUnits rest).map fun r => (c.toNat :: r.1, r.2) := by
  rw [readUnits.eq_5]
  · rw [if_neg (not_or.mpr ⟨hback, hlow⟩)]
    cases readUnits rest <;> rfl
  all_goals grind

theorem readUnits_escaped {c meant : Char} {rest : Text} (h : escaped c = some meant) :
    readUnits ('\\' :: c :: rest) = (readUnits rest).map fun r => (meant.toNat :: r.1, r.2) := by
  rw [readUnits.eq_4]
  · rw [h]
    cases readUnits rest <;> rfl
  · rintro a b d e tail rfl
    cases h

theorem readUnits_unit {a b c d : Char} {unit : ℕ} {rest : Text}
    (h : codeUnit a b c d = some unit) :
    readUnits ('\\' :: 'u' :: a :: b :: c :: d :: rest) =
      (readUnits rest).map fun r => (unit :: r.1, r.2) := by
  rw [readUnits, h]
  cases readUnits rest <;> rfl

/-- One character of a literal. -/
theorem readUnits_jsonEscape (c : Char) (rest : Text) :
    readUnits (jsonEscape c ++ rest) = (readUnits rest).map fun r => (c.toNat :: r.1, r.2) := by
  unfold jsonEscape
  split_ifs with hquote hback hbs hff hlf hcr htab hlow
  · subst hquote
    exact readUnits_escaped rfl
  · subst hback
    exact readUnits_escaped rfl
  · rw [hbs]
    exact readUnits_escaped (show escaped 'b' = some (Char.ofNat 8) from rfl)
  · rw [hff]
    exact readUnits_escaped (show escaped 'f' = some (Char.ofNat 12) from rfl)
  · subst hlf
    exact readUnits_escaped rfl
  · subst hcr
    exact readUnits_escaped rfl
  · subst htab
    exact readUnits_escaped rfl
  · refine readUnits_unit ?_
    rw [codeUnit, hexValue_hexDigit _ (by omega), hexValue_hexDigit _ (by omega)]
    have hsum : 16 * (c.toNat / 16) + c.toNat % 16 = c.toNat := Nat.div_add_mod _ _
    simpa [show hexValue '0' = some 0 from rfl] using hsum
  · exact readUnits_cons hquote hback hlow

theorem charOfUnit_toNat (c : Char) :
    (isHigh c.toNat || isLow c.toNat) = false ∧ charOfUnit c.toNat = c := by
  have hvalid : c.toNat < 0xD800 ∨ 0xDFFF < c.toNat ∧ c.toNat < 0x110000 := c.valid
  have hno : (isHigh c.toNat || isLow c.toNat) = false := by
    simp only [isHigh, isLow, Bool.or_eq_false_iff, Bool.and_eq_false_iff, decide_eq_false_iff_not]
    omega
  exact ⟨hno, by rw [charOfUnit, hno]; exact Char.ofNat_toNat c⟩

/-- No character is half of a pair. -/
theorem joinPairs_toNat (s : Text) : joinPairs (s.map Char.toNat) = s := by
  induction s with
  | nil => rfl
  | cons c s ih =>
    obtain ⟨hno, hc⟩ := charOfUnit_toNat c
    cases s with
    | nil => exact congrArg (· :: []) hc
    | cons d s =>
      have hhigh : isHigh c.toNat = false := (Bool.or_eq_false_iff.mp hno).1
      rw [List.map_cons, List.map_cons, joinPairs, hhigh, Bool.false_and, hc]
      exact congrArg (c :: ·) ih

theorem readUnits_flatMap (s rest : Text) :
    readUnits (s.flatMap jsonEscape ++ '"' :: rest) = some (s.map Char.toNat, rest) := by
  induction s with
  | nil => rfl
  | cons c s ih =>
    rw [List.flatMap_cons, List.append_assoc, readUnits_jsonEscape, ih]
    rfl

/-- A literal behind its opening quote. -/
theorem readString_literal (s : String) (rest : Text) :
    readString (s.toList.flatMap jsonEscape ++ '"' :: rest) = some (s, rest) := by
  rw [readString, readUnits_flatMap]
  show some (String.ofList (joinPairs (s.toList.map Char.toNat)), rest) = some (s, rest)
  rw [joinPairs_toNat, String.ofList_toList]

/-! ## Members -/

theorem mem_of_putMember {key : String} {value : Json} {ms : List (String × Json)}
    {e : String × Json} (h : e ∈ putMember key value ms) : e = (key, value) ∨ e ∈ ms := by
  induction ms with
  | nil => exact Or.inl (List.mem_singleton.mp h)
  | cons a ms ih =>
    rw [putMember] at h
    split_ifs at h
    · exact (List.mem_cons.mp h).imp_right (List.mem_cons_of_mem a)
    · exact List.mem_cons.mp h
    · rcases List.mem_cons.mp h with rfl | h
      · exact Or.inr List.mem_cons_self
      · exact (ih h).imp_right (List.mem_cons_of_mem a)

/-- A member that comes last is added at the end. -/
theorem putMember_of_last {key : String} {value : Json} {ms : List (String × Json)}
    (h : ∀ e ∈ ms, e.1 ≠ key ∧ comesBefore key e.1 = false) :
    putMember key value ms = ms ++ [(key, value)] := by
  induction ms with
  | nil => rfl
  | cons a ms ih =>
    obtain ⟨hne, hno⟩ := h a List.mem_cons_self
    rw [putMember, if_neg hne, hno, if_neg Bool.false_ne_true,
      ih fun e he => h e (List.mem_cons_of_mem a he)]
    rfl

theorem comesBefore_trans {a b c : String} (hab : comesBefore a b = true)
    (hbc : comesBefore b c = true) : comesBefore a c = true := by
  simp only [comesBefore, Bool.and_eq_true, Bool.or_eq_true, Bool.not_eq_true',
    decide_eq_true_eq] at hab hbc ⊢
  refine ⟨hab.1, hbc.2.imp_right fun h => ?_⟩
  rcases hab.2 with hb | hlt
  · rw [hbc.1] at hb
    cases hb
  · exact hlt.trans h

theorem comesBefore_self (a : String) : comesBefore a a = false := by
  simp only [comesBefore, lt_irrefl, decide_false, Bool.or_false, Bool.and_not_self]

/-- Defining a member keeps the order. -/
theorem Ordered.putMember {ms : List (String × Json)} (h : Ordered ms) (key : String)
    (value : Json) : Ordered (putMember key value ms) := by
  induction ms with
  | nil => exact List.pairwise_singleton _ _
  | cons a ms ih =>
    obtain ⟨ha, hms⟩ := List.pairwise_cons.mp h
    rw [Json.putMember]
    split_ifs with heq hbefore
    · subst heq
      exact List.pairwise_cons.mpr ⟨ha, hms⟩
    · refine List.pairwise_cons.mpr ⟨fun e he => ?_, h⟩
      have hno : comesBefore e.1 a.1 = false := by
        rcases List.mem_cons.mp he with rfl | he
        · exact comesBefore_self _
        · exact (ha e he).2
      constructor
      · rintro rfl
        rw [hbefore] at hno
        cases hno
      · refine Bool.eq_false_iff.mpr fun hkey => ?_
        rw [comesBefore_trans hkey hbefore] at hno
        cases hno
    · refine List.pairwise_cons.mpr ⟨fun e he => ?_, ih hms⟩
      rcases mem_of_putMember he with rfl | he
      · exact ⟨heq, Bool.eq_false_iff.mpr hbefore⟩
      · exact ha e he

/-- Ordered members are listed as they were defined. -/
theorem foldl_putMember {pre post : List (String × Json)} (h : Ordered (pre ++ post)) :
    post.foldl (fun ms e => putMember e.1 e.2 ms) pre = pre ++ post := by
  induction post generalizing pre with
  | nil => simp
  | cons e post ih =>
    have hlast : ∀ a ∈ pre, a.1 ≠ e.1 ∧ comesBefore e.1 a.1 = false := fun a ha =>
      (List.pairwise_append.mp h).2.2 a ha e List.mem_cons_self
    rw [List.foldl_cons, putMember_of_last hlast]
    refine (ih (by rwa [List.append_assoc])).trans ?_
    rw [List.append_assoc]
    rfl

end Voleeo.Json
