import Voleeo.Commands.WorkspaceKey

/-!
# Reading a backup key

The length of a key is counted in bytes, and its digits are cut out by byte offsets: where an
offset is inside a character, Rust panics. A call that panics is `none`.
-/
namespace Voleeo.Commands.KeyDisplay
open Crypto

def byteLength (s : Text) : ℕ := (s.map Char.utf8Size).sum

/-- `&s[..n]` and `&s[n..]`, where `n` is not inside a character. -/
def splitBytes : ℕ → Text → Option (Text × Text)
  | 0, s => some ([], s)
  | _ + 1, [] => none
  | n + 1, c :: rest =>
    if c.utf8Size ≤ n + 1 then
      (splitBytes (n + 1 - c.utf8Size) rest).map fun parts => (c :: parts.1, parts.2)
    else none

/-- `u8::from_str_radix(s, 16)` on two bytes. -/
def readByte : Text → Option UInt8
  | [c, d] => hexByte c d
  | _ => none

/-- The numbers at `i`, `i + 2` and so on, up to the first that is none. -/
def hexPairs : ℕ → ℕ → Text → Option (Except VoleeoError (List UInt8))
  | 0, _, _ => some (.ok [])
  | n + 1, i, s =>
    match splitBytes 2 s with
    | none => none
    | some (pair, rest) =>
      match readByte pair with
      | none => some (.error (.crypto s!"invalid hex char at {i}"))
      | some b => (hexPairs n (i + 2) rest).map fun bytes => bytes.map (b :: ·)

def fromHex (s : Text) : Option (Except VoleeoError (List UInt8)) :=
  if byteLength s % 2 = 0 then hexPairs (byteLength s / 2) 0 s
  else some (.error (.crypto s!"invalid hex length: {byteLength s}"))

/-- The text without white space and dashes. -/
def bare (s : String) : Text :=
  s.toList.filter fun c => !Resolve.isWhitespace c && c != '-'

def normalised (s : String) : Text := (bare s).map Char.toUpper

/-- `copy_from_slice` panics unless there are 32 bytes. -/
def decodeKeyDisplay (s : String) : Option (Except VoleeoError Key) :=
  let normalised := normalised s
  if byteLength normalised ≠ 64 then
    some (.error (.crypto s!"invalid key: expected 64 hex chars, got {byteLength normalised}"))
  else
    match fromHex normalised with
    | none => none
    | some (.error e) => some (.error e)
    | some (.ok bytes) =>
      if h : bytes.toArray.size = 32 then some (.ok ⟨bytes.toArray, h⟩) else none

/-! ## Characters and bytes -/

@[simp] theorem byteLength_nil : byteLength [] = 0 := rfl

@[simp] theorem byteLength_cons (c : Char) (s : Text) :
    byteLength (c :: s) = c.utf8Size + byteLength s := by
  rw [byteLength, List.map_cons, List.sum_cons, byteLength]

theorem eq_nil_of_byteLength {s : Text} (h : byteLength s = 0) : s = [] := by
  cases s with
  | nil => rfl
  | cons c rest =>
    have hpos := c.utf8Size_pos
    rw [byteLength_cons] at h
    omega

theorem utf8Size_of_hexValue {c : Char} (h : (hexValue c).isSome) : c.utf8Size = 1 := by
  have hle : c.toNat ≤ 127 := by
    rw [hexValue] at h
    split_ifs at h with hdigit hlower hupper
    · have hnine : c.toNat ≤ 57 := (Char.isDigit_iff_toNat.mp hdigit).2
      omega
    · have hf : c.toNat ≤ 102 := UInt32.le_iff_toNat_le.mp hlower.2
      omega
    · have hf : c.toNat ≤ 70 := UInt32.le_iff_toNat_le.mp hupper.2
      omega
    · cases h
  exact Char.utf8Size_eq_one_iff.mpr (UInt32.le_iff_toNat_le.mpr hle)

theorem utf8Size_of_hexByte {c d : Char} (h : (hexByte c d).isSome) :
    c.utf8Size = 1 ∧ d.utf8Size = 1 := by
  rw [hexByte] at h
  split at h
  case h_2 => cases h
  case h_1 high low hc hd =>
    constructor
    · split_ifs at hc with hplus
      · rw [hplus]
        decide
      · exact utf8Size_of_hexValue (by rw [hc]; rfl)
    · exact utf8Size_of_hexValue (by rw [hd]; rfl)

theorem splitBytes_zero (s : Text) : splitBytes 0 s = some ([], s) := by
  cases s <;> rfl

theorem splitBytes_two_wide {c : Char} {rest : Text} (h : c.utf8Size = 2) :
    splitBytes 2 (c :: rest) = some ([c], rest) := by
  rw [splitBytes, if_pos (by omega), h, splitBytes_zero]
  rfl

theorem splitBytes_two {c d : Char} {rest : Text} (hc : c.utf8Size = 1) (hd : d.utf8Size = 1) :
    splitBytes 2 (c :: d :: rest) = some ([c, d], rest) := by
  rw [splitBytes, if_pos (by omega), hc, splitBytes, if_pos (by omega), hd, splitBytes_zero]
  rfl

/-! ## What two bytes are -/

/-- The next two bytes end inside a character. -/
def CutsCharacter : Text → Prop
  | [] => False
  | c :: rest => 2 < c.utf8Size ∨ c.utf8Size = 1 ∧ ∃ d ∈ rest.head?, 1 < d.utf8Size

theorem splitBytes_two_of_cuts {s : Text} (h : CutsCharacter s) : splitBytes 2 s = none := by
  obtain _ | ⟨c, rest⟩ := s
  · cases h
  · obtain hwide | ⟨hc, d, hd, hwide⟩ := h
    · rw [splitBytes, if_neg (by omega)]
    · obtain _ | ⟨d', rest⟩ := rest
      · cases hd
      · cases hd
        rw [splitBytes, if_pos (by omega), hc, splitBytes, if_neg (by omega)]
        rfl

/-- A slice of two bytes is one character, two characters, or a panic. -/
theorem slice_cases {s : Text} (h : 2 ≤ byteLength s) : (∃ c rest, s = c :: rest ∧ c.utf8Size = 2) ∨
    (∃ c d rest, s = c :: d :: rest ∧ c.utf8Size = 1 ∧ d.utf8Size = 1) ∨ CutsCharacter s := by
  obtain _ | ⟨c, rest⟩ := s
  · simp at h
  have hpos := c.utf8Size_pos
  rcases Nat.lt_trichotomy c.utf8Size 2 with hc | hc | hc
  · have hone : c.utf8Size = 1 := by omega
    obtain _ | ⟨d, rest⟩ := rest
    · rw [byteLength_cons, byteLength_nil] at h
      omega
    · have hdpos := d.utf8Size_pos
      by_cases hd : d.utf8Size = 1
      · exact Or.inr (Or.inl ⟨c, d, rest, rfl, hone, hd⟩)
      · exact Or.inr (Or.inr (Or.inr ⟨hone, d, rfl, by omega⟩))
  · exact Or.inl ⟨c, rest, rfl, hc⟩
  · exact Or.inr (Or.inr (Or.inl hc))

/-! ## Runs of pairs -/

def pairsText (pairs : List (Char × Char)) : Text := pairs.flatMap fun p => [p.1, p.2]

/-- What `from_str_radix` takes for a number: two digits, or a plus sign and a digit. -/
def AreNumbers (pairs : List (Char × Char)) : Prop := ∀ p ∈ pairs, (hexByte p.1 p.2).isSome

/-- Behind some numbers, the next two bytes end inside a character. -/
def HasCutCharacter (s : Text) : Prop :=
  ∃ pairs rest, s = pairsText pairs ++ rest ∧ AreNumbers pairs ∧ CutsCharacter rest

/-- Numbers all through, one of which has a plus sign. -/
def HasSign (s : Text) : Prop := ∃ pairs, s = pairsText pairs ∧ AreNumbers pairs ∧ '+' ∈ s

@[simp] theorem pairsText_nil : pairsText [] = [] := rfl

@[simp] theorem pairsText_cons (p : Char × Char) (pairs : List (Char × Char)) :
    pairsText (p :: pairs) = p.1 :: p.2 :: pairsText pairs := rfl

theorem areNumbers_cons {p : Char × Char} {pairs : List (Char × Char)} :
    AreNumbers (p :: pairs) ↔ (hexByte p.1 p.2).isSome ∧ AreNumbers pairs :=
  List.forall_mem_cons

theorem not_hasCutCharacter_wide {c : Char} {rest : Text} (hc : c.utf8Size = 2) :
    ¬ HasCutCharacter (c :: rest) := by
  rintro ⟨pairs, behind, heq, hnumbers, hcuts⟩
  cases pairs with
  | nil =>
    rw [pairsText_nil, List.nil_append] at heq
    subst heq
    obtain hwide | ⟨hone, -⟩ := hcuts <;> omega
  | cons p pairs =>
    rw [pairsText_cons, List.cons_append, List.cons.injEq] at heq
    have hsize := (utf8Size_of_hexByte (areNumbers_cons.mp hnumbers).1).1
    rw [← heq.1] at hsize
    omega

theorem hasCutCharacter_pair {c d : Char} {rest : Text} (hc : c.utf8Size = 1)
    (hd : d.utf8Size = 1) : HasCutCharacter (c :: d :: rest) ↔
      (hexByte c d).isSome ∧ HasCutCharacter rest := by
  constructor
  · rintro ⟨pairs, behind, heq, hnumbers, hcuts⟩
    cases pairs with
    | nil =>
      rw [pairsText_nil, List.nil_append] at heq
      subst heq
      obtain hwide | ⟨-, d', hd', hwide⟩ := hcuts
      · omega
      · cases hd'
        omega
    | cons p pairs =>
      rw [pairsText_cons, List.cons_append, List.cons_append, List.cons.injEq,
        List.cons.injEq] at heq
      obtain ⟨hfirst, hrest⟩ := areNumbers_cons.mp hnumbers
      rw [heq.1, heq.2.1]
      exact ⟨hfirst, pairs, behind, heq.2.2, hrest, hcuts⟩
  · rintro ⟨hfirst, pairs, behind, heq, hnumbers, hcuts⟩
    exact ⟨(c, d) :: pairs, behind, by rw [heq]; rfl, areNumbers_cons.mpr ⟨hfirst, hnumbers⟩, hcuts⟩

/-! ## The reader -/

/-- The reader panics at a character that is cut, and nowhere else. -/
theorem hexPairs_eq_none_iff {n i : ℕ} {s : Text} (h : byteLength s = 2 * n) :
    hexPairs n i s = none ↔ HasCutCharacter s := by
  induction n generalizing i s with
  | zero =>
    obtain rfl := eq_nil_of_byteLength h
    refine iff_of_false (by simp [hexPairs]) ?_
    rintro ⟨pairs, rest, heq, -, hcuts⟩
    rw [(List.append_eq_nil_iff.mp heq.symm).2] at hcuts
    exact hcuts
  | succ n ih =>
    obtain ⟨c, rest, rfl, hc⟩ | ⟨c, d, rest, rfl, hc, hd⟩ | hcuts :=
      slice_cases (s := s) (by omega)
    · rw [hexPairs, splitBytes_two_wide hc]
      exact iff_of_false (by simp [readByte]) (not_hasCutCharacter_wide hc)
    · have hrest : byteLength rest = 2 * n := by
        rw [byteLength_cons, byteLength_cons] at h
        omega
      rw [hasCutCharacter_pair hc hd, hexPairs, splitBytes_two hc hd]
      simp only [readByte]
      cases hexByte c d with
      | none => simp
      | some b => simp [ih hrest]
    · rw [hexPairs, splitBytes_two_of_cuts hcuts]
      exact iff_of_true rfl ⟨[], s, rfl, by simp [AreNumbers], hcuts⟩

def numbersOf (pairs : List (Char × Char)) : List UInt8 :=
  pairs.filterMap fun p => hexByte p.1 p.2

theorem numbersOf_cons {p : Char × Char} {pairs : List (Char × Char)} {b : UInt8}
    (h : hexByte p.1 p.2 = some b) : numbersOf (p :: pairs) = b :: numbersOf pairs :=
  List.filterMap_cons_some h

theorem hexPairs_pairsText {pairs : List (Char × Char)} (h : AreNumbers pairs) (i : ℕ) :
    hexPairs pairs.length i (pairsText pairs) = some (.ok (numbersOf pairs)) := by
  induction pairs generalizing i with
  | nil => rfl
  | cons p pairs ih =>
    obtain ⟨hp, hpairs⟩ := areNumbers_cons.mp h
    obtain ⟨hc, hd⟩ := utf8Size_of_hexByte hp
    obtain ⟨b, hb⟩ := Option.isSome_iff_exists.mp hp
    rw [List.length_cons, hexPairs, pairsText_cons, splitBytes_two hc hd, numbersOf_cons hb]
    simp only [readByte, hb, ih hpairs]
    rfl

/-- What the reader takes is made of numbers. -/
theorem pairs_of_hexPairs {n i : ℕ} {s : Text} {bytes : List UInt8} (h : byteLength s = 2 * n)
    (hread : hexPairs n i s = some (.ok bytes)) :
    ∃ pairs, s = pairsText pairs ∧ AreNumbers pairs ∧ bytes = numbersOf pairs := by
  induction n generalizing i s bytes with
  | zero =>
    cases hread
    exact ⟨[], eq_nil_of_byteLength h, by simp [AreNumbers], rfl⟩
  | succ n ih =>
    obtain ⟨c, rest, rfl, hc⟩ | ⟨c, d, rest, rfl, hc, hd⟩ | hcuts :=
      slice_cases (s := s) (by omega)
    · rw [hexPairs, splitBytes_two_wide hc] at hread
      cases hread
    · have hrest : byteLength rest = 2 * n := by
        rw [byteLength_cons, byteLength_cons] at h
        omega
      rw [hexPairs, splitBytes_two hc hd] at hread
      simp only [readByte] at hread
      split at hread
      · cases hread
      · next b hb =>
          obtain ⟨behind, hbehind, hmap⟩ := Option.map_eq_some_iff.mp hread
          obtain e | bs := behind
          · cases hmap
          · cases hmap
            obtain ⟨pairs, rfl, hpairs, rfl⟩ := ih hrest hbehind
            exact ⟨(c, d) :: pairs, rfl, areNumbers_cons.mpr ⟨by rw [hb]; rfl, hpairs⟩,
              (numbersOf_cons hb).symm⟩
    · rw [hexPairs, splitBytes_two_of_cuts hcuts] at hread
      cases hread

/-! ## Digits -/

theorem toUpper_of_large {c : Char} (h : 128 ≤ c.toNat) : c.toUpper = c := by
  rw [Char.toUpper, dif_neg]
  rintro ⟨-, hz⟩
  have hle : c.toNat ≤ 122 := UInt32.le_iff_toNat_le.mp hz
  omega

theorem ascii_digit : ∀ n < 128, hexValue (Char.ofNat n).toUpper = hexValue (Char.ofNat n) ∧
    (Char.ofNat n).toUpper.toUpper = (Char.ofNat n).toUpper ∧
    ∀ v ∈ hexValue (Char.ofNat n), v < 16 ∧ Crypto.hexDigit v = (Char.ofNat n).toUpper := by
  decide

theorem hexValue_toUpper (c : Char) : hexValue c.toUpper = hexValue c := by
  by_cases h : c.toNat < 128
  · have hascii := (ascii_digit c.toNat h).1
    rwa [Char.ofNat_toNat] at hascii
  · rw [toUpper_of_large (by omega)]

theorem toUpper_toUpper (c : Char) : c.toUpper.toUpper = c.toUpper := by
  by_cases h : c.toNat < 128
  · have hascii := (ascii_digit c.toNat h).2.1
    rwa [Char.ofNat_toNat] at hascii
  · have hlarge : c.toUpper = c := toUpper_of_large (by omega)
    rw [hlarge, hlarge]

theorem hexDigit_of_hexValue {c : Char} {v : ℕ} (h : hexValue c = some v) :
    v < 16 ∧ Crypto.hexDigit v = c.toUpper := by
  have hsize := Char.utf8Size_eq_one_iff.mp (utf8Size_of_hexValue (by rw [h]; rfl))
  have hle : c.toNat ≤ 127 := UInt32.le_iff_toNat_le.mp hsize
  have hascii := (ascii_digit c.toNat (by omega)).2.2 v (by rw [Char.ofNat_toNat, h]; rfl)
  rwa [Char.ofNat_toNat] at hascii

theorem hexValue_of_hexByte {c d : Char} (h : (hexByte c d).isSome) :
    (c = '+' ∨ (hexValue c).isSome) ∧ (hexValue d).isSome := by
  rw [hexByte] at h
  split at h
  case h_2 => cases h
  case h_1 high low hc hd =>
    refine ⟨?_, by rw [hd]; rfl⟩
    split_ifs at hc with hplus
    · exact Or.inl hplus
    · exact Or.inr (by rw [hc]; rfl)

theorem hexByte_of_digits {c d : Char} {high low : ℕ} (hc : hexValue c = some high)
    (hd : hexValue d = some low) : hexByte c d = some (UInt8.ofNat (high * 16 + low)) := by
  have hplus : c ≠ '+' := by
    rintro rfl
    cases hc
  rw [hexByte, if_neg hplus, hc, hd]

/-- The digits of a byte that was read from two digits are those digits. -/
theorem digits_of_hexByte {c d : Char} {b : UInt8} (h : hexByte c d = some b) (hplus : c ≠ '+') :
    Crypto.hexDigit (b.toNat / 16) = c.toUpper ∧ Crypto.hexDigit (b.toNat % 16) = d.toUpper := by
  have hsome : (hexByte c d).isSome := by rw [h]; rfl
  obtain ⟨hc, hd⟩ := hexValue_of_hexByte hsome
  obtain ⟨high, hhigh⟩ := Option.isSome_iff_exists.mp (hc.resolve_left hplus)
  obtain ⟨low, hlow⟩ := Option.isSome_iff_exists.mp hd
  obtain ⟨hlt, hdigit⟩ := hexDigit_of_hexValue hhigh
  obtain ⟨hlt', hdigit'⟩ := hexDigit_of_hexValue hlow
  rw [hexByte_of_digits hhigh hlow, Option.some_inj] at h
  have hb : b.toNat = high * 16 + low := by
    rw [← h, UInt8.toNat_ofNat']
    omega
  rw [← hdigit, ← hdigit', hb]
  exact ⟨congrArg Crypto.hexDigit (by omega), congrArg Crypto.hexDigit (by omega)⟩

theorem toHex_numbersOf {pairs : List (Char × Char)} (h : AreNumbers pairs)
    (hplus : '+' ∉ pairsText pairs) :
    toHex (numbersOf pairs) = (pairsText pairs).map Char.toUpper := by
  induction pairs with
  | nil => rfl
  | cons p pairs ih =>
    obtain ⟨hp, hpairs⟩ := areNumbers_cons.mp h
    obtain ⟨b, hb⟩ := Option.isSome_iff_exists.mp hp
    rw [pairsText_cons, List.mem_cons, List.mem_cons, not_or, not_or] at hplus
    obtain ⟨hhigh, hlow⟩ := digits_of_hexByte hb (Ne.symm hplus.1)
    rw [numbersOf_cons hb, pairsText_cons, List.map_cons, List.map_cons, ← ih hpairs hplus.2.2,
      ← hhigh, ← hlow]
    rfl

theorem length_numbersOf {pairs : List (Char × Char)} (h : AreNumbers pairs) :
    (numbersOf pairs).length = pairs.length := by
  induction pairs with
  | nil => rfl
  | cons p pairs ih =>
    obtain ⟨hp, hpairs⟩ := areNumbers_cons.mp h
    obtain ⟨b, hb⟩ := Option.isSome_iff_exists.mp hp
    rw [numbersOf_cons hb, List.length_cons, List.length_cons, ih hpairs]

theorem byteLength_pairsText {pairs : List (Char × Char)} (h : AreNumbers pairs) :
    byteLength (pairsText pairs) = 2 * pairs.length := by
  induction pairs with
  | nil => rfl
  | cons p pairs ih =>
    obtain ⟨hp, hpairs⟩ := areNumbers_cons.mp h
    obtain ⟨hc, hd⟩ := utf8Size_of_hexByte hp
    rw [pairsText_cons, byteLength_cons, byteLength_cons, ih hpairs, hc, hd, List.length_cons]
    omega

theorem length_pairsText (pairs : List (Char × Char)) :
    (pairsText pairs).length = 2 * pairs.length := by
  induction pairs with
  | nil => rfl
  | cons p pairs ih =>
    rw [pairsText_cons, List.length_cons, List.length_cons, ih, List.length_cons]
    omega

theorem exists_pairs {n : ℕ} {s : Text} (h : s.length = 2 * n) : ∃ pairs, s = pairsText pairs := by
  induction n generalizing s with
  | zero => exact ⟨[], List.eq_nil_of_length_eq_zero h⟩
  | succ n ih =>
    obtain _ | ⟨c, _ | ⟨d, rest⟩⟩ := s
    · simp at h
    · rw [List.length_singleton] at h
      omega
    · obtain ⟨pairs, rfl⟩ := ih (s := rest) (by
        rw [List.length_cons, List.length_cons] at h
        omega)
      exact ⟨(c, d) :: pairs, rfl⟩

theorem hexValue_plus : hexValue '+' = none := by decide

/-! ## What a key looks like -/

def withoutDashes (s : String) : Text := s.toList.filter (· != '-')

theorem flatten_chunks {s : Text} {fuel : ℕ} (h : s.length ≤ fuel) :
    (chunks s fuel).flatten = s := by
  induction fuel generalizing s with
  | zero =>
    rw [Nat.le_zero, List.length_eq_zero_iff] at h
    rw [h, chunks, List.flatten_nil]
  | succ fuel ih =>
    rw [chunks]
    split_ifs with hs
    · rw [hs, List.flatten_nil]
    · have hpos := List.length_pos_iff.mpr hs
      rw [List.flatten_cons, ih (by rw [List.length_drop]; omega), List.take_append_drop]

theorem filter_intercalate (parts : List Text) :
    (List.intercalate ['-'] parts).filter (· != '-') = parts.flatten.filter (· != '-') := by
  induction parts with
  | nil => rfl
  | cons part parts ih =>
    obtain _ | ⟨next, parts⟩ := parts
    · simp
    · rw [List.intercalate_cons_cons, List.filter_append, List.filter_append, ih,
        List.flatten_cons, List.filter_append]
      simp

theorem hexDigit_ne_dash : ∀ n < 16, (Crypto.hexDigit n != '-') = true := by decide

/-- The dashes aside, a key is shown as its digits. -/
theorem withoutDashes_encodeKeyDisplay (key : Key) :
    withoutDashes (encodeKeyDisplay key) = toHex key.toList := by
  rw [withoutDashes, encodeKeyDisplay, String.toList_ofList, filter_intercalate,
    flatten_chunks le_rfl, List.filter_eq_self]
  intro c hc
  obtain ⟨n, hn, rfl⟩ := isDigit_or_upper_of_mem_toHex hc
  exact hexDigit_ne_dash n hn

/-! ## The grammar -/

def IsKeyText (s : Text) : Prop := s.length = 64 ∧ ∀ c ∈ s, (hexValue c).isSome

/-- What the reader should do: it returns, it takes 64 digits and nothing else, and the key
shows these digits. -/
structure ReadsGrammar (s : String) : Prop where
  returns : decodeKeyDisplay s ≠ none
  accepts : (∃ key, decodeKeyDisplay s = some (.ok key)) ↔ IsKeyText (bare s)
  shows : ∀ key, decodeKeyDisplay s = some (.ok key) →
    withoutDashes (encodeKeyDisplay key) = (bare s).map Char.toUpper

/-- No offset is inside a character behind numbers, and no number has a plus sign. -/
def IsPlain (s : String) : Prop :=
  byteLength (normalised s) = 64 →
    ¬ HasCutCharacter (normalised s) ∧ ¬ HasSign (normalised s)

theorem fromHex_eq {s : Text} (h : byteLength s = 64) : fromHex s = hexPairs 32 0 s := by
  rw [fromHex, h]
  rfl

theorem key_of_numbersOf {key : Key} {pairs : List (Char × Char)}
    (hsize : (numbersOf pairs).toArray.size = 32) (h : key.toList = numbersOf pairs) :
    (⟨(numbersOf pairs).toArray, hsize⟩ : Key) = key := by
  apply Vector.toList_inj.mp
  rw [h]
  rfl

theorem decodeKeyDisplay_eq_ok_iff {s : String} {key : Key} :
    decodeKeyDisplay s = some (.ok key) ↔ ∃ pairs, pairs.length = 32 ∧
      normalised s = pairsText pairs ∧ AreNumbers pairs ∧ key.toList = numbersOf pairs := by
  constructor
  · intro h
    rw [decodeKeyDisplay] at h
    split_ifs at h with hlen
    · cases h
    · rw [not_not] at hlen
      rw [fromHex_eq hlen] at h
      split at h
      · cases h
      · cases h
      · next bytes hbytes =>
          obtain ⟨pairs, hs, hpairs, rfl⟩ := pairs_of_hexPairs hlen hbytes
          split_ifs at h
          cases h
          have hsize := byteLength_pairsText hpairs
          rw [← hs, hlen] at hsize
          exact ⟨pairs, by omega, hs, hpairs, rfl⟩
  · rintro ⟨pairs, hlength, hs, hpairs, hkey⟩
    have hlen : byteLength (normalised s) = 64 := by
      rw [hs, byteLength_pairsText hpairs, hlength]
    have hread := hexPairs_pairsText hpairs 0
    rw [hlength, ← hs, ← fromHex_eq hlen] at hread
    have hsize : (numbersOf pairs).toArray.size = 32 := by
      rw [List.size_toArray, length_numbersOf hpairs, hlength]
    rw [decodeKeyDisplay, if_neg (not_not.mpr hlen), hread]
    simp only [dif_pos hsize]
    rw [key_of_numbersOf hsize hkey]

theorem exists_key_of_pairs {s : String} {pairs : List (Char × Char)} (hlength : pairs.length = 32)
    (hs : normalised s = pairsText pairs) (hpairs : AreNumbers pairs) :
    ∃ key, decodeKeyDisplay s = some (.ok key) :=
  ⟨⟨(numbersOf pairs).toArray, by rw [List.size_toArray, length_numbersOf hpairs, hlength]⟩,
    decodeKeyDisplay_eq_ok_iff.mpr ⟨pairs, hlength, hs, hpairs, rfl⟩⟩

theorem decodeKeyDisplay_eq_none_iff {s : String} :
    decodeKeyDisplay s = none ↔
      byteLength (normalised s) = 64 ∧ HasCutCharacter (normalised s) := by
  rw [decodeKeyDisplay]
  split_ifs with hlen
  · exact iff_of_false (by simp) fun h => hlen h.1
  · rw [not_not] at hlen
    rw [← hexPairs_eq_none_iff (n := 32) (i := 0) hlen, ← fromHex_eq hlen]
    split
    · next hnone => simp [hnone, hlen]
    · next e herror => simp [herror]
    · next bytes hbytes =>
        rw [fromHex_eq hlen] at hbytes
        obtain ⟨pairs, hs, hpairs, rfl⟩ := pairs_of_hexPairs hlen hbytes
        have hsize := byteLength_pairsText hpairs
        rw [← hs, hlen] at hsize
        rw [dif_pos (by rw [List.size_toArray, length_numbersOf hpairs]; omega), fromHex_eq hlen,
          hbytes]
        simp

/-- 64 digits are 32 numbers without a plus sign. -/
theorem isKeyText_iff {s : Text} : IsKeyText s ↔ ∃ pairs, pairs.length = 32 ∧
    s = pairsText pairs ∧ AreNumbers pairs ∧ '+' ∉ s := by
  constructor
  · rintro ⟨hlen, hdigits⟩
    obtain ⟨pairs, rfl⟩ := exists_pairs (n := 32) hlen
    refine ⟨pairs, by rw [length_pairsText] at hlen; omega, rfl, ?_, ?_⟩
    · intro p hp
      have hmem : ∀ c ∈ [p.1, p.2], (hexValue c).isSome := fun c hc =>
        hdigits c (List.mem_flatMap.mpr ⟨p, hp, hc⟩)
      obtain ⟨high, hhigh⟩ := Option.isSome_iff_exists.mp (hmem p.1 (by simp))
      obtain ⟨low, hlow⟩ := Option.isSome_iff_exists.mp (hmem p.2 (by simp))
      rw [hexByte_of_digits hhigh hlow]
      rfl
    · intro hplus
      have hsome := hdigits '+' hplus
      rw [hexValue_plus] at hsome
      cases hsome
  · rintro ⟨pairs, hlen, rfl, hpairs, hplus⟩
    refine ⟨by rw [length_pairsText, hlen], ?_⟩
    intro c hc
    obtain ⟨p, hp, hmem⟩ := List.mem_flatMap.mp hc
    obtain ⟨hfirst, hsecond⟩ := hexValue_of_hexByte (hpairs p hp)
    rcases List.mem_pair.mp hmem with rfl | rfl
    · exact hfirst.resolve_left fun heq => hplus (heq ▸ hc)
    · exact hsecond

theorem isKeyText_map_toUpper {s : Text} : IsKeyText (s.map Char.toUpper) ↔ IsKeyText s := by
  simp [IsKeyText, hexValue_toUpper]

theorem readsGrammar_iff {s : String} : ReadsGrammar s ↔ IsPlain s := by
  constructor
  · intro h hlen
    refine ⟨fun hcut => h.returns (decodeKeyDisplay_eq_none_iff.mpr ⟨hlen, hcut⟩), ?_⟩
    rintro ⟨pairs, hs, hpairs, hplus⟩
    have hsize := byteLength_pairsText hpairs
    rw [← hs, hlen] at hsize
    have hlength : pairs.length = 32 := by omega
    have hkey := exists_key_of_pairs hlength hs hpairs
    obtain ⟨-, -, -, -, hno⟩ :=
      isKeyText_iff.mp (isKeyText_map_toUpper.mpr (h.accepts.mp hkey))
    exact hno hplus
  · intro h
    have hplain : ∀ key, decodeKeyDisplay s = some (.ok key) → ∃ pairs, pairs.length = 32 ∧
        normalised s = pairsText pairs ∧ AreNumbers pairs ∧ key.toList = numbersOf pairs ∧
        '+' ∉ normalised s := by
      intro key hkey
      obtain ⟨pairs, hlength, hs, hpairs, hvalue⟩ := decodeKeyDisplay_eq_ok_iff.mp hkey
      have hlen : byteLength (normalised s) = 64 := by
        rw [hs, byteLength_pairsText hpairs, hlength]
      exact ⟨pairs, hlength, hs, hpairs, hvalue, fun hplus => (h hlen).2 ⟨pairs, hs, hpairs, hplus⟩⟩
    refine ⟨fun hnone => ?_, ⟨?_, ?_⟩, ?_⟩
    · obtain ⟨hlen, hcut⟩ := decodeKeyDisplay_eq_none_iff.mp hnone
      exact (h hlen).1 hcut
    · rintro ⟨key, hkey⟩
      obtain ⟨pairs, hlength, hs, hpairs, -, hplus⟩ := hplain key hkey
      exact isKeyText_map_toUpper.mp (isKeyText_iff.mpr ⟨pairs, hlength, hs, hpairs, hplus⟩)
    · intro hdigits
      obtain ⟨pairs, hlength, hs, hpairs, -⟩ :=
        isKeyText_iff.mp (isKeyText_map_toUpper.mpr hdigits)
      exact exists_key_of_pairs hlength hs hpairs
    · intro key hkey
      obtain ⟨pairs, -, hs, hpairs, hvalue, hplus⟩ := hplain key hkey
      have hupper : (normalised s).map Char.toUpper = normalised s := by
        rw [normalised, List.map_map]
        exact List.map_congr_left fun c _ => toUpper_toUpper c
      rw [hs] at hplus
      rw [withoutDashes_encodeKeyDisplay, hvalue, toHex_numbersOf hpairs hplus, ← hs, hupper]
      rfl

/-- Two texts are read as they should be, and give the same key only when their digits agree,
exactly when both are plain. -/
theorem reads_grammar_iff_plain (s t : String) :
    (ReadsGrammar s ∧ ReadsGrammar t ∧ ∀ key, decodeKeyDisplay s = some (.ok key) →
      decodeKeyDisplay t = some (.ok key) → normalised s = normalised t) ↔
      IsPlain s ∧ IsPlain t := by
  rw [← readsGrammar_iff, ← readsGrammar_iff]
  constructor
  · rintro ⟨hs, ht, -⟩
    exact ⟨hs, ht⟩
  · rintro ⟨hs, ht⟩
    refine ⟨hs, ht, ?_⟩
    intro key hskey htkey
    calc normalised s = withoutDashes (encodeKeyDisplay key) := (hs.shows key hskey).symm
      _ = normalised t := ht.shows key htkey

/-- A plus sign and a digit, 32 times. -/
def signedKey : String := String.ofList (pairsText (List.replicate 32 ('+', 'A')))

/-- A digit, a character of two bytes, and 61 digits. -/
def cutDigits : Text := 'A' :: 'é' :: List.replicate 61 'A'

def cutKey : String := String.ofList cutDigits

theorem signed_key_is_read : (∃ key, decodeKeyDisplay signedKey = some (.ok key)) ∧
    ¬ IsKeyText (bare signedKey) ∧ decodeKeyDisplay cutKey = none ∧
    ¬ ∀ s, ReadsGrammar s := by
  have hread : ∃ key, decodeKeyDisplay signedKey = some (.ok key) := by
    apply exists_key_of_pairs (List.length_replicate (a := ('+', 'A')))
    · rw [normalised, bare, signedKey, String.toList_ofList]
      decide
    · exact List.forall_mem_replicate.mpr (Or.inr (by decide))
  have hsign : ¬ IsKeyText (bare signedKey) := by
    rw [bare, signedKey, String.toList_ofList]
    rintro ⟨-, hdigits⟩
    exact absurd (hdigits '+' (by decide)) (by decide)
  refine ⟨hread, hsign, ?_, fun h => hsign ((h signedKey).accepts.mp hread)⟩
  have hcut : normalised cutKey = cutDigits := by
    rw [normalised, bare, cutKey, String.toList_ofList]
    decide
  rw [decodeKeyDisplay_eq_none_iff, hcut]
  exact ⟨by decide, [], _, rfl, by simp [AreNumbers], Or.inr ⟨by decide, 'é', rfl, by decide⟩⟩

/-! ## The reading of the commands -/

theorem fromHexPairs_pairsText {pairs : List (Char × Char)} (h : AreNumbers pairs) (i : ℕ) :
    fromHexPairs i (pairsText pairs) = .ok (numbersOf pairs) := by
  induction pairs generalizing i with
  | nil => rfl
  | cons p pairs ih =>
    obtain ⟨hp, hpairs⟩ := areNumbers_cons.mp h
    obtain ⟨b, hb⟩ := Option.isSome_iff_exists.mp hp
    rw [pairsText_cons, fromHexPairs, hb, numbersOf_cons hb]
    simp only [ih hpairs]
    rfl

theorem pairs_of_fromHexPairs {n i : ℕ} {s : Text} {bytes : List UInt8} (h : s.length = 2 * n)
    (hread : fromHexPairs i s = .ok bytes) :
    ∃ pairs, s = pairsText pairs ∧ AreNumbers pairs ∧ bytes = numbersOf pairs := by
  obtain ⟨pairs, rfl⟩ := exists_pairs h
  clear h
  refine ⟨pairs, rfl, ?_⟩
  induction pairs generalizing i bytes with
  | nil =>
    cases hread
    exact ⟨by simp [AreNumbers], rfl⟩
  | cons p pairs ih =>
    rw [pairsText_cons, fromHexPairs] at hread
    split at hread
    case h_2 => cases hread
    case h_1 b hb =>
      cases hrest : fromHexPairs (i + 2) (pairsText pairs) with
      | error e =>
        rw [hrest] at hread
        cases hread
      | ok bs =>
        rw [hrest] at hread
        cases hread
        obtain ⟨hpairs, rfl⟩ := ih hrest
        exact ⟨areNumbers_cons.mpr ⟨by rw [hb]; rfl, hpairs⟩, (numbersOf_cons hb).symm⟩

theorem utf8ByteSize_ofList (s : Text) : (String.ofList s).utf8ByteSize = byteLength s := by
  induction s with
  | nil => rfl
  | cons c s ih =>
    rw [← List.singleton_append, String.ofList_append, String.utf8ByteSize_append, ih,
      List.singleton_append, byteLength_cons]
    congr 1
    rw [← String.size_toByteArray, String.toByteArray_ofList, List.utf8Encode_singleton,
      List.size_toByteArray, String.length_utf8EncodeChar]

/-- The commands, which read by characters, take the same keys. -/
theorem decodeKeyDisplay_ok_iff_commands {s : String} {key : Key} :
    Commands.decodeKeyDisplay s = .ok key ↔ decodeKeyDisplay s = some (.ok key) := by
  rw [decodeKeyDisplay_eq_ok_iff, Commands.decodeKeyDisplay]
  simp only [utf8ByteSize_ofList, String.toList_ofList]
  change (if byteLength (normalised s) ≠ 64 then _ else
    Except.bind (Crypto.fromHex (normalised s)) _) = _ ↔ _
  constructor
  · intro h
    split_ifs at h with hlen
    rw [not_not] at hlen
    cases hread : Crypto.fromHex (normalised s) with
    | error e =>
      rw [hread] at h
      cases h
    | ok bytes =>
      rw [hread, Except.bind] at h
      split_ifs at h
      cases h
      rw [Crypto.fromHex] at hread
      split_ifs at hread with heven
      have hhalf : (normalised s).length = 2 * ((normalised s).length / 2) := by omega
      obtain ⟨pairs, hs, hpairs, rfl⟩ := pairs_of_fromHexPairs hhalf hread
      have hsize := byteLength_pairsText hpairs
      rw [← hs, hlen] at hsize
      exact ⟨pairs, by omega, hs, hpairs, rfl⟩
  · rintro ⟨pairs, hlength, hs, hpairs, hkey⟩
    have hlen : byteLength (normalised s) = 64 := by
      rw [hs, byteLength_pairsText hpairs, hlength]
    have hsize : (numbersOf pairs).toArray.size = 32 := by
      rw [List.size_toArray, length_numbersOf hpairs, hlength]
    rw [if_neg (not_not.mpr hlen), hs, Crypto.fromHex, length_pairsText, if_pos (by omega),
      fromHexPairs_pairsText hpairs, Except.bind, dif_pos hsize,
      key_of_numbersOf hsize hkey]
    rfl

end Voleeo.Commands.KeyDisplay
