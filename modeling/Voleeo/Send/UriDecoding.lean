import Voleeo.Send.QueryPieces
import Voleeo.Sse.Decoder

/-!
# Decoding a component of a URI

`decodeURIComponent` reads each percent sign as the first of the octets of a character, and throws
on one that begins no such octets. All other characters stand for themselves.
-/
namespace Voleeo.Send

/-- An octet is a percent sign with two hexadecimal digits. -/
def readOctet : Text → Option (UInt8 × Text)
  | '%' :: d :: e :: rest => (hexPair d e).map fun b => (b, rest)
  | _ => none

def readOctets : ℕ → Text → Option (List UInt8 × Text)
  | 0, s => some ([], s)
  | n + 1, s =>
    match readOctet s with
    | some (b, rest) => (readOctets n rest).map fun r => (b :: r.1, r.2)
    | none => none

/-- The number of octets of a character whose first one this is; none for a continuation. -/
def octetCount (b : UInt8) : ℕ :=
  let v := b.toNat
  if v < 0x80 then 1 else if v < 0xC0 then 0 else if v < 0xE0 then 2 else if v < 0xF0 then 3
  else if v < 0xF8 then 4 else 0

/-- The character with this UTF-8 encoding. -/
def charOfBytes (bytes : List UInt8) : Option Char :=
  match Sse.fromUtf8Lossy bytes with
  | [c] => if String.utf8EncodeChar c = bytes then some c else none
  | _ => none

/-- The character at the beginning, and the number of its octets. -/
def percentChar (s : Text) : Option (Char × ℕ) := do
  let first ← readOctet s
  let read ← readOctets (octetCount first.1) s
  let c ← charOfBytes read.1
  return (c, octetCount first.1)

/-- `skip` counts the characters that the last octets still cover. -/
def decodeUriFrom : ℕ → Text → Option Text
  | _, [] => some []
  | skip + 1, _ :: rest => decodeUriFrom skip rest
  | 0, c :: rest =>
    if c = '%' then
      match percentChar (c :: rest) with
      | some (d, n) => (decodeUriFrom (3 * n - 1) rest).map (d :: ·)
      | none => none -- URIError
    else (decodeUriFrom 0 rest).map (c :: ·)

def decodeURIComponent (s : Text) : Option Text := decodeUriFrom 0 s

attribute [local simp] decodeUriFrom readOctets

example : decodeURIComponent "a%20%C3%A9%e2%82%ac+".toList = some "a é€+".toList := by decide

example : decodeURIComponent "100%".toList = none ∧ decodeURIComponent "%E2%82".toList = none := by
  decide

/-! ## Octets -/

variable {s rest : Text} {n : ℕ} {c : Char}

theorem charOfBytes_eq_some {bytes : List UInt8} :
    charOfBytes bytes = some c ↔ String.utf8EncodeChar c = bytes := by
  constructor
  · intro h
    unfold charOfBytes at h
    split at h
    · split_ifs at h with heq
      rwa [← Option.some.inj h]
    · cases h
  · rintro rfl
    have hone := Sse.fromUtf8Lossy_utf8 [c]
    rw [List.flatMap_singleton] at hone
    rw [charOfBytes, hone]
    exact if_pos rfl

theorem readOctet_eq_some {b : UInt8} (h : readOctet s = some (b, rest)) :
    ∃ d e, hexPair d e = some b ∧ s = '%' :: d :: e :: rest := by
  unfold readOctet at h
  split at h
  · rename_i d e tail
    obtain ⟨b', hb, heq⟩ := Option.map_eq_some_iff.mp h
    obtain ⟨rfl, rfl⟩ := Prod.mk.inj heq
    exact ⟨d, e, hb, rfl⟩
  · cases h

theorem readOctets_eq_some {bytes : List UInt8} (h : readOctets n s = some (bytes, rest)) :
    bytes.length = n ∧ ∃ front, s = front ++ rest ∧ front.length = 3 * n := by
  induction n generalizing s bytes with
  | zero =>
    obtain ⟨rfl, rfl⟩ := Prod.mk.inj (Option.some.inj h)
    exact ⟨rfl, [], rfl, rfl⟩
  | succ n ih =>
    rw [readOctets] at h
    split at h
    · rename_i b tail hoctet
      obtain ⟨⟨bs, r⟩, hread, heq⟩ := Option.map_eq_some_iff.mp h
      obtain ⟨rfl, rfl⟩ := Prod.mk.inj heq
      obtain ⟨d, e, -, rfl⟩ := readOctet_eq_some hoctet
      obtain ⟨hlen, front, rfl, hfront⟩ := ih hread
      exact ⟨by simp [hlen], '%' :: d :: e :: front, rfl, by simp [hfront]; omega⟩
    · cases h

/-- The first octet of a character says how many there are. -/
theorem octetCount_utf8EncodeChar {b : UInt8} {bs : List UInt8}
    (h : String.utf8EncodeChar c = b :: bs) :
    octetCount b = (String.utf8EncodeChar c).length := by
  have hvalid : c.val.toNat < 0x110000 := by
    have := c.valid
    rcases this with h | h
    · exact h.trans (by decide)
    · exact h.2
  have hcount : octetCount ((String.utf8EncodeChar c).headD 0) =
      (String.utf8EncodeChar c).length := by
    rw [String.utf8EncodeChar]
    split_ifs <;>
      · simp only [List.headD_cons, List.length_cons, List.length_nil, octetCount, UInt8.toNat_ofNat']
        split_ifs <;> omega
  rwa [h] at hcount ⊢

theorem percentChar_eq_some : percentChar s = some (c, n) ↔
    ∃ rest, readOctets n s = some (String.utf8EncodeChar c, rest) := by
  constructor
  · intro h
    obtain ⟨first, -, h⟩ := Option.bind_eq_some_iff.mp h
    obtain ⟨⟨bytes, rest⟩, hread, h⟩ := Option.bind_eq_some_iff.mp h
    obtain ⟨d, hchar, h⟩ := Option.bind_eq_some_iff.mp h
    obtain ⟨rfl, rfl⟩ := Prod.mk.inj (Option.some.inj h)
    exact ⟨rest, by rw [hread, charOfBytes_eq_some.mp hchar]⟩
  · rintro ⟨rest, hread⟩
    have hlen := (readOctets_eq_some hread).1
    obtain ⟨b, tail, hoctet⟩ : ∃ b tail, readOctet s = some (b, tail) := by
      obtain ⟨k, rfl⟩ : ∃ k, n = k + 1 :=
        Nat.exists_eq_succ_of_ne_zero (hlen ▸ (length_utf8EncodeChar_pos c).ne')
      rw [readOctets] at hread
      split at hread
      · rename_i b tail hoctet
        exact ⟨b, tail, hoctet⟩
      · cases hread
    have hcount : octetCount b = n := by
      obtain ⟨k, rfl⟩ : ∃ k, n = k + 1 :=
        Nat.exists_eq_succ_of_ne_zero (hlen ▸ (length_utf8EncodeChar_pos c).ne')
      rw [readOctets, hoctet] at hread
      obtain ⟨r, -, heq⟩ := Option.map_eq_some_iff.mp hread
      rw [octetCount_utf8EncodeChar (Prod.mk.inj heq).1.symm, hlen]
    refine Option.bind_eq_some_iff.mpr ⟨(b, tail), hoctet, ?_⟩
    dsimp only
    rw [hcount, hread]
    refine Option.bind_eq_some_iff.mpr ⟨_, rfl, ?_⟩
    exact Option.bind_eq_some_iff.mpr ⟨c, charOfBytes_eq_some.mpr rfl, rfl⟩

/-! ## Decoding step by step -/

theorem decodeUriFrom_skip (skip : ℕ) (s : Text) :
    decodeUriFrom skip s = decodeURIComponent (s.drop skip) := by
  induction s generalizing skip with
  | nil => cases skip <;> rfl
  | cons c s ih =>
    cases skip with
    | zero => rfl
    | succ skip => exact ih skip

theorem decode_plain (hc : c ≠ '%') (rest : Text) :
    decodeURIComponent (c :: rest) = (decodeURIComponent rest).map (c :: ·) := by
  rw [decodeURIComponent, decodeUriFrom, if_neg hc]
  rfl

theorem decode_char (h : readOctets n s = some (String.utf8EncodeChar c, rest)) :
    decodeURIComponent s = (decodeURIComponent rest).map (c :: ·) := by
  obtain ⟨hlen, front, rfl, hfront⟩ := readOctets_eq_some h
  have hpos := length_utf8EncodeChar_pos c
  obtain ⟨d, tail, rfl⟩ := List.exists_cons_of_length_pos (l := front) (by omega)
  have hchar := percentChar_eq_some.mpr ⟨rest, h⟩
  obtain rfl : d = '%' := by
    obtain ⟨first, hoctet, -⟩ := Option.bind_eq_some_iff.mp hchar
    obtain ⟨_, _, -, heq⟩ := readOctet_eq_some hoctet
    exact (List.cons.inj heq).1
  rw [List.cons_append] at hchar ⊢
  rw [decodeURIComponent, decodeUriFrom, if_pos rfl, hchar]
  dsimp only
  have htail : tail.length = 3 * n - 1 := by
    rw [List.length_cons] at hfront
    omega
  rw [decodeUriFrom_skip, ← htail, List.drop_left]

theorem decode_bad (h : percentChar ('%' :: rest) = none) :
    decodeURIComponent ('%' :: rest) = none := by
  rw [decodeURIComponent, decodeUriFrom, if_pos rfl, h]

/-- A text is read character by character, up to a percent sign that begins none. -/
theorem uri_induction {P : Text → Prop} (nil : P [])
    (plain : ∀ c rest, c ≠ '%' → P rest → P (c :: rest))
    (char : ∀ c n s rest, readOctets n s = some (String.utf8EncodeChar c, rest) → P rest → P s)
    (bad : ∀ rest, percentChar ('%' :: rest) = none → P ('%' :: rest)) (s : Text) : P s := by
  induction hn : s.length using Nat.strong_induction_on generalizing s with
  | _ k ih =>
    match s with
    | [] => exact nil
    | c :: rest =>
      rw [List.length_cons] at hn
      by_cases hc : c = '%'
      · subst hc
        match hchar : percentChar ('%' :: rest) with
        | none => exact bad rest hchar
        | some (d, n) =>
          obtain ⟨tail, hread⟩ := percentChar_eq_some.mp hchar
          obtain ⟨hlen, front, hsplit, hfront⟩ := readOctets_eq_some hread
          have hpos := length_utf8EncodeChar_pos d
          have hlength := congrArg List.length hsplit
          rw [List.length_append, List.length_cons] at hlength
          exact char d n _ tail hread (ih _ (by omega) tail rfl)
      · exact plain c rest hc (ih _ (by omega) rest rfl)

/-- Every percent sign begins the octets of a character. -/
inductive WellEncoded : Text → Prop
  | nil : WellEncoded []
  | plain {c : Char} {rest : Text} (hc : c ≠ '%') (h : WellEncoded rest) : WellEncoded (c :: rest)
  | char {c : Char} {n : ℕ} {s rest : Text}
      (hread : readOctets n s = some (String.utf8EncodeChar c, rest)) (h : WellEncoded rest) :
      WellEncoded s

theorem decode_ne_none_iff (s : Text) : decodeURIComponent s ≠ none ↔ WellEncoded s := by
  constructor
  · induction s using uri_induction with
    | nil => exact fun _ => .nil
    | plain c rest hc ih =>
      intro h
      rw [decode_plain hc, Ne, Option.map_eq_none_iff] at h
      exact .plain hc (ih h)
    | char c n s rest hread ih =>
      intro h
      rw [decode_char hread, Ne, Option.map_eq_none_iff] at h
      exact .char hread (ih h)
    | bad rest hbad => exact fun h => absurd (decode_bad hbad) h
  · intro h
    induction h with
    | nil => exact nofun
    | plain hc _ ih => rwa [decode_plain hc, Ne, Option.map_eq_none_iff]
    | char hread _ ih => rwa [decode_char hread, Ne, Option.map_eq_none_iff]

/-- Decoding shortens a text, unless it has no percent signs. -/
theorem length_decode {t : Text} (h : decodeURIComponent s = some t) :
    t.length ≤ s.length ∧ (t = s ↔ '%' ∉ s) := by
  induction s using uri_induction generalizing t with
  | nil =>
    obtain rfl := Option.some.inj h
    exact ⟨le_rfl, by simp⟩
  | plain c rest hc ih =>
    rw [decode_plain hc] at h
    obtain ⟨u, hu, rfl⟩ := Option.map_eq_some_iff.mp h
    obtain ⟨hlen, heq⟩ := ih hu
    exact ⟨by simpa using hlen, by simp [heq, Ne.symm hc]⟩
  | char c n s rest hread ih =>
    rw [decode_char hread] at h
    obtain ⟨u, hu, rfl⟩ := Option.map_eq_some_iff.mp h
    obtain ⟨hlen, front, rfl, hfront⟩ := readOctets_eq_some hread
    have hpos := length_utf8EncodeChar_pos c
    have hshort : (c :: u).length < (front ++ rest).length := by
      have := (ih hu).1
      rw [List.length_cons, List.length_append]
      omega
    refine ⟨hshort.le, iff_of_false (fun heq => ?_) fun hno => ?_⟩
    · rw [heq] at hshort
      exact lt_irrefl _ hshort
    · obtain ⟨first, hoctet, -⟩ :=
        Option.bind_eq_some_iff.mp (percentChar_eq_some.mpr ⟨rest, hread⟩)
      obtain ⟨_, _, -, heq⟩ := readOctet_eq_some hoctet
      exact hno (heq ▸ List.mem_cons_self)
  | bad rest hbad =>
    rw [decode_bad hbad] at h
    cases h

/-! ## Parts of a text -/

section
variable {sep : Char} (hsep : sep ≠ '%') (hhex : Crypto.hexValue sep = none)
include hsep hhex

theorem readOctet_separator (s t : Text) :
    readOctet (s ++ sep :: t) = (readOctet s).map fun r => (r.1, r.2 ++ sep :: t) := by
  have hpair : ∀ d, hexPair d sep = none ∧ hexPair sep d = none := by
    intro d
    rw [hexPair, hexPair, hhex]
    cases Crypto.hexValue d <;> exact ⟨rfl, rfl⟩
  rcases s with - | ⟨c, - | ⟨d, - | ⟨e, s⟩⟩⟩
  · simp [readOctet, hsep]
  · by_cases hc : c = '%'
    · subst hc
      cases t with
      | nil => rfl
      | cons e t => simp [readOctet, (hpair e).2]
    · cases t <;> simp [readOctet, hc]
  · by_cases hc : c = '%'
    · subst hc
      simp [readOctet, (hpair d).1]
    · simp [readOctet, hc]
  · by_cases hc : c = '%'
    · subst hc
      cases hread : hexPair d e <;> simp [readOctet, hread]
    · simp [readOctet, hc]

theorem readOctets_separator (n : ℕ) (s t : Text) :
    readOctets n (s ++ sep :: t) = (readOctets n s).map fun r => (r.1, r.2 ++ sep :: t) := by
  induction n generalizing s with
  | zero => rfl
  | succ n ih =>
    rw [readOctets, readOctets, readOctet_separator hsep hhex]
    cases readOctet s with
    | none => rfl
    | some r => simp [ih, Function.comp_def]

/-- A character that is no part of octets ends them. -/
theorem decode_separator (s t : Text) : decodeURIComponent (s ++ sep :: t) =
    (decodeURIComponent s).bind fun a => (decodeURIComponent t).map fun b => a ++ sep :: b := by
  induction s using uri_induction with
  | nil => exact decode_plain hsep t
  | plain c rest hc ih =>
    rw [List.cons_append, decode_plain hc, decode_plain hc, ih]
    cases decodeURIComponent rest <;> cases decodeURIComponent t <;> rfl
  | char c n s rest hread ih =>
    have hlonger : readOctets n (s ++ sep :: t) =
        some (String.utf8EncodeChar c, rest ++ sep :: t) := by
      rw [readOctets_separator hsep hhex, hread]
      rfl
    rw [decode_char hread, decode_char hlonger, ih]
    cases decodeURIComponent rest <;> cases decodeURIComponent t <;> rfl
  | bad rest hbad =>
    rw [decode_bad hbad, List.cons_append, decode_bad]
    · rfl
    · cases hchar : percentChar ('%' :: (rest ++ sep :: t)) with
      | none => rfl
      | some r =>
        obtain ⟨tail, hread⟩ := percentChar_eq_some.mp hchar
        rw [← List.cons_append, readOctets_separator hsep hhex] at hread
        obtain ⟨r', hread', heq⟩ := Option.map_eq_some_iff.mp hread
        have hgood := percentChar_eq_some.mpr ⟨r'.2, hread'.trans
          (congrArg some (Prod.ext (Prod.mk.inj heq).1 rfl))⟩
        rw [hbad] at hgood
        cases hgood

theorem wellEncoded_separator {s t : Text} :
    WellEncoded (s ++ sep :: t) ↔ WellEncoded s ∧ WellEncoded t := by
  rw [← decode_ne_none_iff, ← decode_ne_none_iff, ← decode_ne_none_iff, decode_separator hsep hhex]
  cases decodeURIComponent s <;> cases decodeURIComponent t <;> simp

end

theorem readOctets_percentBytes (bytes : List UInt8) (t : Text) :
    readOctets bytes.length (bytes.flatMap percentByte ++ t) = some (bytes, t) := by
  induction bytes with
  | nil => rfl
  | cons b bytes ih =>
    have hoctet : readOctet ((b :: bytes).flatMap percentByte ++ t) =
        some (b, bytes.flatMap percentByte ++ t) := by
      rw [List.flatMap_cons, List.append_assoc]
      change (hexPair _ _).map _ = _
      rw [hexPair_upperHexDigit]
      rfl
    rw [List.length_cons, readOctets, hoctet]
    dsimp only
    rw [ih]
    rfl

/-- An encoded character is decoded to itself. -/
theorem decode_percentEncodeChar (c : Char) (t : Text) :
    decodeURIComponent (percentEncodeChar isUriMark c ++ t) =
      (decodeURIComponent t).map (c :: ·) := by
  rw [percentEncodeChar]
  split_ifs with hc
  · refine decode_plain (fun heq => ?_) t
    rw [heq] at hc
    exact absurd hc (by decide)
  · exact decode_char (readOctets_percentBytes _ t)

theorem decode_encodeURIComponent (s t : Text) :
    decodeURIComponent (encodeURIComponent s ++ t) = (decodeURIComponent t).map (s ++ ·) := by
  induction s with
  | nil => simp [encodeURIComponent, percentEncode]
  | cons c s ih =>
    have htail : encodeURIComponent (c :: s) =
        percentEncodeChar isUriMark c ++ encodeURIComponent s := List.flatMap_cons
    rw [htail, List.append_assoc, decode_percentEncodeChar, ih, Option.map_map]
    rfl

end Voleeo.Send
