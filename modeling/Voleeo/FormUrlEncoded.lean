import Voleeo.Crypto.Cipher
import Voleeo.LineSplit
import Voleeo.JsString

/-!
# Reading a query

A parser finds the query of a URL between the first question mark and the first
number sign. The pairs in it are those of `application/x-www-form-urlencoded`,
kept as bytes: pieces between ampersands, cut at the first equals sign, with
plus signs for spaces and percent signs in front of two hexadecimal digits.
-/
namespace Voleeo
open Crypto (hexValue)

def utf8 (s : Text) : List UInt8 := s.flatMap String.utf8EncodeChar

/-- The byte that two hexadecimal digits stand for. -/
def hexPair (c d : Char) : Option UInt8 :=
  match hexValue c, hexValue d with
  | some high, some low => some (UInt8.ofNat (high * 16 + low))
  | _, _ => none

/-- A percent sign that no two digits follow stands for itself. -/
def decodeComponent : Text → List UInt8
  | [] => []
  | '%' :: d :: e :: rest =>
    match hexPair d e with
    | some b => b :: decodeComponent rest
    | none => String.utf8EncodeChar '%' ++ decodeComponent (d :: e :: rest)
  | c :: rest =>
    (if c = '+' then [0x20] else String.utf8EncodeChar c) ++ decodeComponent rest

attribute [local simp] decodeComponent

abbrev QueryPair := List UInt8 × List UInt8

/-- The name in front of the first equals sign, and the value behind it. -/
def formPair (piece : Text) : QueryPair :=
  (decodeComponent (piece.takeWhile (· ≠ '=')),
    decodeComponent (piece.dropWhile (· ≠ '=')).tail)

def parseQuery (query : Text) : List QueryPair :=
  ((query.splitOn '&').filter (· ≠ [])).map formPair

def queryComponent (url : Text) : Text :=
  ((url.takeWhile (· ≠ '#')).dropWhile (· ≠ '?')).tail

example : parseQuery (queryComponent "h://x/p?a=1%2B+&&b#c=2".toList) =
    [(utf8 ['a'], utf8 "1+ ".toList), (utf8 ['b'], [])] := by decide

@[simp] theorem utf8_nil : utf8 [] = [] := rfl

@[simp] theorem utf8_cons (c : Char) (s : Text) :
    utf8 (c :: s) = String.utf8EncodeChar c ++ utf8 s := List.flatMap_cons

@[simp] theorem utf8_append (s t : Text) : utf8 (s ++ t) = utf8 s ++ utf8 t :=
  List.flatMap_append

theorem length_utf8EncodeChar_pos (c : Char) : 0 < (String.utf8EncodeChar c).length := by
  rw [String.length_utf8EncodeChar]
  exact c.utf8Size_pos

/-! ## Decoding one character at a time -/

theorem decodeComponent_cons {c : Char} (hplus : c ≠ '+') (hpercent : c ≠ '%') (rest : Text) :
    decodeComponent (c :: rest) = String.utf8EncodeChar c ++ decodeComponent rest := by
  rw [decodeComponent, if_neg hplus]
  rintro d e rest' rfl
  exact absurd rfl hpercent

theorem decodeComponent_plus (rest : Text) :
    decodeComponent ('+' :: rest) = 0x20 :: decodeComponent rest := rfl

theorem decodeComponent_hex {d e : Char} {b : UInt8} (h : hexPair d e = some b) (rest : Text) :
    decodeComponent ('%' :: d :: e :: rest) = b :: decodeComponent rest := by
  rw [decodeComponent, h]

/-- Two hexadecimal digits at the start. -/
def startsHex : Text → Bool
  | d :: e :: _ => (hexPair d e).isSome
  | _ => false

theorem decodeComponent_percent {rest : Text} (h : startsHex rest = false) :
    decodeComponent ('%' :: rest) = String.utf8EncodeChar '%' ++ decodeComponent rest := by
  match rest with
  | [] => rfl
  | [_] => rfl
  | d :: e :: rest =>
    have hnone : hexPair d e = none :=
      Option.isNone_iff_eq_none.mp (Option.isSome_eq_false_iff.mp h)
    rw [decodeComponent, hnone]

/-- The four ways in which a text goes on. -/
theorem decode_induction {P : Text → Prop} (nil : P []) (plus : ∀ rest, P rest → P ('+' :: rest))
    (hex : ∀ d e b rest, hexPair d e = some b → P rest → P ('%' :: d :: e :: rest))
    (percent : ∀ rest, startsHex rest = false → P rest → P ('%' :: rest))
    (char : ∀ c rest, c ≠ '+' → c ≠ '%' → P rest → P (c :: rest)) (s : Text) : P s := by
  induction hn : s.length using Nat.strong_induction_on generalizing s with
  | _ n ih =>
    subst hn
    match s with
    | [] => exact nil
    | c :: rest =>
      have hrest := ih rest.length (by simp) rest rfl
      by_cases hplus : c = '+'
      · exact hplus ▸ plus rest hrest
      by_cases hpercent : c = '%'
      · subst hpercent
        cases hhex : startsHex rest with
        | false => exact percent rest hhex hrest
        | true =>
          match rest with
          | d :: e :: rest =>
            obtain ⟨b, hb⟩ := Option.isSome_iff_exists.mp hhex
            exact hex d e b rest hb (ih rest.length (by simp; omega) rest rfl)
      · exact char c rest hplus hpercent hrest

theorem length_decodeComponent_le (s : Text) : (decodeComponent s).length ≤ (utf8 s).length := by
  induction s using decode_induction with
  | nil => simp [decodeComponent]
  | plus rest ih =>
    have hpos := length_utf8EncodeChar_pos '+'
    rw [decodeComponent_plus, utf8_cons, List.length_cons, List.length_append]
    omega
  | hex d e b rest h ih =>
    have hpos := length_utf8EncodeChar_pos '%'
    rw [decodeComponent_hex h]
    simp only [utf8_cons, List.length_cons, List.length_append]
    omega
  | percent rest h ih =>
    rw [decodeComponent_percent h, utf8_cons, List.length_append, List.length_append]
    omega
  | char c rest hplus hpercent ih =>
    rw [decodeComponent_cons hplus hpercent, utf8_cons, List.length_append, List.length_append]
    omega

/-- A text that no digit follows is decoded by itself. -/
theorem decodeComponent_append {s t : Text} (h : ∀ c ∈ t.head?, hexValue c = none) :
    decodeComponent (s ++ t) = decodeComponent s ++ decodeComponent t := by
  induction s using decode_induction with
  | nil => rfl
  | plus rest ih =>
    rw [List.cons_append, decodeComponent_plus, decodeComponent_plus, ih]
    rfl
  | hex d e b rest hhex ih =>
    rw [List.cons_append, List.cons_append, List.cons_append, decodeComponent_hex hhex,
      decodeComponent_hex hhex, ih]
    rfl
  | percent rest hhex ih =>
    have hhex' : startsHex (rest ++ t) = false := by
      match rest, t with
      | [], [] => rfl
      | [], [_] => rfl
      | [], c :: d :: _ => simp [startsHex, hexPair, h c (by simp)]
      | [_], [] => rfl
      | [d], c :: _ =>
        simp only [List.singleton_append, startsHex, hexPair, h c (by simp)]
        cases hexValue d <;> rfl
      | d :: e :: _, _ => exact hhex
    rw [List.cons_append, decodeComponent_percent hhex, decodeComponent_percent hhex', ih,
      List.append_assoc]
  | char c rest hplus hpercent ih =>
    rw [List.cons_append, decodeComponent_cons hplus hpercent,
      decodeComponent_cons hplus hpercent, ih, List.append_assoc]

/-! ## Texts that are decoded to themselves -/

/-- No plus sign, and no percent sign in front of two hexadecimal digits. -/
def PlainComponent (s : Text) : Prop :=
  '+' ∉ s ∧ ∀ before after, s = before ++ '%' :: after → startsHex after = false

theorem plainComponent_cons {c : Char} {s : Text} :
    PlainComponent (c :: s) ↔ c ≠ '+' ∧ (c = '%' → startsHex s = false) ∧ PlainComponent s := by
  constructor
  · rintro ⟨hplus, hhex⟩
    rw [List.mem_cons, not_or] at hplus
    refine ⟨Ne.symm hplus.1, ?_, hplus.2, ?_⟩
    · rintro rfl
      exact hhex [] s rfl
    · rintro before after rfl
      exact hhex (c :: before) after rfl
  · rintro ⟨hc, hpercent, hplus, hhex⟩
    refine ⟨by simp [Ne.symm hc, hplus], fun before after h => ?_⟩
    cases before with
    | nil =>
      cases h
      exact hpercent rfl
    | cons d before =>
      cases h
      exact hhex before after rfl

theorem decodeComponent_eq_utf8_iff {s : Text} : decodeComponent s = utf8 s ↔ PlainComponent s := by
  induction s using decode_induction with
  | nil => exact iff_of_true rfl ⟨by simp, by simp⟩
  | plus rest ih =>
    refine iff_of_false ?_ fun h => (plainComponent_cons.mp h).1 rfl
    rw [decodeComponent_plus, utf8_cons, show String.utf8EncodeChar '+' = [0x2B] by decide]
    simp
  | hex d e b rest h ih =>
    refine iff_of_false (fun heq => ?_) fun hplain => ?_
    · have hlen := congrArg List.length heq
      have hle := length_decodeComponent_le rest
      have hd := length_utf8EncodeChar_pos d
      rw [decodeComponent_hex h] at hlen
      simp only [utf8_cons, List.length_cons, List.length_append,
        show (String.utf8EncodeChar '%').length = 1 by decide] at hlen
      omega
    · have hfalse := (plainComponent_cons.mp hplain).2.1 rfl
      rw [startsHex, h] at hfalse
      cases hfalse
  | percent rest h ih =>
    rw [decodeComponent_percent h, utf8_cons, List.append_right_inj, ih, plainComponent_cons]
    simp [h]
  | char c rest hplus hpercent ih =>
    rw [decodeComponent_cons hplus hpercent, utf8_cons, List.append_right_inj, ih,
      plainComponent_cons]
    simp [hplus, hpercent]

/-! ## Percent-encoded texts -/

theorem hexPair_upperHexDigit (b : UInt8) :
    hexPair (upperHexDigit (b.toNat / 16)) (upperHexDigit (b.toNat % 16)) = some b := by
  have hbyte := Crypto.hexByte_hexDigit b
  have hlt := b.toNat_lt
  rw [Crypto.hexByte, if_neg (Crypto.hexDigit_ne_plus _ (by omega))] at hbyte
  exact hbyte

theorem decodeComponent_percentBytes (bytes : List UInt8) (rest : Text) :
    decodeComponent (bytes.flatMap percentByte ++ rest) = bytes ++ decodeComponent rest := by
  induction bytes with
  | nil => rfl
  | cons b bytes ih =>
    rw [List.flatMap_cons, List.append_assoc]
    change decodeComponent
      ('%' :: upperHexDigit _ :: upperHexDigit _ :: (bytes.flatMap percentByte ++ rest)) = _
    rw [decodeComponent_hex (hexPair_upperHexDigit b), ih]
    rfl

section Encoded
variable {keep : Char → Bool} (hplus : keep '+' = false) (hpercent : keep '%' = false)
include hplus hpercent

theorem decodeComponent_percentEncodeChar (c : Char) (rest : Text) :
    decodeComponent (percentEncodeChar keep c ++ rest) =
      String.utf8EncodeChar c ++ decodeComponent rest := by
  rw [percentEncodeChar]
  split_ifs with hc
  · refine decodeComponent_cons ?_ ?_ rest <;> rintro rfl <;> simp_all
  · exact decodeComponent_percentBytes _ rest

theorem decodeComponent_percentEncode (s rest : Text) :
    decodeComponent (percentEncode keep s ++ rest) = utf8 s ++ decodeComponent rest := by
  induction s with
  | nil => rfl
  | cons c s ih =>
    have htail : percentEncode keep (c :: s) = percentEncodeChar keep c ++ percentEncode keep s :=
      List.flatMap_cons
    rw [htail, List.append_assoc, decodeComponent_percentEncodeChar hplus hpercent, ih,
      utf8_cons, List.append_assoc]

end Encoded

theorem upperHexDigit_alphanum : ∀ n < 16, (upperHexDigit n).isAlphanum = true := by decide

/-- An encoded text holds no character that has to be encoded, but for the percent sign. -/
theorem mem_percentEncodeChar {keep : Char → Bool} {c d : Char}
    (hd : d ∈ percentEncodeChar keep c) : keep d = true ∨ d = '%' ∨ d.isAlphanum = true := by
  rw [percentEncodeChar] at hd
  split_ifs at hd with hc
  · rw [List.mem_singleton.mp hd]
    exact Or.inl hc
  · obtain ⟨b, -, hb⟩ := List.mem_flatMap.mp hd
    have hlt := b.toNat_lt
    rw [percentByte, List.mem_cons, List.mem_cons, List.mem_singleton] at hb
    rcases hb with rfl | rfl | rfl
    · exact Or.inr (Or.inl rfl)
    · exact Or.inr (Or.inr (upperHexDigit_alphanum _ (by omega)))
    · exact Or.inr (Or.inr (upperHexDigit_alphanum _ (by omega)))

theorem not_mem_percentEncode {keep : Char → Bool} {d : Char} (hkeep : keep d = false)
    (hpercent : d ≠ '%') (halnum : d.isAlphanum = false) (s : Text) : d ∉ percentEncode keep s := by
  intro hd
  obtain ⟨c, -, hc⟩ := List.mem_flatMap.mp hd
  have hcases := mem_percentEncodeChar hc
  simp_all

theorem percentEncode_ne_nil {keep : Char → Bool} {s : Text} (h : s ≠ []) :
    percentEncode keep s ≠ [] := by
  obtain ⟨c, s, rfl⟩ := List.exists_cons_of_ne_nil h
  have hchar : percentEncodeChar keep c ≠ [] := by
    rw [percentEncodeChar]
    split_ifs
    · simp
    · obtain ⟨b, bytes, hbytes⟩ := List.exists_cons_of_length_pos (length_utf8EncodeChar_pos c)
      rw [hbytes]
      simp [percentByte]
  intro hnil
  exact hchar (List.append_eq_nil_iff.mp (List.flatMap_cons.symm.trans hnil)).1

/-! ## Pieces -/

theorem formPair_name {name : Text} (h : '=' ∉ name) :
    formPair name = (decodeComponent name, []) := by
  have hall : ∀ c ∈ name, decide (c ≠ '=') = true := by
    intro c hc
    exact decide_eq_true (ne_of_mem_of_not_mem hc h)
  rw [formPair, List.takeWhile_eq_self_iff.mpr hall, List.dropWhile_eq_nil_iff.mpr hall]
  rfl

theorem formPair_append {name value : Text} (h : '=' ∉ name) :
    formPair (name ++ '=' :: value) = (decodeComponent name, decodeComponent value) := by
  have hall : ∀ c ∈ name, decide (c ≠ '=') = true := by
    intro c hc
    exact decide_eq_true (ne_of_mem_of_not_mem hc h)
  rw [formPair, List.takeWhile_append_of_pos hall, List.dropWhile_append_of_pos hall]
  simp

@[simp] theorem parseQuery_nil : parseQuery [] = [] := rfl

theorem parseQuery_append (s t : Text) :
    parseQuery (s ++ '&' :: t) = parseQuery s ++ parseQuery t := by
  rw [parseQuery, List.splitOn_append_cons_self, List.filter_append, List.map_append]
  rfl

theorem parseQuery_piece {piece : Text} (h : '&' ∉ piece) (hne : piece ≠ []) :
    parseQuery piece = [formPair piece] := by
  rw [parseQuery, show piece.splitOn '&' = [piece] from ?_]
  · simp [hne]
  · simpa using @List.splitOn_intercalate _ [piece] _ _ '&' (by simpa using h) (by simp)

/-- Pieces without an ampersand are read one by one, and the empty ones are left out. -/
theorem parseQuery_intercalate {pieces : List Text} (h : ∀ piece ∈ pieces, '&' ∉ piece) :
    parseQuery (List.intercalate ['&'] pieces) = (pieces.filter (· ≠ [])).map formPair := by
  cases pieces with
  | nil => rfl
  | cons piece pieces => rw [parseQuery, List.splitOn_intercalate '&' h (List.cons_ne_nil _ _)]

/-! ## Pieces that may be cut short -/

/-- What is left of a piece in front of an ampersand or a number sign. -/
def cut (piece : Text) : Text := piece.takeWhile fun c => c ≠ '&' && c ≠ '#'

theorem takeWhile_takeWhile_eq_cut (s : Text) :
    (s.takeWhile (· ≠ '#')).takeWhile (· ≠ '&') = cut s := by
  rw [List.takeWhile_takeWhile, cut]
  congr 1
  funext c
  by_cases hc : c = '&' <;> simp [hc]

theorem cut_of_not_mem {piece : Text} (hamp : '&' ∉ piece) (hsharp : '#' ∉ piece) :
    cut piece = piece := by
  refine List.takeWhile_eq_self_iff.mpr fun c hc => ?_
  simp [ne_of_mem_of_not_mem hc hamp, ne_of_mem_of_not_mem hc hsharp]

theorem cut_append {front piece : Text} (hamp : '&' ∉ front) (hsharp : '#' ∉ front) :
    cut (front ++ piece) = front ++ cut piece := by
  refine List.takeWhile_append_of_pos fun c hc => ?_
  simp [ne_of_mem_of_not_mem hc hamp, ne_of_mem_of_not_mem hc hsharp]

/-- A text that is cut loses all that follows it. -/
theorem cut_prefix {front : Text} (h : '&' ∈ front ∨ '#' ∈ front) (t : Text) :
    cut (front ++ t) <+: front := by
  rw [cut, List.takeWhile_append, if_neg]
  · exact List.takeWhile_prefix _
  · intro hlen
    have hself := (List.takeWhile_prefix _).eq_of_length hlen
    rcases h with h | h
    · rw [← hself] at h
      simpa using List.mem_takeWhile_imp h
    · rw [← hself] at h
      simpa using List.mem_takeWhile_imp h

theorem cut_amp (piece rest : Text) : cut (piece ++ '&' :: rest) = cut piece := by
  rw [cut, cut, List.takeWhile_append]
  split_ifs with h
  · rw [List.takeWhile_cons_of_neg (by decide), List.append_nil,
      (List.takeWhile_prefix _).eq_of_length h]
  · rfl

theorem head?_parseQuery {s : Text} (h : s.takeWhile (· ≠ '&') ≠ []) :
    (parseQuery s).head? = some (formPair (s.takeWhile (· ≠ '&'))) := by
  have hamp : '&' ∉ s.takeWhile (· ≠ '&') := by
    intro hmem
    simpa using List.mem_takeWhile_imp hmem
  have hsplit := List.takeWhile_append_dropWhile (p := (· ≠ '&')) (l := s)
  cases hrest : s.dropWhile (· ≠ '&') with
  | nil =>
    rw [hrest, List.append_nil] at hsplit
    rw [hsplit] at h hamp ⊢
    rw [parseQuery_piece hamp h]
    rfl
  | cons c rest =>
    have hc := List.head?_dropWhile_not (· ≠ '&') s
    rw [hrest] at hc
    obtain rfl : c = '&' := by simpa using hc
    rw [hrest] at hsplit
    conv_lhs => rw [← hsplit]
    rw [parseQuery_append, parseQuery_piece hamp h]
    rfl

/-- The piece has something left when it is cut, and is cut only if the pair is lost. -/
def Robust (piece : Text) (pair : QueryPair) : Prop :=
  cut piece ≠ [] ∧ (formPair (cut piece) = pair → '&' ∉ piece ∧ '#' ∉ piece)

/-- The pieces in front of a number sign are read as the pairs exactly when each piece is. -/
theorem parseQuery_pieces_iff {pieces : List Text} {pairs : List QueryPair}
    (h : List.Forall₂ Robust pieces pairs) :
    parseQuery ((List.intercalate ['&'] pieces).takeWhile (· ≠ '#')) = pairs ↔
      List.Forall₂ (fun piece pair => formPair (cut piece) = pair) pieces pairs := by
  induction h with
  | nil => simp
  | @cons piece pair pieces pairs hpiece _ ih =>
    rw [List.forall₂_cons]
    obtain ⟨hne, hrobust⟩ := hpiece
    by_cases hpair : formPair (cut piece) = pair
    · obtain ⟨hamp, hsharp⟩ := hrobust hpair
      rw [cut_of_not_mem hamp hsharp] at hne hpair
      have hall : ∀ c ∈ piece, decide (c ≠ '#') = true :=
        fun c hc => decide_eq_true (ne_of_mem_of_not_mem hc hsharp)
      cases pieces with
      | nil =>
        rw [List.intercalate_singleton, List.takeWhile_eq_self_iff.mpr hall,
          parseQuery_piece hamp hne, cut_of_not_mem hamp hsharp]
        simp [hpair, eq_comm]
      | cons next pieces =>
        rw [List.intercalate_cons_cons, List.append_assoc, List.singleton_append,
          List.takeWhile_append_of_pos hall, List.takeWhile_cons_of_pos (by decide),
          parseQuery_append, parseQuery_piece hamp hne, cut_of_not_mem hamp hsharp, hpair,
          List.singleton_append, List.cons.injEq, ih]
    · refine iff_of_false (fun heq => hpair ?_) fun hall => hpair hall.1
      have hcut : cut (List.intercalate ['&'] (piece :: pieces)) = cut piece := by
        cases pieces with
        | nil => rw [List.intercalate_singleton]
        | cons next pieces =>
          rw [List.intercalate_cons_cons, List.append_assoc, List.singleton_append, cut_amp]
      have hhead := @head?_parseQuery
        ((List.intercalate ['&'] (piece :: pieces)).takeWhile (· ≠ '#'))
      rw [takeWhile_takeWhile_eq_cut, hcut, heq] at hhead
      exact (Option.some.inj (hhead hne)).symm

/-- The piece behind the last ampersand. -/
theorem exists_last_piece (s : Text) : ∃ last, '&' ∉ last ∧
    (s = last ∨ ∃ front, s = front ++ '&' :: last) := by
  induction s with
  | nil => exact ⟨[], by simp, Or.inl rfl⟩
  | cons c s ih =>
    obtain ⟨last, hlast, rfl | ⟨front, rfl⟩⟩ := ih
    · by_cases hc : c = '&'
      · exact ⟨s, hlast, Or.inr ⟨[], by rw [hc]; rfl⟩⟩
      · exact ⟨c :: s, by simp [Ne.symm hc, hlast], Or.inl rfl⟩
    · exact ⟨last, hlast, Or.inr ⟨c :: front, rfl⟩⟩

/-- A question mark that is glued to a piece changes its pair. -/
theorem formPair_question_ne (last t : Text) : formPair (last ++ '?' :: t) ≠ formPair last := by
  have hglued : ∀ s t : Text, decodeComponent (s ++ '?' :: t) ≠ decodeComponent s := by
    intro s t heq
    have hlen := congrArg List.length heq
    have hhead : ∀ c ∈ ('?' :: t).head?, hexValue c = none := by
      intro c hc
      obtain rfl : '?' = c := by simpa using hc
      decide
    rw [decodeComponent_append hhead, decodeComponent_cons (by decide) (by decide)] at hlen
    have hpos := length_utf8EncodeChar_pos '?'
    simp only [List.length_append] at hlen
    omega
  intro heq
  by_cases hsign : '=' ∈ last
  · obtain ⟨name, value, rfl, hname⟩ := List.eq_append_cons_of_mem hsign
    rw [List.append_assoc, List.cons_append, formPair_append hname, formPair_append hname] at heq
    exact hglued _ _ (congrArg Prod.snd heq)
  · have hname := congrArg Prod.fst heq
    have hall : ∀ c ∈ last, decide (c ≠ '=') = true :=
      fun c hc => decide_eq_true (ne_of_mem_of_not_mem hc hsign)
    rw [formPair_name hsign, formPair, List.takeWhile_append_of_pos hall,
      List.takeWhile_cons_of_pos (by decide)] at hname
    exact hglued _ _ hname

/-! ## The query of a URL that goes on -/

theorem takeWhile_sharp {s : Text} (h : '#' ∉ s) (t : Text) :
    (s ++ t).takeWhile (· ≠ '#') = s ++ t.takeWhile (· ≠ '#') :=
  List.takeWhile_append_of_pos fun _ hc => decide_eq_true (ne_of_mem_of_not_mem hc h)

theorem takeWhile_sharp_of_mem {s : Text} (h : '#' ∈ s) (t : Text) :
    (s ++ t).takeWhile (· ≠ '#') = s.takeWhile (· ≠ '#') := by
  rw [List.takeWhile_append, if_neg]
  intro hlen
  have hself := (List.takeWhile_prefix _).eq_of_length hlen
  rw [← hself] at h
  simpa using List.mem_takeWhile_imp h

theorem dropWhile_question {s : Text} (h : '?' ∉ s) (t : Text) :
    (s ++ t).dropWhile (· ≠ '?') = t.dropWhile (· ≠ '?') :=
  List.dropWhile_append_of_pos fun _ hc => decide_eq_true (ne_of_mem_of_not_mem hc h)

/-- What stands behind a number sign is no part of the query. -/
theorem queryComponent_of_sharp {url : Text} (h : '#' ∈ url) (t : Text) :
    queryComponent (url ++ t) = queryComponent url := by
  rw [queryComponent, takeWhile_sharp_of_mem h, queryComponent]

theorem queryComponent_of_no_question {url : Text} (h : '?' ∉ url.takeWhile (· ≠ '#')) :
    queryComponent url = [] := by
  have hnil := dropWhile_question h []
  rw [List.append_nil] at hnil
  rw [queryComponent, hnil]
  rfl

theorem queryComponent_question {url : Text} (hsharp : '#' ∉ url) (hquestion : '?' ∉ url)
    (query : Text) : queryComponent (url ++ '?' :: query) = query.takeWhile (· ≠ '#') := by
  rw [queryComponent, takeWhile_sharp hsharp, dropWhile_question hquestion,
    List.takeWhile_cons_of_pos (by decide), List.dropWhile_cons_of_neg (by decide)]
  rfl

/-- A query goes on up to the first number sign. -/
theorem queryComponent_append {url : Text} (hsharp : '#' ∉ url) (hquestion : '?' ∈ url) (t : Text) :
    queryComponent (url ++ t) = queryComponent url ++ t.takeWhile (· ≠ '#') := by
  obtain ⟨front, query, rfl, hfront⟩ := List.eq_append_cons_of_mem hquestion
  rw [List.mem_append, List.mem_cons, not_or, not_or] at hsharp
  obtain ⟨hsharp, -, hquery⟩ := hsharp
  have hself : query.takeWhile (· ≠ '#') = query := by
    simpa using takeWhile_sharp hquery []
  rw [List.append_assoc, List.cons_append, queryComponent_question hsharp hfront,
    queryComponent_question hsharp hfront, takeWhile_sharp hquery, hself]

end Voleeo
