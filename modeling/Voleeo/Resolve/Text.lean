import Mathlib.Logic.Function.Basic
import Voleeo.JsString
import Voleeo.Crypto.Cipher

/-!
# Text helpers of the Rust resolver

Path parameters of a URL, percent encoding and base64. Which characters outside
ASCII are letters or digits is left to the Unicode tables of the standard
library; inside ASCII they are the usual ones.
-/
namespace Voleeo.Resolve

/-- `char::is_alphabetic` and `char::is_numeric`. -/
structure UnicodeTables where
  isAlphabetic : Char → Bool
  isNumeric : Char → Bool
  ascii_alphabetic : ∀ c, c.toNat < 128 → isAlphabetic c = c.isAlpha
  ascii_numeric : ∀ c, c.toNat < 128 → isNumeric c = c.isDigit

namespace UnicodeTables

/-- `char::is_alphanumeric`, or an underscore. -/
def isWord (tables : UnicodeTables) (c : Char) : Bool :=
  tables.isAlphabetic c || tables.isNumeric c || c == '_'

/-- Tables that know no letter or digit outside ASCII. -/
def asciiOnly : UnicodeTables where
  isAlphabetic := Char.isAlpha
  isNumeric := Char.isDigit
  ascii_alphabetic := fun _ _ => rfl
  ascii_numeric := fun _ _ => rfl

theorem isWord_ascii (tables : UnicodeTables) {c : Char} (hc : c.toNat < 128) :
    tables.isWord c = isWordChar c := by
  rw [isWord, tables.ascii_alphabetic c hc, tables.ascii_numeric c hc, isWordChar, Char.isAlphanum]

end UnicodeTables

variable (tables : UnicodeTables)

def isIdentifier : Text → Bool
  | [] => false
  | c :: cs => (tables.isAlphabetic c || c == '_') && cs.all tables.isWord

def stripQuery (url : Text) : Text := url.takeWhile (· ≠ '?')

/-- The names behind the colons of a text. A name holds no colon, so the scan that goes on behind
the colon sees the same colons as one that goes on behind the name. -/
def namesBehindColons : Text → List Text
  | [] => []
  | c :: rest =>
    let name := rest.takeWhile tables.isWord
    if c = ':' ∧ isIdentifier tables name = true then name :: namesBehindColons rest
    else namesBehindColons rest

def extractPathParams (url : Text) : List Text := namesBehindColons tables (stripQuery url)

/-- What may follow a replaced name. -/
def isBoundary : Text → Bool
  | [] => true
  | c :: _ => !tables.isWord c

/-- `skip` counts the characters that the last replacement still covers. -/
def replacePathParamFrom (name replacement : Text) : ℕ → Text → Text
  | _, [] => []
  | skip + 1, _ :: rest => replacePathParamFrom name replacement skip rest
  | 0, c :: rest =>
    if (':' :: name) <+: c :: rest ∧ isBoundary tables (rest.drop name.length) = true then
      replacement ++ replacePathParamFrom name replacement name.length rest
    else c :: replacePathParamFrom name replacement 0 rest

def replacePathParam (url name replacement : Text) : Text :=
  replacePathParamFrom tables name replacement 0 url

def urlEncode (s : Text) : Text := percentEncode isUnreserved s

/-! ## Base64 -/

def base64Digit (n : ℕ) : Char :=
  "ABCDEFGHIJKLMNOPQRSTUVWXYZabcdefghijklmnopqrstuvwxyz0123456789+/".toList.getD n 'A'

def base64Encode : List UInt8 → Text
  | [] => []
  | [b0] =>
    let n := b0.toNat * 65536
    [base64Digit (n / 262144), base64Digit (n / 4096 % 64), '=', '=']
  | [b0, b1] =>
    let n := b0.toNat * 65536 + b1.toNat * 256
    [base64Digit (n / 262144), base64Digit (n / 4096 % 64), base64Digit (n / 64 % 64), '=']
  | b0 :: b1 :: b2 :: rest =>
    let n := b0.toNat * 65536 + b1.toNat * 256 + b2.toNat
    base64Digit (n / 262144) :: base64Digit (n / 4096 % 64) :: base64Digit (n / 64 % 64) ::
      base64Digit (n % 64) :: base64Encode rest

example : base64Encode "user:pass".toUTF8.data.toList = "dXNlcjpwYXNz".toList := by decide

end Voleeo.Resolve

/-!
## Encodings lose nothing

Two texts with the same UTF-8 bytes, the same base64 form of their bytes, or the
same percent-encoded form are the same text.
-/
namespace Voleeo.Resolve

theorem utf8_injective {s t : Text}
    (h : s.flatMap String.utf8EncodeChar = t.flatMap String.utf8EncodeChar) : s = t := by
  have hbytes : s.utf8Encode = t.utf8Encode := by rw [List.utf8Encode, h, List.utf8Encode]
  have hstrings : String.ofList s = String.ofList t := String.toByteArray_inj.mp hbytes
  exact String.ofList_injective hstrings

/-! ## Base64 -/

def base64Value (c : Char) : ℕ :=
  "ABCDEFGHIJKLMNOPQRSTUVWXYZabcdefghijklmnopqrstuvwxyz0123456789+/".toList.idxOf c

theorem base64Value_base64Digit : ∀ n < 64, base64Value (base64Digit n) = n := by decide +kernel

theorem base64Digit_inj {m n : ℕ} (hm : m < 64) (hn : n < 64)
    (h : base64Digit m = base64Digit n) : m = n := by
  rw [← base64Value_base64Digit m hm, h, base64Value_base64Digit n hn]

theorem base64Digit_ne_pad : ∀ n < 64, base64Digit n ≠ '=' := by decide +kernel

theorem base64Encode_injective : Function.Injective base64Encode := by
  intro s
  induction s using base64Encode.induct with
  | case1 =>
    intro t h
    match t with
    | [] => rfl
    | [_] | [_, _] | _ :: _ :: _ :: _ => simp [base64Encode] at h
  | case2 b0 =>
    intro t h
    have hb0 := b0.toNat_lt
    match t with
    | [] => simp [base64Encode] at h
    | [c0] =>
      have hc0 := c0.toNat_lt
      simp only [base64Encode, List.cons.injEq, and_true] at h
      have h0 := base64Digit_inj (by omega) (by omega) h.1
      have h1 := base64Digit_inj (by omega) (by omega) h.2
      rw [UInt8.toNat_inj.mp (show b0.toNat = c0.toNat by omega)]
    | [c0, c1] =>
      have hc1 := c1.toNat_lt
      simp only [base64Encode, List.cons.injEq, and_true] at h
      exact absurd h.2.2.symm (base64Digit_ne_pad _ (by omega))
    | c0 :: c1 :: c2 :: rest =>
      have hc2 := c2.toNat_lt
      simp only [base64Encode, List.cons.injEq] at h
      exact absurd h.2.2.1.symm (base64Digit_ne_pad _ (by omega))
  | case3 b0 b1 =>
    intro t h
    have hb0 := b0.toNat_lt
    have hb1 := b1.toNat_lt
    match t with
    | [] => simp [base64Encode] at h
    | [c0] =>
      simp only [base64Encode, List.cons.injEq, and_true] at h
      exact absurd h.2.2 (base64Digit_ne_pad _ (by omega))
    | [c0, c1] =>
      have hc0 := c0.toNat_lt
      have hc1 := c1.toNat_lt
      simp only [base64Encode, List.cons.injEq, and_true] at h
      have h0 := base64Digit_inj (by omega) (by omega) h.1
      have h1 := base64Digit_inj (by omega) (by omega) h.2.1
      have h2 := base64Digit_inj (by omega) (by omega) h.2.2
      rw [UInt8.toNat_inj.mp (show b0.toNat = c0.toNat by omega),
        UInt8.toNat_inj.mp (show b1.toNat = c1.toNat by omega)]
    | c0 :: c1 :: c2 :: rest =>
      simp only [base64Encode, List.cons.injEq] at h
      exact absurd h.2.2.2.1.symm (base64Digit_ne_pad _ (by omega))
  | case4 b0 b1 b2 rest ih =>
    intro t h
    have hb0 := b0.toNat_lt
    have hb1 := b1.toNat_lt
    have hb2 := b2.toNat_lt
    match t with
    | [] => simp [base64Encode] at h
    | [c0] =>
      simp only [base64Encode, List.cons.injEq] at h
      exact absurd h.2.2.1 (base64Digit_ne_pad _ (by omega))
    | [c0, c1] =>
      simp only [base64Encode, List.cons.injEq] at h
      exact absurd h.2.2.2.1 (base64Digit_ne_pad _ (by omega))
    | c0 :: c1 :: c2 :: rest' =>
      have hc0 := c0.toNat_lt
      have hc1 := c1.toNat_lt
      have hc2 := c2.toNat_lt
      simp only [base64Encode, List.cons.injEq] at h
      have h0 := base64Digit_inj (by omega) (by omega) h.1
      have h1 := base64Digit_inj (by omega) (by omega) h.2.1
      have h2 := base64Digit_inj (by omega) (by omega) h.2.2.1
      have h3 := base64Digit_inj (by omega) (by omega) h.2.2.2.1
      rw [ih h.2.2.2.2, UInt8.toNat_inj.mp (show b0.toNat = c0.toNat by omega),
        UInt8.toNat_inj.mp (show b1.toNat = c1.toNat by omega),
        UInt8.toNat_inj.mp (show b2.toNat = c2.toNat by omega)]

/-! ## Percent encoding -/

/-- The bytes that a percent-encoded text stands for. -/
def percentBytes : Text → List UInt8
  | [] => []
  | '%' :: d :: e :: rest => (Crypto.hexByte d e).getD 0 :: percentBytes rest
  | c :: rest => String.utf8EncodeChar c ++ percentBytes rest

theorem percentBytes_kept {c : Char} (hc : c ≠ '%') (rest : Text) :
    percentBytes (c :: rest) = String.utf8EncodeChar c ++ percentBytes rest := by
  rw [percentBytes]
  rintro d e rest' heq -
  exact hc heq

theorem percentBytes_percentByte (b : UInt8) (rest : Text) :
    percentBytes (percentByte b ++ rest) = b :: percentBytes rest := by
  have hbyte : Crypto.hexByte (upperHexDigit (b.toNat / 16)) (upperHexDigit (b.toNat % 16)) =
      some b := Crypto.hexByte_hexDigit b
  change percentBytes ('%' :: upperHexDigit _ :: upperHexDigit _ :: rest) = _
  rw [percentBytes, hbyte, Option.getD_some]

theorem percentBytes_flatMap (bytes : List UInt8) (rest : Text) :
    percentBytes (bytes.flatMap percentByte ++ rest) = bytes ++ percentBytes rest := by
  induction bytes with
  | nil => rfl
  | cons b bytes ih =>
    rw [List.flatMap_cons, List.append_assoc, percentBytes_percentByte, ih]
    rfl

/-- An encoder that never keeps the percent sign writes the bytes of the text. -/
theorem percentBytes_percentEncode {keep : Char → Bool} (hkeep : keep '%' = false) (s : Text) :
    percentBytes (percentEncode keep s) = s.flatMap String.utf8EncodeChar := by
  induction s with
  | nil => simp [percentEncode, percentBytes]
  | cons c s ih =>
    have htail : percentEncode keep (c :: s) =
        percentEncodeChar keep c ++ percentEncode keep s := List.flatMap_cons
    rw [htail, percentEncodeChar, List.flatMap_cons]
    split_ifs with hc
    · have hne : c ≠ '%' := by
        rintro rfl
        rw [hkeep] at hc
        cases hc
      rw [List.singleton_append, percentBytes_kept hne, ih]
    · rw [percentBytes_flatMap, ih]

theorem urlEncode_injective {s t : Text} (h : urlEncode s = urlEncode t) : s = t := by
  apply utf8_injective
  rw [← percentBytes_percentEncode (show isUnreserved (Char.ofNat 37) = false by decide) s,
    ← percentBytes_percentEncode (show isUnreserved (Char.ofNat 37) = false by decide) t]
  exact congrArg percentBytes h

end Voleeo.Resolve
