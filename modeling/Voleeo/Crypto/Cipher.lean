import Mathlib.Data.Nat.Basic
import Voleeo.JsString

/-!
# Encrypted values

An encrypted value is a prefix and the upper-case hexadecimal digits of a nonce
with the sealed bytes behind it. The block cipher is a parameter of which only
one law is used: it opens what it sealed.
-/
namespace Voleeo

/-- `VoleeoError`, with the kinds that the modelled functions raise. -/
inductive VoleeoError
  | storage (message : String)
  | notFound (message : String)
  | invalidConfig (message : String)
  | crypto (message : String)
  | git (message : String)
  | importError (message : String)
  deriving DecidableEq, Repr

namespace Crypto

abbrev Nonce := Vector UInt8 12

/-- AES-256-GCM under one key, with the tag behind the encrypted bytes. -/
structure Aead where
  encrypt : Nonce → List UInt8 → List UInt8
  decrypt : Nonce → List UInt8 → Option (List UInt8)
  decrypt_encrypt : ∀ nonce bytes, decrypt nonce (encrypt nonce bytes) = some bytes
  tag_le : ∀ nonce bytes, 16 ≤ (encrypt nonce bytes).length

/-! ## Hexadecimal digits -/

def hexDigit (n : ℕ) : Char := "0123456789ABCDEF".toList.getD n '0'

def toHex (bytes : List UInt8) : Text :=
  bytes.flatMap fun b => [hexDigit (b.toNat / 16), hexDigit (b.toNat % 16)]

def hexValue (c : Char) : Option ℕ :=
  if c.isDigit then some (c.toNat - '0'.toNat)
  else if 'a' ≤ c ∧ c ≤ 'f' then some (c.toNat - 'a'.toNat + 10)
  else if 'A' ≤ c ∧ c ≤ 'F' then some (c.toNat - 'A'.toNat + 10)
  else none

/-- `u8::from_str_radix(s, 16)` on two characters; a plus sign may lead. -/
def hexByte (c d : Char) : Option UInt8 :=
  match if c = '+' then some 0 else hexValue c, hexValue d with
  | some high, some low => some (UInt8.ofNat (high * 16 + low))
  | _, _ => none

def fromHexPairs : ℕ → Text → Except VoleeoError (List UInt8)
  | i, c :: d :: rest =>
    match hexByte c d with
    | some b => do return b :: (← fromHexPairs (i + 2) rest)
    | none => .error (.crypto s!"invalid hex char at {i}")
  | _, _ => .ok []

def fromHex (s : Text) : Except VoleeoError (List UInt8) :=
  if s.length % 2 = 0 then fromHexPairs 0 s
  else .error (.crypto s!"invalid hex length: {s.length}")

theorem hexValue_hexDigit : ∀ n < 16, hexValue (hexDigit n) = some n := by decide

theorem hexDigit_ne_plus : ∀ n < 16, hexDigit n ≠ '+' := by decide

theorem hexByte_hexDigit (b : UInt8) :
    hexByte (hexDigit (b.toNat / 16)) (hexDigit (b.toNat % 16)) = some b := by
  have hb := b.toNat_lt
  have hhigh : b.toNat / 16 < 16 := by omega
  have hlow : b.toNat % 16 < 16 := by omega
  have hsum : b.toNat / 16 * 16 + b.toNat % 16 = b.toNat := by omega
  rw [hexByte, if_neg (hexDigit_ne_plus _ hhigh), hexValue_hexDigit _ hhigh,
    hexValue_hexDigit _ hlow]
  simp [hsum]

theorem fromHexPairs_toHex (i : ℕ) (bytes : List UInt8) :
    fromHexPairs i (toHex bytes) = .ok bytes := by
  induction bytes generalizing i with
  | nil => rfl
  | cons b bytes ih =>
    show fromHexPairs i (hexDigit _ :: hexDigit _ :: toHex bytes) = _
    rw [fromHexPairs, hexByte_hexDigit, ih]
    rfl

theorem length_toHex (bytes : List UInt8) : (toHex bytes).length = 2 * bytes.length := by
  induction bytes with
  | nil => rfl
  | cons b bytes ih =>
    show (hexDigit _ :: hexDigit _ :: toHex bytes).length = _
    rw [List.length_cons, List.length_cons, ih, List.length_cons]
    omega

theorem fromHex_toHex (bytes : List UInt8) : fromHex (toHex bytes) = .ok bytes := by
  rw [fromHex, length_toHex, if_pos (by omega), fromHexPairs_toHex]

theorem isDigit_or_upper_of_mem_toHex {bytes : List UInt8} {c : Char} (h : c ∈ toHex bytes) :
    ∃ n < 16, c = hexDigit n := by
  obtain ⟨b, -, hc⟩ := List.mem_flatMap.mp h
  have hb := b.toNat_lt
  rcases List.mem_pair.mp hc with rfl | rfl
  · exact ⟨_, by omega, rfl⟩
  · exact ⟨_, by omega, rfl⟩

/-! ## Values -/

def encPrefix : Text := "enc:v1:".toList

def isEncrypted (value : String) : Bool := encPrefix.isPrefixOf value.toList

def encrypt (aead : Aead) (nonce : Nonce) (plaintext : String) : String :=
  String.ofList (encPrefix ++
    toHex (nonce.toList ++ aead.encrypt nonce plaintext.toByteArray.data.toList))

/-- The nonce in front of the sealed bytes. -/
def nonceOf (blob : List UInt8) : Nonce := Vector.ofFn fun i => blob.getD i 0

def openBlob (aead : Aead) (blob : List UInt8) : Except VoleeoError String :=
  if blob.length < 12 + 16 then .error (.crypto "ciphertext too short")
  else
    match aead.decrypt (nonceOf blob) (blob.drop 12) with
    | none => .error (.crypto "decryption failed — wrong key or tampered data")
    | some bytes =>
      match String.fromUTF8? bytes.toByteArray with
      | some plaintext => .ok plaintext
      | none => .error (.crypto "decrypted bytes are not valid UTF-8")

def decrypt (aead : Aead) (ciphertext : String) : Except VoleeoError String :=
  match encPrefix.isPrefixOf? ciphertext.toList with
  | none => .error (.crypto "not an encrypted value (missing enc:v1: prefix)")
  | some hexBlob => do openBlob aead (← fromHex hexBlob)

theorem nonceOf_append (nonce : Nonce) (rest : List UInt8) :
    nonceOf (nonce.toList ++ rest) = nonce := by
  ext i hi
  simp [nonceOf, List.getD_eq_getElem?_getD, List.getElem?_append_left]

theorem isPrefixOf?_append (s t : Text) : s.isPrefixOf? (s ++ t) = some t := by
  induction s with
  | nil => simp
  | cons c s ih => simp [List.isPrefixOf?, ih]

@[simp] theorem isEncrypted_encrypt (aead : Aead) (nonce : Nonce) (plaintext : String) :
    isEncrypted (encrypt aead nonce plaintext) = true := by
  simp [isEncrypted, encrypt, List.isPrefixOf_iff_prefix]

theorem fromUTF8?_toByteArray (s : String) : String.fromUTF8? s.toByteArray = some s := by
  rw [String.fromUTF8?, dif_pos s.isValidUTF8]
  rfl

/-- A value opens to the plaintext that it was made of. -/
@[simp] theorem decrypt_encrypt (aead : Aead) (nonce : Nonce) (plaintext : String) :
    decrypt aead (encrypt aead nonce plaintext) = .ok plaintext := by
  have hlen := aead.tag_le nonce plaintext.toByteArray.data.toList
  have hshort : ¬ (nonce.toList ++
      aead.encrypt nonce plaintext.toByteArray.data.toList).length < 12 + 16 := by
    rw [List.length_append, Vector.length_toList]
    omega
  have hdrop : (nonce.toList ++ aead.encrypt nonce plaintext.toByteArray.data.toList).drop 12 =
      aead.encrypt nonce plaintext.toByteArray.data.toList := by
    rw [List.drop_left' (by simp)]
  have hbytes : plaintext.toByteArray.data.toList.toByteArray = plaintext.toByteArray := by
    apply ByteArray.ext
    simp [List.data_toByteArray]
  rw [decrypt, encrypt, String.toList_ofList, isPrefixOf?_append]
  simp only [fromHex_toHex]
  change openBlob aead (nonce.toList ++ _) = _
  rw [openBlob, if_neg hshort, nonceOf_append, hdrop, aead.decrypt_encrypt]
  simp only [hbytes, fromUTF8?_toByteArray]

/-! ## A cipher for examples -/

/-- A cipher that writes the bytes themselves, and a tag. -/
def clearAead : Aead where
  encrypt _ bytes := bytes ++ List.replicate 16 0
  decrypt _ bytes := some (bytes.take (bytes.length - 16))
  decrypt_encrypt _ bytes := by simp
  tag_le _ bytes := by simp

/-- The same nonce for every value. -/
def zeros : ℕ → Nonce := fun _ => Vector.replicate 12 0

end Crypto
end Voleeo
