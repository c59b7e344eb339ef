import Voleeo.Cookies.Resolve

/-!
# Secrets inside a text

A chip is unwrapped to the blob that it holds. The blob is then found again as the longest run
of digits behind its prefix, so a digit that follows the chip is taken into it.
-/
namespace Voleeo.Crypto
open Resolve (splitOnce)
open Cookies (chipPrefix chipSuffix stripEncryptChips isHexDigit replaceCiphers openWith
  decryptInline)

def decryptInlineText (aead : Aead) (text : Text) : Text :=
  decryptInline (some aead) (stripEncryptChips text)

def encryptChip (cipher : Text) : Text := chipPrefix ++ cipher ++ chipSuffix

/-! ## A pattern that does not overlap itself -/

/-- No beginning of the pattern is also its end. -/
def Unbordered (pattern : Text) : Prop :=
  ∀ n < pattern.length, 0 < n → ¬ pattern.drop n <+: pattern

instance (pattern : Text) : Decidable (Unbordered pattern) :=
  inferInstanceAs (Decidable (∀ n < pattern.length, 0 < n → ¬ pattern.drop n <+: pattern))

/-- Such a pattern is found where it was put, behind any text without it. -/
theorem splitOnce_unbordered {pattern a : Text} (rest : Text) (hne : pattern ≠ [])
    (hborder : Unbordered pattern) (h : ¬ pattern <:+: a) :
    splitOnce pattern (a ++ (pattern ++ rest)) = some (a, rest) := by
  induction a with
  | nil =>
    obtain ⟨c, cs, rfl⟩ := List.exists_cons_of_ne_nil hne
    have hstart : c :: cs <+: c :: (cs ++ rest) := List.prefix_append (c :: cs) rest
    rw [List.nil_append, List.cons_append, splitOnce, if_pos hstart, ← List.cons_append,
      List.drop_left]
  | cons c a ih =>
    rw [List.infix_cons_iff, not_or] at h
    have hno : ¬ pattern <+: c :: (a ++ (pattern ++ rest)) := by
      intro hp
      rw [← List.cons_append] at hp
      have hlen : (c :: a).length < pattern.length := by
        by_contra hle
        exact h.1 (List.prefix_of_prefix_length_le hp (List.prefix_append _ _) (by omega))
      obtain ⟨tail, htail⟩ := List.prefix_of_prefix_length_le (List.prefix_append (c :: a) _)
        hp hlen.le
      have hdrop : pattern.drop (c :: a).length = tail := by
        rw [← htail, List.drop_left]
      rw [← htail, List.prefix_append_right_inj, htail] at hp
      refine hborder _ hlen (by simp) ?_
      rw [hdrop]
      refine List.prefix_of_prefix_length_le hp (List.prefix_append _ _) ?_
      rw [← hdrop, List.length_drop]
      omega
    rw [List.cons_append, splitOnce, if_neg hno, ih h.2]
    rfl

theorem unbordered_chipPrefix : Unbordered chipPrefix := by decide

theorem unbordered_encPrefix : Unbordered encPrefix := by decide

/-! ## The two passes -/

theorem isHexDigit_of_mem_toHex {bytes : List UInt8} {c : Char} (h : c ∈ toHex bytes) :
    isHexDigit c = true := by
  obtain ⟨n, hn, rfl⟩ := isDigit_or_upper_of_mem_toHex h
  rw [isHexDigit, hexValue_hexDigit n hn]
  rfl

def blobDigits (aead : Aead) (nonce : Nonce) (p : String) : Text :=
  toHex (nonce.toList ++ aead.encrypt nonce p.toByteArray.data.toList)

theorem encrypt_toList (aead : Aead) (nonce : Nonce) (p : String) :
    (encrypt aead nonce p).toList = encPrefix ++ blobDigits aead nonce p :=
  String.toList_ofList

theorem quote_not_mem_encrypt (aead : Aead) (nonce : Nonce) (p : String) :
    '"' ∉ (encrypt aead nonce p).toList := by
  rw [encrypt_toList, List.mem_append, not_or]
  refine ⟨by decide, fun h => ?_⟩
  exact absurd (isHexDigit_of_mem_toHex h) (by decide)

/-- A chip is unwrapped to what it holds, whatever follows it. -/
theorem stripEncryptChips_chip {a cipher : Text} (b : Text) (ha : ¬ chipPrefix <:+: a)
    (hcipher : '"' ∉ cipher) : stripEncryptChips (a ++ (encryptChip cipher ++ b)) =
      a ++ (cipher ++ stripEncryptChips b) := by
  have hsuffix : splitOnce chipSuffix (cipher ++ (chipSuffix ++ b)) = some (cipher, b) := by
    apply splitOnce_unbordered b (by decide) (by decide)
    intro hwithin
    exact hcipher (hwithin.subset (by decide))
  rw [encryptChip, List.append_assoc, List.append_assoc, stripEncryptChips.eq_def]
  split
  · next hnone =>
      rw [splitOnce_unbordered _ (by decide) unbordered_chipPrefix ha] at hnone
      cases hnone
  · next before after hsome =>
      rw [splitOnce_unbordered _ (by decide) unbordered_chipPrefix ha] at hsome
      cases hsome
      split
      · next hnone =>
          rw [hsuffix] at hnone
          cases hnone
      · next value rest hsome =>
          rw [hsuffix] at hsome
          cases hsome
          rw [List.append_assoc]

/-- The first blob of a text takes all digits that follow it. -/
theorem replaceCiphers_blob {openCipher : Text → Option Text} {a digits : Text} (t : Text)
    (ha : ¬ encPrefix <:+: a) (hdigits : ∀ c ∈ digits, isHexDigit c = true) :
    replaceCiphers openCipher (a ++ (encPrefix ++ digits ++ t)) =
      a ++ ((openCipher (encPrefix ++ (digits ++ t.takeWhile isHexDigit))).getD
        (encPrefix ++ (digits ++ t.takeWhile isHexDigit)) ++
        replaceCiphers openCipher (t.dropWhile isHexDigit)) := by
  rw [List.append_assoc, replaceCiphers.eq_def]
  split
  · next hnone =>
      rw [splitOnce_unbordered _ (by decide) unbordered_encPrefix ha] at hnone
      cases hnone
  · next before after hsome =>
      rw [splitOnce_unbordered _ (by decide) unbordered_encPrefix ha] at hsome
      cases hsome
      simp only [List.takeWhile_append_of_pos hdigits, List.dropWhile_append_of_pos hdigits]
      rw [List.append_assoc]

/-! ## Where a chip is opened -/

/-- What follows the chip, once unwrapped, does not begin with a digit. -/
def EndsDigits (b : Text) : Prop := ∀ c ∈ (stripEncryptChips b).head?, isHexDigit c = false

/-- The chip gives its plaintext, and what surrounds it is as without it. -/
def DecryptsLocally (aead : Aead) (nonce : Nonce) (p : String) (a b : Text) : Prop :=
  decryptInlineText aead (a ++ (encryptChip (encrypt aead nonce p).toList ++ b)) =
    a ++ (p.toList ++ decryptInlineText aead b)

theorem decryptInlineText_chip {aead : Aead} {nonce : Nonce} {p : String} {a b : Text}
    (ha : ¬ encPrefix <:+: a) (hchip : ¬ chipPrefix <:+: a) :
    decryptInlineText aead (a ++ (encryptChip (encrypt aead nonce p).toList ++ b)) =
      a ++ ((openWith aead (encPrefix ++ (blobDigits aead nonce p ++
          (stripEncryptChips b).takeWhile isHexDigit))).getD
        (encPrefix ++ (blobDigits aead nonce p ++ (stripEncryptChips b).takeWhile isHexDigit)) ++
        replaceCiphers (openWith aead) ((stripEncryptChips b).dropWhile isHexDigit)) := by
  rw [decryptInlineText, stripEncryptChips_chip b hchip (quote_not_mem_encrypt aead nonce p),
    encrypt_toList]
  exact replaceCiphers_blob _ ha fun c hc => isHexDigit_of_mem_toHex hc

theorem decryptsLocally_of_endsDigits {aead : Aead} {nonce : Nonce} {p : String} {a b : Text}
    (ha : ¬ encPrefix <:+: a) (hchip : ¬ chipPrefix <:+: a) (hb : EndsDigits b) :
    DecryptsLocally aead nonce p a b := by
  have htake : (stripEncryptChips b).takeWhile isHexDigit = [] := by
    rw [EndsDigits] at hb
    cases hs : stripEncryptChips b with
    | nil => rfl
    | cons c rest => rw [List.takeWhile_cons, hb c (by rw [hs]; rfl)]; rfl
  have hdrop : (stripEncryptChips b).dropWhile isHexDigit = stripEncryptChips b := by
    have happend := List.takeWhile_append_dropWhile (p := isHexDigit) (l := stripEncryptChips b)
    rwa [htake, List.nil_append] at happend
  rw [DecryptsLocally, decryptInlineText_chip ha hchip, htake, hdrop, List.append_nil,
    ← encrypt_toList, openWith, String.ofList_toList, decrypt_encrypt]
  rfl

/-! ## Digits behind a blob -/

/-- A nonce seals one text: nothing that goes on behind its blob opens. -/
def OpensNoExtension (aead : Aead) : Prop :=
  ∀ nonce bytes extra, extra ≠ [] → aead.decrypt nonce (aead.encrypt nonce bytes ++ extra) = none

theorem fromHexPairs_digits {n : ℕ} {t : Text} (hlen : t.length = 2 * n)
    (hdigits : ∀ c ∈ t, isHexDigit c = true) :
    ∃ bytes : List UInt8, bytes.length = n ∧ ∀ i, fromHexPairs i t = .ok bytes := by
  induction n generalizing t with
  | zero =>
    rw [List.eq_nil_of_length_eq_zero hlen]
    exact ⟨[], rfl, fun _ => rfl⟩
  | succ n ih =>
    obtain _ | ⟨c, _ | ⟨d, rest⟩⟩ := t
    · simp at hlen
    · rw [List.length_singleton] at hlen
      omega
    · rw [List.length_cons, List.length_cons] at hlen
      rw [List.forall_mem_cons, List.forall_mem_cons] at hdigits
      obtain ⟨bytes, hbytes, hread⟩ := ih (t := rest) (by omega) hdigits.2.2
      obtain ⟨high, hhigh⟩ := Option.isSome_iff_exists.mp hdigits.1
      obtain ⟨low, hlow⟩ := Option.isSome_iff_exists.mp hdigits.2.1
      have hplus : c ≠ '+' := by
        rintro rfl
        cases hhigh
      refine ⟨UInt8.ofNat (high * 16 + low) :: bytes, by rw [List.length_cons, hbytes], ?_⟩
      intro i
      rw [fromHexPairs, hexByte, if_neg hplus, hhigh, hlow]
      simp only [hread]
      rfl

theorem fromHexPairs_toHex_append {bytes more : List UInt8} {t : Text}
    (h : ∀ i, fromHexPairs i t = .ok more) (i : ℕ) :
    fromHexPairs i (toHex bytes ++ t) = .ok (bytes ++ more) := by
  induction bytes generalizing i with
  | nil => exact h i
  | cons b bytes ih =>
    show fromHexPairs i (hexDigit _ :: hexDigit _ :: (toHex bytes ++ t)) = _
    rw [fromHexPairs, hexByte_hexDigit, ih]
    rfl

/-- A blob with digits behind it does not open: their number is odd, or the cipher refuses. -/
theorem openWith_extended {aead : Aead} (h : OpensNoExtension aead) {nonce : Nonce} {p : String}
    {t : Text} (hne : t ≠ []) (hdigits : ∀ c ∈ t, isHexDigit c = true) :
    openWith aead (encPrefix ++ (blobDigits aead nonce p ++ t)) = none := by
  rw [openWith, decrypt, String.toList_ofList, isPrefixOf?_append]
  simp only [fromHex]
  split_ifs with heven
  · rw [blobDigits, List.length_append, length_toHex] at heven
    obtain ⟨more, hmore, hread⟩ := fromHexPairs_digits (n := t.length / 2) (by omega) hdigits
    have hmorene : more ≠ [] := by
      rintro rfl
      have hpos := List.length_pos_iff.mpr hne
      rw [List.length_nil] at hmore
      omega
    rw [blobDigits, fromHexPairs_toHex_append hread]
    have hlong := aead.tag_le nonce p.toByteArray.data.toList
    have hopen : openBlob aead (nonce.toList ++ aead.encrypt nonce p.toByteArray.data.toList ++
        more) = .error (.crypto "decryption failed — wrong key or tampered data") := by
      rw [openBlob, if_neg, List.append_assoc, nonceOf_append, List.drop_left' (by simp),
        h nonce _ more hmorene]
      rw [List.length_append, List.length_append, Vector.length_toList]
      omega
    change ((openBlob aead _).map _).toOption = _
    rw [hopen]
    rfl
  · rfl

/-- Digits behind the chip damage it: the text goes on with `enc:v1:`, not with the plaintext. -/
theorem not_decryptsLocally_of_digit {aead : Aead} (h : OpensNoExtension aead) {nonce : Nonce}
    {p : String} {a b : Text} (ha : ¬ encPrefix <:+: a) (hchip : ¬ chipPrefix <:+: a)
    (hp : ∃ c ∈ p.toList.head?, c ≠ 'e') (hb : ¬ EndsDigits b) :
    ¬ DecryptsLocally aead nonce p a b := by
  have hne : (stripEncryptChips b).takeWhile isHexDigit ≠ [] := by
    intro hnil
    refine hb fun c hc => ?_
    obtain ⟨rest, hrest⟩ := List.head?_eq_some_iff.mp hc
    rw [hrest, List.takeWhile_cons] at hnil
    split_ifs at hnil with hdigit
    exact Bool.eq_false_iff.mpr hdigit
  intro hlocal
  rw [DecryptsLocally, decryptInlineText_chip ha hchip,
    openWith_extended h hne fun c hc => List.mem_takeWhile_imp hc, Option.getD_none,
    List.append_cancel_left_eq] at hlocal
  obtain ⟨c, hc, hother⟩ := hp
  obtain ⟨rest, hrest⟩ := List.head?_eq_some_iff.mp hc
  rw [hrest] at hlocal
  exact hother (List.cons.inj hlocal).1.symm

/-! ## A cipher that refuses what it did not make -/

/-- Every byte behind a one, and sixteen zeros at the end. -/
def readMarked : List UInt8 → Option (List UInt8)
  | 1 :: b :: rest => (readMarked rest).map (b :: ·)
  | blob => if blob = List.replicate 16 0 then some [] else none

def writeMarked (bytes : List UInt8) : List UInt8 :=
  bytes.flatMap (fun b => [1, b]) ++ List.replicate 16 0

theorem readMarked_zeros (extra : List UInt8) : readMarked (List.replicate 16 0 ++ extra) =
    if extra = [] then some [] else none := by
  rw [readMarked.eq_def]
  simp [List.replicate_succ]

theorem readMarked_writeMarked (bytes extra : List UInt8) :
    readMarked (writeMarked bytes ++ extra) = if extra = [] then some bytes else none := by
  induction bytes with
  | nil => exact readMarked_zeros extra
  | cons b bytes ih =>
    change (readMarked (writeMarked bytes ++ extra)).map (b :: ·) = _
    rw [ih]
    split_ifs <;> rfl

def markedAead : Aead where
  encrypt _ := writeMarked
  decrypt _ := readMarked
  decrypt_encrypt _ bytes := by
    have hread := readMarked_writeMarked bytes []
    rwa [List.append_nil, if_pos rfl] at hread
  tag_le _ bytes := by
    rw [writeMarked, List.length_append, List.length_replicate]
    omega

theorem opensNoExtension_markedAead : OpensNoExtension markedAead := by
  intro nonce bytes extra hne
  exact (readMarked_writeMarked bytes extra).trans (if_neg hne)

/-! ## When chips are opened -/

/-- For every text in front of the chip and behind it: each plaintext is decrypted in its place
exactly when what follows the chip does not begin with a digit. -/
theorem decrypts_locally_iff {aead : Aead} (h : OpensNoExtension aead) (nonce : Nonce)
    {a : Text} (ha : ¬ encPrefix <:+: a) (hchip : ¬ chipPrefix <:+: a) (b : Text) :
    (∀ p, DecryptsLocally aead nonce p a b) ↔ EndsDigits b := by
  constructor
  · intro hall
    by_contra hb
    exact not_decryptsLocally_of_digit h ha hchip ⟨'x', by decide, by decide⟩ hb (hall "x")
  · intro hb p
    exact decryptsLocally_of_endsDigits ha hchip hb

theorem decrypts_locally_before_ampersand :
    (∀ p, DecryptsLocally markedAead (zeros 0) p "token=".toList "&v=2".toList) ↔
      EndsDigits "&v=2".toList :=
  decrypts_locally_iff opensNoExtension_markedAead (zeros 0) (by decide) (by decide) _

/-- A digit behind the chip is enough. -/
theorem digit_damages_chip : OpensNoExtension markedAead ∧
    ¬ DecryptsLocally markedAead (zeros 0) "x" [] ['0'] := by
  refine ⟨opensNoExtension_markedAead,
    not_decryptsLocally_of_digit opensNoExtension_markedAead (by decide) (by decide)
      ⟨'x', by decide, by decide⟩ ?_⟩
  rw [EndsDigits, stripEncryptChips.eq_def]
  exact fun h => absurd (h '0' rfl) (by decide)

end Voleeo.Crypto
