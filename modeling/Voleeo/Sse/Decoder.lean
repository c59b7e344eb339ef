import Voleeo.JsString
import Voleeo.LineSplit

/-!
# Lossy UTF-8

Decoding that never fails: each maximal ill-formed part of the input becomes one
replacement character, as `String::from_utf8_lossy` does it.
-/
namespace Voleeo.Sse

def replacementChar : Char := Char.ofNat 0xFFFD

def isContinuation (b : UInt8) : Bool := 0x80 ≤ b.toNat && b.toNat ≤ 0xBF

/-- The bits that a continuation byte carries. -/
def lowBits (b : UInt8) : ℕ := b.toNat - 0x80

/-- The second bytes that may follow a first byte of a sequence of three. -/
def isSecondOf3 (first second : UInt8) : Bool :=
  let f := first.toNat
  let s := second.toNat
  (f == 0xE0 && 0xA0 ≤ s && s ≤ 0xBF) || (0xE1 ≤ f && f ≤ 0xEC && 0x80 ≤ s && s ≤ 0xBF) ||
    (f == 0xED && 0x80 ≤ s && s ≤ 0x9F) || (0xEE ≤ f && f ≤ 0xEF && 0x80 ≤ s && s ≤ 0xBF)

/-- The second bytes that may follow a first byte of a sequence of four. -/
def isSecondOf4 (first second : UInt8) : Bool :=
  let f := first.toNat
  let s := second.toNat
  (f == 0xF0 && 0x90 ≤ s && s ≤ 0xBF) || (0xF1 ≤ f && f ≤ 0xF3 && 0x80 ≤ s && s ≤ 0xBF) ||
    (f == 0xF4 && 0x80 ≤ s && s ≤ 0x8F)

/-- Decode the sequence that `first` opens: one character, and the number of further bytes it
takes from `rest`. -/
def decodeFirst (first : UInt8) (rest : List UInt8) : Char × ℕ :=
  let f := first.toNat
  if f < 0x80 then (Char.ofNat f, 0)
  else if 0xC2 ≤ f ∧ f ≤ 0xDF then
    match rest with
    | b :: _ =>
      if isContinuation b then (Char.ofNat ((f - 0xC0) * 64 + lowBits b), 1)
      else (replacementChar, 0)
    | [] => (replacementChar, 0)
  else if 0xE0 ≤ f ∧ f ≤ 0xEF then
    match rest with
    | b :: bs =>
      if isSecondOf3 first b then
        match bs with
        | c :: _ =>
          if isContinuation c then
            (Char.ofNat ((f - 0xE0) * 4096 + lowBits b * 64 + lowBits c), 2)
          else (replacementChar, 1)
        | [] => (replacementChar, 1)
      else (replacementChar, 0)
    | [] => (replacementChar, 0)
  else if 0xF0 ≤ f ∧ f ≤ 0xF4 then
    match rest with
    | b :: bs =>
      if isSecondOf4 first b then
        match bs with
        | c :: cs =>
          if isContinuation c then
            match cs with
            | d :: _ =>
              if isContinuation d then
                (Char.ofNat ((f - 0xF0) * 262144 + lowBits b * 4096 + lowBits c * 64 +
                  lowBits d), 3)
              else (replacementChar, 2)
            | [] => (replacementChar, 2)
          else (replacementChar, 1)
        | [] => (replacementChar, 1)
      else (replacementChar, 0)
    | [] => (replacementChar, 0)
  else (replacementChar, 0)

/-- `skip` counts the bytes that the last sequence still covers. -/
def decodeFrom : ℕ → List UInt8 → Text
  | _, [] => []
  | skip + 1, _ :: bytes => decodeFrom skip bytes
  | 0, first :: bytes =>
    let r := decodeFirst first bytes
    r.1 :: decodeFrom r.2 bytes

def fromUtf8Lossy (bytes : List UInt8) : Text := decodeFrom 0 bytes

example : fromUtf8Lossy [0xE2, 0x82, 0xAC, 0x41] = ['€', 'A'] := by decide

example : fromUtf8Lossy [0xE2, 0x82, 0x41, 0xFF] = ['\uFFFD', 'A', '\uFFFD'] := by decide

/-! ## Well-formed bytes -/

theorem isContinuation_iff {b : UInt8} :
    isContinuation b = true ↔ 0x80 ≤ b.toNat ∧ b.toNat ≤ 0xBF := by
  simp [isContinuation]

section
variable {first b c d : UInt8} {bytes : List UInt8} {v : ℕ}

theorem decodeFrom_one (hf : first.toNat = v) (hv : v < 0x80) :
    decodeFrom 0 (first :: bytes) = Char.ofNat v :: decodeFrom 0 bytes := by
  have hone : decodeFirst first bytes = (Char.ofNat v, 0) := by
    rw [decodeFirst.eq_def]
    simp only [hf, if_pos hv]
  simp only [decodeFrom, hone]

theorem decodeFrom_two (hf : first.toNat = v / 64 + 0xC0) (hb : b.toNat = v % 64 + 0x80)
    (hlow : 0x80 ≤ v) (hhigh : v < 0x800) :
    decodeFrom 0 (first :: b :: bytes) = Char.ofNat v :: decodeFrom 0 bytes := by
  have htwo : decodeFirst first (b :: bytes) = (Char.ofNat v, 1) := by
    have h1 : ¬ first.toNat < 0x80 := by omega
    have h2 : 0xC2 ≤ first.toNat ∧ first.toNat ≤ 0xDF := by omega
    have hcont : isContinuation b = true := isContinuation_iff.mpr (by omega)
    have hv : (first.toNat - 0xC0) * 64 + lowBits b = v := by
      have hlow : lowBits b = b.toNat - 0x80 := rfl
      omega
    rw [decodeFirst.eq_def]
    simp only [if_neg h1, if_pos h2, hcont, if_true, hv]
  simp only [decodeFrom, htwo]

theorem decodeFrom_three (hf : first.toNat = v / 4096 + 0xE0) (hb : b.toNat = v / 64 % 64 + 0x80)
    (hc : c.toNat = v % 64 + 0x80) (hlow : 0x800 ≤ v) (hhigh : v < 0x10000)
    (hsurrogate : v < 0xD800 ∨ 0xDFFF < v) :
    decodeFrom 0 (first :: b :: c :: bytes) = Char.ofNat v :: decodeFrom 0 bytes := by
  have hthree : decodeFirst first (b :: c :: bytes) = (Char.ofNat v, 2) := by
    have h1 : ¬ first.toNat < 0x80 := by omega
    have h2 : ¬ (0xC2 ≤ first.toNat ∧ first.toNat ≤ 0xDF) := by omega
    have h3 : 0xE0 ≤ first.toNat ∧ first.toNat ≤ 0xEF := by omega
    have hsecond : isSecondOf3 first b = true := by
      simp only [isSecondOf3, Bool.or_eq_true, Bool.and_eq_true, beq_iff_eq, decide_eq_true_eq]
      omega
    have hcont : isContinuation c = true := isContinuation_iff.mpr (by omega)
    have hv : (first.toNat - 0xE0) * 4096 + lowBits b * 64 + lowBits c = v := by
      have hlowb : lowBits b = b.toNat - 0x80 := rfl
      have hlowc : lowBits c = c.toNat - 0x80 := rfl
      omega
    rw [decodeFirst.eq_def]
    simp only [if_neg h1, if_neg h2, if_pos h3, hsecond, hcont, if_true, hv]
  simp only [decodeFrom, hthree]

theorem decodeFrom_four (hf : first.toNat = v / 262144 + 0xF0)
    (hb : b.toNat = v / 4096 % 64 + 0x80) (hc : c.toNat = v / 64 % 64 + 0x80)
    (hd : d.toNat = v % 64 + 0x80) (hlow : 0x10000 ≤ v) (hhigh : v < 0x110000) :
    decodeFrom 0 (first :: b :: c :: d :: bytes) = Char.ofNat v :: decodeFrom 0 bytes := by
  have hfour : decodeFirst first (b :: c :: d :: bytes) = (Char.ofNat v, 3) := by
    have h1 : ¬ first.toNat < 0x80 := by omega
    have h2 : ¬ (0xC2 ≤ first.toNat ∧ first.toNat ≤ 0xDF) := by omega
    have h3 : ¬ (0xE0 ≤ first.toNat ∧ first.toNat ≤ 0xEF) := by omega
    have h4 : 0xF0 ≤ first.toNat ∧ first.toNat ≤ 0xF4 := by omega
    have hsecond : isSecondOf4 first b = true := by
      simp only [isSecondOf4, Bool.or_eq_true, Bool.and_eq_true, beq_iff_eq, decide_eq_true_eq]
      omega
    have hcont : isContinuation c = true := isContinuation_iff.mpr (by omega)
    have hcont' : isContinuation d = true := isContinuation_iff.mpr (by omega)
    have hv : (first.toNat - 0xF0) * 262144 + lowBits b * 4096 + lowBits c * 64 + lowBits d = v := by
      have hlowb : lowBits b = b.toNat - 0x80 := rfl
      have hlowc : lowBits c = c.toNat - 0x80 := rfl
      have hlowd : lowBits d = d.toNat - 0x80 := rfl
      omega
    rw [decodeFirst.eq_def]
    simp only [if_neg h1, if_neg h2, if_neg h3, if_pos h4, hsecond, hcont, hcont', if_true, hv]
  simp only [decodeFrom, hfour]

end

/-- The bytes of a character are decoded to it. -/
theorem decodeFrom_utf8EncodeChar (c : Char) (bytes : List UInt8) :
    decodeFrom 0 (String.utf8EncodeChar c ++ bytes) = c :: decodeFrom 0 bytes := by
  obtain ⟨v, hv⟩ : ∃ v, v = c.val.toNat := ⟨_, rfl⟩
  have hvalid : v < 0xD800 ∨ 0xDFFF < v ∧ v < 0x110000 := hv ▸ c.valid
  have hc : Char.ofNat v = c := by rw [hv]; exact Char.ofNat_toNat c
  rw [String.utf8EncodeChar]
  simp only [← hv]
  rw [← hc]
  split_ifs with h1 h2 h3
  · refine decodeFrom_one ?_ (by omega)
    rw [UInt8.toNat_ofNat']
    omega
  · refine decodeFrom_two ?_ ?_ (by omega) (by omega) <;> rw [UInt8.toNat_ofNat'] <;> omega
  · refine decodeFrom_three ?_ ?_ ?_ (by omega) (by omega) (by omega) <;>
      rw [UInt8.toNat_ofNat'] <;> omega
  · refine decodeFrom_four ?_ ?_ ?_ ?_ (by omega) (by omega) <;>
      rw [UInt8.toNat_ofNat'] <;> omega

/-- Well-formed bytes are decoded to the text they encode. -/
theorem fromUtf8Lossy_utf8 (s : Text) : fromUtf8Lossy (s.flatMap String.utf8EncodeChar) = s := by
  unfold fromUtf8Lossy
  induction s with
  | nil => rfl
  | cons c s ih => rw [List.flatMap_cons, decodeFrom_utf8EncodeChar, ih]

end Voleeo.Sse

/-!
## Server-sent events decoder

Raw chunks go in, complete frames come out. An unterminated line is buffered
across chunks. A byte order mark is looked for once, at the first chunk that
brings the buffer to three bytes.
-/
namespace Voleeo.Sse

/-- A frame as parsed off the wire. -/
structure RawFrame where
  event : Option Text
  data : Text
  id : Option Text
  retry : Option UInt32
  deriving DecidableEq, Repr

/-- The fields of the frame under construction. -/
structure Pending where
  event : Option Text := none
  data : List Text := []
  id : Option Text := none
  retry : Option UInt32 := none
  /-- A field line landed since the last dispatch. -/
  dirty : Bool := false
  deriving DecidableEq, Repr

structure SseDecoder where
  /-- Bytes past the last newline. -/
  buf : List UInt8 := []
  pending : Pending := {}
  /-- The leading byte order mark has been looked for. -/
  bomChecked : Bool := false
  deriving DecidableEq, Repr

def newline : UInt8 := 0x0A
def carriageReturn : UInt8 := 0x0D
def colonByte : UInt8 := 0x3A
def byteOrderMark : List UInt8 := [0xEF, 0xBB, 0xBF]

/-! ## Lines -/

/-- `split_once(':')`, with one leading space of the value removed. -/
def splitField (text : Text) : Text × Text :=
  match text.dropWhile (· ≠ ':') with
  | [] => (text, [])
  | _ :: value =>
    (text.takeWhile (· ≠ ':'),
      match value with
      | ' ' :: rest => rest
      | value => value)

/-- `str::parse::<u32>`: an optional plus sign, at least one digit, no overflow. -/
def parseU32 (value : Text) : Option UInt32 :=
  let digits :=
    match value with
    | '+' :: rest => rest
    | value => value
  if digits ≠ [] ∧ digits.all Char.isDigit ∧ digitsValue digits < 2 ^ 32 then
    some (UInt32.ofNat (digitsValue digits))
  else none

def takeFrame (p : Pending) : RawFrame :=
  ⟨p.event, List.intercalate ['\n'] p.data, p.id, p.retry⟩

/-- The fields after one line, and the frame that an empty line dispatches. -/
def feedLine (p : Pending) (line : List UInt8) : Pending × Option RawFrame :=
  match line with
  | [] => if p.dirty then ({}, some (takeFrame p)) else (p, none)
  | first :: _ =>
    if first = colonByte then (p, none) -- comment or heartbeat
    else
      let (field, value) := splitField (fromUtf8Lossy line)
      if field = "event".toList then ({ p with event := some value, dirty := true }, none)
      else if field = "data".toList then
        ({ p with data := p.data ++ [value], dirty := true }, none)
      else if field = "id".toList then ({ p with id := some value, dirty := true }, none)
      else if field = "retry".toList then ({ p with retry := parseU32 value, dirty := true }, none)
      else (p, none) -- an unknown field does not make the frame dirty

/-- CRLF works like LF. -/
def stripCr (line : List UInt8) : List UInt8 :=
  if line.getLast? = some carriageReturn then line.dropLast else line

/-- The loop of `push`: feed every terminated line of the buffer. -/
def drainLines (p : Pending) (buf : List UInt8) : Pending × List UInt8 × List RawFrame :=
  match _h : nextLine newline buf with
  | none => (p, buf, [])
  | some (line, rest) =>
    let fed := feedLine p (stripCr line)
    let drained := drainLines fed.1 rest
    (drained.1, drained.2.1, fed.2.toList ++ drained.2.2)
termination_by buf.length
decreasing_by exact (nextLine_eq_some _h).2

/-! ## Chunks -/

/-- The check for a byte order mark fires at this chunk. -/
def checksBom (d : SseDecoder) (chunk : List UInt8) : Bool :=
  !d.bomChecked && 3 ≤ (d.buf ++ chunk).length

/-- This chunk makes the decoder drop a byte order mark. -/
def stripsBom (d : SseDecoder) (chunk : List UInt8) : Bool :=
  checksBom d chunk && byteOrderMark.isPrefixOf (d.buf ++ chunk)

/-- Feed a chunk; return every frame whose terminating blank line arrived. -/
def push (d : SseDecoder) (chunk : List UInt8) : SseDecoder × List RawFrame :=
  let buf := d.buf ++ chunk
  let buf := if stripsBom d chunk then buf.drop 3 else buf
  let drained := drainLines d.pending buf
  (⟨drained.2.1, drained.1, d.bomChecked || checksBom d chunk⟩, drained.2.2)

/-- Flush a trailing frame that the stream left unterminated. -/
def finish (d : SseDecoder) : List RawFrame :=
  let fed := if d.buf = [] then (d.pending, none) else feedLine d.pending d.buf
  fed.2.toList ++ if fed.1.dirty then [takeFrame fed.1] else []

/-- Feed the chunks one after another, then finish. -/
def decodeChunks (d : SseDecoder) : List (List UInt8) → List RawFrame
  | [] => finish d
  | chunk :: chunks => (push d chunk).2 ++ decodeChunks (push d chunk).1 chunks

/-- Some chunk makes the decoder drop a byte order mark. -/
def stripsSomeBom (d : SseDecoder) : List (List UInt8) → Bool
  | [] => false
  | chunk :: chunks => stripsBom d chunk || stripsSomeBom (push d chunk).1 chunks

end Voleeo.Sse
