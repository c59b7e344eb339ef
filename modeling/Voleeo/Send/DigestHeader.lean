import Voleeo.FormUrlEncoded
import Voleeo.Send.DigestChallenge

/-!
# The answer to a Digest challenge

The fields go into the header between quotes as they are. A quote or a backslash among
them is neither escaped nor refused.
-/
namespace Voleeo.Digest
open AuthSyntax OrderedMap

structure HashLibraries where
  md5 : List UInt8 → List UInt8
  sha256 : List UInt8 → List UInt8

def hex (bytes : List UInt8) : Text :=
  bytes.flatMap fun b => [hexDigit (b.toNat / 16), hexDigit (b.toNat % 16)]

namespace Algorithm

/-- The form of the name that the header echoes. -/
def label : Algorithm → Text
  | md5 => "MD5".toList
  | md5Sess => "MD5-sess".toList
  | sha256 => "SHA-256".toList
  | sha256Sess => "SHA-256-sess".toList

def isSess : Algorithm → Bool
  | md5Sess | sha256Sess => true
  | md5 | sha256 => false

def hashBytes (libs : HashLibraries) (alg : Algorithm) (data : List UInt8) : Text :=
  match alg with
  | md5 | md5Sess => hex (libs.md5 data)
  | sha256 | sha256Sess => hex (libs.sha256 data)

def hash (libs : HashLibraries) (alg : Algorithm) (data : Text) : Text :=
  alg.hashBytes libs (utf8 data)

end Algorithm

def Qop.token : Qop → Text
  | .auth => "auth".toList
  | .authInt => "auth-int".toList

structure Request where
  username : Text
  password : Text
  method : Text
  uri : Text
  body : List UInt8

/-- `format!("{nc:08x}")` -/
def ncHex (nc : UInt32) : Text :=
  [7, 6, 5, 4, 3, 2, 1, 0].map fun i => hexDigit (nc.toNat / 16 ^ i % 16)

/-- `name="value"` or `name=value`. -/
inductive Part
  | quoted (name : String) (value : Text)
  | token (name : String) (value : Text)

namespace Part

def text : Part → Text
  | quoted name value => name.toList ++ '=' :: ('"' :: value ++ ['"'])
  | token name value => name.toList ++ '=' :: value

def row : Part → Text × Text
  | quoted name value => (name.toList, value)
  | token name value => (name.toList, value)

end Part

def colons (texts : List Text) : Text := [':'].intercalate texts

section
variable (libs : HashLibraries) (challenge : Challenge) (req : Request) (cnonce : Text)
  (nc : UInt32)

def ha1 : Text :=
  let alg := challenge.algorithm
  let base := alg.hash libs (colons [req.username, challenge.realm, req.password])
  if alg.isSess then alg.hash libs (colons [base, challenge.nonce, cnonce]) else base

def ha2 : Text :=
  let alg := challenge.algorithm
  match challenge.qop with
  | some .authInt =>
    alg.hash libs (colons [req.method, req.uri, alg.hashBytes libs req.body])
  | _ => alg.hash libs (colons [req.method, req.uri])

def response : Text :=
  let alg := challenge.algorithm
  let first := ha1 libs challenge req cnonce
  let second := ha2 libs challenge req
  match challenge.qop with
  | some qop =>
    alg.hash libs (colons [first, challenge.nonce, ncHex nc, cnonce, qop.token, second])
  | none => alg.hash libs (colons [first, challenge.nonce, second])

/-- The parameters of the header, in their order. -/
def answerParts : List Part :=
  [.quoted "username" req.username,
    .quoted "realm" challenge.realm,
    .quoted "nonce" challenge.nonce,
    .quoted "uri" req.uri,
    .token "algorithm" challenge.algorithm.label,
    .quoted "response" (response libs challenge req cnonce nc)] ++
  (match challenge.qop with
    | some qop => [.token "qop" qop.token, .token "nc" (ncHex nc), .quoted "cnonce" cnonce]
    | none => []) ++
  (match challenge.opaqueText with
    | some text => [.quoted "opaque" text]
    | none => [])

def authorization : Text :=
  "Digest ".toList ++
    [',', ' '].intercalate ((answerParts libs challenge req cnonce nc).map Part.text)

/-- The parameters behind the word Digest, escapes undone, are those the header was built from
and no others. -/
def ReadsBack : Prop :=
  ∀ key, ((parseParams ((authorization libs challenge req cnonce nc).drop 6)).get? key).map
    unquote = (ofList ((answerParts libs challenge req cnonce nc).map Part.row)).get? key

end

/-- What goes between quotes and comes from outside. -/
def outerFields (challenge : Challenge) (req : Request) (cnonce : Text) : List Text :=
  [req.username, challenge.realm, challenge.nonce, req.uri] ++
    (if challenge.qop.isSome then [cnonce] else []) ++ challenge.opaqueText.toList

theorem isTokenChar_hexDigit (n : ℕ) : isTokenChar (hexDigit n) = true := by
  have hall : ∀ m < 16, isTokenChar (hexDigit m) = true := by decide
  by_cases hn : n < 16
  · exact hall n hn
  · have hdefault : hexDigit n = '0' := by
      rw [hexDigit, List.getD_eq_getElem?_getD, List.getElem?_eq_none (by simpa using hn)]
      rfl
    rw [hdefault]
    decide

theorem isToken_of_all {s : Text} (h : (!s.isEmpty && s.all isTokenChar) = true) : IsToken s := by
  rw [Bool.and_eq_true, List.all_eq_true, Bool.not_eq_true', List.isEmpty_eq_false_iff] at h
  exact h

theorem isPlain_of_all {s : Text} (h : ∀ c ∈ s, isTokenChar c = true) : IsPlain s :=
  ⟨fun hmem => absurd (h _ hmem) (by decide), fun hmem => absurd (h _ hmem) (by decide)⟩

theorem isToken_ncHex (nc : UInt32) : IsToken (ncHex nc) := by
  refine ⟨List.cons_ne_nil _ _, fun c hc => ?_⟩
  obtain ⟨i, _, rfl⟩ := List.mem_map.mp hc
  exact isTokenChar_hexDigit _

theorem isPlain_hex (bytes : List UInt8) : IsPlain (hex bytes) := by
  refine isPlain_of_all fun c hc => ?_
  obtain ⟨b, _, hb⟩ := List.mem_flatMap.mp hc
  rcases List.mem_pair.mp hb with rfl | rfl <;> exact isTokenChar_hexDigit _

section
variable {libs : HashLibraries} {challenge : Challenge} {req : Request} {cnonce : Text}
  {nc : UInt32}

theorem isPlain_response : IsPlain (response libs challenge req cnonce nc) := by
  have hhash : ∀ (alg : Algorithm) data, IsPlain (alg.hash libs data) := by
    rintro (_ | _ | _ | _) data <;> exact isPlain_hex _
  rw [response]
  cases challenge.qop <;> exact hhash _ _

/-- The part is a parameter as it may be written, and has nothing escaped in it. -/
def Spelled (part : Part) : Prop :=
  ∃ p : AuthParam, p.text = part.text ∧ p.row = part.row ∧ '\\' ∉ part.row.2

theorem Spelled.of_value {name : String}
    (hname : (!name.toList.isEmpty && name.toList.all isTokenChar) = true)
    (hlower : name.toList.map Char.toLower = name.toList) (value : AuthValue)
    (hvalue : '\\' ∉ value.content) {part : Part}
    (htext : part.text = name.toList ++ '=' :: value.text)
    (hrow : part.row = (name.toList, value.content)) : Spelled part := by
  refine ⟨⟨name.toList, isToken_of_all hname, value⟩, htext.symm, ?_, by rwa [hrow]⟩
  rw [AuthParam.row, AuthParam.key, hlower, hrow]

theorem Spelled.quoted {name : String}
    (hname : (!name.toList.isEmpty && name.toList.all isTokenChar) = true)
    (hlower : name.toList.map Char.toLower = name.toList) {value : Text} (hvalue : IsPlain value) :
    Spelled (.quoted name value) :=
  .of_value hname hlower (.quoted value hvalue.isQuoted) hvalue.2 rfl rfl

theorem Spelled.token {name : String}
    (hname : (!name.toList.isEmpty && name.toList.all isTokenChar) = true)
    (hlower : name.toList.map Char.toLower = name.toList) {value : Text} (hvalue : IsToken value) :
    Spelled (.token name value) :=
  .of_value hname hlower (.token value hvalue) hvalue.isPlain.2 rfl rfl

theorem params_of_spelled {parts : List Part} (h : ∀ part ∈ parts, Spelled part) :
    ∃ params : List AuthParam, params.map AuthParam.text = parts.map Part.text ∧
      params.map AuthParam.row = parts.map Part.row := by
  induction parts with
  | nil => exact ⟨[], rfl, rfl⟩
  | cons part parts ih =>
    obtain ⟨params, htext, hrow⟩ := ih fun other hother => h other (List.mem_cons_of_mem _ hother)
    obtain ⟨p, hptext, hprow, _⟩ := h part List.mem_cons_self
    exact ⟨p :: params, by simp [htext, hptext], by simp [hrow, hprow]⟩

theorem intercalate_params (first : AuthParam) (params : List AuthParam) :
    [',', ' '].intercalate ((first :: params).map AuthParam.text) =
      first.text ++ moreText (params.map fun p => (commaSpace, p)) := by
  induction params generalizing first with
  | nil => simp [moreText]
  | cons p params ih =>
    rw [List.map_cons, List.map_cons, List.intercalate_cons_cons, ← List.map_cons, ih]
    simp [moreText, commaSpace]

/-- Parameters that are spelled out behind a blank are read back. -/
theorem spelled_reads {parts : List Part} (h : ∀ part ∈ parts, Spelled part) (key : Text) :
    ((parseParams (' ' :: [',', ' '].intercalate (parts.map Part.text))).get? key).map unquote =
      (ofList (parts.map Part.row)).get? key := by
  obtain ⟨params, htext, hrow⟩ := params_of_spelled h
  have hrows : rows (' ' :: [',', ' '].intercalate (params.map AuthParam.text)) =
      params.map AuthParam.row := by
    cases params with
    | nil => rfl
    | cons first params =>
      have hgap : ∀ c ∈ [' '], isListChar c = true := by decide
      rw [intercalate_params, ← List.singleton_append, rows_params hgap, List.map_map]
      rfl
  rw [parseParams_eq, ← htext, hrows, filter_rows, hrow]
  cases hget : (ofList (parts.map Part.row)).get? key with
  | none => rfl
  | some value =>
    obtain ⟨part, hpart, hvalue⟩ := List.mem_map.mp (mem_of_get?_ofList hget)
    obtain ⟨_, _, _, hplain⟩ := h part hpart
    rw [hvalue] at hplain
    rw [Option.map_some, unquote_of_not_mem hplain]

/-- Without quotes and backslashes in the fields, the header reads back. -/
theorem reads_back (h : ∀ field ∈ outerFields challenge req cnonce, IsPlain field) :
    ReadsBack libs challenge req cnonce nc := by
  have hlabel : IsToken challenge.algorithm.label := by
    rcases challenge.algorithm with _ | _ | _ | _ <;> exact isToken_of_all (by decide)
  have htoken : ∀ qop : Qop, IsToken qop.token := by
    rintro (_ | _) <;> exact isToken_of_all (by decide)
  have hspelled : ∀ part ∈ answerParts libs challenge req cnonce nc, Spelled part := by
    simp only [answerParts, outerFields, List.forall_mem_append, List.forall_mem_cons] at h ⊢
    obtain ⟨⟨⟨husername, hrealm, hnonce, huri, _⟩, hcnonce⟩, hopaque⟩ := h
    refine ⟨⟨⟨.quoted (by decide) (by decide) husername, .quoted (by decide) (by decide) hrealm,
      .quoted (by decide) (by decide) hnonce, .quoted (by decide) (by decide) huri,
      .token (by decide) (by decide) hlabel, .quoted (by decide) (by decide) isPlain_response,
      List.forall_mem_nil _⟩, ?_⟩, ?_⟩
    · cases hqop : challenge.qop with
      | none => exact List.forall_mem_nil _
      | some qop =>
          rw [hqop] at hcnonce
          have hplain := hcnonce cnonce (List.mem_singleton_self _)
          simp only [List.forall_mem_cons]
          exact ⟨.token (by decide) (by decide) (htoken qop),
            .token (by decide) (by decide) (isToken_ncHex nc),
            .quoted (by decide) (by decide) hplain, List.forall_mem_nil _⟩
    · cases htext : challenge.opaqueText with
      | none => exact List.forall_mem_nil _
      | some text =>
          rw [htext] at hopaque
          have hplain := hopaque text (List.mem_singleton_self _)
          exact List.forall_mem_singleton.mpr (.quoted (by decide) (by decide) hplain)
  exact spelled_reads hspelled

end

/-- MD5 on the texts of the two headers below. -/
def knownMd5 : List (String × List UInt8) := [
    ("a\\b:r:p", [0x59, 0x1f, 0xd8, 0xef, 0x5a, 0xc4, 0x40, 0xe4,
      0x51, 0x6c, 0x58, 0x12, 0x9e, 0x5d, 0x1c, 0xdf]),
    ("GET:/", [0x71, 0x99, 0x8c, 0x64, 0xae, 0xa3, 0x7a, 0xe7,
      0x70, 0x20, 0xc4, 0x9c, 0x00, 0xf7, 0x3f, 0xa8]),
    ("591fd8ef5ac440e4516c58129e5d1cdf:n:71998c64aea37ae77020c49c00f73fa8",
      [0xc8, 0x37, 0x0e, 0x54, 0x57, 0x71, 0x44, 0xa4,
      0x35, 0xc8, 0x15, 0x7f, 0x22, 0x14, 0x14, 0x45]),
    ("Mufasa:testrealm@host.com:Circle Of Life", [0x93, 0x9e, 0x75, 0x78, 0xed, 0x9e, 0x3c, 0x51,
      0x8a, 0x45, 0x2a, 0xce, 0xe7, 0x63, 0xbc, 0xe9]),
    ("GET:/dir/index.html", [0x39, 0xaf, 0xf3, 0xa2, 0xba, 0xb6, 0x12, 0x6f,
      0x33, 0x2b, 0x94, 0x2a, 0xf9, 0x6d, 0x33, 0x66]),
    ("939e7578ed9e3c518a452acee763bce9:dcd98b7102dd2f0e8b11d0f600bfb0c093:00000001:" ++
        "0a4f113b:auth:39aff3a2bab6126f332b942af96d3366",
      [0x66, 0x29, 0xfa, 0xe4, 0x93, 0x93, 0xa0, 0x53,
      0x97, 0x45, 0x09, 0x78, 0x50, 0x7c, 0x4e, 0xf1])]

def knownLibraries : HashLibraries where
  md5 data := ((knownMd5.find? fun known => utf8 known.1.toList = data).map Prod.snd).getD []
  sha256 _ := []

def rfcChallenge : Challenge where
  realm := "testrealm@host.com".toList
  nonce := "dcd98b7102dd2f0e8b11d0f600bfb0c093".toList
  algorithm := .md5
  qop := some .auth
  opaqueText := some "5ccc069c403ebaf9f0171e9517f40e41".toList

def rfcRequest : Request where
  username := "Mufasa".toList
  password := "Circle Of Life".toList
  method := "GET".toList
  uri := "/dir/index.html".toList
  body := []

theorem reads_back_rfc :
    response knownLibraries rfcChallenge rfcRequest "0a4f113b".toList 1 =
        "6629fae49393a05397450978507c4ef1".toList ∧
      ReadsBack knownLibraries rfcChallenge rfcRequest "0a4f113b".toList 1 := by
  refine ⟨by decide +kernel, reads_back ?_⟩
  decide

/-- A Windows user name loses its backslash. -/
theorem backslash_is_lost :
    authorization knownLibraries ⟨['r'], ['n'], .md5, none, none⟩
          ⟨['a', '\\', 'b'], ['p'], "GET".toList, ['/'], []⟩ [] 1 =
        ("Digest username=\"a\\b\", realm=\"r\", nonce=\"n\", uri=\"/\", algorithm=MD5, " ++
          "response=\"c8370e54577144a435c8157f22141445\"").toList ∧
      ¬ ReadsBack knownLibraries ⟨['r'], ['n'], .md5, none, none⟩
          ⟨['a', '\\', 'b'], ['p'], "GET".toList, ['/'], []⟩ [] 1 := by
  refine ⟨by decide +kernel, fun h => ?_⟩
  have husername := h "username".toList
  revert husername
  decide +kernel

end Voleeo.Digest
