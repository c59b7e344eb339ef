import Mathlib.Data.Char
import Mathlib.Data.List.Lex
import Mathlib.Data.Prod.Lex
import Voleeo.Entities
import Voleeo.FormUrlEncoded
import Voleeo.Resolve.Str
import Voleeo.Sse.Decoder
import Voleeo.StableSort

/-!
# The canonical request of SigV4

The signer writes the path and the query of a request in one canonical form. It takes
the path for decoded text; the executor hands it the path of a parsed URL, which is
encoded already.
-/
namespace Voleeo.SigV4
open Sse (fromUtf8Lossy)
open Resolve (strTrim)

/-! ## Percent encoding -/

def encodeByte (b : UInt8) : Text :=
  let c := Char.ofNat b.toNat
  if isUnreserved c then [c] else percentByte b

def encodeBytes (bytes : List UInt8) : Text := bytes.flatMap encodeByte

def uriEncode (s : Text) : Text := encodeBytes (utf8 s)

/-- The bytes of a text with its percent escapes undone. A plus sign is a plus sign. -/
def decodeBytes : Text → List UInt8
  | [] => []
  | '%' :: d :: e :: rest =>
    match hexPair d e with
    | some b => b :: decodeBytes rest
    | none => String.utf8EncodeChar '%' ++ decodeBytes (d :: e :: rest)
  | c :: rest => String.utf8EncodeChar c ++ decodeBytes rest

attribute [local simp] decodeBytes

def percentDecode (s : Text) : Text := fromUtf8Lossy (decodeBytes s)

/-! ## The signer -/

def canonicalUri (path service : Text) : Text :=
  if path = [] then ['/']
  else List.intercalate ['/'] ((path.splitOn '/').map fun seg =>
    let once := uriEncode seg
    if service ≠ "s3".toList then uriEncode once else once)

def splitPair (piece : Text) : Text × Text :=
  (piece.takeWhile (· ≠ '='), (piece.dropWhile (· ≠ '=')).tail)

def pieces (query : Text) : List Text := (query.splitOn '&').filter (· ≠ [])

def sortPairs (pairs : List (Text × Text)) : List (Text × Text) := sortBy toLex pairs

def renderPairs (pairs : List (Text × Text)) : Text :=
  List.intercalate ['&'] (pairs.map fun p => p.1 ++ '=' :: p.2)

def canonicalQuery (query : Text) : Text :=
  if query = [] then []
  else renderPairs (sortPairs ((pieces query).map fun piece =>
    let p := splitPair piece
    (uriEncode (percentDecode p.1), uriEncode (percentDecode p.2))))

/-- The parts of a parsed URL that are written in canonical form. -/
structure ParsedUrl where
  path : Text
  query : Option Text

/-- What the signer is given besides the headers, the body and the keys. -/
structure SigV4Request where
  path : Text
  query : Text
  service : Text

/-- The request that `sign_dynamic_auth` has signed. -/
def sigV4Request (auth : AwsSigV4Auth) (url : ParsedUrl) : SigV4Request where
  path := url.path
  query := url.query.getD []
  service := strTrim auth.service.toList

/-! ## What AWS asks for -/

/-- The decoded bytes of each segment encoded once for S3, and twice for every other service. -/
def awsUri (path service : Text) : Text :=
  if path = [] then ['/']
  else List.intercalate ['/'] ((path.splitOn '/').map fun seg =>
    let once := encodeBytes (decodeBytes seg)
    if service = "s3".toList then once else uriEncode once)

/-- The parameters of a query, as bytes. -/
def decodedParams (query : Text) : List (List UInt8 × List UInt8) :=
  (pieces query).map fun piece => (decodeBytes (splitPair piece).1, decodeBytes (splitPair piece).2)

/-- A percent sign in front of two hexadecimal digits. -/
def Escaped (s : Text) : Prop := ∃ before after, s = before ++ '%' :: after ∧ startsHex after = true

/-- The bytes of some text. -/
def WellFormed (bytes : List UInt8) : Prop := ∃ s, utf8 s = bytes

/-! ## Encoding and decoding -/

theorem decodeBytes_hex {d e : Char} {b : UInt8} (h : hexPair d e = some b) (rest : Text) :
    decodeBytes ('%' :: d :: e :: rest) = b :: decodeBytes rest := by
  rw [decodeBytes, h]

theorem decodeBytes_cons {c : Char} (hc : c ≠ '%') (rest : Text) :
    decodeBytes (c :: rest) = String.utf8EncodeChar c ++ decodeBytes rest := by
  rw [decodeBytes]
  rintro d e rest' rfl
  exact absurd rfl hc

theorem decodeBytes_percent {rest : Text} (h : startsHex rest = false) :
    decodeBytes ('%' :: rest) = String.utf8EncodeChar '%' ++ decodeBytes rest := by
  match rest with
  | [] => rfl
  | [_] => rfl
  | d :: e :: rest =>
    have hnone : hexPair d e = none :=
      Option.isNone_iff_eq_none.mp (Option.isSome_eq_false_iff.mp h)
    rw [decodeBytes, hnone]

theorem unreserved_ascii : ∀ n < 256, isUnreserved (Char.ofNat n) = true → n < 128 := by
  decide +kernel

theorem utf8EncodeChar_ofNat : ∀ n < 128,
    String.utf8EncodeChar (Char.ofNat n) = [UInt8.ofNat n] := by decide

/-- Encoding is undone by decoding. -/
theorem decodeBytes_encodeBytes (bytes : List UInt8) : decodeBytes (encodeBytes bytes) = bytes := by
  induction bytes with
  | nil => rfl
  | cons b bytes ih =>
    rw [encodeBytes, List.flatMap_cons, ← encodeBytes, encodeByte]
    split_ifs with hb
    · have hpercent : Char.ofNat b.toNat ≠ '%' := by
        intro h
        rw [h] at hb
        exact absurd hb (by decide)
      rw [List.singleton_append, decodeBytes_cons hpercent, ih,
        utf8EncodeChar_ofNat _ (unreserved_ascii _ b.toNat_lt hb), UInt8.ofNat_toNat]
      rfl
    · change decodeBytes ('%' :: upperHexDigit _ :: upperHexDigit _ :: encodeBytes bytes) = _
      rw [decodeBytes_hex (hexPair_upperHexDigit b), ih]

theorem encodeBytes_inj {bytes bytes' : List UInt8} :
    encodeBytes bytes = encodeBytes bytes' ↔ bytes = bytes' := by
  refine ⟨fun h => ?_, congrArg encodeBytes⟩
  rw [← decodeBytes_encodeBytes bytes, h, decodeBytes_encodeBytes]

theorem utf8_inj {s t : Text} : utf8 s = utf8 t ↔ s = t := by
  refine ⟨fun h => ?_, congrArg utf8⟩
  rw [← Sse.fromUtf8Lossy_utf8 s, ← Sse.fromUtf8Lossy_utf8 t]
  exact congrArg fromUtf8Lossy h

theorem uriEncode_inj {s t : Text} : uriEncode s = uriEncode t ↔ s = t := by
  rw [uriEncode, uriEncode, encodeBytes_inj, utf8_inj]

/-- What is encoded holds no separator. -/
theorem not_mem_encodeBytes {c : Char} (hkeep : isUnreserved c = false) (hpercent : c ≠ '%')
    (halnum : c.isAlphanum = false) (bytes : List UInt8) : c ∉ encodeBytes bytes := by
  intro hc
  obtain ⟨b, -, hb⟩ := List.mem_flatMap.mp hc
  rw [encodeByte] at hb
  split_ifs at hb with hkept
  · rw [← List.mem_singleton.mp hb, hkeep] at hkept
    cases hkept
  · have hlt := b.toNat_lt
    rw [percentByte, List.mem_cons, List.mem_cons, List.mem_singleton] at hb
    rcases hb with rfl | rfl | rfl
    · exact hpercent rfl
    · rw [upperHexDigit_alphanum _ (by omega)] at halnum
      cases halnum
    · rw [upperHexDigit_alphanum _ (by omega)] at halnum
      cases halnum

theorem length_decodeBytes_le (s : Text) : (decodeBytes s).length ≤ (utf8 s).length := by
  induction s using decode_induction with
  | nil => simp [decodeBytes]
  | plus rest ih =>
    rw [decodeBytes_cons (by decide), utf8_cons, List.length_append, List.length_append]
    omega
  | hex d e b rest h ih =>
    have hpos := length_utf8EncodeChar_pos '%'
    rw [decodeBytes_hex h]
    simp only [utf8_cons, List.length_cons, List.length_append]
    omega
  | percent rest h ih =>
    rw [decodeBytes_percent h, utf8_cons, List.length_append, List.length_append]
    omega
  | char c rest hplus hpercent ih =>
    rw [decodeBytes_cons hpercent, utf8_cons, List.length_append, List.length_append]
    omega

theorem escaped_cons {c : Char} {s : Text} :
    Escaped (c :: s) ↔ (c = '%' ∧ startsHex s = true) ∨ Escaped s := by
  constructor
  · rintro ⟨before, after, h, hhex⟩
    cases before with
    | nil =>
      cases h
      exact .inl ⟨rfl, hhex⟩
    | cons d before =>
      cases h
      exact .inr ⟨before, after, rfl, hhex⟩
  · rintro (⟨rfl, hhex⟩ | ⟨before, after, rfl, hhex⟩)
    · exact ⟨[], s, rfl, hhex⟩
    · exact ⟨c :: before, after, rfl, hhex⟩

/-- Decoding changes exactly the texts with an escape. -/
theorem decodeBytes_eq_utf8_iff (s : Text) : decodeBytes s = utf8 s ↔ ¬ Escaped s := by
  induction s using decode_induction with
  | nil => exact iff_of_true rfl (by rintro ⟨before, after, h, -⟩; simp at h)
  | plus rest ih =>
    rw [decodeBytes_cons (by decide), utf8_cons, List.append_right_inj, ih, escaped_cons]
    simp
  | hex d e b rest h ih =>
    refine iff_of_false (fun heq => ?_) fun hplain => ?_
    · have hlen := congrArg List.length heq
      have hle := length_decodeBytes_le rest
      have hd := length_utf8EncodeChar_pos d
      rw [decodeBytes_hex h] at hlen
      simp only [utf8_cons, List.length_cons, List.length_append,
        show (String.utf8EncodeChar '%').length = 1 by decide] at hlen
      omega
    · exact hplain (escaped_cons.mpr (.inl ⟨rfl, by rw [startsHex, h]; rfl⟩))
  | percent rest h ih =>
    rw [decodeBytes_percent h, utf8_cons, List.append_right_inj, ih, escaped_cons]
    simp [h]
  | char c rest hplus hpercent ih =>
    rw [decodeBytes_cons hpercent, utf8_cons, List.append_right_inj, ih, escaped_cons]
    simp [hpercent]

/-! ## The path -/

/-- A segment is signed as AWS signs it exactly when it has no escape. -/
theorem segment_eq_iff (seg service : Text) :
    ((let once := uriEncode seg
      if service ≠ "s3".toList then uriEncode once else once) =
      let once := encodeBytes (decodeBytes seg)
      if service = "s3".toList then once else uriEncode once) ↔ ¬ Escaped seg := by
  rw [← decodeBytes_eq_utf8_iff]
  by_cases hs3 : service = "s3".toList
  · simp only [hs3, ne_eq, not_true, if_false, if_true, uriEncode, encodeBytes_inj]
    exact eq_comm
  · simp only [hs3, ne_eq, not_false_eq_true, if_true, if_false, uriEncode_inj]
    rw [uriEncode, encodeBytes_inj]
    exact eq_comm

/-- Texts that hold no separator are told apart when they are joined. -/
theorem intercalate_inj {sep : Char} {ss ts : List Text} (hss : ∀ s ∈ ss, sep ∉ s)
    (hts : ∀ t ∈ ts, sep ∉ t) (hne : ss ≠ []) (hne' : ts ≠ []) :
    List.intercalate [sep] ss = List.intercalate [sep] ts ↔ ss = ts := by
  refine ⟨fun h => ?_, congrArg _⟩
  rw [← List.splitOn_intercalate sep hss hne, h, List.splitOn_intercalate sep hts hne']

theorem slash_notMem (bytes : List UInt8) : '/' ∉ encodeBytes bytes :=
  not_mem_encodeBytes (by decide) (by decide) (by decide) bytes

theorem canonicalUri_eq_iff (path service : Text) :
    canonicalUri path service = awsUri path service ↔ ∀ seg ∈ path.splitOn '/', ¬ Escaped seg := by
  rw [canonicalUri, awsUri]
  by_cases hpath : path = []
  · subst hpath
    refine iff_of_true rfl fun seg hseg => ?_
    obtain rfl : seg = [] := by simpa using hseg
    rintro ⟨before, after, h, -⟩
    simp at h
  · have hne : path.splitOn '/' ≠ [] := List.splitOn_ne_nil '/' path
    rw [if_neg hpath, if_neg hpath, intercalate_inj ?_ ?_ (by simp [hne]) (by simp [hne]),
      List.map_inj_left]
    · exact forall₂_congr fun seg _ => segment_eq_iff seg service
    · intro s hs
      obtain ⟨seg, -, rfl⟩ := List.mem_map.mp hs
      simp only
      split_ifs <;> exact slash_notMem _
    · intro s hs
      obtain ⟨seg, -, rfl⟩ := List.mem_map.mp hs
      simp only
      split_ifs <;> exact slash_notMem _

/-! ## The query -/

/-- A parameter as it is written. -/
def writtenPair (p : List UInt8 × List UInt8) : Text × Text :=
  (uriEncode (fromUtf8Lossy p.1), uriEncode (fromUtf8Lossy p.2))

/-- What a parameter is once it has gone through a string. -/
def lossyPair (p : List UInt8 × List UInt8) : List UInt8 × List UInt8 :=
  (utf8 (fromUtf8Lossy p.1), utf8 (fromUtf8Lossy p.2))

theorem canonicalQuery_eq (query : Text) :
    canonicalQuery query = renderPairs (sortPairs ((decodedParams query).map writtenPair)) := by
  rw [canonicalQuery]
  split_ifs with hempty
  · subst hempty
    simp [decodedParams, pieces, sortPairs, sortBy, renderPairs]
  · rw [decodedParams, List.map_map]
    rfl

/-- Parameters in any order are sorted alike. -/
theorem sortPairs_perm {ps qs : List (Text × Text)} (h : ps.Perm qs) : sortPairs ps = sortPairs qs := by
  have hperm : (sortPairs ps).Perm (sortPairs qs) :=
    (sortBy_perm _ ps).trans (h.trans (sortBy_perm _ qs).symm)
  refine hperm.eq_of_pairwise (fun a b _ _ hab hba => ?_) (pairwise_sortBy _ ps)
    (pairwise_sortBy _ qs)
  exact toLex.injective (le_antisymm hab hba)

theorem canonicalQuery_perm {query query' : Text}
    (h : (decodedParams query').Perm (decodedParams query)) :
    canonicalQuery query' = canonicalQuery query := by
  rw [canonicalQuery_eq, canonicalQuery_eq, sortPairs_perm (h.map writtenPair)]

theorem splitPair_append {k v : Text} (hk : '=' ∉ k) : splitPair (k ++ '=' :: v) = (k, v) := by
  have hkeep : ∀ c ∈ k, decide (c ≠ '=') = true := by
    intro c hc
    simpa using fun h : c = '=' => hk (h ▸ hc)
  rw [splitPair, List.takeWhile_append_of_pos hkeep, List.dropWhile_append_of_pos hkeep]
  simp

/-- Pairs without separators are read back from the query they are written to. -/
theorem decodedParams_renderPairs {ps : List (Text × Text)}
    (h : ∀ p ∈ ps, '=' ∉ p.1 ∧ '&' ∉ p.1 ∧ '&' ∉ p.2) :
    decodedParams (renderPairs ps) = ps.map fun p => (decodeBytes p.1, decodeBytes p.2) := by
  have hpieces : pieces (renderPairs ps) = ps.map fun p => p.1 ++ '=' :: p.2 := by
    by_cases hnil : ps = []
    · subst hnil
      simp [renderPairs, pieces]
    · rw [pieces, renderPairs, List.splitOn_intercalate '&' ?_ (by simpa using hnil)]
      · rw [List.filter_eq_self]
        intro piece hpiece
        obtain ⟨p, -, rfl⟩ := List.mem_map.mp hpiece
        simp
      · intro piece hpiece
        obtain ⟨p, hp, rfl⟩ := List.mem_map.mp hpiece
        simp [(h p hp).2.1, (h p hp).2.2]
  rw [decodedParams, hpieces, List.map_map]
  refine List.map_congr_left fun p hp => ?_
  simp only [Function.comp_apply, splitPair_append (h p hp).1]

theorem decodedParams_canonicalQuery (query : Text) :
    (decodedParams (canonicalQuery query)).Perm ((decodedParams query).map lossyPair) := by
  have hclean : ∀ p ∈ sortPairs ((decodedParams query).map writtenPair),
      '=' ∉ p.1 ∧ '&' ∉ p.1 ∧ '&' ∉ p.2 := by
    intro p hp
    rw [sortPairs, mem_sortBy] at hp
    obtain ⟨d, -, rfl⟩ := List.mem_map.mp hp
    refine ⟨?_, ?_, ?_⟩ <;>
      exact not_mem_encodeBytes (by decide) (by decide) (by decide) _
  rw [canonicalQuery_eq, decodedParams_renderPairs hclean]
  refine ((sortBy_perm _ _).map _).trans (.of_eq ?_)
  rw [List.map_map]
  refine List.map_congr_left fun d _ => ?_
  simp only [Function.comp_apply, writtenPair, uriEncode, decodeBytes_encodeBytes, lossyPair]

theorem writtenPair_lossyPair (p : List UInt8 × List UInt8) :
    writtenPair (lossyPair p) = writtenPair p := by
  have hstable : ∀ bytes, fromUtf8Lossy (utf8 (fromUtf8Lossy bytes)) = fromUtf8Lossy bytes :=
    fun bytes => Sse.fromUtf8Lossy_utf8 _
  simp only [writtenPair, lossyPair, hstable]

theorem canonicalQuery_canonicalQuery (query : Text) :
    canonicalQuery (canonicalQuery query) = canonicalQuery query := by
  have hperm := (decodedParams_canonicalQuery query).map writtenPair
  rw [List.map_map, show writtenPair ∘ lossyPair = writtenPair from
    funext writtenPair_lossyPair] at hperm
  rw [canonicalQuery_eq (canonicalQuery query), sortPairs_perm hperm, ← canonicalQuery_eq]

/-- Only well-formed parameters are listed as they are. -/
theorem map_lossyPair_perm_iff {ps : List (List UInt8 × List UInt8)} :
    (ps.map lossyPair).Perm ps ↔ ∀ p ∈ ps, WellFormed p.1 ∧ WellFormed p.2 := by
  constructor
  · intro hperm p hp
    obtain ⟨q, -, rfl⟩ := List.mem_map.mp (hperm.mem_iff.mpr hp)
    exact ⟨⟨_, rfl⟩, ⟨_, rfl⟩⟩
  · intro hformed
    refine .of_eq ((List.map_congr_left fun p hp => ?_).trans (List.map_id ps))
    have hkept : ∀ bytes, WellFormed bytes → utf8 (fromUtf8Lossy bytes) = bytes := by
      rintro - ⟨s, rfl⟩
      exact congrArg utf8 (Sse.fromUtf8Lossy_utf8 s)
    exact Prod.ext (hkept _ (hformed p hp).1) (hkept _ (hformed p hp).2)

/-! ## The canonical request -/

/-- The path is signed as AWS signs it. The query does not depend on the order and the escapes of
its parameters, is stable, and lists exactly its parameters. -/
structure Canonical (req : SigV4Request) : Prop where
  uri : canonicalUri req.path req.service = awsUri req.path req.service
  reordered : ∀ query', (decodedParams query').Perm (decodedParams req.query) →
    canonicalQuery query' = canonicalQuery req.query
  stable : canonicalQuery (canonicalQuery req.query) = canonicalQuery req.query
  listed : (decodedParams (canonicalQuery req.query)).Perm (decodedParams req.query)

/-- A signed request is canonical exactly when the path has no escape that would be encoded again,
and the decoded parameters are well-formed. -/
theorem canonical_request_iff (auth : AwsSigV4Auth) (url : ParsedUrl) :
    Canonical (sigV4Request auth url) ↔
      (∀ seg ∈ url.path.splitOn '/', ¬ Escaped seg) ∧
        ∀ p ∈ decodedParams (url.query.getD []), WellFormed p.1 ∧ WellFormed p.2 := by
  have hlisted := decodedParams_canonicalQuery (url.query.getD [])
  constructor
  · intro h
    exact ⟨(canonicalUri_eq_iff _ _).mp h.uri,
      map_lossyPair_perm_iff.mp (hlisted.symm.trans h.listed)⟩
  · rintro ⟨hpath, hparams⟩
    exact ⟨(canonicalUri_eq_iff _ _).mpr hpath, fun query' => canonicalQuery_perm,
      canonicalQuery_canonicalQuery _, hlisted.trans (map_lossyPair_perm_iff.mpr hparams)⟩

/-- An object of S3 with a blank in its name. -/
theorem s3_path_encoded_twice : ¬ ∀ (auth : AwsSigV4Auth) (url : ParsedUrl),
    Canonical (sigV4Request auth url) := by
  intro h
  have huri := (h ⟨"k", "s", false, "", false, "us-east-1", "s3", true⟩
    ⟨"/a%20b".toList, none⟩).uri
  exact absurd huri (by decide)

example : canonicalUri "/a%20b".toList "s3".toList = "/a%2520b".toList := by decide

end Voleeo.SigV4
