import Voleeo.AuthSyntax
import Voleeo.Curl.Parse
import Voleeo.Httpie.Items
import Voleeo.Send.Paths

/-!
# Base64 there and back

What `btoa` writes is read by `atob` as the same bytes, and no blank is in it.
-/
namespace Voleeo.Curl
open Resolve (base64Encode base64Digit base64Value base64Value_base64Digit)

/-- The digits that are written for some bytes, and the padding behind them. -/
structure Written64 (bytes : List UInt8) (digits padding : Text) : Prop where
  eq : base64Encode bytes = digits ++ padding
  digit : ∀ c ∈ digits, base64Value c < 64
  ends : padding = [] ∨ padding = ['='] ∨ padding = ['=', '=']
  whole : digits.length % 4 + padding.length = if padding = [] then 0 else 4
  read : sextetBytes (digits.map base64Value) = bytes

theorem plain_of_digit {c : Char} (h : base64Value c < 64) :
    c ≠ '=' ∧ isJsSpace c = false ∧ isAsciiSpace c = false ∧ isLineTerminator c = false := by
  have hmem := List.idxOf_lt_length_iff.mp h
  have hall : ∀ c ∈ "ABCDEFGHIJKLMNOPQRSTUVWXYZabcdefghijklmnopqrstuvwxyz0123456789+/".toList,
      c ≠ '=' ∧ isJsSpace c = false ∧ isAsciiSpace c = false ∧ isLineTerminator c = false := by
    decide
  exact hall c hmem

theorem base64Value_digit_lt {n : ℕ} (h : n < 64) : base64Value (base64Digit n) < 64 := by
  rw [base64Value_base64Digit n h]
  exact h

attribute [local simp] sextetBytes

theorem sextetBytes_group {b0 b1 b2 : UInt8} {n : ℕ}
    (h : n = b0.toNat * 65536 + b1.toNat * 256 + b2.toNat) (rest : List ℕ) :
    sextetBytes (n / 262144 :: n / 4096 % 64 :: n / 64 % 64 :: n % 64 :: rest) =
      b0 :: b1 :: b2 :: sextetBytes rest := by
  have h0 := b0.toNat_lt
  have h1 := b1.toNat_lt
  have h2 := b2.toNat_lt
  have hn : n / 262144 * 262144 + n / 4096 % 64 * 4096 + n / 64 % 64 * 64 + n % 64 = n := by omega
  have hhigh : n / 65536 = b0.toNat := by omega
  have hmid : n / 256 % 256 = b1.toNat := by omega
  have hlow : n % 256 = b2.toNat := by omega
  simp only [sextetBytes, hn, hhigh, hmid, hlow, UInt8.ofNat_toNat]

theorem exists_written64 (bytes : List UInt8) :
    ∃ digits padding, Written64 bytes digits padding := by
  induction bytes using Resolve.base64Encode.induct with
  | case1 => exact ⟨[], [], rfl, by simp, .inl rfl, rfl, rfl⟩
  | case2 b0 =>
    have h0 := b0.toNat_lt
    have hhigh : b0.toNat * 65536 / 262144 < 64 := by omega
    have hlow : b0.toNat * 65536 / 4096 % 64 < 64 := by omega
    refine ⟨[_, _], ['=', '='], rfl, ?_, .inr (.inr rfl), rfl, ?_⟩
    · simpa using ⟨base64Value_digit_lt hhigh, base64Value_digit_lt hlow⟩
    · have hb : (b0.toNat * 65536 / 262144 * 262144 + b0.toNat * 65536 / 4096 % 64 * 4096) /
          65536 = b0.toNat := by omega
      simp only [List.map_cons, List.map_nil, base64Value_base64Digit _ hhigh,
        base64Value_base64Digit _ hlow, sextetBytes, hb, UInt8.ofNat_toNat]
  | case3 b0 b1 =>
    have h0 := b0.toNat_lt
    have h1 := b1.toNat_lt
    have hhigh : (b0.toNat * 65536 + b1.toNat * 256) / 262144 < 64 := by omega
    have hmid : (b0.toNat * 65536 + b1.toNat * 256) / 4096 % 64 < 64 := by omega
    have hlow : (b0.toNat * 65536 + b1.toNat * 256) / 64 % 64 < 64 := by omega
    refine ⟨[_, _, _], ['='], rfl, ?_, .inr (.inl rfl), rfl, ?_⟩
    · simpa using ⟨base64Value_digit_lt hhigh, base64Value_digit_lt hmid, base64Value_digit_lt hlow⟩
    · have hn : (b0.toNat * 65536 + b1.toNat * 256) / 262144 * 262144 +
          (b0.toNat * 65536 + b1.toNat * 256) / 4096 % 64 * 4096 +
          (b0.toNat * 65536 + b1.toNat * 256) / 64 % 64 * 64 =
          b0.toNat * 65536 + b1.toNat * 256 := by omega
      have hb0 : (b0.toNat * 65536 + b1.toNat * 256) / 65536 = b0.toNat := by omega
      have hb1 : (b0.toNat * 65536 + b1.toNat * 256) / 256 % 256 = b1.toNat := by omega
      simp only [List.map_cons, List.map_nil, base64Value_base64Digit _ hhigh,
        base64Value_base64Digit _ hmid, base64Value_base64Digit _ hlow, sextetBytes, hn, hb0,
        hb1, UInt8.ofNat_toNat]
  | case4 b0 b1 b2 rest ih =>
    obtain ⟨digits, padding, h⟩ := ih
    obtain ⟨n, hn⟩ : ∃ n, n = b0.toNat * 65536 + b1.toNat * 256 + b2.toNat := ⟨_, rfl⟩
    have h0 := b0.toNat_lt
    have h1 := b1.toNat_lt
    have h2 := b2.toNat_lt
    have hfirst : n / 262144 < 64 := by omega
    have hlt (m : ℕ) : m % 64 < 64 := Nat.mod_lt m (by decide)
    refine ⟨base64Digit (n / 262144) :: base64Digit (n / 4096 % 64) ::
      base64Digit (n / 64 % 64) :: base64Digit (n % 64) :: digits, padding, ?_, ?_, h.ends,
      ?_, ?_⟩
    · rw [base64Encode, h.eq, hn]
      rfl
    · intro c hc
      simp only [List.mem_cons] at hc
      rcases hc with rfl | rfl | rfl | rfl | hc
      · exact base64Value_digit_lt hfirst
      · exact base64Value_digit_lt (hlt _)
      · exact base64Value_digit_lt (hlt _)
      · exact base64Value_digit_lt (hlt _)
      · exact h.digit c hc
    · rw [← h.whole]
      simp only [List.length_cons]
      omega
    · simp only [List.map_cons, base64Value_base64Digit _ hfirst, base64Value_base64Digit _ (hlt _)]
      rw [sextetBytes_group hn, h.read]

/-- No blank is in base64. -/
theorem base64Encode_plain {bytes : List UInt8} {c : Char} (hc : c ∈ base64Encode bytes) :
    isJsSpace c = false ∧ isAsciiSpace c = false ∧ isLineTerminator c = false := by
  obtain ⟨digits, padding, h⟩ := exists_written64 bytes
  rw [h.eq, List.mem_append] at hc
  rcases hc with hc | hc
  · exact (plain_of_digit (h.digit c hc)).2
  · have hpad : c = '=' := by
      rcases h.ends with rfl | rfl | rfl <;> simp at hc
      all_goals exact hc
    subst hpad
    decide

theorem atob_base64Encode (bytes : List UInt8) : atob (base64Encode bytes) = some bytes := by
  obtain ⟨digits, padding, h⟩ := exists_written64 bytes
  have hfilter : (base64Encode bytes).filter (fun c => !isAsciiSpace c) = digits ++ padding := by
    rw [← h.eq]
    refine List.filter_eq_self.mpr fun c hc => ?_
    rw [(base64Encode_plain hc).2.1]
    rfl
  have hend : ¬ ['='] <:+ digits := by
    intro hsuffix
    exact (plain_of_digit (h.digit '=' (hsuffix.subset List.mem_cons_self))).1 rfl
  have hwhole := h.whole
  have hdata : (if (digits ++ padding).length % 4 = 0 then
      if ['=', '='] <:+ digits ++ padding then (digits ++ padding).dropLast.dropLast
      else if ['='] <:+ digits ++ padding then (digits ++ padding).dropLast
      else digits ++ padding
    else digits ++ padding) = digits := by
    rcases h.ends with rfl | rfl | rfl
    · have htwo : ¬ ['=', '='] <:+ digits := fun hs =>
        hend ((List.suffix_cons '=' ['=']).trans hs)
      rw [List.append_nil, if_neg htwo, if_neg hend, ite_self]
    · have hlen : (digits ++ ['=']).length % 4 = 0 := by
        simp at hwhole ⊢
        omega
      have htwo : ¬ ['=', '='] <:+ digits ++ ['='] := by
        intro hs
        obtain ⟨t, ht⟩ := hs
        have hsplit : (t ++ ['=']) ++ ['='] = digits ++ ['='] := by
          rw [← ht, List.append_assoc]
          rfl
        exact hend ⟨t, List.append_cancel_right hsplit⟩
      rw [if_pos hlen, if_neg htwo, if_pos (List.suffix_append _ _), List.dropLast_concat]
    · have hlen : (digits ++ ['=', '=']).length % 4 = 0 := by
        simp at hwhole ⊢
        omega
      rw [if_pos hlen, if_pos (List.suffix_append _ _)]
      simp
  rw [atob, hfilter]
  simp only [hdata]
  rw [if_neg, h.read]
  rintro (hone | hany)
  · rcases h.ends with rfl | rfl | rfl <;> simp at hwhole <;> omega
  · obtain ⟨c, hc, hbad⟩ := List.any_eq_true.mp hany
    exact absurd (h.digit c hc) (by simpa using hbad)

end Voleeo.Curl

/-!
## The Authorization header

What curl sends for its options, and what the app sends for the request that it
read from them.
-/
namespace Voleeo.Curl
open Httpie (ParsedParameter ParsedAuth ParsedRequest basicAuth)
open Resolve (base64Encode splitOnce)
open Send (ResolveCtx applyAuth)

/-! ### Values -/

def basicValue (creds : Text) : Text := "Basic ".toList ++ base64Encode (utf8 creds)

def bearerValue (token : Text) : Text := "Bearer ".toList ++ token

/-- User and password, joined again. -/
def padded (creds : Text) : Text := if ':' ∈ creds then creds else creds ++ [':']

def credentialTexts : ParsedAuth → List Text
  | .none => []
  | .basic username password => [username, password]
  | .bearer token => [token]

/-- The auth of the request, as the send pipeline gets it. -/
def authConfig : ParsedAuth → AuthConfig
  | .none => .none
  | .basic username password =>
    .basic {
      username := String.ofList username
      password := String.ofList password
      passwordEncrypted := false
      enabled := true }
  | .bearer token =>
    .bearer { token := String.ofList token, tokenEncrypted := false, enabled := true }

def authorizationValues (headers : List ParsedParameter) : List Text :=
  (headers.filter (isNamed "authorization".toList)).map (·.value)

theorem authorizationValues_cons (h : ParsedParameter) (headers : List ParsedParameter) :
    authorizationValues (h :: headers) =
      if isNamed "authorization".toList h then h.value :: authorizationValues headers
      else authorizationValues headers := by
  rw [authorizationValues, List.filter_cons]
  cases isNamed "authorization".toList h <;> rfl

/-- The values of the headers, and of what the auth adds. -/
def sentAuthorization (ctx : ResolveCtx) (r : ParsedRequest) :
    Except Template.Rejection (List Text) := do
  let applied ← applyAuth ctx (authConfig r.auth)
  let added := applied.headers.map fun h => ⟨h.name.toList, h.value.toList, h.enabled⟩
  return authorizationValues (r.headers ++ added)

/-- What an auth adds without templates. -/
def addedValues : ParsedAuth → List Text
  | .none => []
  | .basic username password => [basicValue (username ++ ':' :: password)]
  | .bearer token => [bearerValue token]

theorem basicValue_eq (username password : Text) {creds : String}
    (h : creds = s!"{String.ofList username}:{String.ofList password}") :
    s!"Basic {Send.utf8Base64 creds}" =
      String.ofList (basicValue (username ++ ':' :: password)) := by
  subst h
  have hcreds : (String.ofList username ++ ":" ++ String.ofList password).toList =
      username ++ ':' :: password := by
    simp only [String.toList_append]
    rw [@String.toList_ofList username, @String.toList_ofList password, List.append_assoc]
    rfl
  have hvalue : ("Basic " ++ Send.utf8Base64 (String.ofList username ++ ":" ++
      String.ofList password)).toList = basicValue (username ++ ':' :: password) := by
    rw [Send.utf8Base64, hcreds]
    simp only [String.toList_append]
    exact congrArg _ String.toList_ofList
  exact String.toList_inj.mp (hvalue.trans String.toList_ofList.symm)

theorem bearerValue_eq (token : Text) :
    s!"Bearer {String.ofList token}" = String.ofList (bearerValue token) := by
  have h : ("Bearer " ++ String.ofList token).toList = bearerValue token := by
    simp only [String.toList_append]
    exact congrArg _ String.toList_ofList
  exact String.toList_inj.mp (h.trans String.toList_ofList.symm)

theorem applyAuth_plain {ctx : ResolveCtx} {auth : ParsedAuth}
    (h : ∀ text ∈ credentialTexts auth, ¬ ['{', '{'] <:+: text) :
    applyAuth ctx (authConfig auth) = .ok {
      headers := (addedValues auth).map fun v =>
        Send.authHeader "Authorization" (String.ofList v) } := by
  have hresolve : ∀ text ∈ credentialTexts auth, ∀ site,
      Send.resolveString ctx site (String.ofList text) = .ok (String.ofList text) := by
    intro text htext site
    rw [Send.resolveString, String.toList_ofList, Send.resolve_plain (h text htext)]
    rfl
  cases auth with
  | none => rfl
  | basic username password =>
    have huser := hresolve username (by simp [credentialTexts])
    have hpass := hresolve password (by simp [credentialTexts])
    have hvalue := basicValue_eq username password rfl
    simp only [authConfig, applyAuth, huser, hpass, addedValues, List.map_cons, List.map_nil,
      ← hvalue]
    rfl
  | bearer token =>
    have htoken := hresolve token (by simp [credentialTexts])
    simp only [authConfig, applyAuth, htoken, addedValues, List.map_cons, List.map_nil,
      ← bearerValue_eq]
    rfl

theorem sentAuthorization_plain {ctx : ResolveCtx} {r : ParsedRequest}
    (h : ∀ text ∈ credentialTexts r.auth, ¬ ['{', '{'] <:+: text) :
    sentAuthorization ctx r = .ok (authorizationValues r.headers ++ addedValues r.auth) := by
  rw [sentAuthorization, applyAuth_plain h]
  show Except.ok _ = _
  rw [List.map_map, authorizationValues, List.filter_append, List.map_append]
  refine congrArg (fun values => Except.ok (authorizationValues r.headers ++ values)) ?_
  induction addedValues r.auth with
  | nil => rfl
  | cons v values ih =>
    have hname : isNamed "authorization".toList ⟨"Authorization".toList, v, true⟩ = true := by
      simp only [isNamed]
      decide
    rw [List.map_cons, List.filter_cons_of_pos, List.map_cons, ih]
    · simp [Send.authHeader]
    · simpa [Send.authHeader] using hname

/-! ### Options of curl -/

/-- `Name: value`, with blanks between them. -/
structure CustomHeader where
  name : Text
  gap : Text
  value : Text
  named : name ≠ [] ∧ ∀ c ∈ name, isTokenChar c = true
  blank : ∀ c ∈ gap, c = ' ' ∨ c = '\t'
  valued : value ≠ [] ∧ ∀ c ∈ value.head?, c ≠ ' ' ∧ c ≠ '\t'
  one_line : '\n' ∉ value ∧ '\r' ∉ value

namespace CustomHeader

def raw (h : CustomHeader) : Text := h.name ++ ':' :: (h.gap ++ h.value)

/-- The value, if the header is an `Authorization`. -/
def authorization (h : CustomHeader) : Option Text :=
  if h.name.map Char.toLower = "authorization".toList then some h.value else none

end CustomHeader

/-- Flags with a value that have no part in authentication. -/
def otherValueFlags : List Text :=
  ["-X".toList, "--request".toList, "-d".toList, "--data".toList, "--data-raw".toList,
    "--data-binary".toList, "--data-ascii".toList, "--data-urlencode".toList,
    "--url".toList] ++ SKIP_VALUE_FLAGS

/-- Flags that take credentials, or that choose another scheme or source for them. -/
def schemeFlags : List Text :=
  ["--header".toList, "--user".toList, "--anyauth".toList, "--aws-sigv4".toList,
    "--config".toList, "--digest".toList, "--negotiate".toList, "--netrc".toList,
    "--netrc-file".toList, "--netrc-optional".toList, "--ntlm".toList,
    "--oauth2-bearer".toList, "-K".toList, "-n".toList]

/-- One argument of a command. The value of a short flag may be attached to it. -/
inductive CurlArg
  | header (long : Bool) (h : CustomHeader)
  | attachedHeader (h : CustomHeader)
  | user (long : Bool) (creds : Text)
  | attachedUser (creds : Text) (hcreds : creds ≠ [])
  | valued (flag value : Text) (hflag : flag ∈ otherValueFlags)
  /-- A word that curl takes for itself and that has no part in authentication. -/
  | other (word : Text) (hdash : word.head? = some '-')
      (hword : word ∉ schemeFlags ++ otherValueFlags)
      (happart : ¬ "-H".toList <+: word ∧ ¬ "-u".toList <+: word)
  | url (word : Text) (hdash : word.head? ≠ some '-')

namespace CurlArg

def words : CurlArg → List Text
  | header long h => [if long then "--header".toList else "-H".toList, h.raw]
  | attachedHeader h => ["-H".toList ++ h.raw]
  | user long creds => [if long then "--user".toList else "-u".toList, creds]
  | attachedUser creds _ => ["-u".toList ++ creds]
  | valued flag value _ => [flag, value]
  | other word _ _ _ => [word]
  | url word _ => [word]

/-- The value of a custom `Authorization` header. -/
def custom : CurlArg → Option Text
  | header _ h => h.authorization
  | attachedHeader h => h.authorization
  | _ => none

def credentials : CurlArg → Option Text
  | user _ creds => some creds
  | attachedUser creds _ => some creds
  | _ => none

/-- The values that stand in a word of their own. -/
def isApart : CurlArg → Bool
  | attachedHeader _ => false
  | attachedUser _ _ => false
  | _ => true

end CurlArg

/-- curl asks for the password when there is only a user name. -/
def complete (ask : Text → Text) (creds : Text) : Text :=
  if ':' ∈ creds then creds else creds ++ ':' :: ask creds

/-- What curl sends: the custom headers, or else the credentials of the last `-u`. -/
def curlAuthorization (ask : Text → Text) (args : List CurlArg) : List Text :=
  let custom := args.filterMap CurlArg.custom
  if custom ≠ [] then custom
  else
    match (args.filterMap CurlArg.credentials).getLast? with
    | none => []
    | some creds => [basicValue (complete ask creds)]

def apart (args : List CurlArg) : List CurlArg := args.filter CurlArg.isApart

def attached (args : List CurlArg) : List CurlArg := args.filter fun a => !a.isApart

/-! ### What the loop reads -/

theorem mem_of_valueFlag {t : Text} {flag : ValueFlag} (h : valueFlag t = some flag) :
    t ∈ ["-H".toList, "--header".toList, "-u".toList, "--user".toList] ++ otherValueFlags := by
  rw [valueFlag] at h
  split_ifs at h with hmethod hheader hdata hencode huser hurl hskip
  · rcases hmethod with rfl | rfl <;> decide
  · rcases hheader with rfl | rfl <;> decide
  · rcases hdata with rfl | rfl | rfl | rfl | rfl <;> decide
  · subst hencode
    decide
  · rcases huser with rfl | rfl <;> decide
  · subst hurl
    decide
  · exact List.mem_append_right _ (List.mem_append_right _ hskip)

theorem valueFlag_other {t : Text} (h : t ∈ otherValueFlags) :
    ∃ flag, valueFlag t = some flag ∧ flag ≠ .header ∧ flag ≠ .user := by
  have hall : ∀ t ∈ otherValueFlags, (valueFlag t).any
      (fun flag => decide (flag ≠ .header ∧ flag ≠ .user)) = true := by decide
  have hflag := hall t h
  cases hread : valueFlag t with
  | none => simp [hread] at hflag
  | some flag =>
    rw [hread] at hflag
    exact ⟨flag, rfl, of_decide_eq_true hflag⟩

theorem valueFlag_attached {first : Char} {rest : Text} (hfirst : first ≠ '-') (hrest : rest ≠ []) :
    valueFlag ('-' :: first :: rest) = none := by
  have hall : ∀ t ∈ ["-H".toList, "--header".toList, "-u".toList, "--user".toList] ++
      otherValueFlags, t.length = 2 ∨ t.tail.head? = some '-' := by decide
  cases hflag : valueFlag ('-' :: first :: rest) with
  | none => rfl
  | some flag =>
    rcases hall _ (mem_of_valueFlag hflag) with hlen | hdash
    · exact absurd (List.length_eq_zero_iff.mp (by simpa using hlen)) hrest
    · exact absurd (Option.some.inj hdash) hfirst

theorem splitHeader_raw (h : CustomHeader) :
    splitHeader h.raw = some ⟨h.name, trimStart h.value, true⟩ := by
  have hplain : ∀ c ∈ h.name, c ≠ ':' ∧ isJsSpace c = false := by
    intro c hc
    have htoken := h.named.2 c hc
    have hrange := isTokenChar_range htoken
    refine ⟨?_, ?_⟩
    · rintro rfl
      exact absurd htoken (by decide)
    · simp [isJsSpace]
      omega
  have hname : trim h.name = h.name :=
    trim_of_ends (fun c hc => (hplain c (List.mem_of_mem_head? hc)).2)
      fun c hc => (hplain c (List.mem_of_mem_getLast? hc)).2
  have hvalue : trimStart (h.gap ++ h.value) = trimStart h.value := by
    refine trimStart_space _ _ fun c hc => ?_
    rcases h.blank c hc with rfl | rfl <;> decide
  have hsplit : splitOnce [':'] h.raw = some (h.name, h.gap ++ h.value) :=
    Httpie.splitOnce_of_not_mem fun hmem => (hplain ':' hmem).1 rfl
  rw [splitHeader, hsplit]
  simp only [hname, if_neg h.named.1, hvalue]

/-- The header that the loop reads from an argument. -/
def CurlArg.parsed : CurlArg → Option ParsedParameter
  | .header _ h => some ⟨h.name, trimStart h.value, true⟩
  | _ => none

/-- The credentials that the loop reads from an argument. -/
def CurlArg.parsedCreds : CurlArg → Option Text
  | .user _ creds => some creds
  | _ => none

namespace Arguments
variable {upper : Text → Text}

theorem readWords_lone {st : Arguments} {t : Text} (h : valueFlag t = none) (rest : List Text) :
    readWords upper st (t :: rest) = readWords upper (st.readLone t) rest := by
  cases rest with
  | nil => simp [readWords, h]
  | cons v rest => rw [readWords, h]

theorem readWords_value {st : Arguments} {t v : Text} {flag : ValueFlag}
    (h : valueFlag t = some flag) (rest : List Text) :
    readWords upper st (t :: v :: rest) =
      readWords upper (st.readValue upper flag (some v)) rest := by
  rw [readWords, h]

/-- One argument. -/
theorem readWords_arg (st : Arguments) (a : CurlArg) (rest : List Text) :
    ∃ next : Arguments, readWords upper st (a.words ++ rest) = readWords upper next rest ∧
      next.headers = st.headers ++ a.parsed.toList ∧
      next.basicCreds = a.parsedCreds.or st.basicCreds := by
  have hlone : ∀ t, valueFlag t = none → a.words = [t] → a.parsed = none → a.parsedCreds = none →
      ∃ next : Arguments, readWords upper st (a.words ++ rest) = readWords upper next rest ∧
        next.headers = st.headers ++ a.parsed.toList ∧
        next.basicCreds = a.parsedCreds.or st.basicCreds := by
    intro t ht hwords hparsed hcreds
    refine ⟨st.readLone t, ?_, ?_, ?_⟩
    · rw [hwords]
      exact readWords_lone ht rest
    · rw [hparsed, readLone]
      split_ifs <;> simp
    · rw [hcreds, readLone]
      split_ifs <;> rfl
  cases a with
  | header long h =>
    have hflag : valueFlag (if long then "--header".toList else "-H".toList) = some .header := by
      cases long <;> decide
    refine ⟨_, readWords_value hflag rest, ?_, rfl⟩
    simp [readValue, splitHeader_raw, CurlArg.parsed]
  | attachedHeader h =>
    have hraw : h.raw ≠ [] := by
      rw [CustomHeader.raw]
      simp
    exact hlone _ (valueFlag_attached (by decide) hraw) rfl rfl rfl
  | user long creds =>
    have hflag : valueFlag (if long then "--user".toList else "-u".toList) = some .user := by
      cases long <;> decide
    refine ⟨_, readWords_value hflag rest, ?_, rfl⟩
    simp [readValue, CurlArg.parsed]
  | attachedUser creds hcreds =>
    exact hlone _ (valueFlag_attached (by decide) hcreds) rfl rfl rfl
  | valued flag value hflag =>
    obtain ⟨kind, hkind, hheader, huser⟩ := valueFlag_other hflag
    refine ⟨_, readWords_value hkind rest, ?_, ?_⟩
    · cases kind <;> simp_all [readValue, addBody, CurlArg.parsed]
    · cases kind <;> simp_all [readValue, addBody, CurlArg.parsedCreds]
  | other word hdash hword happart =>
    refine hlone word ?_ rfl rfl rfl
    cases hflag : valueFlag word with
    | none => rfl
    | some flag =>
      simp only [List.mem_append, not_or] at hword
      rcases List.mem_append.mp (mem_of_valueFlag hflag) with hmem | hmem
      · simp only [List.mem_cons, List.not_mem_nil, or_false] at hmem
        rcases hmem with rfl | rfl | rfl | rfl
        · exact absurd (List.prefix_refl _) happart.1
        · exact absurd (by decide) hword.1
        · exact absurd (List.prefix_refl _) happart.2
        · exact absurd (by decide) hword.1
      · exact absurd hmem hword.2
  | url word hdash =>
    refine hlone word ?_ rfl rfl rfl
    have hall : ∀ t ∈ ["-H".toList, "--header".toList, "-u".toList, "--user".toList] ++
        otherValueFlags, t.head? = some '-' := by decide
    cases hflag : valueFlag word with
    | none => rfl
    | some flag => exact absurd (hall word (mem_of_valueFlag hflag)) hdash

end Arguments

variable {upper : Text → Text}

theorem readWords_args (args : List CurlArg) (st : Arguments) :
    (Arguments.readWords upper st (args.flatMap CurlArg.words)).headers =
        st.headers ++ args.filterMap CurlArg.parsed ∧
      (Arguments.readWords upper st (args.flatMap CurlArg.words)).basicCreds =
        (args.filterMap CurlArg.parsedCreds).getLast?.or st.basicCreds := by
  induction args generalizing st with
  | nil => simp [Arguments.readWords]
  | cons a args ih =>
    obtain ⟨next, hread, hheaders, hcreds⟩ :=
      @Arguments.readWords_arg upper st a (args.flatMap CurlArg.words)
    rw [List.flatMap_cons, hread, (ih next).1, (ih next).2, hheaders, hcreds]
    refine ⟨?_, ?_⟩
    · cases hparsed : a.parsed <;> simp [hparsed]
    · cases hparsed : a.parsedCreds with
      | none => simp [hparsed]
      | some creds =>
        rw [List.filterMap_cons_some hparsed, List.getLast?_cons]
        cases (args.filterMap CurlArg.parsedCreds).getLast? <;> simp

theorem authorizationValues_parsed (args : List CurlArg) :
    authorizationValues (args.filterMap CurlArg.parsed) =
      ((apart args).filterMap CurlArg.custom).map trimStart := by
  induction args with
  | nil => rfl
  | cons a args ih =>
    cases a with
    | header long h =>
      have hnamed : isNamed "authorization".toList ⟨h.name, trimStart h.value, true⟩ =
          decide (h.name.map Char.toLower = "authorization".toList) := by
        rw [isNamed, Bool.eq_iff_iff, beq_iff_eq, decide_eq_true_iff]
      have hparsed : (CurlArg.header long h).parsed = some ⟨h.name, trimStart h.value, true⟩ := rfl
      have hcustom : (CurlArg.header long h).custom = h.authorization := rfl
      have hapart : apart (.header long h :: args) = .header long h :: apart args := rfl
      rw [hapart, List.filterMap_cons_some hparsed, authorizationValues_cons, hnamed, ih,
        List.filterMap_cons, hcustom, CustomHeader.authorization]
      by_cases hname : h.name.map Char.toLower = "authorization".toList
      · rw [if_pos (decide_eq_true hname), if_pos hname]
        rfl
      · have hfalse : ¬ decide (h.name.map Char.toLower = "authorization".toList) = true := by
          rw [decide_eq_true_iff]
          exact hname
        rw [if_neg hfalse, if_neg hname]
    | _ =>
      simpa [apart, CurlArg.parsed, CurlArg.isApart, CurlArg.custom, List.filterMap_cons,
        List.filter_cons] using ih

theorem parsedCreds_apart (args : List CurlArg) :
    args.filterMap CurlArg.parsedCreds = (apart args).filterMap CurlArg.credentials := by
  induction args with
  | nil => rfl
  | cons a args ih =>
    cases a <;> simpa [apart, CurlArg.isApart, CurlArg.parsedCreds, CurlArg.credentials,
      List.filterMap_cons, List.filter_cons] using ih

theorem custom_perm (args : List CurlArg) : (args.filterMap CurlArg.custom).Perm
    ((apart args).filterMap CurlArg.custom ++ (attached args).filterMap CurlArg.custom) := by
  rw [← List.filterMap_append]
  exact (List.filter_append_perm CurlArg.isApart args).symm.filterMap _

/-! ### One value -/

/-- What becomes of the first value when there is no `-u`. -/
def resent (value : Text) : Text :=
  match schemeToken "bearer".toList value with
  | some token => bearerValue token
  | none =>
    match (schemeToken "basic".toList value).bind atob with
    | some decoded => basicValue (padded (latin1 decoded))
    | none => value

theorem addedValues_basicAuth (creds : Text) :
    addedValues (basicAuth creds) = [basicValue (padded creds)] := by
  rw [basicAuth, padded]
  cases hsplit : splitOnce [':'] creds with
  | none =>
    have hmem : ':' ∉ creds := by
      intro hmem
      obtain ⟨before, after, rfl⟩ := List.append_of_mem hmem
      exact (Resolve.splitOnce_eq_none (by simp)).mp hsplit ⟨before, after, by simp⟩
    rw [if_neg hmem]
    rfl
  | some parts =>
    have heq := Resolve.splitOnce_eq_some hsplit
    have hmem : ':' ∈ creds := by
      rw [heq]
      simp
    rw [if_pos hmem]
    simp only [addedValues]
    rw [heq]
    simp

theorem resent_eq (value : Text) :
    (headerAuth value).elim [value] addedValues = [resent value] := by
  rw [headerAuth, resent]
  cases schemeToken "bearer".toList value with
  | some token => rfl
  | none =>
    cases (schemeToken "basic".toList value).bind atob with
    | some decoded => exact addedValues_basicAuth _
    | none => rfl

/-! ### Values that stay -/

def IsAscii (s : Text) : Prop := ∀ c ∈ s, c.toNat < 128

/-- The app writes the value as it was. -/
def KeptByScheme (value : Text) : Prop :=
  (∀ token, schemeToken "bearer".toList value = some token → value = bearerValue token) ∧
    ∀ token decoded, schemeToken "basic".toList value = some token →
      atob token = some decoded →
      ∃ creds, ':' ∈ creds ∧ IsAscii creds ∧ value = basicValue creds

theorem utf8Size_eq_one {c : Char} : c.utf8Size = 1 ↔ c.toNat < 128 := by
  rw [Char.utf8Size_eq_one_iff, UInt32.le_iff_toNat_le]
  exact Nat.lt_succ_iff.symm

theorem latin1_utf8 {s : Text} (h : IsAscii s) : latin1 (utf8 s) = s := by
  induction s with
  | nil => rfl
  | cons c rest ih =>
    have hc : c.toNat < 128 := h c List.mem_cons_self
    have hbyte : c.val.toUInt8.toNat = c.toNat := by
      rw [UInt32.toNat_toUInt8]
      exact Nat.mod_eq_of_lt (by
        have : c.val.toNat = c.toNat := rfl
        omega)
    have hrest : latin1 (utf8 rest) = rest := ih fun d hd => h d (List.mem_cons_of_mem c hd)
    rw [utf8_cons, String.utf8EncodeChar_eq_singleton (utf8Size_eq_one.mpr hc), latin1,
      List.map_append, List.map_singleton, hbyte, Char.ofNat_toNat]
    exact congrArg (c :: ·) hrest

theorem length_le_utf8 (s : Text) : s.length ≤ (utf8 s).length := by
  induction s with
  | nil => exact Nat.le_refl 0
  | cons c rest ih =>
    have hc := length_utf8EncodeChar_pos c
    rw [utf8_cons, List.length_append, List.length_cons]
    omega

theorem isAscii_of_length {s : Text} (h : (utf8 s).length = s.length) : IsAscii s := by
  induction s with
  | nil => simp [IsAscii]
  | cons c rest ih =>
    have hc := length_utf8EncodeChar_pos c
    have hrest := length_le_utf8 rest
    rw [utf8_cons, List.length_append, List.length_cons] at h
    have hone : c.utf8Size = 1 := by
      rw [String.length_utf8EncodeChar] at h hc
      omega
    intro d hd
    rcases List.mem_cons.mp hd with rfl | hd
    · exact utf8Size_eq_one.mp hone
    · refine ih ?_ d hd
      rw [String.length_utf8EncodeChar] at h
      omega

/-- Credentials come back from their Latin-1 reading only when they are ASCII with a colon. -/
theorem ascii_of_padded {s : Text} (h : s = padded (latin1 (utf8 s))) : ':' ∈ s ∧ IsAscii s := by
  have hlatin : (latin1 (utf8 s)).length = (utf8 s).length := List.length_map _
  have hle := length_le_utf8 s
  have hlength := congrArg List.length h
  rw [padded] at h hlength
  split_ifs at h hlength with hcolon
  · rw [h]
    refine ⟨hcolon, ?_⟩
    rw [← h]
    exact isAscii_of_length (by rw [← hlatin, ← hlength])
  · rw [List.length_append, hlatin, List.length_singleton] at hlength
    omega

theorem schemeToken_eq {scheme written token : Text} (hlower : written.map Char.toLower = scheme)
    (hne : token ≠ []) (hplain : ∀ c ∈ token, isJsSpace c = false ∧ isLineTerminator c = false) :
    schemeToken scheme (written ++ ' ' :: token) = some token := by
  have hlen : scheme.length = written.length := by rw [← hlower, List.length_map]
  cases token with
  | nil => exact absurd rfl hne
  | cons c rest =>
    have hc : isJsSpace c = false := (hplain c List.mem_cons_self).1
    have hall : (c :: rest).all (fun d => !isLineTerminator d) = true := by
      refine List.all_eq_true.mpr fun d hd => ?_
      rw [(hplain d hd).2]
      rfl
    have hspace : isJsSpace ' ' = true := by decide
    simp only [schemeToken, hlen, List.take_left, List.drop_left, hlower,
      List.takeWhile_cons, List.dropWhile_cons, hspace, hc, Bool.false_eq_true, if_true, if_false]
    rw [if_pos ⟨by simp, by simp, hall⟩]

theorem base64Encode_ne_nil {bytes : List UInt8} (h : bytes ≠ []) : base64Encode bytes ≠ [] := by
  intro heq
  exact h (Resolve.base64Encode_injective (heq.trans rfl))

theorem schemeToken_basicValue {creds : Text} (h : creds ≠ []) :
    schemeToken "basic".toList (basicValue creds) = some (base64Encode (utf8 creds)) := by
  have hbytes : utf8 creds ≠ [] := by
    intro hnil
    have hle := length_le_utf8 creds
    rw [hnil] at hle
    exact h (List.length_eq_zero_iff.mp (Nat.le_zero.mp hle))
  have hlower : "Basic".toList.map Char.toLower = "basic".toList := by decide
  exact schemeToken_eq hlower (base64Encode_ne_nil hbytes) fun c hc =>
    ⟨(base64Encode_plain hc).1, (base64Encode_plain hc).2.2⟩

/-- No value has both schemes. -/
theorem schemeToken_basic_of_bearer {value token : Text}
    (h : schemeToken "bearer".toList value = some token) :
    schemeToken "basic".toList value = none := by
  rw [schemeToken] at h
  split_ifs at h with hbearer
  have hfive : (value.take 5).map Char.toLower = ("bearer".toList).take 5 := by
    rw [← hbearer, ← List.map_take, List.take_take]
    rfl
  rw [schemeToken, if_neg]
  intro hbasic
  exact absurd (hbasic.symm.trans hfive) (by decide)

theorem resent_eq_self_iff (value : Text) : resent value = value ↔ KeptByScheme value := by
  rw [resent]
  cases hbearer : schemeToken "bearer".toList value with
  | some token =>
    refine ⟨fun h => ⟨?_, ?_⟩, fun h => (h.1 token hbearer).symm⟩
    · rintro found hfound
      rw [← Option.some.inj (hbearer.symm.trans hfound)]
      exact h.symm
    · intro found decoded hfound
      rw [schemeToken_basic_of_bearer hbearer] at hfound
      cases hfound
  | none =>
    cases hbasic : (schemeToken "basic".toList value).bind atob with
    | none =>
      refine ⟨fun _ => ⟨?_, ?_⟩, fun _ => rfl⟩
      · intro token htoken
        rw [hbearer] at htoken
        cases htoken
      · intro token decoded htoken hdecoded
        rw [htoken, Option.bind_some, hdecoded] at hbasic
        cases hbasic
    | some decoded =>
      obtain ⟨token, htoken, hdecoded⟩ := Option.bind_eq_some_iff.mp hbasic
      refine ⟨fun h => ⟨?_, ?_⟩, fun h => ?_⟩
      · intro found hfound
        rw [hbearer] at hfound
        cases hfound
      · intro found bytes hfound hbytes
        have hvalue : basicValue (padded (latin1 decoded)) = value := h
        have hne : padded (latin1 decoded) ≠ [] := by
          rw [padded]
          split_ifs with hcolon
          · exact List.ne_nil_of_mem hcolon
          · simp
        -- the token is the base64 form of what is written again, so both have the same bytes
        have hread := schemeToken_basicValue hne
        rw [hvalue, htoken] at hread
        rw [Option.some.inj hread, atob_base64Encode] at hdecoded
        have hself := ascii_of_padded (congrArg (fun b => padded (latin1 b))
          (Option.some.inj hdecoded).symm)
        exact ⟨_, hself.1, hself.2, hvalue.symm⟩
      · obtain ⟨creds, hcolon, hascii, rfl⟩ := h.2 token decoded htoken hdecoded
        rw [schemeToken_basicValue (List.ne_nil_of_mem hcolon)] at htoken
        rw [← Option.some.inj htoken, atob_base64Encode] at hdecoded
        show basicValue (padded (latin1 decoded)) = basicValue creds
        rw [← Option.some.inj hdecoded, latin1_utf8 hascii, padded, if_pos hcolon]

/-- The first value is consumed, if it is read as an auth. -/
theorem sent_first (headers : List ParsedParameter) :
    match headers.findIdx? (isNamed "authorization".toList) with
    | none => authorizationValues headers = []
    | some idx => ∃ h, headers[idx]? = some h ∧
        authorizationValues headers = h.value :: authorizationValues (headers.eraseIdx idx) := by
  induction headers with
  | nil => rfl
  | cons h headers ih =>
    rw [List.findIdx?_cons]
    cases hnamed : isNamed "authorization".toList h with
    | true =>
      refine ⟨h, rfl, ?_⟩
      rw [authorizationValues_cons, if_pos hnamed]
      rfl
    | false =>
      cases hidx : headers.findIdx? (isNamed "authorization".toList) with
      | none =>
        rw [hidx] at ih
        show authorizationValues (h :: headers) = []
        rw [authorizationValues_cons, hnamed]
        exact ih
      | some idx =>
        rw [hidx] at ih
        obtain ⟨first, hfirst, hvalues⟩ := ih
        refine ⟨first, hfirst, ?_⟩
        rw [List.eraseIdx_cons_succ, authorizationValues_cons, authorizationValues_cons, hnamed]
        exact hvalues

/-- What the app sends for the headers and credentials that it read. -/
def resentAll (values : List Text) (creds : Option Text) : List Text :=
  match creds.filter fun creds => decide (creds ≠ []) with
  | some creds => values ++ [basicValue (padded creds)]
  | none =>
    match values with
    | [] => []
    | value :: rest => resent value :: rest

theorem assemble_perm {st : Arguments} {r : ParsedRequest} (h : assemble st = some r) :
    (authorizationValues r.headers ++ addedValues r.auth).Perm
      (resentAll (authorizationValues st.headers) st.basicCreds) := by
  have hr : r.auth = (deriveAuth st.headers st.basicCreds).1 ∧
      r.headers = (deriveAuth st.headers st.basicCreds).2.elim st.headers st.headers.eraseIdx := by
    rw [assemble] at h
    generalize deriveAuth st.headers st.basicCreds = derived at h ⊢
    obtain ⟨auth, consumed⟩ := derived
    split at h
    · cases h
    · split_ifs at h
      rw [← Option.some.inj h]
      cases consumed <;> exact ⟨rfl, rfl⟩
  rw [hr.1, hr.2, deriveAuth, resentAll.eq_def]
  cases st.basicCreds.filter fun creds => decide (creds ≠ []) with
  | some creds =>
    show (authorizationValues st.headers ++ addedValues (basicAuth creds)).Perm _
    rw [addedValues_basicAuth]
  | none =>
    have hfirst := sent_first st.headers
    cases hidx : st.headers.findIdx? (isNamed "authorization".toList) with
    | none =>
      rw [hidx] at hfirst
      show (authorizationValues st.headers ++ []).Perm _
      rw [List.append_nil, hfirst]
    | some idx =>
      rw [hidx] at hfirst
      obtain ⟨first, hget, hvalues⟩ := hfirst
      have hresent := resent_eq first.value
      simp only [hget, Option.bind_some]
      cases hauth : headerAuth first.value with
      | none =>
        rw [hauth] at hresent
        have hsame : first.value = resent first.value := List.singleton_inj.mp hresent
        show (authorizationValues st.headers ++ []).Perm _
        rw [List.append_nil, hvalues]
        exact .of_eq (congrArg (· :: authorizationValues (st.headers.eraseIdx idx)) hsame)
      | some auth =>
        rw [hauth] at hresent
        show (authorizationValues (st.headers.eraseIdx idx) ++ addedValues auth).Perm _
        rw [show addedValues auth = _ from hresent, hvalues]
        exact List.perm_append_singleton _ _

theorem trimStart_trimStart (s : Text) : trimStart (trimStart s) = trimStart s :=
  List.dropWhile_idempotent _ s

theorem trimStart_resent {value : Text} (h : trimStart value = value) :
    trimStart (resent value) = resent value := by
  rw [resent]
  split
  · rfl
  · split
    · rfl
    · exact h

theorem trimStart_resentAll (values : List Text) (creds : Option Text) :
    ∀ v ∈ resentAll (values.map trimStart) creds, trimStart v = v := by
  have hvalues : ∀ v ∈ values.map trimStart, trimStart v = v := by
    intro v hv
    obtain ⟨w, -, rfl⟩ := List.mem_map.mp hv
    exact trimStart_trimStart w
  rw [resentAll.eq_def]
  split
  · intro v hv
    rcases List.mem_append.mp hv with hv | hv
    · exact hvalues v hv
    · rw [List.mem_singleton.mp hv]
      rfl
  · split
    · simp
    · next hlist =>
        rw [hlist] at hvalues
        intro v hv
        rcases List.mem_cons.mp hv with rfl | hv
        · exact trimStart_resent (hvalues _ List.mem_cons_self)
        · exact hvalues v (List.mem_cons_of_mem _ hv)

theorem basicValue_inj {s t : Text} (h : basicValue s = basicValue t) : s = t :=
  Resolve.utf8_injective (Resolve.base64Encode_injective (List.append_cancel_left h))

/-! ### Commands -/

def HasCredentials (args : List CurlArg) : Prop :=
  args.filterMap CurlArg.custom ≠ [] ∨ args.filterMap CurlArg.credentials ≠ []

/-- The last `-u` whose value is a word of its own, if that is not empty. -/
def readCredentials (args : List CurlArg) : Option Text :=
  ((apart args).filterMap CurlArg.credentials).getLast?.filter fun creds => decide (creds ≠ [])

/-- When the credentials of a command are kept. -/
inductive KeepsCredentials (ask : Text → Text) (args : List CurlArg) : Prop
  /-- Only headers, in words of their own, without other white space in front of their values; and
  the first of them is written as the app writes it, or its scheme is not read. -/
  | header (value : Text) (rest : List Text) (hcreds : readCredentials args = none)
      (hvalues : (apart args).filterMap CurlArg.custom = value :: rest)
      (hattached : (attached args).filterMap CurlArg.custom = [])
      (htrim : ∀ v ∈ value :: rest, trimStart v = v) (hkept : KeptByScheme value)
  /-- No header, and nothing to ask for. -/
  | user (creds last : Text) (hcreds : readCredentials args = some creds)
      (hcustom : args.filterMap CurlArg.custom = [])
      (hlast : (args.filterMap CurlArg.credentials).getLast? = some last)
      (hsame : complete ask last = padded creds)
  /-- The app misses one header, and its value is what the app makes of the credentials. -/
  | missed (creds : Text) (hcreds : readCredentials args = some creds)
      (hattached : (attached args).filterMap CurlArg.custom = [basicValue (padded creds)])
      (htrim : ∀ v ∈ (apart args).filterMap CurlArg.custom, trimStart v = v)

theorem map_trimStart {values : List Text} (h : ∀ v ∈ values, trimStart v = v) :
    values.map trimStart = values :=
  (List.map_congr_left h).trans (List.map_id values)

theorem curlAuthorization_custom {ask : Text → Text} {args : List CurlArg}
    (h : args.filterMap CurlArg.custom ≠ []) : (curlAuthorization ask args).Perm
    ((apart args).filterMap CurlArg.custom ++ (attached args).filterMap CurlArg.custom) := by
  rw [curlAuthorization, if_pos h]
  exact custom_perm args

theorem resentAll_some {values : List Text} {read : Option Text} {creds : Text}
    (h : (read.filter fun creds => decide (creds ≠ [])) = some creds) :
    resentAll values read = values ++ [basicValue (padded creds)] := by
  rw [resentAll.eq_def, h]

theorem resentAll_cons {value : Text} {rest : List Text} {read : Option Text}
    (h : (read.filter fun creds => decide (creds ≠ [])) = none) :
    resentAll (value :: rest) read = resent value :: rest := by
  rw [resentAll.eq_def, h]

theorem resentAll_nil {read : Option Text}
    (h : (read.filter fun creds => decide (creds ≠ [])) = none) : resentAll [] read = [] := by
  rw [resentAll.eq_def, h]

theorem resentAll_perm_iff {ask : Text → Text} {args : List CurlArg} (h : HasCredentials args) :
    (resentAll (((apart args).filterMap CurlArg.custom).map trimStart)
        ((apart args).filterMap CurlArg.credentials).getLast?).Perm (curlAuthorization ask args) ↔
      KeepsCredentials ask args := by
  constructor
  · intro hperm
    by_cases hcustom : args.filterMap CurlArg.custom = []
    · have hnil := custom_perm args
      rw [hcustom, List.nil_perm, List.append_eq_nil_iff] at hnil
      rw [curlAuthorization, if_neg (not_not.mpr hcustom), hnil.1, List.map_nil] at hperm
      cases hlast : (args.filterMap CurlArg.credentials).getLast? with
      | none =>
        exact absurd (List.getLast?_eq_none_iff.mp hlast) (h.resolve_left (not_not.mpr hcustom))
      | some last =>
        rw [hlast] at hperm
        cases hread : readCredentials args with
        | none =>
          rw [resentAll_nil hread] at hperm
          exact absurd (List.nil_perm.mp hperm) (by simp)
        | some creds =>
          rw [resentAll_some hread] at hperm
          have hsame : [basicValue (padded creds)] = [basicValue (complete ask last)] :=
            List.perm_singleton.mp hperm
          exact .user creds last hread hcustom hlast
            (basicValue_inj (List.singleton_inj.mp hsame)).symm
    · have hcurl : (curlAuthorization ask args).Perm _ := curlAuthorization_custom hcustom
      have htrim : ∀ v ∈ (apart args).filterMap CurlArg.custom, trimStart v = v := fun v hv =>
        trimStart_resentAll _ _ v ((hperm.trans hcurl).mem_iff.mpr (List.mem_append_left _ hv))
      rw [map_trimStart htrim] at hperm
      have hboth := hperm.trans hcurl
      cases hread : readCredentials args with
      | some creds =>
        rw [resentAll_some hread] at hboth
        have hattached := (List.perm_append_left_iff _).mp hboth
        exact .missed creds hread (List.singleton_perm.mp hattached).symm htrim
      | none =>
        cases hvalues : (apart args).filterMap CurlArg.custom with
        | nil =>
          rw [hvalues, resentAll_nil hread, curlAuthorization, if_pos hcustom] at hperm
          exact absurd (List.nil_perm.mp hperm) hcustom
        | cons value rest =>
          rw [hvalues] at hboth htrim
          rw [resentAll_cons hread] at hboth
          have hlength := hboth.length_eq
          have hattached : (attached args).filterMap CurlArg.custom = [] := by
            apply List.length_eq_zero_iff.mp
            simp only [List.length_cons, List.length_append] at hlength
            omega
          rw [hattached, List.append_nil] at hboth
          have hone : [resent value].Perm [value] :=
            (List.perm_append_right_iff rest).mp hboth
          exact .header value rest hread hvalues hattached htrim
            ((resent_eq_self_iff value).mp (by simpa using hone))
  · rintro (⟨value, rest, hread, hvalues, hattached, htrim, hkept⟩ |
      ⟨creds, last, hread, hcustom, hlast, hsame⟩ | ⟨creds, hread, hattached, htrim⟩)
    · have hcustom : args.filterMap CurlArg.custom ≠ [] := by
        intro hnil
        have hperm := custom_perm args
        rw [hnil, hvalues] at hperm
        exact absurd (List.nil_perm.mp hperm) (by simp)
      rw [hvalues, map_trimStart htrim, resentAll_cons hread, (resent_eq_self_iff value).mpr hkept]
      have hcurl : (curlAuthorization ask args).Perm _ := curlAuthorization_custom hcustom
      rw [hvalues, hattached, List.append_nil] at hcurl
      exact hcurl.symm
    · have hnil := custom_perm args
      rw [hcustom, List.nil_perm, List.append_eq_nil_iff] at hnil
      rw [hnil.1, List.map_nil, resentAll_some hread, curlAuthorization,
        if_neg (not_not.mpr hcustom), hlast, ← hsame]
      exact .refl _
    · have hcustom : args.filterMap CurlArg.custom ≠ [] := by
        intro hnil
        have hperm := custom_perm args
        rw [hnil, hattached] at hperm
        exact absurd (List.nil_perm.mp hperm) (by simp)
      rw [map_trimStart htrim, resentAll_some hread]
      have hcurl : (curlAuthorization ask args).Perm _ := curlAuthorization_custom hcustom
      rw [hattached] at hcurl
      exact hcurl.symm

def urlArg : CurlArg := .url "https://x".toList (by decide)

def userArgs : List CurlArg := [urlArg, .user false "al:pw".toList]

def accentHeader : CustomHeader where
  name := "Authorization".toList
  gap := [' ']
  value := "Basic w6k6cA==".toList
  named := by decide
  blank := by decide
  valued := ⟨by decide, by rintro c ⟨⟩; decide⟩
  one_line := by decide

def accentArgs : List CurlArg := [urlArg, .header false accentHeader]

end Voleeo.Curl
