import Voleeo.Crypto.Cipher
import Voleeo.Send.Url
import Voleeo.Template.SameResolution

/-!
# Cookie fields on the way to the wire

The Rust side puts variables in once, unwraps `encrypt` chips and decrypts. The
web app resolves a field like any other, decrypts, and leaves the rest to Rust.
-/
namespace Voleeo.Cookies
open Crypto OrderedMap Template
open Resolve (UnicodeTables splitOnce opening closing pushToken strTrim resolveInner resolveName
  resolveStr)

/-! ## Rust -/

section
variable (tables : UnicodeTables) (vars : OrderedMap Text Text)

/-- What stands for an expression: the value as it is, or the expression again. -/
def varToken (name : Text) : Text :=
  if Resolve.isIdentifier tables name = true then (vars.get? name).getD (pushToken name)
  else pushToken name

def resolveVars (text : Text) : Text :=
  match _hopen : splitOnce opening text with
  | none => text
  | some (before, inside) =>
    match _hclose : splitOnce closing inside with
    | none => before ++ opening ++ inside
    | some (inner, rest) => before ++ varToken tables vars (strTrim inner) ++ resolveVars rest
termination_by text.length
decreasing_by
  have hinside := Resolve.splitOnce_length (by decide) _hopen
  have hrest := Resolve.splitOnce_length (by decide) _hclose
  omega

end

def chipPrefix : Text := openBraces ++ " encrypt(value=\"".toList

def chipSuffix : Text := "\") ".toList ++ closeBraces

/-- An opening without an end stays, with all behind it. -/
def stripEncryptChips (text : Text) : Text :=
  match _hopen : splitOnce chipPrefix text with
  | none => text
  | some (before, after) =>
    match _hclose : splitOnce chipSuffix after with
    | none => before ++ chipPrefix ++ after
    | some (value, rest) => before ++ value ++ stripEncryptChips rest
termination_by text.length
decreasing_by
  have hafter := Resolve.splitOnce_length (by decide) _hopen
  have hrest := Resolve.splitOnce_length (by decide) _hclose
  omega

def isHexDigit (c : Char) : Bool := (hexValue c).isSome

/-- Each `enc:v1:` with the digits behind it, where it opens. -/
def replaceCiphers (openCipher : Text → Option Text) (text : Text) : Text :=
  match _h : splitOnce encPrefix text with
  | none => text
  | some (before, after) =>
    let cipher := encPrefix ++ after.takeWhile isHexDigit
    before ++ (openCipher cipher).getD cipher ++
      replaceCiphers openCipher (after.dropWhile isHexDigit)
termination_by text.length
decreasing_by
  have hafter := Resolve.splitOnce_length (by decide) _h
  have hrest := (List.dropWhile_sublist isHexDigit (l := after)).length_le
  omega

def openWith (aead : Aead) (cipher : Text) : Option Text :=
  ((decrypt aead (String.ofList cipher)).map (·.toList)).toOption

def decryptInline (key : Option Aead) (text : Text) : Text :=
  match key with
  | none => text
  | some aead => replaceCiphers (openWith aead) text

def resolveField (tables : UnicodeTables) (vars : OrderedMap Text Text) (key : Option Aead)
    (text : Text) : Text :=
  decryptInline key (stripEncryptChips (resolveVars tables vars text))

/-- The text without a colon and digits at its end. -/
def dropPort (d : Text) : Text :=
  let port := d.rtakeWhile (· ≠ ':')
  if d.head? ≠ some '[' ∧ ':' ∈ d ∧ port ≠ [] ∧ port.all Char.isDigit then
    d.take (d.length - port.length - 1)
  else d

/-- A URL becomes its host. A leading dot stays. -/
def normalizeDomain (domain : Text) : Text :=
  let d := strTrim domain
  let d := ((splitOnce "://".toList d).map Prod.snd).getD d
  (dropPort (d.takeWhile (· ≠ '/'))).map Char.toLower

def mapFields (domain field : Text → Text) (c : StoredCookie) : StoredCookie :=
  { c with
    domain := String.ofList (domain c.domain.toList)
    value := String.ofList (field c.value.toList)
    path := String.ofList (field c.path.toList) }

def resolveCookie (tables : UnicodeTables) (vars : OrderedMap Text Text) (key : Option Aead) :
    StoredCookie → StoredCookie :=
  mapFields (fun text => normalizeDomain (resolveField tables vars key text))
    (resolveField tables vars key)

def resolveCookies (tables : UnicodeTables) (vars : OrderedMap Text Text) (key : Option Aead)
    (cookies : List StoredCookie) : List StoredCookie :=
  cookies.map (resolveCookie tables vars key)

def decryptCookie (key : Option Aead) : StoredCookie → StoredCookie :=
  mapFields (fun text => normalizeDomain (decryptInline key text)) (decryptInline key)

/-! ## Web -/

/-- `decryptValue` is the command that decrypts one value. A prefix without digits is left. -/
def webDecryptInline (decryptValue : Text → Option Text) (text : Text) : Text :=
  replaceCiphers (fun cipher => if cipher = encPrefix then none else decryptValue cipher) text

def resolveAndDecrypt (ctx : Send.ResolveCtx) (decryptValue : Text → Option Text)
    (site : RenderSite) (raw : String) : Except Rejection String := do
  let resolved ← Send.resolve ctx site raw.toList
  return String.ofList (webDecryptInline decryptValue resolved)

def webCookie (ctx : Send.ResolveCtx) (decryptValue : Text → Option Text) (i : ℕ)
    (c : StoredCookie) : Except Rejection StoredCookie := do
  let value ← resolveAndDecrypt ctx decryptValue [0, i] c.value
  let domain ← resolveAndDecrypt ctx decryptValue [1, i] c.domain
  let path ← resolveAndDecrypt ctx decryptValue [2, i] c.path
  return { c with value, domain, path }

/-- The cookies that the desktop attaches: resolved by the web app, then decrypted in Rust. -/
def desktopCookies (ctx : Send.ResolveCtx) (decryptValue : Text → Option Text)
    (key : Option Aead) (cookies : List StoredCookie) : Except Rejection (List StoredCookie) := do
  let resolved ← cookies.zipIdx.mapM fun c => webCookie ctx decryptValue c.2 c.1
  return resolved.map (decryptCookie key)

/-! ## The condition -/

/-- The texts between the braces of a template, as Rust cuts it. -/
def expressions (text : Text) : List Text :=
  match _hopen : splitOnce opening text with
  | none => []
  | some (_, inside) =>
    match _hclose : splitOnce closing inside with
    | none => []
    | some (inner, rest) => inner :: expressions rest
termination_by text.length
decreasing_by
  have hinside := Resolve.splitOnce_length (by decide) _hopen
  have hrest := Resolve.splitOnce_length (by decide) _hclose
  omega

/-- There is no chip and no encrypted value. -/
def Unsealed (text : Text) : Prop := ¬ chipPrefix <:+: text ∧ ¬ encPrefix <:+: text

theorem Unsealed.of_infix {part text : Text} (h : Unsealed text) (hpart : part <:+: text) :
    Unsealed part :=
  ⟨fun hchip => h.1 (hchip.trans hpart), fun hcipher => h.2 (hcipher.trans hpart)⟩

section
variable (tables : UnicodeTables) (vars : OrderedMap Text Text)

/-- The variable has a value that resolves to itself. -/
def Settled (name : Text) : Prop :=
  ∀ value, Resolve.isIdentifier tables name = true → vars.get? name = some value →
    resolveInner tables vars [name] value = value

/-- The variables that the text names are settled, and nothing sealed comes out. -/
structure FieldFits (text : Text) : Prop where
  settled : ∀ inner ∈ expressions text, Settled tables vars (strTrim inner)
  unsealed : Unsealed (resolveVars tables vars text)

end

/-! ## Nothing sealed -/

theorem stripEncryptChips_unsealed {text : Text} (h : Unsealed text) :
    stripEncryptChips text = text := by
  have hnone : splitOnce chipPrefix text = none :=
    (Resolve.splitOnce_eq_none (by decide)).mpr h.1
  rw [stripEncryptChips]
  split
  · rfl
  · rename_i hsome
    rw [hnone] at hsome
    cases hsome

theorem replaceCiphers_unsealed {openCipher : Text → Option Text} {text : Text}
    (h : Unsealed text) : replaceCiphers openCipher text = text := by
  have hnone : splitOnce encPrefix text = none :=
    (Resolve.splitOnce_eq_none (by decide)).mpr h.2
  rw [replaceCiphers]
  split
  · rfl
  · rename_i hsome
    rw [hnone] at hsome
    cases hsome

theorem decryptInline_unsealed {key : Option Aead} {text : Text} (h : Unsealed text) :
    decryptInline key text = text := by
  cases key with
  | none => rfl
  | some aead => exact replaceCiphers_unsealed h

section
variable {tables : UnicodeTables} {vars : OrderedMap Text Text}

theorem resolveField_unsealed {key : Option Aead} {text : Text}
    (h : Unsealed (resolveVars tables vars text)) :
    resolveField tables vars key text = resolveVars tables vars text := by
  rw [resolveField, stripEncryptChips_unsealed h, decryptInline_unsealed h]

/-! ## A single pass against a full resolution -/

theorem resolveVars_eq (text : Text) : resolveVars tables vars text =
    match splitOnce opening text with
    | none => text
    | some (before, inside) =>
      match splitOnce closing inside with
      | none => before ++ opening ++ inside
      | some (inner, rest) =>
        before ++ varToken tables vars (strTrim inner) ++ resolveVars tables vars rest := by
  rw [resolveVars]
  split
  · rename_i hopen
    simp only [hopen]
  · rename_i hopen
    simp only [hopen]
    split
    · rename_i hclose
      simp only [hclose]
    · rename_i hclose
      simp only [hclose]

theorem expressions_eq (text : Text) : expressions text = match splitOnce opening text with
    | none => []
    | some (_, inside) =>
      match splitOnce closing inside with
      | none => []
      | some (inner, rest) => inner :: expressions rest := by
  rw [expressions]
  split
  · rename_i hopen
    simp only [hopen]
  · rename_i hopen
    simp only [hopen]
    split
    · rename_i hclose
      simp only [hclose]
    · rename_i hclose
      simp only [hclose]

variable (tables vars) in
/-- A text holds a closed expression in front of a rest that is shorter, or none. -/
theorem expressions_cases (text : Text) :
    (expressions text = [] ∧ resolveVars tables vars text = text ∧
      resolveStr tables text vars = text) ∨
    ∃ before inner rest, rest.length < text.length ∧ expressions text = inner :: expressions rest ∧
      resolveVars tables vars text =
        before ++ varToken tables vars (strTrim inner) ++ resolveVars tables vars rest ∧
      resolveStr tables text vars =
        before ++ resolveName tables vars [] (strTrim inner) ++ resolveStr tables rest vars := by
  rw [expressions_eq, resolveVars_eq, resolveStr, Resolve.resolveInner_eq]
  cases hopen : splitOnce opening text with
  | none => exact Or.inl ⟨rfl, rfl, rfl⟩
  | some parts =>
    obtain ⟨before, inside⟩ := parts
    have htext := Resolve.splitOnce_eq_some hopen
    cases hclose : splitOnce closing inside with
    | none =>
      simp only [hclose]
      exact Or.inl ⟨trivial, htext.symm, htext.symm⟩
    | some ends =>
      obtain ⟨inner, rest⟩ := ends
      have hinside := Resolve.splitOnce_length (by decide) hopen
      have hrest := Resolve.splitOnce_length (by decide) hclose
      simp only [hclose]
      exact Or.inr ⟨before, inner, rest, hrest.trans hinside, rfl, rfl, rfl⟩

theorem resolveName_settled {name : Text} (h : Settled tables vars name) :
    resolveName tables vars [] name = varToken tables vars name := by
  rw [resolveName, varToken]
  by_cases hid : Resolve.isIdentifier tables name = true
  · rw [if_pos ⟨hid, List.not_mem_nil⟩, if_pos hid]
    cases hvalue : vars.get? name with
    | none => rfl
    | some value => exact h value hid hvalue
  · rw [if_neg fun hboth => hid hboth.1, if_neg hid]

/-- One pass is enough when every variable that is named is settled. -/
theorem resolveVars_settled {text : Text}
    (h : ∀ inner ∈ expressions text, Settled tables vars (strTrim inner)) :
    resolveVars tables vars text = resolveStr tables text vars := by
  induction hn : text.length using Nat.strong_induction_on generalizing text with
  | _ n ih =>
    obtain ⟨-, hvars, hstr⟩ | ⟨before, inner, rest, hlt, hexprs, hvars, hstr⟩ :=
      expressions_cases tables vars text
    · rw [hvars, hstr]
    · rw [hexprs, List.forall_mem_cons] at h
      rw [hvars, hstr, resolveName_settled h.1, ih _ (hn ▸ hlt) h.2 rfl]

/-- The value of every variable that is named stands in the result. -/
theorem value_isInfix {text inner value : Text} (hinner : inner ∈ expressions text)
    (hid : Resolve.isIdentifier tables (strTrim inner) = true)
    (hvalue : vars.get? (strTrim inner) = some value) :
    value <:+: resolveVars tables vars text := by
  induction hn : text.length using Nat.strong_induction_on generalizing text with
  | _ n ih =>
    obtain ⟨hnone, -⟩ | ⟨before, inner', rest, hlt, hexprs, hvars, -⟩ :=
      expressions_cases tables vars text
    · rw [hnone] at hinner
      cases hinner
    · rw [hvars]
      rcases List.mem_cons.mp (hexprs ▸ hinner) with rfl | hmem
      · rw [varToken, if_pos hid, hvalue, Option.getD_some]
        exact ⟨before, _, rfl⟩
      · exact (ih _ (hn ▸ hlt) hmem rfl).trans (List.suffix_append _ _).isInfix

theorem resolveField_fits {key : Option Aead} {text : Text} (h : FieldFits tables vars text) :
    resolveField tables vars key text = resolveStr tables text vars := by
  rw [resolveField_unsealed h.unsealed, resolveVars_settled h.settled]

/-! ## Every text -/

theorem strTrim_idem (text : Text) : strTrim (strTrim text) = strTrim text := by
  have hfront : ∀ s : Text, s.head?.any Resolve.isWhitespace = false →
      s.dropWhile Resolve.isWhitespace = s := by
    intro s hs
    cases s with
    | nil => rfl
    | cons c s => exact List.dropWhile_cons_of_neg (by simpa using hs)
  have hhead : (strTrim text).head?.any Resolve.isWhitespace = false := by
    obtain ⟨tail, htail⟩ :=
      List.rdropWhile_prefix Resolve.isWhitespace (text.dropWhile Resolve.isWhitespace)
    rw [← strTrim] at htail
    cases hcore : strTrim text with
    | nil => rfl
    | cons c core =>
      rw [hcore, List.cons_append] at htail
      have hc := List.head?_dropWhile_not Resolve.isWhitespace text
      rw [← htail] at hc
      simpa using hc
  rw [strTrim, hfront _ hhead, strTrim, List.rdropWhile_idempotent]

theorem splitOnce_closing {name rest : Text} (h : '}' ∉ name) :
    splitOnce closing (name ++ closing ++ rest) = some (name, rest) := by
  induction name with
  | nil =>
    rw [show [] ++ closing ++ rest = '}' :: '}' :: rest from rfl, splitOnce, if_pos ⟨rest, rfl⟩]
    rfl
  | cons c name ih =>
    rw [List.mem_cons, not_or] at h
    have hc : ¬ closing <+: c :: (name ++ closing ++ rest) := by
      rintro ⟨_, hprefix⟩
      exact h.1 (List.cons.inj hprefix).1
    rw [List.cons_append, List.cons_append, splitOnce, if_neg hc, ih h.2, Option.map_some]

theorem identifier_word {name : Text} (h : Resolve.isIdentifier tables name = true) :
    ∀ c ∈ name, tables.isWord c = true := by
  cases name with
  | nil => simp
  | cons c cs =>
    simp only [Resolve.isIdentifier, Bool.and_eq_true, List.all_eq_true] at h
    refine List.forall_mem_cons.mpr ⟨?_, h.2⟩
    rw [UnicodeTables.isWord]
    rcases Bool.or_eq_true_iff.mp h.1 with halpha | hunder
    · rw [halpha, Bool.true_or, Bool.true_or]
    · rw [hunder, Bool.or_true]

theorem not_mem_identifier {name : Text} (h : Resolve.isIdentifier tables name = true) {c : Char}
    (hc : c.toNat < 128) (hword : isWordChar c = false) : c ∉ name := fun hmem => by
  have := identifier_word h c hmem
  rw [tables.isWord_ascii hc, hword] at this
  cases this

/-- A variable on its own. -/
def token (name : Text) : Text := opening ++ (name ++ closing)

theorem unsealed_token {name : Text} (h : Resolve.isIdentifier tables name = true) :
    Unsealed (token name) := by
  have hmem : ∀ c : Char, c.toNat < 128 → isWordChar c = false → c ≠ '{' → c ≠ '}' →
      c ∉ token name := by
    intro c hc hword hopen hclose
    rw [token, List.mem_append, List.mem_append, not_or, not_or]
    exact ⟨by simp [opening, hopen], not_mem_identifier h hc hword, by simp [closing, hclose]⟩
  constructor
  · intro hchip
    exact hmem ' ' (by decide) (by decide) (by decide) (by decide) (hchip.subset (by decide))
  · intro hcipher
    exact hmem ':' (by decide) (by decide) (by decide) (by decide) (hcipher.subset (by decide))

theorem splitOnce_token (name : Text) :
    splitOnce opening (token name) = some ([], name ++ closing) := by
  rw [token, show opening ++ (name ++ closing) = '{' :: '{' :: (name ++ closing) from rfl,
    splitOnce, if_pos ⟨_, rfl⟩]
  rfl

theorem resolve_token {name value : Text} (hid : Resolve.isIdentifier tables name = true)
    (htrim : strTrim name = name) (hvalue : vars.get? name = some value) :
    resolveVars tables vars (token name) = value ∧
      resolveStr tables (token name) vars = resolveInner tables vars [name] value := by
  have hclose : splitOnce closing (name ++ closing) = some (name, []) := by
    simpa using @splitOnce_closing name [] (not_mem_identifier hid (by decide) (by decide))
  have hvars : resolveVars tables vars [] = [] := by
    rw [resolveVars_eq, show splitOnce opening [] = none from rfl]
  constructor
  · rw [resolveVars_eq, splitOnce_token]
    simp only [hclose, htrim, varToken, hid, hvalue, hvars, if_true, Option.getD_some,
      List.nil_append, List.append_nil]
  · rw [resolveStr, token, Resolve.resolveInner_expr hclose, htrim, resolveName,
      if_pos ⟨hid, List.not_mem_nil⟩, hvalue,
      Resolve.resolveInner_unclosed (show ¬ closing <:+: [] by decide), List.append_nil]

end

section
variable (tables : UnicodeTables) (vars : OrderedMap Text Text) (key : Option Aead)

/-- Every variable whose value holds nothing sealed is settled. -/
def AllSettled : Prop :=
  ∀ inner value, Resolve.isIdentifier tables (strTrim inner) = true →
    vars.get? (strTrim inner) = some value → Unsealed value →
    resolveInner tables vars [strTrim inner] value = value

/-- A cookie field is resolved as any other field, where nothing is sealed. -/
def ResolvesAlike : Prop :=
  ∀ text, Unsealed text → Unsealed (resolveVars tables vars text) →
    resolveField tables vars key text = resolveStr tables text vars

theorem resolvesAlike_iff : ResolvesAlike tables vars key ↔ AllSettled tables vars := by
  constructor
  · intro h inner value hid hvalue hunsealed
    obtain ⟨hvars, hstr⟩ := resolve_token hid (strTrim_idem inner) hvalue
    have hsame := h (token (strTrim inner)) (unsealed_token hid) (hvars ▸ hunsealed)
    rw [resolveField_unsealed (hvars ▸ hunsealed), hvars, hstr] at hsame
    exact hsame.symm
  · intro h text _ hunsealed
    refine resolveField_fits ⟨fun inner hinner value hid hvalue => ?_, hunsealed⟩
    exact h inner value hid hvalue (hunsealed.of_infix (value_isInfix hinner hid hvalue))

end

/-! ## The same cookies from either side -/

section
variable (tables : UnicodeTables) (vars : List EnvironmentVariable)

/-- A text that the web app and Rust cut alike. -/
def Shared (text : Text) : Prop := PlainTemplate text ∧ verbatim.Fits text

/-- The value, the domain and the path. -/
def fieldTexts (c : StoredCookie) : List Text :=
  [c.value.toList, c.domain.toList, c.path.toList]

def CookieFits (c : StoredCookie) : Prop :=
  ∀ text ∈ fieldTexts c, Shared text ∧ FieldFits tables (varMap vars) text

variable {tables vars}

theorem resolve_shared {fns : List BoundTemplateFunction} (hvars : PosixVars vars)
    (hvalues : ∀ v ∈ vars, Shared v.value.toList) (site : RenderSite) {text : Text}
    (h : Shared text) :
    Send.resolve ⟨vars, fns⟩ site text = .ok (resolveStr tables text (varMap vars)) := by
  obtain ⟨out, hout, rfl⟩ := @resolveTemplateImpl_same vars verbatim tables []
    fns hvars hvalues site text h.1 h.2
  exact hout

theorem resolveAndDecrypt_fits {fns : List BoundTemplateFunction} (hvars : PosixVars vars)
    (hvalues : ∀ v ∈ vars, Shared v.value.toList) (decryptValue : Text → Option Text)
    (site : RenderSite) {raw : String} (hshared : Shared raw.toList)
    (hfits : FieldFits tables (varMap vars) raw.toList) :
    resolveAndDecrypt ⟨vars, fns⟩ decryptValue site raw =
      .ok (String.ofList (resolveStr tables raw.toList (varMap vars))) := by
  have hunsealed : Unsealed (resolveStr tables raw.toList (varMap vars)) :=
    resolveVars_settled hfits.settled ▸ hfits.unsealed
  rw [resolveAndDecrypt, resolve_shared hvars hvalues site hshared, ok_bind, webDecryptInline,
    replaceCiphers_unsealed hunsealed]
  rfl

/-- The web app sends the fields as resolved. -/
def webFields (tables : UnicodeTables) (vars : List EnvironmentVariable) :
    StoredCookie → StoredCookie :=
  let field := fun text => resolveStr tables text (varMap vars)
  mapFields field field

theorem webCookie_fits {fns : List BoundTemplateFunction} (hvars : PosixVars vars)
    (hvalues : ∀ v ∈ vars, Shared v.value.toList) (decryptValue : Text → Option Text) (i : ℕ)
    {c : StoredCookie} (h : CookieFits tables vars c) :
    webCookie ⟨vars, fns⟩ decryptValue i c = .ok (webFields tables vars c) := by
  simp only [CookieFits, fieldTexts, List.forall_mem_cons] at h
  obtain ⟨hvalue, hdomain, hpath, -⟩ := h
  rw [webCookie, resolveAndDecrypt_fits hvars hvalues _ _ hvalue.1 hvalue.2, ok_bind,
    resolveAndDecrypt_fits hvars hvalues _ _ hdomain.1 hdomain.2, ok_bind,
    resolveAndDecrypt_fits hvars hvalues _ _ hpath.1 hpath.2, ok_bind]
  rfl

/-- Rust finds nothing left to decrypt in what the web app sends. -/
theorem decryptCookie_webFields (key : Option Aead) {c : StoredCookie}
    (h : CookieFits tables vars c) :
    decryptCookie key (webFields tables vars c) = resolveCookie tables (varMap vars) key c := by
  have hfield : ∀ text ∈ fieldTexts c,
      decryptInline key (resolveStr tables text (varMap vars)) =
        resolveField tables (varMap vars) key text := by
    intro text htext
    have hfits := (h text htext).2
    have hunsealed : Unsealed (resolveStr tables text (varMap vars)) :=
      resolveVars_settled hfits.settled ▸ hfits.unsealed
    rw [resolveField_fits hfits, decryptInline_unsealed hunsealed]
  simp only [fieldTexts, List.forall_mem_cons] at hfield
  obtain ⟨hvalue, hdomain, hpath, -⟩ := hfield
  simp only [decryptCookie, webFields, resolveCookie, mapFields, String.toList_ofList, hvalue,
    hdomain, hpath]

theorem desktopCookies_fits {fns : List BoundTemplateFunction} (hvars : PosixVars vars)
    (hvalues : ∀ v ∈ vars, Shared v.value.toList) (decryptValue : Text → Option Text)
    (key : Option Aead) {cookies : List StoredCookie}
    (h : ∀ c ∈ cookies, CookieFits tables vars c) :
    desktopCookies ⟨vars, fns⟩ decryptValue key cookies =
      .ok (resolveCookies tables (varMap vars) key cookies) := by
  have hweb : cookies.zipIdx.mapM
      (fun c => webCookie ⟨vars, fns⟩ decryptValue c.2 c.1) =
        .ok (cookies.zipIdx.map fun c => webFields tables vars c.1) :=
    Parts.mapM_of fun c hc =>
      webCookie_fits hvars hvalues decryptValue c.2 (h c.1 (List.fst_mem_of_mem_zipIdx hc))
  have hmap : cookies.zipIdx.map (fun c => webFields tables vars c.1) =
      cookies.map (webFields tables vars) := by
    conv_rhs => rw [← List.zipIdx_map_fst 0 cookies, List.map_map]
    rfl
  rw [desktopCookies, hweb, hmap, ok_bind, List.map_map]
  refine congrArg Except.ok (List.map_congr_left fun c hc => ?_)
  exact decryptCookie_webFields key (h c hc)

end

/-- Cookie fields resolve as all others exactly when every variable is settled. On such fields
the desktop and the tool send the same cookies. -/
theorem cookie_fields_resolve (tables : UnicodeTables) (key : Option Aead) :
    (∀ vars, ResolvesAlike tables vars key ↔ AllSettled tables vars) ∧
    (∀ vars text, FieldFits tables vars text →
      resolveField tables vars key text = resolveStr tables text vars) ∧
    ∀ vars fns decryptValue cookies, PosixVars vars → (∀ v ∈ vars, Shared v.value.toList) →
      (∀ c ∈ cookies, CookieFits tables vars c) →
      desktopCookies ⟨vars, fns⟩ decryptValue key cookies =
        .ok (resolveCookies tables (varMap vars) key cookies) :=
  ⟨fun vars => resolvesAlike_iff tables vars key, fun _ _ h => resolveField_fits h,
    fun _ _ decryptValue _ hvars hvalues h =>
      desktopCookies_fits hvars hvalues decryptValue key h⟩

/-! ### A cookie with a variable -/

theorem expressions_token {name : Text} (hid : '}' ∉ name) : expressions (token name) = [name] := by
  have hclose : splitOnce closing (name ++ closing) = some (name, []) := by
    simpa using @splitOnce_closing name [] hid
  rw [expressions_eq, splitOnce_token]
  simp only [hclose]
  rw [expressions_eq, show splitOnce opening [] = none from rfl]

theorem fieldFits_plain {tables : UnicodeTables} {vars : OrderedMap Text Text} {text : Text}
    (hopen : splitOnce opening text = none) (h : Unsealed text) : FieldFits tables vars text where
  settled inner hinner := by
    rw [expressions_eq, hopen] at hinner
    cases hinner
  unsealed := by
    rw [resolveVars_eq, hopen]
    exact h

theorem shared_plain {text : Text} (h : segments text = text.map .char) (hplain : Unquoted text) :
    Shared text := by
  have hnone : ∀ inner, .expr inner ∉ segments text := fun inner hmem => by
    rw [h] at hmem
    obtain ⟨c, -, hc⟩ := List.mem_map.mp hmem
    cases hc
  exact ⟨⟨hplain, fun inner hmem => absurd hmem (hnone inner)⟩,
    fun inner hmem => absurd hmem (hnone inner)⟩

def tokenCookie : StoredCookie where
  id := "ck_1"
  domain := "x.org"
  hostOnly := true
  path := "/"
  name := "n"
  value := String.ofList (token ['A'])
  valueEncrypted := false
  secure := false
  httpOnly := false
  sameSite := none
  expires := none
  createdAt := "2026-01-01T00:00:00Z"
  updatedAt := "2026-01-01T00:00:00Z"

theorem get?_one : (varMap one).get? ['A'] = some ['1'] := by decide

theorem settled_one : Settled UnicodeTables.asciiOnly (varMap one) ['A'] := fun value _ hvalue => by
  obtain rfl : ['1'] = value := by simpa [get?_one] using hvalue
  exact Resolve.resolveInner_unclosed (by decide)

theorem unsealed_short {text : Text} (h : text.length < 7) : Unsealed text := by
  have hchip : 7 ≤ chipPrefix.length := by decide
  have hcipher : 7 ≤ encPrefix.length := by decide
  constructor
  · intro hinfix
    have := hinfix.length_le
    omega
  · intro hinfix
    have := hinfix.length_le
    omega

theorem fieldFits_token : FieldFits UnicodeTables.asciiOnly (varMap one) (token ['A']) where
  settled inner hinner := by
    rw [expressions_token (by decide)] at hinner
    rw [List.mem_singleton.mp hinner]
    exact settled_one
  unsealed := by
    rw [(resolve_token (by decide) (by decide) get?_one).1]
    exact unsealed_short (by decide)

theorem shared_token : Shared (token ['A']) :=
  ⟨plainTemplate_expr ['A'] (by simp [Unquoted, token, opening, closing]) (by decide) (by decide),
    fun inner hmem hid => by
      rw [show segments (token ['A']) = [.expr ['A']] by decide] at hmem
      cases List.mem_singleton.mp hmem
      cases hid⟩

theorem cookieFits_token : CookieFits UnicodeTables.asciiOnly one tokenCookie := by
  simp only [CookieFits, fieldTexts, List.forall_mem_cons]
  refine ⟨⟨?_, ?_⟩, ⟨?_, ?_⟩, ⟨?_, ?_⟩, by simp⟩
  · simpa [tokenCookie] using shared_token
  · simpa [tokenCookie] using fieldFits_token
  · exact shared_plain (by decide) (by simp [Unquoted, tokenCookie])
  · exact fieldFits_plain (by decide) (unsealed_short (by decide))
  · exact shared_plain (by decide) (by simp [Unquoted, tokenCookie])
  · exact fieldFits_plain (by decide) (unsealed_short (by decide))

theorem shared_one : ∀ v ∈ one, Shared v.value.toList :=
  List.forall_mem_singleton.mpr (shared_plain (by decide) (by simp [Unquoted]))

theorem cookie_fields_resolve_token :
    (ResolvesAlike UnicodeTables.asciiOnly (varMap one) none ↔
      AllSettled UnicodeTables.asciiOnly (varMap one)) ∧
    resolveField UnicodeTables.asciiOnly (varMap one) none (token ['A']) =
      resolveStr UnicodeTables.asciiOnly (token ['A']) (varMap one) ∧
    desktopCookies ⟨one, []⟩ (fun _ => none) none [tokenCookie] =
      .ok (resolveCookies UnicodeTables.asciiOnly (varMap one) none [tokenCookie]) := by
  obtain ⟨hmap, hfield, hdesktop⟩ := cookie_fields_resolve UnicodeTables.asciiOnly none
  exact ⟨hmap _, hfield _ _ fieldFits_token,
    hdesktop one [] _ _ posixVars_one shared_one (List.forall_mem_singleton.mpr cookieFits_token)⟩

/-! ### A variable that is defined through another -/

def chain : OrderedMap Text Text := ofList [(['A'], token ['B']), (['B'], ['1'])]

theorem chain_a : resolveVars UnicodeTables.asciiOnly chain (token ['A']) = token ['B'] ∧
    resolveStr UnicodeTables.asciiOnly (token ['A']) chain = ['1'] := by
  obtain ⟨hvars, hstr⟩ := @resolve_token UnicodeTables.asciiOnly chain ['A'] (token ['B'])
    (by decide) (by decide) (by decide)
  refine ⟨hvars, ?_⟩
  rw [hstr, token, Resolve.resolveInner_expr (show splitOnce closing (['B'] ++ closing) =
    some (['B'], []) by decide), resolveName, if_pos (by decide),
    show chain.get? (strTrim ['B']) = some ['1'] by decide]
  simp only [Resolve.resolveInner_unclosed (show ¬ closing <:+: ['1'] by decide),
    Resolve.resolveInner_unclosed (show ¬ closing <:+: [] by decide), List.append_nil]

theorem cookie_keeps_reference :
    ¬ ∀ (tables : UnicodeTables) (vars : OrderedMap Text Text) (key : Option Aead) (text : Text),
      Unsealed text → (∀ e ∈ vars.entries, Unsealed e.2) →
      resolveField tables vars key text = resolveStr tables text vars := by
  intro h
  obtain ⟨hvars, hstr⟩ := chain_a
  have hvalues : ∀ e ∈ chain.entries, Unsealed e.2 := fun e he => by
    have hentries : chain.entries = [(['A'], token ['B']), (['B'], ['1'])] := by decide
    rw [hentries] at he
    rcases List.mem_pair.mp he with rfl | rfl
    · exact unsealed_short (by decide)
    · exact unsealed_short (by decide)
  have hsame := h UnicodeTables.asciiOnly chain none (token ['A']) (unsealed_short (by decide))
    hvalues
  rw [resolveField_unsealed (hvars ▸ unsealed_short (by decide)), hvars, hstr] at hsame
  exact absurd hsame (by decide)

end Voleeo.Cookies
