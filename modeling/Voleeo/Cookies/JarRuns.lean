import Voleeo.Commands.Requests
import Voleeo.Cookies.Matching
import Voleeo.Parts

/-!
# The writers of a cookie jar

The editor, the `cookie.set_cookie` tool, captures of responses, deletions and
prunings change a jar one after another. The editor goes by the id where it has
one, the others by the identity.
-/
namespace Voleeo.Cookies
open Crypto Commands Mcp
open Resolve (toAsciiLowercase)

/-! ## Calls -/

/-- `transform_cookie_values`: nothing is needed for a jar in clear. -/
def transformCookieValues (around : Surroundings) (direction : Direction)
    (cookies : List StoredCookie) : Except VoleeoError (List StoredCookie) :=
  if !jarNeedsKey cookies then .ok cookies
  else do
    let encrypted ← around.encrypted
    if !encrypted then .error (.invalidConfig "workspace_encryption_required")
    else
      let aead ← around.key
      match direction with
      | .decrypt => decryptValues aead cookies
      | .encrypt => .ok (encryptValues aead around.nonce cookies)

/-- Decrypt, edit and encrypt, as every writer of the desktop does. -/
def editJar (around : Surroundings) (edit : List StoredCookie → List StoredCookie)
    (jar : CookieJar) : Except VoleeoError CookieJar := do
  let cookies ← transformCookieValues around .decrypt jar.cookies
  let cookies ← transformCookieValues around .encrypt (edit cookies)
  return { jar with cookies, updatedAt := around.now }

/-- The cookie that the editor saves goes by its id, or else by its identity. -/
def matchesSaved (cookie c : StoredCookie) : Bool :=
  if cookie.id ≠ "" then c.id = cookie.id else sameIdentity c cookie

def saveCookie (now newId : String) (cookie : StoredCookie) :
    List StoredCookie → List StoredCookie :=
  upsert (matchesSaved cookie)
    (fun existing =>
      { cookie with id := existing.id, createdAt := existing.createdAt, updatedAt := now })
    { cookie with
      id := if cookie.id = "" then "ck_" ++ newId else cookie.id
      createdAt := now
      updatedAt := now }

def cookiesSaveCookie (around : Surroundings) (newId : String) (cookie : StoredCookie) :
    CookieJar → Except VoleeoError CookieJar :=
  editJar around (saveCookie around.now newId cookie)

def cookiesDeleteCookie (around : Surroundings) (cookieId : String) (jar : CookieJar) :
    Except VoleeoError CookieJar :=
  .ok { jar with
    cookies := jar.cookies.filter fun c => c.id ≠ cookieId, updatedAt := around.now }

/-- The desktop command and `clear_jar_impl` of the tools. -/
def cookiesClearJar (around : Surroundings) (jar : CookieJar) : Except VoleeoError CookieJar :=
  .ok { jar with cookies := [], updatedAt := around.now }

def cookiesClearExpired (libs : Libraries) (around : Surroundings) (now : ℤ) (jar : CookieJar) :
    Except VoleeoError CookieJar :=
  let kept := pruneExpired libs now jar.cookies
  if jar.cookies.length - kept.length > 0 then
    .ok { jar with cookies := kept, updatedAt := around.now }
  else .ok jar

/-- The desktop reads the workspace before the jar. -/
def ingestCapturedCookies (around : Surroundings) (captured : List StoredCookie)
    (jar : CookieJar) : Except VoleeoError CookieJar :=
  if captured = [] then .ok jar
  else do
    let encrypted ← around.encrypted
    editJar around (putCookies encrypted captured) jar

def ingestCapturedBlocking (around : Surroundings) (captured : List StoredCookie)
    (jar : CookieJar) : Except VoleeoError CookieJar :=
  if captured = [] then .ok jar else ingest around captured jar

/-- The arguments of `cookie.set_cookie`. -/
structure SetCookieArgs where
  domain : String
  name : String
  value : String
  path : Option String
  hostOnly : Option Bool
  secure : Option Bool
  httpOnly : Option Bool
  sameSite : Option String
  expires : Option String

def parseSameSite (s : String) : Option SameSite :=
  match toAsciiLowercase s with
  | "strict" => some .strict
  | "lax" => some .lax
  | "none" => some .none
  | _ => none

/-- Why the tool refuses its arguments. -/
def refusal (args : SetCookieArgs) : Option String :=
  if args.value = mask then
    some ("value is the masked placeholder; pass the real cookie value (read the jar with " ++
      "reveal=true to see it)")
  else
    match args.sameSite with
    | some s =>
      if (parseSameSite s).isNone then
        some ("invalid sameSite \"" ++ s ++ "\" — expected Strict, Lax, or None")
      else none
    | none => none

/-- The cookie that the tool makes when it finds none. -/
def SetCookieArgs.cookie (args : SetCookieArgs) (now newId : String) (encrypted : Bool) :
    StoredCookie where
  id := "ck_" ++ newId
  domain := args.domain
  hostOnly := args.hostOnly.getD true
  path := args.path.getD "/"
  name := args.name
  value := args.value
  valueEncrypted := encrypted
  secure := args.secure.getD false
  httpOnly := args.httpOnly.getD false
  sameSite := args.sameSite.bind parseSameSite
  expires := args.expires
  createdAt := now
  updatedAt := now

def setCookie (now newId : String) (args : SetCookieArgs) (encrypted : Bool) :
    List StoredCookie → List StoredCookie :=
  let fresh := args.cookie now newId encrypted
  upsert (sameIdentity · fresh)
    (fun existing => { refresh fresh existing with valueEncrypted := encrypted }) fresh

def cookieSetCookie (around : Surroundings) (newId : String) (args : SetCookieArgs)
    (jar : CookieJar) : Except VoleeoError CookieJar :=
  match refusal args with
  | some message => .error (.invalidConfig message)
  | none => do
      let encrypted ← around.encrypted
      editJar around (setCookie around.now newId args encrypted) jar

/-! ## Runs -/

inductive JarCall
  | save (cookie : StoredCookie)
  | set (args : SetCookieArgs)
  | capture (headers : List SetCookieHeader)
  | captureByTool (headers : List SetCookieHeader)
  | delete (cookieId : String)
  | clear
  | clearExpired (now : ℤ)

/-- A call with the ids that it draws. `fault` tells that the jar cannot be loaded or saved. -/
structure JarStep where
  call : JarCall
  around : Surroundings
  newIds : ℕ → String
  fault : Bool

variable (libs : Libraries)

/-- The jar that the call saves. -/
def JarStep.saved (s : JarStep) (jar : CookieJar) : Except VoleeoError CookieJar :=
  match s.call with
  | .save cookie => cookiesSaveCookie s.around (s.newIds 0) cookie jar
  | .set args => cookieSetCookie s.around (s.newIds 0) args jar
  | .capture headers => ingestCapturedCookies s.around (captureAll libs s.newIds headers) jar
  | .captureByTool headers =>
    ingestCapturedBlocking s.around (captureAll libs s.newIds headers) jar
  | .delete cookieId => cookiesDeleteCookie s.around cookieId jar
  | .clear => cookiesClearJar s.around jar
  | .clearExpired now => cookiesClearExpired libs s.around now jar

/-- A call that fails leaves the jar. -/
def JarStep.exec (jar : CookieJar) (s : JarStep) : CookieJar :=
  match s.saved libs jar with
  | .ok jar' => if s.fault then jar else jar'
  | .error _ => jar

/-- The jars of a run, the first one included. -/
def runJar (jar : CookieJar) (steps : List JarStep) : List CookieJar :=
  steps.scanl (JarStep.exec libs) jar

/-- A drawn id is new: it differs from the others and from those in the jar. -/
structure FreshIds (newIds : ℕ → String) (cookies : List StoredCookie) : Prop where
  inj : newIds.Injective
  new : ∀ i, ∀ c ∈ cookies, c.id ≠ "ck_" ++ newIds i

/-- A cookie that the editor saves under an id takes no identity of another cookie. -/
def JarStep.Fits (s : JarStep) (jar : CookieJar) : Prop :=
  match s.call with
  | .save cookie => cookie.id ≠ "" →
      ∀ c ∈ jar.cookies, c.id ≠ cookie.id → identity c ≠ identity cookie
  | _ => True

/-- Every step of the run draws new ids and fits the jar that it finds. -/
def FittingSteps : CookieJar → List JarStep → Prop
  | _, [] => True
  | jar, s :: steps =>
    FreshIds s.newIds jar.cookies ∧ s.Fits jar ∧ FittingSteps (s.exec libs jar) steps

/-- Whatever its fields resolve to, no request carries two cookies of one identity. -/
def SendsOnce (cookies : List StoredCookie) : Prop :=
  ∀ (resolve : StoredCookie → StoredCookie) (url : Url) (now : ℤ), ∃ sent : List StoredCookie,
    matching libs (cookies.map resolve) url now = sent.map resolve ∧
      (sent.map identity).Nodup ∧ ∀ c ∈ sent, c ∈ cookies

/-! ## What the transforms keep -/

/-- The id and the identity; a transform of the values keeps both. -/
def mark (c : StoredCookie) : String × String × String × String := (c.id, identity c)

variable {cookies cookies' : List StoredCookie} {around : Surroundings}

theorem ids_eq (h : cookies'.map mark = cookies.map mark) :
    cookies'.map (·.id) = cookies.map (·.id) := by
  simpa [mark, Function.comp_def] using congrArg (List.map Prod.fst) h

theorem identities_eq (h : cookies'.map mark = cookies.map mark) :
    cookies'.map identity = cookies.map identity := by
  simpa [mark, Function.comp_def] using congrArg (List.map Prod.snd) h

theorem distinct_of_marks (h : cookies'.map mark = cookies.map mark) (hd : Distinct cookies) :
    Distinct cookies' :=
  ⟨ids_eq h ▸ hd.ids, identities_eq h ▸ hd.identities⟩

theorem exists_of_marks (h : cookies'.map mark = cookies.map mark) {c : StoredCookie}
    (hc : c ∈ cookies') : ∃ d ∈ cookies, d.id = c.id ∧ identity d = identity c := by
  have hmem : mark c ∈ cookies.map mark := h ▸ List.mem_map_of_mem hc
  obtain ⟨d, hd, hmark⟩ := List.mem_map.mp hmem
  exact ⟨d, hd, congrArg Prod.fst hmark, congrArg Prod.snd hmark⟩

theorem marks_decryptValues {aead : Aead} (h : decryptValues aead cookies = .ok cookies') :
    cookies'.map mark = cookies.map mark := by
  refine map_eq_of_mapM (fun c d hd => ?_) h
  rw [decryptValue] at hd
  split_ifs at hd
  · cases hvalue : decrypt aead c.value with
    | error e => simp [hvalue, Except.map] at hd
    | ok value =>
      rw [hvalue] at hd
      cases hd
      rfl
  · cases hd
    rfl

theorem marks_encryptValues (aead : Aead) (nonce : ℕ → Nonce) (cookies : List StoredCookie) :
    (encryptValues aead nonce cookies).map mark = cookies.map mark := by
  apply List.ext_getElem (by simp [encryptValues])
  intro i hi hi'
  simp only [encryptValues, List.getElem_map, List.getElem_mapIdx]
  split_ifs <;> rfl

theorem marks_transform {direction : Direction}
    (h : transformCookieValues around direction cookies = .ok cookies') :
    cookies'.map mark = cookies.map mark := by
  rw [transformCookieValues] at h
  split_ifs at h
  · cases h
    rfl
  · obtain ⟨encrypted, -, h⟩ := ok_of_bind h
    split_ifs at h
    obtain ⟨aead, -, h⟩ := ok_of_bind h
    cases direction with
    | decrypt => exact marks_decryptValues h
    | encrypt =>
      cases h
      exact marks_encryptValues aead around.nonce cookies

/-- A writer keeps the jar distinct if its edit does, on the cookies as they are read. -/
theorem distinct_editJar {edit : List StoredCookie → List StoredCookie} {jar jar' : CookieJar}
    (h : editJar around edit jar = .ok jar')
    (hedit : ∀ cookies, cookies.map mark = jar.cookies.map mark → Distinct (edit cookies)) :
    Distinct jar'.cookies := by
  obtain ⟨decrypted, hdecrypted, h⟩ := ok_of_bind h
  obtain ⟨encrypted, hencrypted, h⟩ := ok_of_bind h
  cases h
  exact distinct_of_marks (marks_transform hencrypted) (hedit _ (marks_transform hdecrypted))

/-! ## What one call keeps -/

/-- An upsert by identity that keeps the id of what it replaces. -/
theorem distinct_upsert {p : StoredCookie → Bool} {replace : StoredCookie → StoredCookie}
    {fresh : StoredCookie} (h : Distinct cookies)
    (hp : ∀ c, p c = true ↔ identity c = identity fresh) (hid : ∀ c, (replace c).id = c.id)
    (hidentity : ∀ c, identity c = identity fresh → identity (replace c) = identity c)
    (hnew : ∀ c ∈ cookies, c.id ≠ fresh.id) : Distinct (upsert p replace fresh cookies) where
  ids := nodup_upsert (fun c : StoredCookie => c.id) h.ids
    (fun x _ _ y _ hkey => hkey.trans (hid x)) fun _ => hnew
  identities := by
    refine nodup_upsert identity h.identities (fun x _ hx y _ hkey => ?_) fun hnone x hx hsame => ?_
    · exact hkey.trans (hidentity x ((hp x).mp hx))
    · have hmatched := (hp x).mpr hsame
      rw [hnone x hx] at hmatched
      cases hmatched

theorem ids_upsert {p : StoredCookie → Bool} {replace : StoredCookie → StoredCookie}
    {fresh c : StoredCookie} (hc : c ∈ upsert p replace fresh cookies)
    (hid : ∀ c, (replace c).id = c.id) : c.id = fresh.id ∨ ∃ d ∈ cookies, d.id = c.id := by
  rcases mem_upsert hc with hc | ⟨rfl, -⟩ | ⟨d, hd, -, rfl⟩
  · exact Or.inr ⟨c, hc, rfl⟩
  · exact Or.inl rfl
  · exact Or.inr ⟨d, hd, (hid d).symm⟩

theorem distinct_saveCookie {now newId : String} {cookie : StoredCookie} (h : Distinct cookies)
    (hnew : ∀ c ∈ cookies, c.id ≠ "ck_" ++ newId)
    (hfits : cookie.id ≠ "" → ∀ c ∈ cookies, c.id ≠ cookie.id → identity c ≠ identity cookie) :
    Distinct (saveCookie now newId cookie cookies) := by
  by_cases hid : cookie.id = ""
  · rw [saveCookie, if_pos hid]
    refine distinct_upsert h (fun c => ?_) (fun _ => rfl) (fun c hc => hc.symm) hnew
    rw [matchesSaved, if_neg (not_not.mpr hid), sameIdentity_iff]
    rfl
  · have hmatch : ∀ c, matchesSaved cookie c = true ↔ c.id = cookie.id := by
      intro c
      simp [matchesSaved, hid]
    have hnomatch : ∀ c, matchesSaved cookie c = false ↔ c.id ≠ cookie.id := by
      intro c
      simp [matchesSaved, hid]
    rw [saveCookie, if_neg hid]
    refine ⟨nodup_upsert (fun c : StoredCookie => c.id) h.ids (fun x _ _ y _ hkey => hkey)
      fun hnone x hx => (hnomatch x).mp (hnone x hx), nodup_upsert identity h.identities ?_ ?_⟩
    · -- Only the cookie itself may have the identity that it is saved with.
      intro x hx hmatched y hy hkey
      have hyid : y.id = cookie.id := by
        by_contra hne
        exact hfits hid y hy hne hkey
      have hxid : x.id = cookie.id := (hmatch x).mp hmatched
      rw [List.inj_on_of_nodup_map h.ids hy hx (hyid.trans hxid.symm)]
    · exact fun hnone x hx => hfits hid x hx ((hnomatch x).mp (hnone x hx))

theorem distinct_setCookie {now newId : String} {args : SetCookieArgs} {encrypted : Bool}
    (h : Distinct cookies) (hnew : ∀ c ∈ cookies, c.id ≠ "ck_" ++ newId) :
    Distinct (setCookie now newId args encrypted cookies) :=
  distinct_upsert h (fun _ => sameIdentity_iff) (fun _ => rfl) (fun _ _ => rfl) hnew

theorem putCookie_eq (encrypted : Bool) (fresh : StoredCookie) (cookies : List StoredCookie) :
    putCookie encrypted fresh cookies =
      upsert (sameIdentity · { fresh with valueEncrypted := encrypted })
        (fun c => { fresh with valueEncrypted := encrypted, id := c.id, createdAt := c.createdAt })
        { fresh with valueEncrypted := encrypted } cookies := by
  induction cookies with
  | nil => rfl
  | cons c cookies ih => rw [putCookie, upsert, ← ih]; rfl

theorem distinct_putCookies {encrypted : Bool} {captured : List StoredCookie}
    (h : Distinct cookies) (hcaptured : (captured.map (·.id)).Nodup)
    (hnew : ∀ fresh ∈ captured, ∀ c ∈ cookies, c.id ≠ fresh.id) :
    Distinct (putCookies encrypted captured cookies) := by
  rw [putCookies]
  induction captured generalizing cookies with
  | nil => exact h
  | cons fresh captured ih =>
    obtain ⟨hfresh, hrest⟩ := List.nodup_cons.mp hcaptured
    rw [List.foldl_cons, putCookie_eq]
    refine ih (distinct_upsert h (fun _ => sameIdentity_iff) (fun _ => rfl)
      (fun _ hc => hc.symm) (hnew fresh List.mem_cons_self)) hrest fun other hother c hc => ?_
    rcases ids_upsert hc fun _ => rfl with hid | ⟨d, hd, hid⟩
    · exact fun hsame => hfresh (List.mem_map.mpr ⟨other, hother, hsame.symm.trans hid⟩)
    · exact hid ▸ hnew other (List.mem_cons_of_mem _ hother) d hd

variable {libs}

theorem id_readSetCookie {newId header : String} {url : Url} {now : ℤ} {fresh : StoredCookie}
    (h : readSetCookie libs newId header url now = some fresh) : fresh.id = "ck_" ++ newId := by
  rw [readSetCookie] at h
  obtain ⟨parsed, -, h⟩ := Option.bind_eq_some_iff.mp h
  extract_lets name at h
  split at h
  · cases h
  obtain ⟨host, -, h⟩ := Option.bind_eq_some_iff.mp h
  extract_lets requestHost at h
  obtain ⟨⟨domain, hostOnly⟩, -, h⟩ := Option.bind_eq_some_iff.mp h
  dsimp only at h
  split_ifs at h
  cases h
  rfl

/-- The ids of a sink are those drawn so far, each at most once. -/
structure Drawn (newIds : ℕ → String) (n : ℕ) (sink : List StoredCookie) : Prop where
  ids : (sink.map (·.id)).Nodup
  drawn : ∀ c ∈ sink, ∃ i < n, c.id = "ck_" ++ newIds i

theorem drawn_ingest {newIds : ℕ → String} {n : ℕ} {sink : List StoredCookie} {header : String}
    {url : Url} {now : ℤ} (hinj : newIds.Injective) (h : Drawn newIds n sink) :
    Drawn newIds (n + 1) (ingestSetCookie libs (newIds n) header url now sink) := by
  rw [ingestSetCookie]
  split
  · exact ⟨h.ids, fun c hc => (h.drawn c hc).imp fun i hi => ⟨by omega, hi.2⟩⟩
  · rename_i fresh hread
    have hid := id_readSetCookie hread
    refine ⟨nodup_upsert (fun c : StoredCookie => c.id) h.ids (fun x _ _ y _ hkey => hkey)
      fun _ x hx hsame => ?_, fun c hc => ?_⟩
    · obtain ⟨i, hi, hxid⟩ := h.drawn x hx
      have hdrawn : "ck_" ++ newIds i = "ck_" ++ newIds n := hxid.symm.trans (hsame.trans hid)
      have hin : i = n := hinj (String.append_right_inj "ck_" |>.mp hdrawn)
      omega
    · rcases ids_upsert hc fun _ => rfl with hfresh | ⟨d, hd, hsame⟩
      · exact ⟨n, by omega, hfresh.trans hid⟩
      · obtain ⟨i, hi, hdid⟩ := h.drawn d hd
        exact ⟨i, by omega, hsame.symm.trans hdid⟩

theorem drawn_captureAll {newIds : ℕ → String} (hinj : newIds.Injective)
    (headers : List SetCookieHeader) : ∃ n, Drawn newIds n (captureAll libs newIds headers) := by
  have hfold : ∀ n sink, Drawn newIds n sink → Drawn newIds (n + headers.length)
      ((headers.zipIdx n).foldl (fun sink h =>
        ingestSetCookie libs (newIds h.2) h.1.header h.1.url h.1.now sink) sink) := by
    induction headers with
    | nil => exact fun n sink h => h
    | cons header headers ih =>
      intro n sink h
      rw [List.zipIdx_cons, List.foldl_cons, List.length_cons,
        show n + (headers.length + 1) = n + 1 + headers.length by omega]
      exact ih (n + 1) _ (drawn_ingest hinj h)
  exact ⟨_, hfold 0 [] ⟨List.nodup_nil, by simp⟩⟩

/-- A capture adds cookies under ids of its own. -/
theorem distinct_capture {newIds : ℕ → String} {encrypted : Bool}
    {headers : List SetCookieHeader} (h : Distinct cookies) (hfresh : FreshIds newIds cookies) :
    Distinct (putCookies encrypted (captureAll libs newIds headers) cookies) := by
  obtain ⟨n, hdrawn⟩ := drawn_captureAll hfresh.inj headers
  refine distinct_putCookies h hdrawn.ids fun fresh hmem c hc => ?_
  obtain ⟨i, -, hid⟩ := hdrawn.drawn fresh hmem
  exact hid ▸ hfresh.new i c hc

theorem distinct_filter {p : StoredCookie → Bool} (h : Distinct cookies) :
    Distinct (cookies.filter p) where
  ids := h.ids.sublist (List.filter_sublist.map _)
  identities := h.identities.sublist (List.filter_sublist.map _)

theorem freshIds_of_marks {newIds : ℕ → String} (h : cookies'.map mark = cookies.map mark)
    (hfresh : FreshIds newIds cookies) : FreshIds newIds cookies' where
  inj := hfresh.inj
  new i c hc := by
    obtain ⟨d, hd, hid, -⟩ := exists_of_marks h hc
    exact hid ▸ hfresh.new i d hd

section
variable {newIds : ℕ → String} {headers : List SetCookieHeader} {jar jar' : CookieJar}

theorem distinct_cookiesSaveCookie {cookie : StoredCookie} (h : Distinct jar.cookies)
    (hfresh : FreshIds newIds jar.cookies)
    (hfits : cookie.id ≠ "" → ∀ c ∈ jar.cookies, c.id ≠ cookie.id → identity c ≠ identity cookie)
    (hsaved : cookiesSaveCookie around (newIds 0) cookie jar = .ok jar') :
    Distinct jar'.cookies := by
  refine distinct_editJar hsaved fun cookies hmarks => ?_
  refine distinct_saveCookie (distinct_of_marks hmarks h)
    ((freshIds_of_marks hmarks hfresh).new 0) fun hid c hc hne => ?_
  obtain ⟨d, hd, hdid, hidentity⟩ := exists_of_marks hmarks hc
  exact hidentity ▸ hfits hid d hd (hdid ▸ hne)

theorem distinct_cookieSetCookie {args : SetCookieArgs} (h : Distinct jar.cookies)
    (hfresh : FreshIds newIds jar.cookies)
    (hsaved : cookieSetCookie around (newIds 0) args jar = .ok jar') : Distinct jar'.cookies := by
  rw [cookieSetCookie] at hsaved
  split at hsaved
  · cases hsaved
  · obtain ⟨encrypted, -, hsaved⟩ := ok_of_bind hsaved
    exact distinct_editJar hsaved fun cookies hmarks =>
      distinct_setCookie (distinct_of_marks hmarks h) ((freshIds_of_marks hmarks hfresh).new 0)

theorem distinct_ingestCapturedCookies (h : Distinct jar.cookies)
    (hfresh : FreshIds newIds jar.cookies)
    (hsaved : ingestCapturedCookies around (captureAll libs newIds headers) jar = .ok jar') :
    Distinct jar'.cookies := by
  rw [ingestCapturedCookies] at hsaved
  split_ifs at hsaved
  · cases hsaved
    exact h
  · obtain ⟨encrypted, -, hsaved⟩ := ok_of_bind hsaved
    exact distinct_editJar hsaved fun cookies hmarks =>
      distinct_capture (distinct_of_marks hmarks h) (freshIds_of_marks hmarks hfresh)

theorem distinct_ingestCapturedBlocking (h : Distinct jar.cookies)
    (hfresh : FreshIds newIds jar.cookies)
    (hsaved : ingestCapturedBlocking around (captureAll libs newIds headers) jar = .ok jar') :
    Distinct jar'.cookies := by
  rw [ingestCapturedBlocking] at hsaved
  split_ifs at hsaved
  · cases hsaved
    exact h
  · obtain ⟨encrypted, -, hsaved⟩ := ok_of_bind hsaved
    split_ifs at hsaved
    · obtain ⟨aead, -, hsaved⟩ := ok_of_bind hsaved
      obtain ⟨decrypted, hdecrypted, hsaved⟩ := ok_of_bind hsaved
      cases hsaved
      have hmarks := marks_decryptValues hdecrypted
      exact distinct_of_marks (marks_encryptValues _ _ _)
        (distinct_capture (distinct_of_marks hmarks h) (freshIds_of_marks hmarks hfresh))
    · cases hsaved
      exact distinct_capture h hfresh

theorem distinct_cookiesClearExpired {now : ℤ} (h : Distinct jar.cookies)
    (hsaved : cookiesClearExpired libs around now jar = .ok jar') : Distinct jar'.cookies := by
  rw [cookiesClearExpired] at hsaved
  split_ifs at hsaved
  · cases hsaved
    exact distinct_filter h
  · cases hsaved
    exact h

end

/-! ## Runs keep the jar distinct -/

/-- One call, with new ids and fields that fit the jar. -/
theorem distinct_exec {s : JarStep} {jar : CookieJar} (h : Distinct jar.cookies)
    (hfresh : FreshIds s.newIds jar.cookies) (hfits : s.Fits jar) :
    Distinct (s.exec libs jar).cookies := by
  have hsaves : ∀ jar', s.saved libs jar = .ok jar' → Distinct jar'.cookies := by
    obtain ⟨call, around, newIds, fault⟩ := s
    intro jar' hsaved
    cases call with
    | save cookie => exact distinct_cookiesSaveCookie h hfresh hfits hsaved
    | set args => exact distinct_cookieSetCookie h hfresh hsaved
    | capture headers => exact distinct_ingestCapturedCookies h hfresh hsaved
    | captureByTool headers => exact distinct_ingestCapturedBlocking h hfresh hsaved
    | delete cookieId =>
      cases hsaved
      exact distinct_filter h
    | clear =>
      cases hsaved
      exact ⟨List.nodup_nil, List.nodup_nil⟩
    | clearExpired now => exact distinct_cookiesClearExpired h hsaved
  rw [JarStep.exec]
  split
  · rename_i jar' hsaved
    split_ifs
    · exact h
    · exact hsaves jar' hsaved
  · exact h

theorem distinct_run {steps : List JarStep} {jar : CookieJar} (h : Distinct jar.cookies)
    (hrun : FittingSteps libs jar steps) :
    ∀ jar' ∈ runJar libs jar steps, Distinct jar'.cookies := by
  induction steps generalizing jar with
  | nil => simpa [runJar] using h
  | cons s steps ih =>
    rw [runJar, List.scanl_cons]
    refine List.forall_mem_cons.mpr ⟨h, ?_⟩
    exact ih (distinct_exec h hrun.1 hrun.2.1) hrun.2.2

theorem sendsOnce_of_distinct (libs : Libraries) (h : Distinct cookies) :
    SendsOnce libs cookies := by
  intro resolve url now
  rw [matching]
  cases url.host with
  | none => exact ⟨[], rfl, List.nodup_nil, by simp⟩
  | some host =>
    dsimp only
    rw [List.filter_map]
    set p := attaches libs url (toAsciiLowercase host) now ∘ resolve
    refine ⟨(cookies.filter p).mergeSort fun a b => sendOrder (resolve a) (resolve b), ?_, ?_, ?_⟩
    · exact (List.map_mergeSort (f := resolve) (s := sendOrder) fun _ _ _ _ => rfl).symm
    · have hperm := List.mergeSort_perm (cookies.filter p)
        fun a b => sendOrder (resolve a) (resolve b)
      exact (hperm.map identity).nodup_iff.mpr (distinct_filter h).identities
    · exact fun c hc => (List.mem_filter.mp (List.mem_mergeSort.mp hc)).1

/-- In every fitting run the jar keeps one cookie for each id and identity, and so does what is
sent. -/
theorem jar_run_distinct (libs : Libraries) (jar : CookieJar) (steps : List JarStep)
    (h : Distinct jar.cookies) (hrun : FittingSteps libs jar steps) :
    ∀ jar' ∈ runJar libs jar steps, Distinct jar'.cookies ∧ SendsOnce libs jar'.cookies :=
  fun jar' hmem => ⟨distinct_run h hrun jar' hmem,
    sendsOnce_of_distinct libs (distinct_run h hrun jar' hmem)⟩

/-! ## An edit that collides -/

/-- Libraries that accept nothing. -/
def noLibraries : Libraries where
  parseCookie _ := none
  parseRfc3339 _ := none
  toRfc3339 _ := ""
  fromTimestamp _ := none
  isIpAddr _ := false

def cookieAt (id name value : String) : StoredCookie where
  id := id
  domain := "shop.test"
  hostOnly := true
  path := "/"
  name := name
  value := value
  valueEncrypted := false
  secure := false
  httpOnly := false
  sameSite := none
  expires := none
  createdAt := "t0"
  updatedAt := "t0"

def twoCookies : CookieJar where
  id := "default"
  workspaceId := "ws_1"
  name := "Default"
  cookies := [cookieAt "ck_1" "session" "old", cookieAt "ck_2" "theme" "dark"]
  createdAt := "t0"
  updatedAt := "t0"

/-- Ids that all start with an `x`. -/
def drawnIds (i : ℕ) : String := String.ofList (List.replicate (i + 1) 'x')

/-- The editor saves the second cookie under a name. -/
def renameTo (name : String) : JarStep where
  call := .save (cookieAt "ck_2" name "dark")
  around := ⟨.ok false, .error (.crypto "no key"), "t1", zeros⟩
  newIds := drawnIds
  fault := false

theorem distinct_twoCookies : Distinct twoCookies.cookies := ⟨by decide, by decide⟩

theorem drawnIds_fresh : FreshIds drawnIds twoCookies.cookies where
  inj i j h := by
    have hlength := congrArg (fun s => s.toList.length) h
    simpa [drawnIds] using hlength
  new i c hc h := by
    have hfourth := congrArg (fun s => s.toList[3]?) h
    rcases List.mem_pair.mp hc with rfl | rfl <;> simp [cookieAt, drawnIds] at hfourth

theorem rename_keeps_distinct :
    (runJar noLibraries twoCookies [renameTo "color"]).Forall fun jar =>
      Distinct jar.cookies ∧ SendsOnce noLibraries jar.cookies :=
  List.forall_iff_forall_mem.mpr (jar_run_distinct noLibraries twoCookies _ distinct_twoCookies
    ⟨drawnIds_fresh, fun _ => by decide, trivial⟩)

/-- The second cookie takes the name of the first. -/
theorem rename_collides : Distinct twoCookies.cookies ∧
    FreshIds (renameTo "session").newIds twoCookies.cookies ∧
    ¬ ∀ jar ∈ runJar noLibraries twoCookies [renameTo "session"], Distinct jar.cookies := by
  refine ⟨distinct_twoCookies, drawnIds_fresh, fun h => ?_⟩
  have hlast := (h _ (List.mem_cons_of_mem _ List.mem_cons_self)).identities
  exact absurd hlast (by decide)

end Voleeo.Cookies
