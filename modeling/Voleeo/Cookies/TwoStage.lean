import Voleeo.Cookies.JarRuns

/-!
# Captures in two stages

The headers of a send enter a sink, and the sink enters the jar. The jar is then
the one that the headers would have made of it one by one, but for the letter
case of domains and the flag of encrypted values.
-/
namespace Voleeo.Cookies
open Mcp (sameIdentity putCookie putCookies)
open Resolve (toAsciiLowercase)

variable (libs : Libraries)

/-- The headers enter a list directly. The `i`-th header gets the `i`-th id. -/
def ingestAll (newIds : ℕ → String) (headers : List SetCookieHeader)
    (cookies : List StoredCookie) : List StoredCookie :=
  headers.zipIdx.foldl (fun cookies h =>
    ingestSetCookie libs (newIds h.2) h.1.header h.1.url h.1.now cookies) cookies

theorem captureAll_eq (newIds : ℕ → String) (headers : List SetCookieHeader) :
    captureAll libs newIds headers = ingestAll libs newIds headers [] := rfl

/-! ## What the comparison leaves out -/

def plainEntry (c : StoredCookie) : StoredCookie :=
  { c with domain := toAsciiLowercase c.domain, valueEncrypted := false }

/-- A fresh entry takes over where an existing one comes from. -/
def keepOrigin (fresh existing : StoredCookie) : StoredCookie :=
  { fresh with id := existing.id, createdAt := existing.createdAt }

theorem merges_keepOrigin : Merges identity keepOrigin where
  keeps _ _ _ := rfl
  assoc _ _ _ _ _ := rfl

theorem toLower_toLower (c : Char) : c.toLower.toLower = c.toLower := by
  simp only [Char.toLower]
  split
  · split
    · rename_i hupper hlower
      simp only [UInt32.le_iff_toNat_le, UInt32.toNat_add] at hupper hlower
      have hletter : 65 ≤ c.val.toNat ∧ c.val.toNat ≤ 90 := hupper
      have hshifted : (c.val.toNat + 32) % 2 ^ 32 ≤ 90 := hlower.2
      omega
    · rfl
  · rfl

theorem toAsciiLowercase_ofList_map (cs : List Char) :
    toAsciiLowercase (String.ofList (cs.map Char.toLower)) =
      String.ofList (cs.map Char.toLower) := by
  simp [toAsciiLowercase, Function.comp_def, toLower_toLower]

theorem toAsciiLowercase_toAsciiLowercase (s : String) :
    toAsciiLowercase (toAsciiLowercase s) = toAsciiLowercase s :=
  toAsciiLowercase_ofList_map s.toList

theorem identity_plainEntry (c : StoredCookie) : identity (plainEntry c) = identity c := by
  rw [identity, plainEntry, toAsciiLowercase_toAsciiLowercase, identity]

variable {libs} {cookies jar : List StoredCookie} {fresh : StoredCookie}

theorem map_putCookie (encrypted : Bool) :
    (putCookie encrypted fresh cookies).map plainEntry =
      upsertBy identity keepOrigin (plainEntry fresh) (cookies.map plainEntry) := by
  rw [putCookie_eq, map_upsert plainEntry (q := fun y => identity y = identity (plainEntry fresh))
    (r := keepOrigin (plainEntry fresh))]
  · rfl
  · intro c
    rw [Bool.eq_iff_iff, sameIdentity_iff, decide_eq_true_eq, identity_plainEntry,
      identity_plainEntry]
    rfl
  · exact fun _ _ => rfl

theorem map_upsert_refresh :
    (upsert (sameIdentity · fresh) (refresh fresh) fresh cookies).map plainEntry =
      upsertBy identity keepOrigin (plainEntry fresh) (cookies.map plainEntry) := by
  rw [map_upsert plainEntry (q := fun y => identity y = identity (plainEntry fresh))
    (r := keepOrigin (plainEntry fresh))]
  · rfl
  · intro c
    rw [Bool.eq_iff_iff, sameIdentity_iff, decide_eq_true_eq, identity_plainEntry,
      identity_plainEntry]
  · intro c hc
    obtain ⟨hdomain, hpath, hname⟩ : toAsciiLowercase c.domain = toAsciiLowercase fresh.domain ∧
        c.path = fresh.path ∧ c.name = fresh.name := by
      simpa [identity] using sameIdentity_iff.mp hc
    simp [plainEntry, refresh, keepOrigin, hdomain, hpath, hname]

theorem map_putCookies (encrypted : Bool) (captured : List StoredCookie) :
    (putCookies encrypted captured cookies).map plainEntry =
      replay identity keepOrigin (captured.map plainEntry) (cookies.map plainEntry) := by
  rw [putCookies]
  induction captured generalizing cookies with
  | nil => rfl
  | cons fresh captured ih => rw [List.foldl_cons, ih, map_putCookie, List.map_cons, replay_cons]

/-! ## Both ways replay the accepted headers -/

/-- The cookies that the headers from the `n`-th on give. -/
def accepted (libs : Libraries) (newIds : ℕ → String) (n : ℕ)
    (headers : List SetCookieHeader) : List StoredCookie :=
  (headers.zipIdx n).filterMap fun h =>
    readSetCookie libs (newIds h.2) h.1.header h.1.url h.1.now

theorem map_ingestAll (newIds : ℕ → String) (headers : List SetCookieHeader) :
    (ingestAll libs newIds headers cookies).map plainEntry =
      replay identity keepOrigin ((accepted libs newIds 0 headers).map plainEntry)
        (cookies.map plainEntry) := by
  rw [ingestAll, accepted]
  generalize 0 = n
  induction headers generalizing n cookies with
  | nil => rfl
  | cons header headers ih =>
    rw [List.zipIdx_cons, List.foldl_cons, ih, ingestSetCookie, List.filterMap_cons]
    cases readSetCookie libs (newIds n) header.header header.url header.now with
    | none => rfl
    | some fresh =>
      dsimp only
      rw [map_upsert_refresh, List.map_cons, replay_cons]

/-- The sink that enters the jar leaves what the headers leave. -/
theorem map_putCookies_captureAll (newIds : ℕ → String) (encrypted : Bool)
    (headers : List SetCookieHeader) :
    (putCookies encrypted (captureAll libs newIds headers) jar).map plainEntry =
      (ingestAll libs newIds headers jar).map plainEntry := by
  rw [map_putCookies, captureAll_eq, map_ingestAll, map_ingestAll, List.map_nil]
  exact replay_replay_nil merges_keepOrigin

/-! ## Ids of new entries -/

def withoutId (c : StoredCookie) : StoredCookie := { c with id := "" }

/-- Two entries that may only differ in their ids, and not where the jar has their identity. -/
structure UpToId (jar : List StoredCookie) (a b : StoredCookie) : Prop where
  same : withoutId a = withoutId b
  id : identity a ∈ jar.map identity → a.id = b.id

theorem UpToId.identity_eq {a b : StoredCookie} (h : UpToId jar a b) : identity a = identity b :=
  show identity (withoutId a) = identity (withoutId b) from congrArg identity h.same

theorem upToId_refl (a : StoredCookie) : UpToId jar a a := ⟨rfl, fun _ => rfl⟩

theorem readSetCookie_newId (newId newId' header : String) (url : Url) (now : ℤ) :
    readSetCookie libs newId' header url now =
      (readSetCookie libs newId header url now).map fun c => { c with id := "ck_" ++ newId' } := by
  rw [readSetCookie, readSetCookie]
  cases libs.parseCookie header with
  | none => rfl
  | some parsed =>
    simp only [Option.bind_eq_bind, Option.bind_some]
    cases url.host with
    | none => split_ifs <;> rfl
    | some host =>
      simp only [Option.bind_some]
      cases captureDomain libs parsed.domain (toAsciiLowercase host) with
      | none => split_ifs <;> rfl
      | some found => split_ifs <;> rfl

theorem identities_ingest {newId header : String} {url : Url} {now : ℤ} {k}
    (h : k ∈ cookies.map identity) :
    k ∈ (ingestSetCookie libs newId header url now cookies).map identity := by
  have hmap : ∀ cs : List StoredCookie, (cs.map plainEntry).map identity = cs.map identity := by
    intro cs
    rw [List.map_map]
    exact List.map_congr_left fun c _ => identity_plainEntry c
  rw [ingestSetCookie]
  cases readSetCookie libs newId header url now with
  | none => exact h
  | some fresh =>
    dsimp only
    rw [← hmap, map_upsert_refresh, mem_keys_upsertBy merges_keepOrigin, hmap]
    exact Or.inr h

/-- A header does the same to lists that differ in ids of new entries, under any id. -/
theorem upToId_ingest {newId newId' header : String} {url : Url} {now : ℤ}
    {cookies' : List StoredCookie} (h : List.Forall₂ (UpToId jar) cookies cookies')
    (hjar : ∀ k ∈ jar.map identity, k ∈ cookies.map identity) :
    List.Forall₂ (UpToId jar) (ingestSetCookie libs newId header url now cookies)
      (ingestSetCookie libs newId' header url now cookies') := by
  rw [ingestSetCookie, ingestSetCookie, readSetCookie_newId newId newId']
  cases readSetCookie libs newId header url now with
  | none => exact h
  | some fresh =>
    refine forall₂_upsert h (fun a b hab => ?_) (fun a _ b hab _ => ?_) (fun hnone => ?_)
    · rw [Bool.eq_iff_iff, sameIdentity_iff, sameIdentity_iff, hab.identity_eq]
      rfl
    · obtain ⟨hsame, hid⟩ := hab
      refine ⟨?_, hid⟩
      exact congrArg (refresh fresh) hsame
    · refine ⟨rfl, fun hmem => ?_⟩
      obtain ⟨c, hc, hidentity⟩ := List.mem_map.mp (hjar _ hmem)
      have hmatched := sameIdentity_iff.mpr hidentity
      rw [hnone c hc] at hmatched
      cases hmatched

theorem upToId_ingestAll (newIds newIds' : ℕ → String) (headers : List SetCookieHeader) :
    List.Forall₂ (UpToId jar) (ingestAll libs newIds headers jar)
      (ingestAll libs newIds' headers jar) := by
  have hfold : ∀ n cookies cookies', List.Forall₂ (UpToId jar) cookies cookies' →
      (∀ k ∈ jar.map identity, k ∈ cookies.map identity) →
      List.Forall₂ (UpToId jar)
        ((headers.zipIdx n).foldl (fun cookies h =>
          ingestSetCookie libs (newIds h.2) h.1.header h.1.url h.1.now cookies) cookies)
        ((headers.zipIdx n).foldl (fun cookies h =>
          ingestSetCookie libs (newIds' h.2) h.1.header h.1.url h.1.now cookies) cookies') := by
    induction headers with
    | nil => exact fun n cookies cookies' h _ => h
    | cons header headers ih =>
      intro n cookies cookies' h hjar
      rw [List.zipIdx_cons, List.foldl_cons, List.foldl_cons]
      exact ih (n + 1) _ _ (upToId_ingest h hjar) fun k hk => identities_ingest (hjar k hk)
  exact hfold 0 jar jar (List.forall₂_same.mpr fun a _ => upToId_refl a) fun _ hk => hk

/-! ## Domains of new entries -/

theorem domain_captureDomain {parsed : Option String} {host domain : String} {hostOnly : Bool}
    (hhost : toAsciiLowercase host = host)
    (h : captureDomain libs parsed host = some (domain, hostOnly)) :
    toAsciiLowercase domain = domain := by
  cases parsed with
  | none =>
    cases h
    exact hhost
  | some d =>
    rw [captureDomain] at h
    split_ifs at h
    · cases h
      exact hhost
    · cases h
      exact toAsciiLowercase_ofList_map _

/-- A captured domain is in lower case. -/
theorem domain_readSetCookie {newId header : String} {url : Url} {now : ℤ}
    (h : readSetCookie libs newId header url now = some fresh) :
    toAsciiLowercase fresh.domain = fresh.domain := by
  rw [readSetCookie] at h
  obtain ⟨parsed, -, h⟩ := Option.bind_eq_some_iff.mp h
  extract_lets name at h
  split at h
  · cases h
  obtain ⟨host, -, h⟩ := Option.bind_eq_some_iff.mp h
  extract_lets requestHost at h
  obtain ⟨⟨domain, hostOnly⟩, hdomain, h⟩ := Option.bind_eq_some_iff.mp h
  dsimp only at h
  split_ifs at h
  cases h
  exact domain_captureDomain (toAsciiLowercase_toAsciiLowercase host) hdomain

/-- An entry has an identity of the jar, or its domain in lower case. -/
def Lowered (jar : List StoredCookie) (c : StoredCookie) : Prop :=
  identity c ∈ jar.map identity ∨ toAsciiLowercase c.domain = c.domain

theorem lowered_ingestAll (newIds : ℕ → String) (headers : List SetCookieHeader)
    (h : ∀ c ∈ cookies, Lowered jar c) :
    ∀ c ∈ ingestAll libs newIds headers cookies, Lowered jar c := by
  rw [ingestAll]
  generalize 0 = n
  induction headers generalizing n cookies with
  | nil => exact h
  | cons header headers ih =>
    rw [List.zipIdx_cons, List.foldl_cons]
    refine ih (fun c hc => ?_) (n + 1)
    rw [ingestSetCookie] at hc
    split at hc
    · exact h c hc
    · rename_i fresh hread
      rcases mem_upsert hc with hold | ⟨rfl, -⟩ | ⟨d, hd, -, rfl⟩
      · exact h c hold
      · exact Or.inr (domain_readSetCookie hread)
      · exact h d hd

theorem lowered_putCookies {captured : List StoredCookie} (encrypted : Bool)
    (hcaptured : ∀ c ∈ captured, toAsciiLowercase c.domain = c.domain)
    (h : ∀ c ∈ cookies, Lowered jar c) :
    ∀ c ∈ putCookies encrypted captured cookies, Lowered jar c := by
  rw [putCookies]
  induction captured generalizing cookies with
  | nil => exact h
  | cons fresh captured ih =>
    obtain ⟨hfresh, hrest⟩ := List.forall_mem_cons.mp hcaptured
    rw [List.foldl_cons]
    refine ih hrest fun c hc => ?_
    rw [putCookie_eq] at hc
    rcases mem_upsert hc with hold | ⟨rfl, -⟩ | ⟨d, hd, -, rfl⟩
    · exact h c hold
    · exact Or.inr hfresh
    · exact Or.inr hfresh

/-! ## Both ways give the same jar -/

/-- Two entries agree but for the flag, for the letter case of a domain that the jar has, and for
an id that the jar does not have. -/
structure SameEntry (jar : List StoredCookie) (a b : StoredCookie) : Prop where
  identity : identity a = identity b
  value : a.value = b.value
  hostOnly : a.hostOnly = b.hostOnly
  secure : a.secure = b.secure
  httpOnly : a.httpOnly = b.httpOnly
  sameSite : a.sameSite = b.sameSite
  expires : a.expires = b.expires
  createdAt : a.createdAt = b.createdAt
  updatedAt : a.updatedAt = b.updatedAt
  id : Cookies.identity a ∈ jar.map Cookies.identity → a.id = b.id
  domain : Cookies.identity a ∉ jar.map Cookies.identity → a.domain = b.domain

theorem sameEntry_of_plainEntry {a b c : StoredCookie} (ha : Lowered jar a) (hb : Lowered jar b)
    (hab : plainEntry a = plainEntry b) (hbc : UpToId jar b c) : SameEntry jar a c := by
  have hidentity : identity a = identity b := by
    rw [← identity_plainEntry a, hab, identity_plainEntry]
  exact {
    identity := hidentity.trans hbc.identity_eq
    value := (congrArg StoredCookie.value hab).trans (congrArg StoredCookie.value hbc.same :)
    hostOnly := (congrArg StoredCookie.hostOnly hab).trans
      (congrArg StoredCookie.hostOnly hbc.same :)
    secure := (congrArg StoredCookie.secure hab).trans (congrArg StoredCookie.secure hbc.same :)
    httpOnly := (congrArg StoredCookie.httpOnly hab).trans
      (congrArg StoredCookie.httpOnly hbc.same :)
    sameSite := (congrArg StoredCookie.sameSite hab).trans
      (congrArg StoredCookie.sameSite hbc.same :)
    expires := (congrArg StoredCookie.expires hab).trans (congrArg StoredCookie.expires hbc.same :)
    createdAt := (congrArg StoredCookie.createdAt hab).trans
      (congrArg StoredCookie.createdAt hbc.same :)
    updatedAt := (congrArg StoredCookie.updatedAt hab).trans
      (congrArg StoredCookie.updatedAt hbc.same :)
    id := fun hmem => (congrArg StoredCookie.id hab).trans (hbc.id (hidentity ▸ hmem))
    domain := by
      intro hnot
      have hlower : toAsciiLowercase a.domain = toAsciiLowercase b.domain :=
        congrArg StoredCookie.domain hab
      rw [ha.resolve_left hnot, hb.resolve_left (hidentity ▸ hnot)] at hlower
      exact hlower.trans (congrArg StoredCookie.domain hbc.same :) }

theorem forall₂_sameEntry {as bs cs : List StoredCookie} (ha : ∀ a ∈ as, Lowered jar a)
    (hb : ∀ b ∈ bs, Lowered jar b) (hab : as.map plainEntry = bs.map plainEntry)
    (hbc : List.Forall₂ (UpToId jar) bs cs) : List.Forall₂ (SameEntry jar) as cs := by
  induction hbc generalizing as with
  | nil =>
    rw [List.map_nil, List.map_eq_nil_iff] at hab
    rw [hab]
    exact List.Forall₂.nil
  | @cons b c bs cs hbc _ ih =>
    cases as with
    | nil => cases hab
    | cons a as =>
      rw [List.map_cons, List.map_cons] at hab
      obtain ⟨hhead, hrest⟩ := List.cons.inj hab
      obtain ⟨ha, has⟩ := List.forall_mem_cons.mp ha
      obtain ⟨hb, hbs⟩ := List.forall_mem_cons.mp hb
      exact List.Forall₂.cons (sameEntry_of_plainEntry ha hb hhead hbc) (ih has hbs hrest)

/-- The sink of any headers merged into a jar, and the headers ingested into it one by one, make
the same jar. -/
theorem two_stage_capture (libs : Libraries) (newIds newIds' : ℕ → String)
    (headers : List SetCookieHeader) (encrypted : Bool) (jar : List StoredCookie) :
    List.Forall₂ (SameEntry jar)
      (putCookies encrypted (captureAll libs newIds headers) jar)
      (ingestAll libs newIds' headers jar) := by
  have hjar : ∀ c ∈ jar, Lowered jar c := fun c hc => Or.inl (List.mem_map_of_mem hc)
  refine forall₂_sameEntry ?_ (lowered_ingestAll newIds headers hjar)
    (map_putCookies_captureAll newIds encrypted headers) (upToId_ingestAll newIds newIds' headers)
  refine lowered_putCookies encrypted (fun c hc => ?_) hjar
  rw [captureAll_eq] at hc
  have hlowered : Lowered [] c := lowered_ingestAll newIds headers (by simp) c hc
  exact hlowered.resolve_left (by simp)

end Voleeo.Cookies
