import Voleeo.Cookies.Expiry

/-!
# Captures keep the identities of a jar

Headers and prunings change a jar one after another. A header that is accepted
leaves one entry under its identity and no other entry changes; the domain of
that entry is the host of the response or a parent domain of it.
-/
namespace Voleeo.Cookies
open Mcp (sameIdentity)
open Resolve (toAsciiLowercase)

/-! ## Calls -/

inductive IngestCall
  | ingestSetCookie (newId : String) (h : SetCookieHeader)
  | pruneExpired (now : ℤ)

section
variable (libs : Libraries)

/-- The jar after the call, where `none` is a panic. -/
def IngestCall.exec (jar : List StoredCookie) : IngestCall → Option (List StoredCookie)
  | .ingestSetCookie newId h => ingestOrPanic libs newId h.header h.url h.now jar
  | .pruneExpired now => some (Cookies.pruneExpired libs now jar)

/-- The host is the domain, or one below it. An address has none below it. -/
def DomainCovers (domain host : String) : Prop :=
  toAsciiLowercase domain = toAsciiLowercase host ∨
    isIpLiteral libs (toAsciiLowercase host) = false ∧
      ∃ front, (toAsciiLowercase host).toList = front ++ '.' :: (toAsciiLowercase domain).toList

/-- The cookie has the value and the attributes of the header. -/
structure FromHeader (parsed : ParsedCookie) (h : SetCookieHeader) (host : String)
    (c : StoredCookie) : Prop where
  name : c.name = String.ofList (Resolve.strTrim parsed.name.toList)
  value : c.value = parsed.value
  domain : captureDomain libs parsed.domain (toAsciiLowercase host) =
    some (toAsciiLowercase c.domain, c.hostOnly)
  path : c.path = capturePath parsed.path h.url
  secure : c.secure = parsed.secure.getD false
  httpOnly : c.httpOnly = parsed.httpOnly.getD false
  sameSite : c.sameSite = parsed.sameSite
  expires : c.expires = captureExpires libs parsed h.now
  updatedAt : c.updatedAt = libs.toRfc3339 h.now

/-- What a header that is accepted does to the jar. -/
structure Stores (h : SetCookieHeader) (jar jar' : List StoredCookie) (c : StoredCookie) :
    Prop where
  mem : c ∈ jar'
  header : ∃ parsed host, libs.parseCookie h.header = some parsed ∧ h.url.host = some host ∧
    FromHeader libs parsed h host c ∧ DomainCovers libs c.domain host
  kept : ∀ old ∈ jar, identity old = identity c → c.createdAt = old.createdAt ∧ c.id = old.id
  others : jar'.filter (fun d => identity d ≠ identity c) =
    jar.filter fun d => identity d ≠ identity c

/-- The call keeps the identities apart; a header is rejected and changes nothing, or its entry is
returned and stored. -/
structure IngestCall.Keeps (call : IngestCall) (jar jar' : List StoredCookie) : Prop where
  distinct : (jar'.map identity).Nodup
  rejected : ∀ newId h, call = .ingestSetCookie newId h →
    ingested libs newId h.header h.url h.now jar = none → jar' = jar
  stored : ∀ newId h c, call = .ingestSetCookie newId h →
    ingested libs newId h.header h.url h.now jar = some c → Stores libs h jar jar' c

/-- The end of `Max-Age`, if the header is accepted and has one, is a duration away that has a time
in the calendar. -/
def IngestCall.InTime : IngestCall → Prop
  | .ingestSetCookie newId h => ∀ parsed, libs.parseCookie h.header = some parsed →
      (readSetCookie libs newId h.header h.url h.now).isSome → ∀ secs ∈ parsed.maxAge,
        secs ≤ (2 ^ 63 - 1) / 1000 ∧
          InCalendar (h.now + if secs ≤ 0 then -10 ^ 9 else secs * 10 ^ 9)
  | .pruneExpired _ => True

/-- Each call of the run returns, with the effect on the jar that it finds. -/
def RunKeeps (jar : List StoredCookie) (calls : List IngestCall) : Prop :=
  ∀ front call back, calls = front ++ call :: back → ∃ before after,
    front.foldlM (IngestCall.exec libs) jar = some before ∧
      call.exec libs before = some after ∧ call.Keeps libs before after

end

variable {libs : Libraries} {newId : String} {h : SetCookieHeader} {jar jar' : List StoredCookie}
  {c fresh : StoredCookie} {call : IngestCall}

/-! ## What a header says -/

theorem toLower_ne_dot {c : Char} (hc : c ≠ '.') : c.toLower ≠ '.' := by
  intro hdot
  rw [Char.toLower] at hdot
  split_ifs at hdot with hupper
  · have hval := congrArg (fun d : Char => d.val.toNat) hdot
    simp only [UInt32.le_iff_toNat_le, UInt32.toNat_add] at hupper hval
    have hletter : 65 ≤ c.val.toNat ∧ c.val.toNat ≤ 90 := hupper
    have hshifted : (c.val.toNat + 32) % 2 ^ 32 = 46 := hval
    omega
  · exact hc hdot

/-- No leading dot is left. -/
theorem dropWhile_dots (cs : List Char) :
    ((cs.dropWhile (· == '.')).map Char.toLower).dropWhile (· == '.') =
      (cs.dropWhile (· == '.')).map Char.toLower := by
  induction cs with
  | nil => rfl
  | cons c cs ih =>
    by_cases hc : c = '.'
    · rw [List.dropWhile_cons_of_pos (by simp [hc])]
      exact ih
    · rw [List.dropWhile_cons_of_neg (by simp [hc]), List.map_cons,
        List.dropWhile_cons_of_neg (by simp [toLower_ne_dot hc])]

theorem domainCovers_of_domainMatch {d host : String}
    (hlower : toAsciiLowercase d = d) (hdots : d.toList.dropWhile (· == '.') = d.toList)
    (hmatch : domainMatch libs d (toAsciiLowercase host) false = true) :
    DomainCovers libs d host := by
  have hd : (d.toList.dropWhile (· == '.')).map Char.toLower = d.toList := by
    rw [hdots, ← String.toList_ofList (l := d.toList.map Char.toLower), ← toAsciiLowercase, hlower]
  have hh : (toAsciiLowercase host).toList.map Char.toLower = (toAsciiLowercase host).toList := by
    rw [← String.toList_ofList (l := (toAsciiLowercase host).toList.map Char.toLower),
      ← toAsciiLowercase, toAsciiLowercase_toAsciiLowercase]
  rw [domainMatch] at hmatch
  simp only [hd, hh, String.ofList_toList, Bool.false_eq_true, if_false] at hmatch
  rw [DomainCovers, hlower]
  split_ifs at hmatch with heq hip
  · exact .inl (String.toList_inj.mp heq)
  · rw [Bool.and_eq_true, List.isSuffixOf_iff_suffix, beq_iff_eq] at hmatch
    obtain ⟨⟨front, hfront⟩, hdot⟩ := hmatch
    refine .inr ⟨by simpa using hip, ?_⟩
    rw [← hfront] at hdot heq ⊢
    rcases List.eq_nil_or_concat front with rfl | ⟨rest, last, rfl⟩
    · exact absurd rfl heq
    · refine ⟨rest, ?_⟩
      have hindex : ((rest.concat last) ++ d.toList).length - d.toList.length - 1 = rest.length := by
        rw [List.length_append, List.length_concat]
        omega
      rw [hindex, List.concat_eq_append, List.append_assoc,
        List.getElem?_append_right (Nat.le_refl _)] at hdot
      simp only [Nat.sub_self, List.singleton_append, List.getElem?_cons_zero,
        Option.some.injEq] at hdot
      rw [hdot, List.concat_eq_append, List.append_assoc]
      rfl

theorem domainCovers_captureDomain {parsed : Option String} {host domain : String} {hostOnly : Bool}
    (h : captureDomain libs parsed (toAsciiLowercase host) = some (domain, hostOnly)) :
    DomainCovers libs domain host := by
  have hself : DomainCovers libs (toAsciiLowercase host) host :=
    .inl (toAsciiLowercase_toAsciiLowercase host)
  cases parsed with
  | none =>
    cases h
    exact hself
  | some d =>
    rw [captureDomain] at h
    split_ifs at h with hempty hmatch
    · cases h
      exact hself
    · cases h
      refine domainCovers_of_domainMatch (toAsciiLowercase_ofList_map _) ?_ (by simpa using hmatch)
      rw [String.toList_ofList]
      exact dropWhile_dots _

/-- What a header that is accepted is read as. -/
theorem readSetCookie_spec (hread : readSetCookie libs newId h.header h.url h.now = some fresh) :
    ∃ parsed host, libs.parseCookie h.header = some parsed ∧ h.url.host = some host ∧
      FromHeader libs parsed h host fresh ∧ DomainCovers libs fresh.domain host := by
  have hdomain := domain_readSetCookie hread
  rw [readSetCookie] at hread
  obtain ⟨parsed, hparsed, hread⟩ := Option.bind_eq_some_iff.mp hread
  extract_lets name at hread
  split at hread
  · cases hread
  obtain ⟨host, hhost, hread⟩ := Option.bind_eq_some_iff.mp hread
  extract_lets requestHost at hread
  obtain ⟨⟨domain, hostOnly⟩, hcapture, hread⟩ := Option.bind_eq_some_iff.mp hread
  dsimp only at hread
  split_ifs at hread
  cases hread
  refine ⟨parsed, host, hparsed, hhost, ?_, domainCovers_captureDomain hcapture⟩
  refine ⟨rfl, rfl, ?_, rfl, rfl, rfl, rfl, rfl, rfl⟩
  rw [hdomain]
  exact hcapture

/-- An entry with the identity of the header takes its value and its attributes. -/
theorem FromHeader.refresh {parsed : ParsedCookie} {host : String} {old : StoredCookie}
    (hfresh : FromHeader libs parsed h host fresh) (hsame : identity old = identity fresh) :
    FromHeader libs parsed h host (Cookies.refresh fresh old) := by
  simp only [identity, Prod.mk.injEq] at hsame
  obtain ⟨hdomain, hpath, hname⟩ := hsame
  refine ⟨hname.trans hfresh.name, hfresh.value, ?_, hpath.trans hfresh.path, hfresh.secure,
    hfresh.httpOnly, hfresh.sameSite, hfresh.expires, hfresh.updatedAt⟩
  have hcapture := hfresh.domain
  rwa [← hdomain] at hcapture

theorem identity_refresh (fresh old : StoredCookie) :
    identity (refresh fresh old) = identity old := rfl

/-! ## What a header does -/

theorem found_spec {old : StoredCookie}
    (hfind : jar.find? (fun d => sameIdentity d fresh) = some old) :
    old ∈ jar ∧ identity old = identity fresh := by
  have hmatch := List.find?_some (p := fun d => sameIdentity d fresh) hfind
  exact ⟨List.mem_of_find?_eq_some hfind, sameIdentity_iff.mp hmatch⟩

theorem stores_ingestSetCookie (hjar : (jar.map identity).Nodup)
    (hc : ingested libs newId h.header h.url h.now jar = some c) :
    Stores libs h jar (ingestSetCookie libs newId h.header h.url h.now jar) c := by
  obtain ⟨fresh, hread, hc⟩ := Option.map_eq_some_iff.mp hc
  obtain ⟨parsed, host, hparsed, hhost, hfrom, hcovers⟩ := readSetCookie_spec hread
  have hmem : c ∈ ingestSetCookie libs newId h.header h.url h.now jar := by
    rw [ingestSetCookie, hread, ← hc]
    exact mem_upsert_find? jar
  have hidentity : identity c = identity fresh := by
    cases hfind : jar.find? (sameIdentity · fresh) with
    | none =>
      rw [hfind] at hc
      rw [← hc]
      rfl
    | some old =>
      rw [hfind] at hc
      rw [← hc]
      exact (found_spec hfind).2
  refine ⟨hmem, ⟨parsed, host, hparsed, hhost, ?_, ?_⟩, fun old hold hsame => ?_, ?_⟩
  · cases hfind : jar.find? (sameIdentity · fresh) with
    | none =>
      rw [hfind] at hc
      rw [← hc]
      exact hfrom
    | some old =>
      rw [hfind] at hc
      rw [← hc]
      exact hfrom.refresh (found_spec hfind).2
  · have hdomain : toAsciiLowercase c.domain = toAsciiLowercase fresh.domain :=
      congrArg Prod.fst hidentity
    rwa [DomainCovers, hdomain]
  · have hmatch : sameIdentity old fresh = true := sameIdentity_iff.mpr (hsame.trans hidentity)
    cases hfind : jar.find? (sameIdentity · fresh) with
    | none => exact absurd hmatch (List.find?_eq_none.mp hfind old hold)
    | some found =>
      -- the identities of the jar are distinct, so the entry found is this one
      obtain ⟨hfound, hkey⟩ := found_spec hfind
      obtain rfl : found = old := List.inj_on_of_nodup_map hjar hfound hold
        (hkey.trans (hsame.trans hidentity).symm)
      rw [hfind] at hc
      rw [← hc]
      exact ⟨rfl, rfl⟩
  · rw [ingestSetCookie, hread]
    refine filter_upsert (fun d hd => ?_) ?_
    · have hsame := sameIdentity_iff.mp hd
      simp [identity_refresh, hsame, hidentity]
    · simp [hidentity]

theorem distinct_ingestSetCookie (hjar : (jar.map identity).Nodup) :
    ((ingestSetCookie libs newId h.header h.url h.now jar).map identity).Nodup := by
  rw [ingestSetCookie]
  cases readSetCookie libs newId h.header h.url h.now with
  | none => exact hjar
  | some fresh =>
    refine nodup_upsert identity hjar (fun _ _ _ _ _ hkey => hkey) fun hnone d hd hsame => ?_
    have hmatch := sameIdentity_iff.mpr hsame
    rw [hnone d hd] at hmatch
    cases hmatch

/-- A call that returns keeps the identities apart. -/
theorem keeps_of_exec (hjar : (jar.map identity).Nodup) (hexec : call.exec libs jar = some jar') :
    call.Keeps libs jar jar' := by
  cases call with
  | ingestSetCookie newId h =>
    obtain rfl := eq_of_ingestOrPanic hexec
    refine ⟨distinct_ingestSetCookie hjar, ?_, ?_⟩
    · rintro _ _ ⟨⟩ hnone
      rw [ingested, Option.map_eq_none_iff] at hnone
      rw [ingestSetCookie, hnone]
    · rintro _ _ c ⟨⟩ hc
      exact stores_ingestSetCookie hjar hc
  | pruneExpired now =>
    cases hexec
    refine ⟨hjar.sublist (List.filter_sublist.map identity), ?_, ?_⟩
    · rintro _ _ ⟨⟩
    · rintro _ _ _ ⟨⟩

/-! ## When a header panics -/

theorem maxAgeEnd_isSome_iff {now secs : ℤ} :
    (maxAgeEnd now secs).isSome = true ↔ secs ≤ (2 ^ 63 - 1) / 1000 ∧
      InCalendar (now + if secs ≤ 0 then -10 ^ 9 else secs * 10 ^ 9) := by
  have hadd : ∀ d, (addDuration now d).isSome = true ↔ InCalendar (now + d) := by
    intro d
    rw [addDuration]
    split_ifs with h
    · exact iff_of_true rfl h
    · exact iff_of_false Bool.false_ne_true h
  rw [maxAgeEnd]
  split_ifs with hsecs
  · have hone : durationSeconds 1 = some (10 ^ 9) := by decide
    rw [hone, Option.bind_some, hadd]
    exact (and_iff_right (by omega)).symm
  · rw [durationSeconds]
    split_ifs with hrange
    · rw [Option.bind_some, hadd]
      exact (and_iff_right hrange.2).symm
    · refine iff_of_false Bool.false_ne_true fun hin => hrange ⟨by omega, hin.1⟩

theorem expiresOrPanic_isSome_iff {parsed : ParsedCookie} {now : ℤ} :
    (expiresOrPanic libs parsed now).isSome = true ↔ ∀ secs ∈ parsed.maxAge,
      secs ≤ (2 ^ 63 - 1) / 1000 ∧
        InCalendar (now + if secs ≤ 0 then -10 ^ 9 else secs * 10 ^ 9) := by
  rw [expiresOrPanic]
  cases parsed.maxAge with
  | none => exact iff_of_true rfl fun _ h => by cases h
  | some secs =>
    dsimp only
    rw [Option.isSome_map, maxAgeEnd_isSome_iff]
    exact ⟨fun h => by rintro _ ⟨⟩; exact h, fun h => h secs rfl⟩

theorem exec_isSome_iff (jar : List StoredCookie) :
    (call.exec libs jar).isSome = true ↔ call.InTime libs := by
  cases call with
  | pruneExpired now => exact iff_of_true rfl trivial
  | ingestSetCookie newId h =>
    rw [IngestCall.exec, IngestCall.InTime, ingestOrPanic]
    cases hparsed : libs.parseCookie h.header with
    | none => exact iff_of_true rfl fun _ h => by cases h
    | some parsed =>
      cases hread : readSetCookie libs newId h.header h.url h.now with
      | none => exact iff_of_true rfl fun _ _ h => absurd h Bool.false_ne_true
      | some fresh =>
        have hpanic := @expiresOrPanic_isSome_iff libs parsed h.now
        dsimp only
        cases hexpires : expiresOrPanic libs parsed h.now with
        | none =>
          rw [hexpires] at hpanic
          exact iff_of_false Bool.false_ne_true fun hin =>
            Bool.false_ne_true (hpanic.mpr (hin parsed rfl rfl))
        | some expires =>
          rw [hexpires] at hpanic
          refine iff_of_true rfl ?_
          rintro _ ⟨⟩ -
          exact hpanic.mp rfl

/-- In every run the calls keep the identities of a jar apart and do what their headers say, just
when no accepted header has an end without a time in the calendar. -/
theorem run_keeps_iff (libs : Libraries) (jar : List StoredCookie)
    (hjar : (jar.map identity).Nodup) (calls : List IngestCall) :
    RunKeeps libs jar calls ↔ ∀ call ∈ calls, call.InTime libs := by
  constructor
  · intro hrun call hcall
    obtain ⟨front, back, rfl⟩ := List.append_of_mem hcall
    obtain ⟨before, after, -, hexec, -⟩ := hrun front call back rfl
    rw [← exec_isSome_iff before, hexec]
    rfl
  · intro hin front
    induction front generalizing jar calls with
    | nil =>
        rintro call back rfl
        obtain ⟨after, hexec⟩ := Option.isSome_iff_exists.mp
          ((exec_isSome_iff jar).mpr (hin call List.mem_cons_self))
        exact ⟨jar, after, rfl, hexec, keeps_of_exec hjar hexec⟩
    | cons first front ih =>
        rintro call back rfl
        obtain ⟨next, hnext⟩ := Option.isSome_iff_exists.mp
          ((exec_isSome_iff jar).mpr (hin first List.mem_cons_self))
        obtain ⟨before, after, hfront, hexec, hkeeps⟩ := ih next (keeps_of_exec hjar hnext).distinct
          (front ++ call :: back) (fun c hc => hin c (List.mem_cons_of_mem _ hc)) call back rfl
        refine ⟨before, after, ?_, hexec, hkeeps⟩
        rw [List.foldlM_cons, hnext]
        exact hfront

/-! ## A session that is replaced, and a lifetime without an end -/

def sessionHeader (header : String) : SetCookieHeader := ⟨header, shopUrl, 0⟩

theorem endless_header_panics :
    ¬ RunKeeps agedLibraries []
      [.ingestSetCookie "x" (sessionHeader "sid=1; Max-Age=9223372036854775807")] := by
  intro hrun
  obtain ⟨before, after, hfront, hexec, -⟩ := hrun [] _ [] rfl
  obtain rfl : [] = before := Option.some.inj hfront
  have hpanic : IngestCall.exec agedLibraries []
      (.ingestSetCookie "x" (sessionHeader "sid=1; Max-Age=9223372036854775807")) = none := by decide
  rw [hpanic] at hexec
  cases hexec

theorem run_keeps_session :
    RunKeeps agedLibraries []
        [.ingestSetCookie "x" (sessionHeader "sid=1; Max-Age=60"), .pruneExpired 1] ↔
      ∀ call ∈ [IngestCall.ingestSetCookie "x" (sessionHeader "sid=1; Max-Age=60"),
        .pruneExpired 1], call.InTime agedLibraries :=
  run_keeps_iff agedLibraries [] List.nodup_nil _

end Voleeo.Cookies
