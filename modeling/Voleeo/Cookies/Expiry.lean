import Voleeo.Cookies.TwoStage

/-!
# When a captured cookie expires

The end of `Max-Age` is computed in the calendar, which panics outside its
range, and is written as a text, which can be read back only in the years from 0
to 9999. An end that cannot be read back counts as none.
-/
namespace Voleeo.Cookies
open Mcp (sameIdentity)
open Resolve (toAsciiLowercase)

/-! ## Times

A time is a number of nanoseconds since 1970. -/

/-- The first and the last time of the calendar, in the years -262143 and 262142. -/
def minUtc : ℤ := -8334601315200 * 10 ^ 9
def maxUtc : ℤ := 8210266876799 * 10 ^ 9 + 999999999

def InCalendar (t : ℤ) : Prop := minUtc ≤ t ∧ t ≤ maxUtc

instance (t : ℤ) : Decidable (InCalendar t) := inferInstanceAs (Decidable (_ ∧ _))

/-- The year of the time has four digits. -/
def Writable (t : ℤ) : Prop := -62167219200 * 10 ^ 9 ≤ t ∧ t < 253402300800 * 10 ^ 9

instance (t : ℤ) : Decidable (Writable t) := inferInstanceAs (Decidable (_ ∧ _))

/-- `Duration::seconds`, where `none` is a panic. -/
def durationSeconds (secs : ℤ) : Option ℤ :=
  if -((2 ^ 63 - 1) / 1000) ≤ secs ∧ secs ≤ (2 ^ 63 - 1) / 1000 then some (secs * 10 ^ 9) else none

/-- The sum of a time and a duration, where `none` is a panic. -/
def addDuration (t duration : ℤ) : Option ℤ :=
  if InCalendar (t + duration) then some (t + duration) else none

/-- The end of `Max-Age`, where `none` is a panic. -/
def maxAgeEnd (now secs : ℤ) : Option ℤ :=
  if secs ≤ 0 then (durationSeconds 1).bind fun second => addDuration now (-second)
  else (durationSeconds secs).bind (addDuration now)

section
variable (libs : Libraries)

/-- `captureExpires` in the calendar, where `none` is a panic. -/
def expiresOrPanic (parsed : ParsedCookie) (now : ℤ) : Option (Option String) :=
  match parsed.maxAge with
  | some secs => (maxAgeEnd now secs).map fun time => some (libs.toRfc3339 time)
  | none => some ((parsed.expires.bind libs.fromTimestamp).map libs.toRfc3339)

/-- `ingestSetCookie` in the calendar, where `none` is a panic. A header that is rejected is
rejected before its end is computed. -/
def ingestOrPanic (newId header : String) (url : Url) (now : ℤ) (cookies : List StoredCookie) :
    Option (List StoredCookie) :=
  match libs.parseCookie header, readSetCookie libs newId header url now with
  | some parsed, some fresh => do
      let expires ← expiresOrPanic libs parsed now
      let fresh := { fresh with expires }
      return upsert (sameIdentity · fresh) (refresh fresh) fresh cookies
  | _, _ => some cookies

/-- The entry that the header has left in the list. -/
def ingested (newId header : String) (url : Url) (now : ℤ) (cookies : List StoredCookie) :
    Option StoredCookie :=
  (readSetCookie libs newId header url now).map fun fresh =>
    ((cookies.find? (sameIdentity · fresh)).map (refresh fresh)).getD fresh

/-! ## The lifetime -/

/-- The end of the lifetime, if it is limited. It is over at once where `Max-Age` is not
positive. -/
def endsAt (parsed : ParsedCookie) (now : ℤ) : Option ℤ :=
  match parsed.maxAge with
  | some secs => some (if secs ≤ 0 then now else now + secs * 10 ^ 9)
  | none => parsed.expires.map (· * 10 ^ 9)

/-- The end that is written: where the lifetime is over at once, one second ago. -/
def writtenEnd (parsed : ParsedCookie) (now : ℤ) : Option ℤ :=
  match parsed.maxAge with
  | some secs => some (if secs ≤ 0 then now - 10 ^ 9 else now + secs * 10 ^ 9)
  | none => parsed.expires.map (· * 10 ^ 9)

/-- Apart from its end, the cookie goes along with requests to the URL. -/
def Covers (url : Url) (host : String) (c : StoredCookie) : Prop :=
  (c.secure → isHttps url) ∧ domainMatch libs c.domain (toAsciiLowercase host) c.hostOnly ∧
    pathMatch c.path (if url.path = "" then "/" else url.path)

/-- The header is ingested without a panic, and then its cookie goes along with a later request to
a URL that it covers just when its lifetime has not ended. -/
def ExpiresInTime (newId header : String) (url : Url) (now : ℤ) (cookies : List StoredCookie) :
    Prop :=
  ∃ cookies', ingestOrPanic libs newId header url now cookies = some cookies' ∧
    ∀ parsed c, libs.parseCookie header = some parsed →
      ingested libs newId header url now cookies = some c →
      ∀ url' host t, url'.host = some host → Covers libs url' host c → now < t →
        (c ∈ matching libs cookies' url' t ↔ ∀ e ∈ endsAt parsed now, t < e)

end

variable {libs : Libraries} {newId header : String} {url : Url} {now t : ℤ}
  {cookies : List StoredCookie} {parsed : ParsedCookie} {fresh c : StoredCookie}

theorem writable_inCalendar (h : Writable t) : InCalendar t := by
  rw [Writable] at h
  rw [InCalendar, minUtc, maxUtc]
  omega

/-- A cookie that is accepted has the end of its header. -/
theorem expires_readSetCookie (hparsed : libs.parseCookie header = some parsed)
    (h : readSetCookie libs newId header url now = some fresh) :
    fresh.expires = captureExpires libs parsed now := by
  rw [readSetCookie, hparsed] at h
  obtain ⟨parsed', hparsed', h⟩ := Option.bind_eq_some_iff.mp h
  cases hparsed'
  extract_lets name at h
  split at h
  · cases h
  obtain ⟨host, -, h⟩ := Option.bind_eq_some_iff.mp h
  extract_lets requestHost at h
  obtain ⟨⟨domain, hostOnly⟩, -, h⟩ := Option.bind_eq_some_iff.mp h
  dsimp only at h
  split_ifs at h
  cases h
  rfl

theorem addDuration_eq_some {d e : ℤ} : addDuration t d = some e ↔ e = t + d ∧ InCalendar e := by
  rw [addDuration]
  split_ifs with h
  · constructor
    · intro heq
      cases heq
      exact ⟨rfl, h⟩
    · rintro ⟨rfl, -⟩
      rfl
  · refine iff_of_false nofun ?_
    rintro ⟨rfl, hin⟩
    exact h hin

theorem durationSeconds_eq_some {secs d : ℤ} (h : durationSeconds secs = some d) :
    d = secs * 10 ^ 9 := by
  rw [durationSeconds] at h
  split_ifs at h
  exact (Option.some.inj h).symm

/-- Without a panic, the end is the one of `captureExpires`. -/
theorem maxAgeEnd_eq_some {secs e : ℤ} (h : maxAgeEnd now secs = some e) :
    e = if secs ≤ 0 then now - 10 ^ 9 else now + secs * 10 ^ 9 := by
  rw [maxAgeEnd] at h
  split_ifs at h ⊢ with hsecs
  · obtain ⟨d, hd, hsum⟩ := Option.bind_eq_some_iff.mp h
    rw [(addDuration_eq_some.mp hsum).1, durationSeconds_eq_some hd]
    omega
  · obtain ⟨d, hd, hsum⟩ := Option.bind_eq_some_iff.mp h
    rw [(addDuration_eq_some.mp hsum).1, durationSeconds_eq_some hd]

theorem eq_of_expiresOrPanic {expires : Option String}
    (h : expiresOrPanic libs parsed now = some expires) :
    expires = captureExpires libs parsed now := by
  rw [expiresOrPanic] at h
  rw [captureExpires]
  cases hage : parsed.maxAge with
  | none =>
    rw [hage] at h
    exact (Option.some.inj h).symm
  | some secs =>
    rw [hage] at h
    obtain ⟨e, he, rfl⟩ := Option.map_eq_some_iff.mp h
    dsimp only
    rw [maxAgeEnd_eq_some he]

/-- An end that can be written is computed without a panic. -/
theorem expiresOrPanic_isSome (hnow : InCalendar now)
    (hwritable : ∀ e ∈ writtenEnd parsed now, Writable e) :
    (expiresOrPanic libs parsed now).isSome = true := by
  rw [expiresOrPanic]
  cases hage : parsed.maxAge with
  | none => rfl
  | some secs =>
    rw [writtenEnd, hage] at hwritable
    have hend := hwritable _ rfl
    have hcalendar := writable_inCalendar hend
    dsimp only
    rw [Option.isSome_map, maxAgeEnd]
    split_ifs at hend hcalendar ⊢ with hsecs
    · have hone : durationSeconds 1 = some (10 ^ 9) := by decide
      have hsum : addDuration now (-10 ^ 9) = some (now - 10 ^ 9) :=
        addDuration_eq_some.mpr ⟨by omega, hcalendar⟩
      rw [hone, Option.bind_some, hsum]
      rfl
    · have hduration : durationSeconds secs = some (secs * 10 ^ 9) := by
        rw [InCalendar, minUtc] at hnow
        rw [Writable] at hend
        rw [durationSeconds, if_pos]
        omega
      have hsum : addDuration now (secs * 10 ^ 9) = some (now + secs * 10 ^ 9) :=
        addDuration_eq_some.mpr ⟨rfl, hcalendar⟩
      rw [hduration, Option.bind_some, hsum]
      rfl

theorem eq_of_ingestOrPanic {cookies' : List StoredCookie}
    (h : ingestOrPanic libs newId header url now cookies = some cookies') :
    cookies' = ingestSetCookie libs newId header url now cookies := by
  rw [ingestSetCookie]
  cases hparsed : libs.parseCookie header with
  | none =>
    have hread : readSetCookie libs newId header url now = none := by
      rw [readSetCookie, hparsed]
      rfl
    rw [ingestOrPanic, hparsed] at h
    rw [hread]
    exact (Option.some.inj h).symm
  | some parsed =>
    rw [ingestOrPanic, hparsed] at h
    cases hread : readSetCookie libs newId header url now with
    | none =>
      rw [hread] at h
      exact (Option.some.inj h).symm
    | some fresh =>
      rw [hread] at h
      obtain ⟨expires, hexpires, h⟩ := Option.bind_eq_some_iff.mp h
      have hsame : expires = fresh.expires := by
        rw [eq_of_expiresOrPanic hexpires, expires_readSetCookie hparsed hread]
      subst hsame
      exact (Option.some.inj h).symm

theorem mem_upsert_find? {α : Type} {p : α → Bool} {replace : α → α} {fresh : α} (xs : List α) :
    ((xs.find? p).map replace).getD fresh ∈ upsert p replace fresh xs := by
  induction xs with
  | nil => exact List.mem_singleton.mpr rfl
  | cons x xs ih =>
    rw [upsert, List.find?_cons]
    cases p x with
    | true => exact List.mem_cons_self
    | false => exact List.mem_cons_of_mem _ ih

/-- The entry of the header is in the list, with the end of the header. -/
theorem ingested_spec (hparsed : libs.parseCookie header = some parsed)
    (h : ingested libs newId header url now cookies = some c) :
    c ∈ ingestSetCookie libs newId header url now cookies ∧
      c.expires = captureExpires libs parsed now := by
  obtain ⟨fresh, hread, rfl⟩ := Option.map_eq_some_iff.mp h
  rw [ingestSetCookie, hread, ← expires_readSetCookie hparsed hread]
  refine ⟨mem_upsert_find? cookies, ?_⟩
  cases cookies.find? fun x => sameIdentity x fresh <;> rfl

theorem mem_matching {url' : Url} {host : String} (hhost : url'.host = some host)
    (hcovers : Covers libs url' host c) :
    c ∈ matching libs cookies url' t ↔ c ∈ cookies ∧ ∀ e ∈ parseExpiry libs c.expires, t < e := by
  obtain ⟨hsecure, hdomain, hpath⟩ := hcovers
  rw [matching, hhost]
  dsimp only
  rw [List.mem_mergeSort, List.mem_filter, attaches]
  have hhttps : (c.secure && !isHttps url') = false := by
    cases hs : c.secure with
    | false => rfl
    | true => rw [hsecure hs]; rfl
  have hend : (parseExpiry libs c.expires).any (· ≤ t) = false ↔
      ∀ e ∈ parseExpiry libs c.expires, t < e := by
    cases parseExpiry libs c.expires <;> simp
  rw [hhttps, hdomain, hpath]
  simp [hend]

/-- An end can be read back just when it can be written. -/
theorem parseExpiry_captureExpires
    (hrfc : ∀ t, libs.parseRfc3339 (libs.toRfc3339 t) = if Writable t then some t else none)
    (hfrom : ∀ s, libs.fromTimestamp s =
      if InCalendar (s * 10 ^ 9) then some (s * 10 ^ 9) else none) :
    parseExpiry libs (captureExpires libs parsed now) =
      (writtenEnd parsed now).filter fun e => Writable e := by
  rw [parseExpiry, captureExpires, writtenEnd]
  cases parsed.maxAge with
  | some secs =>
    dsimp only
    rw [Option.bind_some, hrfc, Option.filter_some]
    simp only [decide_eq_true_eq]
  | none =>
    cases parsed.expires with
    | none => rfl
    | some s =>
      dsimp only
      rw [Option.bind_some, hfrom, Option.map_some, Option.filter_some]
      simp only [decide_eq_true_eq]
      by_cases hs : Writable (s * 10 ^ 9)
      · rw [if_pos hs, if_pos (writable_inCalendar hs), Option.map_some, Option.bind_some, hrfc,
          if_pos hs]
      · rw [if_neg hs]
        split_ifs
        · rw [Option.map_some, Option.bind_some, hrfc, if_neg hs]
        · rfl

theorem https_isHttps (host : Option String) (path : String) :
    isHttps ⟨"https", host, path⟩ = true := by
  have hsame : Mcp.eqIgnoreAsciiCase "https" "https" = true := by decide
  exact hsame

/-- Some URL is covered by the cookie: the one with its domain for the host, and with its path. -/
theorem exists_covers (libs : Libraries) (c : StoredCookie) :
    ∃ (url' : Url) (host : String), url'.host = some host ∧ Covers libs url' host c := by
  refine ⟨⟨"https", some (String.ofList (c.domain.toList.dropWhile (· == '.'))), c.path⟩, _, rfl,
    fun _ => https_isHttps _ _, ?_, ?_⟩
  · rw [domainMatch, if_pos]
    rw [toAsciiLowercase, String.toList_ofList, String.toList_ofList, List.map_map]
    congr 1
    funext d
    exact (toLower_toLower d).symm
  · dsimp only
    by_cases hpath : c.path = ""
    · have hroot : pathMatch "" "/" = true := by decide
      rwa [if_pos hpath, hpath]
    · rw [if_neg hpath, pathMatch, if_pos rfl]

/-- A header expires in time just when the end that is written for it, if it is accepted and has
one, lies in a year with four digits. -/
theorem expires_in_time_iff (libs : Libraries) (newId header : String) (url : Url) (now : ℤ)
    (cookies : List StoredCookie) (hnow : InCalendar now)
    (hrfc : ∀ t, libs.parseRfc3339 (libs.toRfc3339 t) = if Writable t then some t else none)
    (hfrom : ∀ s, libs.fromTimestamp s =
      if InCalendar (s * 10 ^ 9) then some (s * 10 ^ 9) else none) :
    ExpiresInTime libs newId header url now cookies ↔
      ∀ parsed fresh, libs.parseCookie header = some parsed →
        readSetCookie libs newId header url now = some fresh →
        ∀ e ∈ writtenEnd parsed now, Writable e := by
  constructor
  · rintro ⟨cookies', hingest, hlifetime⟩ parsed fresh hparsed hread e he
    by_contra hunwritten
    obtain ⟨c, hc⟩ : ∃ c, ingested libs newId header url now cookies = some c := by
      rw [ingested, hread]
      exact ⟨_, rfl⟩
    obtain ⟨hmem, hexpires⟩ := ingested_spec hparsed hc
    obtain ⟨url', host, hhost, hcovers⟩ := exists_covers libs c
    -- an end that is not read back never comes
    have hnone : parseExpiry libs c.expires = none := by
      rw [hexpires, parseExpiry_captureExpires hrfc hfrom, Option.mem_def.mp he,
        Option.filter_some, decide_eq_false hunwritten]
      rfl
    obtain ⟨e', he'⟩ : ∃ e', e' ∈ endsAt parsed now := by
      rw [writtenEnd] at he
      rw [endsAt]
      cases hage : parsed.maxAge with
      | some secs => exact ⟨_, rfl⟩
      | none =>
          rw [hage] at he
          exact ⟨e, he⟩
    have hstays : c ∈ matching libs cookies' url' (max (now + 1) e') := by
      rw [mem_matching hhost hcovers, hnone, eq_of_ingestOrPanic hingest]
      exact ⟨hmem, nofun⟩
    have halive := (hlifetime parsed c hparsed hc url' host _ hhost hcovers
      (by omega)).mp hstays e' he'
    omega
  · intro hwritable
    have hreturns : ∃ cookies', ingestOrPanic libs newId header url now cookies = some cookies' := by
      rw [ingestOrPanic]
      cases hparsed : libs.parseCookie header with
      | none => exact ⟨_, rfl⟩
      | some parsed =>
          cases hread : readSetCookie libs newId header url now with
          | none => exact ⟨_, rfl⟩
          | some fresh =>
              have hsome : (expiresOrPanic libs parsed now).isSome = true :=
                expiresOrPanic_isSome hnow (hwritable parsed fresh hparsed hread)
              obtain ⟨expires, hexpires⟩ := Option.isSome_iff_exists.mp hsome
              dsimp only
              rw [hexpires]
              exact ⟨_, rfl⟩
    obtain ⟨cookies', hingest⟩ := hreturns
    refine ⟨cookies', hingest, fun parsed c hparsed hc url' host t hhost hcovers ht => ?_⟩
    obtain ⟨hmem, hexpires⟩ := ingested_spec hparsed hc
    obtain ⟨fresh, hread, -⟩ := Option.map_eq_some_iff.mp hc
    have hend : ∀ e ∈ writtenEnd parsed now, Writable e := hwritable parsed fresh hparsed hread
    have hparse : parseExpiry libs c.expires = writtenEnd parsed now := by
      rw [hexpires, parseExpiry_captureExpires hrfc hfrom]
      cases hwritten : writtenEnd parsed now with
      | none => rfl
      | some e =>
          rw [Option.filter_some, decide_eq_true (hend e hwritten)]
          rfl
    rw [mem_matching hhost hcovers, eq_of_ingestOrPanic hingest, and_iff_right hmem, hparse,
      writtenEnd, endsAt]
    cases parsed.maxAge with
    | none => exact Iff.rfl
    | some secs =>
        dsimp only
        simp only [Option.mem_some_iff, forall_eq']
        split_ifs <;> omega

/-! ## A minute, and as long as possible -/

def epochText : String := "1970-01-01T00:00:00+00:00"
def minuteText : String := "1970-01-01T00:01:00+00:00"

/-- The two texts for their times, and any other time in unary. -/
def writeTime (t : ℤ) : String :=
  if t = 0 then epochText
  else if t = 60 * 10 ^ 9 then minuteText
  else if Writable t then
    String.ofList ((if t < 0 then 'm' else 'p') :: List.replicate t.natAbs 'x')
  else ""

def readTime (s : String) : Option ℤ :=
  if s = epochText then some 0
  else if s = minuteText then some (60 * 10 ^ 9)
  else
    match s.toList with
    | 'p' :: digits => some digits.length
    | 'm' :: digits => some (-digits.length)
    | _ => none

theorem readTime_writeTime (t : ℤ) :
    readTime (writeTime t) = if Writable t then some t else none := by
  have hwords : ∀ c digits, c ≠ '1' →
      String.ofList (c :: digits) ≠ epochText ∧ String.ofList (c :: digits) ≠ minuteText := by
    intro c digits hc
    constructor <;>
    · intro heq
      have hhead := congrArg (fun s => s.toList.head?) heq
      rw [String.toList_ofList] at hhead
      exact hc (Option.some.inj hhead)
  rw [writeTime]
  by_cases hzero : t = 0
  · subst hzero
    decide
  by_cases hminute : t = 60 * 10 ^ 9
  · subst hminute
    decide
  rw [if_neg hzero, if_neg hminute]
  by_cases hwritable : Writable t
  · rw [if_pos hwritable, if_pos hwritable]
    split_ifs with hsign
    · obtain ⟨hepoch, hminute'⟩ := hwords 'm' (List.replicate t.natAbs 'x') (by decide)
      rw [readTime, if_neg hepoch, if_neg hminute', String.toList_ofList]
      simp only [List.length_replicate]
      congr 1
      omega
    · obtain ⟨hepoch, hminute'⟩ := hwords 'p' (List.replicate t.natAbs 'x') (by decide)
      rw [readTime, if_neg hepoch, if_neg hminute', String.toList_ofList]
      simp only [List.length_replicate]
      congr 1
      omega
  · rw [if_neg hwritable, if_neg hwritable]
    decide

/-- A session cookie with a `Max-Age`. -/
def agedCookie (secs : ℤ) : ParsedCookie where
  name := "sid"
  value := "1"
  domain := none
  path := none
  secure := none
  httpOnly := none
  sameSite := none
  maxAge := some secs
  expires := none

def agedLibraries : Libraries where
  parseCookie header :=
    if header = "sid=1; Max-Age=60" then some (agedCookie 60)
    else if header = "sid=1; Max-Age=9223372036854775807" then some (agedCookie 9223372036854775807)
    else none
  parseRfc3339 := readTime
  toRfc3339 := writeTime
  fromTimestamp s := if InCalendar (s * 10 ^ 9) then some (s * 10 ^ 9) else none
  isIpAddr _ := false

def shopUrl : Url := ⟨"https", some "shop.test", "/"⟩

/-- The largest `Max-Age` is no duration of the calendar. -/
theorem largest_max_age_panics :
    ¬ ExpiresInTime agedLibraries "x" "sid=1; Max-Age=9223372036854775807" shopUrl 0 [] := by
  rintro ⟨cookies', hingest, -⟩
  have hpanic : ingestOrPanic agedLibraries "x" "sid=1; Max-Age=9223372036854775807" shopUrl 0
      [] = none := by decide
  rw [hpanic] at hingest
  cases hingest

theorem expires_in_time_minute :
    ExpiresInTime agedLibraries "x" "sid=1; Max-Age=60" shopUrl 0 [] ↔
      ∀ parsed fresh, agedLibraries.parseCookie "sid=1; Max-Age=60" = some parsed →
        readSetCookie agedLibraries "x" "sid=1; Max-Age=60" shopUrl 0 = some fresh →
        ∀ e ∈ writtenEnd parsed 0, Writable e :=
  expires_in_time_iff agedLibraries "x" "sid=1; Max-Age=60" shopUrl 0 [] (by decide)
    readTime_writeTime fun _ => rfl

end Voleeo.Cookies
