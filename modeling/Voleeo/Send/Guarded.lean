import Mathlib.Data.Nat.Bitwise
import Mathlib.Tactic
import Voleeo.Cookies.SendChain

/-!
# Addresses that a guarded send refuses

The guard refuses link-local addresses and the metadata service of a cloud. It looks
at the segments of an IPv6 address, also where these spell an IPv4 address.
-/
namespace Voleeo.Send

inductive IpAddr
  | v4 (bits : BitVec 32)
  | v6 (bits : BitVec 128)
  deriving DecidableEq, Repr

/-- The octets of an IPv4 address, the first one of the highest bits. -/
def octet (bits : BitVec 32) (i : ℕ) : BitVec 8 := bits.extractLsb' (24 - 8 * i) 8

/-- The segments of an IPv6 address, the first one of the highest bits. -/
def segment (bits : BitVec 128) (i : ℕ) : BitVec 16 := bits.extractLsb' (112 - 16 * i) 16

/-- The endpoint `fd00:ec2::254`. -/
def metadataV6 : BitVec 128 := 0xfd000ec2000000000000000000000254#128

def isLinkLocalOrMetadata : IpAddr → Bool
  | .v4 bits => octet bits 0 = 169#8 && octet bits 1 = 254#8
  | .v6 bits => (segment bits 0 &&& 0xffc0#16) = 0xfe80#16 || bits = metadataV6

/-! ## The ranges -/

/-- `169.254.0.0/16` -/
def linkLocalV4 (n : ℕ) : Prop := n / 2 ^ 16 = 169 * 256 + 254

/-- An IPv4 address that is spelled `::ffff:a.b.c.d` and lies in `169.254.0.0/16`. -/
def MappedLinkLocal : IpAddr → Prop
  | .v4 _ => False
  | .v6 bits => bits.toNat / 2 ^ 32 = 0xffff ∧ linkLocalV4 (bits.toNat % 2 ^ 32)

/-- What no guarded send may reach. -/
def Forbidden : IpAddr → Prop
  | .v4 bits => linkLocalV4 bits.toNat
  | .v6 bits => MappedLinkLocal (.v6 bits) ∨
      bits.toNat / 2 ^ 118 = 0xfe80 / 2 ^ 6 ∨ bits = metadataV6

instance (n : ℕ) : Decidable (linkLocalV4 n) := inferInstanceAs (Decidable (_ = _))

instance : DecidablePred MappedLinkLocal
  | .v4 _ => inferInstanceAs (Decidable False)
  | .v6 _ => inferInstanceAs (Decidable (_ ∧ _))

instance : DecidablePred Forbidden
  | .v4 _ => inferInstanceAs (Decidable (linkLocalV4 _))
  | .v6 _ => inferInstanceAs (Decidable (_ ∨ _ ∨ _))

/-- The first ten bits of a segment. -/
theorem and_ffc0_eq_iff (s : BitVec 16) :
    s &&& 0xffc0#16 = 0xfe80#16 ↔ s.toNat / 2 ^ 6 = 0xfe80 / 2 ^ 6 := by
  have hmask : s &&& 0xffc0#16 = (s >>> 6) <<< 6 := by
    ext i hi
    interval_cases i <;> simp
  rw [hmask, ← BitVec.toNat_inj, BitVec.toNat_shiftLeft, BitVec.toNat_ushiftRight,
    Nat.shiftRight_eq_div_pow, Nat.shiftLeft_eq]
  have hs := s.isLt
  simp only [BitVec.toNat_ofNat]
  omega

/-- The guard tells the forbidden addresses apart but for the mapped ones. -/
theorem isLinkLocalOrMetadata_iff (ip : IpAddr) :
    isLinkLocalOrMetadata ip = true ↔ Forbidden ip ∧ ¬ MappedLinkLocal ip := by
  cases ip with
  | v4 bits =>
    have hbits := bits.isLt
    simp only [isLinkLocalOrMetadata, octet, Forbidden, MappedLinkLocal, linkLocalV4,
      Bool.and_eq_true, decide_eq_true_eq, ← BitVec.toNat_inj, BitVec.extractLsb'_toNat,
      Nat.shiftRight_eq_div_pow, BitVec.toNat_ofNat, not_false_eq_true, and_true]
    omega
  | v6 bits =>
    have hbits := bits.isLt
    have hsegment : (segment bits 0 &&& 0xffc0#16) = 0xfe80#16 ↔
        bits.toNat / 2 ^ 118 = 0xfe80 / 2 ^ 6 := by
      rw [and_ffc0_eq_iff, segment, BitVec.extractLsb'_toNat, Nat.shiftRight_eq_div_pow]
      omega
    have hmapped : bits.toNat / 2 ^ 118 = 0xfe80 / 2 ^ 6 ∨ bits = metadataV6 →
        ¬ MappedLinkLocal (.v6 bits) := by
      rintro (hlink | rfl)
      · rw [MappedLinkLocal]
        omega
      · decide
    simp only [isLinkLocalOrMetadata, Bool.or_eq_true, decide_eq_true_eq, hsegment, Forbidden]
    constructor
    · exact fun h => ⟨Or.inr h, hmapped h⟩
    · rintro ⟨hmem | h, hnot⟩
      · exact absurd hmem hnot
      · exact h

end Voleeo.Send

/-!
## The addresses that a guarded send connects to

A send that no human vetted must not reach link-local addresses. The first URL is
checked before the request goes out, each redirect by the redirect policy, and the
answers for a name by the resolver. NTLM opens a connection of its own.
-/
namespace Voleeo.Send
open Resolve (strTrim toAsciiLowercase)
open Cookies (usesNtlm)

inductive Host
  | domain (name : String)
  | ipv4 (bits : BitVec 32)
  | ipv6 (bits : BitVec 128)
  deriving DecidableEq, Repr

/-- The address that a literal host is. -/
def Host.literal : Host → Option IpAddr
  | .domain _ => none
  | .ipv4 bits => some (.v4 bits)
  | .ipv6 bits => some (.v6 bits)

/-- Parsers outside the repository, and what a send checks of a request besides its URL before it
connects: the method, the headers, the body and the signature. -/
structure NetLibraries where
  /-- The host of a URL, if the text is one. -/
  parseUrl : String → Option Host
  hostStr : Host → String
  parseIp : String → Option IpAddr
  prepares : HttpRequest → Bool
  preparesNtlm : HttpRequest → Bool
  /-- The header that answers a Digest challenge. -/
  digestHeader : HttpRequest → List String → Option String

/-- What the network answers where a connection is opened: the addresses that the system has for
the name, if the lookup succeeds, and at which of the addresses at hand a connection is opened. -/
structure Lookup where
  answers : Option (List IpAddr)
  dials : IpAddr → Bool

/-- A host on the way of a leg, with what the network answers there. -/
structure NetHop extends Lookup where
  host : Host

/-- The answers to a leg: at the URL of the request, the redirects, and the last response. -/
structure LegAnswers where
  lookup : Lookup
  redirects : List NetHop
  status : ℕ
  wwwAuthenticate : List String

/-- The answers to a send. -/
structure NetAnswers where
  ntlm : Lookup
  first : LegAnswers
  retry : LegAnswers

/-- The connections that a leg opened, and whether it came to its end. -/
structure Leg where
  opened : List IpAddr
  finished : Bool

variable (libs : NetLibraries)

def normalizeUrl (raw : String) : Option String :=
  let t := strTrim raw.toList
  if t = [] then none
  else if "http://".toList.isPrefixOf t || "https://".toList.isPrefixOf t then
    some (String.ofList t)
  else some (String.ofList ("https://".toList ++ t))

def trimmed (s : String) : String := String.ofList (strTrim s.toList)

/-- The brackets around an IPv6 host go. -/
def trimBrackets (s : String) : String :=
  let isBracket (c : Char) : Bool := c = '[' || c = ']'
  String.ofList ((s.toList.dropWhile isBracket).rdropWhile isBracket)

/-- The overrides that are on and whose address is one, under their names in lower case. -/
def resolvedOverrides (overrides : List DnsOverride) : List (String × IpAddr) :=
  (overrides.filter fun o => o.enabled && !(strTrim o.hostname.toList).isEmpty).filterMap fun o =>
    (libs.parseIp (trimmed o.address)).map fun ip =>
      (toAsciiLowercase (trimmed o.hostname), ip)

/-- `TaskLocalResolver::resolve` -/
def resolveName (guard : Bool) (overrides : List (String × IpAddr)) (name : String)
    (answers : Option (List IpAddr)) : Option (List IpAddr) :=
  let host := toAsciiLowercase name
  let collected := match overrides.find? (·.1 = host) with
    | some o => some [o.2]
    | none => answers
  collected.bind fun ips =>
    if guard && ips.any isLinkLocalOrMetadata then none else some ips

/-- The addresses at hand for a host: a literal one skips the resolver. -/
def addresses (guard : Bool) (overrides : List (String × IpAddr)) (host : Host)
    (answers : Option (List IpAddr)) : Option (List IpAddr) :=
  match host with
  | .domain name => resolveName guard overrides name answers
  | .ipv4 bits => some [.v4 bits]
  | .ipv6 bits => some [.v6 bits]

/-- A literal host that the guard refuses. -/
def refusesLiteral (guard : Bool) (host : Host) : Bool :=
  guard && (libs.parseIp (trimBrackets (libs.hostStr host))).any isLinkLocalOrMetadata

def maxRedirects : ℕ := 10

/-- The hops of a leg behind `previous` others. -/
def followRedirects (guard : Bool) (overrides : List (String × IpAddr)) :
    ℕ → List NetHop → Leg
  | _, [] => ⟨[], true⟩
  | previous, hop :: hops =>
    if maxRedirects ≤ previous then ⟨[], false⟩
    else if refusesLiteral libs guard hop.host then ⟨[], false⟩
    else
      match addresses guard overrides hop.host hop.answers with
      | none => ⟨[], false⟩
      | some ips =>
        let rest := followRedirects guard overrides (previous + 1) hops
        ⟨ips.filter hop.dials ++ rest.opened, rest.finished⟩

def sendInner (guard : Bool) (overrides : List (String × IpAddr)) (request : HttpRequest)
    (answers : LegAnswers) : Leg :=
  match (normalizeUrl request.url).bind libs.parseUrl with
  | none => ⟨[], false⟩
  | some host =>
    if !libs.prepares request then ⟨[], false⟩
    else if refusesLiteral libs guard host then ⟨[], false⟩
    else
      match addresses guard overrides host answers.lookup.answers with
      | none => ⟨[], false⟩
      | some ips =>
        let rest := followRedirects libs guard overrides 1 answers.redirects
        ⟨ips.filter answers.lookup.dials ++ rest.opened, rest.finished⟩

/-- `TcpStream::connect`: a host that is no address as it stands is looked up. -/
def sendNtlm (request : HttpRequest) (lookup : Lookup) : List IpAddr :=
  match (normalizeUrl request.url).bind libs.parseUrl with
  | none => []
  | some host =>
    if !libs.preparesNtlm request then []
    else
      match libs.parseIp (libs.hostStr host) with
      | some ip => [ip].filter lookup.dials
      | none => (lookup.answers.getD []).filter lookup.dials

/-- The request of the second leg. -/
def retryRequest (request : HttpRequest) (header : String) : HttpRequest :=
  { request with
    headers := request.headers ++
      [{ id := "__auth", name := "Authorization", value := header, enabled := true }]
    auth := .none }

/-- The header of the second leg, if there is one. -/
def retryHeader (request : HttpRequest) (answers : LegAnswers) : Option String :=
  match request.auth with
  | .digest _ =>
    if answers.status = 401 ∧ request.auth.isActive then
      libs.digestHeader request answers.wwwAuthenticate
    else none
  | _ => none

/-- The connections of a send. -/
def sendWithAuthRetry (guard : Bool) (overrides : List (String × IpAddr)) (request : HttpRequest)
    (answers : NetAnswers) : List IpAddr :=
  if usesNtlm request.auth then sendNtlm libs request answers.ntlm
  else
    let first := sendInner libs guard overrides request answers.first
    if first.finished then
      match retryHeader libs request answers.first with
      | none => first.opened
      | some header =>
        first.opened ++
          (sendInner libs guard overrides (retryRequest request header) answers.retry).opened
    else first.opened

def sendGuarded (request : HttpRequest) (dnsOverrides : List DnsOverride)
    (answers : NetAnswers) : List IpAddr :=
  sendWithAuthRetry libs true (resolvedOverrides libs dnsOverrides) request answers

/-! ## What is reached -/

/-- How the parsers read a host: a literal one is its address once the brackets of IPv6 are off,
and a name is no address. -/
structure NetLibraries.Spells (host : Host) : Prop where
  literal : libs.parseIp (trimBrackets (libs.hostStr host)) = host.literal
  plain : libs.parseIp (libs.hostStr host) =
    match host with
    | .ipv4 bits => some (.v4 bits)
    | _ => none

/-- A host where nothing is refused: it has addresses, and none of them is flagged. -/
def admitted (overrides : List (String × IpAddr)) (hop : NetHop) : Bool :=
  match addresses false overrides hop.host hop.answers with
  | some ips => !ips.any isLinkLocalOrMetadata
  | none => false

/-- The hosts of a leg up to the first one that is refused. -/
def reached (overrides : List (String × IpAddr)) (hops : List NetHop) : List NetHop :=
  (hops.take maxRedirects).takeWhile (admitted overrides)

/-- The addresses of a host at which a connection is opened. -/
def dialed (overrides : List (String × IpAddr)) (hop : NetHop) : List IpAddr :=
  ((addresses false overrides hop.host hop.answers).getD []).filter hop.dials

/-- The hosts that a leg leads to, if it gets to connect. -/
def route (request : HttpRequest) (answers : LegAnswers) : List NetHop :=
  match (normalizeUrl request.url).bind libs.parseUrl with
  | some host =>
    if libs.prepares request then { answers.lookup with host } :: answers.redirects else []
  | none => []

/-- Whether a leg along these hosts comes to its end. -/
def arrives (overrides : List (String × IpAddr)) (hops : List NetHop) : Bool :=
  !hops.isEmpty && hops.length ≤ maxRedirects && hops.all (admitted overrides)

/-- The hosts that the legs of a send lead to. -/
def legs (overrides : List (String × IpAddr)) (request : HttpRequest) (answers : NetAnswers) :
    List (List NetHop) :=
  route libs request answers.first ::
    if arrives overrides (route libs request answers.first) then
      ((retryHeader libs request answers.first).map fun header =>
        route libs (retryRequest request header) answers.retry).toList
    else []

/-- The addresses at hand for the connection of NTLM. -/
def ntlmAddresses (lookup : Lookup) : Host → List IpAddr
  | .ipv4 bits => [.v4 bits]
  | _ => lookup.answers.getD []

/-- NTLM, which has no guard, has no forbidden address at hand where it connects; any other send
connects to no mapped address on its way. -/
def Harmless (request : HttpRequest) (dnsOverrides : List DnsOverride) (answers : NetAnswers) :
    Prop :=
  if usesNtlm request.auth then
    libs.preparesNtlm request = true → ∀ host,
      (normalizeUrl request.url).bind libs.parseUrl = some host →
      ∀ ip ∈ ntlmAddresses answers.ntlm host, answers.ntlm.dials ip = true → ¬ Forbidden ip
  else
    ∀ hops ∈ legs libs (resolvedOverrides libs dnsOverrides) request answers,
      ∀ hop ∈ reached (resolvedOverrides libs dnsOverrides) hops,
        ∀ ip ∈ dialed (resolvedOverrides libs dnsOverrides) hop, ¬ MappedLinkLocal ip

variable {libs}

theorem resolveName_guarded (overrides : List (String × IpAddr)) (name : String)
    (answers : Option (List IpAddr)) :
    resolveName true overrides name answers =
      (resolveName false overrides name answers).filter
        fun ips => !ips.any isLinkLocalOrMetadata := by
  simp only [resolveName]
  cases (match overrides.find? (·.1 = toAsciiLowercase name) with
    | some o => some [o.2]
    | none => answers) with
  | none => rfl
  | some ips =>
    simp only [Option.bind_some, Bool.true_and, Bool.false_and, Bool.false_eq_true, if_false]
    rw [Option.filter_some]
    cases ips.any isLinkLocalOrMetadata with
    | true => rfl
    | false => rfl

theorem filter_eq_ite {α : Type*} {p : List α → Bool} {o : Option (List α)} {b : Bool}
    (hb : b = (o.filter p).isSome) : o.filter p = if b then some (o.getD []) else none := by
  subst hb
  cases o with
  | none => rfl
  | some l =>
    cases hp : p l with
    | true => simp [hp]
    | false => simp [hp]

theorem admitted_eq (overrides : List (String × IpAddr)) (hop : NetHop) :
    admitted overrides hop = ((addresses false overrides hop.host hop.answers).filter
      fun ips => !ips.any isLinkLocalOrMetadata).isSome := by
  rw [admitted]
  cases addresses false overrides hop.host hop.answers with
  | none => rfl
  | some ips =>
    by_cases hany : ips.any isLinkLocalOrMetadata = true
    · simp [hany]
    · simp [hany]

/-- The two checks at a hop come to one: it is passed just where the host is admitted. -/
theorem guarded_addresses (overrides : List (String × IpAddr)) {hop : NetHop}
    (hspells : libs.Spells hop.host) :
    (if refusesLiteral libs true hop.host then none
      else addresses true overrides hop.host hop.answers) =
    if admitted overrides hop then some ((addresses false overrides hop.host hop.answers).getD [])
    else none := by
  have hrefuses : refusesLiteral libs true hop.host =
      hop.host.literal.any isLinkLocalOrMetadata := by
    rw [refusesLiteral, hspells.literal, Bool.true_and]
  have hadmitted := admitted_eq overrides hop
  rw [hrefuses]
  cases hhost : hop.host with
  | domain name =>
    rw [hhost] at hadmitted
    simp only [Host.literal, Option.any_none, Bool.false_eq_true, if_false, addresses,
      resolveName_guarded]
    exact filter_eq_ite hadmitted
  | ipv4 bits =>
    rw [hhost] at hadmitted
    rw [hadmitted]
    cases hbits : isLinkLocalOrMetadata (.v4 bits) with
    | true => simp [Host.literal, addresses, hbits]
    | false => simp [Host.literal, addresses, hbits]
  | ipv6 bits =>
    rw [hhost] at hadmitted
    rw [hadmitted]
    cases hbits : isLinkLocalOrMetadata (.v6 bits) with
    | true => simp [Host.literal, addresses, hbits]
    | false => simp [Host.literal, addresses, hbits]

theorem followRedirects_cons {overrides : List (String × IpAddr)} {previous : ℕ} {hop : NetHop}
    {hops : List NetHop} (hspells : libs.Spells hop.host) (hprevious : previous < maxRedirects) :
    followRedirects libs true overrides previous (hop :: hops) =
      if admitted overrides hop then
        ⟨dialed overrides hop ++ (followRedirects libs true overrides (previous + 1) hops).opened,
          (followRedirects libs true overrides (previous + 1) hops).finished⟩
      else ⟨[], false⟩ := by
  have hguarded := guarded_addresses overrides hspells
  rw [followRedirects, if_neg (Nat.not_le.mpr hprevious)]
  by_cases hrefuses : refusesLiteral libs true hop.host = true
  · rw [if_pos hrefuses] at hguarded ⊢
    by_cases hadmitted : admitted overrides hop = true
    · simp [hadmitted] at hguarded
    · rw [if_neg hadmitted]
  · rw [if_neg hrefuses] at hguarded ⊢
    rw [hguarded]
    by_cases hadmitted : admitted overrides hop = true
    · simp only [if_pos hadmitted, dialed]
    · simp only [if_neg hadmitted]

/-- A guarded leg connects along the hosts up to the first one that is refused. -/
theorem followRedirects_eq (overrides : List (String × IpAddr)) {hops : List NetHop}
    (hspells : ∀ hop ∈ hops, libs.Spells hop.host) (previous : ℕ) :
    (followRedirects libs true overrides previous hops).opened =
        ((hops.take (maxRedirects - previous)).takeWhile (admitted overrides)).flatMap
          (dialed overrides) ∧
      (followRedirects libs true overrides previous hops).finished =
        (hops.length ≤ maxRedirects - previous && hops.all (admitted overrides)) := by
  induction hops generalizing previous with
  | nil => simp [followRedirects]
  | cons hop hops ih =>
    obtain ⟨hhop, hhops⟩ := List.forall_mem_cons.mp hspells
    by_cases hprevious : maxRedirects ≤ previous
    · rw [followRedirects, if_pos hprevious, Nat.sub_eq_zero_of_le hprevious]
      simp
    · have hlt : previous < maxRedirects := Nat.not_le.mp hprevious
      obtain ⟨hopened, hfinished⟩ := ih hhops (previous + 1)
      have hleft : maxRedirects - previous = maxRedirects - (previous + 1) + 1 := by omega
      rw [followRedirects_cons hhop hlt, hleft, List.take_succ_cons]
      cases hadmitted : admitted overrides hop with
      | true =>
        simp only [if_true, hopened, hfinished, List.takeWhile_cons, hadmitted,
          List.flatMap_cons, List.length_cons, Nat.add_le_add_iff_right, List.all_cons,
          Bool.true_and, and_self]
      | false =>
        simp [hadmitted]

theorem sendInner_eq_follow (guard : Bool) (overrides : List (String × IpAddr))
    (request : HttpRequest) (answers : LegAnswers) :
    sendInner libs guard overrides request answers =
      if (route libs request answers).isEmpty then ⟨[], false⟩
      else followRedirects libs guard overrides 0 (route libs request answers) := by
  rw [sendInner, route]
  cases (normalizeUrl request.url).bind libs.parseUrl with
  | none => rfl
  | some host =>
    cases hprepares : libs.prepares request with
    | false => simp
    | true =>
      simp only [Bool.not_true, Bool.false_eq_true, if_false, if_true,
        List.isEmpty_cons, followRedirects]
      rfl

theorem sendInner_eq (overrides : List (String × IpAddr)) {request : HttpRequest}
    {answers : LegAnswers}
    (hspells : ∀ hop ∈ route libs request answers, libs.Spells hop.host) :
    (sendInner libs true overrides request answers).opened =
        (reached overrides (route libs request answers)).flatMap (dialed overrides) ∧
      (sendInner libs true overrides request answers).finished =
        arrives overrides (route libs request answers) := by
  obtain ⟨hopened, hfinished⟩ := followRedirects_eq overrides hspells 0
  rw [sendInner_eq_follow, reached, arrives]
  cases hroute : route libs request answers with
  | nil => exact ⟨rfl, rfl⟩
  | cons hop hops =>
    rw [hroute] at hopened hfinished
    simp only [List.isEmpty_cons, Bool.false_eq_true, if_false]
    exact ⟨hopened, by rw [hfinished]; rfl⟩

/-! ## What is safe -/

/-- A host that is reached was not flagged. -/
theorem forbidden_iff_mapped {overrides : List (String × IpAddr)} {hops : List NetHop}
    {hop : NetHop} (hhop : hop ∈ reached overrides hops) {ip : IpAddr}
    (hip : ip ∈ dialed overrides hop) : Forbidden ip ↔ MappedLinkLocal ip := by
  have hadmitted : admitted overrides hop = true := List.mem_takeWhile_imp hhop
  have hclean : isLinkLocalOrMetadata ip = false := by
    rw [admitted] at hadmitted
    rw [dialed] at hip
    cases haddresses : addresses false overrides hop.host hop.answers with
    | none => simp [haddresses] at hadmitted
    | some ips =>
      simp only [haddresses, Bool.not_eq_true', List.any_eq_false] at hadmitted
      simp only [haddresses, Option.getD_some, List.mem_filter] at hip
      exact Bool.eq_false_iff.mpr (hadmitted ip hip.1)
  constructor
  · intro hforbidden
    by_contra hmapped
    rw [(isLinkLocalOrMetadata_iff ip).mpr ⟨hforbidden, hmapped⟩] at hclean
    cases hclean
  · intro hmapped
    cases ip with
    | v4 bits => exact hmapped.elim
    | v6 bits => exact Or.inl hmapped

theorem sendWithAuthRetry_eq {overrides : List (String × IpAddr)} {request : HttpRequest}
    {answers : NetAnswers} (hntlm : usesNtlm request.auth = false)
    (hspells : ∀ hops ∈ legs libs overrides request answers, ∀ hop ∈ hops, libs.Spells hop.host) :
    sendWithAuthRetry libs true overrides request answers =
      (legs libs overrides request answers).flatMap fun hops =>
        (reached overrides hops).flatMap (dialed overrides) := by
  rw [legs, List.forall_mem_cons] at hspells
  obtain ⟨hopened, hfinished⟩ := sendInner_eq overrides hspells.1
  simp only [sendWithAuthRetry, hntlm, Bool.false_eq_true, if_false, hfinished, legs]
  cases harrives : arrives overrides (route libs request answers.first) with
  | false => simp [hopened]
  | true =>
    cases hheader : retryHeader libs request answers.first with
    | none => simp [hopened]
    | some header =>
      have hsecond : ∀ hop ∈ route libs (retryRequest request header) answers.retry,
          libs.Spells hop.host := by
        refine hspells.2 _ ?_
        simp [harrives, hheader]
      simp [hopened, (sendInner_eq overrides hsecond).1]

theorem sendNtlm_safe_iff {request : HttpRequest} {lookup : Lookup}
    (hspells : ∀ host, (normalizeUrl request.url).bind libs.parseUrl = some host →
      libs.Spells host) :
    (∀ ip ∈ sendNtlm libs request lookup, ¬ Forbidden ip) ↔
      (libs.preparesNtlm request = true → ∀ host,
        (normalizeUrl request.url).bind libs.parseUrl = some host →
        ∀ ip ∈ ntlmAddresses lookup host, lookup.dials ip = true → ¬ Forbidden ip) := by
  cases hhost : (normalizeUrl request.url).bind libs.parseUrl with
  | none => simp [sendNtlm, hhost]
  | some host =>
    have hplain := (hspells host hhost).plain
    have hopened : sendNtlm libs request lookup =
        if libs.preparesNtlm request then (ntlmAddresses lookup host).filter lookup.dials
        else [] := by
      simp only [sendNtlm, hhost]
      cases libs.preparesNtlm request with
      | false => rfl
      | true => cases host <;> simp only [hplain] <;> rfl
    rw [hopened]
    cases libs.preparesNtlm request with
    | false => simp
    | true => simp [and_imp]

/-- A guarded send reaches no link-local or metadata address just where it is not NTLM to one, and
meets none in the mapped spelling. -/
theorem guarded_iff (libs : NetLibraries) (request : HttpRequest)
    (dnsOverrides : List DnsOverride) (answers : NetAnswers)
    (hfirst : ∀ host, (normalizeUrl request.url).bind libs.parseUrl = some host →
      libs.Spells host)
    (hredirects : ∀ hop ∈ answers.first.redirects ++ answers.retry.redirects,
      libs.Spells hop.host) :
    (∀ ip ∈ sendGuarded libs request dnsOverrides answers, ¬ Forbidden ip) ↔
      Harmless libs request dnsOverrides answers := by
  rw [sendGuarded, Harmless]
  cases hntlm : usesNtlm request.auth with
  | true =>
      simp only [sendWithAuthRetry, hntlm, if_true]
      exact sendNtlm_safe_iff hfirst
  | false =>
      have hroute (r : HttpRequest) (hurl : r.url = request.url) (a : LegAnswers)
          (ha : a = answers.first ∨ a = answers.retry) :
          ∀ hop ∈ route libs r a, libs.Spells hop.host := by
        intro hop hhop
        rw [route, hurl] at hhop
        cases hhost : (normalizeUrl request.url).bind libs.parseUrl with
        | none => simp [hhost] at hhop
        | some host =>
            simp only [hhost] at hhop
            cases hprepares : libs.prepares r with
            | false => simp [hprepares] at hhop
            | true =>
                simp only [hprepares, if_true, List.mem_cons] at hhop
                rcases hhop with rfl | hhop
                · exact hfirst host hhost
                · refine hredirects hop (List.mem_append.mpr ?_)
                  rcases ha with rfl | rfl
                  · exact Or.inl hhop
                  · exact Or.inr hhop
      have hspells : ∀ hops ∈ legs libs (resolvedOverrides libs dnsOverrides) request answers,
          ∀ hop ∈ hops, libs.Spells hop.host := by
        intro hops hhops
        rw [legs, List.mem_cons] at hhops
        rcases hhops with rfl | hhops
        · exact hroute request rfl _ (Or.inl rfl)
        · split at hhops
          · obtain ⟨header, -, rfl⟩ := Option.map_eq_some_iff.mp (Option.mem_toList.mp hhops)
            exact hroute (retryRequest request header) rfl _ (Or.inr rfl)
          · cases hhops
      rw [sendWithAuthRetry_eq hntlm hspells]
      simp only [Bool.false_eq_true, if_false, List.mem_flatMap]
      constructor
      · intro h hops hhops hop hhop ip hip hmapped
        exact h ip ⟨hops, hhops, hop, hhop, hip⟩ ((forbidden_iff_mapped hhop hip).mpr hmapped)
      · rintro h ip ⟨hops, hhops, hop, hhop, hip⟩ hforbidden
        exact h hops hhops hop hhop ip hip ((forbidden_iff_mapped hhop hip).mp hforbidden)

/-! ## The metadata service -/

def metadataV4 : BitVec 32 := 0xa9fea9fe#32

def mappedMetadata : BitVec 128 := 0xffffa9fea9fe#128

/-- The readings of a shop's URL and of two for the metadata service. -/
def shopLibraries : NetLibraries where
  parseUrl url :=
    if url = "https://shop.test/" then some (.domain "shop.test")
    else if url = "http://169.254.169.254/" then some (.ipv4 metadataV4)
    else if url = "http://[::ffff:169.254.169.254]/" then some (.ipv6 mappedMetadata)
    else none
  hostStr
    | .domain name => name
    | .ipv4 _ => "169.254.169.254"
    | .ipv6 _ => "[::ffff:a9fe:a9fe]"
  parseIp text :=
    if text = "169.254.169.254" then some (.v4 metadataV4)
    else if text = "::ffff:a9fe:a9fe" then some (.v6 mappedMetadata)
    else none
  prepares _ := true
  preparesNtlm _ := true
  digestHeader _ _ := none

def silent : Lookup := { answers := none, dials := fun _ => true }

def noAnswer : LegAnswers :=
  { lookup := silent, redirects := [], status := 200, wwwAuthenticate := [] }

/-- The shop redirects to the metadata service. -/
def redirectedToMetadata : NetAnswers where
  ntlm := silent
  first :=
    { lookup := { answers := some [.v4 0x0a000005#32], dials := fun _ => true }
      redirects := [{ silent with host := .ipv4 metadataV4 }]
      status := 302
      wwwAuthenticate := [] }
  retry := noAnswer

def getRequest (url : String) (auth : AuthConfig) : HttpRequest :=
  { HttpRequest.blank with method := "GET", url, auth }

theorem guarded_iff_redirect :
    (∀ ip ∈ sendGuarded shopLibraries (getRequest "https://shop.test/" .none) []
      redirectedToMetadata, ¬ Forbidden ip) ↔
    Harmless shopLibraries (getRequest "https://shop.test/" .none) [] redirectedToMetadata := by
  have hshop : (normalizeUrl "https://shop.test/").bind shopLibraries.parseUrl =
      some (.domain "shop.test") := by decide
  refine guarded_iff shopLibraries _ [] _ ?_ ?_
  · intro host hhost
    obtain rfl : Host.domain "shop.test" = host := Option.some.inj (hshop.symm.trans hhost)
    exact ⟨by decide, by decide⟩
  · intro hop hhop
    obtain rfl : hop = { silent with host := .ipv4 metadataV4 } := by
      simpa [redirectedToMetadata, noAnswer] using hhop
    exact ⟨by decide, by decide⟩

def ntlmLogin : AuthConfig :=
  .ntlm { username := "u", password := "p", passwordEncrypted := false, domain := ""
          workstation := "", enabled := true }

/-- NTLM connects to the metadata service, and so does any send in the mapped spelling. -/
theorem guarded_reaches_metadata :
    (∃ ip ∈ sendGuarded shopLibraries (getRequest "http://169.254.169.254/" ntlmLogin) []
      { ntlm := silent, first := noAnswer, retry := noAnswer }, Forbidden ip) ∧
    ∃ ip ∈ sendGuarded shopLibraries (getRequest "http://[::ffff:169.254.169.254]/" .none) []
      { ntlm := silent, first := noAnswer, retry := noAnswer }, Forbidden ip := by
  have hntlm : sendGuarded shopLibraries (getRequest "http://169.254.169.254/" ntlmLogin) []
      { ntlm := silent, first := noAnswer, retry := noAnswer } = [.v4 metadataV4] := by decide
  have hmapped : sendGuarded shopLibraries
      (getRequest "http://[::ffff:169.254.169.254]/" .none) []
      { ntlm := silent, first := noAnswer, retry := noAnswer } = [.v6 mappedMetadata] := by decide
  rw [hntlm, hmapped]
  decide

end Voleeo.Send
