import Voleeo.Cookies.TwoStage

/-!
# The cookies of a chain of requests

A send follows redirects, and a Digest challenge starts a second leg. All its
requests take their cookies from the jar as it was at the start. The responses of
a leg put theirs into a sink, which goes into the response of that leg; where
there is a second leg, only its response is returned.
-/
namespace Voleeo.Cookies
open Mcp (putCookies)
open Resolve

def formatCookieHeader (cookies : List StoredCookie) : String :=
  "; ".intercalate (cookies.map fun c => c.name ++ "=" ++ c.value)

/-- A request and its response: the URL, the time at which the cookies are attached, the
`Set-Cookie` values, `none` for one that is no text, and the time at which they arrive. -/
structure Hop where
  url : Url
  now : ℤ
  setCookies : List (Option String)
  receivedAt : ℤ

/-- The task-local lists of a send, and how many ids it has drawn. -/
structure Locals where
  attach : List StoredCookie
  capture : List StoredCookie
  attached : List StoredCookie
  drawn : ℕ

variable (libs : Libraries) (isHeaderValue : String → Bool) (newIds : ℕ → String)

/-- The cookie header of a request that takes its cookies from a jar. -/
def cookieHeader (jar : List StoredCookie) (url : Url) (now : ℤ) : Option String :=
  let matched := matching libs jar url now
  if matched = [] then none
  else some (formatCookieHeader matched) |>.filter isHeaderValue

/-- Each cookie is recorded once. -/
def record (matched attached : List StoredCookie) : List StoredCookie :=
  matched.foldl (fun sink c => if sink.any (·.id = c.id) then sink else sink ++ [c]) attached

namespace Locals

/-- `TaskLocalCookieJar::set_cookies` -/
def setCookies (l : Locals) (url : Url) (now : ℤ) (values : List (Option String)) : Locals :=
  values.foldl (fun l value =>
    match value with
    | some s =>
      { l with
        capture := ingestSetCookie libs (newIds l.drawn) s url now l.capture
        drawn := l.drawn + 1 }
    | none => l) l

/-- `TaskLocalCookieJar::cookies` -/
def cookies (l : Locals) (url : Url) (now : ℤ) : Option String × Locals :=
  let matched := matching libs l.attach url now
  if matched = [] then (none, l)
  else
    ((some (formatCookieHeader matched)).filter isHeaderValue,
      { l with attached := record matched l.attached })

/-- The cookie headers of the requests of a leg. -/
def follow (l : Locals) : List Hop → List (Option String) × Locals
  | [] => ([], l)
  | hop :: hops =>
    let (header, l) := l.cookies libs isHeaderValue hop.url hop.now
    let (headers, l) := (l.setCookies libs newIds hop.url hop.receivedAt hop.setCookies).follow
      hops
    (header :: headers, l)

end Locals

/-- The cookie headers of the requests, and the cookies in the response. -/
structure Sent where
  headers : List (Option String)
  capturedCookies : List StoredCookie
  attachedCookies : List StoredCookie

/-- A leg takes what the sinks hold into its response. -/
def Locals.sendInner (l : Locals) (hops : List Hop) : Sent × Locals :=
  let (headers, l) := l.follow libs isHeaderValue newIds hops
  (⟨headers, l.capture, l.attached⟩, { l with capture := [], attached := [] })

/-- A leg, and a second one where a Digest challenge is answered. -/
def sendLegs (jar : List StoredCookie) (leg : List Hop) (retry : Option (List Hop)) : Sent :=
  let first := Locals.sendInner libs isHeaderValue newIds ⟨jar, [], [], 0⟩ leg
  match retry with
  | none => first.1
  | some leg =>
    let second := first.2.sendInner libs isHeaderValue newIds leg
    { second.1 with headers := first.1.headers ++ second.1.headers }

/-- What the servers answer: the first leg with the status and the challenges of its response, and
the leg with the answer to a challenge. -/
structure Exchange where
  first : List Hop
  status : ℕ
  wwwAuthenticate : List String
  retry : List Hop

/-- The second leg, if there is one. `usable` tells whether a challenge can be answered. -/
def Exchange.retryLeg (usable : List String → Bool) (auth : AuthConfig) (e : Exchange) :
    Option (List Hop) :=
  match auth with
  | .digest _ =>
    if e.status = 401 ∧ auth.isActive ∧ usable e.wwwAuthenticate then some e.retry else none
  | _ => none

/-- The handshake of NTLM runs on a connection of its own, without a cookie jar. -/
def usesNtlm : AuthConfig → Bool
  | .ntlm a => a.enabled
  | _ => false

def sendWithAuthRetry (usable : List String → Bool) (auth : AuthConfig)
    (jar : List StoredCookie) (e : Exchange) : Sent :=
  if usesNtlm auth then ⟨e.first.map fun _ => none, [], []⟩
  else sendLegs libs isHeaderValue newIds jar e.first (e.retryLeg usable auth)

/-! ## A send of its own for each request -/

/-- Headers enter a list, the first one under the `drawn`-th id. -/
def ingestFrom (drawn : ℕ) (headers : List SetCookieHeader) (cookies : List StoredCookie) :
    List StoredCookie :=
  (headers.zipIdx drawn).foldl (fun cookies h =>
    ingestSetCookie libs (newIds h.2) h.1.header h.1.url h.1.now cookies) cookies

/-- The headers of a response that are texts. -/
def Hop.received (hop : Hop) : List SetCookieHeader :=
  hop.setCookies.filterMap fun value =>
    value.map fun header => ⟨header, hop.url, hop.receivedAt⟩

/-- The cookie headers where each request is a send of its own and what it captures is saved
before the next one, with the jar at the end. -/
def sendSeparately : ℕ → List StoredCookie → List Hop → List (Option String) × List StoredCookie
  | _, jar, [] => ([], jar)
  | drawn, jar, hop :: hops =>
    let saved := ingestFrom libs newIds drawn hop.received jar
    let rest := sendSeparately (drawn + hop.received.length) saved hops
    (cookieHeader libs isHeaderValue jar hop.url hop.now :: rest.1, rest.2)

variable {libs isHeaderValue newIds}

variable (libs isHeaderValue) in
theorem cookies_eq (l : Locals) (url : Url) (now : ℤ) :
    (l.cookies libs isHeaderValue url now).1 = cookieHeader libs isHeaderValue l.attach url now ∧
      (l.cookies libs isHeaderValue url now).2.attach = l.attach ∧
      (l.cookies libs isHeaderValue url now).2.capture = l.capture ∧
      (l.cookies libs isHeaderValue url now).2.drawn = l.drawn := by
  rw [Locals.cookies, cookieHeader]
  split_ifs <;> exact ⟨rfl, rfl, rfl, rfl⟩

theorem ingestFrom_append (drawn : ℕ) (front back : List SetCookieHeader)
    (cookies : List StoredCookie) :
    ingestFrom libs newIds drawn (front ++ back) cookies =
      ingestFrom libs newIds (drawn + front.length) back
        (ingestFrom libs newIds drawn front cookies) := by
  rw [ingestFrom, List.zipIdx_append, List.foldl_append]
  rfl

/-- The headers of a response enter the sink in their order. -/
theorem setCookies_eq (l : Locals) (hop : Hop) :
    l.setCookies libs newIds hop.url hop.receivedAt hop.setCookies =
      { l with
        capture := ingestFrom libs newIds l.drawn hop.received l.capture
        drawn := l.drawn + hop.received.length } := by
  rw [Locals.setCookies, Hop.received]
  induction hop.setCookies generalizing l with
  | nil => rfl
  | cons value values ih =>
    rw [List.foldl_cons, ih]
    cases value with
    | none => rfl
    | some s =>
      simp only [List.filterMap_cons, Option.map_some, List.length_cons]
      congr 1
      omega

variable (libs isHeaderValue newIds) in
/-- What the requests of a leg send and leave. -/
theorem follow_eq (l : Locals) (hops : List Hop) :
    (l.follow libs isHeaderValue newIds hops).1 =
        hops.map (fun hop => cookieHeader libs isHeaderValue l.attach hop.url hop.now) ∧
      (l.follow libs isHeaderValue newIds hops).2.attach = l.attach ∧
      (l.follow libs isHeaderValue newIds hops).2.capture =
        ingestFrom libs newIds l.drawn (hops.flatMap Hop.received) l.capture ∧
      (l.follow libs isHeaderValue newIds hops).2.drawn =
        l.drawn + (hops.flatMap Hop.received).length := by
  induction hops generalizing l with
  | nil => exact ⟨rfl, rfl, rfl, rfl⟩
  | cons hop hops ih =>
    obtain ⟨hheader, hattach, hcapture, hdrawn⟩ :=
      cookies_eq libs isHeaderValue l hop.url hop.now
    obtain ⟨hheaders, hattach', hcapture', hdrawn'⟩ :=
      ih ((l.cookies libs isHeaderValue hop.url hop.now).2.setCookies libs newIds hop.url
        hop.receivedAt hop.setCookies)
    simp only [Locals.follow, List.map_cons, List.flatMap_cons, List.length_append]
    rw [hheaders, hattach', hcapture', hdrawn', setCookies_eq, hheader, hattach, hcapture, hdrawn,
      ingestFrom_append]
    refine ⟨rfl, rfl, rfl, ?_⟩
    dsimp only
    omega

theorem saved_sendSeparately (drawn : ℕ) (jar : List StoredCookie) (hops : List Hop) :
    (sendSeparately libs isHeaderValue newIds drawn jar hops).2 =
      ingestFrom libs newIds drawn (hops.flatMap Hop.received) jar := by
  induction hops generalizing drawn jar with
  | nil => rfl
  | cons hop hops ih =>
    rw [sendSeparately, List.flatMap_cons, ingestFrom_append]
    exact ih (drawn + hop.received.length) _

variable (libs isHeaderValue newIds) in
/-- Both legs take their cookies from the jar at the start, and the response that is returned has
the cookies of its leg. -/
theorem sendLegs_eq (jar : List StoredCookie) (leg : List Hop) (retry : Option (List Hop)) :
    (sendLegs libs isHeaderValue newIds jar leg retry).headers =
        (leg ++ retry.getD []).map
          (fun hop => cookieHeader libs isHeaderValue jar hop.url hop.now) ∧
      (sendLegs libs isHeaderValue newIds jar leg retry).capturedCookies = match retry with
        | none => captureAll libs newIds (leg.flatMap Hop.received)
        | some second => ingestFrom libs newIds (leg.flatMap Hop.received).length
            (second.flatMap Hop.received) [] := by
  obtain ⟨hheaders, hattach, hcapture, hdrawn⟩ :=
    follow_eq libs isHeaderValue newIds ⟨jar, [], [], 0⟩ leg
  cases retry with
  | none =>
    rw [Option.getD_none, List.append_nil]
    exact ⟨hheaders, hcapture⟩
  | some second =>
    obtain ⟨hheaders', -, hcapture', -⟩ := follow_eq libs isHeaderValue newIds
      (Locals.sendInner libs isHeaderValue newIds ⟨jar, [], [], 0⟩ leg).2 second
    have hstart : (Locals.sendInner libs isHeaderValue newIds ⟨jar, [], [], 0⟩ leg).2 =
        ⟨jar, [], [], (leg.flatMap Hop.received).length⟩ := by
      simp only [Locals.sendInner, hattach, hdrawn, Nat.zero_add]
    rw [hstart] at hheaders' hcapture'
    rw [Option.getD_some, List.map_append]
    refine ⟨?_, ?_⟩
    · simp only [sendLegs, hstart]
      exact congrArg₂ (· ++ ·) hheaders hheaders'
    · simp only [sendLegs, hstart]
      exact hcapture'

/-- Libraries that read the one header `sid=1`, without attributes. -/
def sessionLibraries : Libraries where
  parseCookie header :=
    if header = "sid=1" then
      some
        { name := "sid"
          value := "1"
          domain := none
          path := none
          secure := none
          httpOnly := none
          sameSite := none
          maxAge := none
          expires := none }
    else none
  parseRfc3339 _ := none
  toRfc3339 t := if t = 1 then "1970-01-01T00:00:00.000000001+00:00" else ""
  fromTimestamp _ := none
  isIpAddr _ := false

/-- A redirect sets `sid` and leads to a page of the same host. -/
def loginHop : Hop := ⟨⟨"https", some "shop.test", "/login"⟩, 0, [some "sid=1"], 1⟩

def pageHop : Hop := ⟨⟨"https", some "shop.test", "/"⟩, 2, [], 3⟩

def sessionCookie : StoredCookie where
  id := "ck_x"
  domain := "shop.test"
  hostOnly := true
  path := "/"
  name := "sid"
  value := "1"
  valueEncrypted := false
  secure := false
  httpOnly := false
  sameSite := none
  expires := none
  createdAt := "1970-01-01T00:00:00.000000001+00:00"
  updatedAt := "1970-01-01T00:00:00.000000001+00:00"

end Voleeo.Cookies

/-!
## Which cookies a response has captured

The sink of a leg goes into the response of that leg. A challenge is answered in
a leg of its own, whose response replaces the one with the challenge.
-/
namespace Voleeo.Cookies

/-- All responses of a send, in the order in which they arrive. -/
def Exchange.responses (usable : List String → Bool) (auth : AuthConfig) (e : Exchange) :
    List Hop :=
  e.first ++ (e.retryLeg usable auth).getD []

/-- The header is a cookie that may be stored. -/
def Acceptable (libs : Libraries) (h : SetCookieHeader) : Prop :=
  (readSetCookie libs "" h.header h.url h.now).isSome

/-- The requests go through the client, and there is no second leg. -/
def OneLeg (usable : List String → Bool) (auth : AuthConfig) (e : Exchange) : Prop :=
  usesNtlm auth = false ∧ e.retryLeg usable auth = none

variable {libs : Libraries} {newIds : ℕ → String} {drawn : ℕ} {headers : List SetCookieHeader}
  {c : StoredCookie} {cookies : List StoredCookie}

theorem readSetCookie_isSome (newId : String) (h : SetCookieHeader) :
    (readSetCookie libs newId h.header h.url h.now).isSome = true ↔ Acceptable libs h := by
  rw [readSetCookie_newId "" newId, Option.isSome_map, Acceptable]

theorem ingestFrom_cons (h : SetCookieHeader) :
    ingestFrom libs newIds drawn (h :: headers) cookies =
      ingestFrom libs newIds (drawn + 1) headers
        (ingestSetCookie libs (newIds drawn) h.header h.url h.now cookies) := by
  rw [ingestFrom, List.zipIdx_cons, List.foldl_cons]
  rfl

/-- The first entry keeps its place and its id. -/
theorem head_ingestFrom :
    ((ingestFrom libs newIds drawn headers (c :: cookies)).head?).map (·.id) = some c.id := by
  induction headers generalizing drawn c cookies with
  | nil => rfl
  | cons h headers ih =>
    rw [ingestFrom_cons, ingestSetCookie]
    cases readSetCookie libs (newIds drawn) h.header h.url h.now with
    | none => exact ih
    | some fresh =>
      dsimp only
      rw [upsert]
      split_ifs
      · exact ih
      · exact ih

/-- The entries that are new have ids that are drawn from then on. -/
theorem drawn_ingestFrom (h : c ∈ ingestFrom libs newIds drawn headers cookies) :
    c.id ∈ cookies.map (·.id) ∨
      ∃ i, drawn ≤ i ∧ i < drawn + headers.length ∧ c.id = "ck_" ++ newIds i := by
  induction headers generalizing drawn cookies with
  | nil => exact .inl (List.mem_map_of_mem h)
  | cons hd headers ih =>
    rw [ingestFrom_cons] at h
    rw [List.length_cons]
    rcases ih h with hold | ⟨i, hi, hlt, hid⟩
    · obtain ⟨d, hd', hid⟩ := List.mem_map.mp hold
      rw [ingestSetCookie] at hd'
      split at hd'
      · exact .inl (hid ▸ List.mem_map_of_mem hd')
      · rename_i fresh hread
        rcases ids_upsert hd' fun _ => rfl with hfresh | ⟨d', hmem, hsame⟩
        · refine .inr ⟨drawn, Nat.le_refl _, by omega, ?_⟩
          rw [← hid, hfresh, id_readSetCookie hread]
        · exact .inl (List.mem_map.mpr ⟨d', hmem, hsame.trans hid⟩)
    · exact .inr ⟨i, by omega, by omega, hid⟩

variable (newIds drawn) in
/-- A sink stays empty just when no header is acceptable. -/
theorem ingestFrom_eq_nil :
    ingestFrom libs newIds drawn headers [] = [] ↔ ∀ h ∈ headers, ¬ Acceptable libs h := by
  induction headers generalizing drawn with
  | nil => exact iff_of_true rfl nofun
  | cons h headers ih =>
    rw [ingestFrom_cons, ingestSetCookie, List.forall_mem_cons,
      ← readSetCookie_isSome (newIds drawn) h]
    cases readSetCookie libs (newIds drawn) h.header h.url h.now with
    | none => simpa using ih (drawn + 1)
    | some fresh =>
      have hhead : ((ingestFrom libs newIds (drawn + 1) headers [fresh]).head?).map (·.id) =
          some fresh.id := head_ingestFrom
      refine iff_of_false (fun hnil => ?_) (by simp)
      have hnil' : ingestFrom libs newIds (drawn + 1) headers [fresh] = [] := hnil
      rw [hnil'] at hhead
      cases hhead

/-- A sink that has been drained gives the same cookies just when it was empty. -/
theorem ingestFrom_drained_iff (hinj : newIds.Injective) {front back : List SetCookieHeader} :
    ingestFrom libs newIds front.length back [] =
        ingestFrom libs newIds front.length back (ingestFrom libs newIds 0 front []) ↔
      ∀ h ∈ front, ¬ Acceptable libs h := by
  rw [← ingestFrom_eq_nil newIds 0]
  refine ⟨fun heq => ?_, fun hnil => by rw [hnil]⟩
  cases hfront : ingestFrom libs newIds 0 front [] with
  | nil => rfl
  | cons c cookies =>
    -- the first cookie of the first leg would come first, under an id of that leg
    have hhead : ((ingestFrom libs newIds front.length back []).head?).map (·.id) = some c.id := by
      rw [heq, hfront]
      exact head_ingestFrom
    obtain ⟨c', hc', hid⟩ := Option.map_eq_some_iff.mp hhead
    have hfirst : c ∈ ingestFrom libs newIds 0 front [] := by
      rw [hfront]
      exact List.mem_cons_self
    obtain ⟨i, -, hi, hcid⟩ := (drawn_ingestFrom hfirst).resolve_left List.not_mem_nil
    obtain ⟨j, hj, -, hcid'⟩ := (drawn_ingestFrom (List.mem_of_head? hc')).resolve_left
      List.not_mem_nil
    have hdrawn : "ck_" ++ newIds i = "ck_" ++ newIds j := by rw [← hcid, ← hid, hcid']
    have hsame : i = j := hinj (String.append_right_inj "ck_" |>.mp hdrawn)
    omega

/-- The response that a send returns has captured the acceptable cookies of all its responses, in
order, just when it is the response of the only leg, or the first leg has no acceptable cookie. -/
theorem captured_all_iff (libs : Libraries) (isHeaderValue : String → Bool)
    (newIds : ℕ → String) (usable : List String → Bool) (auth : AuthConfig)
    (jar : List StoredCookie) (e : Exchange) (hinj : newIds.Injective) :
    (sendWithAuthRetry libs isHeaderValue newIds usable auth jar e).capturedCookies =
        captureAll libs newIds ((e.responses usable auth).flatMap Hop.received) ↔
      OneLeg usable auth e ∨ ∀ h ∈ e.first.flatMap Hop.received, ¬ Acceptable libs h := by
  have hall : captureAll libs newIds ((e.responses usable auth).flatMap Hop.received) =
      ingestFrom libs newIds (e.first.flatMap Hop.received).length
        (((e.retryLeg usable auth).getD []).flatMap Hop.received)
        (ingestFrom libs newIds 0 (e.first.flatMap Hop.received) []) := by
    rw [Exchange.responses, List.flatMap_append]
    rw [← Nat.zero_add (e.first.flatMap Hop.received).length]
    exact ingestFrom_append 0 _ _ []
  rw [hall, sendWithAuthRetry]
  cases hntlm : usesNtlm auth with
  | true =>
      have hretry : e.retryLeg usable auth = none := by
        cases auth <;> first | rfl | cases hntlm
      rw [if_pos rfl, hretry]
      have hone : ¬ OneLeg usable auth e := fun h => by
        rw [OneLeg, hntlm] at h
        exact absurd h.1 nofun
      change [] = ingestFrom libs newIds 0 (e.first.flatMap Hop.received) [] ↔ _
      rw [eq_comm, ingestFrom_eq_nil, or_iff_right hone]
  | false =>
      rw [if_neg Bool.false_ne_true, (sendLegs_eq libs isHeaderValue newIds jar e.first _).2]
      cases hretry : e.retryLeg usable auth with
      | none => exact iff_of_true rfl (.inl ⟨hntlm, hretry⟩)
      | some second =>
          have hone : ¬ OneLeg usable auth e := fun h => by
            rw [OneLeg, hretry] at h
            exact absurd h.2 nofun
          rw [or_iff_right hone]
          exact ingestFrom_drained_iff hinj

/-! ## A challenge that sets a session cookie -/

def digestLogin : AuthConfig :=
  .digest
    { username := "u"
      password := "p"
      passwordEncrypted := false
      enabled := true }

/-- The response with the challenge sets `sid`, and the response to its answer sets nothing. -/
def challenge : Exchange where
  first := [loginHop]
  status := 401
  wwwAuthenticate := ["Digest realm=\"shop\", nonce=\"n\""]
  retry := [pageHop]

theorem drawnIds_injective : drawnIds.Injective := drawnIds_fresh.inj

theorem challenge_cookie_lost :
    (sendWithAuthRetry sessionLibraries (fun _ => true) drawnIds (fun _ => true) digestLogin []
        challenge).capturedCookies ≠
      captureAll sessionLibraries drawnIds
        ((challenge.responses (fun _ => true) digestLogin).flatMap Hop.received) := by
  have hsent : (sendWithAuthRetry sessionLibraries (fun _ => true) drawnIds (fun _ => true)
      digestLogin [] challenge).capturedCookies = [] :=
    (sendLegs_eq sessionLibraries (fun _ => true) drawnIds [] [loginHop] (some [pageHop])).2
  rw [hsent]
  decide

theorem captured_all_challenge :
    (sendWithAuthRetry sessionLibraries (fun _ => true) drawnIds (fun _ => true) digestLogin []
        challenge).capturedCookies =
        captureAll sessionLibraries drawnIds
          ((challenge.responses (fun _ => true) digestLogin).flatMap Hop.received) ↔
      OneLeg (fun _ => true) digestLogin challenge ∨
        ∀ h ∈ challenge.first.flatMap Hop.received, ¬ Acceptable sessionLibraries h :=
  captured_all_iff sessionLibraries (fun _ => true) drawnIds (fun _ => true) digestLogin [] challenge
    drawnIds_injective

end Voleeo.Cookies
