import Mathlib.Data.List.TakeDrop
import Voleeo.Mcp.ToolCalls
import Voleeo.Resolve.Http
import Voleeo.Upsert

/-!
# Matching and capturing cookies

Which cookies of a jar a request carries, and how a `Set-Cookie` header enters
the list of captured cookies. The identity of a cookie is its domain in lower
case, its path and its name.
-/
namespace Voleeo.Cookies
open Mcp (sameIdentity eqIgnoreAsciiCase)
open Resolve (toAsciiLowercase)

/-- A parsed `Set-Cookie` header, with `Max-Age` in seconds and `Expires` as a Unix time. -/
structure ParsedCookie where
  name : String
  value : String
  domain : Option String
  path : Option String
  secure : Option Bool
  httpOnly : Option Bool
  sameSite : Option SameSite
  maxAge : Option ℤ
  expires : Option ℤ

/-- What the cookie, time and address libraries do. A time is a number of nanoseconds. -/
structure Libraries where
  parseCookie : String → Option ParsedCookie
  parseRfc3339 : String → Option ℤ
  toRfc3339 : ℤ → String
  fromTimestamp : ℤ → Option ℤ
  isIpAddr : String → Bool

structure Url where
  scheme : String
  host : Option String
  path : String

variable (libs : Libraries)

def isIpLiteral (host : String) : Bool :=
  libs.isIpAddr host || (host.startsWith "[" && host.endsWith "]")

def domainMatch (cookieDomain requestHost : String) (hostOnly : Bool) : Bool :=
  let cd := (cookieDomain.toList.dropWhile (· == '.')).map Char.toLower
  let rh := requestHost.toList.map Char.toLower
  if cd = rh then true
  else if hostOnly then false
  else if isIpLiteral libs (String.ofList rh) then false
  else cd.isSuffixOf rh && rh[rh.length - cd.length - 1]? == some '.'

def pathMatch (cookiePath requestPath : String) : Bool :=
  if cookiePath = requestPath then true
  else if !cookiePath.toList.isPrefixOf requestPath.toList then false
  else cookiePath.toList.getLast? == some '/' ||
    requestPath.toList[cookiePath.length]? == some '/'

/-- The part in front of the last slash, or the root. -/
def defaultPath (uriPath : String) : String :=
  if uriPath.toList.head? ≠ some '/' then "/"
  else
    let dir := uriPath.toList.reverse.dropWhile (· != '/') |>.drop 1 |>.reverse
    if dir = [] then "/" else String.ofList dir

def parseExpiry (expires : Option String) : Option ℤ := expires.bind libs.parseRfc3339

def isHttps (url : Url) : Bool := eqIgnoreAsciiCase url.scheme "https"

/-- The cookie goes along with a request. -/
def attaches (url : Url) (host : String) (now : ℤ) (c : StoredCookie) : Bool :=
  if c.secure && !isHttps url then false
  else if (parseExpiry libs c.expires).any (· ≤ now) then false
  else if !domainMatch libs c.domain host c.hostOnly then false
  else pathMatch c.path (if url.path = "" then "/" else url.path)

/-- Longer paths come first, then older cookies. -/
def sendOrder (a b : StoredCookie) : Bool :=
  b.path.utf8ByteSize < a.path.utf8ByteSize ||
    (b.path.utf8ByteSize == a.path.utf8ByteSize && decide (a.createdAt ≤ b.createdAt))

def matching (cookies : List StoredCookie) (url : Url) (now : ℤ) : List StoredCookie :=
  match url.host with
  | none => []
  | some host =>
    (cookies.filter (attaches libs url (toAsciiLowercase host) now)).mergeSort sendOrder

/-- The domain of a captured cookie, and whether it is for that host only. -/
def captureDomain (domain : Option String) (requestHost : String) : Option (String × Bool) :=
  match domain with
  | none => some (requestHost, true)
  | some d =>
    let d := String.ofList ((d.toList.dropWhile (· == '.')).map Char.toLower)
    if d = "" then some (requestHost, true)
    else if !domainMatch libs d requestHost false then none
    else some (d, false)

def capturePath (path : Option String) (url : Url) : String :=
  match path with
  | some p => if p.toList.head? = some '/' then p else defaultPath url.path
  | none => defaultPath url.path

/-- `Max-Age` goes before `Expires`. -/
def captureExpires (parsed : ParsedCookie) (now : ℤ) : Option String :=
  match parsed.maxAge with
  | some secs => some (libs.toRfc3339 (if secs ≤ 0 then now - 10 ^ 9 else now + secs * 10 ^ 9))
  | none => (parsed.expires.bind libs.fromTimestamp).map libs.toRfc3339

/-- The header as a cookie with the given id, unless it is invalid or rejected. -/
def readSetCookie (newId header : String) (url : Url) (now : ℤ) : Option StoredCookie := do
  let parsed ← libs.parseCookie header
  let name := String.ofList (Resolve.strTrim parsed.name.toList)
  if name = "" then none
  else
    let requestHost := toAsciiLowercase (← url.host)
    let (domain, hostOnly) ← captureDomain libs parsed.domain requestHost
    let secure := parsed.secure.getD false
    if secure && !isHttps url then none
    else
      return {
        id := "ck_" ++ newId
        domain, hostOnly, name, secure
        path := capturePath parsed.path url
        value := parsed.value
        valueEncrypted := false
        httpOnly := parsed.httpOnly.getD false
        sameSite := parsed.sameSite
        expires := captureExpires libs parsed now
        createdAt := libs.toRfc3339 now
        updatedAt := libs.toRfc3339 now }

/-- The cookie of the same identity takes the fresh value and attributes. -/
def refresh (fresh existing : StoredCookie) : StoredCookie :=
  { existing with
    value := fresh.value
    hostOnly := fresh.hostOnly
    secure := fresh.secure
    httpOnly := fresh.httpOnly
    sameSite := fresh.sameSite
    expires := fresh.expires
    updatedAt := fresh.updatedAt }

/-- The list after the header. -/
def ingestSetCookie (newId header : String) (url : Url) (now : ℤ) (cookies : List StoredCookie) :
    List StoredCookie :=
  match readSetCookie libs newId header url now with
  | none => cookies
  | some fresh => upsert (sameIdentity · fresh) (refresh fresh) fresh cookies

/-- A response header, with the URL that it came from and its time. -/
structure SetCookieHeader where
  header : String
  url : Url
  now : ℤ

/-- The sink of one send, over all hops. The `i`-th header gets the `i`-th id. -/
def captureAll (newIds : ℕ → String) (headers : List SetCookieHeader) : List StoredCookie :=
  headers.zipIdx.foldl (fun sink h =>
    ingestSetCookie libs (newIds h.2) h.1.header h.1.url h.1.now sink) []

def pruneExpired (now : ℤ) (cookies : List StoredCookie) : List StoredCookie :=
  cookies.filter fun c =>
    match parseExpiry libs c.expires with
    | some exp => now < exp
    | none => true

/-! ## Identities -/

def identity (c : StoredCookie) : String × String × String :=
  (toAsciiLowercase c.domain, c.path, c.name)

theorem sameIdentity_iff {a b : StoredCookie} :
    sameIdentity a b = true ↔ identity a = identity b := by
  simp [sameIdentity, eqIgnoreAsciiCase, identity, toAsciiLowercase, String.ofList_inj]

/-- One cookie for each id, and one for each identity. -/
structure Distinct (cookies : List StoredCookie) : Prop where
  ids : (cookies.map (·.id)).Nodup
  identities : (cookies.map identity).Nodup

end Voleeo.Cookies
