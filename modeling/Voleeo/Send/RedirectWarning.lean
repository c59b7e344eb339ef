import Voleeo.AuthSyntax
import Voleeo.Send.Guarded

/-!
# Warnings about redirects

A redirect may drop the body of a request, or headers that are secret. The warning
is worked out afterwards, from the stored request and the hops.
-/
namespace Voleeo.Send
open Resolve (strTrim toAsciiLowercase)

/-- Where a connection goes. The port is the known one if the URL has none. -/
structure Authority where
  host : String
  port : ℕ
  deriving DecidableEq, Repr

structure RedirectHop where
  status : ℕ
  «to» : String

/-- What is outside the repository: Unicode upper case, and the host and port of a URL. -/
structure RedirectLibraries where
  toUppercase : String → String
  authority : String → Option Authority

/-- The error is the text of an HTTP error. -/
def parseMethod (s : String) : Except String String :=
  let t := strTrim s.toList
  if t ≠ [] ∧ t.all isTokenChar = true then .ok (String.ofList t)
  else .error ("Invalid HTTP method: " ++ s)

/-- The method that is sent. -/
def effectiveMethod (request : HttpRequest) : Except String String :=
  if request.body.any fun b => b.kind = .graphql then .ok "POST"
  else parseMethod request.method

/-- The request goes out as GET or HEAD. -/
def SendsRead (request : HttpRequest) : Prop :=
  effectiveMethod request = .ok "GET" ∨ effectiveMethod request = .ok "HEAD"

/-- The body would put bytes on the wire. -/
def hasContent (body : RequestBody) : Bool :=
  match body.kind with
  | .none => false
  | .json | .xml | .text | .html | .graphql => body.text ≠ ""
  | .formUrlEncoded | .multipart =>
    body.fields.any fun fields => fields.any fun x => x.enabled && strTrim x.name.toList ≠ []
  | .binary => body.filePath.any fun p => strTrim p.toList ≠ []

def sensitive : List String := ["authorization", "cookie", "proxy-authorization"]

def isGetOrHead (method : String) : Bool := ["GET", "HEAD"].contains method

def isDowngrade (hop : RedirectHop) : Bool := 301 ≤ hop.status && hop.status ≤ 303

/-- The names of the secret headers that are on. -/
def sensitiveHeaders (request : HttpRequest) : List String :=
  (request.headers.filter fun hd =>
    hd.enabled && sensitive.contains (toAsciiLowercase (trimmed hd.name))).map fun hd =>
      trimmed hd.name

section
variable (libs : RedirectLibraries)

def crossedOrigin (originHost : String) (hops : List RedirectHop) : Bool :=
  hops.any fun h => (libs.authority h.«to»).any fun at' => at'.host ≠ originHost

def computeRedirectWarning (request : HttpRequest) (originHost : String)
    (hops : List RedirectHop) : Option RedirectInfo :=
  if hops = [] then none
  else
    let method := libs.toUppercase request.method
    let hadBody := request.body.any hasContent
    let bodyDropped := hadBody && !isGetOrHead method && hops.any isDowngrade
    let droppedHeaders :=
      if crossedOrigin libs originHost hops then sensitiveHeaders request else []
    if !bodyDropped && droppedHeaders.isEmpty then none
    else some { hopCount := hops.length % 2 ^ 32, bodyDropped, droppedHeaders }

/-- Some hop goes to another host or port than the one before it. -/
def Changes : Authority → List RedirectHop → Prop
  | _, [] => False
  | before, hop :: hops =>
    match libs.authority hop.«to» with
    | none => Changes before hops
    | some next => next ≠ before ∨ Changes next hops

end

/-- What a warning says about the body. -/
def warnsOfBody (warning : Option RedirectInfo) : Bool := warning.any RedirectInfo.bodyDropped

def warnedHeaders (warning : Option RedirectInfo) : List String :=
  (warning.map RedirectInfo.droppedHeaders).getD []

variable {libs : RedirectLibraries} {request : HttpRequest} {origin : Authority}
  {hops : List RedirectHop}

theorem warnsOfBody_compute (hne : hops ≠ []) (originHost : String) :
    warnsOfBody (computeRedirectWarning libs request originHost hops) =
      (request.body.any hasContent && !isGetOrHead (libs.toUppercase request.method) &&
        hops.any isDowngrade) := by
  simp only [computeRedirectWarning, if_neg hne]
  generalize (if crossedOrigin libs originHost hops then sensitiveHeaders request else []) = names
  split_ifs with hclean
  · rw [Bool.and_eq_true, Bool.not_eq_true'] at hclean
    exact hclean.1.symm
  · rfl

theorem warnedHeaders_compute (hne : hops ≠ []) (originHost : String) :
    warnedHeaders (computeRedirectWarning libs request originHost hops) =
      if crossedOrigin libs originHost hops then sensitiveHeaders request else [] := by
  simp only [computeRedirectWarning, if_neg hne]
  generalize (if crossedOrigin libs originHost hops then sensitiveHeaders request else []) = names
  split_ifs with hclean
  · rw [Bool.and_eq_true, List.isEmpty_iff] at hclean
    exact hclean.2.symm
  · rfl

/-- Leaving the first host is a change at some hop. -/
theorem changes_of_crossed {before : Authority} (h : crossedOrigin libs before.host hops = true) :
    Changes libs before hops := by
  induction hops generalizing before with
  | nil => cases h
  | cons hop hops ih =>
    rw [crossedOrigin, List.any_cons, ← crossedOrigin, Bool.or_eq_true] at h
    rw [Changes]
    cases hat : libs.authority hop.«to» with
    | none =>
      rw [hat] at h
      exact ih (h.resolve_left (by simp))
    | some next =>
      by_cases hsame : next.host = before.host
      · rw [hat] at h
        exact Or.inr (ih (hsame ▸ h.resolve_left (by simp [hsame])))
      · exact Or.inl fun heq => hsame (by rw [heq])

/-- The warning is right exactly when the stored method and the sent one agree on a downgrade
that drops a body, and no hop changes the port alone while secret headers are on. -/
theorem redirect_warning_iff (libs : RedirectLibraries) (request : HttpRequest)
    (origin : Authority) (hops : List RedirectHop) (hne : hops ≠ []) :
    ((warnsOfBody (computeRedirectWarning libs request origin.host hops) = true ↔
        request.body.any hasContent = true ∧ ¬ SendsRead request ∧
          ∃ hop ∈ hops, 301 ≤ hop.status ∧ hop.status ≤ 303) ∧
      (Changes libs origin hops →
        warnedHeaders (computeRedirectWarning libs request origin.host hops) =
          sensitiveHeaders request) ∧
      (¬ Changes libs origin hops →
        warnedHeaders (computeRedirectWarning libs request origin.host hops) = [])) ↔
    (request.body.any hasContent = true → (∃ hop ∈ hops, 301 ≤ hop.status ∧ hop.status ≤ 303) →
      (libs.toUppercase request.method ∈ ["GET", "HEAD"] ↔ SendsRead request)) ∧
    (Changes libs origin hops → sensitiveHeaders request ≠ [] →
      ∃ hop ∈ hops, ∃ at', libs.authority hop.«to» = some at' ∧ at'.host ≠ origin.host) := by
  have hdowngrade : hops.any isDowngrade = true ↔
      ∃ hop ∈ hops, 301 ≤ hop.status ∧ hop.status ≤ 303 := by
    simp [isDowngrade]
  have hcrossed : crossedOrigin libs origin.host hops = true ↔
      ∃ hop ∈ hops, ∃ at', libs.authority hop.«to» = some at' ∧ at'.host ≠ origin.host := by
    simp [crossedOrigin, Option.any_eq_true]
  have hmember : ∀ m, isGetOrHead m = true ↔ m ∈ ["GET", "HEAD"] := by simp [isGetOrHead]
  rw [← hdowngrade, ← hcrossed, warnsOfBody_compute hne, warnedHeaders_compute hne, ← hmember]
  refine and_congr ?_ ?_
  · by_cases hsends : SendsRead request <;>
      cases request.body.any hasContent <;> cases hops.any isDowngrade <;>
      cases isGetOrHead (libs.toUppercase request.method) <;> simp [hsends]
  · by_cases hcross : crossedOrigin libs origin.host hops = true
    · simp [hcross, changes_of_crossed hcross]
    · by_cases hchanges : Changes libs origin hops
      · simp [hcross, hchanges, eq_comm (a := ([] : List String))]
      · simp [hcross, hchanges]

/-! ## A query that is stored as a read -/

/-- On texts that are URLs of one host. -/
def apiLibraries : RedirectLibraries where
  toUppercase s := String.ofList (s.toList.map Char.toUpper)
  authority s :=
    if s = "https://api.dev/v2" then some ⟨"api.dev", 443⟩
    else if s = "https://api.dev:8443/v2" then some ⟨"api.dev", 8443⟩
    else none

/-- The picker of a GraphQL request is locked to POST; an import keeps what it finds. -/
def graphqlRead : HttpRequest :=
  { HttpRequest.blank with
    url := "https://api.dev/graphql"
    headers := [⟨"h1", "Authorization", "Bearer t", true⟩]
    body := some ⟨.graphql, "query Q", none, none, none, none⟩ }

theorem not_sendsRead_graphqlRead : ¬ SendsRead graphqlRead := by
  have hsent : effectiveMethod graphqlRead = .ok "POST" := rfl
  simp [SendsRead, hsent]

theorem redirect_warning_graphql :
    ((warnsOfBody (computeRedirectWarning apiLibraries graphqlRead "api.dev"
          [⟨307, "https://api.dev/v2"⟩]) = true ↔
        graphqlRead.body.any hasContent = true ∧ ¬ SendsRead graphqlRead ∧
          ∃ hop ∈ [RedirectHop.mk 307 "https://api.dev/v2"], 301 ≤ hop.status ∧ hop.status ≤ 303) ∧
      (Changes apiLibraries ⟨"api.dev", 443⟩ [⟨307, "https://api.dev/v2"⟩] →
        warnedHeaders (computeRedirectWarning apiLibraries graphqlRead "api.dev"
          [⟨307, "https://api.dev/v2"⟩]) = sensitiveHeaders graphqlRead) ∧
      (¬ Changes apiLibraries ⟨"api.dev", 443⟩ [⟨307, "https://api.dev/v2"⟩] →
        warnedHeaders (computeRedirectWarning apiLibraries graphqlRead "api.dev"
          [⟨307, "https://api.dev/v2"⟩]) = [])) ↔
    (graphqlRead.body.any hasContent = true →
      (∃ hop ∈ [RedirectHop.mk 307 "https://api.dev/v2"], 301 ≤ hop.status ∧ hop.status ≤ 303) →
      (apiLibraries.toUppercase graphqlRead.method ∈ ["GET", "HEAD"] ↔ SendsRead graphqlRead)) ∧
    (Changes apiLibraries ⟨"api.dev", 443⟩ [⟨307, "https://api.dev/v2"⟩] →
      sensitiveHeaders graphqlRead ≠ [] →
      ∃ hop ∈ [RedirectHop.mk 307 "https://api.dev/v2"], ∃ at',
        apiLibraries.authority hop.«to» = some at' ∧ at'.host ≠ "api.dev") :=
  redirect_warning_iff apiLibraries graphqlRead ⟨"api.dev", 443⟩ [⟨307, "https://api.dev/v2"⟩]
    (by simp)

/-- The query is sent with POST and loses its body, and nothing is said of it. -/
theorem graphql_redirect_unwarned : ¬ ∀ (libs : RedirectLibraries) (request : HttpRequest)
    (origin : Authority) (hops : List RedirectHop), hops ≠ [] →
    (warnsOfBody (computeRedirectWarning libs request origin.host hops) = true ↔
      request.body.any hasContent = true ∧ ¬ SendsRead request ∧
        ∃ hop ∈ hops, 301 ≤ hop.status ∧ hop.status ≤ 303) := by
  intro h
  have hwarns := (h apiLibraries graphqlRead ⟨"api.dev", 443⟩ [⟨302, "https://api.dev/v2"⟩]
    (by simp)).mpr ⟨by decide, not_sendsRead_graphqlRead, _, List.mem_singleton.mpr rfl, by decide, by decide⟩
  exact absurd hwarns (by decide)

/-- Another port of the same host: the header is stripped, and the warning does not list it. -/
example : warnedHeaders (computeRedirectWarning apiLibraries graphqlRead "api.dev"
    [⟨307, "https://api.dev:8443/v2"⟩]) = [] := by decide

end Voleeo.Send
