import Voleeo.Httpie.Command

/-!
# Copied and pasted again

A request that is copied as HTTPie comes back from the address bar exactly when
each of its items is read as what it was written for.
-/
namespace Voleeo.Httpie
open OrderedMap Template Curl
open Send (ResolveCtx)

/-! ## The exported request -/

/-- The rows that are switched on. -/
def sentRows (rows : List RequestParameter) : List CurlHeader :=
  (rows.filter fun p => p.enabled).map fun p => ⟨p.name.toList, p.value.toList⟩

def requestTexts (request : HttpRequest) : List Text :=
  request.url.toList ::
    (request.parameters ++ request.headers).flatMap (fun p => [p.name.toList, p.value.toList]) ++
      request.body.toList.map (fun body => body.text.toList) ++ authTexts request.auth

/-- A resolved request with an http(s) URL, token names, values on one line and a flat JSON body
with the given members. -/
structure Exportable (ctx : ResolveCtx) (request : HttpRequest)
    (members : List (String × Json)) : Prop where
  resolved : ∀ text ∈ requestTexts request, ∀ site, resolveStr ctx site text = .ok text
  scheme : hasHttpScheme request.url.toList = true
  parameters : ∀ q ∈ sentRows request.parameters, IsTokenName q.name ∧ '\n' ∉ q.value
  headers : ∀ h ∈ sentRows request.headers, IsTokenName h.name ∧ '\n' ∉ h.value
  auth : WritesNoItem request.auth
  body : ∃ body, request.body = some body ∧ body.kind = .json ∧
    Json.parse body.text.toList = some (.object members)
  flat : isFlat members = true

/-- Method, URL, parameters, headers and a JSON body with the same members. -/
def Recovered (request : HttpRequest) (members : List (String × Json))
    (parsed : ParsedRequest) : Prop :=
  parsed.method = request.method.toList ∧ parsed.url = request.url.toList ∧
    parsed.parameters = (sentRows request.parameters).map row ∧
    parsed.headers = (sentRows request.headers).map row ∧
    ∃ body, parsed.body = some body ∧ body.kind = .json ∧
      ∃ found, Json.parse body.text = some (.object found) ∧ ∀ e, e ∈ found ↔ e ∈ members

/-- The request comes back from its own command. -/
def RoundTrips (upper lower : Text → Text) (pathname : Text → Option Text) (ctx : Context)
    (request : HttpRequest) (members : List (String × Json)) : Prop :=
  ∃ command parsed, serializeAsHttpie upper lower pathname ctx request = .ok command ∧
    parseHttpieCommand upper lower command = some parsed ∧ Recovered request members parsed

/-- The headers without the one that is taken for a bearer token: the first `Authorization`, when
the command has no user and password. -/
def withoutBearer (lower : Text → Text) (auth : AuthConfig) (headers : List CurlHeader) :
    List CurlHeader :=
  if (writtenCredentials auth).isSome then headers
  else
    match headers.findIdx? fun h => lower h.name == "authorization".toList with
    | none => headers
    | some idx =>
      match (headers[idx]?).bind fun h => bearerToken h.value with
      | none => headers
      | some _ => headers.eraseIdx idx

/-- Each item of the request is read as what it was written for. -/
structure Survives (lower : Text → Text) (pathname : Text → Option Text) (request : HttpRequest)
    (members : List (String × Json)) : Prop where
  method : request.method.toList ∈ httpMethods
  url : ¬ NamesParam request.url.toList ∧ ¬ Continued request.url.toList
  parameters : ∀ q ∈ sentRows request.parameters, q.name.head? ≠ some '-' ∧
    q.name ∉ extractPathParamNames pathname request.url.toList
  headers : ∀ h ∈ sentRows request.headers ++ bearerRows request.auth, HeaderSurvives h
  bearer : withoutBearer lower request.auth
    (sentRows request.headers ++ bearerRows request.auth) = sentRows request.headers
  noComment : isNtlm request.auth = false
  nonempty : members ≠ []
  members : ∀ e ∈ members, FieldSurvives e ∧ e.1 ≠ protoName

/-! ## What is written -/

def plainParam (p : RequestParameter) : ResolvedParam :=
  { name := p.name.toList, value := p.value.toList, enabled := p.enabled }

theorem resolveParams_resolved {ctx : ResolveCtx} {rows : List RequestParameter}
    (h : ∀ p ∈ rows, ∀ site, resolveStr ctx site p.name.toList = .ok p.name.toList ∧
      resolveStr ctx site p.value.toList = .ok p.value.toList) (site : RenderSite) :
    resolveParams ctx site rows = .ok (rows.map plainParam) := by
  have hone : ∀ p ∈ rows, ∀ site, resolveParam ctx site p = .ok (plainParam p) := by
    intro p hp site
    rw [resolveParam]
    cases henabled : p.enabled with
    | true =>
      rw [if_pos rfl, (h p hp _).1]
      show (do
        let value ← resolveStr ctx (1 :: site) p.value.toList
        return ({ name := p.name.toList, value, enabled := true } : ResolvedParam)) = _
      rw [(h p hp _).2, plainParam, henabled]
      rfl
    | false =>
      rw [if_neg Bool.false_ne_true, plainParam, henabled]
  rw [resolveParams]
  suffices hall : ∀ n, (rows.zipIdx n).mapM
      (fun p : RequestParameter × ℕ => resolveParam ctx (p.2 :: site) p.1) =
      Except.ok (rows.map plainParam) from hall 0
  clear h
  induction rows with
  | nil => exact fun n => rfl
  | cons p rows ih =>
    intro n
    rw [List.zipIdx_cons, List.mapM_cons, hone p List.mem_cons_self]
    show (do
      let rest ← (rows.zipIdx (n + 1)).mapM
        (fun p : RequestParameter × ℕ => resolveParam ctx (p.2 :: site) p.1)
      return plainParam p :: rest) = _
    rw [ih (fun q hq => hone q (List.mem_cons_of_mem p hq))]
    rfl

theorem enabledRows_plain {rows : List RequestParameter} (keep : Text → Bool)
    (h : ∀ q ∈ sentRows rows, q.name ≠ []) :
    enabledRows ((rows.map plainParam).filter fun p => keep p.name) =
      (sentRows rows).filter fun q => keep q.name := by
  rw [enabledRows, sentRows, List.filter_map, List.filter_map, List.filter_map, List.map_map,
    List.filter_filter, List.filter_filter]
  refine congrArg (List.map _) (List.filter_congr fun p hp => ?_)
  have hname : p.enabled = true → p.name.toList ≠ [] := fun henabled =>
    h _ (List.mem_map.mpr ⟨p, List.mem_filter.mpr ⟨hp, henabled⟩, rfl⟩)
  simp only [Function.comp_apply, plainParam]
  cases henabled : p.enabled with
  | true => simp [hname henabled]
  | false => simp

section
variable {upper lower : Text → Text} {pathname : Text → Option Text} {ctx : Context}
  {request : HttpRequest} {members : List (String × Json)}

/-- The parameters that the URL does not name. -/
def queryRows (pathname : Text → Option Text) (request : HttpRequest) : List CurlHeader :=
  (sentRows request.parameters).filter fun q =>
    !(extractPathParamNames pathname request.url.toList).contains q.name

/-- The items in the order of the command. -/
def writtenItems (pathname : Text → Option Text) (request : HttpRequest)
    (extraHeaders : List CurlHeader) (members : List (String × Json)) : List Text :=
  (queryRows pathname request).map queryArg ++
    (sentRows request.headers ++ extraHeaders).map headerArg ++ members.map fieldArg

def writtenUrl (pathname : Text → Option Text) (request : HttpRequest) : Text :=
  substitutePathParams request.url.toList
    (pathParamMap (extractPathParamNames pathname request.url.toList)
      (request.parameters.map plainParam))

theorem resolveBody_resolved {body : RequestBody} (hkind : body.kind ≠ .none)
    (htext : body.text ≠ "")
    (h : ∀ site, resolveStr ctx.templates site body.text.toList = .ok body.text.toList) :
    resolveBody ctx.templates (some body) = .ok (some ⟨body.kind, body.text.toList⟩) := by
  rw [resolveBody, if_neg (not_or.mpr ⟨hkind, htext⟩), h]
  rfl

theorem isSignedScheme_of_writesNoItem {auth : AuthConfig} (h : WritesNoItem auth) :
    isSignedScheme auth = false := by
  cases auth <;> first | rfl | exact h

/-- The command of an exportable request. -/
theorem serializeAsHttpie_eq (h : Exportable ctx.templates request members) :
    ∃ parts, AuthWritten upper request.auth parts ∧
      serializeAsHttpie upper lower pathname ctx request =
        .ok (match parts.note with
          | none => commandLines ("http".toList :: parts.flags ++
              [upper request.method.toList, shellQuote (writtenUrl pathname request)])
              ((writtenItems pathname request parts.extraHeaders members).map shellQuote)
          | some note => '#' :: ' ' :: (note ++ '\n' :: commandLines ("http".toList ::
              parts.flags ++
              [upper request.method.toList, shellQuote (writtenUrl pathname request)])
              ((writtenItems pathname request parts.extraHeaders members).map shellQuote))) := by
  obtain ⟨body, hbody, hkind, hparse⟩ := h.body
  have hrows : ∀ p ∈ request.parameters ++ request.headers, ∀ site,
      resolveStr ctx.templates site p.name.toList = .ok p.name.toList ∧
        resolveStr ctx.templates site p.value.toList = .ok p.value.toList := by
    intro p hp site
    constructor <;> refine h.resolved _ ?_ site <;> rw [requestTexts] <;>
      simp only [List.cons_append, List.mem_cons, List.mem_append, List.mem_flatMap] <;>
      exact Or.inr (Or.inl (Or.inl ⟨p, List.mem_append.mp hp, by simp⟩))
  have hparams := resolveParams_resolved (fun p hp => hrows p (List.mem_append_left _ hp)) [1]
  have hheaders := resolveParams_resolved (fun p hp => hrows p (List.mem_append_right _ hp)) [4]
  have hurl := h.resolved request.url.toList (by simp [requestTexts]) [2]
  obtain ⟨parts, hparts, hwritten⟩ := buildAuthParts_written upper
    (fun text htext site => h.resolved text (by simp [requestTexts, htext]) site) h.auth
  have htext : body.text ≠ "" := by
    intro hempty
    have hnone : Json.parse "".toList = none := by decide
    rw [hempty, hnone] at hparse
    cases hparse
  have hresolve := @resolveBody_resolved ctx body (by rw [hkind]; decide) htext
    (fun site => h.resolved _ (by simp [requestTexts, hbody]) site)
  refine ⟨parts, hwritten, ?_⟩
  have hquery : enabledRows ((request.parameters.map plainParam).filter fun p =>
      !(extractPathParamNames pathname request.url.toList).contains p.name) =
        queryRows pathname request :=
    enabledRows_plain
      (fun name => !(extractPathParamNames pathname request.url.toList).contains name)
      fun q hq => (h.parameters q hq).1.1
  have hsent : enabledRows (request.headers.map plainParam) = sentRows request.headers := by
    have := enabledRows_plain (fun _ => true) fun q hq => (h.headers q hq).1.1
    simpa using this
  have hargs : bodyArguments lower (sentRows request.headers ++ parts.extraHeaders)
      (some ⟨body.kind, body.text.toList⟩) =
        ([], members.map fun e => shellQuote (fieldArg e)) := by
    rw [bodyArguments, if_pos hkind, jsonArgs, hparse]
    dsimp only
    rw [if_pos h.flat]
  have hsign : ∀ method url query, signRequest ctx request method url query = .ok {} := by
    intro method url query
    rw [signRequest, isSignedScheme_of_writesNoItem h.auth]
    rfl
  simp only [serializeAsHttpie, hparams, hurl, hparts, hheaders, hbody, hresolve, hargs, hsign,
    hquery, hsent, hwritten.noQuery, bind, Except.bind, pure, Except.pure, List.append_nil]
  have hitems : (queryRows pathname request).map (fun q => shellQuote (queryArg q)) ++
      (sentRows request.headers ++ parts.extraHeaders).map (fun h => shellQuote (headerArg h)) ++
        members.map (fun e => shellQuote (fieldArg e)) =
      (writtenItems pathname request parts.extraHeaders members).map shellQuote := by
    simp only [writtenItems, List.map_append, List.map_map]
    rfl
  rw [hitems]
  cases parts.note <;> rfl

/-! ## What is read -/

theorem readTokens_positional {st : Scan} {t : Text} (ts : List Text) (h : t.head? ≠ some '-') :
    readTokens upper st (t :: ts) = readTokens upper (readPositional upper st t) ts := by
  have hno : ∀ flag : Text, flag.head? = some '-' → t ≠ flag := by
    rintro flag hflag rfl
    exact h hflag
  rw [readTokens.eq_def]
  dsimp only
  rw [if_neg (not_or.mpr ⟨hno _ rfl, hno _ rfl⟩), if_neg (hno _ rfl),
    if_neg (not_or.mpr ⟨hno _ rfl, hno _ rfl⟩), if_neg (not_or.mpr ⟨hno _ rfl, hno _ rfl⟩),
    if_neg (not_or.mpr ⟨hno _ rfl, hno _ rfl⟩), if_neg h]

theorem Scan.method_addItem (st : Scan) (t : Text) : (st.addItem t).method = st.method := by
  rw [addItem]
  split
  · split_ifs <;> rfl
  · rfl
  · rfl
  · split_ifs <;> rfl

/-- The loop only ever takes a known method. -/
theorem method_readTokens {st : Scan} {ts : List Text} (h : ∀ m ∈ st.method, m ∈ httpMethods) :
    ∀ m ∈ (readTokens upper st ts).method, m ∈ httpMethods := by
  fun_induction readTokens upper st ts with
  | case1 | case2 | case4 | case8 => exact h
  | case3 _ _ _ _ _ ih | case5 _ _ _ _ ih | case6 _ _ _ _ _ _ ih | case7 _ _ _ _ _ _ _ ih
  | case9 _ _ _ _ _ _ _ _ _ ih | case10 _ _ _ _ _ _ _ _ _ ih => exact ih h
  | case11 st t rest _ _ _ _ _ _ ih =>
    refine ih ?_
    rw [readPositional]
    split_ifs with hmethod hurl
    · intro m hm
      obtain rfl := Option.some.inj hm
      exact hmethod.2
    · exact h
    · rw [Scan.method_addItem]
      exact h

theorem method_mem {command : Text} {parsed : ParsedRequest}
    (h : parseHttpieCommand upper lower command = some parsed) :
    parsed.method ∈ httpMethods := by
  rw [parseHttpieCommand] at h
  split at h
  · cases h
  · cases h
  · rename_i tokens _
    split_ifs at h
    rw [assemble] at h
    have hmethod := @method_readTokens upper {} tokens (by simp)
    split at h
    · cases h
    · split_ifs at h
      cases h
      dsimp only
      cases hm : (readTokens upper {} tokens).method with
      | none =>
        rw [Option.getD_none]
        split_ifs <;> decide
      | some m => exact hmethod m hm

theorem writtenCredentials_ne_nil {auth : AuthConfig} {creds : Text}
    (h : writtenCredentials auth = some creds) : creds ≠ [] := by
  have hcolon : ∀ user pass : Text, ':' ∈ collapse (user ++ ':' :: pass) := fun user pass =>
    mem_collapse (by simp) (by decide)
  cases auth <;> rw [writtenCredentials] at h <;> first
    | cases h
    | (split_ifs at h; cases h; exact List.ne_nil_of_mem (hcolon _ _))

theorem readAuth_rows (lower : Text → Text) (auth : AuthConfig) (headers : List CurlHeader) :
    (readAuth lower (writtenCredentials auth) (headers.map row)).2 =
      (withoutBearer lower auth headers).map row := by
  rw [readAuth, withoutBearer]
  cases hcreds : writtenCredentials auth with
  | some creds =>
    rw [Option.filter_some_pos (by simpa using writtenCredentials_ne_nil hcreds)]
    rfl
  | none =>
    have hidx : (headers.map row).findIdx? (fun h => lower h.name == "authorization".toList) =
        headers.findIdx? fun h => lower h.name == "authorization".toList := by
      rw [List.findIdx?_map]
      rfl
    simp only [Option.filter_none, Option.isSome_none, Bool.false_eq_true, if_false, hidx]
    cases headers.findIdx? fun h => lower h.name == "authorization".toList with
    | none => rfl
    | some idx =>
      have hget : ((headers.map row)[idx]?.bind fun h => bearerToken h.value) =
          headers[idx]?.bind fun h => bearerToken h.value := by
        rw [List.getElem?_map]
        cases headers[idx]? <;> rfl
      simp only [hget]
      cases headers[idx]?.bind fun h => bearerToken h.value with
      | none => rfl
      | some token => exact List.eraseIdx_map row headers idx

/-- The items as they are read back. -/
def readItems (pathname : Text → Option Text) (request : HttpRequest)
    (members : List (String × Json)) : List Text :=
  (queryRows pathname request).map queryArg ++
    (sentRows request.headers ++ bearerRows request.auth).map headerArg ++
      members.map fun e => collapse (fieldArg e)

theorem collapse_writtenItems {parts : AuthParts} (h : Exportable ctx.templates request members)
    (hw : AuthWritten upper request.auth parts) :
    (writtenItems pathname request parts.extraHeaders members).map collapse =
      readItems pathname request members := by
  have hquery : ∀ q ∈ queryRows pathname request, collapse (queryArg q) = queryArg q := by
    intro q hq
    obtain ⟨hname, hline⟩ := h.parameters q (List.mem_filter.mp hq).1
    exact collapse_of_oneLine (by simp [queryArg, hname.not_mem.2.2, hline])
  have hheader : ∀ a ∈ sentRows request.headers, collapse (headerArg a) = headerArg a := by
    intro a ha
    obtain ⟨hname, hline⟩ := h.headers a ha
    exact collapse_of_oneLine (by simp [headerArg, hname.not_mem.2.2, hline])
  simp only [writtenItems, readItems, List.map_append, List.map_map]
  rw [← hw.headers]
  refine congrArg₂ _ (congrArg₂ _ ?_ (congrArg₂ _ ?_ rfl)) rfl
  · exact List.map_congr_left hquery
  · exact List.map_congr_left hheader

theorem isItem_readItems {t : Text} (ht : t ∈ readItems pathname request members) : IsItem t := by
  rcases List.mem_append.mp ht with ht | ht
  · rcases List.mem_append.mp ht with ht | ht
    · obtain ⟨q, -, rfl⟩ := List.mem_map.mp ht
      exact isItem_queryArg q
    · obtain ⟨a, -, rfl⟩ := List.mem_map.mp ht
      exact isItem_headerArg a
  · obtain ⟨e, -, rfl⟩ := List.mem_map.mp ht
    exact isItem_fieldArg e

/-- What the loop has collected at the end. -/
def readState (pathname : Text → Option Text) (request : HttpRequest)
    (members : List (String × Json)) : Scan where
  method := some request.method.toList
  url := some (collapse (writtenUrl pathname request))
  headers := (readItems pathname request members).filterMap headerOf
  queryParams := (readItems pathname request members).filterMap queryOf
  jsonFields := (readItems pathname request members).filterMap fieldOf
  basicCreds := writtenCredentials request.auth

theorem plain_httpMethods : ∀ m ∈ httpMethods, isPlainWord m = true ∧ m.head? ≠ some '-' := by
  decide

/-- A command with a known method. -/
theorem parse_written (h : Exportable ctx.templates request members)
    (hmethod : request.method.toList ∈ httpMethods)
    (hupper : upper request.method.toList = request.method.toList) :
    ∃ command, serializeAsHttpie upper lower pathname ctx request = .ok command ∧
      parseHttpieCommand upper lower command = if isNtlm request.auth then none
        else assemble lower (readState pathname request members) := by
  obtain ⟨parts, hw, hcommand⟩ := @serializeAsHttpie_eq upper lower pathname ctx _ _ h
  obtain ⟨words, hwords, hflags⟩ := hw.flags
  obtain ⟨hplain, hhead⟩ := plain_httpMethods _ hmethod
  refine ⟨_, hcommand, ?_⟩
  rw [hw.note]
  cases hntlm : isNtlm request.auth with
  | true => exact parse_comment upper lower _
  | false =>
    have htokens := tokenize_commandLines (writtenUrl pathname request)
      (writtenItems pathname request parts.extraHeaders members) hwords hplain
    have hscheme : hasHttpScheme (collapse (writtenUrl pathname request)) = true :=
      (scheme_stays h.scheme).1
    have hhyphen : (collapse (writtenUrl pathname request)).head? ≠ some '-' :=
      (scheme_stays h.scheme).2.1
    have hread : readTokens upper {} (words.flatten ++ request.method.toList ::
        collapse (writtenUrl pathname request) :: readItems pathname request members) =
          readState pathname request members := by
      rw [hflags, readTokens_positional _ hhead, readPositional, if_pos ⟨rfl, by rwa [hupper]⟩,
        readTokens_positional _ hhyphen, readPositional, if_neg (by simp),
        if_pos ⟨rfl, by rw [looksLikeUrl, hscheme]; rfl⟩,
        readTokens_items (fun t => isItem_readItems) (by simp) (by simp), hupper]
      rfl
    rw [parseHttpieCommand, hupper, if_neg Bool.false_ne_true]
    dsimp only
    rw [htokens, List.cons_append, collapse_writtenItems h hw]
    dsimp only
    rw [if_neg (by decide), hread, if_neg Bool.false_ne_true]

/-- The request that is read. -/
theorem assemble_readState (h : Exportable ctx.templates request members) :
    assemble lower (readState pathname request members) = some {
      method := request.method.toList
      url := collapse (writtenUrl pathname request)
      parameters := (readItems pathname request members).filterMap queryOf
      headers := (readAuth lower (writtenCredentials request.auth)
        ((readItems pathname request members).filterMap headerOf)).2
      body := assembleBody (readState pathname request members)
      auth := (readAuth lower (writtenCredentials request.auth)
        ((readItems pathname request members).filterMap headerOf)).1 } := by
  have hne : collapse (writtenUrl pathname request) ≠ [] := (scheme_stays h.scheme).2.2
  rw [assemble]
  dsimp only [readState]
  rw [if_neg hne]
  rfl

theorem assembleBody_readState : assembleBody (readState pathname request members) =
    if (readItems pathname request members).filterMap fieldOf = [] then none
    else some ⟨.json, Json.stringify (.object
      (fieldObject ((readItems pathname request members).filterMap fieldOf)).members)⟩ := rfl

/-! ## Item by item -/

theorem filterMap_queryArgs {qs : List CurlHeader} (h : ∀ q ∈ qs, IsTokenName q.name) :
    (qs.map queryArg).filterMap queryOf =
        (qs.filter fun q => decide (q.name.head? ≠ some '-')).map row ∧
      (qs.map queryArg).filterMap headerOf = [] ∧ (qs.map queryArg).filterMap fieldOf = [] := by
  induction qs with
  | nil => exact ⟨rfl, rfl, rfl⟩
  | cons q qs ih =>
    obtain ⟨hquery, hheader, hfield⟩ := queryArg_read (h q List.mem_cons_self)
    obtain ⟨ihquery, ihheader, ihfield⟩ := ih fun a ha => h a (List.mem_cons_of_mem q ha)
    rw [List.map_cons, List.filterMap_cons, List.filterMap_cons_none hheader,
      List.filterMap_cons_none hfield, hquery]
    refine ⟨?_, ihheader, ihfield⟩
    by_cases hhyphen : q.name.head? = some '-'
    · simp [hhyphen, ihquery]
    · simp [hhyphen, ihquery]

theorem filterMap_headerArgs {hs : List CurlHeader}
    (h : ∀ a ∈ hs, IsTokenName a.name ∧ HeaderSurvives a) :
    (hs.map headerArg).filterMap headerOf = hs.map row ∧
      (hs.map headerArg).filterMap queryOf = [] ∧ (hs.map headerArg).filterMap fieldOf = [] := by
  refine ⟨?_, ?_, ?_⟩
  · rw [List.filterMap_map]
    exact List.filterMap_eq_map_iff_forall_eq_some.mpr fun a ha =>
      (headerArg_read (h a ha).1 (h a ha).2).1
  · rw [List.filterMap_map]
    exact List.filterMap_eq_nil_iff.mpr fun a ha => (headerArg_read (h a ha).1 (h a ha).2).2.1
  · rw [List.filterMap_map]
    exact List.filterMap_eq_nil_iff.mpr fun a ha => (headerArg_read (h a ha).1 (h a ha).2).2.2

theorem not_other_of_field {t : Text} {f : Text × Json} (h : fieldOf t = some f) :
    queryOf t = none ∧ headerOf t = none := by
  obtain ⟨hflag, hclass⟩ := fieldOf_eq_some_iff.mp (show fieldOf t = some (f.1, f.2) from h)
  rw [queryOf, headerOf, hclass, hflag]
  exact ⟨rfl, rfl⟩

theorem filterMap_fieldArgs (h : ∀ e ∈ members, FieldSurvives e) (hw : ∀ e ∈ members, e.2.Written) :
    (members.map fun e => collapse (fieldArg e)).filterMap fieldOf = members.map asField ∧
      (members.map fun e => collapse (fieldArg e)).filterMap queryOf = [] ∧
      (members.map fun e => collapse (fieldArg e)).filterMap headerOf = [] := by
  refine ⟨?_, ?_, ?_⟩
  · rw [List.filterMap_map]
    exact List.filterMap_eq_map_iff_forall_eq_some.mpr fun e he => (h e he).read (hw e he)
  · rw [List.filterMap_map]
    exact List.filterMap_eq_nil_iff.mpr fun e he =>
      (not_other_of_field ((h e he).read (hw e he))).1
  · rw [List.filterMap_map]
    exact List.filterMap_eq_nil_iff.mpr fun e he =>
      (not_other_of_field ((h e he).read (hw e he))).2

theorem isTokenName_authorization : IsTokenName "Authorization".toList :=
  ⟨by decide, by decide⟩

theorem bearerRows_name {auth : AuthConfig} {b : CurlHeader} (h : b ∈ bearerRows auth) :
    IsTokenName b.name ∧ (∃ c ∈ b.name.head?, c.isAlpha = true) ∧ b.value.head? ≠ some '=' := by
  cases auth <;> rw [bearerRows] at h <;> first
    | cases h
    | (split_ifs at h
       · obtain rfl := List.mem_singleton.mp h
         refine ⟨isTokenName_authorization, ⟨'A', rfl, by decide⟩, ?_⟩
         rw [show ∀ t : Text, "Bearer ".toList ++ t = 'B' :: ("earer ".toList ++ t) from
           fun t => rfl, collapse_cons (Or.inl (by decide))]
         simp
       · cases h)

theorem Exportable.written (h : Exportable ctx.templates request members) :
    Json.Ordered members ∧ ∀ e ∈ members, e.2.Written := by
  obtain ⟨body, -, -, hparse⟩ := h.body
  cases Json.written_of_parse hparse with
  | object hordered hall => exact ⟨hordered, hall⟩

theorem queryRows_names (h : Exportable ctx.templates request members) :
    ∀ q ∈ queryRows pathname request, IsTokenName q.name := fun q hq =>
  (h.parameters q (List.mem_filter.mp hq).1).1

/-- The items that survive are collected as they were. -/
theorem Survives.items (hs : Survives lower pathname request members)
    (h : Exportable ctx.templates request members) :
    (readItems pathname request members).filterMap queryOf = (sentRows request.parameters).map row ∧
      (readItems pathname request members).filterMap headerOf =
        (sentRows request.headers ++ bearerRows request.auth).map row ∧
      (readItems pathname request members).filterMap fieldOf = members.map asField := by
  obtain ⟨hquery, hqueryHeader, hqueryField⟩ :=
    filterMap_queryArgs (@queryRows_names pathname ctx _ _ h)
  have hnames : ∀ a ∈ sentRows request.headers ++ bearerRows request.auth,
      IsTokenName a.name ∧ HeaderSurvives a := by
    intro a ha
    refine ⟨?_, hs.headers a ha⟩
    rcases List.mem_append.mp ha with ha | ha
    · exact (h.headers a ha).1
    · exact (bearerRows_name ha).1
  obtain ⟨hheader, hheaderQuery, hheaderField⟩ := filterMap_headerArgs hnames
  obtain ⟨hfield, hfieldQuery, hfieldHeader⟩ :=
    filterMap_fieldArgs (fun e he => (hs.members e he).1) h.written.2
  have hrows : queryRows pathname request = sentRows request.parameters := by
    refine List.filter_eq_self.mpr fun q hq => ?_
    simpa using (hs.parameters q hq).2
  have hkept : (queryRows pathname request).filter
      (fun q => decide (q.name.head? ≠ some '-')) = sentRows request.parameters := by
    rw [hrows]
    exact List.filter_eq_self.mpr fun q hq => by simpa using (hs.parameters q hq).1
  simp only [readItems, List.filterMap_append, hquery, hqueryHeader, hqueryField, hheader,
    hheaderQuery, hheaderField, hfield, hfieldQuery, hfieldHeader, hkept, List.append_nil,
    List.nil_append, and_self]

theorem Survives.roundTrips (hs : Survives lower pathname request members)
    (h : Exportable ctx.templates request members)
    (hupper : ∀ m ∈ httpMethods, upper m = m) :
    RoundTrips upper lower pathname ctx request members := by
  obtain ⟨command, hcommand, hparse⟩ :=
    @parse_written upper lower pathname ctx _ _ h hs.method (hupper _ hs.method)
  obtain ⟨hquery, hheader, hfield⟩ := hs.items h
  obtain ⟨hordered, hwritten⟩ := h.written
  rw [hs.noComment, if_neg Bool.false_ne_true, assemble_readState h, hheader, readAuth_rows,
    hs.bearer, hquery, assembleBody_readState, hfield,
    if_neg (by simpa using hs.nonempty)] at hparse
  refine ⟨command, _, hcommand, hparse, rfl, ?_, rfl, rfl, _, rfl, rfl, members, ?_,
    fun e => Iff.rfl⟩
  · exact collapse_substitute_iff.mpr hs.url
  · have hparsed := @parse_fieldObject (members.map asField) (by
      intro f hf
      obtain ⟨e, he, rfl⟩ := List.mem_map.mp hf
      exact hwritten e he)
    refine hparsed.trans ?_
    rw [fieldObject_members hordered fun e he => (hs.members e he).2]

theorem readAuth_sublist (lower : Text → Text) (creds : Option Text)
    (headers : List ParsedParameter) : (readAuth lower creds headers).2.Sublist headers := by
  rw [readAuth]
  split
  · exact List.Sublist.refl _
  · split
    · exact List.Sublist.refl _
    · split
      · exact List.Sublist.refl _
      · exact List.eraseIdx_sublist _ _

/-- The header of a bearer token is read as a header or as a parameter. -/
theorem bearerRows_read {auth : AuthConfig} :
    ((bearerRows auth).map headerArg).filterMap fieldOf = [] ∧
      ((∀ b ∈ bearerRows auth, HeaderSurvives b) ∨
        ∃ p ∈ ((bearerRows auth).map headerArg).filterMap queryOf, ':' ∈ p.name) := by
  have hread : ∀ b ∈ bearerRows auth, fieldOf (headerArg b) = none ∧
      (HeaderSurvives b ∨ ∃ p, queryOf (headerArg b) = some p ∧ ':' ∈ p.name) := by
    intro b hb
    obtain ⟨hname, halpha, hvalue⟩ := bearerRows_name hb
    by_cases hs : HeaderSurvives b
    · exact ⟨(headerArg_read hname hs).2.2, Or.inl hs⟩
    · obtain ⟨-, hfield, hquery⟩ := headerArg_lost hname halpha hvalue hs
      exact ⟨hfield, Or.inr hquery⟩
  refine ⟨?_, ?_⟩
  · rw [List.filterMap_map]
    exact List.filterMap_eq_nil_iff.mpr fun b hb => (hread b hb).1
  · by_contra hno
    push Not at hno
    obtain ⟨⟨b, hb, hs⟩, hall⟩ := hno
    obtain ⟨p, hp, hcolon⟩ := (hread b hb).2.resolve_left hs
    exact hall p (List.mem_filterMap.mpr ⟨_, List.mem_map_of_mem hb, hp⟩) hcolon

/-- A request that comes back has only items that survive. -/
theorem survives_of_roundTrips (h : Exportable ctx.templates request members)
    (hupper : ∀ m ∈ httpMethods, upper m = m)
    (hrt : RoundTrips upper lower pathname ctx request members) :
    Survives lower pathname request members := by
  obtain ⟨command, parsed, hcommand, hparse, hmethod, hurl, hparams, hheaders, body, hbody, -,
    found, hfound, hsame⟩ := hrt
  have hm : request.method.toList ∈ httpMethods := hmethod ▸ method_mem hparse
  obtain ⟨command', hcommand', hread⟩ :=
    @parse_written upper lower pathname ctx _ _ h hm (hupper _ hm)
  obtain rfl : command = command' := Except.ok.inj (hcommand.symm.trans hcommand')
  cases hntlm : isNtlm request.auth with
  | true =>
    rw [hntlm, if_pos rfl, hparse] at hread
    cases hread
  | false =>
  rw [hntlm, if_neg Bool.false_ne_true, assemble_readState h, hparse] at hread
  obtain rfl := Option.some.inj hread
  dsimp only at hurl hparams hheaders hbody
  -- The headers of the request are among those that were read.
  have hown : ∀ a ∈ sentRows request.headers, HeaderSurvives a := by
    intro a ha
    have hmem : row a ∈ (readItems pathname request members).filterMap headerOf :=
      (readAuth_sublist _ _ _).subset (by rw [hheaders]; exact List.mem_map_of_mem ha)
    obtain ⟨t, -, ht⟩ := List.mem_filterMap.mp hmem
    exact survives_of_headerOf ht
  obtain ⟨hquery, hqueryHeader, hqueryField⟩ :=
    filterMap_queryArgs (@queryRows_names pathname ctx _ _ h)
  obtain ⟨hheader, hheaderQuery, hheaderField⟩ :=
    filterMap_headerArgs fun a ha => ⟨(h.headers a ha).1, hown a ha⟩
  obtain ⟨hbearerField, hbearer⟩ := @bearerRows_read request.auth
  obtain ⟨hordered, hwritten⟩ := h.written
  -- So the fields come from the members alone, and each member gives its own.
  have hfields : (readItems pathname request members).filterMap fieldOf =
      (members.map fun e => collapse (fieldArg e)).filterMap fieldOf := by
    simp only [readItems, List.map_append, List.filterMap_append, hqueryField, hheaderField,
      hbearerField, List.nil_append]
  rw [assembleBody_readState, hfields] at hbody
  split_ifs at hbody with hnone
  cases hbody
  have hobject := @parse_fieldObject ((members.map fun e => collapse (fieldArg e)).filterMap
    fieldOf) (by
      intro f hf
      obtain ⟨t, -, ht⟩ := List.mem_filterMap.mp hf
      exact written_of_fieldOf ht)
  obtain rfl : _ = found := Json.object.inj (Option.some.inj (hobject.symm.trans hfound))
  have hmembers := survives_of_fields hordered rfl hsame
  obtain ⟨hfield, hfieldQuery, hfieldHeader⟩ :=
    filterMap_fieldArgs (fun e he => (hmembers e he).1) hwritten
  have hnonempty : members ≠ [] := by
    rintro rfl
    exact hnone rfl
  -- Then the parameters come from the parameters and the bearer token.
  have hqueries : (readItems pathname request members).filterMap queryOf =
      ((queryRows pathname request).filter fun q => decide (q.name.head? ≠ some '-')).map row ++
        ((bearerRows request.auth).map headerArg).filterMap queryOf := by
    simp only [readItems, List.map_append, List.filterMap_append, hquery, hheaderQuery,
      hfieldQuery, List.nil_append, List.append_nil]
  have hbearerSurvives : ∀ b ∈ bearerRows request.auth, HeaderSurvives b := by
    refine hbearer.resolve_right ?_
    rintro ⟨p, hp, hcolon⟩
    have hmem : p ∈ (sentRows request.parameters).map row := by
      rw [← hparams, hqueries]
      exact List.mem_append_right _ hp
    obtain ⟨q, hq, rfl⟩ := List.mem_map.mp hmem
    exact (h.parameters q hq).1.not_mem.2.1 hcolon
  obtain ⟨hbearerHeader, hbearerQuery, -⟩ :=
    filterMap_headerArgs fun b hb => ⟨(bearerRows_name hb).1, hbearerSurvives b hb⟩
  refine {
    method := hm
    url := collapse_substitute_iff.mp hurl
    parameters := ?_
    headers := ?_
    bearer := ?_
    noComment := hntlm
    nonempty := hnonempty
    members := hmembers }
  · rw [hqueries, hbearerQuery, List.append_nil, queryRows, List.filter_filter] at hparams
    have hall := List.filter_eq_self.mp (List.map_injective_iff.mpr row_injective hparams)
    intro q hq
    simpa [and_comm] using hall q hq
  · intro a ha
    exact (List.mem_append.mp ha).elim (hown a) (hbearerSurvives a)
  · have hread : (readItems pathname request members).filterMap headerOf =
        (sentRows request.headers ++ bearerRows request.auth).map row := by
      simp only [readItems, List.map_append, List.filterMap_append, hqueryHeader, hheader,
        hbearerHeader, hfieldHeader, List.nil_append, List.append_nil]
    rw [hread, readAuth_rows] at hheaders
    exact List.map_injective_iff.mpr row_injective hheaders

end

/-- One header with the value, and one member in the body. -/
def hookRequest (value : String) : HttpRequest :=
  { HttpRequest.blank with
    method := "POST"
    url := "https://x.dev/run"
    headers := [⟨"h1", "X-Filter", value, true⟩]
    body := some ⟨.json, "\x7b\"k\":\"w\"\x7d", none, none, none, none⟩ }

def hookMembers : List (String × Json) := [("k", .string "w")]

def plainHost : Context where
  templates := ⟨[], []⟩
  signDynamic _ _ _ _ := .ok {}

theorem exportable_hook {value : String} (hline : '\n' ∉ value.toList)
    (hplain : ¬ ['\x7b', '\x7b'] <:+: value.toList) :
    Exportable plainHost.templates (hookRequest value) hookMembers where
  resolved := by
    intro text htext site
    refine resolveTemplateImpl_plain ?_
    have hcases : text = "https://x.dev/run".toList ∨ text = "X-Filter".toList ∨
        text = value.toList ∨ text = "\x7b\"k\":\"w\"\x7d".toList := by
      simpa [requestTexts, hookRequest, HttpRequest.blank, authTexts] using htext
    rcases hcases with rfl | rfl | rfl | rfl
    · decide
    · decide
    · exact hplain
    · decide
  scheme := (by decide : hasHttpScheme "https://x.dev/run".toList = true)
  parameters := by simp [sentRows, hookRequest, HttpRequest.blank]
  headers := by
    intro h hh
    obtain rfl : h = ⟨"X-Filter".toList, value.toList⟩ := by
      simpa [sentRows, hookRequest, HttpRequest.blank] using hh
    exact ⟨(⟨by decide, by decide⟩ : IsTokenName "X-Filter".toList), hline⟩
  auth := trivial
  body := by
    refine ⟨_, rfl, rfl, ?_⟩
    have hwritten : (Json.object hookMembers).Written :=
      .object (List.pairwise_singleton _ _) (by simp [hookMembers, Json.Written.string])
    exact hwritten.parse_stringify
  flat := rfl

end Voleeo.Httpie
