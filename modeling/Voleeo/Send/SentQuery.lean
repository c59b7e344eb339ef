import Voleeo.FormUrlEncoded
import Voleeo.Resolve.Http
import Voleeo.Send.QueryPieces

/-!
# Parts of the query of the Rust resolver

The resolver cuts the stored URL in front of its query and encodes each part as a
whole, so that the parts are all that is read, unless a fragment is in front of
them.
-/
namespace Voleeo.Resolve

theorem decode_urlEncode (s : Text) : decodeComponent (urlEncode s) = utf8 s := by
  have h := decodeComponent_percentEncode
    (show isUnreserved '+' = false by decide) (show isUnreserved '%' = false by decide) s []
  rwa [List.append_nil, decodeComponent, List.append_nil] at h

/-- An encoded name, with or without an encoded value, and the pair that it stands for. -/
inductive IsRustPart : Text → QueryPair → Prop
  | name (k : Text) : IsRustPart (urlEncode k) (utf8 k, [])
  | value (k v : Text) : IsRustPart (urlEncode k ++ '=' :: urlEncode v) (utf8 k, utf8 v)

theorem not_mem_urlEncode {d : Char} (hkeep : isUnreserved d = false) (hpercent : d ≠ '%')
    (s : Text) : d ∉ urlEncode s := by
  refine not_mem_percentEncode hkeep hpercent ?_ s
  rw [isUnreserved, Bool.or_eq_false_iff, Bool.or_eq_false_iff, Bool.or_eq_false_iff,
    Bool.or_eq_false_iff] at hkeep
  exact hkeep.1.1.1.1

theorem IsRustPart.formPair_eq {part : Text} {pair : QueryPair} (h : IsRustPart part pair) :
    formPair part = pair := by
  cases h with
  | name k =>
    rw [formPair_name (not_mem_urlEncode (by decide) (by decide) k), decode_urlEncode]
  | value k v =>
    rw [formPair_append (not_mem_urlEncode (by decide) (by decide) k), decode_urlEncode,
      decode_urlEncode]

theorem not_mem_parts {parts : List Text} {pairs : List QueryPair}
    (h : List.Forall₂ IsRustPart parts pairs) {d : Char} (hkeep : isUnreserved d = false)
    (hpercent : d ≠ '%') (hsign : d ≠ '=') : ∀ part ∈ parts, d ∉ part := by
  induction h with
  | nil => simp
  | cons hpart _ ih =>
    refine List.forall_mem_cons.mpr ⟨?_, ih⟩
    cases hpart with
    | name k => exact not_mem_urlEncode hkeep hpercent k
    | value k v =>
      rw [List.mem_append, List.mem_cons, not_or, not_or]
      exact ⟨not_mem_urlEncode hkeep hpercent k, hsign, not_mem_urlEncode hkeep hpercent v⟩

/-- All that is read of the parts, if no fragment is in front of them: those that are not
empty. -/
theorem parseQuery_parts {parts : List Text} {pairs : List QueryPair}
    (h : List.Forall₂ IsRustPart parts pairs) :
    parseQuery ((List.intercalate ['&'] parts).takeWhile (· ≠ '#')) =
      (parts.filter (· ≠ [])).map formPair := by
  have hsharp : '#' ∉ List.intercalate ['&'] parts := by
    intro hmem
    rcases mem_intercalate hmem with heq | ⟨part, hpart, hmem⟩
    · exact absurd heq (by decide)
    · exact not_mem_parts h (by decide) (by decide) (by decide) part hpart hmem
  have hself := takeWhile_sharp hsharp []
  rw [List.append_nil, List.takeWhile_nil, List.append_nil] at hself
  rw [hself, parseQuery_intercalate (not_mem_parts h (by decide) (by decide) (by decide))]

theorem map_formPair {parts : List Text} {pairs : List QueryPair}
    (h : List.Forall₂ IsRustPart parts pairs) : parts.map formPair = pairs := by
  rw [← List.forall₂_eq_eq_eq, List.forall₂_map_left_iff]
  exact h.imp fun _ _ hpart => hpart.formPair_eq

theorem sharp_mem_stripQuery (url : Text) :
    '#' ∈ stripQuery url ↔ '#' ∈ url ∧ '?' ∉ url.takeWhile (· ≠ '#') := by
  rw [stripQuery]
  induction url with
  | nil => simp
  | cons c url ih =>
    by_cases hquestion : c = '?'
    · simp [hquestion]
    by_cases hsharp : c = '#'
    · simp [hsharp]
    · simpa [hquestion, hsharp, Ne.symm hquestion, Ne.symm hsharp] using ih

/-- The parts are read exactly when the stored URL has no pairs, no part is empty, and none is put
behind a fragment. -/
theorem parseQuery_withQuery_iff (url : Text) {parts : List Text} {pairs : List QueryPair}
    (h : List.Forall₂ IsRustPart parts pairs) :
    parseQuery (queryComponent (withQuery (stripQuery url) parts)) =
        parseQuery (queryComponent url) ++ pairs ↔
      parseQuery (queryComponent url) = [] ∧ [] ∉ parts ∧
        ('#' ∉ url ∨ '?' ∈ url.takeWhile (· ≠ '#') ∨ parts = []) := by
  have hquestion : '?' ∉ stripQuery url := by
    intro hmem
    simpa using List.mem_takeWhile_imp hmem
  have hnone : queryComponent (stripQuery url) = [] := queryComponent_of_no_question fun hmem =>
    hquestion ((List.takeWhile_prefix _).subset hmem)
  by_cases hparts : parts = []
  · subst hparts
    cases h
    rw [withQuery, if_pos List.isEmpty_nil, hnone, List.append_nil]
    simp only [parseQuery_nil, List.not_mem_nil, not_false_eq_true, or_true, and_true]
    exact eq_comm
  rw [withQuery, if_neg (by simpa using hparts)]
  by_cases hsharp : '#' ∈ stripQuery url
  · rw [queryComponent_of_sharp hsharp, hnone]
    refine iff_of_false (fun heq => hparts ?_) ?_
    · have hpairs := (List.append_eq_nil_iff.mp heq.symm).2
      rw [← List.length_eq_zero_iff, h.length_eq, hpairs, List.length_nil]
    · obtain ⟨h1, h2⟩ := (sharp_mem_stripQuery url).mp hsharp
      rintro ⟨-, -, h | h | h⟩
      · exact h h1
      · exact h2 h
      · exact hparts h
  · rw [queryComponent_question hsharp hquestion, parseQuery_parts h]
    have hfront : '#' ∉ url ∨ '?' ∈ url.takeWhile (· ≠ '#') ∨ parts = [] := by
      rw [sharp_mem_stripQuery, not_and_or, not_not] at hsharp
      exact hsharp.imp_right Or.inl
    rw [← map_formPair h]
    constructor
    · intro heq
      have hlen := congrArg List.length heq
      rw [List.length_append, List.length_map, List.length_map] at hlen
      have hle := parts.length_filter_le (· ≠ [])
      have hfull : (parts.filter (· ≠ [])).length = parts.length := by omega
      refine ⟨List.length_eq_zero_iff.mp (by omega), fun hmem => ?_, hfront⟩
      simpa using List.length_filter_eq_length_iff.mp hfull [] hmem
    · rintro ⟨hempty, hmem, -⟩
      rw [hempty, List.nil_append, List.filter_eq_self.mpr]
      intro part hpart
      exact decide_eq_true (ne_of_mem_of_not_mem hpart hmem)

end Voleeo.Resolve

/-!
## The query that reaches the server

The web app and the Rust resolver put the parameters and an API key behind the
URL as it is stored. What a parser finds in the query of the result is compared
with the pairs of the stored URL, of the parameters and of the key.
-/
namespace Voleeo.Send
open Template
open Resolve (UnicodeTables strTrim stripQuery urlEncode resolveStr applyToRequest IsRustPart
  parseQuery_withQuery_iff)

/-! ## Requests and their pairs -/

/-- A URL without templates, enabled parameters with names that are not blank and that neither of
the two finds as a path parameter in the URL, and an API key for the query. -/
structure QueryRequest (pathname : Text → Option Text) (tables : UnicodeTables) where
  request : HttpRequest
  auth : ApiKeyAuth
  auth_eq : request.auth = .apiKey auth
  in_query : auth.location = .query
  enabled : auth.enabled = true
  no_opening : ¬ openBraces <:+: request.url.toList
  parameters : ∀ p ∈ request.parameters, p.enabled = true ∧
    trim p.name.toList ≠ [] ∧ strTrim p.name.toList ≠ [] ∧
    p.name.toList ∉ extractPathParams pathname request.url.toList ∧
    p.name.toList ∉ Resolve.extractPathParams tables request.url.toList

/-- What the resolver of the web app gives for the parameter values and for the key. -/
structure QueryTexts (ctx : ResolveCtx) (parameters : List RequestParameter)
    (auth : ApiKeyAuth) where
  values : List Text
  key : Text
  keyValue : Text
  resolved_values :
    parameters.zipIdx.mapM (fun p => resolve ctx [p.2, 2] p.1.value.toList) = .ok values
  resolved_key : resolve ctx [0, 6] auth.key.toList = .ok key
  resolved_keyValue : resolve ctx [1, 6] auth.value.toList = .ok keyValue

def webPair (p : RequestParameter) (value : Text) : QueryPair := (utf8 p.name.toList, utf8 value)

namespace QueryTexts
variable {ctx : ResolveCtx} {parameters : List RequestParameter} {auth : ApiKeyAuth}

/-- A blank key stands for no auth. -/
def keyPairs (texts : QueryTexts ctx parameters auth) : List QueryPair :=
  if trim texts.key = [] then [] else [(utf8 texts.key, utf8 texts.keyValue)]

def pairs (texts : QueryTexts ctx parameters auth) : List QueryPair :=
  List.zipWith webPair parameters texts.values ++ texts.keyPairs

/-- The values that are put into the query. -/
def sentValues (texts : QueryTexts ctx parameters auth) : List Text :=
  texts.values ++ if trim texts.key = [] then [] else [texts.keyValue]

end QueryTexts

section Rust
variable (tables : UnicodeTables) (vars : OrderedMap Text Text)

def rustPair (p : RequestParameter) : QueryPair :=
  (utf8 (resolveStr tables p.name.toList vars), utf8 (resolveStr tables p.value.toList vars))

def rustKeyPairs (auth : ApiKeyAuth) : List QueryPair :=
  let key := resolveStr tables auth.key.toList vars
  if strTrim key = [] then [] else [(utf8 key, utf8 (resolveStr tables auth.value.toList vars))]

end Rust

variable {pathname : Text → Option Text} {tables : UnicodeTables}

/-- The URL of the web app has the pairs of the stored URL, of the parameters and of the key. -/
def WebKeepsQuery (r : QueryRequest pathname tables) {ctx : ResolveCtx}
    (texts : QueryTexts ctx r.request.parameters r.auth) : Prop :=
  ∃ url, sentUrl pathname ctx r.request r.request.auth = .ok url ∧
    parseQuery (queryComponent url) =
      parseQuery (queryComponent r.request.url.toList) ++ texts.pairs

/-- So has the URL of the Rust resolver. -/
def RustKeepsQuery (r : QueryRequest pathname tables) (vars : OrderedMap Text Text) : Prop :=
  parseQuery (queryComponent (applyToRequest tables vars r.request).url.toList) =
    parseQuery (queryComponent r.request.url.toList) ++
      (r.request.parameters.map (rustPair tables vars) ++ rustKeyPairs tables vars r.auth)

/-! ## When the pairs are kept -/

/-- Nothing is sent, or there is no fragment, not both an embedded query and parameters, and
nothing but quiet templates is left in a value. -/
def WebFits (r : QueryRequest pathname tables) {ctx : ResolveCtx}
    (texts : QueryTexts ctx r.request.parameters r.auth) : Prop :=
  (r.request.parameters = [] ∧ trim texts.key = []) ∨
    ('#' ∉ r.request.url.toList ∧
      ('?' ∉ r.request.url.toList ∨ r.request.parameters = []) ∧
      ∀ v ∈ texts.sentValues, ∀ m ∈ queryTemplates v, QuietTemplate m)

/-- The stored URL has no pairs of its own, no name and value both resolve to nothing, and nothing
is put behind a fragment. -/
def RustFits (r : QueryRequest pathname tables) (vars : OrderedMap Text Text) : Prop :=
  parseQuery (queryComponent r.request.url.toList) = [] ∧
    (∀ p ∈ r.request.parameters, resolveStr tables p.name.toList vars = [] →
      resolveStr tables p.value.toList vars ≠ []) ∧
    ('#' ∉ r.request.url.toList ∨ '?' ∈ r.request.url.toList.takeWhile (· ≠ '#') ∨
      (r.request.parameters = [] ∧ strTrim (resolveStr tables r.auth.key.toList vars) = []))

/-! ## The URL of the web app -/

/-- The parts of the URL for the parameters are pieces of the resolved values. -/
theorem exists_paramPieces {ctx : ResolveCtx} {parameters : List RequestParameter} (i : ℕ)
    (hnames : ∀ p ∈ parameters, p.name.toList ≠ []) {values : List Text}
    (h : (parameters.zipIdx i).mapM (fun p => resolve ctx [p.2, 2] p.1.value.toList) = .ok values) :
    ∃ pieces : List QueryPiece, pieces.length = parameters.length ∧
      (parameters.zipIdx i).mapM (fun p => queryPart ctx [p.2, 2] p.1) = .ok (pieces.map (·.text)) ∧
      pieces.map (·.pair) = List.zipWith webPair parameters values ∧
      pieces.map (·.value) = values := by
  induction parameters generalizing i values with
  | nil =>
    rw [List.zipIdx_nil, List.mapM_nil] at h
    cases h
    exact ⟨[], rfl, rfl, rfl, rfl⟩
  | cons p parameters ih =>
    rw [List.zipIdx_cons, List.mapM_cons] at h
    obtain ⟨value, hvalue, h⟩ := ok_of_bind h
    obtain ⟨rest, hrest, h⟩ := ok_of_bind h
    cases h
    obtain ⟨pieces, hlength, htexts, hpairs, hvalues⟩ :=
      ih (i + 1) (fun q hq => hnames q (List.mem_cons_of_mem _ hq)) hrest
    refine ⟨paramPiece p.name.toList value (hnames p List.mem_cons_self) :: pieces, ?_, ?_, ?_, ?_⟩
    · rw [List.length_cons, List.length_cons, hlength]
    · have hpart : queryPart ctx [i, 2] p =
          .ok (paramPiece p.name.toList value (hnames p List.mem_cons_self)).text := by
        rw [queryPart, hvalue]
        rfl
      rw [List.zipIdx_cons, List.mapM_cons, hpart, htexts]
      rfl
    · rw [List.map_cons, hpairs]
      rfl
    · rw [List.map_cons, hvalues]
      rfl

theorem storedUrl_query (r : QueryRequest pathname tables) {ctx : ResolveCtx}
    {parts : List Text} (h : r.request.parameters.zipIdx.mapM
      (fun p => queryPart ctx [p.2, 2] p.1) = .ok parts) :
    storedUrl pathname ctx r.request = .ok (r.request.url.toList ++
      if parts.isEmpty then [] else '?' :: List.intercalate ['&'] parts) := by
  have hnone : (r.request.parameters.filter fun p =>
      (extractPathParams pathname r.request.url.toList).contains p.name.toList) = [] := by
    rw [List.filter_eq_nil_iff]
    intro p hp
    simpa using (r.parameters p hp).2.2.2.1
  have hquery : ((queryParamsOnly pathname r.request.parameters r.request.url.toList).filter
      fun p => p.enabled && !(trim p.name.toList).isEmpty) = r.request.parameters := by
    rw [queryParamsOnly, List.filter_filter, List.filter_eq_self]
    intro p hp
    obtain ⟨henabled, hblank, -, hpath, -⟩ := r.parameters p hp
    simp [henabled, hblank, hpath]
  have hbase : resolve ctx [1] r.request.url.toList = .ok r.request.url.toList :=
    resolveTemplateImpl_plain r.no_opening
  have hpath : substitutePathParams ctx (storedPathParams pathname r.request)
      r.request.url.toList = .ok r.request.url.toList := by
    rw [storedPathParams, hnone]
    rfl
  rw [storedUrl, resolveUrl, hpath, ok_bind, hbase, ok_bind, hquery]
  dsimp only
  rw [h]
  rfl

/-- What the key adds. -/
def QueryTexts.piece {ctx : ResolveCtx} {parameters : List RequestParameter} {auth : ApiKeyAuth}
    (texts : QueryTexts ctx parameters auth) : Option QueryPiece :=
  if trim texts.key = [] then none else some (keyPiece texts.key texts.keyValue)

theorem applyAuth_query (r : QueryRequest pathname tables) {ctx : ResolveCtx}
    (texts : QueryTexts ctx r.request.parameters r.auth) :
    ∃ applied, applyAuth ctx r.request.auth = .ok applied ∧
      applied.query = texts.piece.map (·.text) := by
  rw [r.auth_eq, applyAuth, texts.resolved_key, ok_bind, texts.resolved_keyValue, ok_bind,
    r.in_query, QueryTexts.piece]
  by_cases hkey : trim texts.key = []
  · rw [hkey]
    exact ⟨_, rfl, rfl⟩
  · rw [if_neg (by simpa using hkey), if_neg hkey]
    exact ⟨_, rfl, rfl⟩

theorem webKeepsQuery_iff (r : QueryRequest pathname tables) {ctx : ResolveCtx}
    (texts : QueryTexts ctx r.request.parameters r.auth) :
    WebKeepsQuery r texts ↔ WebFits r texts := by
  have hnames : ∀ p ∈ r.request.parameters, p.name.toList ≠ [] := by
    intro p hp hname
    exact (r.parameters p hp).2.1 (by rw [hname]; rfl)
  obtain ⟨ps, hlength, htexts, hpairs, hvalues⟩ :=
    exists_paramPieces 0 hnames texts.resolved_values
  obtain ⟨applied, happlied, hquery⟩ := applyAuth_query r texts
  have hsent : sentUrl pathname ctx r.request r.request.auth =
      .ok (withPieces r.request.url.toList ps texts.piece) := by
    rw [sentUrl, storedUrl_query r htexts, ok_bind, happlied, ok_bind, hquery]
    rfl
  have hall : texts.pairs = (ps ++ texts.piece.toList).map (·.pair) ∧
      texts.sentValues = (ps ++ texts.piece.toList).map (·.value) := by
    rw [QueryTexts.pairs, QueryTexts.sentValues, QueryTexts.keyPairs, QueryTexts.piece, ← hpairs,
      ← hvalues]
    split_ifs <;> simp [keyPiece, QueryPiece.pair]
  have hempty : (r.request.parameters = [] ∧ trim texts.key = []) ↔
      ps = [] ∧ texts.piece = none := by
    rw [← List.length_eq_zero_iff, ← hlength, List.length_eq_zero_iff, QueryTexts.piece]
    split_ifs with hkey <;> simp [hkey]
  have hparams : r.request.parameters = [] ↔ ps = [] := by
    rw [← List.length_eq_zero_iff, ← hlength, List.length_eq_zero_iff]
  rw [WebFits, hempty, hparams, hall.2, List.forall_mem_map]
  refine Iff.trans ?_ (parseQuery_withPieces_iff r.request.url.toList ps texts.piece)
  rw [WebKeepsQuery, hall.1]
  constructor
  · rintro ⟨url, hurl, heq⟩
    cases hsent.symm.trans hurl
    exact heq
  · exact fun heq => ⟨_, hsent, heq⟩

/-! ## The URL of the Rust resolver -/

section Rust
variable (vars : OrderedMap Text Text)

theorem isRustPart_queryPart (p : RequestParameter) :
    IsRustPart (Resolve.queryPart tables vars p) (rustPair tables vars p) := by
  rw [Resolve.queryPart, rustPair]
  split_ifs with hvalue
  · rw [hvalue]
    exact .name _
  · exact .value _ _

/-- What the Rust resolver adds for the key. -/
def rustKeyParts (tables : UnicodeTables) (auth : ApiKeyAuth) : List Text :=
  let key := resolveStr tables auth.key.toList vars
  if strTrim key = [] then []
  else [urlEncode key ++ '=' :: urlEncode (resolveStr tables auth.value.toList vars)]

theorem isRustPart_key (auth : ApiKeyAuth) :
    List.Forall₂ IsRustPart (rustKeyParts vars tables auth) (rustKeyPairs tables vars auth) := by
  rw [rustKeyParts, rustKeyPairs]
  split_ifs
  · exact .nil
  · exact .cons (.value _ _) .nil

theorem applyToRequest_url (r : QueryRequest pathname tables) :
    (applyToRequest tables vars r.request).url.toList =
      Resolve.withQuery (stripQuery r.request.url.toList)
        (r.request.parameters.map (Resolve.queryPart tables vars) ++
          rustKeyParts vars tables r.auth) := by
  have hnone : (r.request.parameters.filter fun p => p.enabled &&
      (Resolve.extractPathParams tables r.request.url.toList).contains p.name.toList) = [] := by
    rw [List.filter_eq_nil_iff]
    intro p hp
    simp [(r.parameters p hp).2.2.2.2]
  have hall : (r.request.parameters.filter fun p => p.enabled && !(strTrim p.name.toList).isEmpty &&
      !(Resolve.extractPathParams tables r.request.url.toList).contains p.name.toList) =
        r.request.parameters := by
    rw [List.filter_eq_self]
    intro p hp
    obtain ⟨henabled, -, hblank, -, hpath⟩ := r.parameters p hp
    simp [henabled, hblank, hpath]
  have hopening : ¬ Resolve.opening <:+: stripQuery r.request.url.toList := fun h =>
    r.no_opening (h.trans (List.takeWhile_prefix _).isInfix)
  have hurl : Resolve.resolveUrlAndQuery tables vars r.request.url.toList r.request.parameters =
      (stripQuery r.request.url.toList,
        r.request.parameters.map (Resolve.queryPart tables vars)) := by
    rw [Resolve.resolveUrlAndQuery, hnone, hall, List.foldl_nil, Resolve.resolveStr_plain _ _
      hopening]
  have hkey : (Resolve.applyAuth tables vars r.request.auth).queryParts =
      rustKeyParts vars tables r.auth := by
    have hactive : (AuthConfig.apiKey r.auth).isActive = true := r.enabled
    have happlied : Resolve.applyAuth tables vars (.apiKey r.auth) =
        Resolve.applyStaticAuth tables vars (.apiKey r.auth) := by
      unfold Resolve.applyAuth
      rw [hactive]
      rfl
    rw [r.auth_eq, rustKeyParts, happlied]
    rw [Resolve.applyStaticAuth, r.in_query]
    split_ifs <;> rfl
  rw [applyToRequest, hurl, hkey]
  exact String.toList_ofList

theorem rustKeepsQuery_iff (r : QueryRequest pathname tables) :
    RustKeepsQuery r vars ↔ RustFits r vars := by
  have hparts : List.Forall₂ IsRustPart (r.request.parameters.map (Resolve.queryPart tables vars) ++
      rustKeyParts vars tables r.auth)
      (r.request.parameters.map (rustPair tables vars) ++ rustKeyPairs tables vars r.auth) := by
    refine List.rel_append ?_ (isRustPart_key vars r.auth)
    rw [List.forall₂_map_left_iff, List.forall₂_map_right_iff, List.forall₂_same]
    exact fun p _ => isRustPart_queryPart vars p
  have hkey : [] ∉ rustKeyParts vars tables r.auth := by
    rw [rustKeyParts]
    split_ifs <;> simp
  have hpart : ∀ p, Resolve.queryPart tables vars p = [] ↔
      resolveStr tables p.name.toList vars = [] ∧ resolveStr tables p.value.toList vars = [] := by
    intro p
    rw [Resolve.queryPart]
    split_ifs with hvalue
    · refine ⟨fun h => ⟨?_, hvalue⟩, fun h => by rw [h.1]; rfl⟩
      by_contra hne
      exact percentEncode_ne_nil hne h
    · simp [hvalue]
  have hnone : (r.request.parameters.map (Resolve.queryPart tables vars) ++
      rustKeyParts vars tables r.auth = []) ↔ r.request.parameters = [] ∧
        strTrim (resolveStr tables r.auth.key.toList vars) = [] := by
    rw [List.append_eq_nil_iff, List.map_eq_nil_iff, rustKeyParts]
    split_ifs with h <;> simp [h]
  rw [RustKeepsQuery, applyToRequest_url, parseQuery_withQuery_iff _ hparts, RustFits, hnone,
    List.mem_append, or_iff_left hkey]
  simp only [List.mem_map, hpart, not_exists, not_and, ne_eq]

end Rust

/-! ## Both URLs -/

/-- Neither loses a pair, nor adds one, exactly when both fit. -/
theorem query_kept_iff (r : QueryRequest pathname tables) {ctx : ResolveCtx}
    (texts : QueryTexts ctx r.request.parameters r.auth) (vars : OrderedMap Text Text) :
    (WebKeepsQuery r texts ∧ RustKeepsQuery r vars) ↔ (WebFits r texts ∧ RustFits r vars) :=
  and_congr (webKeepsQuery_iff r texts) (rustKeepsQuery_iff vars r)

/-! ## A fragment -/

def plainKey : ApiKeyAuth where
  key := "key"
  value := "k"
  location := .query
  valueEncrypted := false
  enabled := true

/-- One parameter and a key, and a URL with a fragment. -/
def fragmentRequest : QueryRequest (fun _ => some "/p".toList) .asciiOnly where
  request := { HttpRequest.blank with
    url := "https://h/p#top"
    parameters := [⟨"p1", "q", "1", true⟩]
    auth := .apiKey plainKey }
  auth := plainKey
  auth_eq := rfl
  in_query := rfl
  enabled := rfl
  no_opening := by decide
  parameters := by decide

def fragmentTexts : QueryTexts ⟨[], []⟩ fragmentRequest.request.parameters plainKey where
  values := [['1']]
  key := "key".toList
  keyValue := ['k']
  resolved_values := by
    show [(_, 0)].mapM _ = _
    rw [List.mapM_cons, resolve, resolveTemplateImpl_plain (by decide)]
    rfl
  resolved_key := resolveTemplateImpl_plain (by decide)
  resolved_keyValue := resolveTemplateImpl_plain (by decide)

/-- The parameter and the key of the web app land behind the fragment. -/
theorem fragment_loses_query : ¬ ∀ (pathname : Text → Option Text) (tables : UnicodeTables)
    (r : QueryRequest pathname tables) (ctx : ResolveCtx)
    (texts : QueryTexts ctx r.request.parameters r.auth) (vars : OrderedMap Text Text),
    WebKeepsQuery r texts ∧ RustKeepsQuery r vars := by
  intro h
  have hweb := (h _ _ fragmentRequest _ fragmentTexts .empty).1
  rcases (webKeepsQuery_iff _ _).mp hweb with ⟨hnil, -⟩ | ⟨hsharp, -⟩
  · cases hnil
  · exact hsharp (by decide)

end Voleeo.Send
