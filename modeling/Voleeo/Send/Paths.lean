import Voleeo.Resolve.Http
import Voleeo.Send.Runs

/-!
# Sent paths as runs

For values of unreserved characters both resolvers send the URL that their run of
substitutions gives: the values and the substituted URL hold no template, and the
query starts behind the first question mark.
-/
namespace Voleeo.Send
open OrderedMap Template
open Resolve (UnicodeTables isBoundary replacePathParam stripQuery applyToRequest)

/-! ## Openings -/

/-- No two opening braces in a row. -/
def NoOpening (s : Text) : Prop := s.IsChain fun a b => ¬ (a = '{' ∧ b = '{')

theorem noOpening_iff {s : Text} : NoOpening s ↔ ¬ ['{', '{'] <:+: s := by
  induction s with
  | nil => simp [NoOpening]
  | cons c rest ih =>
    rw [NoOpening, List.isChain_cons, List.infix_cons_iff, not_or, ← ih]
    refine and_congr ?_ Iff.rfl
    cases rest with
    | nil => simp
    | cons d rest =>
      simp only [List.head?_cons, Option.mem_def, Option.some.injEq, forall_eq',
        List.cons_prefix_cons, List.nil_prefix, and_true, eq_comm]

/-- A substitution makes no opening, unless an empty value joins two braces. -/
theorem NoOpening.subst {before after value name : Text}
    (h : NoOpening (before ++ ':' :: (name ++ after))) (hvalue : '{' ∉ value)
    (hjoin : value ≠ [] ∨ after.head? ≠ some '{') : NoOpening (before ++ value ++ after) := by
  unfold NoOpening at h ⊢
  rw [← List.cons_append, List.isChain_append, List.isChain_append] at h
  obtain ⟨hbefore, ⟨-, hafter, -⟩, -⟩ := h
  have hself : value.IsChain fun a b => ¬ (a = '{' ∧ b = '{') := by
    apply List.Pairwise.isChain
    apply List.pairwise_of_forall_mem_list
    rintro a ha b - ⟨rfl, -⟩
    exact hvalue ha
  refine List.isChain_append.mpr ⟨List.isChain_append.mpr ⟨hbefore, hself, ?_⟩, hafter, ?_⟩
  · rintro a - b hb ⟨-, rfl⟩
    exact hvalue (List.mem_of_mem_head? hb)
  · rintro a ha b hb ⟨rfl, rfl⟩
    rcases hjoin with hne | hhead
    · rw [List.getLast?_append_of_ne_nil _ hne] at ha
      exact hvalue (List.mem_of_mem_getLast? ha)
    · exact hhead hb

theorem no_opening_of_unreserved {value : Text} (h : ∀ c ∈ value, isUnreserved c = true) :
    '{' ∉ value ∧ '?' ∉ value ∧ ':' ∉ value := by
  refine ⟨?_, ?_, ?_⟩ <;>
    · intro hmem
      exact absurd (h _ hmem) (by decide)

theorem infix_of_unreserved {value : Text} (h : ∀ c ∈ value, isUnreserved c = true) :
    ¬ ['{', '{'] <:+: value := by
  intro hinfix
  exact (no_opening_of_unreserved h).1 (List.IsInfix.subset hinfix List.mem_cons_self)

/-! ## The web app -/

variable {pathname : Text → Option Text} {ctx : ResolveCtx}

theorem isNameStart_of_mem {text name : Text} (h : name ∈ paramMatches text) :
    name.head?.any isNameStart = true ∧ ∀ c ∈ name, isWordChar c = true := by
  induction text with
  | nil => cases h
  | cons c rest ih =>
    rw [paramMatches] at h
    split_ifs at h with hmatch
    · rcases List.mem_cons.mp h with rfl | h
      · exact ⟨hmatch.2, fun d hd => List.mem_takeWhile_imp hd⟩
      · exact ih h
    · exact ih h

/-- The web app's names are ASCII identifiers. -/
theorem name_of_mem {url name : Text} (h : name ∈ extractPathParams pathname url) :
    name.head?.any isNameStart = true ∧ ∀ c ∈ name, isWordChar c = true := by
  unfold extractPathParams at h
  split at h
  · exact isNameStart_of_mem h
  · exact isNameStart_of_mem h

theorem not_digit_of_nameStart {c : Char} (h : isNameStart c = true) : c.isDigit = false := by
  simp only [isNameStart, Bool.or_eq_true, beq_iff_eq] at h
  rcases h with h | rfl
  · by_contra hdigit
    simp only [Bool.not_eq_false, Char.isDigit, Char.isAlpha, Char.isUpper, Char.isLower,
      Bool.or_eq_true, Bool.and_eq_true, decide_eq_true_eq, UInt32.le_iff_toNat_le,
      ge_iff_le] at h hdigit
    simp at h hdigit
    omega
  · decide

theorem not_arrayIndex {name : Text} (h : name.head?.any isNameStart = true) :
    isArrayIndex name = false := by
  cases name with
  | nil => rfl
  | cons c cs =>
    have hc : c.isDigit = false := not_digit_of_nameStart h
    simp [isArrayIndex, hc]

/-- The path parameters that the web app substitutes. -/
def webParams (pathname : Text → Option Text) (request : HttpRequest) : List RequestParameter :=
  request.parameters.filter fun p =>
    (extractPathParams pathname request.url.toList).contains p.name.toList &&
      decide (p.name.toList ≠ protoKey)

def webSteps (pathname : Text → Option Text) (request : HttpRequest) : List (Text × Text) :=
  (webParams pathname request).map fun p =>
    (p.name.toList, if p.enabled then p.value.toList else [])

/-- What the claims about paths ask of a stored request. -/
structure PlainRequest (request : HttpRequest) : Prop where
  no_opening : ¬ ['{', '{'] <:+: request.url.toList
  no_query : '?' ∉ request.url.toList
  no_fragment : '#' ∉ request.url.toList
  distinct : (request.parameters.map fun p => p.name.toList).Nodup
  unreserved : ∀ p ∈ request.parameters, ∀ c ∈ p.value.toList, isUnreserved c = true

theorem mem_webParams {request : HttpRequest} {p : RequestParameter} :
    p ∈ webParams pathname request ↔ p ∈ request.parameters ∧
      p.name.toList ∈ extractPathParams pathname request.url.toList ∧ p.name.toList ≠ protoKey := by
  simp [webParams]

theorem foldl_set_values (rows : List RequestParameter) (params : PathParams) :
    (rows.foldl PathParams.set params).values =
      rows.foldl (fun r p => r.set p.name.toList p.value.toList) params.values := by
  induction rows generalizing params with
  | nil => rfl
  | cons p rows ih => exact ih _

theorem get?_enabled {rows : List RequestParameter} {params : PathParams} {p : RequestParameter}
    (hp : p ∈ rows) (hproto : p.name.toList ≠ protoKey)
    (hnodup : (rows.map fun p => p.name.toList).Nodup) :
    (rows.foldl PathParams.set params).enabled.get? p.name.toList = some p.enabled := by
  induction rows using List.reverseRecOn with
  | nil => cases hp
  | append_singleton rows q ih =>
    rw [List.foldl_append, List.foldl_cons, List.foldl_nil]
    rw [List.map_append, List.nodup_append] at hnodup
    rcases List.mem_append.mp hp with hp | hp
    · have hne : p.name.toList ≠ q.name.toList :=
        fun heq => hnodup.2.2 _ (List.mem_map.mpr ⟨p, hp, rfl⟩) _ (by simp) heq
      simp only [PathParams.set]
      split_ifs
      · exact ih hp hnodup.1
      · rw [get?_set, if_neg hne, ih hp hnodup.1]
    · obtain rfl := List.mem_singleton.mp hp
      simp [PathParams.set, hproto]

/-- The record of the stored path parameters, and their flags. -/
theorem storedPathParams_spec {request : HttpRequest} (h : PlainRequest request) :
    (storedPathParams pathname request).values.entries =
        (webParams pathname request).map (fun p => (p.name.toList, p.value.toList)) ∧
      ∀ p ∈ webParams pathname request,
        (storedPathParams pathname request).enabled.get? p.name.toList = some p.enabled := by
  have hnodup : ((request.parameters.filter fun p =>
      (extractPathParams pathname request.url.toList).contains p.name.toList).map
        fun p => p.name.toList).Nodup := h.distinct.sublist (List.filter_sublist.map _)
  constructor
  · rw [storedPathParams, foldl_set_values, webParams]
    have hentries := @JsRecord.entries_ofEntries ((request.parameters.filter fun p =>
      (extractPathParams pathname request.url.toList).contains p.name.toList).map
        fun p => (p.name.toList, p.value.toList)) ?_ ?_
    · rw [JsRecord.ofEntries, List.foldl_map] at hentries
      rw [PathParams.empty, hentries, List.filter_map, List.filter_filter]
      congr 1
      apply List.filter_congr
      intro p _
      simp [Bool.and_comm]
    · intro e he
      obtain ⟨p, hp, rfl⟩ := List.mem_map.mp he
      have hmem := (List.mem_filter.mp hp).2
      exact not_arrayIndex (name_of_mem (List.contains_iff_mem.mp hmem)).1
    · rw [List.map_map]
      exact hnodup
  · intro p hp
    obtain ⟨hmem, hname, hproto⟩ := mem_webParams.mp hp
    apply get?_enabled _ hproto hnodup
    exact List.mem_filter.mpr ⟨hmem, List.contains_iff_mem.mpr hname⟩

theorem resolve_plain {site : RenderSite} {value : Text} (h : ¬ ['{', '{'] <:+: value) :
    resolve ctx site value = .ok value :=
  resolveTemplateImpl_plain h

theorem substitutePathParams_eq {request : HttpRequest} (h : PlainRequest request) :
    substitutePathParams ctx (storedPathParams pathname request) request.url.toList =
      .ok (webRun (webSteps pathname request) request.url.toList) := by
  obtain ⟨hentries, henabled⟩ := @storedPathParams_spec pathname request h
  -- The value that a parameter is replaced by.
  have hvalue : ∀ p ∈ webParams pathname request, ∀ site,
      pathParamValue ctx (storedPathParams pathname request) site p.name.toList p.value.toList =
        .ok (if p.enabled then p.value.toList else []) := by
    intro p hp site
    have hplain := infix_of_unreserved (h.unreserved p (mem_webParams.mp hp).1)
    rw [pathParamValue, henabled p hp, resolve_plain hplain]
    by_cases hempty : p.value.toList = [] <;> cases p.enabled <;> simp [hempty]
  have hencode : ∀ p ∈ webParams pathname request,
      encodeURIComponent (if p.enabled then p.value.toList else []) =
        if p.enabled then p.value.toList else [] := by
    intro p hp
    apply encodeURIComponent_of_unreserved
    split_ifs
    · exact h.unreserved p (mem_webParams.mp hp).1
    · simp
  rw [substitutePathParams, hentries, webRun, webSteps, List.zipIdx_map, List.foldlM_map,
    foldlM_of (g := fun url e => replaceFirstParam e.1.name.toList
      (if e.1.enabled then e.1.value.toList else []) url)]
  · rw [List.foldl_map]
    conv_rhs => rw [← List.zipIdx_map_fst 0 (webParams pathname request), List.foldl_map]
  · rintro ⟨p, i⟩ hp url
    have hmem : p ∈ webParams pathname request := by
      rw [← List.zipIdx_map_fst 0 (webParams pathname request)]
      exact List.mem_map.mpr ⟨(p, i), hp, rfl⟩
    show (do
      let v ← pathParamValue ctx _ [i, 0] p.name.toList p.value.toList
      return replaceFirstParam p.name.toList (encodeURIComponent v) url) = _
    rw [hvalue p hmem]
    show Except.ok (replaceFirstParam _ (encodeURIComponent _) url) = _
    rw [hencode p hmem]

theorem mem_webRun {steps : List (Text × Text)} {s : Text} {c : Char} (h : c ∈ webRun steps s) :
    c ∈ s ∨ ∃ e ∈ steps, c ∈ e.2 := by
  induction steps generalizing s with
  | nil => exact Or.inl h
  | cons e steps ih =>
    rw [webRun_cons] at h
    rcases ih h with h | ⟨a, ha, hc⟩
    · rcases replaceFirstParam_cases e.1 e.2 s with heq | ⟨before, after, hs, -, heq⟩
      · rw [heq] at h
        exact Or.inl h
      · rw [heq] at h
        rw [hs]
        simp only [List.mem_append] at h
        rcases h with (h | h) | h
        · exact Or.inl (by simp [h])
        · exact Or.inr ⟨e, List.mem_cons_self, h⟩
        · exact Or.inl (by simp [h])
    · exact Or.inr ⟨a, List.mem_cons_of_mem _ ha, hc⟩

theorem head?_of_segmentEnd {s : Text} (h : isSegmentEnd s = true) : s.head? ≠ some '{' := by
  cases s with
  | nil => simp
  | cons c s =>
    rintro heq
    obtain rfl : c = '{' := Option.some.inj heq
    cases h

theorem noOpening_webRun {steps : List (Text × Text)} {s : Text} (h : NoOpening s)
    (hvalues : ∀ e ∈ steps, '{' ∉ e.2) : NoOpening (webRun steps s) := by
  induction steps generalizing s with
  | nil => exact h
  | cons e steps ih =>
    rw [webRun_cons]
    apply ih _ fun a ha => hvalues a (List.mem_cons_of_mem _ ha)
    rcases replaceFirstParam_cases e.1 e.2 s with heq | ⟨before, after, hs, hend, heq⟩
    · rw [heq]
      exact h
    · rw [heq]
      rw [hs] at h
      exact h.subst (hvalues e List.mem_cons_self) (Or.inr (head?_of_segmentEnd hend))

theorem stripQuery_append {base suffix : Text} (hbase : '?' ∉ base)
    (hsuffix : suffix = [] ∨ suffix.head? = some '?') : stripQuery (base ++ suffix) = base := by
  have hkeep : ∀ c ∈ base, decide (c ≠ '?') = true := by
    intro c hc
    simpa using fun heq : c = '?' => hbase (heq ▸ hc)
  rw [stripQuery, List.takeWhile_append_of_pos hkeep]
  rcases hsuffix with rfl | hhead
  · simp
  · cases suffix with
    | nil => simp
    | cons c suffix =>
      obtain rfl : c = '?' := Option.some.inj hhead
      simp

theorem webSteps_plain {request : HttpRequest} (h : PlainRequest request) :
    ∀ e ∈ webSteps pathname request, '{' ∉ e.2 ∧ '?' ∉ e.2 := by
  intro e he
  obtain ⟨p, hp, rfl⟩ := List.mem_map.mp he
  have hplain := no_opening_of_unreserved (h.unreserved p (mem_webParams.mp hp).1)
  simp only
  split_ifs
  · exact ⟨hplain.1, hplain.2.1⟩
  · simp

/-- The web app sends a plain request, to the path of its run. -/
theorem storedUrl_path {request : HttpRequest} (h : PlainRequest request) :
    ∃ sent, storedUrl pathname ctx request = .ok sent ∧
      stripQuery sent = webRun (webSteps pathname request) request.url.toList := by
  have hvalues := @webSteps_plain pathname request h
  have hbase : ¬ ['{', '{'] <:+: webRun (webSteps pathname request) request.url.toList :=
    noOpening_iff.mp (noOpening_webRun (noOpening_iff.mpr h.no_opening)
      fun e he => (hvalues e he).1)
  have hquery : '?' ∉ webRun (webSteps pathname request) request.url.toList := by
    intro hmem
    rcases mem_webRun hmem with hmem | ⟨e, he, hmem⟩
    · exact h.no_query hmem
    · exact (hvalues e he).2 hmem
  obtain ⟨parts, hparts⟩ : ∃ parts,
      (((queryParamsOnly pathname request.parameters request.url.toList).filter fun p =>
        p.enabled && !(trim p.name.toList).isEmpty).zipIdx.mapM
          fun p => queryPart ctx [p.2, 2] p.1) = .ok parts := by
    refine ⟨_, Parts.mapM_of (g := fun p =>
      let k := encodeURIComponent p.1.name.toList
      if p.1.value.toList = [] then k else k ++ '=' :: encodeQueryValue p.1.value.toList) ?_⟩
    rintro ⟨p, i⟩ hp
    have hmem : p ∈ request.parameters := by
      have hfilter : p ∈ (queryParamsOnly pathname request.parameters
          request.url.toList).filter fun p => p.enabled && !(trim p.name.toList).isEmpty := by
        rw [← List.zipIdx_map_fst 0 (List.filter _ _)]
        exact List.mem_map.mpr ⟨(p, i), hp, rfl⟩
      exact List.mem_of_mem_filter (List.mem_of_mem_filter hfilter)
    rw [queryPart, resolve_plain (infix_of_unreserved (h.unreserved p hmem))]
    rfl
  refine ⟨webRun (webSteps pathname request) request.url.toList ++
    if parts.isEmpty then [] else '?' :: List.intercalate ['&'] parts, ?_, ?_⟩
  · rw [storedUrl, resolveUrl, substitutePathParams_eq h, ok_bind, resolve_plain hbase, ok_bind]
    simp only
    rw [hparts]
    rfl
  · apply stripQuery_append hquery
    split_ifs <;> simp

/-! ## The Rust resolver -/

variable {tables : UnicodeTables} {vars : OrderedMap Text Text}

/-- The path parameters that the Rust resolver substitutes. -/
def rustParams (tables : UnicodeTables) (request : HttpRequest) : List RequestParameter :=
  request.parameters.filter fun p => p.enabled &&
    (Resolve.extractPathParams tables request.url.toList).contains p.name.toList

def rustSteps (tables : UnicodeTables) (request : HttpRequest) : List (Text × Text) :=
  (rustParams tables request).map fun p => (p.name.toList, p.value.toList)

theorem mem_rustParams {request : HttpRequest} {p : RequestParameter} :
    p ∈ rustParams tables request ↔ p ∈ request.parameters ∧ p.enabled = true ∧
      p.name.toList ∈ Resolve.extractPathParams tables request.url.toList := by
  simp [rustParams]

theorem stripQuery_plain {s : Text} (h : '?' ∉ s) : stripQuery s = s := by
  have hstrip := stripQuery_append h (Or.inl rfl)
  rwa [List.append_nil] at hstrip

/-- The Rust resolver's names are identifiers with a place in the URL. -/
theorem mem_namesBehindColons {name text : Text} :
    name ∈ Resolve.namesBehindColons tables text ↔
      Resolve.isIdentifier tables name = true ∧ 0 < countPlaces tables name text := by
  induction text with
  | nil => simp [Resolve.namesBehindColons, countPlaces]
  | cons c rest ih =>
    rw [Resolve.namesBehindColons, countPlaces]
    by_cases hmatch : c = ':' ∧ Resolve.isIdentifier tables (rest.takeWhile tables.isWord) = true
    · rw [if_pos hmatch, List.mem_cons, ih]
      by_cases hname : rest.takeWhile tables.isWord = name
      · simp [hname.symm, hmatch.1, hmatch.2]
      · simp [hname, Ne.symm hname]
    · rw [if_neg hmatch, ih]
      constructor
      · rintro ⟨hid, hpos⟩
        exact ⟨hid, by omega⟩
      · rintro ⟨hid, hpos⟩
        refine ⟨hid, ?_⟩
        split_ifs at hpos with hplace
        · exact absurd ⟨hplace.1, by rw [hplace.2]; exact hid⟩ hmatch
        · omega

theorem isWord_of_identifier {name : Text} (h : Resolve.isIdentifier tables name = true) :
    IsWord tables name := by
  cases name with
  | nil => cases h
  | cons c cs =>
    simp only [Resolve.isIdentifier, Bool.and_eq_true, List.all_eq_true] at h
    intro d hd
    rcases List.mem_cons.mp hd with rfl | hd
    · have hd' := h.1
      simp only [Bool.or_eq_true] at hd'
      rcases hd' with hd' | hd'
      · simp [UnicodeTables.isWord, hd']
      · simp [UnicodeTables.isWord, hd']
    · exact h.2 d hd

theorem rustSteps_words {request : HttpRequest} :
    ∀ e ∈ rustSteps tables request, IsWord tables e.1 := by
  intro e he
  obtain ⟨p, hp, rfl⟩ := List.mem_map.mp he
  exact isWord_of_identifier (mem_namesBehindColons.mp (mem_rustParams.mp hp).2.2).1

theorem mem_rustRun {steps : List (Text × Text)} (hwords : ∀ e ∈ steps, IsWord tables e.1)
    {s : Text} {c : Char} (h : c ∈ rustRun tables steps s) : c ∈ s ∨ ∃ e ∈ steps, c ∈ e.2 := by
  induction steps generalizing s with
  | nil => exact Or.inl h
  | cons e steps ih =>
    rw [rustRun_cons] at h
    rcases ih (fun a ha => hwords a (List.mem_cons_of_mem _ ha)) h with h | ⟨a, ha, hc⟩
    · have hreach := @replacePathParam_reach tables e.1 e.2 (hwords e List.mem_cons_self) [] s
      rw [List.nil_append, List.nil_append] at hreach
      generalize replacePathParam tables s e.1 e.2 = s' at h hreach
      clear ih
      induction hreach with
      | refl => exact Or.inl h
      | tail _ hstep ih =>
        obtain ⟨before, after, ⟨hs, -⟩, heq⟩ := hstep
        rw [heq] at h
        simp only [List.mem_append] at h
        rcases h with (h | h) | h
        · exact ih (by rw [hs]; simp [h])
        · exact Or.inr ⟨e, List.mem_cons_self, h⟩
        · exact ih (by rw [hs]; simp [h])
    · exact Or.inr ⟨a, List.mem_cons_of_mem _ ha, hc⟩

/-- The Rust resolver sends a plain request to the path of its run, if no braces were joined. -/
theorem applyToRequest_path {request : HttpRequest} (h : PlainRequest request)
    (hbase : NoOpening (rustRun tables (rustSteps tables request) request.url.toList)) :
    stripQuery (applyToRequest tables vars request).url.toList =
      rustRun tables (rustSteps tables request) request.url.toList := by
  have hquery : '?' ∉ rustRun tables (rustSteps tables request) request.url.toList := by
    intro hmem
    rcases mem_rustRun rustSteps_words hmem with hmem | ⟨e, he, hmem⟩
    · exact h.no_query hmem
    · obtain ⟨p, hp, rfl⟩ := List.mem_map.mp he
      exact (no_opening_of_unreserved (h.unreserved p (mem_rustParams.mp hp).1)).2.1 hmem
  have hfold : (rustParams tables request).foldl (fun base p =>
        replacePathParam tables base p.name.toList
          (Resolve.urlEncode (Resolve.resolveStr tables p.value.toList vars)))
        (stripQuery request.url.toList) =
      rustRun tables (rustSteps tables request) request.url.toList := by
    rw [stripQuery_plain h.no_query, rustRun, rustSteps, List.foldl_map]
    apply List.foldl_ext
    intro base p hp
    have hplain := h.unreserved p (mem_rustParams.mp hp).1
    rw [Resolve.resolveStr_plain tables vars (infix_of_unreserved hplain), Resolve.urlEncode,
      percentEncode_of_kept hplain]
  have hresolved : (Resolve.resolveUrlAndQuery tables vars request.url.toList
      request.parameters).1 = rustRun tables (rustSteps tables request) request.url.toList := by
    unfold rustParams at hfold
    rw [← hfold]
    apply Resolve.resolveStr_plain
    rw [hfold]
    exact noOpening_iff.mp hbase
  have hurl : (applyToRequest tables vars request).url = String.ofList (Resolve.withQuery
      (Resolve.resolveUrlAndQuery tables vars request.url.toList request.parameters).1
      ((Resolve.resolveUrlAndQuery tables vars request.url.toList request.parameters).2 ++
        (Resolve.applyAuth tables vars request.auth).queryParts)) := rfl
  rw [hurl, hresolved, Resolve.withQuery]
  split_ifs
  · rw [String.toList_ofList]
    exact stripQuery_plain hquery
  · rw [String.toList_ofList]
    exact stripQuery_append hquery (Or.inr rfl)

end Voleeo.Send
