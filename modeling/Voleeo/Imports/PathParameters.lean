import Voleeo.FormUrlEncoded
import Voleeo.Imports.PathDemands

/-!
# Path parameters of imported operations

The app finds path parameters behind the colons of a URL, and replaces them one after another. The
parameters of an imported operation stay path parameters exactly where its template is one that the
app can read back.
-/
namespace Voleeo.Imports.PathTemplate
open Postman (ImportedRequest ImportedBody)
open Send (isSeparator Segment IsSegment glue EndsIn IsName IsValue runNames isNameStart
  paramMatches extractPathParams PathParams ResolveCtx substitutePathParams
  queryParamsOnly pathParamValue)

/-! ## What the app finds -/

theorem head?_takeWhile_isWordChar (x : Text) {t : Text} (ht : t.head?.any isWordChar = false) :
    (x ++ t).takeWhile isWordChar = x.takeWhile isWordChar := by
  induction x with
  | nil =>
    cases t with
    | nil => rfl
    | cons c t =>
      have hc : isWordChar c = false := ht
      simp [hc]
  | cons c x ih =>
    rw [List.cons_append, List.takeWhile_cons, List.takeWhile_cons, ih]

/-- Names end in front of what is no part of a word. -/
theorem paramMatches_append (x : Text) {t : Text} (ht : t.head?.any isWordChar = false) :
    paramMatches (x ++ t) = paramMatches x ++ paramMatches t := by
  induction x with
  | nil => rfl
  | cons c x ih =>
    rw [List.cons_append, paramMatches, paramMatches, head?_takeWhile_isWordChar x ht, ih]
    split_ifs <;> rfl

theorem paramMatches_identifier {name : Text} (h : IsIdentifier name) :
    paramMatches (behindColon name) = [name] := by
  have htake : name.takeWhile isWordChar = name := List.takeWhile_eq_self_iff.mpr h.2
  have hrest : ∀ w : Text, (∀ c ∈ w, isWordChar c = true) → paramMatches w = [] := by
    intro w hw
    induction w with
    | nil => rfl
    | cons c w ih =>
      have hc : c ≠ ':' := by
        rintro rfl
        exact absurd (hw ':' List.mem_cons_self) (by decide)
      rw [paramMatches, if_neg fun h => hc h.1, ih fun d hd => hw d (List.mem_cons_of_mem c hd)]
  rw [behindColon, paramMatches, htake, if_pos ⟨rfl, h.1⟩, hrest name h.2]

/-- The path that is searched when a URL does not parse. -/
def inPath (c : Char) : Bool := decide (c ≠ '?') && decide (c ≠ '#')

theorem takeWhile_inPath (s : Text) :
    (s.takeWhile (· ≠ '?')).takeWhile (· ≠ '#') = s.takeWhile inPath := by
  rw [List.takeWhile_takeWhile]
  congr 1
  funext c
  rw [inPath, Bool.eq_iff_iff]
  simp [and_comm]

theorem paramMatches_end (s : Text) :
    paramMatches ((s ++ ['/']).takeWhile inPath) = paramMatches (s.takeWhile inPath) := by
  by_cases h : ∀ c ∈ s, inPath c = true
  · rw [List.takeWhile_append_of_pos h, List.takeWhile_eq_self_iff.mpr h]
    rw [paramMatches_append s (by decide)]
    exact List.append_nil _
  · rw [List.takeWhile_append, if_neg]
    intro hlength
    refine h fun c hc => ?_
    have heq : s.takeWhile inPath = s :=
      List.IsPrefix.eq_of_length (List.takeWhile_prefix inPath) hlength
    exact List.takeWhile_eq_self_iff.mp heq c hc

theorem paramMatches_glue {segments : List Segment} (h : ∀ s ∈ segments, IsSegment s) :
    paramMatches ((glue segments).takeWhile inPath) =
      (frontOf segments).flatMap fun s => paramMatches s.1 := by
  induction segments with
  | nil => rfl
  | cons s rest ih =>
    obtain ⟨htext, hend⟩ := h s List.mem_cons_self
    have hin : ∀ c ∈ s.1, inPath c = true := by
      intro c hc
      have hsep := htext c hc
      simp only [isSeparator, Bool.or_eq_false_iff, beq_eq_false_iff_ne] at hsep
      simp [inPath, hsep.1.2, hsep.2]
    rw [Send.glue_cons, List.takeWhile_append_of_pos hin, frontOf, List.takeWhile_cons]
    by_cases hslash : s.2 = '/'
    · have hpath : inPath s.2 = true := by
        rw [hslash]
        rfl
      rw [if_pos hslash, if_pos hpath, List.flatMap_cons,
        paramMatches_append s.1 (by rw [hslash]; rfl), paramMatches,
        if_neg fun h => absurd (hslash ▸ h.1) (by decide),
        ih fun t ht => h t (List.mem_cons_of_mem s ht)]
    · have hpath : inPath s.2 = false := by
        simp only [isSeparator, Bool.or_eq_true, beq_iff_eq] at hend
        rcases hend with (hend | hend) | hend
        · exact absurd hend hslash
        · rw [hend]
          rfl
        · rw [hend]
          rfl
      rw [if_neg hslash, hpath]
      simp

/-! ## The property and the condition -/

/-- The text in front of a path, and the pieces of the path. -/
def urlPieces (front path : Text) : List Piece := front.map .lit ++ template path

/-- The rows of a request with values for the imported path parameters. -/
def Filled (req : ImportedRequest) (rows : List RequestParameter) : Prop :=
  List.Forall₂ (fun p row => row.name = p.name ∧ row.enabled = p.enabled) req.pathParams rows

/-- The names that the app finds are the imported path parameters, each once; every value lands in
its placeholder, and none goes to the query. -/
structure StaysPath (pathname : Text → Option Text) (front path : Text) (req : ImportedRequest) :
    Prop where
  distinct : (extractPathParams pathname req.url.toList).Nodup
  found : ∀ name, name ∈ extractPathParams pathname req.url.toList ↔
    name ∈ req.pathParams.map fun p => p.name.toList
  sent : ∀ (ctx : ResolveCtx) rows (value : Text → Text), Filled req rows →
    (∀ row ∈ rows, ∀ site,
      Send.resolve ctx site row.value.toList = .ok (value row.name.toList)) →
    substitutePathParams ctx (rows.foldl PathParams.set PathParams.empty) req.url.toList =
      .ok (front ++ fill (fun name => encodeURIComponent (value name)) (template path))
  not_query : ∀ rows, Filled req rows → queryParamsOnly pathname rows req.url.toList = []

/-- The names that stand behind the colons of the URL, by the template: those in the literal text,
and the placeholders. -/
def namesIn (ps : List Piece) : List Text :=
  (frontOf (segmentsOf ps)).flatMap fun s => paramMatches (lits s.1) ++ holes s.1

/-- What the template and the declared names have to be. -/
structure PathFits (names : List Text) (front path : Text) : Prop where
  closed : Piece.lit '\x7b' ∉ template path
  identifiers : ∀ name ∈ holes (template path), IsIdentifier name
  declared : (namesIn (urlPieces front path)).Perm names
  fit : NamesFit (names.filter fun name => name ≠ protoKey) (urlPieces front path)

section
variable {pathname : Text → Option Text} {front path : Text} {ctx : ResolveCtx}
  {value : Text → Text}

/-! ## Values in a URL -/

theorem isValue_encode (s : Text) : IsValue (encodeURIComponent s) := by
  have hno : ∀ c, isUriMark c = false → c ≠ '%' → c.isAlphanum = false → c ∉ encodeURIComponent s :=
    fun c hkeep hpercent halnum => not_mem_percentEncode hkeep hpercent halnum s
  intro c hc
  constructor
  · rintro rfl
    exact hno ':' (by decide) (by decide) (by decide) hc
  · by_contra hsep
    simp only [isSeparator, Bool.not_eq_false, Bool.or_eq_true, beq_iff_eq] at hsep
    rcases hsep with (rfl | rfl) | rfl
    · exact hno '/' (by decide) (by decide) (by decide) hc
    · exact hno '?' (by decide) (by decide) (by decide) hc
    · exact hno '#' (by decide) (by decide) (by decide) hc

/-- Values are substituted in the order of the rows. -/
theorem substitutePathParams_rows {rows : List RequestParameter} {url : Text}
    (hnodup : (rows.map fun row => row.name.toList).Nodup)
    (hindex : ∀ row ∈ rows, isArrayIndex row.name.toList = false)
    (henabled : ∀ row ∈ rows, row.enabled = true)
    (hvalue : ∀ row ∈ rows, ∀ site,
      Send.resolve ctx site row.value.toList = .ok (value row.name.toList)) :
    substitutePathParams ctx (rows.foldl PathParams.set PathParams.empty) url =
      .ok (runNames (fun name => encodeURIComponent (value name))
        ((rows.map fun row => row.name.toList).filter fun name => name ≠ protoKey) url) := by
  have hentries : (rows.foldl PathParams.set PathParams.empty).values.entries =
      (rows.filter fun row => row.name.toList ≠ protoKey).map
        fun row => (row.name.toList, row.value.toList) := by
    have h := @JsRecord.entries_ofEntries (rows.map fun row => (row.name.toList, row.value.toList))
      (fun e he => by
        obtain ⟨row, hrow, rfl⟩ := List.mem_map.mp he
        exact hindex row hrow)
      (by rw [List.map_map]; exact hnodup)
    rw [JsRecord.ofEntries, List.foldl_map] at h
    rw [Send.foldl_set_values, PathParams.empty, h, List.filter_map]
    rfl
  have hstep : ∀ row ∈ rows.filter (fun row => row.name.toList ≠ protoKey), ∀ site,
      pathParamValue ctx (rows.foldl PathParams.set PathParams.empty) site row.name.toList
        row.value.toList = .ok (value row.name.toList) := by
    intro row hrow site
    obtain ⟨hmem, hproto⟩ := List.mem_filter.mp hrow
    have hget := @Send.get?_enabled rows PathParams.empty row hmem (of_decide_eq_true hproto) hnodup
    rw [henabled row hmem] at hget
    rw [pathParamValue, hget]
    by_cases hempty : row.value.toList = []
    · have hresolve := hvalue row hmem site
      rw [hempty, Send.resolve_plain (by simp)] at hresolve
      simp [hempty, Except.ok.inj hresolve]
    · simp [hempty, hvalue row hmem site]
  rw [substitutePathParams, hentries, List.zipIdx_map, List.foldlM_map, foldlM_of
    (g := fun url e => Send.replaceFirstParam e.1.name.toList
      (encodeURIComponent (value e.1.name.toList)) url)]
  · rw [runNames, List.filter_map, List.foldl_map]
    conv_rhs => rw [show ((fun name => decide (name ≠ protoKey)) ∘ fun row : RequestParameter =>
        row.name.toList) = fun row => decide (row.name.toList ≠ protoKey) from rfl,
      ← List.zipIdx_map_fst 0 (rows.filter fun row => row.name.toList ≠ protoKey),
      List.foldl_map]
  · rintro ⟨row, i⟩ hrow url
    have hmem : row ∈ rows.filter fun row => row.name.toList ≠ protoKey := by
      rw [← List.zipIdx_map_fst 0 (rows.filter fun row => row.name.toList ≠ protoKey)]
      exact List.mem_map.mpr ⟨(row, i), hrow, rfl⟩
    show (do
      let v ← pathParamValue ctx _ [i, 0] row.name.toList row.value.toList
      return Send.replaceFirstParam row.name.toList (encodeURIComponent v) url) = _
    rw [hstep row hmem]
    rfl

/-! ## The URL of the pieces -/

theorem holes_urlPieces (front path : Text) :
    holes (urlPieces front path) = holes (template path) := by
  rw [urlPieces, holes_append, holes_map_lit]
  rfl

theorem fill_urlPieces (value : Text → Text) (front path : Text) :
    fill value (urlPieces front path) = front ++ fill value (template path) := by
  rw [urlPieces, fill_append, fill_lits]

theorem url_eq (hclosed : Piece.lit '\x7b' ∉ template path)
    (hidentifiers : ∀ name ∈ holes (template path), IsIdentifier name) :
    front ++ pathTemplateToSegments path = fill behindColon (urlPieces front path) := by
  rw [fill_urlPieces, pathTemplateToSegments, segmentsFrom_eq none path hclosed]
  congr 1
  refine fill_congr fun name hname => ?_
  rw [sanitizeVar_of_identifier (hidentifiers name hname)]
  rfl

theorem frontOf_map {α β : Type} (f : α → β) (segments : List (α × Char)) :
    frontOf (segments.map fun s => (f s.1, s.2)) =
      (frontOf segments).map fun s => (f s.1, s.2) := by
  induction segments with
  | nil => rfl
  | cons s rest ih =>
    rw [List.map_cons, frontOf, frontOf]
    by_cases h : s.2 = '/'
    · rw [if_pos h, if_pos h, ih, List.map_cons]
    · rw [if_neg h, if_neg h]
      rfl

theorem mem_of_mem_frontOf {α : Type} {segments : List (α × Char)} {s : α × Char}
    (h : s ∈ frontOf segments) : s ∈ segments := by
  induction segments with
  | nil => exact h
  | cons t rest ih =>
    rw [frontOf] at h
    split_ifs at h
    · rcases List.mem_cons.mp h with rfl | h
      · exact List.mem_cons_self
      · exact List.mem_cons_of_mem t (ih h)
    · rw [List.mem_singleton.mp h]
      exact List.mem_cons_self

/-- The app finds the names that stand behind the colons of the pieces. -/
theorem extract_eq {ps : List Piece} (hidentifiers : ∀ name ∈ holes ps, IsIdentifier name)
    (hended : ∀ s ∈ segmentsOf ps, Ended s.1)
    (hthrows : pathname (fill behindColon ps) = none) :
    extractPathParams pathname (fill behindColon ps) = namesIn ps := by
  have hsegment := isSegment_fill (behindColon_separator fun name h => (hidentifiers name h).2)
  rw [extractPathParams, hthrows]
  simp only
  rw [takeWhile_inPath, ← paramMatches_end, fill_end, paramMatches_glue hsegment, frontOf_map,
    List.flatMap_map, namesIn]
  refine List.flatMap_congr fun s hs => ?_
  have hs := mem_of_mem_frontOf hs
  have hs' := hended s hs
  simp only
  rw [fill_of_ended hs']
  cases hholes : holes s.1 with
  | nil => simp
  | cons name rest =>
    obtain rfl : rest = [] := by
      have hlength := hs'.2
      rw [hholes] at hlength
      exact List.eq_nil_of_length_eq_zero (by simpa using hlength)
    have hname := hidentifiers name (mem_holes_of_mem hs (by simp [hholes]))
    rw [List.flatMap_singleton, paramMatches_append _ rfl, paramMatches_identifier hname]

/-! ## Both directions -/

/-- The rows of path parameters with these names and values. -/
def rowsOf (names : List String) (value : Text → Text) : List RequestParameter :=
  names.map fun name => ⟨"", name, String.ofList (value name.toList), true⟩

section
variable {req : ImportedRequest} {names : List String}
  (hurl : req.url.toList = front ++ pathTemplateToSegments path)
  (hparams : req.pathParams = names.map fun name => ⟨name, "", true⟩)
  (hnodup : names.Nodup)

include hparams in
theorem names_of_filled {rows : List RequestParameter} (h : Filled req rows) :
    (rows.map fun row => row.name.toList) = names.map String.toList ∧
      ∀ row ∈ rows, row.enabled = true := by
  rw [Filled, hparams, List.forall₂_map_left_iff] at h
  clear hparams
  induction h with
  | nil => exact ⟨rfl, by simp⟩
  | cons hrow _ ih =>
    obtain ⟨hname, henabled⟩ := hrow
    obtain ⟨hnames, hall⟩ := ih
    refine ⟨?_, List.forall_mem_cons.mpr ⟨henabled, hall⟩⟩
    rw [List.map_cons, List.map_cons, hnames, hname]

include hparams in
theorem filled_rowsOf (value : Text → Text) : Filled req (rowsOf names value) := by
  rw [Filled, hparams, rowsOf, List.forall₂_map_left_iff, List.forall₂_map_right_iff,
    List.forall₂_same]
  exact fun name _ => ⟨rfl, rfl⟩

theorem nodup_toList (h : names.Nodup) : (names.map String.toList).Nodup :=
  h.map fun _ _ => String.toList_injective

include hurl hparams hnodup in
/-- What is sent is a run over the URL. -/
theorem runNames_of_sent (h : StaysPath pathname front path req) {value : Text → Text}
    (hvalue : ∀ name, ∀ c ∈ value name, isUnreserved c = true) :
    runNames value ((names.map String.toList).filter fun name => name ≠ protoKey)
      (front ++ pathTemplateToSegments path) = front ++ fill value (template path) := by
  have hfilled := filled_rowsOf hparams value
  obtain ⟨hnames, henabled⟩ := names_of_filled hparams hfilled
  have hfound : ∀ row ∈ rowsOf names value, isArrayIndex row.name.toList = false := by
    intro row hrow
    refine Send.not_arrayIndex (Send.name_of_mem ((h.found row.name.toList).mpr ?_)).1
    rw [hparams, List.map_map]
    show row.name.toList ∈ names.map String.toList
    rw [← hnames]
    exact List.mem_map.mpr ⟨row, hrow, rfl⟩
  have hresolve : ∀ row ∈ rowsOf names value, ∀ site,
      Send.resolve ⟨[], []⟩ site row.value.toList = .ok (value row.name.toList) := by
    intro row hrow site
    obtain ⟨name, -, rfl⟩ := List.mem_map.mp hrow
    rw [String.toList_ofList]
    exact Send.resolve_plain (Send.infix_of_unreserved (hvalue name.toList))
  have hencode : (fun name => encodeURIComponent (value name)) = value :=
    funext fun name => encodeURIComponent_of_unreserved (hvalue name)
  have hsent := h.sent ⟨[], []⟩ (rowsOf names value) value hfilled hresolve
  rw [substitutePathParams_rows (by rw [hnames]; exact nodup_toList hnodup) hfound henabled
    hresolve, hnames, hencode, hurl] at hsent
  exact Except.ok.inj hsent

include hurl hparams hnodup in
theorem pathFits_of_staysPath (hthrows : pathname req.url.toList = none)
    (hdeclared : ∀ name ∈ holes (template path), name ∈ names.map String.toList)
    (h : StaysPath pathname front path req) :
    PathFits (names.map String.toList) front path := by
  have hmap : (req.pathParams.map fun p => p.name.toList) = names.map String.toList := by
    rw [hparams, List.map_map]
    rfl
  have hidentifier : ∀ name ∈ names.map String.toList, IsIdentifier name := by
    intro name hname
    exact Send.name_of_mem ((h.found name).mpr (hmap ▸ hname))
  have hidentifiers : ∀ name ∈ holes (template path), IsIdentifier name :=
    fun name hname => hidentifier name (hdeclared name hname)
  have hclosed : Piece.lit '\x7b' ∉ template path := by
    have hdash : ∀ name : Text, ∀ c ∈ (fun _ => ['-']) name, isUnreserved c = true := by
      intro name
      show ∀ c ∈ ['-'], isUnreserved c = true
      decide
    have hcount := @count_runNames_le (fun _ => ['-'])
      ((names.map String.toList).filter fun name => name ≠ protoKey)
      (front ++ pathTemplateToSegments path) '\x7b'
    have hzero : ∀ l : List Text, (l.map fun _ => List.count '\x7b' ['-']).sum = 0 := by
      intro l
      simp
    rw [runNames_of_sent hurl hparams hnodup h hdash, List.count_append, List.count_append,
      pathTemplateToSegments, List.count_eq_zero.mpr (brace_not_mem_segmentsFrom none path),
      hzero, count_fill] at hcount
    have hlits : (lits (template path)).count '\x7b' = 0 := by omega
    exact fun hmem => List.count_eq_zero.mp hlits (mem_lits.mpr hmem)
  have hwords : ∀ name ∈ (names.map String.toList).filter fun name => name ≠ protoKey,
      IsName name := fun name hname => (hidentifier name (List.mem_filter.mp hname).1).2
  have hholes : ∀ name ∈ holes (urlPieces front path), IsIdentifier name := by
    rw [holes_urlPieces]
    exact hidentifiers
  have hfit : NamesFit ((names.map String.toList).filter fun name => name ≠ protoKey)
      (urlPieces front path) := by
    refine fit_of_lands hwords ((nodup_toList hnodup).filter _)
      (fun name hname => (hholes name hname).2) fun value hvalue => ?_
    rw [← url_eq hclosed hidentifiers, fill_urlPieces]
    exact runNames_of_sent hurl hparams hnodup h hvalue
  refine ⟨hclosed, hidentifiers, ?_, hfit⟩
  have heq : req.url.toList = fill behindColon (urlPieces front path) := by
    rw [hurl, url_eq hclosed hidentifiers]
  have hextract := extract_eq hholes hfit.ended (heq ▸ hthrows)
  rw [← hextract, ← heq]
  refine (List.perm_ext_iff_of_nodup h.distinct (nodup_toList hnodup)).mpr fun name => ?_
  rw [h.found name, hmap]

include hurl hparams hnodup in
theorem staysPath_of_pathFits (hthrows : pathname req.url.toList = none)
    (h : PathFits (names.map String.toList) front path) :
    StaysPath pathname front path req := by
  have hmap : (req.pathParams.map fun p => p.name.toList) = names.map String.toList := by
    rw [hparams, List.map_map]
    rfl
  have hholes : ∀ name ∈ holes (urlPieces front path), IsIdentifier name := by
    rw [holes_urlPieces]
    exact h.identifiers
  have heq : req.url.toList = fill behindColon (urlPieces front path) := by
    rw [hurl, url_eq h.closed h.identifiers]
  have hextract : extractPathParams pathname req.url.toList = namesIn (urlPieces front path) := by
    rw [heq, extract_eq hholes h.fit.ended (heq ▸ hthrows)]
  have hperm : (extractPathParams pathname req.url.toList).Perm (names.map String.toList) := by
    rw [hextract]
    exact h.declared
  have hidentifier : ∀ name ∈ names.map String.toList, IsIdentifier name :=
    fun name hname => Send.name_of_mem (hperm.mem_iff.mpr hname)
  refine ⟨hperm.nodup_iff.mpr (nodup_toList hnodup), fun name => ?_, ?_, ?_⟩
  · rw [hmap]
    exact hperm.mem_iff
  · intro ctx rows value hfilled hvalue
    obtain ⟨hnames, henabled⟩ := names_of_filled hparams hfilled
    have hindex : ∀ row ∈ rows, isArrayIndex row.name.toList = false := by
      intro row hrow
      refine Send.not_arrayIndex (hidentifier row.name.toList ?_).1
      rw [← hnames]
      exact List.mem_map.mpr ⟨row, hrow, rfl⟩
    rw [substitutePathParams_rows (by rw [hnames]; exact nodup_toList hnodup) hindex henabled
      hvalue, hnames, heq, ← fill_urlPieces]
    refine congrArg Except.ok (runNames_of_fit h.fit ?_ ((nodup_toList hnodup).filter _)
      fun name => isValue_encode (value name))
    exact fun name hname => (hidentifier name (List.mem_filter.mp hname).1).2
  · intro rows hfilled
    obtain ⟨hnames, -⟩ := names_of_filled hparams hfilled
    refine List.filter_eq_nil_iff.mpr fun row hrow => ?_
    have hmem : row.name.toList ∈ extractPathParams pathname req.url.toList := by
      rw [hperm.mem_iff, ← hnames]
      exact List.mem_map.mpr ⟨row, hrow, rfl⟩
    simpa using hmem

end

theorem openapi_request (root : Json) (basePrefix path method : String) (op : Json)
    (shared : Option Json) (parts : OperationParts) :
    (openapiOperation root basePrefix path method op shared parts).1.url.toList =
        basePrefix.toList ++ pathTemplateToSegments path.toList ∧
      (openapiOperation root basePrefix path method op shared parts).1.pathParams =
        (pathNames (mergedParams root shared (op.get "parameters"))).map
          fun name => ⟨name, "", true⟩ := by
  obtain ⟨hparams, hurl⟩ := foldl_classifyParam
    (mergedParams root shared (op.get "parameters")) (emptyRequest basePrefix path method op, [])
  refine ⟨?_, hparams⟩
  refine (congrArg String.toList hurl).trans ?_
  simp [emptyRequest]

theorem swagger_request (root : Json) (basePrefix path method : String) (op : Json)
    (shared : Option Json) (parts : OperationParts) (readBody : Json → Option ImportedBody)
    (consumesMultipart : Bool) (accept : Option String) :
    (swaggerOperation root basePrefix path method op shared parts readBody consumesMultipart
        accept).1.url.toList = basePrefix.toList ++ pathTemplateToSegments path.toList ∧
      (swaggerOperation root basePrefix path method op shared parts readBody consumesMultipart
        accept).1.pathParams =
        (pathNames (mergedParams root shared (op.get "parameters"))).map
          fun name => ⟨name, "", true⟩ := by
  obtain ⟨hparams, hurl⟩ := foldl_swaggerParam readBody
    (mergedParams root shared (op.get "parameters"))
    ⟨(emptyRequest basePrefix path method op, []), [], false⟩
  refine ⟨?_, hparams⟩
  refine (congrArg String.toList hurl).trans ?_
  simp [emptyRequest]

/-- The requests that an operation of a document becomes, of either format. -/
inductive ImportedFrom (root : Json) (basePrefix path method : String) (op : Json)
    (shared : Option Json) : ImportedRequest → Prop
  | openapi (parts : OperationParts) : ImportedFrom root basePrefix path method op shared
      (openapiOperation root basePrefix path method op shared parts).1
  | swagger (parts : OperationParts) (readBody : Json → Option ImportedBody)
      (consumesMultipart : Bool) (accept : Option String) :
      ImportedFrom root basePrefix path method op shared
        (swaggerOperation root basePrefix path method op shared parts readBody consumesMultipart
          accept).1

/-- The names that an operation declares in the path. -/
def declaredNames (root op : Json) (shared : Option Json) : List Text :=
  (pathNames (mergedParams root shared (op.get "parameters"))).map String.toList

/-- When all placeholders are declared, the path parameters of an operation stay path parameters
exactly where the template fits. The URL has no scheme, and the platform's parser throws on it. -/
theorem staysPath_iff (root : Json) (basePrefix path method : String) (op : Json)
    (shared : Option Json) (req : ImportedRequest)
    (himported : ImportedFrom root basePrefix path method op shared req)
    (hthrows : pathname req.url.toList = none)
    (hdeclared : ∀ name ∈ holes (template path.toList), name ∈ declaredNames root op shared) :
    StaysPath pathname basePrefix.toList path.toList req ↔
      PathFits (declaredNames root op shared) basePrefix.toList path.toList := by
  have hnodup := nodup_pathNames root shared (op.get "parameters")
  cases himported with
  | openapi parts =>
      obtain ⟨hurl, hparams⟩ := openapi_request root basePrefix path method op shared parts
      exact ⟨pathFits_of_staysPath hurl hparams hnodup hthrows hdeclared,
        staysPath_of_pathFits hurl hparams hnodup hthrows⟩
  | swagger parts readBody consumesMultipart accept =>
      obtain ⟨hurl, hparams⟩ := swagger_request root basePrefix path method op shared parts
        readBody consumesMultipart accept
      exact ⟨pathFits_of_staysPath hurl hparams hnodup hthrows hdeclared,
        staysPath_of_pathFits hurl hparams hnodup hthrows⟩

end

/-- An operation that declares one parameter, in the path. -/
def oneParameter (name : String) : Json :=
  .object [("parameters", .array [.object [("in", .string "path"), ("name", .string name)]])]

def emptyParts : OperationParts := ⟨none, .none, []⟩

theorem declaredNames_id : declaredNames .null (oneParameter "id") none = ["id".toList] := by
  rw [declaredNames, show pathNames (mergedParams .null none
    ((oneParameter "id").get "parameters")) = ["id"] from rfl]
  rfl

theorem holes_pets : holes (template "/pets/\x7bid\x7d".toList) = ["id".toList] := by decide

theorem staysPath_plain_name :
    StaysPath (fun _ => none) "\x7b\x7b base_url \x7d\x7d".toList "/pets/\x7bid\x7d".toList
      (openapiOperation .null "\x7b\x7b base_url \x7d\x7d" "/pets/\x7bid\x7d" "get"
        (oneParameter "id") none emptyParts).1 := by
  refine (staysPath_iff .null "\x7b\x7b base_url \x7d\x7d" "/pets/\x7bid\x7d" "get"
    (oneParameter "id") none _ (.openapi emptyParts) rfl ?_).mpr ⟨?_, ?_, ?_, ?_⟩
  · rw [holes_pets, declaredNames_id]
    exact fun name h => h
  · decide
  · rw [holes_pets]
    intro name hname
    obtain rfl := List.mem_singleton.mp hname
    exact ⟨by decide, by decide⟩
  · rw [declaredNames_id, show namesIn (urlPieces
      "\x7b\x7b base_url \x7d\x7d".toList "/pets/\x7bid\x7d".toList) = ["id".toList] by decide]
  · refine namesFit_of_no_colon (by decide) ?_ ?_ (by decide)
    · rw [holes_urlPieces, holes_pets]
      exact List.nodup_singleton _
    · rw [holes_urlPieces, holes_pets, declaredNames_id]
      decide

/-- The placeholder of the URL is called otherwise than the parameter. -/
theorem dashed_name_lost :
    ¬ StaysPath (fun _ => none) "\x7b\x7b base_url \x7d\x7d".toList "/pets/\x7bpet-id\x7d".toList
      (openapiOperation .null "\x7b\x7b base_url \x7d\x7d" "/pets/\x7bpet-id\x7d" "get"
        (oneParameter "pet-id") none emptyParts).1 := by
  intro h
  obtain ⟨hurl, hparams⟩ := openapi_request .null "\x7b\x7b base_url \x7d\x7d"
    "/pets/\x7bpet-id\x7d" "get" (oneParameter "pet-id") none emptyParts
  have hholes : holes (template "/pets/\x7bpet-id\x7d".toList) = ["pet-id".toList] := by decide
  have hfits := pathFits_of_staysPath hurl hparams
    (nodup_pathNames .null none ((oneParameter "pet-id").get "parameters")) rfl
    (by rw [hholes]; exact fun name h => h) h
  have hidentifier := hfits.identifiers "pet-id".toList
    (by rw [hholes]; exact List.mem_singleton_self _)
  exact absurd (hidentifier.2 '-' (by decide)) (by decide)

end Voleeo.Imports.PathTemplate
