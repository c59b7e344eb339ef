import Voleeo.Send.Fits
import Voleeo.Send.Paths

/-!
# Path parameters that fit

A stored request fits when every place of a known path parameter does: the row is
enabled and the web app finds it, the place is the only one of its name, a segment
ends behind it, and no beginning of a name stands in front. Then the desktop app
and the MCP server send to the same path, whatever values the parameters have.
-/
namespace Voleeo.Send
open OrderedMap
open Resolve (UnicodeTables isBoundary replacePathParam stripQuery applyToRequest)

/-! ## The property and the condition -/

/-- A request without its parameter values: a URL without templates, query and fragment, and
parameters with distinct names. -/
structure PathRequest where
  request : HttpRequest
  no_opening : ¬ ['{', '{'] <:+: request.url.toList
  no_query : '?' ∉ request.url.toList
  no_fragment : '#' ∉ request.url.toList
  distinct : (request.parameters.map (·.name)).Nodup

/-- Parameter values made of unreserved characters. -/
structure Values where
  value : String → String
  unreserved : ∀ name, ∀ c ∈ (value name).toList, isUnreserved c = true

def Values.write (values : Values) (p : RequestParameter) : RequestParameter :=
  { p with value := values.value p.name }

def PathRequest.fill (r : PathRequest) (values : Values) : HttpRequest :=
  { r.request with parameters := r.request.parameters.map values.write }

section
variable (pathname : Text → Option Text) (tables : UnicodeTables)

/-- A parameter that one of the two finds in the URL. -/
def Known (request : HttpRequest) (name : Text) : Prop :=
  name ∈ request.parameters.map (fun p => p.name.toList) ∧
    (name ∈ extractPathParams pathname request.url.toList ∨
      name ∈ Resolve.extractPathParams tables request.url.toList)

/-- Both send to one path, and it holds no place of a known parameter. -/
def SamePath (ctx : ResolveCtx) (vars : OrderedMap Text Text) (request : HttpRequest) : Prop :=
  ∃ sent, storedUrl pathname ctx request = .ok sent ∧
    stripQuery sent = stripQuery (applyToRequest tables vars request).url.toList ∧
    ∀ name, Known pathname tables request name →
      ¬ ∃ before after, IsPlace tables name (stripQuery sent) before after

/-- What is asked of a place of a known parameter in the URL. -/
structure PlaceFits (request : HttpRequest) (p : RequestParameter) (before after : Text) :
    Prop where
  enabled : p.enabled = true
  found : p.name.toList ∈ extractPathParams pathname request.url.toList
  not_proto : p.name.toList ≠ protoKey
  segment_end : after = [] ∨ after.head? = some '/'
  only_place : ∀ before' after',
    IsPlace tables p.name.toList request.url.toList before' after' → before' = before
  free_front : ∀ front word, before = front ++ ':' :: word → IsWord tables word →
    ∀ name, Known pathname tables request name → ¬ word <+: name

def ParamsFit (request : HttpRequest) : Prop :=
  ∀ p ∈ request.parameters, Known pathname tables request p.name.toList →
    ∀ before after, IsPlace tables p.name.toList request.url.toList before after →
      PlaceFits pathname tables request p before after

end

variable {pathname : Text → Option Text} {tables : UnicodeTables}

/-! ## Filled requests -/

theorem plain_fill (r : PathRequest) (values : Values) : PlainRequest (r.fill values) where
  no_opening := r.no_opening
  no_query := r.no_query
  no_fragment := r.no_fragment
  distinct := by
    have hnames : (r.fill values).parameters.map (fun p => p.name.toList) =
        (r.request.parameters.map (·.name)).map String.toList := by
      simp [PathRequest.fill, Values.write, Function.comp_def]
    rw [hnames]
    exact r.distinct.map fun _ _ h => String.toList_injective h
  unreserved := by
    intro p hp
    obtain ⟨q, -, rfl⟩ := List.mem_map.mp hp
    exact values.unreserved q.name

theorem known_fill (r : PathRequest) (values : Values) (name : Text) :
    Known pathname tables (r.fill values) name ↔ Known pathname tables r.request name := by
  have hnames : (r.fill values).parameters.map (fun p => p.name.toList) =
      r.request.parameters.map (fun p => p.name.toList) := by
    simp [PathRequest.fill, Values.write, Function.comp_def]
  unfold Known
  rw [hnames]
  rfl

/-- What the web app does with a row. -/
def Values.webStep (values : Values) (p : RequestParameter) : Text × Text :=
  (p.name.toList, if p.enabled then (values.value p.name).toList else [])

theorem webSteps_fill (r : PathRequest) (values : Values) :
    webSteps pathname (r.fill values) = (webParams pathname r.request).map values.webStep := by
  rw [webSteps, webParams, PathRequest.fill, List.filter_map, List.map_map]
  rfl

/-- What the Rust resolver does with an enabled row. -/
def Values.rustStep (values : Values) (p : RequestParameter) : Text × Text :=
  (p.name.toList, (values.value p.name).toList)

theorem rustSteps_fill (r : PathRequest) (values : Values) :
    rustSteps tables (r.fill values) = (rustParams tables r.request).map values.rustStep := by
  rw [rustSteps, rustParams, PathRequest.fill, List.filter_map, List.map_map]
  rfl

theorem ascii_of_wordChar {c : Char} (h : isWordChar c = true) : c.toNat < 128 := by
  have hrange := wordChar_range h
  omega

theorem identifier_of_found {url name : Text} (h : name ∈ extractPathParams pathname url) :
    Resolve.isIdentifier tables name = true := by
  obtain ⟨hstart, hword⟩ := name_of_mem h
  have hascii : ∀ c ∈ name, tables.isWord c = true := by
    intro c hc
    rw [tables.isWord_ascii (ascii_of_wordChar (hword c hc)), hword c hc]
  cases name with
  | nil => cases hstart
  | cons c cs =>
    have hc := ascii_of_wordChar (hword c List.mem_cons_self)
    have hfirst : tables.isAlphabetic c = true ∨ c = '_' := by
      rw [tables.ascii_alphabetic c hc]
      simpa [isNameStart] using hstart
    simp only [Resolve.isIdentifier, Bool.and_eq_true, Bool.or_eq_true, beq_iff_eq,
      List.all_eq_true]
    exact ⟨hfirst, fun d hd => hascii d (List.mem_cons_of_mem _ hd)⟩

/-- Known names are identifiers. -/
theorem identifier_of_known {request : HttpRequest} {name : Text}
    (h : Known pathname tables request name) : Resolve.isIdentifier tables name = true := by
  rcases h.2 with hweb | hrust
  · exact identifier_of_found hweb
  · exact (mem_namesBehindColons.mp hrust).1

theorem word_of_known {request : HttpRequest} {name : Text}
    (h : Known pathname tables request name) : IsWord tables name :=
  isWord_of_identifier (identifier_of_known h)

/-- A known name has a place in the URL exactly when the Rust resolver finds it. -/
theorem found_iff_place {request : HttpRequest} (hquery : '?' ∉ request.url.toList) {name : Text}
    (h : Known pathname tables request name) :
    name ∈ Resolve.extractPathParams tables request.url.toList ↔
      0 < countPlaces tables name request.url.toList := by
  rw [Resolve.extractPathParams, stripQuery_plain hquery, mem_namesBehindColons]
  simp [identifier_of_known h]

theorem segmentEnd_iff {after : Text} (hquery : '?' ∉ after) (hfragment : '#' ∉ after) :
    isSegmentEnd after = true ↔ after = [] ∨ after.head? = some '/' := by
  cases after with
  | nil => simp [isSegmentEnd]
  | cons c after =>
    have hq : c ≠ '?' := fun h => hquery (by simp [h])
    have hf : c ≠ '#' := fun h => hfragment (by simp [h])
    simp [isSegmentEnd, hq, hf]

/-! ## The condition is enough -/

/-- What the two do with a parameter of a filled request. -/
def stepOf (pathname : Text → Option Text) (tables : UnicodeTables) (request : HttpRequest)
    (p : RequestParameter) : Step where
  name := p.name.toList
  web :=
    if p.name.toList ∈ extractPathParams pathname request.url.toList ∧ p.name.toList ≠ protoKey then
      some (if p.enabled then p.value.toList else [])
    else none
  rust :=
    if p.enabled = true ∧ p.name.toList ∈ Resolve.extractPathParams tables request.url.toList then
      some p.value.toList
    else none

theorem webRun_steps (request : HttpRequest) (s : Text) :
    webRun (webSteps pathname request) s =
      (request.parameters.map (stepOf pathname tables request)).foldl
        (fun s step => step.runWeb s) s := by
  rw [webRun, webSteps, webParams, List.foldl_map, List.foldl_filter, List.foldl_map]
  congr 1
  funext s p
  simp only [Step.runWeb, stepOf, Bool.and_eq_true, List.contains_iff_mem, decide_eq_true_eq]
  split_ifs <;> simp_all

theorem rustRun_steps (request : HttpRequest) (s : Text) :
    rustRun tables (rustSteps tables request) s =
      (request.parameters.map (stepOf pathname tables request)).foldl
        (fun s step => step.runRust tables s) s := by
  rw [rustRun, rustSteps, rustParams, List.foldl_map, List.foldl_filter, List.foldl_map]
  congr 1
  funext s p
  simp only [Step.runRust, stepOf, Bool.and_eq_true, List.contains_iff_mem]
  split_ifs <;> simp_all

theorem placesFit_of_paramsFit {r : PathRequest} (h : ParamsFit pathname tables r.request) :
    PlacesFit tables (Known pathname tables r.request) r.request.url.toList := by
  intro name hname
  obtain ⟨p, hp, rfl⟩ := List.mem_map.mp hname.1
  have hfits := h p hp hname
  constructor
  · apply countPlaces_le_one (word_of_known hname)
    intro before after before' after' hplace hplace'
    exact (hfits before after hplace).only_place before' after' hplace'
  · intro before after hplace
    have hfit := hfits before after hplace
    refine ⟨?_, hfit.free_front⟩
    have hmem : ∀ c ∈ after, c ∈ r.request.url.toList := by
      intro c hc
      rw [hplace.1]
      simp [hc]
    exact (segmentEnd_iff (fun hq => r.no_query (hmem _ hq))
      (fun hf => r.no_fragment (hmem _ hf))).mpr hfit.segment_end

/-- A parameter with a place in the URL is substituted by both. -/
theorem stepOf_agree {r : PathRequest} (h : ParamsFit pathname tables r.request) (values : Values)
    {p : RequestParameter} (hp : p ∈ r.request.parameters)
    (hknown : Known pathname tables r.request p.name.toList)
    (hpos : 0 < countPlaces tables p.name.toList r.request.url.toList) :
    stepOf pathname tables (r.fill values) (values.write p) =
      ⟨p.name.toList, some (values.value p.name).toList, some (values.value p.name).toList⟩ := by
  obtain ⟨before, after, hplace⟩ := exists_place hpos
  have hfit := h p hp hknown before after hplace
  have hrust := (found_iff_place r.no_query hknown).mpr hpos
  have hfound : (values.write p).name.toList ∈
      extractPathParams pathname (r.fill values).url.toList := hfit.found
  have hproto : (values.write p).name.toList ≠ protoKey := hfit.not_proto
  have henabled : (values.write p).enabled = true := hfit.enabled
  have hrust' : (values.write p).name.toList ∈
      Resolve.extractPathParams tables (r.fill values).url.toList := hrust
  rw [stepOf, if_pos ⟨hfound, hproto⟩, if_pos henabled, if_pos ⟨henabled, hrust'⟩]
  rfl

/-- The runs of both are one, and leave no place of a known parameter. -/
theorem runs_of_paramsFit {r : PathRequest} (h : ParamsFit pathname tables r.request)
    (values : Values) :
    webRun (webSteps pathname (r.fill values)) r.request.url.toList =
        rustRun tables (rustSteps tables (r.fill values)) r.request.url.toList ∧
      ∀ name, Known pathname tables r.request name → countPlaces tables name
        (webRun (webSteps pathname (r.fill values)) r.request.url.toList) = 0 := by
  have hother : ∀ step ∈ (r.fill values).parameters.map
      (stepOf pathname tables (r.fill values)), ¬ Known pathname tables r.request step.name →
      step.web = none ∧ step.rust = none := by
    intro step hstep hunknown
    obtain ⟨q, hq, rfl⟩ := List.mem_map.mp hstep
    obtain ⟨p, hp, rfl⟩ := List.mem_map.mp hq
    have hname : p.name.toList ∈ r.request.parameters.map (fun p => p.name.toList) :=
      List.mem_map.mpr ⟨p, hp, rfl⟩
    exact ⟨if_neg fun hweb => hunknown ⟨hname, Or.inl hweb.1⟩,
      if_neg fun hrust => hunknown ⟨hname, Or.inr hrust.2⟩⟩
  have hagree : ∀ step ∈ (r.fill values).parameters.map
      (stepOf pathname tables (r.fill values)), Known pathname tables r.request step.name →
      0 < countPlaces tables step.name r.request.url.toList →
      ∃ value, ':' ∉ value ∧ step.web = some value ∧ step.rust = some value := by
    intro step hstep hknown hpos
    obtain ⟨q, hq, rfl⟩ := List.mem_map.mp hstep
    obtain ⟨p, hp, rfl⟩ := List.mem_map.mp hq
    rw [stepOf_agree h values hp hknown hpos]
    exact ⟨_, (no_opening_of_unreserved (values.unreserved p.name)).2.2, rfl, rfl⟩
  obtain ⟨hsame, hgone⟩ :=
    runs_agree (fun _ => word_of_known) (placesFit_of_paramsFit h) hother hagree
  rw [webRun_steps, rustRun_steps]
  refine ⟨hsame, fun name hname => hgone name hname (Or.inr ?_)⟩
  obtain ⟨p, hp, rfl⟩ := List.mem_map.mp hname.1
  rw [List.map_map]
  exact List.mem_map.mpr ⟨values.write p, List.mem_map_of_mem hp, rfl⟩

theorem samePath_of_paramsFit {r : PathRequest} (h : ParamsFit pathname tables r.request)
    (ctx : ResolveCtx) (vars : OrderedMap Text Text) (values : Values) :
    SamePath pathname tables ctx vars (r.fill values) := by
  have hplain := plain_fill r values
  obtain ⟨hruns, hgone⟩ := runs_of_paramsFit h values
  obtain ⟨sent, hsent, hpath⟩ := @storedUrl_path pathname ctx _ hplain
  have hopen : NoOpening (rustRun tables (rustSteps tables (r.fill values))
      (r.fill values).url.toList) := by
    change NoOpening (rustRun tables (rustSteps tables (r.fill values)) r.request.url.toList)
    rw [← hruns]
    exact noOpening_webRun (noOpening_iff.mpr r.no_opening)
      fun e he => (webSteps_plain hplain e he).1
  refine ⟨sent, hsent, ?_, ?_⟩
  · rw [hpath, applyToRequest_path hplain hopen]
    exact hruns
  · rintro name hname ⟨before, after, hplace⟩
    rw [known_fill] at hname
    rw [hpath] at hplace
    have hpos := countPlaces_pos (word_of_known hname) hplace
    have hzero := hgone name hname
    change 0 < countPlaces tables name
      (webRun (webSteps pathname (r.fill values)) r.request.url.toList) at hpos
    omega

end Voleeo.Send
