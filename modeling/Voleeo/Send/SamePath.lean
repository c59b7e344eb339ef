import Voleeo.Send.PathRequest

/-!
# The path of the desktop app and of the MCP server

Both send a request to the same path, with no known path parameter left in it,
whatever values the parameters have, exactly when its path parameters fit. A
parameter that does not fit is shown by two choices of values: a dash for all of
them, and for one of them the rest of a name that begins in front of its place.
-/
namespace Voleeo.Send
open OrderedMap
open Resolve (UnicodeTables isBoundary replacePathParam stripQuery applyToRequest)

variable {pathname : Text → Option Text} {tables : UnicodeTables}

/-! ## Runs of the same path -/

theorem noOpening_rustRun {steps : List (Text × Text)} {s : Text} (h : NoOpening s)
    (hwords : ∀ e ∈ steps, IsWord tables e.1) (hvalues : ∀ e ∈ steps, '{' ∉ e.2 ∧ e.2 ≠ []) :
    NoOpening (rustRun tables steps s) := by
  induction steps generalizing s with
  | nil => exact h
  | cons e steps ih =>
    rw [rustRun_cons]
    apply ih _ (fun a ha => hwords a (List.mem_cons_of_mem _ ha))
      fun a ha => hvalues a (List.mem_cons_of_mem _ ha)
    obtain ⟨hbrace, hne⟩ := hvalues e List.mem_cons_self
    have hreach := @replacePathParam_reach tables e.1 e.2 (hwords e List.mem_cons_self) [] s
    rw [List.nil_append, List.nil_append] at hreach
    generalize replacePathParam tables s e.1 e.2 = s' at hreach
    clear ih
    induction hreach with
    | refl => exact h
    | tail _ hstep ih =>
      obtain ⟨before, after, ⟨hs, -⟩, rfl⟩ := hstep
      rw [hs] at ih
      exact ih.subst hbrace (Or.inl hne)

/-- With no empty value, one path means one run. -/
theorem runs_of_samePath {r : PathRequest} {values : Values}
    (hne : ∀ name, (values.value name).toList ≠ []) {ctx : ResolveCtx}
    {vars : OrderedMap Text Text} (h : SamePath pathname tables ctx vars (r.fill values)) :
    webRun (webSteps pathname (r.fill values)) r.request.url.toList =
        rustRun tables (rustSteps tables (r.fill values)) r.request.url.toList ∧
      ∀ name, Known pathname tables r.request name → countPlaces tables name
        (webRun (webSteps pathname (r.fill values)) r.request.url.toList) = 0 := by
  have hplain := plain_fill r values
  obtain ⟨sent, hsent, hsame, hgone⟩ := h
  obtain ⟨sent', hsent', hpath⟩ := @storedUrl_path pathname ctx _ hplain
  obtain rfl : sent = sent' := Except.ok.inj (hsent.symm.trans hsent')
  have hopen : NoOpening (rustRun tables (rustSteps tables (r.fill values))
      (r.fill values).url.toList) := by
    apply noOpening_rustRun (noOpening_iff.mpr r.no_opening) rustSteps_words
    intro e he
    rw [rustSteps_fill] at he
    obtain ⟨p, -, rfl⟩ := List.mem_map.mp he
    exact ⟨(no_opening_of_unreserved (values.unreserved p.name)).1, hne p.name⟩
  rw [hpath, applyToRequest_path hplain hopen] at hsame
  refine ⟨hsame, fun name hname => ?_⟩
  by_contra hpos
  obtain ⟨before, after, hplace⟩ := exists_place (Nat.pos_of_ne_zero hpos)
  rw [hpath] at hgone
  exact hgone name ((known_fill r values name).mpr hname) ⟨before, after, hplace⟩

/-! ## A dash for every parameter -/

/-- The value that one parameter gets, and a dash for every other one. -/
def Values.dashesBut (name : String) (v : Text) (hv : ∀ c ∈ v, isUnreserved c = true) :
    Values where
  value other := if other = name then String.ofList v else "-"
  unreserved other c hc := by
    split_ifs at hc with h
    · rw [String.toList_ofList] at hc
      exact hv c hc
    · obtain rfl : c = '-' := by simpa using hc
      decide

def Values.dashes : Values where
  value _ := "-"
  unreserved _ c hc := by
    obtain rfl : c = '-' := by simpa using hc
    decide

@[simp] theorem toList_dashes (name : String) : (Values.dashes.value name).toList = ['-'] := by
  simp [Values.dashes]

theorem toList_dashesBut_self {name : String} {v : Text} {hv : ∀ c ∈ v, isUnreserved c = true} :
    ((Values.dashesBut name v hv).value name).toList = v := by
  simp [Values.dashesBut]

theorem toList_dashesBut {name other : String} {v : Text} {hv : ∀ c ∈ v, isUnreserved c = true}
    (h : other ≠ name) : ((Values.dashesBut name v hv).value other).toList = ['-'] := by
  simp [Values.dashesBut, h]

theorem name_injective {r : PathRequest} {p q : RequestParameter}
    (hp : p ∈ r.request.parameters) (hq : q ∈ r.request.parameters)
    (h : p.name.toList = q.name.toList) : p = q :=
  List.inj_on_of_nodup_map r.distinct hp hq (String.toList_injective h)

/-- What the runs over dashes leave of the URL. -/
structure DashRuns (pathname : Text → Option Text) (tables : UnicodeTables) (r : PathRequest) :
    Prop where
  same : webRun (webSteps pathname (r.fill Values.dashes)) r.request.url.toList =
    rustRun tables (rustSteps tables (r.fill Values.dashes)) r.request.url.toList
  gone : ∀ name, Known pathname tables r.request name → countPlaces tables name
    (webRun (webSteps pathname (r.fill Values.dashes)) r.request.url.toList) = 0

namespace DashRuns

variable {r : PathRequest} (h : DashRuns pathname tables r) {p : RequestParameter}
  (hp : p ∈ r.request.parameters) (hknown : Known pathname tables r.request p.name.toList)
  (hpos : 0 < countPlaces tables p.name.toList r.request.url.toList)
include h hp hknown hpos

/-- The Rust resolver leaves the place of a disabled row. -/
theorem enabled_of_place : p.enabled = true := by
  have hsteps : ∀ e ∈ rustSteps tables (r.fill Values.dashes), IsWord tables e.1 ∧ e.2 = ['-'] := by
    intro e he
    refine ⟨rustSteps_words e he, ?_⟩
    rw [rustSteps_fill] at he
    obtain ⟨q, -, rfl⟩ := List.mem_map.mp he
    exact toList_dashes q.name
  by_contra hdisabled
  have hother : p.name.toList ∉ (rustSteps tables (r.fill Values.dashes)).map Prod.fst := by
    rw [rustSteps_fill, List.map_map]
    intro hmem
    obtain ⟨q, hq, hname⟩ := List.mem_map.mp hmem
    obtain ⟨hq, henabled, -⟩ := mem_rustParams.mp hq
    rw [name_injective hq hp hname] at henabled
    exact hdisabled henabled
  have hcount := countPlaces_dashes hother (rustRun_dashes hsteps r.request.url.toList)
  rw [← h.same, h.gone _ hknown] at hcount
  omega

omit hp hknown hpos in
theorem dashLike : DashLike tables (webSteps pathname (r.fill Values.dashes))
    r.request.url.toList := by
  rw [webSteps_fill]
  refine ⟨?_, ?_, ?_⟩
  · rw [List.map_map]
    have hnodup := (plain_fill r Values.dashes).distinct
    rw [PathRequest.fill, List.map_map] at hnodup
    exact hnodup.sublist (List.filter_sublist.map _)
  · intro e he
    obtain ⟨q, hq, rfl⟩ := List.mem_map.mp he
    exact isWord_of_identifier (identifier_of_found (mem_webParams.mp hq).2.1)
  · intro e he
    obtain ⟨q, hq, rfl⟩ := List.mem_map.mp he
    obtain ⟨hq, hfound, -⟩ := mem_webParams.mp hq
    have hknown : Known pathname tables r.request q.name.toList :=
      ⟨List.mem_map.mpr ⟨q, hq, rfl⟩, Or.inl hfound⟩
    rcases Nat.eq_zero_or_pos (countPlaces tables q.name.toList r.request.url.toList) with
      hzero | hpos
    · exact Or.inr hzero
    · rw [Values.webStep, if_pos (h.enabled_of_place hq hknown hpos)]
      exact Or.inl (toList_dashes q.name)

/-- The web app leaves the place of a parameter that it does not find. -/
theorem mem_of_place : p ∈ webParams pathname r.request := by
  by_contra hmissing
  have hother : p.name.toList ∉ (webSteps pathname (r.fill Values.dashes)).map Prod.fst := by
    rw [webSteps_fill, List.map_map]
    intro hmem
    obtain ⟨q, hq, hname⟩ := List.mem_map.mp hmem
    rw [name_injective (mem_webParams.mp hq).1 hp hname] at hq
    exact hmissing hq
  have hcount := countPlaces_dashes hother (webRun_dashes h.dashLike)
  rw [h.gone _ hknown] at hcount
  omega

omit hp hpos in
theorem countPlaces_le : countPlaces tables p.name.toList r.request.url.toList ≤ 1 := by
  have hcount := countPlaces_webRun h.dashLike p.name.toList
  rw [h.gone _ hknown] at hcount
  split_ifs at hcount <;> omega

/-- The rows in front of a parameter leave its place, and so do the rows behind it. -/
theorem split : ∃ pre post, webParams pathname r.request = pre ++ p :: post ∧
    p.name.toList ∉ pre.map (fun q => q.name.toList) ∧
    p.name.toList ∉ post.map (fun q => q.name.toList) ∧
    (∀ name ∈ pre.map (fun q => q.name.toList), name ∉ post.map fun q => q.name.toList) ∧
    DashLike tables (pre.map Values.dashes.webStep) r.request.url.toList ∧
    DashLike tables (post.map Values.dashes.webStep)
      (webRun ((pre ++ [p]).map Values.dashes.webStep) r.request.url.toList) := by
  obtain ⟨pre, post, hsplit⟩ := List.append_of_mem (h.mem_of_place hp hknown hpos)
  have hdash := h.dashLike
  rw [webSteps_fill, hsplit] at hdash
  have hnodup := hdash.1
  rw [List.map_map, List.map_append, List.map_cons, List.nodup_append] at hnodup
  obtain ⟨-, hpost, hdisjoint⟩ := hnodup
  refine ⟨pre, post, hsplit, ?_, (List.nodup_cons.mp hpost).1, ?_, ?_, ?_⟩
  · intro hmem
    exact hdisjoint _ hmem _ List.mem_cons_self rfl
  · intro name hmem hmem'
    exact hdisjoint _ hmem _ (List.mem_cons_of_mem _ hmem') rfl
  · rw [List.map_append] at hdash
    exact hdash.left
  · rw [← List.singleton_append, ← List.append_assoc, List.map_append] at hdash
    exact hdash.right

/-- The web app leaves a place that no segment ends behind. -/
theorem endsSegment_of_place : EndsSegment p.name.toList r.request.url.toList := by
  obtain ⟨pre, post, hsplit, hpre, hpost, -, hleft, hright⟩ := h.split hp hknown hpos
  have hreach := webRun_dashes hleft
  rw [List.map_map] at hreach
  have hword := word_of_known hknown
  have hgone := h.gone _ hknown
  rw [webSteps_fill, hsplit, ← List.singleton_append, ← List.append_assoc, List.map_append,
    webRun_append] at hgone
  have hbehind := @countPlaces_dashes _ p.name.toList _
    (by rw [List.map_map]; exact hpost) _ _ (webRun_dashes hright)
  rw [hbehind, List.map_append, webRun_append] at hgone
  have hfront := countPlaces_dashes hpre hreach
  rcases replaceFirstParam_cases p.name.toList (Values.dashes.webStep p).2
    (webRun (pre.map Values.dashes.webStep) r.request.url.toList) with
    heq | ⟨before, after, hs, hend, -⟩
  · change countPlaces tables p.name.toList (replaceFirstParam p.name.toList
      (Values.dashes.webStep p).2 _) = 0 at hgone
    rw [heq] at hgone
    omega
  · exact endsSegment_of_dashes hword hreach ⟨before, after, hs, hend⟩

omit hpos in
theorem segmentEnd_of_place {before after : Text}
    (hplace : IsPlace tables p.name.toList r.request.url.toList before after) :
    isSegmentEnd after = true := by
  have hpos := countPlaces_pos (word_of_known hknown) hplace
  obtain ⟨before', after', hs, hend⟩ := h.endsSegment_of_place hp hknown hpos
  obtain ⟨-, rfl⟩ := place_unique (word_of_known hknown) (h.countPlaces_le hknown) hplace
    ⟨hs, boundary_of_segmentEnd hend⟩
  exact hend

omit hp hknown hpos in
/-- A word between two colons is not a known name. -/
theorem unknown_word {front word rest : Text}
    (hs : r.request.url.toList = front ++ ':' :: (word ++ ':' :: rest)) :
    ¬ Known pathname tables r.request word := by
  intro hknown
  obtain ⟨q, hq, rfl⟩ := List.mem_map.mp hknown.1
  have hend := h.segmentEnd_of_place hq hknown ⟨hs, isBoundary_colon rest⟩
  simp [isSegmentEnd] at hend

end DashRuns

/-! ## A value that completes a name -/

theorem map_webStep_dashesBut {name : String} {v : Text} {hv : ∀ c ∈ v, isUnreserved c = true}
    {rows : List RequestParameter} (h : name.toList ∉ rows.map fun q => q.name.toList) :
    rows.map (Values.dashesBut name v hv).webStep = rows.map Values.dashes.webStep := by
  apply List.map_congr_left
  intro q hq
  have hne : q.name ≠ name := by
    rintro rfl
    exact h (List.mem_map.mpr ⟨q, hq, rfl⟩)
  simp only [Values.webStep, toList_dashesBut hne, toList_dashes]

theorem map_rustStep_dashesBut {name : String} {v : Text} {hv : ∀ c ∈ v, isUnreserved c = true}
    {rows : List RequestParameter} (h : name.toList ∉ rows.map fun q => q.name.toList) :
    rows.map (Values.dashesBut name v hv).rustStep = rows.map Values.dashes.rustStep := by
  apply List.map_congr_left
  intro q hq
  have hne : q.name ≠ name := by
    rintro rfl
    exact h (List.mem_map.mpr ⟨q, hq, rfl⟩)
  simp only [Values.rustStep, toList_dashesBut hne, toList_dashes]

namespace DashRuns

variable {r : PathRequest} (h : DashRuns pathname tables r) {p : RequestParameter}
  (hp : p ∈ r.request.parameters) (hknown : Known pathname tables r.request p.name.toList)
  {word v : Text} (hv : ∀ c ∈ v, isUnreserved c = true) (hword : IsWord tables word)
  (hcompleted : Known pathname tables r.request (word ++ v)) (hne : v ≠ [])
  (hadj : Adjacent word p.name.toList r.request.url.toList)
include h hp hknown hword hcompleted hne hadj

/-- A completed name that has a place of its own is left by the web app, which replaces one of
the two. -/
theorem web_leaves_completed (hplace : 0 < countPlaces tables (word ++ v) r.request.url.toList) :
    0 < countPlaces tables (word ++ v) (webRun (webSteps pathname
      (r.fill (Values.dashesBut p.name v hv))) r.request.url.toList) := by
  have hname := word_of_known hknown
  obtain ⟨front₀, after₀, hs₀, hend₀⟩ := hadj
  have hpos : 0 < countPlaces tables p.name.toList r.request.url.toList :=
    countPlaces_pos hname ⟨by rw [hs₀, ← List.cons_append, ← List.append_assoc],
      boundary_of_segmentEnd hend₀⟩
  have hunknown := h.unknown_word hs₀
  have henabled := h.enabled_of_place hp hknown hpos
  obtain ⟨pre, post, hsplit, hpre, hpost, hdisjoint, hleft, hright⟩ := h.split hp hknown hpos
  have hreach := webRun_dashes hleft
  have hleftCount := countPlaces_webRun hleft (word ++ v)
  rw [List.map_map] at hreach hleftCount
  rw [List.map_append, webRun_append] at hright
  rw [webSteps_fill, hsplit, ← List.singleton_append, List.map_append, List.map_append,
    webRun_append, webRun_append, map_webStep_dashesBut hpre, map_webStep_dashesBut hpost]
  generalize webRun (pre.map Values.dashes.webStep) r.request.url.toList = mid at *
  -- The place of the parameter is still there, behind the word.
  have hwordPre : word ∉ pre.map fun q => q.name.toList := by
    intro hmem
    obtain ⟨q, hq, heq⟩ := List.mem_map.mp hmem
    have hq' : q ∈ webParams pathname r.request := by simp [hsplit, hq]
    obtain ⟨hmem, hfound, -⟩ := mem_webParams.mp hq'
    exact hunknown ⟨List.mem_map.mpr ⟨q, hmem, heq⟩, Or.inl (heq ▸ hfound)⟩
  obtain ⟨front, after, hmid, hend⟩ :=
    adjacent_dashes hword hname hpre hwordPre hreach ⟨front₀, after₀, hs₀, hend₀⟩
  have hafter := @boundary_of_segmentEnd tables _ hend
  have hone : countPlaces tables p.name.toList mid = 1 := by
    rw [countPlaces_dashes hpre hreach]
    exact Nat.le_antisymm (h.countPlaces_le hknown) hpos
  have hmid' : mid = (front ++ ':' :: word) ++ ':' :: (p.name.toList ++ after) := by
    rw [hmid, List.append_assoc, List.cons_append]
  have hvalue : webRun ([p].map (Values.dashesBut p.name v hv).webStep) mid =
      front ++ ':' :: word ++ v ++ after := by
    show replaceFirstParam p.name.toList ((Values.dashesBut p.name v hv).webStep p).2 mid = _
    rw [Values.webStep, if_pos henabled, toList_dashesBut_self, hmid']
    exact replaceFirstParam_place hname hend (by rw [← hmid', hone])
  have hdash : webRun ([p].map Values.dashes.webStep) mid =
      front ++ ':' :: word ++ ['-'] ++ after := by
    show replaceFirstParam p.name.toList (Values.dashes.webStep p).2 mid = _
    rw [Values.webStep, if_pos henabled, toList_dashes, hmid']
    exact replaceFirstParam_place hname hend (by rw [← hmid', hone])
  rw [hvalue]
  rw [hdash] at hright
  have hdashCount := fun other => @countPlaces_dash _ _ other hname _ _
    ⟨front ++ ':' :: word, after, ⟨hmid', hafter⟩, rfl⟩
  have hcount := fun other =>
    @countPlaces_completed _ _ _ _ hword hname (word_of_known hcompleted) other front _ hafter
  rw [← hmid] at hcount
  -- The rows behind it write dashes as well.
  have hrest : DashLike tables (post.map Values.dashes.webStep)
      (front ++ ':' :: word ++ v ++ after) := by
    refine ⟨hright.1, hright.2.1, fun e he => ?_⟩
    rcases hright.2.2 e he with hvalue | hzero
    · exact Or.inl hvalue
    · by_cases heq : word ++ v = e.1
      · obtain ⟨q, hq, rfl⟩ := List.mem_map.mp he
        have hq' : q ∈ webParams pathname r.request := by simp [hsplit, hq]
        have heq' : word ++ v = q.name.toList := heq
        rw [heq'] at hplace hcompleted
        have henabled := h.enabled_of_place (mem_webParams.mp hq').1 hcompleted hplace
        exact Or.inl (by rw [Values.webStep, if_pos henabled, toList_dashes])
      · have hstep := hcount e.1
        have hstep' := hdashCount e.1
        rw [if_neg heq] at hstep
        exact Or.inr (by omega)
  have hrestCount := countPlaces_webRun hrest (word ++ v)
  rw [List.map_map] at hrestCount
  have hstep := hcount (word ++ v)
  have hwordNe : word ≠ word ++ v := by simpa using hne
  rw [if_pos rfl, if_neg hwordNe, Nat.add_zero] at hstep
  by_cases hpostMem : word ++ v ∈ post.map fun q => q.name.toList
  · have hpreMem : word ++ v ∉ pre.map fun q => q.name.toList :=
      fun hmem => hdisjoint _ hmem hpostMem
    have hpne : p.name.toList ≠ word ++ v := fun heq => hpost (heq ▸ hpostMem)
    change word ++ v ∉ pre.map (Prod.fst ∘ Values.dashes.webStep) at hpreMem
    change word ++ v ∈ post.map (Prod.fst ∘ Values.dashes.webStep) at hpostMem
    rw [if_neg hpreMem] at hleftCount
    rw [if_neg hpne] at hstep
    rw [if_pos hpostMem] at hrestCount
    omega
  · change word ++ v ∉ post.map (Prod.fst ∘ Values.dashes.webStep) at hpostMem
    rw [if_neg hpostMem] at hrestCount
    by_cases hpne : p.name.toList = word ++ v
    · rw [hpne] at hpre
      change word ++ v ∉ pre.map (Prod.fst ∘ Values.dashes.webStep) at hpre
      rw [if_neg hpre] at hleftCount
      rw [if_pos hpne] at hstep
      omega
    · rw [if_neg hpne] at hstep
      omega

/-- A completed name without a place of its own is left by the Rust resolver. -/
theorem rust_leaves_completed (hplace : countPlaces tables (word ++ v) r.request.url.toList = 0) :
    0 < countPlaces tables (word ++ v) (rustRun tables (rustSteps tables
      (r.fill (Values.dashesBut p.name v hv))) r.request.url.toList) := by
  have hname := word_of_known hknown
  obtain ⟨front₀, after₀, hs₀, hend₀⟩ := hadj
  have hpos : 0 < countPlaces tables p.name.toList r.request.url.toList :=
    countPlaces_pos hname ⟨by rw [hs₀, ← List.cons_append, ← List.append_assoc],
      boundary_of_segmentEnd hend₀⟩
  have hunknown := h.unknown_word hs₀
  have hfound := (found_iff_place r.no_query hknown).mpr hpos
  have hmemRust : p ∈ rustParams tables r.request :=
    mem_rustParams.mpr ⟨hp, h.enabled_of_place hp hknown hpos, hfound⟩
  obtain ⟨pre, post, hsplit⟩ := List.append_of_mem hmemRust
  have hnodup : ((rustParams tables r.request).map fun q => q.name.toList).Nodup := by
    have hall := (plain_fill r Values.dashes).distinct
    rw [PathRequest.fill, List.map_map] at hall
    exact hall.sublist (List.filter_sublist.map _)
  rw [hsplit, List.map_append, List.map_cons, List.nodup_append] at hnodup
  have hpost := (List.nodup_cons.mp hnodup.2.1).1
  have hpre : p.name.toList ∉ pre.map fun q => q.name.toList :=
    fun hmem => hnodup.2.2 _ hmem _ List.mem_cons_self rfl
  -- No row of the run has the completed name or the word.
  have hfoundRow : ∀ q ∈ pre ++ p :: post,
      0 < countPlaces tables q.name.toList r.request.url.toList ∧ q ∈ r.request.parameters := by
    intro q hq
    rw [← hsplit] at hq
    obtain ⟨hmem, -, hrust⟩ := mem_rustParams.mp hq
    rw [Resolve.extractPathParams, stripQuery_plain r.no_query] at hrust
    exact ⟨(mem_namesBehindColons.mp hrust).2, hmem⟩
  have hmissing : ∀ rows : List RequestParameter, (∀ q ∈ rows, q ∈ pre ++ p :: post) →
      word ++ v ∉ rows.map fun q => q.name.toList := by
    intro rows hrows hmem
    obtain ⟨q, hq, heq⟩ := List.mem_map.mp hmem
    have hplaced := (hfoundRow q (hrows q hq)).1
    rw [heq] at hplaced
    omega
  have hwordPre : word ∉ pre.map fun q => q.name.toList := by
    intro hmem
    obtain ⟨q, hq, rfl⟩ := List.mem_map.mp hmem
    have hq' : q ∈ rustParams tables r.request := by simp [hsplit, hq]
    obtain ⟨hmem, -, hrust⟩ := mem_rustParams.mp hq'
    exact hunknown ⟨List.mem_map.mpr ⟨q, hmem, rfl⟩, Or.inr hrust⟩
  have hdashes : ∀ rows : List RequestParameter, (∀ q ∈ rows, q ∈ pre ++ p :: post) →
      ∀ e ∈ rows.map Values.dashes.rustStep, IsWord tables e.1 ∧ e.2 = ['-'] := by
    intro rows hrows e he
    obtain ⟨q, hq, rfl⟩ := List.mem_map.mp he
    have hq' := hrows q hq
    rw [← hsplit] at hq'
    obtain ⟨-, -, hrust⟩ := mem_rustParams.mp hq'
    exact ⟨isWord_of_identifier (mem_namesBehindColons.mp hrust).1, toList_dashes q.name⟩
  have hpreRows : ∀ q ∈ pre, q ∈ pre ++ p :: post := fun q hq => List.mem_append_left _ hq
  have hpostRows : ∀ q ∈ post, q ∈ pre ++ p :: post :=
    fun q hq => List.mem_append_right _ (List.mem_cons_of_mem _ hq)
  have hreach := rustRun_dashes (hdashes pre hpreRows) r.request.url.toList
  rw [List.map_map] at hreach
  rw [rustSteps_fill, hsplit, ← List.singleton_append, List.map_append, List.map_append,
    rustRun_append, rustRun_append, map_rustStep_dashesBut hpre, map_rustStep_dashesBut hpost]
  generalize rustRun tables (pre.map Values.dashes.rustStep) r.request.url.toList = mid at *
  obtain ⟨front, after, hmid, hend⟩ :=
    adjacent_dashes hword hname hpre hwordPre hreach ⟨front₀, after₀, hs₀, hend₀⟩
  have hafter := @boundary_of_segmentEnd tables _ hend
  have hone : countPlaces tables p.name.toList mid = 1 := by
    rw [countPlaces_dashes hpre hreach]
    exact Nat.le_antisymm (h.countPlaces_le hknown) hpos
  have hmid' : mid = (front ++ ':' :: word) ++ ':' :: (p.name.toList ++ after) := by
    rw [hmid, List.append_assoc, List.cons_append]
  have hvalue : rustRun tables ([p].map (Values.dashesBut p.name v hv).rustStep) mid =
      front ++ ':' :: word ++ v ++ after := by
    show replacePathParam tables mid p.name.toList ((Values.dashesBut p.name v hv).rustStep p).2 = _
    rw [Values.rustStep, toList_dashesBut_self, hmid']
    exact replacePathParam_place hname hafter (by rw [← hmid', hone])
  have hstep := @countPlaces_completed _ _ _ _ hword hname (word_of_known hcompleted) (word ++ v)
    front _ hafter
  rw [← hmid, if_pos rfl] at hstep
  have hrest := countPlaces_dashes (by rw [List.map_map]; exact hmissing post hpostRows)
    (rustRun_dashes (hdashes post hpostRows) (front ++ ':' :: word ++ v ++ after))
  have hfront := countPlaces_dashes (hmissing pre hpreRows) hreach
  have hpne : p.name.toList ≠ word ++ v := by
    intro heq
    rw [heq] at hpos
    omega
  have hwordNe : word ≠ word ++ v := by simpa using hne
  rw [if_neg hpne, if_neg hwordNe] at hstep
  rw [hvalue, hrest]
  omega

end DashRuns

/-! ## The condition is needed -/

theorem unreserved_of_wordChar {c : Char} (h : isWordChar c = true) : isUnreserved c = true := by
  unfold isWordChar at h
  unfold isUnreserved
  grind

theorem paramsFit_of_samePath {r : PathRequest} {ctx : ResolveCtx} {vars : OrderedMap Text Text}
    (hall : ∀ values, SamePath pathname tables ctx vars (r.fill values)) :
    ParamsFit pathname tables r.request := by
  have hruns := runs_of_samePath (fun name => by simp) (hall Values.dashes)
  have h : DashRuns pathname tables r := ⟨hruns.1, hruns.2⟩
  intro p hp hknown before after hplace
  have hname := word_of_known hknown
  have hpos := countPlaces_pos hname hplace
  obtain ⟨-, hfound, hproto⟩ := mem_webParams.mp (h.mem_of_place hp hknown hpos)
  have hend := h.segmentEnd_of_place hp hknown hplace
  refine ⟨h.enabled_of_place hp hknown hpos, hfound, hproto, ?_, ?_, ?_⟩
  · have hmem : ∀ c ∈ after, c ∈ r.request.url.toList := by
      intro c hc
      rw [hplace.1]
      simp [hc]
    exact (segmentEnd_iff (fun hq => r.no_query (hmem _ hq))
      (fun hf => r.no_fragment (hmem _ hf))).mp hend
  · intro before' after' hplace'
    exact (place_unique hname (h.countPlaces_le hknown) hplace' hplace).1
  · rintro front word rfl hword name hcompleted ⟨v, rfl⟩
    have hs : r.request.url.toList = front ++ ':' :: (word ++ ':' :: (p.name.toList ++ after)) := by
      rw [hplace.1, List.append_assoc, List.cons_append]
    have hne : v ≠ [] := by
      rintro rfl
      rw [List.append_nil] at hcompleted
      exact h.unknown_word hs hcompleted
    obtain ⟨q, hq, hqname⟩ := List.mem_map.mp hcompleted.1
    have hweb : word ++ v ∈ extractPathParams pathname r.request.url.toList := by
      rcases hcompleted.2 with hweb | hrust
      · exact hweb
      · have hpos' := (found_iff_place r.no_query hcompleted).mp hrust
        rw [← hqname] at hcompleted hpos' ⊢
        exact (mem_webParams.mp (h.mem_of_place hq hcompleted hpos')).2.1
    have hv : ∀ c ∈ v, isUnreserved c = true := fun c hc =>
      unreserved_of_wordChar ((name_of_mem hweb).2 c (List.mem_append_right _ hc))
    have hadj : Adjacent word p.name.toList r.request.url.toList := ⟨front, after, hs, hend⟩
    have hvalues : ∀ other, ((Values.dashesBut p.name v hv).value other).toList ≠ [] := by
      intro other
      by_cases hother : other = p.name
      · rw [hother, toList_dashesBut_self]
        exact hne
      · rw [toList_dashesBut hother]
        simp
    obtain ⟨hsame, hgone⟩ := runs_of_samePath hvalues (hall (Values.dashesBut p.name v hv))
    have hzero := hgone _ hcompleted
    rcases Nat.eq_zero_or_pos (countPlaces tables (word ++ v) r.request.url.toList) with
      hnone | hsome
    · have hleft := h.rust_leaves_completed hp hknown hv hword hcompleted hne hadj hnone
      rw [← hsame] at hleft
      omega
    · have hleft := h.web_leaves_completed hp hknown hv hword hcompleted hne hadj hsome
      omega

def suffixRequest : PathRequest where
  request :=
    { HttpRequest.blank with
      url := "https://h/:id.json"
      parameters := [⟨"p1", "id", "7", true⟩] }
  no_opening := by decide
  no_query := by decide
  no_fragment := by decide
  distinct := by decide

def sevens : Values where
  value _ := "7"
  unreserved _ c hc := by
    obtain rfl : c = '7' := by simpa using hc
    decide

end Voleeo.Send
