import Voleeo.Web.ParamRemoval
import Voleeo.Send.Runs

/-!
# Editing one path parameter

A parameter is renamed at its first place only, and its value goes behind the other values. The
request keeps its URL if no value of another parameter can make up a place of the name before
that.
-/
namespace Voleeo.ParamEdits
open Imports.PathTemplate (inPath IsIdentifier isValue_encode)
open Send (isSegmentEnd isSeparator isNameStart paramMatches extractPathParams replaceFirstParam
  webRun webRun_cons Segment IsSegment IsValue IsName EndsIn glue glue_cons replaceSegment
  replaceSegment_cases)

/-- What `renamePathParam` makes of the URL. -/
def renameInUrl (oldName newName url : Text) : Text :=
  replaceFirstParam oldName (':' :: newName) url

/-- The other values, and the value of the old name under the new one. -/
def renameInValues (oldName newName : Text) (values : List (Text × Text)) : List (Text × Text) :=
  values.filter (fun e => e.1 ≠ oldName) ++ [(newName, (values.lookup oldName).getD [])]

/-- The step that substitutes a value. -/
def encodeStep (e : Text × Text) : Text × Text := (e.1, encodeURIComponent e.2)

/-- What a resolved URL is made of: the text with its path parameters, and the rows of the query
that name none of them. -/
def sentUrl (pathname : Text → Option Text) (values query : List (Text × Text)) (url : Text) :
    Text × List (Text × Text) :=
  (webRun (values.map encodeStep) url,
    query.filter fun q => q.1 ∉ extractPathParams pathname url)

/-- `new URL(url).pathname`, as far as it is used. -/
structure UrlParser where
  pathname : Text → Option Text
  /-- A URL without a base starts with a scheme. -/
  template : ∀ url : Text, url.head? = some '\x7b' → pathname url = none
  /-- The segments behind an empty authority are the path, for a scheme that can do without. -/
  segments : ∀ scheme x y tail : Text, IsScheme scheme → IsIdentifier x → IsIdentifier y →
    tail.head?.any inPath = false →
      let path := paramPart x ++ paramPart y
      pathname (origin scheme ++ (path ++ tail)) = none ∨
        pathname (origin scheme ++ (path ++ tail)) = some path

/-! ## The property and the condition -/

section
variable (parser : UrlParser)

/-- Removing a parameter takes away its segments alone, and renaming it changes its name alone. -/
structure EditsAlone (name url : Text) : Prop where
  removes : removePathParamFromUrl url name = dropSegments name url
  loses : extractPathParams parser.pathname (removePathParamFromUrl url name) =
    (extractPathParams parser.pathname url).filter (· ≠ name)
  renames : ∀ newName, IsIdentifier newName → newName ∉ extractPathParams parser.pathname url →
    extractPathParams parser.pathname (renameInUrl name newName url) =
      (extractPathParams parser.pathname url).map fun n => if n = name then newName else n
  resolves : ∀ newName values query, IsIdentifier newName →
    newName ∉ extractPathParams parser.pathname url → (values.map Prod.fst).Nodup →
    (∀ e ∈ values, IsIdentifier e.1) → name ∈ values.map Prod.fst →
    newName ∉ values.map Prod.fst → (∀ q ∈ query, q.1 ≠ name ∧ q.1 ≠ newName) →
      sentUrl parser.pathname (renameInValues name newName values) query
        (renameInUrl name newName url) = sentUrl parser.pathname values query url

end

/-- A URL with a scheme and an authority, which starts with no port. -/
def IsAbsolute (url : Text) : Prop :=
  ∃ scheme rest, IsScheme scheme ∧ rest.head? ≠ some ':' ∧ url = origin scheme ++ rest

/-! ## Runs beside a segment -/

/-- One substitution in the segments on both sides of another one. -/
def stepBeside (sides : List Segment × List Segment) (e : Text × Text) :
    List Segment × List Segment :=
  if ∃ s ∈ sides.1, EndsIn e.1 s.1 then (replaceSegment e.1 e.2 sides.1, sides.2)
  else (sides.1, replaceSegment e.1 e.2 sides.2)

def runBeside (steps : List (Text × Text)) (sides : List Segment × List Segment) :
    List Segment × List Segment := steps.foldl stepBeside sides

def runAll (steps : List (Text × Text)) (segments : List Segment) : List Segment :=
  steps.foldl (fun segments e => replaceSegment e.1 e.2 segments) segments

variable {name value : Text} {segments before after : List Segment} {s : Segment}

theorem replaceSegment_of_none (h : ∀ s ∈ segments, ¬ EndsIn name s.1) :
    replaceSegment name value segments = segments := by
  induction segments with
  | nil => rfl
  | cons s rest ih =>
    rw [List.forall_mem_cons] at h
    rw [replaceSegment, if_neg h.1, ih h.2]

theorem replaceSegment_append_of_none (h : ∀ s ∈ before, ¬ EndsIn name s.1) :
    replaceSegment name value (before ++ after) = before ++ replaceSegment name value after := by
  induction before with
  | nil => rfl
  | cons s rest ih =>
    rw [List.forall_mem_cons] at h
    rw [List.cons_append, replaceSegment, if_neg h.1, ih h.2]
    rfl

theorem replaceSegment_append_of_some (h : ∃ s ∈ before, EndsIn name s.1) :
    replaceSegment name value (before ++ after) = replaceSegment name value before ++ after := by
  induction before with
  | nil =>
    obtain ⟨s, hs, -⟩ := h
    cases hs
  | cons s rest ih =>
    rw [List.cons_append, replaceSegment, replaceSegment]
    by_cases hends : EndsIn name s.1
    · rw [if_pos hends, if_pos hends]
      rfl
    · rw [if_neg hends, if_neg hends, ih ?_]
      · rfl
      · obtain ⟨t, ht, htends⟩ := h
        rcases List.mem_cons.mp ht with rfl | ht
        · exact absurd htends hends
        · exact ⟨t, ht, htends⟩

/-- A step does not touch a segment that ends in another name. -/
theorem replaceSegment_beside (h : ¬ EndsIn name s.1) :
    replaceSegment name value (before ++ s :: after) =
      (stepBeside (before, after) (name, value)).1 ++
        s :: (stepBeside (before, after) (name, value)).2 := by
  rw [stepBeside]
  split_ifs with hsome
  · rw [replaceSegment_append_of_some hsome]
  · rw [replaceSegment_append_of_none fun t ht hends => hsome ⟨t, ht, hends⟩, replaceSegment,
      if_neg h]

theorem runAll_beside {steps : List (Text × Text)} (h : ∀ e ∈ steps, ¬ EndsIn e.1 s.1)
    (before after : List Segment) :
    runAll steps (before ++ s :: after) = (runBeside steps (before, after)).1 ++
      s :: (runBeside steps (before, after)).2 := by
  induction steps generalizing before after with
  | nil => rfl
  | cons e steps ih =>
    rw [List.forall_mem_cons] at h
    rw [runAll, List.foldl_cons, replaceSegment_beside h.1]
    exact ih h.2 _ _

/-! ## Open ends -/

/-- What a value can complete to a name. -/
def OpenEnd (x : Text) : Prop := ∃ z w, x = z ++ ':' :: w ∧ (w = [] ∨ IsIdentifier w)

/-- The first segment that ends in the name has no other name in front of it to complete. -/
def Untangled (name : Text) (segments : List Segment) : Prop :=
  ∀ s, segments.find? (fun s => EndsIn name s.1) = some s →
    ∀ z, s.1 = z ++ ':' :: name → ¬ OpenEnd z

theorem isIdentifier_of_append {w value : Text} (h : IsIdentifier (w ++ value)) :
    w = [] ∨ IsIdentifier w := by
  cases w with
  | nil => exact .inl rfl
  | cons c w => exact .inr ⟨h.1, fun d hd => h.2 d (List.mem_append_left _ hd)⟩

/-- A step changes no first segment of another name. -/
theorem find?_replaceSegment {other : Text} (hvalue : IsValue value) (hother : IsIdentifier other)
    (hname : IsIdentifier name) (hne : other ≠ name) (h : Untangled name segments) :
    (replaceSegment name value segments).find? (fun s => EndsIn other s.1) =
      segments.find? (fun s => EndsIn other s.1) := by
  rcases replaceSegment_cases name value segments with
    ⟨-, heq⟩ | ⟨before, z, c, after, rfl, hbefore, heq⟩
  · rw [heq]
  · have hfirst : (before ++ (z ++ ':' :: name, c) :: after).find? (fun s => EndsIn name s.1) =
        some (z ++ ':' :: name, c) := by
      have hends : EndsIn name (z ++ ':' :: name) := List.suffix_append _ _
      rw [List.find?_append, List.find?_eq_none.mpr (by simpa using hbefore)]
      simp [hends]
    have hclosed := h _ hfirst z rfl
    have hold : ¬ EndsIn other (z ++ ':' :: name) := by
      rintro ⟨y, hy⟩
      exact hne (Send.colon_split (colon_not_mem_name hother) (colon_not_mem_name hname) hy).2
    have hnew : ¬ EndsIn other (z ++ value) := by
      rintro ⟨y, hy⟩
      obtain ⟨w, hz, hw⟩ := Send.split_before_value (fun hmem => (hvalue ':' hmem).1 rfl) hy.symm
      exact hclosed ⟨y, w, hz, isIdentifier_of_append (hw ▸ hother)⟩
    rw [heq, List.find?_append, List.find?_append, List.find?_cons_of_neg (by simpa using hnew),
      List.find?_cons_of_neg (by simpa using hold)]

theorem stepBeside_fst (sides : List Segment × List Segment) (e : Text × Text) :
    (stepBeside sides e).1 = replaceSegment e.1 e.2 sides.1 := by
  rw [stepBeside]
  split_ifs with hsome
  · rfl
  · exact (replaceSegment_of_none fun s hs hends => hsome ⟨s, hs, hends⟩).symm

/-- The names and values that a run is given. -/
structure Steps (steps : List (Text × Text)) : Prop where
  nodup : (steps.map Prod.fst).Nodup
  names : ∀ e ∈ steps, IsIdentifier e.1
  values : ∀ e ∈ steps, IsValue e.2

/-- A run changes no first segment of a name that is not among its own. -/
theorem find?_runBeside {steps : List (Text × Text)} (hsteps : Steps steps)
    {sides : List Segment × List Segment} (h : ∀ e ∈ steps, Untangled e.1 sides.1) {other : Text}
    (hother : IsIdentifier other) (hnew : other ∉ steps.map Prod.fst) :
    (runBeside steps sides).1.find? (fun s => EndsIn other s.1) =
      sides.1.find? (fun s => EndsIn other s.1) := by
  induction steps generalizing sides with
  | nil => rfl
  | cons e steps ih =>
    obtain ⟨hnodup, hnames, hvalues⟩ := hsteps
    rw [List.map_cons, List.nodup_cons] at hnodup
    rw [List.map_cons, List.mem_cons, not_or] at hnew
    rw [List.forall_mem_cons] at h hnames hvalues
    have hstep : ∀ q, IsIdentifier q → q ≠ e.1 →
        (stepBeside sides e).1.find? (fun s => EndsIn q s.1) =
          sides.1.find? (fun s => EndsIn q s.1) := by
      intro q hq hne
      rw [stepBeside_fst]
      exact find?_replaceSegment hvalues.1 hq hnames.1 hne h.1
    have hrest : ∀ a ∈ steps, Untangled a.1 (stepBeside sides e).1 := by
      intro a ha
      have hne : a.1 ≠ e.1 := fun heq => hnodup.1 (heq ▸ List.mem_map_of_mem ha)
      rw [Untangled, hstep a.1 (hnames.2 a ha) hne]
      exact h.2 a ha
    rw [runBeside, List.foldl_cons]
    exact (ih ⟨hnodup.2, hnames.2, hvalues.2⟩ hrest hnew.2).trans (hstep other hother hnew.1)

/-- The first segment that ends in a name gets the value. -/
theorem replaceSegment_first {z : Text} {c : Char} (h : ∀ s ∈ before, ¬ EndsIn name s.1) :
    replaceSegment name value (before ++ (z ++ ':' :: name, c) :: after) =
      before ++ (z ++ value, c) :: after := by
  have hends : EndsIn name (z ++ ':' :: name) := List.suffix_append _ _
  rw [replaceSegment_append_of_none h, replaceSegment, if_pos hends, Send.rdrop_ends]

theorem replaceSegment_place {c : Char} (h : ∀ s ∈ before, ¬ EndsIn name s.1) :
    replaceSegment name value (before ++ (':' :: name, c) :: after) =
      before ++ (value, c) :: after :=
  @replaceSegment_first name value before after [] c h

theorem not_endsIn_value {x : Text} (hvalue : IsValue value) : ¬ EndsIn x value := by
  rintro ⟨z, hz⟩
  exact (hvalue ':' (hz ▸ by simp)).1 rfl

/-- A parameter lands in its segment, wherever its step stands. -/
theorem runAll_place {pre post : List (Text × Text)} {u : Text} {c : Char}
    (hsteps : Steps (pre ++ post)) (hname : IsIdentifier name)
    (hnew : name ∉ (pre ++ post).map Prod.fst) (hu : IsValue u)
    (h : ∀ e ∈ pre ++ post, Untangled e.1 before) (hnone : ∀ s ∈ before, ¬ EndsIn name s.1) :
    runAll (pre ++ (name, u) :: post) (before ++ (':' :: name, c) :: after) =
      (runBeside (pre ++ post) (before, after)).1 ++
        (u, c) :: (runBeside (pre ++ post) (before, after)).2 := by
  have hother : ∀ e ∈ pre ++ post, ¬ EndsIn e.1 (':' :: name) := by
    rintro e he ⟨z, hz⟩
    have hsplit : z ++ ':' :: e.1 = [] ++ ':' :: name := hz
    have heq := (Send.colon_split (colon_not_mem_name (hsteps.names e he))
      (colon_not_mem_name hname) hsplit).2
    exact hnew (heq ▸ List.mem_map_of_mem he)
  have hpre : Steps pre := by
    have hnodup := hsteps.nodup
    rw [List.map_append] at hnodup
    exact ⟨hnodup.of_append_left, fun e he => hsteps.names e (List.mem_append_left _ he),
      fun e he => hsteps.values e (List.mem_append_left _ he)⟩
  have hnewPre : name ∉ pre.map Prod.fst := fun hmem => hnew (by
    rw [List.map_append]
    exact List.mem_append_left _ hmem)
  have hfound : (runBeside pre (before, after)).1.find? (fun s => EndsIn name s.1) =
      before.find? (fun s => EndsIn name s.1) :=
    find?_runBeside hpre (fun e he => h e (List.mem_append_left _ he)) hname hnewPre
  have hstill : ∀ s ∈ (runBeside pre (before, after)).1, ¬ EndsIn name s.1 := by
    have hbefore : before.find? (fun s => EndsIn name s.1) = none :=
      List.find?_eq_none.mpr fun s hs => by simpa using hnone s hs
    intro s hs
    simpa using List.find?_eq_none.mp (hfound.trans hbefore) s hs
  have hrun : ∀ segments, runAll (pre ++ (name, u) :: post) segments =
      runAll post (replaceSegment name u (runAll pre segments)) := by
    intro segments
    rw [runAll, List.foldl_append, List.foldl_cons]
    rfl
  rw [hrun, runAll_beside fun e he => hother e (List.mem_append_left _ he),
    replaceSegment_place hstill, runAll_beside fun e _ => not_endsIn_value hu, runBeside, runBeside,
    runBeside, List.foldl_append]

/-! ## Texts and segments -/

theorem exists_glue (s : Text) :
    ∃ segments, (∀ t ∈ segments, IsSegment t) ∧ glue segments = s ++ ['/'] := by
  induction s with
  | nil => exact ⟨[([], '/')], by simp [IsSegment, isSeparator], rfl⟩
  | cons c s ih =>
    obtain ⟨segments, hsegments, hglue⟩ := ih
    by_cases hc : isSeparator c = true
    · refine ⟨([], c) :: segments, List.forall_mem_cons.mpr ⟨⟨by simp, hc⟩, hsegments⟩, ?_⟩
      rw [glue_cons, hglue]
      rfl
    · cases segments with
      | nil => exact absurd hglue.symm (by simp [glue])
      | cons t rest =>
        obtain ⟨ht, hrest⟩ := List.forall_mem_cons.mp hsegments
        refine ⟨(c :: t.1, t.2) :: rest, List.forall_mem_cons.mpr ⟨⟨?_, ht.2⟩, hrest⟩, ?_⟩
        · exact List.forall_mem_cons.mpr ⟨Bool.eq_false_iff.mpr hc, ht.1⟩
        · rw [glue_cons] at hglue ⊢
          rw [List.cons_append, hglue]
          rfl

theorem glue_append (xs ys : List Segment) : glue (xs ++ ys) = glue xs ++ glue ys :=
  List.flatMap_append

/-- The segments in front of a segment of the path. -/
def segmentsOf (front : Text) : List Segment := (front.splitOn '/').map fun x => (x, '/')

theorem segmentsOf_slash (s : Text) : segmentsOf ('/' :: s) = ([], '/') :: segmentsOf s := by
  rw [segmentsOf, List.splitOn_eq_splitOnP, List.splitOnP_cons_eq_if_modifyHead]
  rfl

theorem segmentsOf_cons {c : Char} (hc : c ≠ '/') (s : Text) : ∃ t rest,
    segmentsOf s = (t, '/') :: rest ∧ segmentsOf (c :: s) = (c :: t, '/') :: rest := by
  have hno : ¬ (c == '/') = true := by simpa using hc
  rw [segmentsOf, segmentsOf, List.splitOn_eq_splitOnP, List.splitOn_eq_splitOnP,
    List.splitOnP_cons_eq_if_modifyHead, if_neg hno]
  cases hsplit : s.splitOnP (· == '/') with
  | nil => exact absurd hsplit (List.splitOnP_ne_nil _ _)
  | cons t rest => exact ⟨t, _, rfl, rfl⟩

theorem glue_segmentsOf (front : Text) : glue (segmentsOf front) = front ++ ['/'] := by
  induction front with
  | nil => rfl
  | cons c front ih =>
    by_cases hc : c = '/'
    · rw [hc, segmentsOf_slash, glue_cons, ih]
      rfl
    · obtain ⟨t, rest, hfront, hcons⟩ := segmentsOf_cons hc front
      rw [hfront, glue_cons] at ih
      rw [hcons, glue_cons, List.cons_append, ih]
      rfl

theorem isSegment_segmentsOf {front : Text} (h : ∀ c ∈ front, inPath c = true) :
    ∀ s ∈ segmentsOf front, IsSegment s := by
  induction front with
  | nil => exact List.forall_mem_singleton.mpr ⟨nofun, rfl⟩
  | cons c front ih =>
    rw [List.forall_mem_cons] at h
    by_cases hc : c = '/'
    · rw [hc, segmentsOf_slash]
      exact List.forall_mem_cons.mpr ⟨⟨nofun, rfl⟩, ih h.2⟩
    · obtain ⟨t, rest, hfront, hcons⟩ := segmentsOf_cons hc front
      have hall := ih h.2
      rw [hfront, List.forall_mem_cons] at hall
      rw [hcons]
      refine List.forall_mem_cons.mpr ⟨⟨List.forall_mem_cons.mpr ⟨?_, hall.1.1⟩, rfl⟩, hall.2⟩
      have hin := h.1
      simp only [inPath, Bool.and_eq_true, decide_eq_true_eq] at hin
      simp [isSeparator, hc, hin.1, hin.2]

theorem frontOf_segmentsOf (front : Text) :
    Imports.PathTemplate.frontOf (segmentsOf front) = segmentsOf front := by
  rw [segmentsOf]
  induction front.splitOn '/' with
  | nil => rfl
  | cons x rest ih => rw [List.map_cons, Imports.PathTemplate.frontOf, if_pos rfl, ih]

/-- A segment ends in a name that is found in the text. -/
theorem mem_of_endsIn {front : Text} (h : ∀ c ∈ front, inPath c = true) (hname : IsIdentifier name)
    (hs : s ∈ segmentsOf front) (hends : EndsIn name s.1) : name ∈ paramMatches front := by
  have hmatches := Imports.PathTemplate.paramMatches_glue (isSegment_segmentsOf h)
  rw [glue_segmentsOf, Imports.PathTemplate.paramMatches_end, List.takeWhile_eq_self_iff.mpr h,
    frontOf_segmentsOf] at hmatches
  rw [hmatches, List.mem_flatMap]
  refine ⟨s, hs, ?_⟩
  obtain ⟨z, hz⟩ := hends
  have hplace : paramMatches (z ++ ':' :: name ++ []) = paramMatches z ++ name :: paramMatches [] :=
    paramMatches_place hname z rfl
  rw [List.append_nil] at hplace
  rw [← hz, hplace]
  simp

theorem isName_of_identifier (h : IsIdentifier name) : IsName name := h.2

theorem runAll_glue {steps : List (Text × Text)} (hnames : ∀ e ∈ steps, IsIdentifier e.1)
    (hvalues : ∀ e ∈ steps, IsValue e.2) (h : ∀ s ∈ segments, IsSegment s) :
    webRun steps (glue segments) = glue (runAll steps segments) ∧
      ∀ s ∈ runAll steps segments, IsSegment s := by
  induction steps generalizing segments with
  | nil => exact ⟨rfl, h⟩
  | cons e steps ih =>
    rw [List.forall_mem_cons] at hnames hvalues
    rw [webRun_cons, Send.replaceFirstParam_glue (isName_of_identifier hnames.1) h]
    exact ih hnames.2 hvalues.2 (Send.isSegment_replaceSegment hvalues.1 h)

theorem webRun_end {steps : List (Text × Text)} (hnames : ∀ e ∈ steps, IsIdentifier e.1)
    (s : Text) : webRun steps (s ++ ['/']) = webRun steps s ++ ['/'] := by
  induction steps generalizing s with
  | nil => rfl
  | cons e steps ih =>
    rw [List.forall_mem_cons] at hnames
    rw [webRun_cons, Send.replaceFirstParam_end (isName_of_identifier hnames.1), ih hnames.2]
    rfl

theorem webRun_of_glue {steps : List (Text × Text)} (hnames : ∀ e ∈ steps, IsIdentifier e.1)
    (hvalues : ∀ e ∈ steps, IsValue e.2) (h : ∀ s ∈ segments, IsSegment s) {t : Text}
    (ht : t ++ ['/'] = glue segments) :
    webRun steps t ++ ['/'] = glue (runAll steps segments) := by
  rw [← webRun_end hnames, ht]
  exact (runAll_glue hnames hvalues h).1

theorem forall_insert {P : Text × Text → Prop} {pre post : List (Text × Text)} {a : Text × Text}
    (h : ∀ e ∈ pre ++ post, P e) (ha : P a) : ∀ e ∈ pre ++ a :: post, P e := by
  intro e he
  rcases List.mem_append.mp he with he | he
  · exact h e (List.mem_append_left _ he)
  rcases List.mem_cons.mp he with rfl | he
  · exact ha
  · exact h e (List.mem_append_right _ he)

/-- A text with one segment left open. -/
theorem exists_place (front : Text) {tail : Text} (htail : isSegmentEnd tail = true) :
    ∃ c after, (isSeparator c = true ∧ ∀ s ∈ after, IsSegment s) ∧ ∀ x : Text,
      front ++ '/' :: (x ++ tail) ++ ['/'] = glue (segmentsOf front ++ (x, c) :: after) := by
  obtain ⟨segments, hsegments, hglue⟩ := exists_glue tail
  cases segments with
  | nil => exact absurd hglue (by simp [glue])
  | cons t after =>
    obtain ⟨ht, hafter⟩ := List.forall_mem_cons.mp hsegments
    have hempty : t.1 = [] := by
      cases hx : t.1 with
      | nil => rfl
      | cons d x =>
        have hd := ht.1 d (by rw [hx]; exact List.mem_cons_self)
        rw [glue_cons, hx] at hglue
        cases tail with
        | nil =>
          obtain rfl : d = '/' := (List.cons.inj hglue).1
          cases hd
        | cons e tail =>
          obtain rfl : d = e := (List.cons.inj hglue).1
          have hsep : isSeparator d = true := htail
          rw [hsep] at hd
          cases hd
    refine ⟨t.2, after, ⟨ht.2, hafter⟩, fun x => ?_⟩
    rw [glue_cons, hempty, List.nil_append] at hglue
    rw [glue_append, glue_segmentsOf, glue_cons, hglue]
    simp

/-! ## URLs that start with a template -/

/-- The parameter is one segment of the path and stands nowhere else, no pair of slashes is in
the URL without it, and no value in front of it can make up a name at the end of a segment. -/
def StandsAlone (name url : Text) : Prop :=
  ∃ front back, OnlySegment name url front back ∧
    (∀ b a, ¬ IsMatch (paramPart name) (restOf url) b a) ∧
    ¬ ['/', '/'] <:+: front ++ back ++ restOf url ∧
    ∀ other, IsIdentifier other → Untangled other (segmentsOf front)

variable {parser : UrlParser} {url newName : Text}

theorem extract_template (h : url.head? = some '\x7b') :
    extractPathParams parser.pathname url = paramMatches (pathOf url) := by
  rw [extractPathParams, parser.template url h, Imports.PathTemplate.takeWhile_inPath]
  rfl

theorem head?_renamed (h : url.head? = some '\x7b') :
    (renameInUrl name newName url).head? = some '\x7b' := by
  cases url with
  | nil => cases h
  | cons c url =>
    obtain rfl := Option.some.inj h
    have hno : ¬ ((':' :: name) <+: '\x7b' :: url ∧
        isSegmentEnd (url.drop name.length) = true) := by
      rintro ⟨⟨u, hu⟩, -⟩
      exact absurd (List.cons.inj hu).1 (by decide)
    rw [renameInUrl, replaceFirstParam, if_neg hno]
    rfl

/-- A new name is at hand, also one that starts in a given way. -/
theorem exists_fresh {w : Text} (hw : w = [] ∨ IsIdentifier w) (names : List Text) :
    ∃ m, IsIdentifier (w ++ List.replicate (m + 1) 'x') ∧
      w ++ List.replicate (m + 1) 'x' ∉ names := by
  refine ⟨(names.map List.length).sum, ?_, fun hmem => ?_⟩
  · have hword : ∀ c ∈ List.replicate ((names.map List.length).sum + 1) 'x',
        isWordChar c = true := by
      intro c hc
      rw [List.eq_of_mem_replicate hc]
      rfl
    rcases hw with rfl | hw
    · exact ⟨rfl, hword⟩
    · refine ⟨?_, fun c hc => (List.mem_append.mp hc).elim (hw.2 c) (hword c)⟩
      cases w with
      | nil => cases hw.1
      | cons c w => exact hw.1
  · have hle : (w ++ List.replicate ((names.map List.length).sum + 1) 'x').length ≤
        (names.map List.length).sum :=
      List.single_le_sum (fun _ _ => Nat.zero_le _) _ (List.mem_map_of_mem hmem)
    rw [List.length_append, List.length_replicate] at hle
    omega

/-- Renaming changes one name of the path, or none. -/
theorem pathOf_renamed (hname : IsIdentifier name) (hnew : IsIdentifier newName) (url : Text) :
    pathOf (renameInUrl name newName url) = pathOf url ∨
      ∃ front back, pathOf url = front ++ ':' :: name ++ back ∧ isSegmentEnd back = true ∧
        pathOf (renameInUrl name newName url) = front ++ ':' :: newName ++ back := by
  have hin : ∀ x, IsIdentifier x → ∀ c ∈ ':' :: x, inPath c = true := fun x hx =>
    List.forall_mem_cons.mpr ⟨rfl, inPath_name hx⟩
  rcases Send.replaceFirstParam_cases name (':' :: newName) url with
    hsame | ⟨before, after, hsplit, hend, hreplaced⟩
  · exact .inl (by rw [renameInUrl, hsame])
  · rw [← List.cons_append, ← List.append_assoc] at hsplit
    rw [renameInUrl, hreplaced]
    have hpath := inPath_pathOf url
    rw [← path_append_rest url] at hsplit
    rcases match_split (hin name hname) (List.cons_ne_nil _ _) (head?_restOf url) hsplit.symm with
      ⟨a', hfront, rfl⟩ | ⟨b', rfl, hrest⟩
    · refine .inr ⟨before, a', hfront, segmentEnd_of_append hend, ?_⟩
      rw [← List.append_assoc]
      refine (pathOf_append (fun c hc => ?_) (head?_restOf url)).1
      rw [hfront] at hpath
      rcases List.mem_append.mp hc with hc | hc
      · rcases List.mem_append.mp hc with hc | hc
        · exact hpath c (by simp [hc])
        · exact hin newName hnew c hc
      · exact hpath c (by simp [hc])
    · left
      have hhead := head?_restOf url
      rw [hrest] at hhead
      cases b' with
      | nil => cases hhead
      | cons c b' =>
        have hhead' : (c :: b' ++ (':' :: newName ++ after)).head?.any inPath = false := hhead
        rw [List.append_assoc, List.append_assoc]
        exact (pathOf_append hpath hhead').1

theorem not_mem_renamed {names : List Text} (hne : newName ≠ name) :
    name ∉ names.map fun n => if n = name then newName else n := by
  intro hmem
  obtain ⟨n, -, hn⟩ := List.mem_map.mp hmem
  split_ifs at hn with hsame
  · exact hne hn
  · exact hsame hn

/-- Where renaming changes all the names, the old one stood once at the end of a segment. -/
theorem once_of_renames (hname : IsIdentifier name) (hnew : IsIdentifier newName)
    (hne : newName ≠ name) (hmem : name ∈ paramMatches (pathOf url))
    (h : paramMatches (pathOf (renameInUrl name newName url)) =
      (paramMatches (pathOf url)).map fun n => if n = name then newName else n) :
    ∃ front back, pathOf url = front ++ ':' :: name ++ back ∧ isSegmentEnd back = true ∧
      name ∉ paramMatches front ∧ name ∉ paramMatches back := by
  have hgone := @not_mem_renamed name newName (paramMatches (pathOf url)) hne
  rcases pathOf_renamed hname hnew url with hsame | ⟨front, back, hpath, hend, hrenamed⟩
  · rw [hsame] at h
    rw [← h] at hgone
    exact absurd hmem hgone
  · rw [hrenamed, paramMatches_place hnew front hend] at h
    rw [← h, List.mem_append, List.mem_cons, not_or, not_or] at hgone
    exact ⟨front, back, hpath, hend, hgone.1, hgone.2.2⟩

theorem onlySegment_of_edits (hstart : url.head? = some '\x7b')
    (hmem : name ∈ extractPathParams parser.pathname url) (h : EditsAlone parser name url) :
    ∃ front back, OnlySegment name url front back := by
  have hname : IsIdentifier name := Send.name_of_mem hmem
  obtain ⟨m, hnew, hfresh⟩ := exists_fresh (.inl rfl) (extractPathParams parser.pathname url)
  have hrenames := h.renames _ hnew hfresh
  have hloses := h.loses
  have hne : [] ++ List.replicate (m + 1) 'x' ≠ name := fun heq => hfresh (heq ▸ hmem)
  rw [extract_template hstart] at hmem hrenames hloses
  rw [extract_template (head?_renamed hstart)] at hrenames
  rw [extract_template (head?_removed hstart)] at hloses
  obtain ⟨front, back, hpath, hend, hfront, hback⟩ :=
    once_of_renames hname hnew hne hmem hrenames
  by_cases hsegment : ∃ b a, IsMatch (paramPart name) (pathOf url) b a
  · obtain ⟨b, a, hb, ha⟩ := hsegment
    have hcount : (paramMatches (pathOf url)).count name = 1 := by
      rw [hpath, paramMatches_place hname front hend, List.count_append, List.count_cons_self,
        List.count_eq_zero.mpr hfront, List.count_eq_zero.mpr hback]
    rw [hb, paramMatches_segment hname b ha, List.count_append, List.count_cons_self] at hcount
    exact ⟨b, a, hb, ha, List.count_eq_zero.mp (by omega), List.count_eq_zero.mp (by omega)⟩
  · rw [paramMatches_removed hname hstart fun b a hmatch => hsegment ⟨b, a, hmatch⟩] at hloses
    rw [hloses] at hmem
    exact absurd rfl (of_decide_eq_true (List.mem_filter.mp hmem).2)

/-! ## Renaming the only segment -/

section
variable {front back : Text}

theorem OnlySegment.head?_front (h : OnlySegment name url front back)
    (hstart : url.head? = some '\x7b') : front.head? = some '\x7b' := by
  rw [h.url] at hstart
  cases front with
  | nil => cases hstart
  | cons c front => exact hstart

theorem OnlySegment.endsRest (h : OnlySegment name url front back) :
    isSegmentEnd (back ++ restOf url) = true :=
  segmentEnd_append h.ends (segmentEnd_of_rest (head?_restOf url))

theorem OnlySegment.not_endsIn (h : OnlySegment name url front back) (hname : IsIdentifier name) :
    ∀ s ∈ segmentsOf front, ¬ EndsIn name s.1 := fun _ hs hends =>
  h.before (mem_of_endsIn (fun c hc => h.all_inPath c (List.mem_append_left _ hc)) hname hs hends)

theorem OnlySegment.url_end (h : OnlySegment name url front back) :
    url ++ ['/'] = front ++ '/' :: (':' :: name ++ (back ++ restOf url)) ++ ['/'] := by
  conv_lhs => rw [h.url]
  simp [paramPart]

theorem OnlySegment.isSegment_place (h : OnlySegment name url front back) {x : Text}
    (hx : IsIdentifier x) {c : Char} (hc : isSeparator c = true)
    (hafter : ∀ s ∈ after, IsSegment s) :
    ∀ s ∈ segmentsOf front ++ (':' :: x, c) :: after, IsSegment s := by
  have hin : ∀ c ∈ front, inPath c = true := fun c hc => h.all_inPath c (List.mem_append_left _ hc)
  intro s hs
  rcases List.mem_append.mp hs with hs | hs
  · exact isSegment_segmentsOf hin s hs
  rcases List.mem_cons.mp hs with rfl | hs
  · refine ⟨List.forall_mem_cons.mpr ⟨rfl, fun d hd => ?_⟩, hc⟩
    by_contra hsep
    exact (isName_of_identifier hx).separator_not_mem (by simpa using hsep) hd
  · exact hafter s hs

theorem OnlySegment.renamed (h : OnlySegment name url front back) (hname : IsIdentifier name)
    (newName : Text) :
    renameInUrl name newName url = front ++ paramPart newName ++ (back ++ restOf url) := by
  obtain ⟨c, after, ⟨hc, hafter⟩, hglue⟩ := exists_place front h.endsRest
  have hsegments := h.isSegment_place hname hc hafter
  have hend := @Send.replaceFirstParam_end name (':' :: newName) (isName_of_identifier hname) url
  rw [h.url_end, hglue, Send.replaceFirstParam_glue (isName_of_identifier hname) hsegments,
    replaceSegment_place (h.not_endsIn hname), ← hglue] at hend
  rw [renameInUrl, ← List.append_cancel_right hend]
  simp [paramPart]

/-- The segments of the URL, before and after the renaming. -/
theorem OnlySegment.exists_segments (h : OnlySegment name url front back)
    (hname : IsIdentifier name) : ∃ c after, (∀ x, IsIdentifier x →
      ∀ s ∈ segmentsOf front ++ (':' :: x, c) :: after, IsSegment s) ∧
      url ++ ['/'] = glue (segmentsOf front ++ (':' :: name, c) :: after) ∧
      ∀ newName, renameInUrl name newName url ++ ['/'] =
        glue (segmentsOf front ++ (':' :: newName, c) :: after) := by
  obtain ⟨c, after, ⟨hc, hafter⟩, hglue⟩ := exists_place front h.endsRest
  refine ⟨c, after, fun x hx => h.isSegment_place hx hc hafter, ?_, fun newName => ?_⟩
  · rw [h.url_end, hglue]
  · rw [← hglue, h.renamed hname]
    simp [paramPart]

theorem OnlySegment.names (h : OnlySegment name url front back) (hname : IsIdentifier name) :
    paramMatches (pathOf url) = paramMatches front ++ name :: paramMatches back := by
  rw [h.path, paramMatches_segment hname front h.ends]

theorem OnlySegment.renames (h : OnlySegment name url front back) (hname : IsIdentifier name)
    (hnew : IsIdentifier newName) :
    paramMatches (pathOf (renameInUrl name newName url)) =
      (paramMatches (pathOf url)).map fun n => if n = name then newName else n := by
  have hin : ∀ c ∈ front ++ paramPart newName ++ back, inPath c = true := by
    intro c hc
    rcases List.mem_append.mp hc with hc | hc
    · rcases List.mem_append.mp hc with hc | hc
      · exact h.all_inPath c (List.mem_append_left _ hc)
      · exact inPath_paramPart hnew c hc
    · exact h.all_inPath c (List.mem_append_right _ hc)
  have hkept : ∀ names : List Text, name ∉ names →
      (names.map fun n => if n = name then newName else n) = names := by
    intro names hno
    refine (List.map_congr_left fun n hn => ?_).trans (List.map_id names)
    have hne : n ≠ name := fun heq => hno (heq ▸ hn)
    exact if_neg hne
  rw [h.renamed hname, ← List.append_assoc, (pathOf_append hin (head?_restOf url)).1,
    paramMatches_segment hnew front h.ends, h.names hname, List.map_append, List.map_cons,
    if_pos rfl, hkept _ h.before, hkept _ h.behind]

theorem OnlySegment.loses (h : OnlySegment name url front back) (hname : IsIdentifier name) :
    paramMatches (pathOf (dropSegments name url)) =
      (paramMatches (pathOf url)).filter (· ≠ name) := by
  have hkept : ∀ names : List Text, name ∉ names → names.filter (· ≠ name) = names := by
    intro names hno
    exact List.filter_eq_self.mpr fun n hn => decide_eq_true fun heq => hno (heq ▸ hn)
  have hgone : (name :: paramMatches back).filter (· ≠ name) =
      (paramMatches back).filter (· ≠ name) := List.filter_cons_of_neg (by simp)
  rw [h.dropped hname, (pathOf_append h.all_inPath (head?_restOf url)).1, h.names hname,
    Imports.PathTemplate.paramMatches_append front (head?_of_segmentEnd h.ends),
    List.filter_append, hgone, hkept _ h.before, hkept _ h.behind]

/-- In front of the segment nothing can be completed, so the values land in the same places. -/
theorem OnlySegment.resolves (h : OnlySegment name url front back) (hname : IsIdentifier name)
    (huntangled : ∀ other, IsIdentifier other → Untangled other (segmentsOf front))
    (hnew : IsIdentifier newName) (hfresh : newName ∉ paramMatches (pathOf url))
    {pre post : List (Text × Text)} {u : Text} (hsteps : Steps (pre ++ post))
    (hno : name ∉ (pre ++ post).map Prod.fst) (hnoNew : newName ∉ (pre ++ post).map Prod.fst)
    (hu : IsValue u) :
    webRun (pre ++ post ++ [(newName, u)]) (renameInUrl name newName url) =
      webRun (pre ++ (name, u) :: post) url := by
  obtain ⟨c, after, hsegments, hold, hrenamed⟩ := h.exists_segments hname
  have hall : ∀ e ∈ pre ++ post, Untangled e.1 (segmentsOf front) := fun e he =>
    huntangled e.1 (hsteps.names e he)
  have hfreshFront : ∀ s ∈ segmentsOf front, ¬ EndsIn newName s.1 := by
    intro s hs hends
    have hmem := mem_of_endsIn (fun c hc => h.all_inPath c (List.mem_append_left _ hc)) hnew hs
      hends
    rw [h.names hname] at hfresh
    exact hfresh (List.mem_append_left _ hmem)
  have hrunOld := @runAll_place name (segmentsOf front) after pre post u c hsteps hname hno hu hall
    (h.not_endsIn hname)
  have hrunNew := @runAll_place newName (segmentsOf front) after (pre ++ post) [] u c
    (by rwa [List.append_nil]) hnew (by rwa [List.append_nil]) hu (by rwa [List.append_nil])
    hfreshFront
  rw [List.append_nil] at hrunNew
  have hlast : ∀ {P : Text × Text → Prop}, (∀ e ∈ pre ++ post, P e) → P (newName, u) →
      ∀ e ∈ pre ++ post ++ [(newName, u)], P e := fun hall hu =>
    forall_insert (by rwa [List.append_nil]) hu
  have hnames : ∀ e ∈ pre ++ (name, u) :: post, IsIdentifier e.1 :=
    forall_insert hsteps.names hname
  have hvalues : ∀ e ∈ pre ++ (name, u) :: post, IsValue e.2 := forall_insert hsteps.values hu
  have hnamesNew : ∀ e ∈ pre ++ post ++ [(newName, u)], IsIdentifier e.1 :=
    hlast hsteps.names hnew
  have hvaluesNew : ∀ e ∈ pre ++ post ++ [(newName, u)], IsValue e.2 := hlast hsteps.values hu
  have hendOld := webRun_of_glue hnames hvalues (hsegments name hname) hold
  have hendNew := webRun_of_glue hnamesNew hvaluesNew (hsegments newName hnew) (hrenamed newName)
  rw [hrunOld] at hendOld
  rw [hrunNew] at hendNew
  exact List.append_cancel_right (hendNew.trans hendOld.symm)

/-- A value that completes a new name in front of the segment takes its place. -/
theorem OnlySegment.untangled (h : OnlySegment name url front back) (hname : IsIdentifier name)
    (hresolves : ∀ newName other m, IsIdentifier newName → newName ∉ paramMatches (pathOf url) →
      IsIdentifier other → other ≠ name → other ≠ newName →
        webRun [(other, List.replicate m 'x'), (newName, ['-'])] (renameInUrl name newName url) =
          webRun [(other, List.replicate m 'x'), (name, ['-'])] url) :
    ∀ other, IsIdentifier other → Untangled other (segmentsOf front) := by
  rintro other hother s hfind z hz ⟨y, w, rfl, hw⟩
  obtain ⟨hends, hsplit⟩ := List.find?_eq_some_iff_append.mp hfind
  obtain ⟨first, later, hsegments, hfirst⟩ := hsplit
  have hin : ∀ c ∈ front, inPath c = true := fun c hc => h.all_inPath c (List.mem_append_left _ hc)
  have hmem : ∀ t ∈ segmentsOf front, ∀ q, IsIdentifier q → EndsIn q t.1 →
      q ∈ paramMatches (pathOf url) ∧ q ≠ name := by
    intro t ht q hq hends
    have hq' := mem_of_endsIn hin hq ht hends
    refine ⟨by rw [h.names hname]; exact List.mem_append_left _ hq', ?_⟩
    rintro rfl
    exact h.before hq'
  obtain ⟨m, hnew, hfresh⟩ := exists_fresh hw (paramMatches (pathOf url))
  have hs : s ∈ segmentsOf front := List.mem_of_find?_eq_some hfind
  obtain ⟨hfound, hne⟩ := hmem s hs other hother (of_decide_eq_true hends)
  have hneNew : other ≠ w ++ List.replicate (m + 1) 'x' := fun heq => hfresh (heq ▸ hfound)
  have hequal := hresolves _ other (m + 1) hnew hfresh hother hne hneNew
  generalize hvalue : List.replicate (m + 1) 'x' = v at hnew hfresh hneNew hequal
  have hv : IsValue v ∧ IsValue ['-'] := by
    refine ⟨fun c hc => ?_, List.forall_mem_singleton.mpr (by decide)⟩
    rw [← hvalue] at hc
    rw [List.eq_of_mem_replicate hc]
    decide
  obtain ⟨c, after, hall, hold, hrenamed⟩ := h.exists_segments hname
  have hs' : s = (y ++ ':' :: w ++ ':' :: other, s.2) := Prod.ext hz rfl
  have hnotother : ∀ t ∈ first, ¬ EndsIn other t.1 := fun t ht => by simpa using hfirst t ht
  have hstep : ∀ x, replaceSegment other v (segmentsOf front ++ (':' :: x, c) :: after) =
      first ++ (y ++ ':' :: (w ++ v), s.2) :: (later ++ (':' :: x, c) :: after) := by
    intro x
    rw [hsegments, hs', List.append_assoc, List.cons_append, replaceSegment_first hnotother]
    simp
  -- the run with the old name goes on behind the completed segment
  have hrunOld : runAll [(other, v), (name, ['-'])]
      (segmentsOf front ++ (':' :: name, c) :: after) =
        first ++ (y ++ ':' :: (w ++ v), s.2) :: (later ++ (['-'], c) :: after) := by
    have hno : ∀ t ∈ first ++ (y ++ ':' :: (w ++ v), s.2) :: later, ¬ EndsIn name t.1 := by
      intro t ht hends
      rcases List.mem_append.mp ht with ht | ht
      · exact (hmem t (hsegments ▸ List.mem_append_left _ ht) name hname hends).2 rfl
      rcases List.mem_cons.mp ht with rfl | ht
      · obtain ⟨x, hx⟩ := hends
        have heq := (Send.colon_split (colon_not_mem_name hname) (colon_not_mem_name hnew) hx).2
        refine hfresh (heq ▸ ?_)
        rw [h.names hname]
        simp
      · exact (hmem t (hsegments ▸ by simp [ht]) name hname hends).2 rfl
    have hplace := @replaceSegment_place name ['-'] _ after c hno
    rw [List.append_assoc, List.append_assoc] at hplace
    change replaceSegment name ['-'] (replaceSegment other v _) = _
    rw [hstep]
    exact hplace
  -- the run with the new name stops there
  have hrunNew : runAll [(other, v), (w ++ v, ['-'])]
      (segmentsOf front ++ (':' :: (w ++ v), c) :: after) =
        first ++ (y ++ ['-'], s.2) :: (later ++ (':' :: (w ++ v), c) :: after) := by
    have hno : ∀ t ∈ first, ¬ EndsIn (w ++ v) t.1 := fun t ht hends =>
      hfresh (hmem t (hsegments ▸ List.mem_append_left _ ht) _ hnew hends).1
    change replaceSegment (w ++ v) ['-'] (replaceSegment other v _) = _
    rw [hstep, replaceSegment_first hno]
  have hnames : ∀ x, IsIdentifier x → ∀ e ∈ [(other, v), (x, ['-'])], IsIdentifier e.1 :=
    fun x hx => List.forall_mem_cons.mpr ⟨hother, List.forall_mem_singleton.mpr hx⟩
  have hvalues : ∀ x : Text, ∀ e ∈ [(other, v), (x, ['-'])], IsValue e.2 :=
    fun x => List.forall_mem_cons.mpr ⟨hv.1, List.forall_mem_singleton.mpr hv.2⟩
  have hglueOld := webRun_of_glue (hnames name hname) (hvalues name) (hall name hname) hold
  have hglueNew := webRun_of_glue (hnames _ hnew) (hvalues _) (hall _ hnew) (hrenamed (w ++ v))
  have hlists := Send.glue_injective (runAll_glue (hnames _ hnew) (hvalues _) (hall _ hnew)).2
    (runAll_glue (hnames name hname) (hvalues name) (hall name hname)).2
    (hglueNew.symm.trans ((congrArg (· ++ ['/']) hequal).trans hglueOld))
  rw [hrunOld, hrunNew, List.append_cancel_left_eq] at hlists
  have htexts := List.append_cancel_left (Prod.mk.inj (List.cons.inj hlists).1).1
  exact absurd (List.cons.inj htexts).1 (by decide)

end

/-! ## The edits of a URL -/

theorem steps_encode {values : List (Text × Text)} (hnodup : (values.map Prod.fst).Nodup)
    (hnames : ∀ e ∈ values, IsIdentifier e.1) : Steps (values.map encodeStep) where
  nodup := by
    rw [List.map_map]
    exact hnodup
  names := List.forall_mem_map.mpr hnames
  values := List.forall_mem_map.mpr fun e _ => isValue_encode e.2

theorem exists_split {values : List (Text × Text)} (hnodup : (values.map Prod.fst).Nodup)
    (hmem : name ∈ values.map Prod.fst) (newName : Text) :
    ∃ pre u post, values = pre ++ (name, u) :: post ∧ name ∉ (pre ++ post).map Prod.fst ∧
      renameInValues name newName values = pre ++ post ++ [(newName, u)] := by
  obtain ⟨⟨key, u⟩, he, hkey⟩ := List.mem_map.mp hmem
  obtain rfl : name = key := hkey.symm
  obtain ⟨pre, post, rfl⟩ := List.append_of_mem he
  have hno : ∀ e ∈ pre ++ post, e.1 ≠ name := by
    rw [List.map_append, List.map_cons, List.nodup_middle, List.nodup_cons, ← List.map_append]
      at hnodup
    exact fun e he heq => hnodup.1 (List.mem_map.mpr ⟨e, he, heq⟩)
  have hkept : (pre ++ (name, u) :: post).filter (fun e => e.1 ≠ name) = pre ++ post := by
    rw [List.filter_append, List.filter_cons_of_neg (by simp), ← List.filter_append]
    exact List.filter_eq_self.mpr fun e he => decide_eq_true (hno e he)
  have hvalue : (pre ++ (name, u) :: post).lookup name = some u :=
    List.lookup_eq_some_iff.mpr ⟨pre, post, rfl, fun e he =>
      bne_iff_ne.mpr (hno e (List.mem_append_left _ he)).symm⟩
  refine ⟨pre, u, post, rfl, fun hmem => ?_, by rw [renameInValues, hkept, hvalue]; rfl⟩
  obtain ⟨e, he, heq⟩ := List.mem_map.mp hmem
  exact hno e he heq

theorem edits_of_stands (hstart : url.head? = some '\x7b')
    (hmem : name ∈ extractPathParams parser.pathname url) (h : StandsAlone name url) :
    EditsAlone parser name url := by
  have hname : IsIdentifier name := Send.name_of_mem hmem
  obtain ⟨front, back, honly, hrest, hpair, huntangled⟩ := h
  have hremoves := (honly.removes_iff hname (honly.head?_front hstart)).mpr ⟨hrest, hpair⟩
  have hrenames : ∀ newName, IsIdentifier newName →
      extractPathParams parser.pathname (renameInUrl name newName url) =
        (extractPathParams parser.pathname url).map fun n => if n = name then newName else n := by
    intro newName hnew
    rw [extract_template hstart, extract_template (head?_renamed hstart)]
    exact honly.renames hname hnew
  refine ⟨hremoves, ?_, fun newName hnew _ => hrenames newName hnew, ?_⟩
  · rw [extract_template (head?_removed hstart), extract_template hstart, hremoves]
    exact honly.loses hname
  · intro newName values query hnew hfresh hnodup hnames hvalue hnoNew hquery
    obtain ⟨pre, u, post, rfl, hno, hrenamed⟩ := exists_split hnodup hvalue newName
    have hsplit : (pre ++ post).map Prod.fst ⊆ (pre ++ (name, u) :: post).map Prod.fst :=
      List.map_subset _ fun e he => by
        rcases List.mem_append.mp he with he | he
        · exact List.mem_append_left _ he
        · exact List.mem_append_right _ (List.mem_cons_of_mem _ he)
    have hothers : ((pre ++ post).map Prod.fst).Nodup := by
      rw [List.map_append, List.map_cons, List.nodup_middle, List.nodup_cons, ← List.map_append]
        at hnodup
      exact hnodup.2
    have hsteps : Steps (pre.map encodeStep ++ post.map encodeStep) := by
      rw [← List.map_append]
      refine steps_encode hothers fun e he => ?_
      rcases List.mem_append.mp he with he | he
      · exact hnames e (List.mem_append_left _ he)
      · exact hnames e (List.mem_append_right _ (List.mem_cons_of_mem _ he))
    have hkeys : (pre.map encodeStep ++ post.map encodeStep).map Prod.fst =
        (pre ++ post).map Prod.fst := by
      rw [← List.map_append, List.map_map]
      rfl
    have hrun := honly.resolves hname huntangled hnew
      (by rwa [extract_template hstart] at hfresh) hsteps (hkeys ▸ hno)
      (hkeys ▸ fun hmem => hnoNew (hsplit hmem)) (isValue_encode u)
    rw [sentUrl, sentUrl, hrenamed]
    refine Prod.ext ?_ ?_
    · rw [List.map_append, List.map_append, List.map_append]
      exact hrun
    · refine List.filter_congr fun q hq => decide_eq_decide.mpr (not_congr ?_)
      obtain ⟨hqname, hqnew⟩ := hquery q hq
      rw [hrenames newName hnew, List.mem_map]
      constructor
      · rintro ⟨n, hn, heq⟩
        split_ifs at heq
        · exact absurd heq.symm hqnew
        · exact heq ▸ hn
      · exact fun hmem => ⟨q.1, hmem, if_neg hqname⟩

theorem stands_of_edits (hstart : url.head? = some '\x7b')
    (hmem : name ∈ extractPathParams parser.pathname url) (h : EditsAlone parser name url) :
    StandsAlone name url := by
  have hname : IsIdentifier name := Send.name_of_mem hmem
  obtain ⟨front, back, honly⟩ := onlySegment_of_edits hstart hmem h
  obtain ⟨hrest, hpair⟩ := (honly.removes_iff hname (honly.head?_front hstart)).mp h.removes
  refine ⟨front, back, honly, hrest, hpair, honly.untangled hname ?_⟩
  intro newName other m hnew hfresh hother hne hneNew
  have hneName : newName ≠ name := by
    rintro rfl
    rw [extract_template hstart] at hmem
    exact hfresh hmem
  have hresolves := h.resolves newName [(other, List.replicate m 'x'), (name, ['-'])] [] hnew
    (by rwa [extract_template hstart]) (by simp [hne])
    (List.forall_mem_cons.mpr ⟨hother, List.forall_mem_singleton.mpr hname⟩) (by simp)
    (by simp [hneNew.symm, hneName]) nofun
  have hplain : encodeURIComponent (List.replicate m 'x') = List.replicate m 'x' :=
    encodeURIComponent_of_unreserved fun c hc => by
      rw [List.eq_of_mem_replicate hc]
      rfl
  have hdash : encodeURIComponent ['-'] = ['-'] :=
    encodeURIComponent_of_unreserved (List.forall_mem_singleton.mpr rfl)
  have hvalues : renameInValues name newName [(other, List.replicate m 'x'), (name, ['-'])] =
      [(other, List.replicate m 'x'), (newName, ['-'])] := by
    simp [renameInValues, hne, List.lookup_cons, beq_eq_false_iff_ne.mpr hne.symm]
  have hruns := (Prod.mk.inj hresolves).1
  rw [hvalues, List.map_cons, List.map_cons, List.map_cons, List.map_cons, List.map_nil, encodeStep,
    encodeStep, encodeStep, hplain, hdash] at hruns
  exact hruns

theorem paramMatches_of_no_colon {t : Text} (h : ':' ∉ t) : paramMatches t = [] := by
  induction t with
  | nil => rfl
  | cons c t ih =>
    rw [List.mem_cons, not_or] at h
    rw [paramMatches, if_neg fun hmatch => h.1 hmatch.1.symm, ih h.2]

/-- The names of a URL whose path is two parameters behind an empty authority. -/
theorem extract_twice {scheme x y tail : Text} (hscheme : IsScheme scheme) (hx : IsIdentifier x)
    (hy : IsIdentifier y) (htail : tail.head?.any inPath = false) :
    extractPathParams parser.pathname (origin scheme ++ (paramPart x ++ paramPart y ++ tail)) =
      [x, y] := by
  have hparts : ∀ front : Text,
      paramMatches (front ++ (paramPart x ++ paramPart y)) = paramMatches front ++ [x, y] := by
    intro front
    have hlast : paramMatches ([] ++ paramPart y ++ []) = paramMatches [] ++ y :: paramMatches [] :=
      paramMatches_segment hy [] rfl
    rw [List.nil_append, List.append_nil] at hlast
    rw [← List.append_assoc, paramMatches_segment hx front rfl, hlast]
    rfl
  rcases parser.segments scheme x y tail hscheme hx hy htail with hnone | hsome
  · have horigin : paramMatches (origin scheme) = [] := by
      have hcolon : ':' ∉ scheme := fun hmem => absurd (hscheme.2 ':' hmem) (by decide)
      rw [origin, Imports.PathTemplate.paramMatches_append scheme rfl,
        paramMatches_of_no_colon hcolon]
      rfl
    have hpath : pathOf (origin scheme ++ (paramPart x ++ paramPart y ++ tail)) =
        origin scheme ++ (paramPart x ++ paramPart y) := by
      rw [← List.append_assoc]
      refine (pathOf_append (fun c hc => ?_) htail).1
      rcases List.mem_append.mp hc with hc | hc
      · exact inPath_origin hscheme c hc
      rcases List.mem_append.mp hc with hc | hc
      · exact inPath_paramPart hx c hc
      · exact inPath_paramPart hy c hc
    rw [extractPathParams, hnone, Imports.PathTemplate.takeWhile_inPath]
    change paramMatches (pathOf _) = _
    rw [hpath, hparts, horigin]
    rfl
  · rw [extractPathParams, hsome]
    exact hparts []

/-- Only the first of the two is renamed. -/
theorem renamed_twice {scheme tail : Text} (hname : IsIdentifier name)
    (hscheme : IsScheme scheme) (newName : Text) :
    renameInUrl name newName (origin scheme ++ (paramPart name ++ paramPart name ++ tail)) =
      origin scheme ++ (paramPart newName ++ paramPart name ++ tail) := by
  have hsegment : ∀ (x rest : Text), (∀ d ∈ x, isSeparator d = false) →
      replaceFirstParam name (':' :: newName) (x ++ '/' :: rest) =
        if EndsIn name x then x.rdrop (name.length + 1) ++ ':' :: newName ++ '/' :: rest
        else x ++ '/' :: replaceFirstParam name (':' :: newName) rest := fun x rest hx =>
    Send.replaceFirstParam_segment (isName_of_identifier hname) hx rfl
  have hempty : ∀ rest, replaceFirstParam name (':' :: newName) ('/' :: rest) =
      '/' :: replaceFirstParam name (':' :: newName) rest := by
    intro rest
    have hno : ¬ EndsIn name [] := by simp [EndsIn]
    have h := hsegment [] rest (by simp)
    rwa [if_neg hno] at h
  have hscheme' : ∀ d ∈ scheme ++ [':'], isSeparator d = false := by
    intro d hd
    rcases List.mem_append.mp hd with hd | hd
    · by_contra hsep
      simp only [isSeparator, Bool.not_eq_false, Bool.or_eq_true, beq_iff_eq] at hsep
      have hkept := hscheme.2 d hd
      rcases hsep with (rfl | rfl) | rfl <;> cases hkept
    · rw [List.mem_singleton.mp hd]
      rfl
  have hnot : ¬ EndsIn name (scheme ++ [':']) := by
    rintro ⟨z, hz⟩
    have hempty := (Send.colon_split (colon_not_mem_name hname) List.not_mem_nil hz).2
    rw [hempty] at hname
    cases hname.1
  have hends : EndsIn name (':' :: name) := List.suffix_refl _
  have hrdrop : (':' :: name).rdrop (name.length + 1) = [] := Send.rdrop_ends (z := [])
  have hpart : ∀ d ∈ ':' :: name, isSeparator d = false := by
    refine List.forall_mem_cons.mpr ⟨rfl, fun d hd => ?_⟩
    by_contra hsep
    exact (isName_of_identifier hname).separator_not_mem (by simpa using hsep) hd
  have hsplit : origin scheme ++ (paramPart name ++ paramPart name ++ tail) =
      scheme ++ [':'] ++ '/' :: '/' :: '/' :: (':' :: name ++ '/' :: (':' :: name ++ tail)) := by
    simp [origin, paramPart]
  rw [renameInUrl, hsplit, hsegment _ _ hscheme', if_neg hnot, hempty, hempty, hsegment _ _ hpart,
    if_pos hends, hrdrop]
  simp [origin, paramPart]

/-- Behind a scheme the slashes of the authority become one, or the path is the parameter twice
and only the first is renamed. -/
theorem not_edits_of_absolute (hurl : IsAbsolute url)
    (hmem : name ∈ extractPathParams parser.pathname url) : ¬ EditsAlone parser name url := by
  intro h
  have hname : IsIdentifier name := Send.name_of_mem hmem
  obtain ⟨scheme, rest, hscheme, hrest, rfl⟩ := hurl
  obtain ⟨tail, htail, rfl⟩ := twice_of_origin hname hscheme hrest h.removes
  rw [← List.append_assoc (paramPart name)] at hmem h
  obtain ⟨m, hnew, hfresh⟩ := exists_fresh (.inl rfl) (extractPathParams parser.pathname
    (origin scheme ++ (paramPart name ++ paramPart name ++ tail)))
  have hrenames := h.renames _ hnew hfresh
  have hne : [] ++ List.replicate (m + 1) 'x' ≠ name := fun heq => hfresh (heq ▸ hmem)
  rw [renamed_twice hname hscheme, extract_twice hscheme hnew hname htail,
    extract_twice hscheme hname hname htail, List.map_cons, List.map_cons, if_pos rfl] at hrenames
  exact hne (List.cons.inj (List.cons.inj hrenames).2).1.symm

/-- Editing a path parameter of a URL with a scheme, or of one that starts with a template, leaves
the rest of the URL alone exactly when it is of the second kind and the parameter stands alone. -/
theorem edits_alone_iff (parser : UrlParser) {name url : Text}
    (hurl : IsAbsolute url ∨ url.head? = some '\x7b')
    (hmem : name ∈ extractPathParams parser.pathname url) :
    EditsAlone parser name url ↔ url.head? = some '\x7b' ∧ StandsAlone name url := by
  by_cases hstart : url.head? = some '\x7b'
  · exact ⟨fun h => ⟨hstart, stands_of_edits hstart hmem h⟩,
      fun h => edits_of_stands hstart hmem h.2⟩
  · have habsolute := hurl.resolve_right hstart
    exact iff_of_false (not_edits_of_absolute habsolute hmem) fun h => hstart h.1

/-- A parser that knows no URL. -/
def noBase : UrlParser where
  pathname _ := none
  template _ _ := rfl
  segments _ _ _ _ _ _ _ _ := .inl rfl

def postsUrl : Text := "\x7b\x7bbase\x7d\x7d/users/:id/posts?q=1".toList

theorem stands_posts : StandsAlone "id".toList postsUrl := by
  have hrest : restOf postsUrl = "?q=1".toList := by decide
  refine ⟨"\x7b\x7bbase\x7d\x7d/users".toList, "/posts".toList,
    ⟨by decide, by decide, by decide, by decide⟩, ?_, ?_, ?_⟩
  · rintro b a ⟨hsplit, -⟩
    rw [hrest] at hsplit
    have hmem : ':' ∈ "?q=1".toList := by
      rw [hsplit]
      simp [paramPart]
    exact absurd hmem (by decide)
  · rw [hrest]
    decide
  · rintro other - s hfind z hz -
    have hmem : s ∈ segmentsOf "\x7b\x7bbase\x7d\x7d/users".toList :=
      List.mem_of_find?_eq_some hfind
    have hno : ∀ t ∈ segmentsOf "\x7b\x7bbase\x7d\x7d/users".toList, ':' ∉ t.1 := by decide
    exact hno s hmem (by rw [hz]; simp)

theorem edits_alone_posts : EditsAlone noBase "id".toList postsUrl :=
  (edits_alone_iff noBase (.inr rfl) (by decide)).mpr ⟨rfl, stands_posts⟩

def usersUrl : Text := "https://h/users/:id".toList

theorem not_twice_users {scheme rest : Text} (hscheme : IsScheme scheme) :
    origin scheme ++ '/' :: rest ≠ usersUrl := by
  intro heq
  have hcolon : ∀ c ∈ scheme, decide (c ≠ ':') = true := by
    intro c hc
    refine decide_eq_true fun hcolon => ?_
    have hkept := hscheme.2 c hc
    rw [hcolon] at hkept
    cases hkept
  have hsplit : origin scheme ++ '/' :: rest = scheme ++ (':' :: '/' :: '/' :: '/' :: rest) := by
    simp [origin]
  have htake : (usersUrl.dropWhile fun c => c ≠ ':').take 4 = [':', '/', '/', '/'] := by
    rw [← heq, hsplit, List.dropWhile_append_of_pos hcolon]
    rfl
  exact absurd htake (by decide)

/-- A parser that knows one URL. -/
def oneHost : UrlParser where
  pathname url := if url = usersUrl then some "/users/:id".toList else none
  template url h := if_neg fun heq => absurd (heq ▸ h) (by decide)
  segments _ _ _ _ hscheme _ _ _ := .inl (if_neg (not_twice_users hscheme))

/-- The URL of a host loses a slash of its scheme. -/
theorem removal_breaks_scheme : ¬ ∀ (parser : UrlParser) (name url : Text),
    (IsAbsolute url ∨ url.head? = some '\x7b') →
      name ∈ extractPathParams parser.pathname url → EditsAlone parser name url := by
  intro h
  have hscheme : IsScheme "https".toList := ⟨by decide, by decide⟩
  have hedits := h oneHost "id".toList usersUrl
    (.inl ⟨"https".toList, "h/users/:id".toList, hscheme, by decide, rfl⟩) (by decide)
  exact absurd hedits.removes (by decide)

end Voleeo.ParamEdits
