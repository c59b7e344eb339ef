import Voleeo.Template.Resolve

/-!
# Templates with steady functions

Where each function answers alike at every place, a template resolves to one text.
It is put together from the texts of its segments.
-/
namespace Voleeo.Template

/-- The functions answer alike at every place, and none of them aborts. -/
structure Steady (fns : List BoundTemplateFunction) : Prop where
  sites : ∀ f ∈ fns, ∀ site site' args, f.onRender site args = f.onRender site' args
  answers : ∀ f ∈ fns, ∀ site args, f.onRender site args ≠ .abortError

theorem steady_nil : Steady [] := ⟨by simp, by simp⟩

/-- What a call is replaced by. -/
def callValue (fns : List BoundTemplateFunction) (name : Text) (args : JsRecord) : Text :=
  match findFn fns name with
  | none => serialize [.func name args]
  | some fn =>
    match fn.onRender [] args with
    | .result value => value.getD []
    | _ => serialize [.func name args]

variable {vars : List EnvironmentVariable} {fns : List BoundTemplateFunction}

/-- What a token becomes, once it is known what each variable becomes. -/
def tokenText (fns : List BoundTemplateFunction) (varValue : Text → Text) : TemplateToken → Text
  | .plain text => text
  | .var name => varValue name
  | .func name args => callValue fns name args

/-- What a piece becomes, once it is known what each token becomes. -/
def pieceText (value : TemplateToken → Text) : Piece → Text
  | .char c => [c]
  | .token tok => value tok

/-- The induction is on the variables that the way down has not entered. -/
theorem exists_tokenValue (h : Steady fns) (visited : List Text) :
    ∃ value : TemplateToken → Text, (∀ text, value (.plain text) = text) ∧
      ∀ site text, resolveTemplateImpl vars fns visited site text =
        .ok ((tokenize text).flatMap value) := by
  induction hn : (unvisited (·.key.toList) vars visited).length using Nat.strong_induction_on
    generalizing visited with
  | _ n ih =>
    have hvar : ∀ name, ∃ out : Text,
        (name ∈ visited ∨ findVar vars name = none → out = serialize [.var name]) ∧
        ∀ found, name ∉ visited → findVar vars name = some found → ∀ site,
          (if openBraces <:+: found.value.toList then
            resolveTemplateImpl vars fns (name :: visited) site found.value.toList
          else .ok found.value.toList) = .ok out := by
      intro name
      by_cases hkept : name ∈ visited ∨ findVar vars name = none
      · refine ⟨_, fun _ => rfl, fun found hv hfound => ?_⟩
        rcases hkept with hvisited | hnone
        · exact absurd hvisited hv
        · rw [hnone] at hfound
          cases hfound
      · rw [not_or] at hkept
        obtain ⟨found, hfound⟩ := Option.ne_none_iff_exists'.mp hkept.2
        obtain ⟨hmem, hkey⟩ := key_of_findVar hfound
        obtain ⟨value, -, hvalue⟩ := ih _ (hn ▸ unvisited_lt hmem hkey hkept.1)
          (name :: visited) rfl
        refine ⟨if openBraces <:+: found.value.toList then
          (tokenize found.value.toList).flatMap value else found.value.toList,
          fun h => absurd h (not_or.mpr hkept), ?_⟩
        intro found' _ hfound' site
        obtain rfl : found = found' := Option.some.inj (hfound.symm.trans hfound')
        split_ifs with hopen
        · exact hvalue site _
        · rfl
    choose varValue hkept hentered using hvar
    refine ⟨tokenText fns varValue, fun _ => rfl, fun site text => ?_⟩
    rw [resolveTemplateImpl, Parts.mapM_of (g := fun tok => tokenText fns varValue tok.1)]
    · have hzip := congrArg (List.map (tokenText fns varValue))
        (List.zipIdx_map_fst 0 (tokenize text))
      rw [List.map_map] at hzip
      rw [List.flatMap_def, ← hzip]
      rfl
    · rintro ⟨tok, i⟩ -
      cases tok with
      | plain text => rfl
      | var name =>
        change _ = Except.ok (varValue name)
        by_cases hv : name ∈ visited
        · simp only [hv, dif_pos, hkept name (Or.inl hv)]
        · simp only [hv, dif_neg, not_false_eq_true]
          split
          · rename_i hnone
            rw [hkept name (Or.inr hnone)]
          · rename_i found hfound
            exact hentered name found hv hfound (i :: site)
      | func name args =>
        change _ = Except.ok (callValue fns name args)
        simp only [callValue]
        cases hfn : findFn fns name with
        | none => rfl
        | some fn =>
          have hmem := List.mem_of_find?_eq_some hfn
          have hanswer := h.answers fn hmem [] args
          simp only [h.sites fn hmem (i :: site) []]
          cases hrender : fn.onRender [] args with
          | result value => rfl
          | error => rfl
          | abortError => exact absurd hrender hanswer

/-! ## Segments -/

/-- The text that a template resolves to. -/
def rendered (vars : List EnvironmentVariable) (fns : List BoundTemplateFunction) (text : Text) :
    Text :=
  match resolveTemplateImpl vars fns [] [] text with
  | .ok out => out
  | .error _ => []

def segmentText : Segment → Text
  | .char c => [c]
  | .unclosed => ['{']
  | .expr inner => '{' :: '{' :: (inner ++ ['}', '}'])

def segmentsText (segs : List Segment) : Text := segs.flatMap segmentText

def renderedSegment (vars : List EnvironmentVariable) (fns : List BoundTemplateFunction) :
    Segment → Text
  | .char c => [c]
  | .unclosed => ['{']
  | .expr inner => rendered vars fns (segmentText (.expr inner))

def renderedSegments (vars : List EnvironmentVariable) (fns : List BoundTemplateFunction)
    (segs : List Segment) : Text := segs.flatMap (renderedSegment vars fns)

theorem segmentsText_segments (text : Text) : segmentsText (segments text) = text := by
  have h := segmented_segments text
  generalize segments text = segs at h
  induction h with
  | nil => rfl
  | char _ _ ih => exact congrArg _ ih
  | unclosed _ _ ih => exact congrArg _ ih
  | expr _ _ ih =>
    rw [segmentsText, List.flatMap_cons]
    change _ ++ segmentsText _ = _
    rw [ih]
    simp [segmentText]

theorem ends_of_segment {text inner : Text} (h : .expr inner ∈ segments text) :
    Ends .out inner := by
  have hcut := segmented_segments text
  generalize segments text = segs at h hcut
  induction hcut with
  | nil => cases h
  | char _ _ ih => exact ih (by simpa using h)
  | unclosed _ _ ih => exact ih (by simpa using h)
  | expr hends _ ih =>
    rcases List.mem_cons.mp h with heq | hmem
    · cases heq
      exact hends
    · exact ih hmem

theorem segments_expr {inner : Text} (h : Ends .out inner) :
    segments (segmentText (.expr inner)) = [.expr inner] :=
  segments_of_segmented (.expr h .nil)

end Voleeo.Template
