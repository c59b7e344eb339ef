import Voleeo.Entities
import Voleeo.Parts
import Voleeo.Loops
import Voleeo.Template.Segments

/-!
# Resolution of a template

Every token is replaced by its value. A variable whose value holds an opening is
resolved in turn, and the names on the way down guard against cycles. A token
that has no value is written back as the serializer writes it.
-/
namespace Voleeo.Template

/-- The place of a token in its text, under the places of the variables that led there. A function
may answer differently at each. -/
abbrev RenderSite := List ℕ

/-- What a template function does with a call: a string or null, or an exception. -/
inductive RenderOutcome
  | result (value : Option Text)
  | error
  | abortError

structure BoundTemplateFunction where
  name : Text
  onRender : RenderSite → JsRecord → RenderOutcome

/-- The only exception that leaves the resolver. -/
inductive Rejection
  | abortError
  deriving DecidableEq, Repr

def findVar (vars : List EnvironmentVariable) (name : Text) : Option EnvironmentVariable :=
  vars.find? fun v => v.key.toList = name && v.enabled

def findFn (fns : List BoundTemplateFunction) (name : Text) : Option BoundTemplateFunction :=
  fns.find? fun f => f.name = name

theorem key_of_findVar {vars : List EnvironmentVariable} {name : Text}
    {found : EnvironmentVariable} (h : findVar vars name = some found) :
    found ∈ vars ∧ found.key.toList = name := by
  have hpred := List.find?_some h
  simp only [Bool.and_eq_true, decide_eq_true_eq] at hpred
  exact ⟨List.mem_of_find?_eq_some h, hpred.1⟩

def resolveTemplateImpl (vars : List EnvironmentVariable) (fns : List BoundTemplateFunction)
    (visited : List Text) (site : RenderSite) (text : Text) : Except Rejection Text := do
  let parts ← (tokenize text).zipIdx.mapM fun tok =>
    match tok.1 with
    | .plain text => .ok text
    | .var name =>
      if _hv : name ∈ visited then .ok (serialize [.var name]) -- cycle guard
      else
        match _hfound : findVar vars name with
        | none => .ok (serialize [.var name])
        | some found =>
          if openBraces <:+: found.value.toList then
            resolveTemplateImpl vars fns (name :: visited) (tok.2 :: site) found.value.toList
          else .ok found.value.toList
    | .func name args =>
      match findFn fns name with
      | none => .ok (serialize [.func name args])
      | some fn =>
        match fn.onRender (tok.2 :: site) args with
        | .result value => .ok (value.getD [])
        | .abortError => .error .abortError
        | .error => .ok (serialize [.func name args])
  return parts.flatten
termination_by (unvisited (·.key.toList) vars visited).length
decreasing_by exact unvisited_lt (key_of_findVar _hfound).1 (key_of_findVar _hfound).2 _hv

def resolveTemplate (text : Text) (vars : List EnvironmentVariable)
    (fns : List BoundTemplateFunction) : Except Rejection Text :=
  resolveTemplateImpl vars fns [] [] text

/-- The token names something that the resolver knows. -/
def Known (vars : List EnvironmentVariable) (fns : List BoundTemplateFunction) :
    TemplateToken → Prop
  | .plain _ => False
  | .var name => (findVar vars name).isSome = true
  | .func name _ => (findFn fns name).isSome = true

theorem serialize_singleton (tok : TemplateToken) : serialize [tok] = serializeToken tok := by
  simp [serialize]

/-- Every token that names nothing known is written back. -/
theorem resolveTemplateImpl_ok {vars : List EnvironmentVariable}
    {fns : List BoundTemplateFunction} {visited : List Text} {site : RenderSite} {text out : Text}
    (h : resolveTemplateImpl vars fns visited site text = .ok out) :
    Parts (fun tok part => ¬ Known vars fns tok → part = serializeToken tok)
      (tokenize text) out := by
  rw [resolveTemplateImpl] at h
  obtain ⟨parts, hparts, hout⟩ := ok_of_bind h
  cases hout
  rw [← List.zipIdx_map_fst 0 (tokenize text), Parts.map_iff]
  refine (Parts.of_mapM hparts).mono ?_
  rintro ⟨tok, i⟩ - part hpart hknown
  cases tok with
  | plain text =>
    cases hpart
    rfl
  | var name =>
    have hnone : findVar vars name = none := by simpa [Known] using hknown
    simp only at hpart
    split_ifs at hpart
    · cases hpart
      exact serialize_singleton _
    · split at hpart
      · cases hpart
        exact serialize_singleton _
      · rename_i hsome
        rw [hnone] at hsome
        cases hsome
  | func name args =>
    have hnone : findFn fns name = none := by simpa [Known] using hknown
    simp only [hnone] at hpart
    cases hpart
    exact serialize_singleton _

theorem tokenizeFrom_plain (plain : Text) {text : Text} (h : ¬ openBraces <:+: text) :
    tokenizeFrom plain 0 text = pushPlain (plain ++ text) [] := by
  induction text generalizing plain with
  | nil => rw [tokenizeFrom, List.append_nil]
  | cons c rest ih =>
    rw [List.infix_cons_iff, not_or] at h
    have hlook : look (c :: rest) = .char := by
      apply look_char
      rintro ⟨rfl, hhead⟩
      apply h.1
      cases rest with
      | nil => cases hhead
      | cons d rest =>
        obtain rfl : d = '{' := Option.some.inj hhead
        exact ⟨rest, rfl⟩
    rw [tokenizeFrom, hlook, ih (plain ++ [c]) h.2, List.append_assoc, List.singleton_append]

/-- A text without an opening resolves to itself. -/
theorem resolveTemplateImpl_plain {vars : List EnvironmentVariable}
    {fns : List BoundTemplateFunction} {visited : List Text} {site : RenderSite} {text : Text}
    (h : ¬ openBraces <:+: text) : resolveTemplateImpl vars fns visited site text = .ok text := by
  have htok : tokenize text = pushPlain text [] := tokenizeFrom_plain [] h
  rw [resolveTemplateImpl, htok]
  unfold pushPlain
  split_ifs with hempty
  · rw [hempty]
    rfl
  · show Except.ok (text ++ []) = _
    rw [List.append_nil]

/-- Without variables and functions the template is written back. -/
theorem resolveTemplateImpl_nil (visited : List Text) (site : RenderSite) (text : Text) :
    resolveTemplateImpl [] [] visited site text = .ok (serialize (tokenize text)) := by
  have hfn : ∀ name, findFn [] name = none := fun _ => rfl
  rw [resolveTemplateImpl]
  rw [Parts.mapM_of (g := fun tok => serializeToken tok.1)]
  · have hfst : (tokenize text).zipIdx.map (fun tok => serializeToken tok.1) =
        (tokenize text).map serializeToken := by
      calc
        _ = ((tokenize text).zipIdx.map Prod.fst).map serializeToken := by
          rw [List.map_map]
          rfl
        _ = _ := by rw [List.zipIdx_map_fst]
    show Except.ok _ = _
    rw [hfst, serialize, List.flatMap_def]
  · rintro ⟨tok, i⟩ -
    cases tok with
    | plain text => rfl
    | var name =>
      simp only [serialize_singleton]
      split_ifs
      · rfl
      · split
        · rfl
        · rename_i hsome
          cases hsome
    | func name args =>
      simp only [hfn, serialize_singleton]

end Voleeo.Template
