import Voleeo.Imports.Insomnia
import Voleeo.JsonObject

/-!
# Examples of schemas

An example is written for a schema of an API document. A reference stands for a schema elsewhere in
the document, and one set remembers the references that were followed, so that a recursive schema
comes to an end.
-/
namespace Voleeo.Imports.SchemaExample
open Insomnia (replace)
open Json (insertAll mergeAll)

/-! ## References -/

/-- The member that a reference points to. -/
def lookup (root : Json) (ptr : String) : Option Json :=
  match ptr.toList with
  | '#' :: '/' :: path =>
    root.pointer ((path.splitOn '/').map fun raw =>
      replace (replace (String.ofList raw) "~1" "/") "~0" "~")
  | _ => none

def refOf (v : Json) : Option String := (v.get "$ref").bind Json.asStr

/-- The first node of a chain of references that is none, and the references followed so far. -/
def resolve (root : Json) : ℕ → Json → List String → Option (Json × List String)
  | 0, _, _ => none
  | fuel + 1, value, seen =>
    match refOf value with
    | none => some (value, seen)
    | some ptr =>
      if ptr ∈ seen then some (value, seen)
      else
        match lookup root ptr with
        | none => some (value, ptr :: seen)
        | some next => resolve root fuel next (ptr :: seen)

/-! ## Examples -/

/-- The values of a list in turn, with what was followed for the ones before. -/
def visitAll {α β : Type} (visit : α → List String → Option (β × List String)) :
    List α → List String → Option (List β × List String)
  | [], seen => some ([], seen)
  | v :: rest, seen => do
      let (first, seen) ← visit v seen
      let (others, seen) ← visitAll visit rest seen
      some (first :: others, seen)

def first (v : Json) (key : String) : Option Json :=
  ((v.get key).bind Json.asArray).bind List.head?

/-- An example that the schema itself gives. -/
def explicit (schema : Json) : Option Json :=
  (schema.get "example").or ((schema.get "default").or (first schema "enum"))

def typeOf (schema : Json) : Option String :=
  match schema.get "type" with
  | some (.string s) => some s
  | some (.array values) => values.head?.bind Json.asStr
  | _ => none

def placeholderString (schema : Json) : String :=
  match (schema.get "format").bind Json.asStr with
  | some "date-time" => "1970-01-01T00:00:00Z"
  | some "date" => "1970-01-01"
  | some "uuid" => "00000000-0000-0000-0000-000000000000"
  | some "email" => "user@example.com"
  | some "uri" => "https://example.com"
  | some "url" => "https://example.com"
  | _ => ""

section
/- How the schemas inside are read. -/
variable (inner : ℕ → Json → List String → Option (Json × List String))

def buildObject (depth : ℕ) (schema : Json) (seen : List String) : Option (Json × List String) :=
  match depth with
  | 0 => some (.object [], seen)
  | depth + 1 => do
      let props := ((schema.get "properties").bind Json.asObject).getD []
      let (examples, seen) ← visitAll (inner depth) (props.map (·.2)) seen
      some (.object (insertAll [] ((props.map (·.1)).zip examples)), seen)

def buildArray (depth : ℕ) (schema : Json) (seen : List String) : Option (Json × List String) :=
  match depth with
  | 0 => some (.array [], seen)
  | depth + 1 =>
    match schema.get "items" with
    | none => some (.array [.null], seen)
    | some it => do
        let (item, seen) ← inner depth it seen
        some (.array [item], seen)

/-- The example of a schema that is no reference. -/
def exampleOf (depth : ℕ) (schema : Json) (seen : List String) : Option (Json × List String) :=
  match explicit schema with
  | some ex => some (ex, seen)
  | none =>
    match (schema.get "allOf").bind Json.asArray with
    | some all => do
        let (examples, seen) ← visitAll (inner depth) all seen
        some (.object (mergeAll examples), seen)
    | none =>
      match (first schema "oneOf").or (first schema "anyOf") with
      | some variant => inner depth variant seen
      | none =>
        match typeOf schema with
        | some "object" => buildObject inner depth schema seen
        | some "array" => buildArray inner depth schema seen
        | some "integer" => some (.number "0", seen)
        | some "number" => some (.number "0.0", seen)
        | some "boolean" => some (.bool false, seen)
        | some "string" => some (.string (placeholderString schema), seen)
        | some _ => some (.null, seen)
        | none =>
          if (schema.get "properties").isSome then buildObject inner depth schema seen
          else some (.null, seen)

end

def exampleInner (root : Json) : ℕ → ℕ → Json → List String → Option (Json × List String)
  | 0, _, _, _ => none
  | fuel + 1, depth, schema, seen => do
      let (schema, seen) ← resolve root fuel schema seen
      exampleOf (exampleInner root fuel) depth schema seen

/-- The walk does not end where it has not enough fuel. -/
def schemaExample (root : Json) (fuel : ℕ) (schema : Json) (depth : ℕ) : Option Json :=
  (exampleInner root fuel depth schema []).map (·.1)

/-! ## What a schema says -/

/-- A schema that is no reference, with the schemas inside it. -/
inductive Shape
  | value (v : Json)
  | allOf (members : List Json)
  | variant (first : Json)
  | object (keys : List String) (props : List Json)
  | array (items : Option Json)

def objectShape (schema : Json) : Shape :=
  let props := ((schema.get "properties").bind Json.asObject).getD []
  .object (props.map (·.1)) (props.map (·.2))

def shapeOf (schema : Json) : Shape :=
  match explicit schema with
  | some ex => .value ex
  | none =>
    match (schema.get "allOf").bind Json.asArray with
    | some all => .allOf all
    | none =>
      match (first schema "oneOf").or (first schema "anyOf") with
      | some variant => .variant variant
      | none =>
        match typeOf schema with
        | some "object" => objectShape schema
        | some "array" => .array (schema.get "items")
        | some "integer" => .value (.number "0")
        | some "number" => .value (.number "0.0")
        | some "boolean" => .value (.bool false)
        | some "string" => .value (.string (placeholderString schema))
        | some _ => .value .null
        | none => if (schema.get "properties").isSome then objectShape schema else .value .null

/-- The schemas that are read for this one. -/
def Shape.inside : Shape → List Json
  | .value _ => []
  | .allOf members => members
  | .variant first => [first]
  | .object _ props => props
  | .array items => items.toList

section
variable (inner : ℕ → Json → List String → Option (Json × List String))

def readShape (depth : ℕ) (seen : List String) : Shape → Option (Json × List String)
  | .value v => some (v, seen)
  | .allOf members =>
    (visitAll (inner depth) members seen).map fun r => (.object (mergeAll r.1), r.2)
  | .variant first => inner depth first seen
  | .object keys props =>
    match depth with
    | 0 => some (.object [], seen)
    | depth + 1 =>
      (visitAll (inner depth) props seen).map fun r => (.object (insertAll [] (keys.zip r.1)), r.2)
  | .array items =>
    match depth, items with
    | 0, _ => some (.array [], seen)
    | _ + 1, none => some (.array [.null], seen)
    | depth + 1, some it => (inner depth it seen).map fun r => (.array [r.1], r.2)

theorem buildObject_eq (depth : ℕ) (schema : Json) (seen : List String) :
    buildObject inner depth schema seen = readShape inner depth seen (objectShape schema) := by
  cases depth with
  | zero => rfl
  | succ depth =>
    simp only [buildObject, objectShape, readShape]
    cases visitAll (inner depth) _ seen <;> rfl

theorem buildArray_eq (depth : ℕ) (schema : Json) (seen : List String) :
    buildArray inner depth schema seen
      = readShape inner depth seen (.array (schema.get "items")) := by
  cases depth with
  | zero => rfl
  | succ depth =>
    simp only [buildArray, readShape]
    cases schema.get "items" with
    | none => rfl
    | some it =>
      simp only
      cases inner depth it seen <;> rfl

theorem exampleOf_eq (depth : ℕ) (schema : Json) (seen : List String) :
    exampleOf inner depth schema seen = readShape inner depth seen (shapeOf schema) := by
  unfold exampleOf shapeOf
  cases explicit schema with
  | some ex => rfl
  | none =>
    cases (schema.get "allOf").bind Json.asArray with
    | some all =>
      simp only [readShape]
      cases visitAll (inner depth) all seen <;> rfl
    | none =>
      cases (first schema "oneOf").or (first schema "anyOf") with
      | some variant => rfl
      | none =>
        simp only
        split <;> simp only [buildObject_eq, buildArray_eq, readShape]
        split <;> rfl

end

end Voleeo.Imports.SchemaExample
