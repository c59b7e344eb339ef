import Mathlib

/-!
# Schemas of messages

The form of a call is drawn from a tree that describes the message. A message that is on the path
already, or too deep, is only named there; it is described when the form opens it.
-/
namespace Voleeo.Grpc

/-! ## Descriptors -/

inductive ScalarKind
  | double | float | int32 | int64 | uint32 | uint64 | sint32 | sint64
  | fixed32 | fixed64 | sfixed32 | sfixed64 | bool | string | bytes
  deriving DecidableEq, Repr

inductive Cardinality
  | optional | required | repeated
  deriving DecidableEq, Repr

structure ProtoEnumValue where
  name : String
  number : ℤ
  deriving DecidableEq, Repr

structure EnumDescriptor where
  fullName : String
  values : List ProtoEnumValue
  deriving DecidableEq, Repr

structure OneofDescriptor where
  name : String
  fieldCount : ℕ
  deriving DecidableEq, Repr

inductive Kind (μ : Type*)
  | scalar (kind : ScalarKind)
  | message (m : μ)
  | enum (e : EnumDescriptor)

structure FieldDescriptor (μ : Type*) where
  name : String
  number : ℕ
  kind : Kind μ
  cardinality : Cardinality
  supportsPresence : Bool
  containingOneof : Option OneofDescriptor

structure MessageDescriptor (μ : Type*) where
  fullName : String
  fields : List (FieldDescriptor μ)
  /-- The key and the value field of a map entry. -/
  mapEntry : Option (FieldDescriptor μ × FieldDescriptor μ)

/-- A pool finds each of its messages under the full name. -/
structure DescriptorPool (μ : Type*) where
  message : μ → MessageDescriptor μ
  getMessageByName : String → Option μ
  found : ∀ m, getMessageByName (message m).fullName = some m

variable {μ : Type*} (pool : DescriptorPool μ)

def DescriptorPool.fullName (m : μ) : String := (pool.message m).fullName

/-- The key and the value field, where the field is a map. -/
def DescriptorPool.mapEntry? (field : FieldDescriptor μ) :
    Option (FieldDescriptor μ × FieldDescriptor μ) :=
  match field.cardinality, field.kind with
  | .repeated, .message entry => (pool.message entry).mapEntry
  | _, _ => none

def DescriptorPool.isMap (field : FieldDescriptor μ) : Bool := (pool.mapEntry? field).isSome

def DescriptorPool.isList (field : FieldDescriptor μ) : Bool :=
  field.cardinality = .repeated ∧ ¬ pool.isMap field

/-! ## Schemas -/

mutual

inductive ProtoFieldType
  | scalar (name : String)
  | enum (name : String) (values : List ProtoEnumValue)
  | message (schema : ProtoMessageSchema)
  | messageRef (name : String)
  | map (key value : ProtoFieldType)

structure ProtoFieldSchema where
  name : String
  number : ℤ
  ty : ProtoFieldType
  repeated : Bool
  optional : Bool
  oneofGroup : Option String

structure ProtoMessageSchema where
  name : String
  fields : List ProtoFieldSchema

end

def maxDepth : ℕ := 8

def scalarName : ScalarKind → String
  | .double => "double"
  | .float => "float"
  | .int32 => "int32"
  | .int64 => "int64"
  | .uint32 => "uint32"
  | .uint64 => "uint64"
  | .sint32 => "sint32"
  | .sint64 => "sint64"
  | .fixed32 => "fixed32"
  | .fixed64 => "fixed64"
  | .sfixed32 => "sfixed32"
  | .sfixed64 => "sfixed64"
  | .bool => "bool"
  | .string => "string"
  | .bytes => "bytes"

/-- The group of a oneof. An optional field stands alone in one whose name begins with an
underscore, and that is no group. -/
def oneofGroup (field : FieldDescriptor μ) : Option String :=
  field.containingOneof.bind fun o =>
    let synthetic := o.name.toList.head? = some '_' ∧ o.fieldCount = 1
    if synthetic then none else some o.name

/-- `field.number() as i32`. -/
def fieldNumber (field : FieldDescriptor μ) : ℤ := (field.number : ℤ).bmod (2 ^ 32)

mutual

/-- The schema, and the path as the call leaves it. -/
def messageSchema (m : μ) (depth : ℕ) (path : List String) : ProtoMessageSchema × List String :=
  let path := path ++ [pool.fullName m]
  let fields := (pool.message m).fields.map fun f => fieldSchema f depth path
  (⟨pool.fullName m, fields⟩, path.dropLast)
termination_by (maxDepth - depth, 3)

def fieldSchema (field : FieldDescriptor μ) (depth : ℕ) (path : List String) : ProtoFieldSchema :=
  { name := field.name
    number := fieldNumber field
    ty := fieldType field depth path
    repeated := pool.isList field
    optional := field.supportsPresence
    oneofGroup := oneofGroup field }
termination_by (maxDepth - depth, 2)

def fieldType (field : FieldDescriptor μ) (depth : ℕ) (path : List String) : ProtoFieldType :=
  match pool.mapEntry? field with
  | some (key, value) => .map (elementType key depth path) (elementType value depth path)
  | none => elementType field depth path
termination_by (maxDepth - depth, 1)

def elementType (field : FieldDescriptor μ) (depth : ℕ) (path : List String) : ProtoFieldType :=
  match field.kind with
  | .message m =>
    if pool.fullName m ∈ path ∨ maxDepth ≤ depth then .messageRef (pool.fullName m)
    else .message (messageSchema m (depth + 1) path).1
  | .enum e => .enum e.fullName e.values
  | .scalar kind => .scalar (scalarName kind)
termination_by (maxDepth - depth, 0)

end

def messageByName (name : String) : Option ProtoMessageSchema :=
  (pool.getMessageByName name).map fun m => (messageSchema pool m 0 []).1

/-! ## What a schema says -/

mutual

/-- The schema describes the message, which is expanded below the messages of the path. -/
inductive Describes : List String → μ → ProtoMessageSchema → Prop
  | mk {path : List String} {m : μ} {schema : ProtoMessageSchema}
      (hname : schema.name = pool.fullName m)
      (hlength : schema.fields.length = (pool.message m).fields.length)
      (hfields : ∀ p ∈ (pool.message m).fields.zip schema.fields,
        DescribesField (path ++ [pool.fullName m]) p.1 p.2) :
      Describes path m schema

inductive DescribesField : List String → FieldDescriptor μ → ProtoFieldSchema → Prop
  | single {path : List String} {field : FieldDescriptor μ} {ty : ProtoFieldType}
      (hmap : pool.mapEntry? field = none) (htype : DescribesElement path field ty) :
      DescribesField path field ⟨field.name, fieldNumber field, ty, pool.isList field,
        field.supportsPresence, oneofGroup field⟩
  | map {path : List String} {field key value : FieldDescriptor μ} {keyType valueType : ProtoFieldType}
      (hmap : pool.mapEntry? field = some (key, value)) (hkey : DescribesElement path key keyType)
      (hvalue : DescribesElement path value valueType) :
      DescribesField path field ⟨field.name, fieldNumber field, .map keyType valueType,
        pool.isList field, field.supportsPresence, oneofGroup field⟩

/-- A message on the path, or below too many, is named; every other one is expanded. -/
inductive DescribesElement : List String → FieldDescriptor μ → ProtoFieldType → Prop
  | scalar {path : List String} {field : FieldDescriptor μ} {kind : ScalarKind}
      (hkind : field.kind = .scalar kind) : DescribesElement path field (.scalar (scalarName kind))
  | enum {path : List String} {field : FieldDescriptor μ} {e : EnumDescriptor}
      (hkind : field.kind = .enum e) : DescribesElement path field (.enum e.fullName e.values)
  | reference {path : List String} {field : FieldDescriptor μ} {m : μ}
      (hkind : field.kind = .message m)
      (hstop : pool.fullName m ∈ path ∨ maxDepth < path.length) :
      DescribesElement path field (.messageRef (pool.fullName m))
  | full {path : List String} {field : FieldDescriptor μ} {m : μ} {schema : ProtoMessageSchema}
      (hkind : field.kind = .message m) (hnew : pool.fullName m ∉ path)
      (hdepth : path.length ≤ maxDepth) (hschema : Describes path m schema) :
      DescribesElement path field (.message schema)

end

/-- What a form can tell of a type without opening it. -/
inductive Shape
  | scalar (name : String)
  | enum (name : String) (values : List ProtoEnumValue)
  | message (name : String)
  | map (key value : Shape)

def ProtoFieldType.shape : ProtoFieldType → Shape
  | .scalar name => .scalar name
  | .enum name values => .enum name values
  | .message schema => .message schema.name
  | .messageRef name => .message name
  | .map key value => .map key.shape value.shape

structure Description where
  name : String
  number : ℤ
  shape : Shape
  repeated : Bool
  optional : Bool
  oneofGroup : Option String

def ProtoFieldSchema.description (s : ProtoFieldSchema) : Description :=
  ⟨s.name, s.number, s.ty.shape, s.repeated, s.optional, s.oneofGroup⟩

/-! ## Walking down -/

/-- The message of an element. -/
def ProtoFieldType.open? : ProtoFieldType → Option ProtoMessageSchema
  | .message schema => some schema
  | .messageRef name => messageByName pool name
  | _ => none

/-- The message that the form of a field opens; for a map, that of a value. -/
def ProtoFieldType.below? : ProtoFieldType → Option ProtoMessageSchema
  | .map _ value => value.open? pool
  | ty => ty.open? pool

/-- The schema of a nested field; each reference on the way is replaced by its message. -/
def ProtoMessageSchema.walk (schema : ProtoMessageSchema) : List String → Option ProtoFieldSchema
  | [] => none
  | [name] => schema.fields.find? fun f => f.name = name
  | name :: next :: names => do
      let field ← schema.fields.find? fun f => f.name = name
      let below ← field.ty.below? pool
      below.walk (next :: names)

def Kind.message? : Kind μ → Option μ
  | .message m => some m
  | _ => none

def DescriptorPool.below? (field : FieldDescriptor μ) : Option μ :=
  match pool.mapEntry? field with
  | some (_, value) => value.kind.message?
  | none => field.kind.message?

/-- The descriptor of a nested field. -/
def DescriptorPool.walk (m : μ) : List String → Option (FieldDescriptor μ)
  | [] => none
  | [name] => (pool.message m).fields.find? fun f => f.name = name
  | name :: next :: names => do
      let field ← (pool.message m).fields.find? fun f => f.name = name
      let below ← pool.below? field
      DescriptorPool.walk below (next :: names)

def DescriptorPool.elementShape (field : FieldDescriptor μ) : Shape :=
  match field.kind with
  | .message m => .message (pool.fullName m)
  | .enum e => .enum e.fullName e.values
  | .scalar kind => .scalar (scalarName kind)

def DescriptorPool.shape (field : FieldDescriptor μ) : Shape :=
  match pool.mapEntry? field with
  | some (key, value) => .map (pool.elementShape key) (pool.elementShape value)
  | none => pool.elementShape field

/-- What the descriptor of a field says. -/
def DescriptorPool.description (field : FieldDescriptor μ) : Description :=
  ⟨field.name, fieldNumber field, pool.shape field, pool.isList field, field.supportsPresence,
    oneofGroup field⟩

/-- The schema of a message is complete: it is as deep as it can be without repeating a message on
a path, and walking down it, through references too, finds what the descriptors say. -/
structure ExpandsCompletely (m : μ) : Prop where
  describes : Describes pool [] m (messageSchema pool m 0 []).1
  path_restored : ∀ depth path, (messageSchema pool m depth path).2 = path
  walks : ∀ names, ((messageSchema pool m 0 []).1.walk pool names).map
    ProtoFieldSchema.description = (pool.walk m names).map pool.description

variable {pool} {m : μ} {depth : ℕ} {path : List String} {field : FieldDescriptor μ}

theorem fields_messageSchema : (messageSchema pool m depth path).1.fields =
    (pool.message m).fields.map fun f => fieldSchema pool f depth (path ++ [pool.fullName m]) := by
  rw [messageSchema]

theorem name_messageSchema : (messageSchema pool m depth path).1.name = pool.fullName m := by
  rw [messageSchema]

theorem path_messageSchema : (messageSchema pool m depth path).2 = path := by
  rw [messageSchema]
  exact List.dropLast_concat

/-! ## The tree -/

/-- An element is described where the schemas below it are. -/
theorem describesElement_elementType (hdepth : path.length = depth + 1)
    (hbelow : ∀ m, depth < maxDepth →
      Describes pool path m (messageSchema pool m (depth + 1) path).1) :
    DescribesElement pool path field (elementType pool field depth path) := by
  rw [elementType]
  cases hkind : field.kind with
  | scalar kind => exact .scalar hkind
  | enum e => exact .enum hkind
  | message m =>
    dsimp only
    split_ifs with hstop
    · exact .reference hkind (hstop.imp_right fun h => by omega)
    · obtain ⟨hnew, hleft⟩ := not_or.mp hstop
      exact .full hkind hnew (by omega) (hbelow m (by omega))

theorem describesField_fieldSchema
    (helement : ∀ f, DescribesElement pool path f (elementType pool f depth path)) :
    DescribesField pool path field (fieldSchema pool field depth path) := by
  rw [fieldSchema, fieldType]
  cases hmap : pool.mapEntry? field with
  | none => exact .single hmap (helement field)
  | some entry => exact .map hmap (helement entry.1) (helement entry.2)

/-- A message is described where the schemas below it are. -/
theorem describes_of_below (hdepth : path.length = depth)
    (hbelow : ∀ m', depth < maxDepth → Describes pool (path ++ [pool.fullName m]) m'
      (messageSchema pool m' (depth + 1) (path ++ [pool.fullName m])).1) :
    Describes pool path m (messageSchema pool m depth path).1 := by
  have hlength : (path ++ [pool.fullName m]).length = depth + 1 := by
    rw [List.length_append, hdepth]
    rfl
  refine .mk name_messageSchema (by rw [fields_messageSchema, List.length_map]) ?_
  rw [fields_messageSchema, ← List.map_prod_left_eq_zip]
  intro p hp
  obtain ⟨f, -, rfl⟩ := List.mem_map.mp hp
  exact describesField_fieldSchema fun _ => describesElement_elementType hlength hbelow

/-- By induction on the depth that is left. -/
theorem describes_messageSchema (hdepth : path.length = depth) :
    Describes pool path m (messageSchema pool m depth path).1 := by
  induction hleft : maxDepth - depth generalizing m depth path with
  | zero => exact describes_of_below hdepth fun _ h => by omega
  | succ left ih =>
    refine describes_of_below hdepth fun _ _ => ih ?_ (by omega)
    rw [List.length_append, hdepth]
    rfl

/-! ## The walks -/

theorem shape_elementType (field : FieldDescriptor μ) :
    (elementType pool field depth path).shape = pool.elementShape field := by
  rw [elementType, DescriptorPool.elementShape]
  cases field.kind with
  | scalar kind => rfl
  | enum e => rfl
  | message m =>
    dsimp only
    split_ifs
    · rfl
    · exact congrArg Shape.message name_messageSchema

theorem description_fieldSchema (field : FieldDescriptor μ) :
    (fieldSchema pool field depth path).description = pool.description field := by
  have hshape : (fieldType pool field depth path).shape = pool.shape field := by
    rw [fieldType, DescriptorPool.shape]
    cases pool.mapEntry? field with
    | none => exact shape_elementType field
    | some entry =>
      exact congrArg₂ Shape.map (shape_elementType entry.1) (shape_elementType entry.2)
  rw [fieldSchema, ProtoFieldSchema.description, DescriptorPool.description, hshape]

theorem find?_fields_messageSchema (name : String) :
    (messageSchema pool m depth path).1.fields.find? (fun f => f.name = name) =
      ((pool.message m).fields.find? fun f => f.name = name).map
        fun f => fieldSchema pool f depth (path ++ [pool.fullName m]) := by
  have hname : ∀ f, (fieldSchema pool f depth (path ++ [pool.fullName m])).name = f.name := by
    intro f
    rw [fieldSchema]
  rw [fields_messageSchema, List.find?_map]
  simp only [Function.comp_def, hname]

/-- Opening an element gives a schema of its message, which may be expanded anew. -/
theorem open?_elementType (field : FieldDescriptor μ) : match field.kind.message? with
    | some m => ∃ depth' path',
        (elementType pool field depth path).open? pool = some (messageSchema pool m depth' path').1
    | none => (elementType pool field depth path).open? pool = none := by
  rw [elementType]
  cases field.kind with
  | scalar kind => rfl
  | enum e => rfl
  | message m =>
    dsimp only [Kind.message?]
    split_ifs
    · refine ⟨0, [], ?_⟩
      rw [ProtoFieldType.open?, messageByName, DescriptorPool.fullName, pool.found]
      rfl
    · exact ⟨depth + 1, path, rfl⟩

theorem below?_fieldType (field : FieldDescriptor μ) : match pool.below? field with
    | some m => ∃ depth' path',
        (fieldType pool field depth path).below? pool = some (messageSchema pool m depth' path').1
    | none => (fieldType pool field depth path).below? pool = none := by
  rw [fieldType, DescriptorPool.below?]
  cases hmap : pool.mapEntry? field with
  | some entry => exact open?_elementType entry.2
  | none =>
    have hsame : (elementType pool field depth path).below? pool =
        (elementType pool field depth path).open? pool := by
      rw [elementType]
      cases field.kind with
      | scalar kind => rfl
      | enum e => rfl
      | message m =>
        dsimp only
        split_ifs <;> rfl
    dsimp only
    rw [hsame]
    exact open?_elementType field

/-- Below any depth and path: by induction on the names. -/
theorem walk_messageSchema (names : List String) :
    ((messageSchema pool m depth path).1.walk pool names).map ProtoFieldSchema.description =
      (pool.walk m names).map pool.description := by
  induction names generalizing m depth path with
  | nil => rfl
  | cons name names ih =>
    cases names with
    | nil =>
      rw [ProtoMessageSchema.walk, DescriptorPool.walk, find?_fields_messageSchema, Option.map_map]
      congr 1
      exact funext description_fieldSchema
    | cons name' names =>
      rw [ProtoMessageSchema.walk, DescriptorPool.walk, find?_fields_messageSchema]
      cases (pool.message m).fields.find? fun f => f.name = name with
      | none => rfl
      | some f =>
        have hbelow := @below?_fieldType _ pool depth (path ++ [pool.fullName m]) f
        simp only [Option.map_some, Option.bind_eq_bind, Option.bind_some, fieldSchema]
        cases hnext : pool.below? f with
        | none =>
          rw [hnext] at hbelow
          rw [hbelow]
          rfl
        | some m' =>
          rw [hnext] at hbelow
          obtain ⟨depth', path', hopen⟩ := hbelow
          rw [hopen]
          exact ih

/-- Every message of every pool expands completely. -/
theorem expandsCompletely (pool : DescriptorPool μ) (m : μ) : ExpandsCompletely pool m where
  describes := describes_messageSchema rfl
  path_restored _ _ := path_messageSchema
  walks := walk_messageSchema

end Voleeo.Grpc
