import Voleeo.Imports.SchemaReading
import Voleeo.Loops
import Voleeo.Parts

/-!
# Schemas without references

With every reference replaced by its target a schema is a tree, which exists where the references
do not loop. The example of the tree needs no memory of what was followed. The walk over the document
remembers every reference for good, and reads the node itself, without its target, where it meets
one again.
-/
namespace Voleeo.Imports.SchemaExample
open Json (insertAll mergeAll)

/-! ## Trees -/

/-- A schema whose references are replaced by their targets. The name of a reference stays, with
what its node says besides. -/
inductive Schema
  | value (v : Json)
  | allOf (members : List Schema)
  | variant (first : Schema)
  | object (keys : List String) (props : List Schema)
  | array (items : Schema)
  | ref (ptr : String) (bare target : Schema)
  | dead (ptr : String) (bare : Schema)

mutual

/-- The example of a schema in which every reference stands for its target. -/
def Schema.wholeExample : Schema → Json
  | .value v => v
  | .allOf members => .object (mergeAll (wholeExamples members))
  | .variant first => first.wholeExample
  | .object keys props => .object (insertAll [] (keys.zip (wholeExamples props)))
  | .array items => .array [items.wholeExample]
  | .ref _ _ target => target.wholeExample
  | .dead _ bare => bare.wholeExample

def wholeExamples : List Schema → List Json
  | [] => []
  | s :: rest => s.wholeExample :: wholeExamples rest

end

mutual

/-- How many objects and arrays lie in one another. -/
def Schema.nesting : Schema → ℕ
  | .value _ => 0
  | .allOf members => nestings members
  | .variant first => first.nesting
  | .object _ [] => 0
  | .object _ (first :: rest) => max first.nesting (nestings rest) + 1
  | .array items => items.nesting + 1
  | .ref _ _ target => target.nesting
  | .dead _ bare => bare.nesting

def nestings : List Schema → ℕ
  | [] => 0
  | s :: rest => max s.nesting (nestings rest)

end

/-! ## The tree of a schema -/

def inlineShape (inner : Json → Option Schema) : Shape → Option Schema
  | .value v => some (.value v)
  | .allOf members => (members.mapM inner).map .allOf
  | .variant first => (inner first).map .variant
  | .object keys props => (props.mapM inner).map (.object keys)
  | .array none => some (.array (.value .null))
  | .array (some it) => (inner it).map .array

/-- The schema with all its references replaced. -/
def inline (root : Json) : ℕ → Json → Option Schema
  | 0, _ => none
  | fuel + 1, v =>
    (inlineShape (inline root fuel) (shapeOf v)).bind fun bare =>
      match refOf v with
      | none => some bare
      | some ptr =>
        match lookup root ptr with
        | none => some (.dead ptr bare)
        | some next => (inline root fuel next).map (.ref ptr bare)

/-- From a node one comes to the schemas inside it and to the target of its reference. -/
inductive Next (root v w : Json) : Prop
  | inside : w ∈ (shapeOf v).inside → Next root v w
  | target {ptr : String} : refOf v = some ptr → lookup root ptr = some w → Next root v w

section
variable {root v : Json}

theorem exists_inlineShape {inner : Json → Option Schema} {shape : Shape}
    (h : ∀ v ∈ shape.inside, ∃ s, inner v = some s) :
    ∃ s, inlineShape inner shape = some s := by
  cases shape with
  | value v => exact ⟨_, rfl⟩
  | allOf members =>
    obtain ⟨ss, hss⟩ := exists_mapM_eq_some h
    exact ⟨.allOf ss, Option.map_eq_some_iff.mpr ⟨ss, hss, rfl⟩⟩
  | variant first =>
    obtain ⟨s, hs⟩ := h first (List.mem_singleton_self first)
    exact ⟨.variant s, Option.map_eq_some_iff.mpr ⟨s, hs, rfl⟩⟩
  | object keys props =>
    obtain ⟨ss, hss⟩ := exists_mapM_eq_some h
    exact ⟨.object keys ss, Option.map_eq_some_iff.mpr ⟨ss, hss, rfl⟩⟩
  | array items =>
    cases items with
    | none => exact ⟨_, rfl⟩
    | some it =>
      obtain ⟨s, hs⟩ := h it (List.mem_singleton_self it)
      exact ⟨.array s, Option.map_eq_some_iff.mpr ⟨s, hs, rfl⟩⟩

/-- A bound on the walks is enough fuel. -/
theorem exists_inline_of_bounded {fuel : ℕ}
    (h : ∀ k w, Steps (Next root) k v w → k < fuel) : ∃ s, inline root fuel v = some s := by
  induction fuel generalizing v with
  | zero => exact absurd (h 0 v (.refl v)) (Nat.not_lt_zero 0)
  | succ fuel ih =>
    have hnext : ∀ w, Next root v w → ∃ s, inline root fuel w = some s := by
      intro w hw
      exact ih fun k u hsteps => Nat.lt_of_succ_lt_succ (h (k + 1) u (.head hw hsteps))
    obtain ⟨bare, hbare⟩ := exists_inlineShape fun w hw => hnext w (.inside hw)
    rw [inline, hbare, Option.bind_some]
    cases href : refOf v with
    | none => exact ⟨bare, rfl⟩
    | some ptr =>
      cases hlook : lookup root ptr with
      | none => exact ⟨.dead ptr bare, by simp only [hlook]⟩
      | some next =>
        obtain ⟨target, htarget⟩ := hnext next (.target href hlook)
        exact ⟨.ref ptr bare target, by simp only [hlook, htarget, Option.map_some]⟩

theorem next_mem_nodes {w u : Json} (hw : w ∈ root.nodes ++ v.nodes) (h : Next root w u) :
    u ∈ root.nodes ++ v.nodes := by
  cases h with
  | inside hin =>
    have hinside := inside_of_shapeOf hin
    rcases List.mem_append.mp hw with hw | hw
    · exact List.mem_append_left _ (Json.inside_mem_nodes hw hinside)
    · exact List.mem_append_right _ (Json.inside_mem_nodes hw hinside)
  | target _ hlook => exact List.mem_append_left _ (lookup_mem_nodes hlook)

/-- The nodes are finitely many, so that without loops the walks are bounded. -/
theorem exists_inline (h : NoLoop (Next root) v) : ∃ fuel s, inline root fuel v = some s := by
  let nodes := root.nodes ++ v.nodes
  let R := fun w u => w ∈ nodes ∧ Next root w u
  have hno : NoLoop R v := by
    intro w hreach hloop
    have hle : R ≤ Next root := fun _ _ h => h.2
    exact h w (Relation.ReflTransGen.mono hle v w hreach) (Relation.TransGen.mono hle w w hloop)
  have hwithin : ∀ k w u, w ∈ nodes → Steps (Next root) k w u → Steps R k w u := by
    intro k w u hw hsteps
    induction hsteps with
    | refl => exact .refl _
    | head hstep _ ih => exact .head ⟨hw, hstep⟩ (ih (next_mem_nodes hw hstep))
  refine ⟨nodes.length + 1, exists_inline_of_bounded fun k w hsteps => Nat.lt_succ_of_le ?_⟩
  have hv : v ∈ nodes := List.mem_append_right _ (Json.self_mem_nodes v)
  exact (hwithin k v w hv hsteps).le_of_noLoop hno fun d c h => next_mem_nodes h.1 h.2

end

/-- What is inlined for a shape is inlined for the schemas inside it. -/
theorem exists_inner_of_inlineShape {inner : Json → Option Schema} {shape : Shape} {s : Schema}
    (h : inlineShape inner shape = some s) {w : Json} (hw : w ∈ shape.inside) :
    ∃ s', inner w = some s' := by
  have hmapM : ∀ {ws : List Json} {ss : List Schema}, ws.mapM inner = some ss → w ∈ ws →
      ∃ s', inner w = some s' := by
    intro ws ss hss hw
    obtain ⟨s', -, hs⟩ := exists_of_mem_forall₂ (mapM_eq_some.mp hss).flip hw
    exact ⟨s', hs⟩
  cases shape with
  | value v => cases hw
  | allOf members =>
    obtain ⟨ss, hss, -⟩ := Option.map_eq_some_iff.mp h
    exact hmapM hss hw
  | variant first =>
    obtain ⟨s', hs, -⟩ := Option.map_eq_some_iff.mp h
    exact ⟨s', List.mem_singleton.mp hw ▸ hs⟩
  | object keys props =>
    obtain ⟨ss, hss, -⟩ := Option.map_eq_some_iff.mp h
    exact hmapM hss hw
  | array items =>
    cases items with
    | none => cases hw
    | some it =>
      obtain ⟨s', hs, -⟩ := Option.map_eq_some_iff.mp h
      exact ⟨s', List.mem_singleton.mp hw ▸ hs⟩

theorem exists_inline_of_next {root v w : Json} {fuel : ℕ} {s : Schema}
    (h : inline root (fuel + 1) v = some s) (hnext : Next root v w) :
    ∃ s', inline root fuel w = some s' := by
  obtain ⟨bare, hbare, hnode⟩ := Option.bind_eq_some_iff.mp h
  cases hnext with
  | inside hw => exact exists_inner_of_inlineShape hbare hw
  | target href hlook =>
    rw [href] at hnode
    simp only [hlook] at hnode
    obtain ⟨target, htarget, -⟩ := Option.map_eq_some_iff.mp hnode
    exact ⟨target, htarget⟩

/-- A schema is a tree exactly where its references do not loop. -/
theorem exists_inline_iff {root v : Json} :
    (∃ fuel s, inline root fuel v = some s) ↔ NoLoop (Next root) v := by
  refine ⟨?_, exists_inline⟩
  rintro ⟨fuel, s, hs⟩
  refine noLoop_of_bounded (n := fuel) fun k w hsteps => ?_
  induction fuel generalizing k v s with
  | zero => cases hs
  | succ fuel ih =>
    cases hsteps with
    | refl => exact Nat.succ_pos fuel
    | head hnext hrest =>
      obtain ⟨s', hs'⟩ := exists_inline_of_next hs hnext
      exact Nat.succ_lt_succ (ih s' hs' _ hrest)

/-! ## What the walk makes of the tree -/

mutual

/-- The example that comes out of a walk, and the references followed so far. A reference met again
is read without its target. -/
def Schema.reading : Schema → ℕ → List String → Json × List String
  | .value v, _, seen => (v, seen)
  | .allOf members, depth, seen =>
    (.object (mergeAll (readings members depth seen).1), (readings members depth seen).2)
  | .variant first, depth, seen => first.reading depth seen
  | .object _ _, 0, seen => (.object [], seen)
  | .object keys props, depth + 1, seen =>
    (.object (insertAll [] (keys.zip (readings props depth seen).1)), (readings props depth seen).2)
  | .array _, 0, seen => (.array [], seen)
  | .array items, depth + 1, seen =>
    (.array [(items.reading depth seen).1], (items.reading depth seen).2)
  | .ref ptr bare target, depth, seen =>
    if ptr ∈ seen then bare.reading depth seen else target.reading depth (ptr :: seen)
  | .dead ptr bare, depth, seen => bare.reading depth (if ptr ∈ seen then seen else ptr :: seen)

def readings : List Schema → ℕ → List String → List Json × List String
  | [], _, seen => ([], seen)
  | s :: rest, depth, seen =>
    ((s.reading depth seen).1 :: (readings rest depth (s.reading depth seen).2).1,
      (readings rest depth (s.reading depth seen).2).2)

end

section
variable {root : Json} {inner : Json → Option Schema}

theorem readsAll_of_mapM
    (hinner : ∀ v s, inner v = some s → ∀ depth seen, Reads root depth v seen (s.reading depth seen))
    {vs : List Json} {ss : List Schema} (h : vs.mapM inner = some ss) (depth : ℕ)
    (seen : List String) : ReadsAll root depth vs seen (readings ss depth seen) := by
  induction vs generalizing ss seen with
  | nil =>
    cases h
    exact .nil
  | cons v vs ih =>
    rw [List.mapM_cons] at h
    obtain ⟨s, hs, hrest⟩ := Option.bind_eq_some_iff.mp h
    obtain ⟨ss', hss, hcons⟩ := Option.bind_eq_some_iff.mp hrest
    cases hcons
    exact .cons (hinner v s hs depth seen) (ih hss _)

theorem readsShape_of_inlineShape
    (hinner : ∀ v s, inner v = some s → ∀ depth seen, Reads root depth v seen (s.reading depth seen))
    {shape : Shape} {s : Schema} (h : inlineShape inner shape = some s) (depth : ℕ)
    (seen : List String) : ReadsShape root depth shape seen (s.reading depth seen) := by
  cases shape with
  | value v =>
    cases h
    exact .value v
  | allOf members =>
    obtain ⟨ss, hss, rfl⟩ := Option.map_eq_some_iff.mp h
    exact .allOf (readsAll_of_mapM hinner hss depth seen)
  | variant first =>
    obtain ⟨s', hs, rfl⟩ := Option.map_eq_some_iff.mp h
    exact hinner first s' hs depth seen
  | object keys props =>
    obtain ⟨ss, hss, rfl⟩ := Option.map_eq_some_iff.mp h
    cases depth with
    | zero => exact ⟨0, rfl⟩
    | succ depth => exact .object (readsAll_of_mapM hinner hss depth seen)
  | array items =>
    cases items with
    | none =>
      cases h
      cases depth <;> exact ⟨0, rfl⟩
    | some it =>
      obtain ⟨s', hs, rfl⟩ := Option.map_eq_some_iff.mp h
      cases depth with
      | zero => exact ⟨0, rfl⟩
      | succ depth => exact .array (hinner it s' hs depth seen)

end

/-- The walk over a document is the walk over the tree of the schema. -/
theorem reads_inline {root v : Json} {fuel : ℕ} {s : Schema} (h : inline root fuel v = some s)
    (depth : ℕ) (seen : List String) : Reads root depth v seen (s.reading depth seen) := by
  induction fuel generalizing v s depth seen with
  | zero => cases h
  | succ fuel ih =>
    rw [inline] at h
    obtain ⟨bare, hbare, hnode⟩ := Option.bind_eq_some_iff.mp h
    have hshape := readsShape_of_inlineShape (fun _ _ hs => ih hs) hbare depth
    cases href : refOf v with
    | none =>
      rw [href] at hnode
      cases hnode
      exact .stay (.plain href) (hshape seen)
    | some ptr =>
      rw [href] at hnode
      simp only at hnode
      cases hlook : lookup root ptr with
      | none =>
        rw [hlook] at hnode
        cases hnode
        rw [Schema.reading]
        by_cases hseen : ptr ∈ seen
        · rw [if_pos hseen]
          exact .stay (.again href hseen) (hshape seen)
        · rw [if_neg hseen]
          exact .stay (.dead href hseen hlook) (hshape (ptr :: seen))
      | some next =>
        rw [hlook] at hnode
        obtain ⟨target, htarget, rfl⟩ := Option.map_eq_some_iff.mp hnode
        rw [Schema.reading]
        by_cases hseen : ptr ∈ seen
        · rw [if_pos hseen]
          exact .stay (.again href hseen) (hshape seen)
        · rw [if_neg hseen]
          exact (ih htarget depth (ptr :: seen)).follow href hseen hlook

end Voleeo.Imports.SchemaExample
