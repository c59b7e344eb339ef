import Voleeo.Imports.SchemaExample
import Voleeo.Json
import Voleeo.Loops

/-!
# Every schema is read

A walk over a schema keeps its result with more fuel, and comes to an end for every document: it
goes into a smaller node, or follows a reference that was not followed before.
-/
namespace Voleeo.Imports.SchemaExample
open Json (insertAll mergeAll)

variable {root : Json} {depth fuel : ℕ} {seen : List String}

/-! ## More fuel -/

theorem resolve_succ {v : Json} {r : Json × List String} (h : resolve root fuel v seen = some r) :
    resolve root (fuel + 1) v seen = some r := by
  induction fuel generalizing v seen with
  | zero => cases h
  | succ fuel ih =>
    rw [resolve] at h ⊢
    split
    · next hnone => rwa [hnone] at h
    · next ptr hptr =>
        rw [hptr] at h
        simp only at h
        by_cases hseen : ptr ∈ seen
        · rwa [if_pos hseen] at h ⊢
        · rw [if_neg hseen] at h ⊢
          cases hlook : lookup root ptr with
          | none => rwa [hlook] at h
          | some next =>
            rw [hlook] at h
            exact ih h

section
variable {α β : Type} {f g : α → List String → Option (β × List String)}

theorem visitAll_cons (v : α) (vs : List α) (seen : List String) :
    visitAll f (v :: vs) seen
      = (f v seen).bind fun r => (visitAll f vs r.2).map fun rs => (r.1 :: rs.1, rs.2) := by
  cases h : f v seen with
  | none => simp [visitAll, h]
  | some r => cases h' : visitAll f vs r.2 <;> simp [visitAll, h, h']

theorem visitAll_mono (hfg : ∀ v seen r, f v seen = some r → g v seen = some r) {vs : List α}
    {rs : List β × List String} (h : visitAll f vs seen = some rs) :
    visitAll g vs seen = some rs := by
  induction vs generalizing seen rs with
  | nil => exact h
  | cons v vs ih =>
    rw [visitAll_cons] at h ⊢
    obtain ⟨r, hr, hrest⟩ := Option.bind_eq_some_iff.mp h
    obtain ⟨rs', hrs, rfl⟩ := Option.map_eq_some_iff.mp hrest
    rw [hfg v seen r hr, Option.bind_some, ih hrs, Option.map_some]

end

theorem readShape_mono {f g : ℕ → Json → List String → Option (Json × List String)}
    (hfg : ∀ depth v seen r, f depth v seen = some r → g depth v seen = some r) {shape : Shape}
    {r : Json × List String} (h : readShape f depth seen shape = some r) :
    readShape g depth seen shape = some r := by
  cases shape with
  | value v => exact h
  | allOf members =>
    obtain ⟨rs, hrs, rfl⟩ := Option.map_eq_some_iff.mp h
    rw [readShape, visitAll_mono (hfg depth) hrs, Option.map_some]
  | variant first => exact hfg depth first seen r h
  | object keys props =>
    cases depth with
    | zero => exact h
    | succ depth =>
      obtain ⟨rs, hrs, rfl⟩ := Option.map_eq_some_iff.mp h
      simp only [readShape, visitAll_mono (hfg depth) hrs, Option.map_some]
  | array items =>
    cases depth with
    | zero => exact h
    | succ depth =>
      cases items with
      | none => exact h
      | some it =>
        obtain ⟨r', hr, rfl⟩ := Option.map_eq_some_iff.mp h
        simp only [readShape, hfg depth it seen r' hr, Option.map_some]

theorem exampleInner_eq (fuel depth : ℕ) (v : Json) (seen : List String) :
    exampleInner root (fuel + 1) depth v seen = (resolve root fuel v seen).bind fun c =>
      readShape (exampleInner root fuel) depth c.2 (shapeOf c.1) := by
  rw [exampleInner]
  cases resolve root fuel v seen with
  | none => rfl
  | some c => exact exampleOf_eq (exampleInner root fuel) depth c.1 c.2

theorem exampleInner_succ {v : Json} {r : Json × List String}
    (h : exampleInner root fuel depth v seen = some r) :
    exampleInner root (fuel + 1) depth v seen = some r := by
  induction fuel generalizing depth v seen r with
  | zero => cases h
  | succ fuel ih =>
    rw [exampleInner_eq] at h ⊢
    obtain ⟨c, hc, hr⟩ := Option.bind_eq_some_iff.mp h
    rw [resolve_succ hc, Option.bind_some]
    exact readShape_mono (fun _ _ _ _ h => ih h) hr

theorem exampleInner_le {fuel' : ℕ} {v : Json} {r : Json × List String} (hle : fuel ≤ fuel')
    (h : exampleInner root fuel depth v seen = some r) :
    exampleInner root fuel' depth v seen = some r := by
  induction hle with
  | refl => exact h
  | step _ ih => exact exampleInner_succ ih

/-! ## Walks that end -/

/-- The walk over the schema ends with the example and the references followed so far. -/
def Reads (root : Json) (depth : ℕ) (v : Json) (seen : List String) (r : Json × List String) :
    Prop :=
  ∃ fuel, exampleInner root fuel depth v seen = some r

def ReadsAll (root : Json) (depth : ℕ) (vs : List Json) (seen : List String)
    (rs : List Json × List String) : Prop :=
  ∃ fuel, visitAll (exampleInner root fuel depth) vs seen = some rs

def ReadsShape (root : Json) (depth : ℕ) (shape : Shape) (seen : List String)
    (r : Json × List String) : Prop :=
  ∃ fuel, readShape (exampleInner root fuel) depth seen shape = some r

theorem ReadsAll.nil : ReadsAll root depth [] seen ([], seen) := ⟨0, rfl⟩

theorem ReadsAll.cons {v : Json} {vs : List Json} {r : Json × List String}
    {rs : List Json × List String} (h : Reads root depth v seen r)
    (hs : ReadsAll root depth vs r.2 rs) :
    ReadsAll root depth (v :: vs) seen (r.1 :: rs.1, rs.2) := by
  obtain ⟨m, hm⟩ := h
  obtain ⟨n, hn⟩ := hs
  refine ⟨max m n, ?_⟩
  have hrest := visitAll_mono (fun _ _ _ h => exampleInner_le (Nat.le_max_right m n) h) hn
  rw [visitAll_cons, exampleInner_le (Nat.le_max_left m n) hm, Option.bind_some, hrest,
    Option.map_some]

/-- A node that is no reference, or a reference that is not followed, stands for itself. -/
inductive Stays (root v : Json) (seen : List String) : List String → Prop
  | plain : refOf v = none → Stays root v seen seen
  | again {ptr : String} : refOf v = some ptr → ptr ∈ seen → Stays root v seen seen
  | dead {ptr : String} :
      refOf v = some ptr → ptr ∉ seen → lookup root ptr = none → Stays root v seen (ptr :: seen)

theorem Stays.resolve {v : Json} {seen' : List String} (h : Stays root v seen seen') :
    resolve root (fuel + 1) v seen = some (v, seen') := by
  rw [SchemaExample.resolve]
  cases h with
  | plain hnone => rw [hnone]
  | again hptr hmem =>
    rw [hptr]
    exact if_pos hmem
  | dead hptr hnew hlook =>
    rw [hptr]
    simp only [if_neg hnew, hlook]

theorem Reads.stay {v : Json} {seen' : List String} {r : Json × List String}
    (hstay : Stays root v seen seen') (h : ReadsShape root depth (shapeOf v) seen' r) :
    Reads root depth v seen r := by
  obtain ⟨n, hn⟩ := h
  refine ⟨n + 2, ?_⟩
  rw [exampleInner_eq, hstay.resolve, Option.bind_some]
  exact readShape_mono (fun _ _ _ _ h => exampleInner_succ h) hn

/-- A reference that was not followed before is read as its target. -/
theorem Reads.follow {v next : Json} {ptr : String} {r : Json × List String}
    (href : refOf v = some ptr) (hnew : ptr ∉ seen) (hlook : lookup root ptr = some next)
    (h : Reads root depth next (ptr :: seen) r) : Reads root depth v seen r := by
  obtain ⟨fuel, hfuel⟩ := h
  cases fuel with
  | zero => cases hfuel
  | succ fuel =>
    rw [exampleInner_eq] at hfuel
    obtain ⟨c, hc, hr⟩ := Option.bind_eq_some_iff.mp hfuel
    refine ⟨fuel + 2, ?_⟩
    have hresolve : resolve root (fuel + 1) v seen = some c := by
      rw [resolve, href]
      simp only [if_neg hnew, hlook, hc]
    rw [exampleInner_eq, hresolve, Option.bind_some]
    exact readShape_mono (fun _ _ _ _ h => exampleInner_succ h) hr

theorem ReadsShape.value (v : Json) : ReadsShape root depth (.value v) seen (v, seen) := ⟨0, rfl⟩

theorem ReadsShape.allOf {members : List Json} {rs : List Json × List String}
    (h : ReadsAll root depth members seen rs) :
    ReadsShape root depth (.allOf members) seen (.object (mergeAll rs.1), rs.2) := by
  obtain ⟨n, hn⟩ := h
  exact ⟨n, by rw [readShape, hn, Option.map_some]⟩

theorem ReadsShape.object {keys : List String} {props : List Json}
    {rs : List Json × List String} (h : ReadsAll root depth props seen rs) :
    ReadsShape root (depth + 1) (.object keys props) seen
      (.object (insertAll [] (keys.zip rs.1)), rs.2) := by
  obtain ⟨n, hn⟩ := h
  exact ⟨n, by simp only [readShape, hn, Option.map_some]⟩

theorem ReadsShape.array {it : Json} {r : Json × List String} (h : Reads root depth it seen r) :
    ReadsShape root (depth + 1) (.array (some it)) seen (.array [r.1], r.2) := by
  obtain ⟨n, hn⟩ := h
  exact ⟨n, by simp only [readShape, hn, Option.map_some]⟩

/-! ## The nodes that a walk comes to -/

theorem inside_of_first {v w : Json} {key : String} (h : first v key = some w) : v.Inside w := by
  obtain ⟨values, hvalues, hhead⟩ := Option.bind_eq_some_iff.mp h
  obtain ⟨a, ha, harray⟩ := Option.bind_eq_some_iff.mp hvalues
  exact .tail (.single (Json.mem_parts_of_get ha))
    (Json.mem_parts_of_asArray harray (List.mem_of_head? hhead))

theorem inside_of_objectShape {v w : Json} (h : w ∈ (objectShape v).inside) : v.Inside w := by
  obtain ⟨e, he, rfl⟩ := List.mem_map.mp h
  cases hprops : (v.get "properties").bind Json.asObject with
  | none => simp [hprops] at he
  | some props =>
    rw [hprops] at he
    obtain ⟨o, ho, hobject⟩ := Option.bind_eq_some_iff.mp hprops
    exact .tail (.single (Json.mem_parts_of_get ho)) (Json.mem_parts_of_asObject hobject he)

/-- The schemas that are read for a node lie inside it. -/
theorem inside_of_shapeOf {v w : Json} (h : w ∈ (shapeOf v).inside) : v.Inside w := by
  unfold shapeOf at h
  cases hex : explicit v with
  | some ex => simp [hex, Shape.inside] at h
  | none =>
    simp only [hex] at h
    cases hall : (v.get "allOf").bind Json.asArray with
    | some all =>
      simp only [hall] at h
      obtain ⟨a, ha, harray⟩ := Option.bind_eq_some_iff.mp hall
      exact .tail (.single (Json.mem_parts_of_get ha)) (Json.mem_parts_of_asArray harray h)
    | none =>
      simp only [hall] at h
      cases hvariant : (first v "oneOf").or (first v "anyOf") with
      | some variant =>
        simp only [hvariant, Shape.inside, List.mem_singleton] at h
        subst h
        rcases Option.or_eq_some_iff.mp hvariant with h | ⟨-, h⟩ <;> exact inside_of_first h
      | none =>
        simp only [hvariant] at h
        split at h <;> try cases h
        · exact inside_of_objectShape h
        · exact .single (Json.mem_parts_of_get (Option.mem_toList.mp h))
        · split at h
          · exact inside_of_objectShape h
          · cases h

theorem lookup_mem_nodes {ptr : String} {next : Json} (h : lookup root ptr = some next) :
    next ∈ root.nodes := by
  unfold lookup at h
  split at h
  · exact Json.pointer_mem_nodes (Json.self_mem_nodes root) h
  · cases h

/-! ## Every walk ends -/

theorem exists_readsAll {vs : List Json}
    (h : ∀ v ∈ vs, ∀ seen', seen ⊆ seen' → ∃ r, Reads root depth v seen' r ∧ seen' ⊆ r.2) :
    ∃ rs, ReadsAll root depth vs seen rs ∧ seen ⊆ rs.2 := by
  induction vs generalizing seen with
  | nil => exact ⟨_, .nil, List.Subset.refl seen⟩
  | cons v vs ih =>
    obtain ⟨r, hr, hsub⟩ := h v List.mem_cons_self seen (List.Subset.refl seen)
    obtain ⟨rs, hrs, hsub'⟩ := ih fun w hw seen' hseen' =>
      h w (List.mem_cons_of_mem v hw) seen' (List.Subset.trans hsub hseen')
    exact ⟨_, .cons hr hrs, List.Subset.trans hsub hsub'⟩

/-- A node is read when the schemas inside it are, whatever was followed for the ones before. -/
theorem exists_readsShape {shape : Shape}
    (h : ∀ depth, ∀ v ∈ shape.inside, ∀ seen', seen ⊆ seen' →
      ∃ r, Reads root depth v seen' r ∧ seen' ⊆ r.2) :
    ∃ r, ReadsShape root depth shape seen r ∧ seen ⊆ r.2 := by
  have hrefl := List.Subset.refl seen
  cases shape with
  | value v => exact ⟨_, .value v, hrefl⟩
  | allOf members =>
    obtain ⟨rs, hrs, hsub⟩ := exists_readsAll (h depth)
    exact ⟨_, .allOf hrs, hsub⟩
  | variant first => exact h depth first (List.mem_singleton_self first) seen hrefl
  | object keys props =>
    cases depth with
    | zero => exact ⟨_, ⟨0, rfl⟩, hrefl⟩
    | succ depth =>
      obtain ⟨rs, hrs, hsub⟩ := exists_readsAll (h depth)
      exact ⟨_, .object hrs, hsub⟩
  | array items =>
    cases depth with
    | zero => exact ⟨_, ⟨0, rfl⟩, hrefl⟩
    | succ depth =>
      cases items with
      | none => exact ⟨_, ⟨0, rfl⟩, hrefl⟩
      | some it =>
        obtain ⟨r, hr, hsub⟩ := h depth it (List.mem_singleton_self it) seen hrefl
        exact ⟨_, .array hr, hsub⟩

/-- Either a walk stays in a node and goes on in smaller ones, or there is one reference less to
follow. -/
theorem exists_reads_of (U : List String) (hU : ∀ w ∈ root.nodes, ∀ p, refOf w = some p → p ∈ U)
    (v : Json) (hv : ∀ w ∈ v.nodes, ∀ p, refOf w = some p → p ∈ U) (depth : ℕ)
    (seen : List String) : ∃ r, Reads root depth v seen r ∧ seen ⊆ r.2 := by
  have hstay : ∀ seen', Stays root v seen seen' → seen ⊆ seen' →
      ∃ r, Reads root depth v seen r ∧ seen ⊆ r.2 := by
    intro seen' hstay hsub
    have hinside : ∀ depth, ∀ w ∈ (shapeOf v).inside, ∀ seen'', seen' ⊆ seen'' →
        ∃ r, Reads root depth w seen'' r ∧ seen'' ⊆ r.2 := by
      intro depth w hw seen'' hsub''
      have hinside := inside_of_shapeOf hw
      have hle : (unvisited id U seen'').length ≤ (unvisited id U seen).length :=
        unvisited_length_le (List.Subset.trans hsub hsub'')
      have hlt := hinside.sizeOf_lt
      have hmem := Json.inside_mem_nodes (Json.self_mem_nodes v) hinside
      exact exists_reads_of U hU w (fun u hu => hv u (Json.nodes_subset hmem hu)) depth seen''
    obtain ⟨r, hr, hsub'⟩ := exists_readsShape hinside
    exact ⟨r, .stay hstay hr, List.Subset.trans hsub hsub'⟩
  cases href : refOf v with
  | none => exact hstay seen (.plain href) (List.Subset.refl seen)
  | some ptr =>
    by_cases hseen : ptr ∈ seen
    · exact hstay seen (.again href hseen) (List.Subset.refl seen)
    cases hlook : lookup root ptr with
    | none => exact hstay _ (.dead href hseen hlook) (List.subset_cons_self ptr seen)
    | some next =>
      have hlt : (unvisited id U (ptr :: seen)).length < (unvisited id U seen).length :=
        unvisited_lt (hv v (Json.self_mem_nodes v) ptr href) rfl hseen
      have hnext := Json.nodes_subset (lookup_mem_nodes hlook)
      obtain ⟨r, hr, hsub⟩ := exists_reads_of U hU next (fun u hu => hU u (hnext hu)) depth
        (ptr :: seen)
      exact ⟨r, hr.follow href hseen hlook, List.Subset.trans (List.subset_cons_self ptr seen) hsub⟩
termination_by ((unvisited id U seen).length, sizeOf v)
decreasing_by
  · exact Prod.lex_def.mpr ((Nat.lt_or_eq_of_le hle).imp_right fun heq => ⟨heq, hlt⟩)
  · exact Prod.Lex.left _ _ hlt

/-- Whatever its references, a schema of any document is read to an end. -/
theorem exists_reads (root v : Json) (depth : ℕ) (seen : List String) :
    ∃ r, Reads root depth v seen r := by
  have hmem : ∀ w ∈ root.nodes ++ v.nodes, ∀ p, refOf w = some p →
      p ∈ (root.nodes ++ v.nodes).filterMap refOf :=
    fun w hw p hp => List.mem_filterMap.mpr ⟨w, hw, hp⟩
  obtain ⟨r, hr, -⟩ := exists_reads_of _ (fun w hw => hmem w (List.mem_append_left _ hw)) v
    (fun w hw => hmem w (List.mem_append_right _ hw)) depth seen
  exact ⟨r, hr⟩

end Voleeo.Imports.SchemaExample
