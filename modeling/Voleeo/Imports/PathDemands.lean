import Voleeo.Imports.PathRuns
import Voleeo.Send.SamePath

/-!
# What values demand of a path template

Where every value lands in its placeholder, the names fit the template. Values that are a mark tell
which segments were replaced, and a value that completes a name tells what is replaced later.
-/
namespace Voleeo.Imports.PathTemplate
open Send (isSeparator Segment IsSegment glue EndsIn IsName IsValue runNames runSegments
  replaceSegment replaceSegment_cases Later)

/-- Every value lands in its placeholder. -/
def Lands (names : List Text) (ps : List Piece) : Prop :=
  ∀ value : Text → Text, (∀ name, ∀ c ∈ value name, isUnreserved c = true) →
    runNames value names (fill behindColon ps) = fill value ps

section
variable {names : List Text} {name : Text} {ps : List Piece} {value : Text → Text}

theorem isValue_of_unreserved {text : Text} (h : ∀ c ∈ text, isUnreserved c = true) :
    IsValue text := by
  intro c hc
  have hunreserved := h c hc
  constructor
  · rintro rfl
    exact absurd hunreserved (by decide)
  · by_contra hsep
    simp only [isSeparator, Bool.not_eq_false, Bool.or_eq_true, beq_iff_eq] at hsep
    rcases hsep with (rfl | rfl) | rfl <;> exact absurd hunreserved (by decide)

/-! ## Counting -/

theorem count_fill (value : Text → Text) (c : Char) (ps : List Piece) :
    (fill value ps).count c =
      (lits ps).count c + ((holes ps).map fun name => (value name).count c).sum := by
  induction ps with
  | nil => rfl
  | cons p ps ih =>
    have hcons : fill value (p :: ps) = p.write value ++ fill value ps := rfl
    rw [hcons, List.count_append, ih]
    cases p with
    | lit d =>
      have hlits : lits (.lit d :: ps) = [d] ++ lits ps := rfl
      rw [hlits, List.count_append, Nat.add_assoc]
      rfl
    | hole name =>
      have hholes : holes (.hole name :: ps) = name :: holes ps := rfl
      have hlits : lits (.hole name :: ps) = lits ps := rfl
      rw [hholes, hlits, List.map_cons, List.sum_cons, Nat.add_left_comm]
      rfl

theorem colons_behindColon (h : ∀ name ∈ holes ps, IsName name) :
    (fill behindColon ps).count ':' = (lits ps).count ':' + (holes ps).length := by
  rw [count_fill]
  have hone : (holes ps).map (fun name => (behindColon name).count ':') =
      (holes ps).map fun _ => 1 := by
    refine List.map_congr_left fun name hname => ?_
    rw [behindColon, List.count_cons_self, List.count_eq_zero.mpr (h name hname).colon_not_mem]
  rw [hone]
  simp

theorem colons_value (h : ∀ name, IsValue (value name)) :
    (fill value ps).count ':' = (lits ps).count ':' := by
  rw [count_fill]
  have hzero : (holes ps).map (fun name => (value name).count ':') = (holes ps).map fun _ => 0 :=
    List.map_congr_left fun name _ => Send.count_value (h name)
  rw [hzero]
  simp

/-! ## Marks -/

/-- A segment stays, or a name at its end is replaced by the mark. -/
def Marked (names : List Text) (s t : Segment) : Prop :=
  s = t ∨ ∃ z name c, name ∈ names ∧ s = (z ++ ':' :: name, c) ∧ t = (z ++ ['-'], c)

theorem not_ends_mark (hname : IsName name) (z : Text) : ¬ EndsIn name (z ++ ['-']) := by
  rintro ⟨y, hy⟩
  obtain ⟨a, d, hd⟩ : ∃ a d, ':' :: name = a ++ [d] :=
    ⟨_, _, (List.dropLast_append_getLast (List.cons_ne_nil ':' name)).symm⟩
  rw [hd, ← List.append_assoc] at hy
  obtain rfl : d = '-' := by simpa using (List.append_inj' hy rfl).2
  have hmem : '-' ∈ ':' :: name := by simp [hd]
  rcases List.mem_cons.mp hmem with h | h
  · exact absurd h (by decide)
  · exact absurd (hname '-' h) (by decide)

theorem marked_run (hwords : ∀ name ∈ names, IsName name) (segments : List Segment) :
    List.Forall₂ (Marked names) segments (runSegments (fun _ => ['-']) names segments) := by
  induction names generalizing segments with
  | nil => exact List.forall₂_same.mpr fun _ _ => .inl rfl
  | cons name rest ih =>
    have hrest := ih (fun n hn => hwords n (List.mem_cons_of_mem name hn))
      (replaceSegment name ['-'] segments)
    have hstep : List.Forall₂ (Marked [name]) segments (replaceSegment name ['-'] segments) := by
      have hrefl : ∀ l : List Segment, List.Forall₂ (Marked [name]) l l :=
        fun l => List.forall₂_same.mpr fun _ _ => .inl rfl
      rcases replaceSegment_cases name ['-'] segments with
        ⟨-, heq⟩ | ⟨before, z, c, after, rfl, -, heq⟩
      · rw [heq]
        exact hrefl segments
      · rw [heq]
        exact List.rel_append (hrefl before)
          (.cons (.inr ⟨z, name, c, List.mem_singleton_self name, rfl, rfl⟩) (hrefl after))
    refine Send.forall₂_comp (fun s t u hst htu => ?_) hstep hrest
    rcases hst with rfl | ⟨z, n, c, hn, rfl, rfl⟩
    · rcases htu with rfl | ⟨z, n, c, hn, hs, ht⟩
      · exact .inl rfl
      · exact .inr ⟨z, n, c, List.mem_cons_of_mem name hn, hs, ht⟩
    · rcases htu with rfl | ⟨z', n', c', hn', hs, -⟩
      · exact .inr ⟨z, n, c, List.mem_cons.mpr (.inl (List.mem_singleton.mp hn)), rfl, rfl⟩
      · have hname' := hwords n' (List.mem_cons_of_mem name hn')
        exact absurd ⟨z', (Prod.mk.inj hs).1.symm⟩ (not_ends_mark hname' z)

/-! ## The shape of the segments -/

theorem eq_lits_of_holes (h : holes ps = []) : ps = (lits ps).map .lit := by
  induction ps with
  | nil => rfl
  | cons p ps ih =>
    cases p with
    | lit c => exact congrArg (Piece.lit c :: ·) (ih h)
    | hole name => cases h

theorem exists_of_one_hole (h : holes ps = [name]) :
    ∃ a b : Text, ps = a.map .lit ++ .hole name :: b.map .lit := by
  induction ps with
  | nil => cases h
  | cons p ps ih =>
    cases p with
    | lit c =>
      obtain ⟨a, b, hab⟩ := ih h
      exact ⟨c :: a, b, by rw [hab]; rfl⟩
    | hole other =>
      obtain ⟨rfl, hrest⟩ := List.cons.inj h
      exact ⟨[], lits ps, by rw [List.map_nil, List.nil_append, ← eq_lits_of_holes hrest]⟩

/-- A segment that is marked where its placeholder is has the placeholder at its end. -/
theorem ended_of_marked (hholes : ∀ name ∈ holes ps, IsName name) {c : Char}
    (hwords : ∀ name ∈ names, IsName name)
    (h : Marked names (fill behindColon ps, c) (fill (fun _ => ['-']) ps, c)) :
    Ended ps ∧ ∀ name ∈ holes ps, name ∈ names := by
  have hdash : IsValue ['-'] := isValue_of_unreserved (by decide)
  have hurl := colons_behindColon hholes
  have hmarked : (fill (fun _ => ['-']) ps).count ':' = (lits ps).count ':' :=
    colons_value fun _ => hdash
  rcases h with heq | ⟨z, name, d, hname, hs, ht⟩
  · rw [(Prod.mk.inj heq).1, hmarked] at hurl
    have hnil : holes ps = [] := List.eq_nil_of_length_eq_zero (by omega)
    exact ⟨⟨by rw [hnil, List.map_nil, List.append_nil]; exact eq_lits_of_holes hnil,
      by simp [hnil]⟩, by simp [hnil]⟩
  · obtain ⟨hs, -⟩ := Prod.mk.inj hs
    obtain ⟨ht, -⟩ := Prod.mk.inj ht
    rw [hs, List.count_append, List.count_cons_self,
      List.count_eq_zero.mpr (hwords name hname).colon_not_mem] at hurl
    rw [ht, List.count_append] at hmarked
    rw [Send.count_value hdash] at hmarked
    have hone : (holes ps).length = 1 := by omega
    obtain ⟨hole, hhole⟩ := List.length_eq_one_iff.mp hone
    obtain ⟨a, b, hab⟩ := exists_of_one_hole hhole
    have hurl' : fill behindColon ps = a ++ (':' :: hole ++ b) := by
      rw [hab, fill_append, fill_lits]
      congr 1
      exact congrArg (behindColon hole ++ ·) (fill_lits b)
    have hmarked' : fill (fun _ => ['-']) ps = a ++ ('-' :: b) := by
      rw [hab, fill_append, fill_lits]
      congr 1
      exact congrArg (['-'] ++ ·) (fill_lits b)
    rw [hs] at hurl'
    rw [ht] at hmarked'
    -- Behind the placeholder nothing is left, or the mark stands where the colon is.
    obtain rfl : b = [] := by
      by_contra hb
      obtain ⟨front, d, rfl⟩ : ∃ front d, b = front ++ [d] :=
        ⟨_, _, (List.dropLast_append_getLast hb).symm⟩
      have hsplit : z ++ ['-'] = (a ++ '-' :: front) ++ [d] := by
        rw [hmarked', List.append_assoc]
        rfl
      obtain ⟨rfl, -⟩ := List.append_inj' hsplit rfl
      rw [List.append_assoc, List.append_cancel_left_eq] at hurl'
      exact absurd (List.cons.inj hurl').1 (by decide)
    obtain ⟨rfl, -⟩ := List.append_inj' hmarked' rfl
    obtain rfl : name = hole := by
      simpa using hurl'
    have hended : Ended ps := by
      refine ⟨?_, by simp [hhole]⟩
      rw [hhole, hab, lits_append, lits_map_lit]
      simp [lits, Piece.lit?]
    exact ⟨hended, by simpa [hhole] using hname⟩

theorem ended_of_lands (hwords : ∀ name ∈ names, IsName name)
    (hholes : ∀ name ∈ holes ps, IsName name) (hlands : Lands names ps) :
    ∀ s ∈ segmentsOf ps, Ended s.1 ∧ ∀ name ∈ holes s.1, name ∈ names := by
  have hdash : ∀ c ∈ ['-'], isUnreserved c = true := by decide
  have hrun := (runNames_iff hwords hholes fun _ => isValue_of_unreserved hdash).mp
    (hlands (fun _ => ['-']) fun _ => hdash)
  have hmarked := marked_run hwords (stateOf behindColon ps)
  rw [hrun, stateOf, stateOf, List.forall₂_map_left_iff, List.forall₂_map_right_iff,
    List.forall₂_same] at hmarked
  intro s hs
  exact ended_of_marked (fun name hname => hholes name (mem_holes_of_mem hs hname)) hwords
    (hmarked s hs)

/-! ## Placeholders are distinct -/

theorem count_replaceFirstParam_le (value s : Text) (c : Char) :
    (Send.replaceFirstParam name value s).count c ≤ s.count c + value.count c := by
  rcases Send.replaceFirstParam_cases name value s with heq | ⟨before, after, rfl, -, heq⟩
  · rw [heq]
    exact Nat.le_add_right _ _
  · rw [heq]
    simp only [List.count_append, List.count_cons]
    omega

theorem count_runNames_le (names : List Text) (s : Text) (c : Char) :
    (runNames value names s).count c ≤
      s.count c + (names.map fun name => (value name).count c).sum := by
  induction names generalizing s with
  | nil => exact Nat.le_refl _
  | cons name rest ih =>
    have hstep := @count_replaceFirstParam_le name (value name) s c
    have hrest := ih (Send.replaceFirstParam name (value name) s)
    rw [List.map_cons, List.sum_cons, runNames, List.foldl_cons]
    rw [runNames] at hrest
    omega

/-- One value is a tilde, the others are dashes. -/
def tilde (name other : Text) : Text := if other = name then ['~'] else ['-']

theorem sum_tilde (name : Text) (names : List Text) :
    (names.map fun other => (tilde name other).count '~').sum = names.count name := by
  induction names with
  | nil => rfl
  | cons other rest ih =>
    rw [List.map_cons, List.sum_cons, ih, List.count_cons, tilde, Nat.add_comm]
    by_cases h : other = name
    · simp [h]
    · have hne : ¬ (other == name) = true := by simpa using h
      rw [if_neg h, if_neg hne]
      rfl

theorem distinct_of_lands (hnodup : names.Nodup) (hholes : ∀ name ∈ holes ps, IsName name)
    (hlands : Lands names ps) : (holes ps).Nodup := by
  refine List.nodup_iff_count_le_one.mpr fun name => ?_
  have htilde : ∀ other, ∀ c ∈ tilde name other, isUnreserved c = true := by
    intro other
    rw [tilde]
    split_ifs <;> decide
  have hcount := @count_runNames_le (tilde name) names (fill behindColon ps) '~'
  have hurl : ((holes ps).map fun other => (behindColon other).count '~').sum = 0 := by
    refine List.sum_eq_zero fun n hn => ?_
    obtain ⟨other, hother, rfl⟩ := List.mem_map.mp hn
    rw [behindColon, List.count_cons_of_ne (by decide), List.count_eq_zero]
    exact fun h => absurd (hholes other hother '~' h) (by decide)
  rw [hlands (tilde name) htilde, count_fill, sum_tilde, sum_tilde, count_fill, hurl] at hcount
  have hle := List.nodup_iff_count_le_one.mp hnodup name
  omega

/-! ## What is replaced too early -/

/-- A segment that loses a colon when a name is replaced is the one of its placeholder. -/
theorem hole_of_replaced (hholes : ∀ name ∈ holes ps, IsName name) (hvalue : ∀ name, IsValue (value name))
    (hended : ∀ s ∈ segmentsOf ps, Ended s.1) (hname : IsName name) {done : List Text} {k : ℕ}
    {z : Text} {c : Char} {t : Segment}
    (hstate : (runSegments value done (stateOf behindColon ps))[k]? = some (z ++ ':' :: name, c))
    (hlast : (stateOf value ps)[k]? = some t)
    (hcount : t.1.count ':' < (z ++ ':' :: name).count ':') :
    ∃ s, (segmentsOf ps)[k]? = some s ∧ holes s.1 = [name] := by
  rw [stateOf, List.getElem?_map] at hlast
  obtain ⟨s, hs, rfl⟩ := Option.map_eq_some_iff.mp hlast
  have hmem := List.mem_of_getElem? hs
  refine ⟨s, hs, ?_⟩
  have hsholes : ∀ other ∈ holes s.1, IsName other :=
    fun other hother => hholes other (mem_holes_of_mem hmem hother)
  have hstart : (stateOf behindColon ps)[k]? = some (fill behindColon s.1, s.2) := by
    rw [stateOf, List.getElem?_map, hs, Option.map_some]
  obtain ⟨u, hu, hlater⟩ := Send.exists_getElem?_of_forall₂
    (Send.later_runSegments hvalue done (stateOf behindColon ps)) hstart
  obtain rfl := Option.some.inj (hstate.symm.trans hu)
  have hurl := colons_behindColon hsholes
  have hends := hended s hmem
  rw [colons_value hvalue] at hcount
  have hlength := hends.2
  rcases hlater with heq | hless
  · have hone : (holes s.1).length = 1 := by
      have hcolons := congrArg (fun u : Segment => u.1.count ':') heq
      simp only at hcolons
      omega
    obtain ⟨hole, hhole⟩ := List.length_eq_one_iff.mp hone
    have htext := (Prod.mk.inj heq).1
    rw [fill_of_ended hends, hhole, List.flatMap_singleton] at htext
    obtain ⟨-, rfl⟩ := Send.colon_split (hsholes hole (by simp [hhole])).colon_not_mem
      hname.colon_not_mem htext
    exact hhole
  · simp only at hless
    omega

/-- A segment that keeps a name at its end has the placeholder of the name in front of it. -/
theorem exists_hole_before (hwords : ∀ name ∈ names, IsName name)
    (hholes : ∀ name ∈ holes ps, IsName name) (hvalue : ∀ name, IsValue (value name))
    (hended : ∀ s ∈ segmentsOf ps, Ended s.1) {done todo : List Text}
    (hnames : names = done ++ name :: todo)
    (hrun : runSegments value names (stateOf behindColon ps) = stateOf value ps)
    {before after : List (List Piece × Char)} {s : List Piece × Char}
    (hsplit : segmentsOf ps = before ++ s :: after)
    (hstate : (runSegments value done (stateOf behindColon ps))[before.length]?
      = some (fill value s.1, s.2))
    (hends : EndsIn name (fill value s.1)) : ∃ t ∈ before, holes t.1 = [name] := by
  have hget : (stateOf value ps)[before.length]? = some (fill value s.1, s.2) := by
    simp [stateOf, hsplit]
  rw [← hrun, hnames] at hget
  obtain ⟨k, hk, z, c, t, hz, ht, hcount⟩ :=
    Send.exists_replaced_before hvalue hstate hends hget
  rw [← hnames, hrun] at ht
  have hname := hwords name (by simp [hnames])
  obtain ⟨u, hu, hhole⟩ :=
    hole_of_replaced hholes hvalue hended hname hz ht hcount
  rw [hsplit, List.getElem?_append_left hk] at hu
  exact ⟨u, List.mem_of_getElem? hu, hhole⟩

/-- A segment that ends in another name stays. -/
theorem runSegments_other {other : Text} (hother : IsName other)
    (hwords : ∀ name ∈ names, IsName name) (hmem : other ∉ names) {segments : List Segment}
    {i : ℕ} {z : Text} {c : Char} (h : segments[i]? = some (z ++ ':' :: other, c)) :
    (runSegments value names segments)[i]? = some (z ++ ':' :: other, c) := by
  induction names generalizing segments with
  | nil => exact h
  | cons name rest ih =>
    rw [List.mem_cons, not_or] at hmem
    have hstep : (replaceSegment name (value name) segments)[i]? = some (z ++ ':' :: other, c) := by
      rcases replaceSegment_cases name (value name) segments with
        ⟨-, heq⟩ | ⟨before, z', d, after, rfl, -, heq⟩
      · rwa [heq]
      · rw [heq]
        rcases Nat.lt_trichotomy i before.length with hlt | rfl | hgt
        · rwa [List.getElem?_append_left hlt] at h ⊢
        · have hname := hwords name List.mem_cons_self
          simp at h
          obtain ⟨-, heq⟩ := Send.colon_split hname.colon_not_mem hother.colon_not_mem h.1
          exact absurd heq.symm hmem.1
        · rw [List.getElem?_append_right hgt.le] at h ⊢
          obtain ⟨k, hk⟩ := Nat.exists_eq_succ_of_ne_zero (Nat.sub_ne_zero_of_lt hgt)
          rw [hk] at h ⊢
          exact h
    exact ih (fun n hn => hwords n (List.mem_cons_of_mem name hn)) hmem.2 hstep

/-- One value is given, the others are dashes. -/
def oneValue (other value name : Text) : Text := if name = other then value else ['-']

theorem exists_split_of_sublist {other : Text} (h : [other, name].Sublist names) :
    ∃ done todo, names = done ++ name :: todo ∧ other ∈ done := by
  obtain ⟨front, back, rfl, hother, hname⟩ := List.cons_sublist_iff.mp h
  obtain ⟨a, b, rfl⟩ := List.append_of_mem (List.singleton_sublist.mp hname)
  exact ⟨front ++ a, b, by rw [List.append_assoc], List.mem_append_left a hother⟩

/-- A segment on its way from the URL to the filled template. -/
theorem exists_state (hvalue : ∀ name, IsValue (value name)) {done todo : List Text}
    (hnames : names = done ++ todo)
    (hrun : runSegments value names (stateOf behindColon ps) = stateOf value ps)
    {before after : List (List Piece × Char)} {s : List Piece × Char}
    (hsplit : segmentsOf ps = before ++ s :: after) :
    ∃ t, (runSegments value done (stateOf behindColon ps))[before.length]? = some t ∧
      Later (fill behindColon s.1, s.2) t ∧ Later t (fill value s.1, s.2) := by
  have hget : ∀ value : Text → Text,
      (stateOf value ps)[before.length]? = some (fill value s.1, s.2) := by
    intro value
    simp [stateOf, hsplit]
  obtain ⟨t, ht, hlater⟩ := Send.exists_getElem?_of_forall₂
    (Send.later_runSegments hvalue done (stateOf behindColon ps)) (hget behindColon)
  obtain ⟨u, hu, hlater'⟩ := Send.exists_getElem?_of_forall₂
    (Send.later_runSegments hvalue todo (runSegments value done (stateOf behindColon ps))) ht
  have hall : runSegments value todo (runSegments value done (stateOf behindColon ps))
      = stateOf value ps := by
    rw [← hrun, hnames, runSegments, runSegments, runSegments, List.foldl_append]
  rw [hall, hget value] at hu
  obtain rfl := Option.some.inj hu
  exact ⟨t, ht, hlater, hlater'⟩

/-- Values land everywhere only where the names fit. -/
theorem fit_of_lands (hwords : ∀ name ∈ names, IsName name) (hnodup : names.Nodup)
    (hholes : ∀ name ∈ holes ps, IsName name) (hlands : Lands names ps) :
    NamesFit names ps := by
  have hshape := ended_of_lands hwords hholes hlands
  have hended : ∀ s ∈ segmentsOf ps, Ended s.1 := fun s hs => (hshape s hs).1
  have hnamed : ∀ name ∈ holes ps, name ∈ names := by
    intro name hname
    rw [← flatMap_holes] at hname
    obtain ⟨s, hs, hname⟩ := List.mem_flatMap.mp hname
    exact (hshape s hs).2 name hname
  refine ⟨hended, distinct_of_lands hnodup hholes hlands, hnamed, ?_, ?_⟩
  · intro before s after name hsplit hname hnone hends
    have hdash : ∀ c ∈ ['-'], isUnreserved c = true := by decide
    have hvalue : ∀ name : Text, IsValue ((fun _ => ['-']) name) :=
      fun _ => isValue_of_unreserved hdash
    have hrun := (runNames_iff hwords hholes hvalue).mp (hlands (fun _ => ['-']) fun _ => hdash)
    obtain ⟨done, todo, hnames⟩ := List.append_of_mem hname
    have hsame : ∀ value : Text → Text, fill value s.1 = lits s.1 := by
      intro value
      rw [fill_of_ended (hended s (by simp [hsplit])), hnone, List.flatMap_nil, List.append_nil]
    obtain ⟨t, ht, hlater, hlater'⟩ := exists_state hvalue hnames hrun hsplit
    have hstate := hlater.eq_of_eq hlater' (by rw [hsame, hsame])
    rw [hstate] at ht
    refine exists_hole_before hwords hholes hvalue hended hnames hrun hsplit ht ?_
    rw [hsame]
    exact hends
  · intro before s after other name word hsplit hsub hhole hends hword
    obtain ⟨done, todo, hnames, hdone⟩ := exists_split_of_sublist hsub
    have hname : name ∈ names := by simp [hnames]
    have hother : other ∈ names := by simp [hnames, hdone]
    obtain ⟨rest, rfl⟩ := hword
    -- The value completes the name at the end of the segment.
    have hunreserved : ∀ n, ∀ c ∈ oneValue other rest n, isUnreserved c = true := by
      intro n c hc
      rw [oneValue] at hc
      split_ifs at hc
      · exact Send.unreserved_of_wordChar (hwords _ hname c (List.mem_append_right word hc))
      · obtain rfl := List.mem_singleton.mp hc
        rfl
    have hvalue : ∀ n, IsValue (oneValue other rest n) :=
      fun n => isValue_of_unreserved (hunreserved n)
    have hrun := (runNames_iff hwords hholes hvalue).mp (hlands _ hunreserved)
    have hs : s ∈ segmentsOf ps := by simp [hsplit]
    have hfill : ∀ value : Text → Text, fill value s.1 = lits s.1 ++ value other := by
      intro value
      rw [fill_of_ended (hended s hs), hhole, List.flatMap_singleton]
    obtain ⟨z, hz⟩ := hends
    have hlast : fill (oneValue other rest) s.1 = z ++ ':' :: (word ++ rest) := by
      rw [hfill, oneValue, if_pos rfl, ← hz, List.append_assoc]
      rfl
    obtain ⟨t, ht, hlater, hlater'⟩ := exists_state hvalue hnames hrun hsplit
    have hurl : fill behindColon s.1 = lits s.1 ++ ':' :: other := hfill behindColon
    have hcolons : (fill behindColon s.1).count ':' = (lits s.1).count ':' + 1 := by
      rw [colons_behindColon fun n hn => hholes n (mem_holes_of_mem hs hn), hhole]
      rfl
    have hvalues : (fill (oneValue other rest) s.1).count ':' = (lits s.1).count ':' :=
      colons_value hvalue
    have hstate : t = (fill (oneValue other rest) s.1, s.2) := by
      rcases hlater with rfl | hless
      · -- What is not replaced by then is not replaced later either.
        have hnew : other ∉ (word ++ rest) :: todo := by
          rw [hnames] at hnodup
          exact fun h => (List.nodup_append.mp hnodup).2.2 other hdone other h rfl
        rw [hurl] at ht
        have hwords' : ∀ n ∈ (word ++ rest) :: todo, IsName n :=
          fun n hn => hwords n (hnames ▸ List.mem_append_right done hn)
        have hkept := @runSegments_other _ (oneValue other rest) _ (hwords other hother)
          hwords' hnew _ _ _ _ ht
        have hall : runSegments (oneValue other rest) ((word ++ rest) :: todo)
            (runSegments (oneValue other rest) done (stateOf behindColon ps))
              = stateOf (oneValue other rest) ps := by
          rw [← hrun, hnames, runSegments, runSegments, runSegments, List.foldl_append]
        rw [hall, stateOf, List.getElem?_map, hsplit] at hkept
        simp at hkept
        rw [hurl, ← hkept, hvalues] at hcolons
        omega
      · rcases hlater' with heq | hless'
        · exact heq
        · simp only at hless hless'
          omega
    rw [hstate] at ht
    refine exists_hole_before hwords hholes hvalue hended hnames hrun hsplit ht ?_
    exact ⟨z, hlast.symm⟩

end

end Voleeo.Imports.PathTemplate
