import Voleeo.Imports.PathPieces

/-!
# Names that fit a path template

The parameters of a URL are replaced one after another. What is said here of the template and the
names is exactly what it takes for every value to land in its placeholder.
-/
namespace Voleeo.Imports.PathTemplate
open Send (isSeparator Segment IsSegment glue EndsIn IsName IsValue runNames runSegments
  replaceSegment replaceSegment_cases Later)

/-- The URL of a template whose placeholders have names for it. -/
def behindColon (name : Text) : Text := ':' :: name

/-- Each placeholder is the end of its segment, and when a name is replaced, the first segment that
could end in it is the one of its placeholder. -/
structure NamesFit (names : List Text) (ps : List Piece) : Prop where
  ended : ∀ s ∈ segmentsOf ps, Ended s.1
  distinct : (holes ps).Nodup
  named : ∀ name ∈ holes ps, name ∈ names
  literal : ∀ before s after name, segmentsOf ps = before ++ s :: after → name ∈ names →
    holes s.1 = [] → EndsIn name (lits s.1) → ∃ t ∈ before, holes t.1 = [name]
  /-- The value of a placeholder can complete a name that is replaced later. -/
  completed : ∀ before s after other name word, segmentsOf ps = before ++ s :: after →
    [other, name].Sublist names → holes s.1 = [other] → EndsIn word (lits s.1) → word <+: name →
    ∃ t ∈ before, holes t.1 = [name]

/-- Without a colon in the literal text only the placeholders count. -/
theorem namesFit_of_no_colon {names : List Text} {ps : List Piece}
    (hended : ∀ s ∈ segmentsOf ps, Ended s.1) (hdistinct : (holes ps).Nodup)
    (hnamed : ∀ name ∈ holes ps, name ∈ names) (hcolon : ∀ s ∈ segmentsOf ps, ':' ∉ lits s.1) :
    NamesFit names ps := by
  have hno : ∀ s ∈ segmentsOf ps, ∀ name, ¬ EndsIn name (lits s.1) :=
    fun s hs name h => hcolon s hs (h.mem List.mem_cons_self)
  refine ⟨hended, hdistinct, hnamed, ?_, ?_⟩
  · intro before s after name hsplit _ _ hends
    exact absurd hends (hno s (by simp [hsplit]) name)
  · intro before s after other name word hsplit _ _ hends _
    exact absurd hends (hno s (by simp [hsplit]) word)

section
variable {names done : List Text} {name : Text} {ps : List Piece} {value : Text → Text}

/-- The placeholders that are done have their values. -/
def Partly (value : Text → Text) (done : List Text) (name : Text) : Text :=
  if name ∈ done then value name else behindColon name

/-- The segments of the URL, with the values of the placeholders that are done. -/
def stateOf (value : Text → Text) (ps : List Piece) : List Segment :=
  (segmentsOf ps).map fun s => (fill value s.1, s.2)

theorem fill_congr {value' : Text → Text} (h : ∀ name ∈ holes ps, value name = value' name) :
    fill value ps = fill value' ps := by
  refine List.flatMap_congr fun p hp => ?_
  cases p with
  | lit c => rfl
  | hole name => exact h name (mem_holes.mpr hp)

theorem mem_holes_of_mem {s : List Piece × Char} (hs : s ∈ segmentsOf ps)
    (h : name ∈ holes s.1) : name ∈ holes ps := by
  rw [← flatMap_holes]
  exact List.mem_flatMap.mpr ⟨s, hs, h⟩

theorem stateOf_congr {value' : Text → Text} (h : ∀ name ∈ holes ps, value name = value' name) :
    stateOf value ps = stateOf value' ps :=
  List.map_congr_left fun s hs => by
    rw [fill_congr fun name hname => h name (mem_holes_of_mem hs hname)]

/-- A placeholder stands in one segment only. -/
theorem not_mem_holes_of_split (hdistinct : (holes ps).Nodup)
    {before after : List (List Piece × Char)} {s : List Piece × Char}
    (hsplit : segmentsOf ps = before ++ s :: after) (hname : name ∈ holes s.1) :
    ∀ t ∈ before ++ after, name ∉ holes t.1 := by
  rw [← flatMap_holes, hsplit, List.flatMap_append, List.flatMap_cons] at hdistinct
  obtain ⟨-, hrest, hbefore⟩ := List.nodup_append.mp hdistinct
  obtain ⟨-, -, hafter⟩ := List.nodup_append.mp hrest
  intro t ht hmem
  rcases List.mem_append.mp ht with ht | ht
  · exact hbefore name (List.mem_flatMap.mpr ⟨t, ht, hmem⟩) name (List.mem_append_left _ hname) rfl
  · exact hafter name hname name (List.mem_flatMap.mpr ⟨t, ht, hmem⟩) rfl

theorem eq_singleton_of_ended (hended : Ended ps) (hmem : name ∈ holes ps) : holes ps = [name] := by
  obtain ⟨other, rest, h⟩ := List.exists_cons_of_ne_nil (List.ne_nil_of_mem hmem)
  have hlength := hended.2
  rw [h, List.length_cons] at hlength
  obtain rfl := List.eq_nil_of_length_eq_zero (by omega : rest.length = 0)
  rw [h, List.mem_singleton] at hmem
  rw [h, hmem]

theorem ends_of_hole (hended : Ended ps) (hhole : holes ps = [name]) (hname : name ∉ done) :
    EndsIn name (fill (Partly value done) ps) := by
  rw [fill_of_ended hended, hhole, List.flatMap_singleton, Partly, if_neg hname]
  exact List.suffix_append _ _

/-- What ends in a name that is not done is the segment of its placeholder, or one in front of
which there is such a segment. -/
theorem hole_of_ends (hfit : NamesFit names ps) (hvalue : ∀ name, IsValue (value name))
    (hwords : ∀ name ∈ names, IsName name) {todo : List Text}
    (hnames : names = done ++ name :: todo)
    {before after : List (List Piece × Char)} {s : List Piece × Char}
    (hsplit : segmentsOf ps = before ++ s :: after) {z : Text}
    (hz : fill (Partly value done) s.1 = z ++ ':' :: name) :
    holes s.1 = [name] ∨ ∃ t ∈ before, holes t.1 = [name] := by
  have hmem : name ∈ names := by simp [hnames]
  have hs : s ∈ segmentsOf ps := by simp [hsplit]
  have hended := hfit.ended s hs
  rw [fill_of_ended hended] at hz
  cases hholes : holes s.1 with
  | nil =>
    rw [hholes, List.flatMap_nil, List.append_nil] at hz
    exact .inr (hfit.literal before s after name hsplit hmem hholes ⟨z, hz.symm⟩)
  | cons other rest =>
    obtain rfl : rest = [] := by
      have hlength := hended.2
      rw [hholes] at hlength
      exact List.eq_nil_of_length_eq_zero (by simpa using hlength)
    rw [hholes, List.flatMap_singleton, Partly] at hz
    have hother : other ∈ names :=
      hfit.named other (mem_holes_of_mem hs (by simp [hholes]))
    by_cases hdone : other ∈ done
    · rw [if_pos hdone] at hz
      have hsub : [other, name].Sublist names := by
        rw [hnames]
        exact (List.singleton_sublist.mpr hdone).append
          (List.singleton_sublist.mpr List.mem_cons_self)
      have hno : ':' ∉ value other := fun h => (hvalue other ':' h).1 rfl
      obtain ⟨w, hlits, hword⟩ := Send.split_before_value hno hz
      exact .inr (hfit.completed before s after other name w hsplit hsub hholes
        ⟨z, hlits.symm⟩ ⟨value other, hword.symm⟩)
    · rw [if_neg hdone] at hz
      obtain ⟨-, rfl⟩ := Send.colon_split (hwords other hother).colon_not_mem
        (hwords name hmem).colon_not_mem hz
      exact .inl rfl

theorem stateOf_append (hname : name ∉ holes ps) :
    stateOf (Partly value (done ++ [name])) ps = stateOf (Partly value done) ps := by
  refine stateOf_congr fun other hother => ?_
  have hne : other ≠ name := fun h => hname (h ▸ hother)
  simp [Partly, hne]

/-- One step of a run fills one placeholder. -/
theorem replaceSegment_stateOf (hfit : NamesFit names ps) (hvalue : ∀ name, IsValue (value name))
    (hwords : ∀ name ∈ names, IsName name) {todo : List Text}
    (hnames : names = done ++ name :: todo) (hnew : name ∉ done) :
    replaceSegment name (value name) (stateOf (Partly value done) ps) =
      stateOf (Partly value (done ++ [name])) ps := by
  rcases replaceSegment_cases name (value name) (stateOf (Partly value done) ps) with
    ⟨hno, heq⟩ | ⟨before, z, c, after, hstate, hbefore, heq⟩
  · have hhole : name ∉ holes ps := by
      intro hmem
      rw [← flatMap_holes] at hmem
      obtain ⟨s, hs, hmem⟩ := List.mem_flatMap.mp hmem
      have hended := hfit.ended s hs
      refine hno _ (List.mem_map.mpr ⟨s, hs, rfl⟩) (ends_of_hole hended ?_ hnew)
      exact eq_singleton_of_ended hended hmem
    rw [heq, stateOf_append hhole]
  · obtain ⟨front, rest, hsplit, rfl, hrest⟩ := List.map_eq_append_iff.mp hstate
    obtain ⟨s, back, rfl, hs, rfl⟩ := List.map_eq_cons_iff.mp hrest
    obtain ⟨hz, rfl⟩ := Prod.mk.inj hs
    have hhole : holes s.1 = [name] := by
      rcases hole_of_ends hfit hvalue hwords hnames hsplit hz with h | ⟨t, ht, hhole⟩
      · exact h
      · have hmem : t ∈ segmentsOf ps := by simp [hsplit, ht]
        exact absurd (ends_of_hole (hfit.ended t hmem) hhole hnew)
          (hbefore _ (List.mem_map.mpr ⟨t, ht, rfl⟩))
    have hended : Ended s.1 := hfit.ended s (by simp [hsplit])
    have hhere : name ∈ holes s.1 := by simp [hhole]
    have hothers := not_mem_holes_of_split hfit.distinct hsplit hhere
    have hsame : ∀ t ∈ front ++ back,
        (fill (Partly value done) t.1, t.2) = (fill (Partly value (done ++ [name])) t.1, t.2) := by
      intro t ht
      rw [fill_congr fun other hother => ?_]
      have hne : other ≠ name := fun h => hothers t ht (h ▸ hother)
      simp [Partly, hne]
    have hz' : z = lits s.1 := by
      rw [fill_of_ended hended, hhole, List.flatMap_singleton, Partly, if_neg hnew] at hz
      exact (List.append_cancel_right hz).symm
    rw [heq, stateOf, hsplit, List.map_append, List.map_cons, hz']
    congr 1
    · exact List.map_congr_left fun t ht => hsame t (List.mem_append_left _ ht)
    congr 1
    · rw [fill_of_ended hended, hhole, List.flatMap_singleton, Partly, if_pos (by simp)]
    · exact List.map_congr_left fun t ht => hsame t (List.mem_append_right _ ht)

theorem runSegments_stateOf (hfit : NamesFit names ps) (hvalue : ∀ name, IsValue (value name))
    (hwords : ∀ name ∈ names, IsName name) (hnodup : names.Nodup) (done todo : List Text)
    (hnames : names = done ++ todo) :
    runSegments value todo (stateOf (Partly value done) ps) = stateOf (Partly value names) ps := by
  induction todo generalizing done with
  | nil =>
    rw [hnames, List.append_nil]
    rfl
  | cons name todo ih =>
    have hnew : name ∉ done := by
      rw [hnames] at hnodup
      exact fun hmem => (List.nodup_append.mp hnodup).2.2 name hmem name List.mem_cons_self rfl
    rw [runSegments, List.foldl_cons, replaceSegment_stateOf hfit hvalue hwords hnames hnew]
    exact ih (done ++ [name]) (by rw [hnames, List.append_assoc]; rfl)

/-! ## The text of a run -/

theorem isValue_separator (hvalue : ∀ name, IsValue (value name)) :
    ∀ name ∈ holes ps, ∀ c ∈ value name, isSeparator c = false :=
  fun name _ c hc => (hvalue name c hc).2

theorem behindColon_separator (hholes : ∀ name ∈ holes ps, IsName name) :
    ∀ name ∈ holes ps, ∀ c ∈ behindColon name, isSeparator c = false := by
  intro name hname c hc
  rcases List.mem_cons.mp hc with rfl | hc
  · rfl
  · by_contra h
    rw [Bool.not_eq_false] at h
    exact (hholes name hname).separator_not_mem h hc

/-- The run over the URL gives the filled template exactly where the run over the segments does. -/
theorem runNames_iff (hwords : ∀ name ∈ names, IsName name)
    (hholes : ∀ name ∈ holes ps, IsName name) (hvalue : ∀ name, IsValue (value name)) :
    runNames value names (fill behindColon ps) = fill value ps ↔
      runSegments value names (stateOf behindColon ps) = stateOf value ps := by
  obtain ⟨hrun, hsegments⟩ := Send.runNames_glue hwords hvalue
    (isSegment_fill (behindColon_separator hholes))
  rw [← fill_end, Send.runNames_end hwords] at hrun
  rw [← List.append_left_inj ['/'], hrun, fill_end]
  refine ⟨fun h => ?_, fun h => congrArg glue h⟩
  exact Send.glue_injective hsegments (isSegment_fill (isValue_separator hvalue)) h

/-- Names that fit let every value land in its placeholder. -/
theorem runNames_of_fit (hfit : NamesFit names ps) (hwords : ∀ name ∈ names, IsName name)
    (hnodup : names.Nodup) (hvalue : ∀ name, IsValue (value name)) :
    runNames value names (fill behindColon ps) = fill value ps := by
  refine (runNames_iff hwords (fun name h => hwords name (hfit.named name h)) hvalue).mpr ?_
  have hrun := runSegments_stateOf hfit hvalue hwords hnodup [] names rfl
  have hstart : stateOf (Partly value []) ps = stateOf behindColon ps :=
    stateOf_congr fun other _ => if_neg List.not_mem_nil
  have hend : stateOf (Partly value names) ps = stateOf value ps :=
    stateOf_congr fun other hother => if_pos (hfit.named other hother)
  rw [← hstart, hrun, hend]

end

end Voleeo.Imports.PathTemplate
