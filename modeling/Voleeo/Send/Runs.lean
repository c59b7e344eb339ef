import Voleeo.Send.Replace

/-!
# Runs of substitutions

A dash in place of a parameter neither completes nor cuts a name, so a run that
writes dashes changes the places of the names it replaces and of no other. A
value in general may complete a name when it stands right behind a colon and the
beginning of that name.
-/
namespace Voleeo.Send
open Resolve (UnicodeTables isBoundary replacePathParam replacePathParamFrom)

variable {tables : UnicodeTables} {name other : Text}

/-! ## Splitting a text at a character -/

theorem append_cons_cases {X Y A Z : Text} {x a : Char} (h : X ++ x :: Y = A ++ a :: Z) :
    (X = A ∧ x = a ∧ Y = Z) ∨ (∃ W, X = A ++ a :: W ∧ Z = W ++ x :: Y) ∨
      ∃ W, A = X ++ x :: W ∧ Y = W ++ a :: Z := by
  rcases List.append_eq_append_iff.mp h with ⟨W, hA, hY⟩ | ⟨W, hX, hZ⟩
  · cases W with
    | nil =>
      obtain ⟨hx, hyz⟩ := List.cons.inj hY
      exact Or.inl ⟨by rw [hA, List.append_nil], hx, hyz⟩
    | cons w W =>
      obtain ⟨rfl, hyz⟩ := List.cons.inj hY
      exact Or.inr (Or.inr ⟨W, hA, hyz⟩)
  · cases W with
    | nil =>
      obtain ⟨hx, hyz⟩ := List.cons.inj hZ
      exact Or.inl ⟨by rw [hX, List.append_nil], hx.symm, hyz.symm⟩
    | cons w W =>
      obtain ⟨rfl, hyz⟩ := List.cons.inj hZ
      exact Or.inr (Or.inl ⟨W, hX, hyz⟩)

/-- A character that a text does not hold stands behind it. -/
theorem split_behind {w B W R : Text} {c : Char} (hc : c ∉ w) (h : w ++ B = W ++ c :: R) :
    ∃ W', W = w ++ W' ∧ B = W' ++ c :: R := by
  rcases List.append_eq_append_iff.mp h with ⟨W', hW, hB⟩ | ⟨W', hw, hR⟩
  · exact ⟨W', hW, hB⟩
  · cases W' with
    | nil => exact ⟨[], by rw [hw]; simp, by simpa using hR.symm⟩
    | cons d W' =>
      obtain ⟨rfl, -⟩ := List.cons.inj hR
      exact absurd (by rw [hw]; simp) hc

theorem dash_not_mem {w : Text} (hw : IsWord tables w) : '-' ∉ w := by
  intro hmem
  have := hw _ hmem
  simp at this

theorem segmentEnd_append {s : Text} (hs : s ≠ []) (t : Text) :
    isSegmentEnd (s ++ t) = isSegmentEnd s := by
  cases s with
  | nil => exact absurd rfl hs
  | cons c s => rfl

/-! ## Dashes -/

/-- A place of one of the names becomes a dash. -/
def DashStep (tables : UnicodeTables) (names : List Text) (s s' : Text) : Prop :=
  ∃ name ∈ names, IsWord tables name ∧ Subst tables name ['-'] s s'

theorem countPlaces_dash (hname : IsWord tables name) {s s' : Text}
    (h : Subst tables name ['-'] s s') :
    countPlaces tables other s = countPlaces tables other s' + if name = other then 1 else 0 := by
  obtain ⟨before, after, ⟨rfl, hafter⟩, rfl⟩ := h
  have hdash : isBoundary tables ('-' :: after) = true := by simp [isBoundary]
  have hcons : countPlaces tables other ('-' :: after) = countPlaces tables other after := by
    simp [countPlaces]
  rw [countPlaces_split other hname hafter, List.append_assoc, List.singleton_append,
    countPlaces_append other before hdash, hcons]
  omega

theorem countPlaces_dashes {names : List Text} (hother : other ∉ names) {s s' : Text}
    (h : Relation.ReflTransGen (DashStep tables names) s s') :
    countPlaces tables other s' = countPlaces tables other s := by
  induction h with
  | refl => rfl
  | tail _ hstep ih =>
    obtain ⟨name, hmem, hname, hsubst⟩ := hstep
    have hne : name ≠ other := fun heq => hother (heq ▸ hmem)
    have hcount := @countPlaces_dash _ _ other hname _ _ hsubst
    rw [if_neg hne, Nat.add_zero] at hcount
    rw [← hcount, ih]

/-- The name stands behind a colon, and a segment ends behind it. -/
def EndsSegment (name s : Text) : Prop :=
  ∃ before after, s = before ++ ':' :: (name ++ after) ∧ isSegmentEnd after = true

theorem endsSegment_of_dashes (hother : IsWord tables other) {names : List Text} {s s' : Text}
    (h : Relation.ReflTransGen (DashStep tables names) s s') (hends : EndsSegment other s') :
    EndsSegment other s := by
  induction h with
  | refl => exact hends
  | tail _ hstep ih =>
    obtain ⟨name, -, hname, before, after, ⟨hs, -⟩, hs'⟩ := hstep
    apply ih
    obtain ⟨b, a, hb, ha⟩ := hends
    rw [hs', List.append_assoc, List.singleton_append] at hb
    rcases append_cons_cases hb with ⟨-, heq, -⟩ | ⟨W, hbefore, htail⟩ | ⟨W, hb', hafter⟩
    · exact absurd heq (by decide)
    · obtain ⟨W', rfl, ha'⟩ := split_behind (dash_not_mem hother) htail
      have hne : W' ≠ [] := by
        rintro rfl
        rw [ha'] at ha
        simp [isSegmentEnd] at ha
      rw [ha', segmentEnd_append hne] at ha
      refine ⟨b, W' ++ ':' :: (name ++ after), ?_, by rwa [segmentEnd_append hne]⟩
      rw [hs, hbefore]
      simp
    · refine ⟨before ++ ':' :: (name ++ W), a, ?_, ha⟩
      rw [hs, hafter]
      simp

/-- The name stands right behind a colon and a word, and a segment ends behind it. -/
def Adjacent (word name s : Text) : Prop :=
  ∃ front after, s = front ++ ':' :: (word ++ ':' :: (name ++ after)) ∧ isSegmentEnd after = true

theorem adjacent_dash {word : Text} (hword : IsWord tables word) (hother : IsWord tables other)
    (hname : IsWord tables name) (hne : name ≠ other) (hne' : name ≠ word) {s s' : Text}
    (h : Subst tables name ['-'] s s') (hadj : Adjacent word other s) : Adjacent word other s' := by
  obtain ⟨before, after, ⟨hs, hafter⟩, rfl⟩ := h
  obtain ⟨front, tail, hadj, htail⟩ := hadj
  rw [hs] at hadj
  have hboundary := @boundary_of_segmentEnd tables _ htail
  rcases append_cons_cases hadj with ⟨-, -, heq⟩ | ⟨W, rfl, htl⟩ | ⟨W, rfl, htl⟩
  · -- The replaced place is not the word in front.
    have hsame := congrArg (List.takeWhile tables.isWord) heq
    rw [takeWhile_word hname hafter, takeWhile_word hword (isBoundary_colon _)] at hsame
    exact absurd hsame hne'
  · rcases append_cons_cases htl with ⟨-, -, heq⟩ | ⟨W', hW', -⟩ | ⟨W', rfl, hafter'⟩
    · have hsame := congrArg (List.takeWhile tables.isWord) heq
      rw [takeWhile_word hother hboundary, takeWhile_word hname hafter] at hsame
      exact absurd hsame.symm hne
    · exact absurd (by rw [hW']; simp) (colon_not_mem hword)
    · obtain ⟨W₃, rfl, rfl⟩ := split_behind (colon_not_mem hother) hafter'
      have hne₃ : W₃ ≠ [] := by
        rintro rfl
        simp [isSegmentEnd] at htail
      rw [segmentEnd_append hne₃] at htail
      refine ⟨front, W₃ ++ '-' :: after, ?_, by rwa [segmentEnd_append hne₃]⟩
      simp
  · obtain ⟨W', rfl, rfl⟩ := split_behind (colon_not_mem hname) htl
    exact ⟨before ++ '-' :: W', tail, by simp, htail⟩

theorem adjacent_dashes {word : Text} (hword : IsWord tables word) (hother : IsWord tables other)
    {names : List Text} (hne : other ∉ names) (hne' : word ∉ names) {s s' : Text}
    (h : Relation.ReflTransGen (DashStep tables names) s s') (hadj : Adjacent word other s) :
    Adjacent word other s' := by
  induction h with
  | refl => exact hadj
  | tail _ hstep ih =>
    obtain ⟨name, hmem, hname, hsubst⟩ := hstep
    exact adjacent_dash hword hother hname (fun heq => hne (heq ▸ hmem))
      (fun heq => hne' (heq ▸ hmem)) hsubst ih

/-- A value behind a colon and a word makes a place of the name that they give together. -/
theorem countPlaces_completed {word value : Text} (hword : IsWord tables word)
    (hname : IsWord tables name) (hcompleted : IsWord tables (word ++ value)) (other : Text)
    {front after : Text} (hafter : isBoundary tables after = true) :
    countPlaces tables other (front ++ ':' :: word ++ value ++ after) +
        (if name = other then 1 else 0) + (if word = other then 1 else 0) =
      countPlaces tables other (front ++ ':' :: (word ++ ':' :: (name ++ after))) +
        if word ++ value = other then 1 else 0 := by
  have hsplit : front ++ ':' :: word ++ value ++ after =
      front ++ ':' :: ((word ++ value) ++ after) := by simp
  rw [hsplit, countPlaces_split _ hcompleted hafter, countPlaces_split _ hword (isBoundary_colon _),
    ← List.nil_append (':' :: (name ++ after)), countPlaces_split _ hname hafter]
  simp only [countPlaces]
  omega

/-! ## Runs -/

/-- The web app's substitutions, with a name and a value each. -/
def webRun (steps : List (Text × Text)) (s : Text) : Text :=
  steps.foldl (fun s e => replaceFirstParam e.1 e.2 s) s

def rustRun (tables : UnicodeTables) (steps : List (Text × Text)) (s : Text) : Text :=
  steps.foldl (fun s e => replacePathParam tables s e.1 e.2) s

theorem webRun_cons (e : Text × Text) (steps : List (Text × Text)) (s : Text) :
    webRun (e :: steps) s = webRun steps (replaceFirstParam e.1 e.2 s) := rfl

theorem rustRun_cons (tables : UnicodeTables) (e : Text × Text) (steps : List (Text × Text))
    (s : Text) :
    rustRun tables (e :: steps) s = rustRun tables steps (replacePathParam tables s e.1 e.2) := rfl

theorem dashes_mono {names names' : List Text} (h : names ⊆ names') {s s' : Text}
    (hreach : Relation.ReflTransGen (DashStep tables names) s s') :
    Relation.ReflTransGen (DashStep tables names') s s' := by
  refine Relation.ReflTransGen.mono (fun s s' hstep => ?_) _ _ hreach
  obtain ⟨name, hmem, hname, hsubst⟩ := hstep
  exact ⟨name, h hmem, hname, hsubst⟩

theorem rustRun_dashes {steps : List (Text × Text)}
    (h : ∀ e ∈ steps, IsWord tables e.1 ∧ e.2 = ['-']) (s : Text) :
    Relation.ReflTransGen (DashStep tables (steps.map Prod.fst)) s (rustRun tables steps s) := by
  induction steps generalizing s with
  | nil => exact .refl
  | cons e steps ih =>
    obtain ⟨hname, hvalue⟩ := h e List.mem_cons_self
    have hfirst := @replacePathParam_reach tables e.1 e.2 hname [] s
    rw [hvalue] at hfirst
    refine Relation.ReflTransGen.trans
      (Relation.ReflTransGen.mono (fun s s' hs => ?_) _ _ hfirst) ?_
    · exact ⟨e.1, List.mem_cons_self, hname, hs⟩
    · rw [← hvalue]
      exact dashes_mono (List.subset_cons_self _ _)
        (ih (fun a ha => h a (List.mem_cons_of_mem _ ha)) _)

/-- The steps of a run write dashes, or find no place. -/
def DashLike (tables : UnicodeTables) (steps : List (Text × Text)) (s : Text) : Prop :=
  (steps.map Prod.fst).Nodup ∧ (∀ e ∈ steps, IsWord tables e.1) ∧
    ∀ e ∈ steps, e.2 = ['-'] ∨ countPlaces tables e.1 s = 0

theorem DashLike.tail {e : Text × Text} {steps : List (Text × Text)} {s : Text}
    (h : DashLike tables (e :: steps) s) :
    DashLike tables steps (replaceFirstParam e.1 e.2 s) ∧
      Relation.ReflTransGen (DashStep tables [e.1]) s (replaceFirstParam e.1 e.2 s) := by
  obtain ⟨hnodup, hwords, hsteps⟩ := h
  have hname := hwords e List.mem_cons_self
  have hreach : Relation.ReflTransGen (DashStep tables [e.1]) s (replaceFirstParam e.1 e.2 s) := by
    rcases hsteps e List.mem_cons_self with hdash | hzero
    · rcases replaceFirstParam_reach tables e.1 e.2 s with heq | hsubst
      · rw [heq]
      · rw [hdash] at hsubst ⊢
        exact .single ⟨e.1, List.mem_singleton_self _, hname, hsubst⟩
    · rw [replaceFirstParam_of_zero hname hzero]
  rw [List.map_cons, List.nodup_cons] at hnodup
  refine ⟨⟨hnodup.2, fun a ha => hwords a (List.mem_cons_of_mem _ ha), fun a ha => ?_⟩, hreach⟩
  have hne : a.1 ∉ [e.1] := by
    intro hmem
    rw [List.mem_singleton] at hmem
    exact hnodup.1 (hmem ▸ List.mem_map_of_mem ha)
  rw [countPlaces_dashes hne hreach]
  exact hsteps a (List.mem_cons_of_mem _ ha)

theorem webRun_dashes {steps : List (Text × Text)} {s : Text} (h : DashLike tables steps s) :
    Relation.ReflTransGen (DashStep tables (steps.map Prod.fst)) s (webRun steps s) := by
  induction steps generalizing s with
  | nil => exact .refl
  | cons e steps ih =>
    obtain ⟨htail, hreach⟩ := h.tail
    refine Relation.ReflTransGen.trans (dashes_mono ?_ hreach)
      (dashes_mono (List.subset_cons_self _ _) (ih htail))
    intro name hmem
    rw [List.mem_singleton] at hmem
    simp [hmem]

theorem webRun_append (pre post : List (Text × Text)) (s : Text) :
    webRun (pre ++ post) s = webRun post (webRun pre s) := List.foldl_append

theorem rustRun_append (pre post : List (Text × Text)) (s : Text) :
    rustRun tables (pre ++ post) s = rustRun tables post (rustRun tables pre s) :=
  List.foldl_append

theorem DashLike.left {pre post : List (Text × Text)} {s : Text}
    (h : DashLike tables (pre ++ post) s) : DashLike tables pre s := by
  obtain ⟨hnodup, hwords, hsteps⟩ := h
  rw [List.map_append] at hnodup
  exact ⟨hnodup.of_append_left, fun e he => hwords e (List.mem_append_left _ he),
    fun e he => hsteps e (List.mem_append_left _ he)⟩

theorem DashLike.right {pre post : List (Text × Text)} {s : Text}
    (h : DashLike tables (pre ++ post) s) : DashLike tables post (webRun pre s) := by
  induction pre generalizing s with
  | nil => exact h
  | cons e pre ih =>
    rw [List.cons_append] at h
    rw [webRun_cons]
    exact ih h.tail.1

/-- A run of the web app takes away at most one place of a name. -/
theorem countPlaces_webRun {steps : List (Text × Text)} {s : Text} (h : DashLike tables steps s)
    (other : Text) :
    countPlaces tables other s ≤ countPlaces tables other (webRun steps s) +
      if other ∈ steps.map Prod.fst then 1 else 0 := by
  induction steps generalizing s with
  | nil => simp [webRun]
  | cons e steps ih =>
    obtain ⟨htail, hreach⟩ := h.tail
    have hnodup := h.1
    rw [List.map_cons, List.nodup_cons] at hnodup
    by_cases heq : e.1 = other
    · subst heq
      have hrest := countPlaces_dashes hnodup.1 (webRun_dashes htail)
      have hmem : e.1 ∈ (e :: steps).map Prod.fst := by simp
      rw [webRun_cons, hrest, if_pos hmem]
      rcases h.2.2 e List.mem_cons_self with hdash | hzero
      · rcases replaceFirstParam_reach tables e.1 e.2 s with hsame | hsubst
        · rw [hsame]
          omega
        · rw [hdash] at hsubst ⊢
          have hcount := @countPlaces_dash _ _ e.1 (h.2.1 e List.mem_cons_self) _ _ hsubst
          rw [if_pos rfl] at hcount
          omega
      · omega
    · have hne : other ∉ [e.1] := by simpa using Ne.symm heq
      have hstep := countPlaces_dashes hne hreach
      have hrest := ih htail
      have hmem : other ∈ (e :: steps).map Prod.fst ↔ other ∈ steps.map Prod.fst := by
        simp [Ne.symm heq]
      rw [webRun_cons]
      simp only [hmem]
      omega

end Voleeo.Send
