import Voleeo.Send.Runs

/-!
# Places that fit

A place fits when a segment ends behind it and the word in front of it begins no
name. Any value may be substituted there: the places of the other names stay as
many, and go on fitting. With at most one place of each name both resolvers then
write the same text.
-/
namespace Voleeo.Send
open Resolve (UnicodeTables isBoundary replacePathParam)

variable {tables : UnicodeTables}

/-- The word in front of a place, up to a colon, does not begin any of the names. -/
def FreeFront (tables : UnicodeTables) (names : Text → Prop) (before : Text) : Prop :=
  ∀ front word, before = front ++ ':' :: word → IsWord tables word →
    ∀ name, names name → ¬ word <+: name

/-- Every name has at most one place, and it fits. -/
def PlacesFit (tables : UnicodeTables) (names : Text → Prop) (s : Text) : Prop :=
  ∀ name, names name → countPlaces tables name s ≤ 1 ∧
    ∀ before after, IsPlace tables name s before after →
      isSegmentEnd after = true ∧ FreeFront tables names before

theorem countPlaces_append_value {names : Text → Prop} {name before value : Text}
    (hname : names name) (hvalue : ':' ∉ value) (hfront : FreeFront tables names before) :
    countPlaces tables name (before ++ value) = countPlaces tables name before := by
  induction before with
  | nil => rw [List.nil_append, countPlaces_of_no_colon name hvalue, countPlaces]
  | cons c before ih =>
    have htail : FreeFront tables names before := by
      rintro front word rfl hword
      exact hfront (c :: front) word rfl hword
    rw [List.cons_append, countPlaces, countPlaces, ih htail]
    congr 1
    apply if_congr _ rfl rfl
    refine and_congr_right ?_
    rintro rfl
    by_cases hword : IsWord tables before
    · -- The value may go on with the word, but not to the name.
      have hfree := hfront [] before rfl hword name hname
      have hself : before.takeWhile tables.isWord = before :=
        List.takeWhile_eq_self_iff.mpr hword
      rw [List.takeWhile_append_of_pos hword, hself]
      constructor
      · rintro rfl
        exact absurd ⟨_, rfl⟩ hfree
      · rintro rfl
        exact absurd List.prefix_rfl hfree
    · rw [List.takeWhile_append, if_neg]
      intro hlen
      apply hword
      intro d hd
      have hall : before.takeWhile tables.isWord = before :=
        (List.takeWhile_prefix _).eq_of_length hlen
      rw [← hall] at hd
      exact List.mem_takeWhile_imp hd

/-- What a substitution at a place that fits does to the places of all names. -/
theorem countPlaces_subst {names : Text → Prop} (hwords : ∀ name, names name → IsWord tables name)
    {name other before after value : Text} (hname : names name) (hother : names other)
    (hvalue : ':' ∉ value) (hafter : isBoundary tables after = true)
    (hfront : FreeFront tables names before) :
    countPlaces tables other (before ++ ':' :: (name ++ after)) =
      countPlaces tables other (before ++ value ++ after) + if name = other then 1 else 0 := by
  rw [countPlaces_split other (hwords name hname) hafter, countPlaces_append other _ hafter,
    countPlaces_append_value hother hvalue hfront]
  omega

/-- A colon of the text behind a substitution stands in front of the value or behind it. -/
theorem colon_in_subst {before value after b rest : Text} (hvalue : ':' ∉ value)
    (h : before ++ value ++ after = b ++ ':' :: rest) :
    (∃ W, after = W ++ ':' :: rest ∧ b = before ++ value ++ W) ∨
      ∃ W, before = b ++ ':' :: W ∧ rest = W ++ (value ++ after) := by
  rw [List.append_assoc] at h
  rcases List.append_eq_append_iff.mp h with ⟨W, hb, hrest⟩ | ⟨W, hbefore, hrest⟩
  · obtain ⟨W', rfl, hafter⟩ := split_behind hvalue hrest
    exact Or.inl ⟨W', hafter, by rw [hb, List.append_assoc]⟩
  · cases W with
    | nil =>
      obtain ⟨W', hW', hafter⟩ := split_behind (W := []) hvalue hrest.symm
      obtain ⟨hnil, rfl⟩ := List.append_eq_nil_iff.mp hW'.symm
      refine Or.inl ⟨[], hafter, ?_⟩
      rw [hbefore, hnil]
      simp
    | cons w W =>
      obtain ⟨rfl, htail⟩ := List.cons.inj hrest
      exact Or.inr ⟨W, hbefore, htail⟩

theorem not_word_of_segmentEnd {word W after rest : Text} (h : isSegmentEnd after = true)
    (hafter : after = W ++ ':' :: rest) (hword : IsWord tables word) (hmem : ∀ c ∈ W, c ∈ word) :
    False := by
  cases W with
  | nil =>
    rw [hafter] at h
    simp [isSegmentEnd] at h
  | cons w W =>
    have hboundary := @boundary_of_segmentEnd tables _ h
    have hw := hword w (hmem w List.mem_cons_self)
    rw [hafter] at hboundary
    simp [isBoundary, hw] at hboundary

/-- A substitution at a place that fits keeps the other places fitting. -/
theorem placesFit_subst {names : Text → Prop} (hwords : ∀ name, names name → IsWord tables name)
    {name before after value : Text} (hname : names name) (hvalue : ':' ∉ value)
    (hafter : isBoundary tables after = true)
    (hfit : PlacesFit tables names (before ++ ':' :: (name ++ after))) :
    PlacesFit tables names (before ++ value ++ after) := by
  obtain ⟨-, hplaces⟩ := hfit name hname
  obtain ⟨hend, hfront⟩ := hplaces before after ⟨rfl, hafter⟩
  intro other hother
  have hcount := countPlaces_subst hwords hname hother hvalue hafter hfront
  obtain ⟨hle, hfits⟩ := hfit other hother
  refine ⟨by omega, ?_⟩
  rintro b a ⟨hsplit, hboundary⟩
  rcases colon_in_subst hvalue hsplit with ⟨W, hbehind, rfl⟩ | ⟨W, rfl, hrest⟩
  · obtain ⟨hend', hfree⟩ := hfits (before ++ ':' :: (name ++ W)) a
      ⟨by rw [hbehind]; simp, hboundary⟩
    refine ⟨hend', ?_⟩
    intro front word heq hword
    rcases colon_in_subst hvalue heq with ⟨W', rfl, -⟩ | ⟨W', -, rfl⟩
    · exact hfree (before ++ ':' :: (name ++ W')) word (by simp) hword
    · exact (not_word_of_segmentEnd hend hbehind hword fun c hc => by simp [hc]).elim
  · by_cases hW : IsWord tables W
    · -- The word in front of the value would begin the name.
      have hfree := hfront b W rfl hW other hother
      rcases List.append_eq_append_iff.mp hrest with ⟨Z, rfl, ha⟩ | ⟨Z, rfl, -⟩
      · cases Z with
        | nil => exact absurd (by simp) hfree
        | cons z Z =>
          have hz := hW z (by simp)
          rw [ha] at hboundary
          simp [isBoundary, hz] at hboundary
      · exact absurd ⟨Z, rfl⟩ hfree
    · obtain ⟨-, hWsplit, hWboundary⟩ := @word_split tables W
      have hself := takeWhile_word (hwords other hother) hboundary
      have hne : W.drop (W.takeWhile tables.isWord).length ≠ [] := by
        intro hnil
        rw [hnil, List.append_nil] at hWsplit
        apply hW
        intro c hc
        rw [hWsplit] at hc
        exact List.mem_takeWhile_imp hc
      have hWother : W.takeWhile tables.isWord = other := by
        rw [← hself, hrest]
        conv_rhs => rw [hWsplit, List.append_assoc]
        rw [takeWhile_word (word_split W).1]
        rwa [isBoundary_append hne]
      rw [hWother] at hWsplit hWboundary hne
      have ha : a = W.drop other.length ++ (value ++ after) := by
        rw [hWsplit, List.append_assoc] at hrest
        exact List.append_cancel_left hrest
      obtain ⟨hend', hfree⟩ := hfits b (W.drop other.length ++ ':' :: (name ++ after))
        ⟨by conv_lhs => rw [hWsplit]
            simp, by rwa [isBoundary_append hne]⟩
      rw [segmentEnd_append hne] at hend'
      exact ⟨by rwa [ha, segmentEnd_append hne], hfree⟩

/-! ## Both resolvers -/

/-- What the two resolvers do with a parameter: the value that the web app writes for it, if it
substitutes the parameter, and the same for the Rust resolver. -/
structure Step where
  name : Text
  web : Option Text
  rust : Option Text

def Step.runWeb (step : Step) (s : Text) : Text :=
  match step.web with
  | some value => replaceFirstParam step.name value s
  | none => s

def Step.runRust (tables : UnicodeTables) (step : Step) (s : Text) : Text :=
  match step.rust with
  | some value => replacePathParam tables s step.name value
  | none => s

theorem Step.run_of_zero {step : Step} (hname : IsWord tables step.name) {s : Text}
    (h : countPlaces tables step.name s = 0) :
    step.runWeb s = s ∧ step.runRust tables s = s := by
  constructor
  · unfold runWeb
    split
    · exact replaceFirstParam_of_zero hname h
    · rfl
  · unfold runRust
    split
    · exact replacePathParam_of_zero hname h
    · rfl

/-- A run over steps that agree wherever a name has a place. -/
theorem runs_agree {names : Text → Prop} (hwords : ∀ name, names name → IsWord tables name)
    {steps : List Step} {s : Text} (hfit : PlacesFit tables names s)
    (hother : ∀ step ∈ steps, ¬ names step.name → step.web = none ∧ step.rust = none)
    (hagree : ∀ step ∈ steps, names step.name → 0 < countPlaces tables step.name s →
      ∃ value, ':' ∉ value ∧ step.web = some value ∧ step.rust = some value) :
    steps.foldl (fun s step => step.runWeb s) s =
        steps.foldl (fun s step => step.runRust tables s) s ∧
      ∀ name, names name → countPlaces tables name s = 0 ∨ name ∈ steps.map (·.name) →
        countPlaces tables name (steps.foldl (fun s step => step.runWeb s) s) = 0 := by
  induction steps generalizing s with
  | nil =>
    refine ⟨rfl, ?_⟩
    rintro name - (hzero | hmem)
    · exact hzero
    · cases hmem
  | cons step steps ih =>
    have hother' := fun a ha => hother a (List.mem_cons_of_mem step ha)
    by_cases hname : names step.name
    · rcases Nat.eq_zero_or_pos (countPlaces tables step.name s) with hzero | hpos
      · -- No place: nothing happens.
        obtain ⟨hweb, hrust⟩ := Step.run_of_zero (hwords step.name hname) hzero
        obtain ⟨heq, hcount⟩ := ih hfit hother' fun a ha => hagree a (List.mem_cons_of_mem _ ha)
        rw [List.foldl_cons, List.foldl_cons, hweb, hrust]
        refine ⟨heq, fun name hn hmem => hcount name hn ?_⟩
        rw [List.map_cons, List.mem_cons] at hmem
        rcases hmem with hz | rfl | hmem
        · exact Or.inl hz
        · exact Or.inl hzero
        · exact Or.inr hmem
      · obtain ⟨value, hvalue, hweb, hrust⟩ := hagree step List.mem_cons_self hname hpos
        obtain ⟨before, after, rfl, hafter⟩ := exists_place hpos
        obtain ⟨hle, hplaces⟩ := hfit step.name hname
        obtain ⟨hend, hfront⟩ := hplaces before after ⟨rfl, hafter⟩
        have hone := Nat.le_antisymm hle hpos
        have hrunWeb : step.runWeb (before ++ ':' :: (step.name ++ after)) =
            before ++ value ++ after := by
          simp only [Step.runWeb, hweb]
          exact replaceFirstParam_place (hwords step.name hname) hend hone
        have hrunRust : step.runRust tables (before ++ ':' :: (step.name ++ after)) =
            before ++ value ++ after := by
          simp only [Step.runRust, hrust]
          exact replacePathParam_place (hwords step.name hname) hafter hone
        have hcounts := fun other (ho : names other) =>
          countPlaces_subst hwords hname ho hvalue hafter hfront
        obtain ⟨heq, hcount⟩ := ih (placesFit_subst hwords hname hvalue hafter hfit) hother'
          fun a ha hn hp => hagree a (List.mem_cons_of_mem _ ha) hn (by
            rw [hcounts a.name hn]
            omega)
        rw [List.foldl_cons, List.foldl_cons, hrunWeb, hrunRust]
        refine ⟨heq, fun name hn hmem => hcount name hn ?_⟩
        have hstep := hcounts name hn
        rw [List.map_cons, List.mem_cons] at hmem
        rcases hmem with hz | rfl | hmem
        · exact Or.inl (by omega)
        · rw [if_pos rfl] at hstep
          exact Or.inl (by omega)
        · exact Or.inr hmem
    · obtain ⟨hweb, hrust⟩ := hother step List.mem_cons_self hname
      have hrunWeb : step.runWeb s = s := by simp [Step.runWeb, hweb]
      have hrunRust : step.runRust tables s = s := by simp [Step.runRust, hrust]
      obtain ⟨heq, hcount⟩ := ih hfit hother' fun a ha => hagree a (List.mem_cons_of_mem _ ha)
      rw [List.foldl_cons, List.foldl_cons, hrunWeb, hrunRust]
      refine ⟨heq, fun name hn hmem => hcount name hn ?_⟩
      rw [List.map_cons, List.mem_cons] at hmem
      rcases hmem with hz | rfl | hmem
      · exact Or.inl hz
      · exact absurd hn hname
      · exact Or.inr hmem

end Voleeo.Send
