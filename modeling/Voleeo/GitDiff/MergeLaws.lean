import Voleeo.GitDiff.Frames

/-!
# The conflict report and the merge

The report and the merge decide the same question with different code. They
differ where there is no base, where a field cannot be written, and where
several fields copy one property.
-/
namespace Voleeo.GitDiff

variable {E : Type}

/-! ## Which conflicts are reported -/

/-- A conflict row with the id of this field is in the report. -/
def Reported (specs : List (Field E)) (base : Option E) (ours theirs : E) (id : String) : Prop :=
  ∃ c ∈ buildConflicts specs base ours theirs, c.id = id

theorem fieldConflicts_eq {f : Field E} {cmp : E → String} (hcmp : f.text = some cmp)
    (base : Option E) (ours theirs : E) :
    ∃ display, fieldConflicts base ours theirs f =
      valueConflict f.common cmp display base ours theirs := by
  cases f with
  | scalar f => cases hcmp; exact ⟨f.get, rfl⟩
  | list f => cases hcmp
  | blob f => cases hcmp; exact ⟨f.summary, rfl⟩

/-- A field's row is reported exactly when the scalar merge of its text clashes. -/
theorem reported_iff (type : EntityType) {f : Field (Inner type)} (hf : f ∈ specsByType type)
    {cmp : Inner type → String} (hcmp : f.text = some cmp) (base : Option (Inner type))
    (ours theirs : Inner type) :
    Reported (specsByType type) base ours theirs f.id ↔
      (merge3Scalar (base.map cmp) (cmp ours) (cmp theirs)).conflict = true := by
  obtain ⟨display, hrows⟩ := fieldConflicts_eq hcmp base ours theirs
  constructor
  · rintro ⟨c, hc, hid⟩
    obtain ⟨g, hg, hcg⟩ := List.mem_flatMap.mp hc
    -- a list row has a colon in its id, any other row has the id of its field
    have hgid : g.id = f.id := by
      cases g with
      | list g =>
        obtain ⟨lc, -, rfl⟩ := List.mem_map.mp hcg
        have hcolon := colon_mem_itemKey g.id lc.key
        have hmem : ':' ∈ f.id.toList := by
          rw [← hid]
          exact hcolon
        exact absurd hmem (colon_not_mem_id type f hf)
      | scalar g =>
        simp only [fieldConflicts, valueConflict] at hcg
        split_ifs at hcg
        · rw [List.mem_singleton] at hcg
          rw [← hid, hcg]
          rfl
        · cases hcg
      | blob g =>
        simp only [fieldConflicts, valueConflict] at hcg
        split_ifs at hcg
        · rw [List.mem_singleton] at hcg
          rw [← hid, hcg]
          rfl
        · cases hcg
    obtain rfl : g = f := List.inj_on_of_nodup_map (ids_nodup type) hg hf hgid
    rw [hrows, valueConflict] at hcg
    split_ifs at hcg with hclash
    · exact hclash
    · cases hcg
  · intro hclash
    refine ⟨⟨f.id, f.common.group, f.common.label, display ours, display theirs, none,
      f.common.secret⟩, ?_, rfl⟩
    refine List.mem_flatMap.mpr ⟨f, hf, ?_⟩
    rw [hrows, valueConflict, if_pos hclash]
    exact List.mem_singleton.mpr rfl

/-! ## Which side a field is taken from -/

section Sides

variable (cmp : E → String) (id : String) (base : Option E) (ours theirs : E) (choice : Choices)

/-- The three-way rule picks theirs: only theirs changed, or both did and the user chose it. -/
def RulePicksTheirs : Prop :=
  cmp ours ≠ cmp theirs ∧
    (cmp ours = (base.map cmp).getD "" ∨
      (cmp theirs ≠ (base.map cmp).getD "" ∧ choice id = some .theirs))

/-- Without a base only theirs has a text: the rule picks theirs, and the merge does not. -/
def BaselessAdd : Prop := base.isNone = true ∧ cmp ours = "" ∧ cmp theirs ≠ ""

instance : Decidable (RulePicksTheirs cmp id base ours theirs choice) := by
  unfold RulePicksTheirs
  infer_instance

instance : Decidable (BaselessAdd cmp base ours theirs) := by
  unfold BaselessAdd
  infer_instance

theorem mergeSource_eq :
    mergeSource cmp id base ours theirs choice =
      if RulePicksTheirs cmp id base ours theirs choice ∧ ¬ BaselessAdd cmp base ours theirs then
        theirs else ours := by
  have hcase := @merge3Scalar_conflict (base.map cmp) (cmp ours) (cmp theirs)
  unfold mergeSource RulePicksTheirs BaselessAdd
  cases base with
  | none =>
    simp only [Option.map_none, Option.getD_none] at hcase ⊢
    cases hm : (merge3Scalar none (cmp ours) (cmp theirs)).conflict with
    | false =>
      have hno : ¬ (cmp ours ≠ cmp theirs ∧ cmp ours ≠ "" ∧ cmp theirs ≠ "") := by
        rw [← hcase, hm]
        decide
      simp only [if_true, Option.isNone_none, true_and]
      rw [if_neg]
      rintro ⟨⟨hne, hside⟩, hadd⟩
      by_cases ho : cmp ours = ""
      · exact hadd ⟨ho, fun ht => hne (ho.trans ht.symm)⟩
      · exact hno ⟨hne, ho, (hside.resolve_left ho).1⟩
    | true =>
      have hclash := hcase.mp hm
      simp [hclash.1, hclash.2.1, hclash.2.2]
  | some b =>
    simp only [Option.map_some, Option.getD_some] at hcase ⊢
    cases hm : (merge3Scalar (some (cmp b)) (cmp ours) (cmp theirs)).conflict with
    | false =>
      have hno : ¬ (cmp ours ≠ cmp theirs ∧ cmp ours ≠ cmp b ∧ cmp theirs ≠ cmp b) := by
        rw [← hcase, hm]
        decide
      by_cases hne : cmp ours = cmp theirs
      · simp [hne]
      by_cases hob : cmp ours = cmp b
      · have hbt : cmp b ≠ cmp theirs := fun h => hne (hob.trans h)
        simp [hob, hbt]
      · have htb : cmp theirs = cmp b := by
          by_contra htb
          exact hno ⟨hne, hob, htb⟩
        simp [hob, htb]
    | true =>
      have hclash := hcase.mp hm
      simp [hclash.1, hclash.2.1, hclash.2.2]

/-- The value the rule prescribes, read off the scalar merge and the choice. -/
theorem rulePicksTheirs_iff :
    (if RulePicksTheirs cmp id base ours theirs choice then cmp theirs else cmp ours) =
      if (merge3Scalar (base.map cmp) (cmp ours) (cmp theirs)).conflict = true then
        if choice id = some .theirs then cmp theirs else cmp ours
      else (merge3Scalar (base.map cmp) (cmp ours) (cmp theirs)).value := by
  simp only [merge3Scalar_conflict, RulePicksTheirs]
  unfold merge3Scalar
  by_cases hot : cmp ours = cmp theirs
  · simp [hot]
  by_cases hob : cmp ours = (base.map cmp).getD ""
  · simp [← hob, hot]
  by_cases htb : cmp theirs = (base.map cmp).getD ""
  · simp [← htb, hot]
  · simp [hot, hob, htb]

end Sides

/-! ## The body of a merged request -/

section Body

variable (base : Option HttpRequest) (ours theirs : HttpRequest) (choice : Choices)

/-- The last writer of `body` is the field of the GraphQL variables. -/
def BodyFromTheirs : Prop :=
  RulePicksTheirs (fun e : HttpRequest => gqlVarsText e.body) "graphqlVariables" base ours theirs
      choice ∧
    ¬ BaselessAdd (fun e : HttpRequest => gqlVarsText e.body) base ours theirs

instance : Decidable (BodyFromTheirs base ours theirs choice) := by
  unfold BodyFromTheirs
  infer_instance

theorem body_mergeEntity :
    (mergeEntity requestSpecs base ours theirs choice).body =
      if BodyFromTheirs base ours theirs choice then theirs.body else ours.body := by
  -- the fields after it in the list leave the body alone
  have hlast : (mergeEntity requestSpecs base ours theirs choice).body =
      (mergeSource (fun e : HttpRequest => gqlVarsText e.body) "graphqlVariables" base ours theirs
        choice).body := rfl
  rw [hlast, mergeSource_eq]
  by_cases h : BodyFromTheirs base ours theirs choice
  · rw [if_pos h]
    exact congrArg HttpRequest.body (if_pos h)
  · rw [if_neg h]
    exact congrArg HttpRequest.body (if_neg h)

/-- What a body holds, with the properties that its kind does not use left out. -/
inductive BodyContent
  | empty
  | text (kind : BodyKind) (text : String)
  | form (kind : BodyKind) (fields : List BodyField)
  | file (filePath contentType : String)
  | graphql (query vars : String)
  deriving DecidableEq, Repr

def contentOf : Option RequestBody → BodyContent
  | none => .empty
  | some b =>
    match b.kind with
    | .none => .empty
    | .formUrlEncoded => .form .formUrlEncoded (b.fields.getD [])
    | .multipart => .form .multipart (b.fields.getD [])
    | .binary => .file (b.filePath.getD "") (b.contentType.getD "")
    | .graphql => .graphql b.text (b.graphqlVariables.getD "")
    | kind => .text kind b.text

def varsOfContent : BodyContent → String
  | .graphql _ vars => vars
  | _ => ""

theorem gqlVarsText_eq (body : Option RequestBody) :
    gqlVarsText body = varsOfContent (contentOf body) := by
  cases body with
  | none => rfl
  | some b =>
    simp only [gqlVarsText, contentOf]
    cases b.kind <;> rfl

theorem gqlVarsText_congr {a b : Option RequestBody} (h : contentOf a = contentOf b) :
    gqlVarsText a = gqlVarsText b := by
  rw [gqlVarsText_eq, gqlVarsText_eq, h]

/-- A body with GraphQL variables has no generic text. -/
theorem bodyText_of_gqlVars {body : Option RequestBody} (h : gqlVarsText body ≠ "") :
    bodyText body = "" := by
  cases body with
  | none => rfl
  | some b =>
    have hkind : b.kind = .graphql := by
      by_contra hk
      simp [gqlVarsText, hk] at h
    simp [bodyText, hkind]

/-- The body that the three-way rule prescribes for a merge with a base. -/
structure BodyRule (base ours theirs : HttpRequest) (choice : Choices) : Prop where
  theirs_only : contentOf ours.body = contentOf base.body →
    contentOf theirs.body ≠ contentOf base.body →
    (mergeEntity requestSpecs (some base) ours theirs choice).body = theirs.body
  ours_only : contentOf theirs.body = contentOf base.body →
    contentOf ours.body ≠ contentOf base.body →
    (mergeEntity requestSpecs (some base) ours theirs choice).body = ours.body
  chosen_theirs : Reported requestSpecs (some base) ours theirs "body" →
    choice "body" = some .theirs →
    (mergeEntity requestSpecs (some base) ours theirs choice).body = theirs.body

/-- The three texts of the generic body field are pairwise different. -/
def BodyTextsClash (base ours theirs : HttpRequest) : Prop :=
  bodyText ours.body ≠ bodyText theirs.body ∧ bodyText ours.body ≠ bodyText base.body ∧
    bodyText theirs.body ≠ bodyText base.body

theorem reported_body_iff (base ours theirs : HttpRequest) :
    Reported requestSpecs (some base) ours theirs "body" ↔ BodyTextsClash base ours theirs := by
  have hf : Field.blob bodyField ∈ specsByType .request := by
    simp [specsByType, requestSpecs]
  exact (reported_iff .request hf rfl (some base) ours theirs).trans merge3Scalar_conflict

/-- The rule holds of a merge exactly when theirs changes the GraphQL variables whenever it alone
changes the body, and has GraphQL variables whenever it is chosen over a clashing body. -/
theorem bodyRule_iff (base ours theirs : HttpRequest) (choice : Choices) :
    BodyRule base ours theirs choice ↔
      (contentOf ours.body = contentOf base.body → contentOf theirs.body ≠ contentOf base.body →
        gqlVarsText theirs.body ≠ gqlVarsText base.body) ∧
      (BodyTextsClash base ours theirs → choice "body" = some .theirs →
        gqlVarsText theirs.body ≠ "") := by
  have hbody := body_mergeEntity (some base) ours theirs choice
  have hpick : BodyFromTheirs (some base) ours theirs choice ↔
      gqlVarsText ours.body ≠ gqlVarsText theirs.body ∧
        (gqlVarsText ours.body = gqlVarsText base.body ∨
          (gqlVarsText theirs.body ≠ gqlVarsText base.body ∧
            choice "graphqlVariables" = some .theirs)) := by
    simp [BodyFromTheirs, RulePicksTheirs, BaselessAdd]
  constructor
  · intro h
    constructor
    · intro hours htheirs hvars
      have hmerged := h.theirs_only hours htheirs
      have hsame := gqlVarsText_congr hours
      rw [hbody, if_neg (by rw [hpick, hsame, hvars]; simp)] at hmerged
      exact htheirs (hmerged ▸ hours)
    · intro hclash hchoice hvars
      have hmerged := h.chosen_theirs ((reported_body_iff base ours theirs).mpr hclash) hchoice
      have hno : ¬ BodyFromTheirs (some base) ours theirs choice := by
        rw [hpick, hvars]
        rintro ⟨hne, hside⟩
        -- ours has GraphQL variables, so the other two have generic texts
        have ho := bodyText_of_gqlVars hne
        have hb : gqlVarsText base.body = "" := by
          by_contra hb
          exact hclash.2.1 (ho.trans (bodyText_of_gqlVars hb).symm)
        rw [hb] at hside
        exact hside.elim hne fun hs => hs.1 rfl
      rw [hbody, if_neg hno] at hmerged
      exact hclash.1 (by rw [hmerged])
  · rintro ⟨hside, hchosen⟩
    refine ⟨?_, ?_, ?_⟩
    · intro hours htheirs
      have hsame := gqlVarsText_congr hours
      have hvars := hside hours htheirs
      rw [hbody, if_pos]
      rw [hpick, hsame]
      exact ⟨fun h => hvars h.symm, Or.inl rfl⟩
    · intro htheirs _
      have hsame := gqlVarsText_congr htheirs
      rw [hbody, if_neg]
      rw [hpick, hsame]
      rintro ⟨hne, hside⟩
      exact hside.elim hne fun hs => hs.1 rfl
    · intro hrep hchoice
      have hclash := (reported_body_iff base ours theirs).mp hrep
      have hvars := hchosen hclash hchoice
      have ht := bodyText_of_gqlVars hvars
      have ho : gqlVarsText ours.body = "" := by
        by_contra ho
        exact hclash.1 ((bodyText_of_gqlVars ho).trans ht.symm)
      have hb : gqlVarsText base.body = "" := by
        by_contra hb
        exact hclash.2.2 (ht.trans (bodyText_of_gqlVars hb).symm)
      rw [hbody, if_pos]
      rw [hpick, ho, hb]
      exact ⟨fun h => hvars h.symm, Or.inl rfl⟩

def jsonBody (text : String) : RequestBody := ⟨.json, text, none, none, none, none⟩

def requestWith (body : Option RequestBody) : HttpRequest := { HttpRequest.blank with body := body }

/-- A JSON edit of theirs alone is lost. -/
theorem json_edit_is_lost :
    ¬ BodyRule (requestWith (some (jsonBody "a"))) (requestWith (some (jsonBody "a")))
      (requestWith (some (jsonBody "b"))) fun _ => none := by
  intro h
  have hmerged := h.theirs_only (by decide) (by decide)
  exact absurd hmerged (by decide)

end Body

/-! ## Agreement of the two -/

section Agreement

variable (type : EntityType) (f : Field (Inner type)) (cmp : Inner type → String)
  (base : Option (Inner type)) (ours theirs : Inner type) (choice : Choices)

/-- A field with no reported conflict gets its scalar merge; one with a conflict is theirs exactly
when the user chose theirs, and ours otherwise. -/
structure Agrees : Prop where
  silent : ¬ Reported (specsByType type) base ours theirs f.id →
    cmp (mergeEntity (specsByType type) base ours theirs choice) =
      (merge3Scalar (base.map cmp) (cmp ours) (cmp theirs)).value
  asked : Reported (specsByType type) base ours theirs f.id →
    (cmp (mergeEntity (specsByType type) base ours theirs choice) = cmp theirs ↔
      choice f.id = some .theirs) ∧
    (choice f.id ≠ some .theirs →
      cmp (mergeEntity (specsByType type) base ours theirs choice) = cmp ours)

/-- The inputs on which the two agree. A read-only field stays ours, the body of a request follows
its GraphQL variables, and no other field takes a one-sided text without a base. -/
def AgreementCondition : (type : EntityType) → Field (Inner type) → (Inner type → String) →
    Option (Inner type) → Inner type → Inner type → Choices → Prop
  | .snapshot, f, cmp, base, ours, theirs, choice =>
    if f.id ∈ readOnlyIds then ¬ RulePicksTheirs cmp f.id base ours theirs choice
    else ¬ BaselessAdd cmp base ours theirs
  | .request, f, cmp, base, ours, theirs, choice =>
    if f.id = "body" ∨ f.id = "graphqlQuery" then
      cmp ours = cmp theirs ∨
        (BodyFromTheirs base ours theirs choice ↔
          RulePicksTheirs cmp f.id base ours theirs choice)
    else ¬ BaselessAdd cmp base ours theirs
  | _, _, cmp, base, ours, theirs, _ => ¬ BaselessAdd cmp base ours theirs

variable {type f cmp}

theorem agrees_iff (hf : f ∈ specsByType type) (hcmp : f.text = some cmp) :
    Agrees type f cmp base ours theirs choice ↔
      cmp (mergeEntity (specsByType type) base ours theirs choice) =
        if RulePicksTheirs cmp f.id base ours theirs choice then cmp theirs else cmp ours := by
  have hrep := reported_iff type hf hcmp base ours theirs
  have hclash := @merge3Scalar_conflict (base.map cmp) (cmp ours) (cmp theirs)
  rw [rulePicksTheirs_iff]
  by_cases hc : (merge3Scalar (base.map cmp) (cmp ours) (cmp theirs)).conflict = true
  · rw [if_pos hc]
    have hne := (hclash.mp hc).1
    constructor
    · intro h
      obtain ⟨hiff, hours⟩ := h.asked (hrep.mpr hc)
      split_ifs with hchoice
      · exact hiff.mpr hchoice
      · exact hours hchoice
    · intro h
      refine ⟨fun hn => absurd (hrep.mpr hc) hn, fun _ => ⟨?_, ?_⟩⟩
      · rw [h]
        split_ifs with hchoice
        · simp [hchoice]
        · simp [hchoice, hne]
      · intro hchoice
        rw [h, if_neg hchoice]
  · rw [if_neg hc]
    constructor
    · intro h
      exact h.silent fun hr => hc (hrep.mp hr)
    · intro h
      exact ⟨fun _ => h, fun hr => absurd (hrep.mp hr) hc⟩

/-- A field of its own is merged from its source. -/
theorem text_mergeEntity (hf : f ∈ specsByType type) (hcmp : f.text = some cmp)
    (hbody : ¬ (type = .request ∧ f.id ∈ bodyIds))
    (hro : ¬ (type = .snapshot ∧ f.id ∈ readOnlyIds)) :
    cmp (mergeEntity (specsByType type) base ours theirs choice) =
      cmp (mergeSource cmp f.id base ours theirs choice) := by
  have hfr : ∀ g ∈ specsByType type, g.id ≠ f.id → Frames f g := by
    intro g hg hne
    exact frames_of_ne type hf hg hne fun h => hbody ⟨h.1, h.2.1⟩
  obtain ⟨out, hview⟩ := mergeEntity_view base ours theirs choice hf (ids_nodup type) hfr
  rw [text_eq_of_sameView hcmp hview]
  exact text_mergeField base ours theirs choice (restores_of_mem type hf hro) hcmp out

/-- With a source of its own, a field follows the rule unless it is added without a base. -/
theorem source_follows_iff (cmp : Inner type → String) (id : String) :
    cmp (mergeSource cmp id base ours theirs choice) =
        (if RulePicksTheirs cmp id base ours theirs choice then cmp theirs else cmp ours) ↔
      ¬ BaselessAdd cmp base ours theirs := by
  rw [mergeSource_eq]
  by_cases hadd : BaselessAdd cmp base ours theirs
  · obtain ⟨hbase, ho, ht⟩ := hadd
    have hne : cmp ours ≠ cmp theirs := fun h => ht (h ▸ ho)
    have hpick : RulePicksTheirs cmp id base ours theirs choice := by
      refine ⟨hne, Or.inl ?_⟩
      rw [Option.isNone_iff_eq_none.mp hbase]
      exact ho
    rw [if_neg (fun h => h.2 ⟨hbase, ho, ht⟩), if_pos hpick]
    exact ⟨fun h => absurd h hne, fun h => absurd ⟨hbase, ho, ht⟩ h⟩
  · simp only [hadd, not_false_eq_true, and_true, iff_true]
    split_ifs <;> rfl

theorem snapshot_readOnly_text {f : Field Snapshot} {cmp : Snapshot → String}
    (hf : f ∈ snapshotSpecs) (hcmp : f.text = some cmp) (hro : f.id ∈ readOnlyIds)
    (base : Option Snapshot) (ours theirs : Snapshot) :
    cmp (mergeEntity snapshotSpecs base ours theirs choice) = cmp ours :=
  text_eq_of_sameView hcmp (foldl_mergeField_frame base ours theirs choice
    (fun _ hg => frames_of_readOnly hf hg hro) ours)

theorem eq_of_mem_bodyIds {f : Field HttpRequest} (hf : f ∈ requestSpecs) (hid : f.id ∈ bodyIds) :
    f = .blob bodyField ∨ f = .blob graphqlQueryField ∨ f = .blob graphqlVariablesField := by
  simp only [requestSpecs, List.mem_cons, List.not_mem_nil, or_false] at hf
  rcases hf with rfl | rfl | rfl | rfl | rfl | rfl | rfl | rfl | rfl <;>
    first
    | exact absurd hid (by decide)
    | simp

/-- A text of the shared body is that of the side picked for the GraphQL variables. -/
theorem shared_body_follows_iff (base : Option HttpRequest) (ours theirs : HttpRequest)
    (choice : Choices) (text : Option RequestBody → String) (id : String) :
    text (mergeEntity requestSpecs base ours theirs choice).body =
        (if RulePicksTheirs (fun e : HttpRequest => text e.body) id base ours theirs choice then
          text theirs.body else text ours.body) ↔
      text ours.body = text theirs.body ∨
        (BodyFromTheirs base ours theirs choice ↔
          RulePicksTheirs (fun e : HttpRequest => text e.body) id base ours theirs choice) := by
  rw [body_mergeEntity]
  by_cases hs : BodyFromTheirs base ours theirs choice <;>
    by_cases hr : RulePicksTheirs (fun e : HttpRequest => text e.body) id base ours theirs choice
  · simp [hs, hr]
  · simpa [hs, hr] using eq_comm
  · simp [hs, hr]
  · simp [hs, hr]

/-- The report and the merge agree on a scalar or blob field exactly under the condition. -/
theorem agreement_iff (type : EntityType) (f : Field (Inner type)) (hf : f ∈ specsByType type)
    (cmp : Inner type → String) (hcmp : f.text = some cmp) (base : Option (Inner type))
    (ours theirs : Inner type) (choice : Choices) :
    Agrees type f cmp base ours theirs choice ↔
      AgreementCondition type f cmp base ours theirs choice := by
  rw [agrees_iff base ours theirs choice hf hcmp]
  by_cases hro : type = .snapshot ∧ f.id ∈ readOnlyIds
  · obtain ⟨rfl, hro⟩ := hro
    simp only [AgreementCondition, if_pos hro]
    have hours := snapshot_readOnly_text choice hf hcmp hro base ours theirs
    rw [show specsByType .snapshot = snapshotSpecs from rfl, hours]
    by_cases hpick : RulePicksTheirs cmp f.id base ours theirs choice
    · simp [hpick, hpick.1]
    · simp [hpick]
  by_cases hbody : type = .request ∧ f.id ∈ bodyIds
  · obtain ⟨rfl, hbody⟩ := hbody
    rcases eq_of_mem_bodyIds hf hbody with rfl | rfl | rfl
    · cases hcmp
      exact shared_body_follows_iff base ours theirs choice bodyText "body"
    · cases hcmp
      exact shared_body_follows_iff base ours theirs choice gqlQueryText "graphqlQuery"
    · -- the last writer of the body is this field itself
      cases hcmp
      exact @source_follows_iff .request base ours theirs choice
        graphqlVariablesField.compare "graphqlVariables"
  · rw [text_mergeEntity base ours theirs choice hf hcmp hbody hro, source_follows_iff]
    cases type with
    | snapshot =>
        have hno : f.id ∉ readOnlyIds := fun h => hro ⟨rfl, h⟩
        simp only [AgreementCondition, if_neg hno]
    | request =>
        have hno : ¬ (f.id = "body" ∨ f.id = "graphqlQuery") := by
          intro h
          apply hbody
          rcases h with h | h <;> simp [bodyIds, h]
        simp only [AgreementCondition, if_neg hno]
    | _ => rfl

def folderWith (color : Option String) : ApiFolder where
  id := "f1"
  folderType := "folder"
  model := "api_folder"
  workspaceId := "w1"
  folderId := none
  name := "Auth"
  color := color
  order := 0
  headers := []
  «variables» := []
  auth := .none
  createdAt := ""
  updatedAt := ""

def folderColor : ScalarField ApiFolder where
  id := "color"
  group := .general
  label := some "Color"
  get e := e.color.getD ""
  set e v := { e with color := orNull v }

theorem agreement_iff_color :
    Agrees .folder (.scalar folderColor) folderColor.get none (folderWith (some "red"))
        (folderWith (some "blue")) (fun _ => none) ↔
      AgreementCondition .folder (.scalar folderColor) folderColor.get none
        (folderWith (some "red")) (folderWith (some "blue")) fun _ => none :=
  agreement_iff .folder (.scalar folderColor) (by simp [specsByType, folderSpecs, folderColor])
    folderColor.get rfl none _ _ _

/-- Added on both sides and coloured by theirs alone: no conflict is shown, and the color is
dropped. -/
theorem added_color_is_dropped :
    Field.scalar folderColor ∈ specsByType .folder ∧
      ¬ Agrees .folder (.scalar folderColor) folderColor.get none (folderWith none)
        (folderWith (some "red")) fun _ => none := by
  have hf : Field.scalar folderColor ∈ specsByType .folder := by
    simp [specsByType, folderSpecs, folderColor]
  refine ⟨hf, fun h => ?_⟩
  have hno : ¬ Reported (specsByType .folder) none (folderWith none) (folderWith (some "red"))
      (Field.scalar folderColor).id := by
    rw [reported_iff .folder hf rfl]
    decide
  exact absurd (h.silent hno) (by decide)

end Agreement

end Voleeo.GitDiff
