import Voleeo.Git.Status
import Voleeo.Yaml.Scalars
import Voleeo.Yaml.Stamps

/-!
# Timestamp churn

An entity file is the YAML document of the entity. Two documents that are the
same without their volatile lines belong to entities that differ in their
timestamps, or in lines of multi-line texts that look like a timestamp.
-/
namespace Voleeo.Git
open Resolve (isWhitespace)
open Yaml (Emitter Fields IsScalar IsInlineValue RowValue Scalar Value isNoise lines quietLines)

variable {ρ : Type}

def updatedAt : Text := "updatedAt".toList

/-- A timestamp is a text on one line. -/
def IsTimestamp : Scalar ρ → Prop
  | .text s => '\n' ∉ s
  | .plain _ => False

/-- The fields of an entity. No record begins with its timestamp. -/
structure Entity (ρ : Type) where
  fields : Fields (Scalar ρ)
  nonempty : fields ≠ .nil
  valid : (Value.mapping fields).Valid updatedAt (fun _ => True) IsTimestamp

def Entity.toYaml (e : Emitter ρ) (a : Entity ρ) : Text :=
  joinLines '\n' (lines ((a.fields.map e.write).rows 0 0))

/-- Entities of one kind have their timestamps in the same places. -/
def SameButTimestamps (a b : Entity ρ) : Prop :=
  a.fields.without updatedAt = b.fields.without updatedAt

/-- The entities differ, but only in lines of multi-line texts that start with `updatedAt:`. -/
def DifferInNoise (e : Emitter ρ) (a b : Entity ρ) : Prop :=
  ¬ SameButTimestamps a b ∧
    (a.fields.map e.write).quiet isWhitespace updatedAt =
      (b.fields.map e.write).quiet isWhitespace updatedAt

/-- The file of the path and its version in HEAD are the documents of the entities. -/
structure Repository.Holds (e : Emitter ρ) (repo : Repository) (p : Text) (a b : Entity ρ) :
    Prop where
  kind : (classifyPath p).1 ≠ .other
  working : repo.working p = some (a.toYaml e)
  head : repo.headBlob p = some (b.toYaml e)

def Status.HasChange (st : Status) : Prop :=
  st.conflicted = true ∨ (indexChange st).isSome = true ∨ (worktreeChange st).isSome = true

/-- Nothing but timestamps is taken for volatile, discarded or hidden. -/
structure TimestampsOnly (e : Emitter ρ) (repo : Repository) : Prop where
  volatile : ∀ p a b, repo.Holds e p a b → onlyVolatileChange repo p = true →
    SameButTimestamps a b
  /-- After a reset an entity is read from the file, and it is the old one but for timestamps. -/
  discards : ∀ refuses p a b, repo.Holds e p a b →
    let working' := (discardVolatileChanges refuses repo).1.working p
    (∃ c : Entity ρ, working' = some (c.toYaml e)) ∧
      ∀ c : Entity ρ, working' = some (c.toYaml e) → SameButTimestamps a c
  hides : ∀ entries, repo.statuses = .ok entries → ∀ entry ∈ entries, ∀ p a b,
    entry.path = some p → entry.status.HasChange → entryFiles repo entry = [] →
    repo.Holds e p a b → SameButTimestamps a b

/-! ## Documents without their volatile lines -/

theorem isSpace_isWhitespace : Yaml.IsSpace isWhitespace := by
  refine ⟨by decide, by decide, fun c hc => ?_⟩
  have hrange := wordChar_range hc
  simp only [isWhitespace, Bool.or_eq_false_iff, Bool.and_eq_false_iff, decide_eq_false_iff_not,
    beq_eq_false_iff_ne, ne_eq]
  omega

theorem isKey_updatedAt : Yaml.IsKey updatedAt := by
  constructor
  · decide
  · exact List.all_eq_true.mp (by decide)

theorem Entity.valid_write (e : Emitter ρ) (a : Entity ρ) :
    (Value.mapping (a.fields.map e.write)).Valid updatedAt IsScalar IsInlineValue := by
  refine Value.Valid.map (v := .mapping a.fields) (fun v _ => e.isScalar_write v) ?_ a.valid
  intro v hv
  match v, hv with
  | .text s, hv =>
    have hliteral : e.isLiteral s ≠ true := fun hliteral => hv (e.literal s hliteral).1
    exact ⟨_, if_neg hliteral⟩

theorem Entity.nested (e : Emitter ρ) (a : Entity ρ) :
    Yaml.Nested ((a.fields.map e.write).rows 0 0) := by
  have := (a.fields.map e.write).rows_nested (i := 0) (b := 0) (a.valid_write e).2 .nil nofun
  rwa [List.append_nil] at this

/-- The lines of an entity file are the lines of its document. -/
theorem strLines_toYaml (e : Emitter ρ) (a : Entity ρ) :
    strLines (a.toYaml e) = lines ((a.fields.map e.write).rows 0 0) := by
  have hone := (a.nested e).isOneLine
  have hsplit : splitLines '\n' (a.toYaml e) = (lines ((a.fields.map e.write).rows 0 0), []) :=
    splitLines_joinLines fun l hl => (hone l hl).1
  have hkept : ∀ l ∈ lines ((a.fields.map e.write).rows 0 0),
      (if l.getLast? = some '\r' then l.dropLast else l) = l := fun l hl =>
    if_neg fun hlast => (hone l hl).2 (List.mem_of_getLast? hlast)
  rw [strLines, hsplit]
  exact (List.append_nil _).trans ((List.map_congr_left hkept).trans (List.map_id' _))

/-- Reading an entity file back returns the entity. -/
theorem Entity.toYaml_injective (e : Emitter ρ) {a b : Entity ρ} (h : a.toYaml e = b.toYaml e) :
    a.fields = b.fields := by
  have hlines : lines ((a.fields.map e.write).rows 0 0) =
      lines ((b.fields.map e.write).rows 0 0) := by
    rw [← strLines_toYaml, ← strLines_toYaml, h]
  exact Fields.map_injective e.write_injective _ _
    (Yaml.rows_injective (a.valid_write e).2 (b.valid_write e).2 hlines)

theorem stripVolatile_toYaml (e : Emitter ρ) (a : Entity ρ) :
    stripVolatile (a.toYaml e) = List.intercalate ['\n']
      (quietLines isWhitespace updatedAt ((a.fields.map e.write).rows 0 0)) := by
  rw [stripVolatile, strLines_toYaml, quietLines]
  refine congrArg _ (List.filter_congr fun l _ => ?_)
  rw [volatileKeys, List.any_cons, List.any_nil, Bool.or_false]
  rfl

/-- The first field of an entity is not noise. -/
theorem quietLines_ne_nil (e : Emitter ρ) (a : Entity ρ) :
    quietLines isWhitespace updatedAt ((a.fields.map e.write).rows 0 0) ≠ [] := by
  have hvalid := a.valid_write e
  have hnested := a.nested e
  have hnonempty := a.nonempty
  match hfields : a.fields with
  | .nil => exact absurd hfields hnonempty
  | .cons key value rest =>
    rw [hfields] at hvalid hnested
    have hhead := Yaml.isNoise_head isSpace_isWhitespace isKey_updatedAt
      (hnested : Yaml.Nested (⟨0, 0, key, (value.map e.write).lead⟩ :: _)).valid
    have hkept : isNoise isWhitespace updatedAt
        (Yaml.Row.head ⟨0, 0, key, (value.map e.write).lead⟩) = false :=
      Bool.eq_false_iff.mpr fun hnoise => hvalid.1 (hhead.mp hnoise).2
    rw [Fields.map, Fields.rows, quietLines, Yaml.lines_cons,
      List.filter_cons_of_pos (by simp [hkept])]
    exact List.cons_ne_nil _ _

theorem stripVolatile_eq_iff (e : Emitter ρ) (a b : Entity ρ) :
    stripVolatile (a.toYaml e) = stripVolatile (b.toYaml e) ↔
      (a.fields.map e.write).quiet isWhitespace updatedAt =
        (b.fields.map e.write).quiet isWhitespace updatedAt := by
  rw [← Yaml.quietLines_eq_iff isSpace_isWhitespace isKey_updatedAt (a.valid_write e).2
    (b.valid_write e).2, stripVolatile_toYaml, stripVolatile_toYaml]
  have hlines : ∀ a : Entity ρ, ∀ l ∈ quietLines isWhitespace updatedAt
      ((a.fields.map e.write).rows 0 0), '\n' ∉ l := fun a l hl =>
    ((a.nested e).isOneLine l (List.mem_of_mem_filter hl)).1
  constructor
  · intro hjoin
    rw [← List.splitOn_intercalate '\n' (hlines a) (quietLines_ne_nil e a), hjoin,
      List.splitOn_intercalate '\n' (hlines b) (quietLines_ne_nil e b)]
  · intro heq
    rw [heq]

theorem onlyVolatileChange_iff {e : Emitter ρ} {repo : Repository} {p : Text} {a b : Entity ρ}
    (h : repo.Holds e p a b) : onlyVolatileChange repo p = true ↔
      (a.fields.map e.write).quiet isWhitespace updatedAt =
        (b.fields.map e.write).quiet isWhitespace updatedAt := by
  rw [← stripVolatile_eq_iff, onlyVolatileChange, h.working, h.head]
  exact beq_iff_eq

/-! ## Discarding -/

/-- A file is left alone, or reset to HEAD because of a volatile change. -/
theorem discardEntries_working (refuses : Text → Option String) (repo : Repository)
    (entries : List Entry) (p : Text) :
    (discardEntries refuses repo entries).1.working p = repo.working p ∨
      onlyVolatileChange repo p = true ∧
        (discardEntries refuses repo entries).1.working p = repo.headBlob p := by
  induction entries generalizing repo with
  | nil => exact .inl rfl
  | cons entry rest ih =>
    rw [discardEntries]
    split
    · exact ih repo
    rename_i rel _
    split_ifs with hskip
    · exact ih repo
    split
    · exact ih repo
    rename_i content hhead
    split
    · exact .inl rfl
    have hreset : onlyVolatileChange repo rel = true := by
      by_contra honly
      simp [honly] at hskip
    by_cases hp : p = rel
    · subst hp
      have hwritten : (repo.writeFile p content).working p = repo.headBlob p := by
        rw [repo.working_writeFile, if_pos rfl, hhead]
        cases hworkdir : repo.workdir with
        | some workdir => rfl
        | none =>
          rw [onlyVolatileChange, Repository.working, hworkdir] at hreset
          cases hreset
      obtain hkept | ⟨-, hhead'⟩ := ih (repo.writeFile p content)
      · exact .inr ⟨hreset, hkept.trans hwritten⟩
      · exact .inr ⟨hreset, hhead'⟩
    · have hother : (repo.writeFile rel content).working p = repo.working p := by
        rw [repo.working_writeFile, if_neg hp]
      obtain hkept | ⟨honly, hhead'⟩ := ih (repo.writeFile rel content)
      · exact .inl (hkept.trans hother)
      · rw [onlyVolatileChange, hother] at honly
        exact .inr ⟨honly, hhead'⟩

theorem discardVolatileChanges_working (refuses : Text → Option String) (repo : Repository)
    (p : Text) : (discardVolatileChanges refuses repo).1.working p = repo.working p ∨
      onlyVolatileChange repo p = true ∧
        (discardVolatileChanges refuses repo).1.working p = repo.headBlob p := by
  rw [discardVolatileChanges]
  split
  · exact .inl rfl
  · exact .inl rfl
  · exact discardEntries_working refuses repo _ p

/-- A path with a change and without a row is hidden for its content. -/
theorem onlyVolatileChange_of_hidden {repo : Repository} {entry : Entry} {p : Text}
    (hpath : entry.path = some p) (hchange : entry.status.HasChange)
    (hkind : (classifyPath p).1 ≠ .other) (hnone : entryFiles repo entry = []) :
    onlyVolatileChange repo p = true := by
  have hignore : p ≠ ".gitignore".toList := by
    rintro rfl
    exact hkind (by decide)
  by_contra honly
  have hshown : isHidden repo p entry.status = false := by
    rw [isHidden, Bool.eq_false_iff.mpr honly, Bool.and_false, Bool.or_false]
    exact beq_eq_false_iff_ne.mpr hignore
  simp only [entryFiles, hpath, hshown, Bool.false_eq_true, if_false] at hnone
  by_cases hconflicted : entry.status.conflicted = true
  · rw [if_pos hconflicted] at hnone
    cases hnone
  rw [if_neg hconflicted, List.append_eq_nil_iff, Option.toList_eq_nil_iff, Option.toList_eq_nil_iff,
    Option.map_eq_none_iff, Option.map_eq_none_iff] at hnone
  rcases hchange with hconflicted' | hindex | hworktree
  · exact hconflicted hconflicted'
  · rw [hnone.1] at hindex
    cases hindex
  · rw [hnone.2] at hworktree
    cases hworktree

/-- The code takes timestamps only for volatile unless the entities of a file differ in noise. -/
theorem timestampsOnly_iff (e : Emitter ρ) (repo : Repository) :
    TimestampsOnly e repo ↔ ∀ p a b, repo.Holds e p a b → ¬ DifferInNoise e a b := by
  constructor
  · rintro h p a b hholds ⟨hdiffer, hquiet⟩
    exact hdiffer (h.volatile p a b hholds ((onlyVolatileChange_iff hholds).mpr hquiet))
  · intro h
    have hvolatile : ∀ p a b, repo.Holds e p a b → onlyVolatileChange repo p = true →
        SameButTimestamps a b := fun p a b hholds honly => by
      by_contra hdiffer
      exact h p a b hholds ⟨hdiffer, (onlyVolatileChange_iff hholds).mp honly⟩
    refine ⟨hvolatile, fun refuses p a b hholds => ?_, ?_⟩
    · have hsame : ∀ {c d : Entity ρ}, c.fields = d.fields → SameButTimestamps c d :=
        fun heq => congrArg _ heq
      obtain hkept | ⟨honly, hreset⟩ := discardVolatileChanges_working refuses repo p
      · rw [hkept, hholds.working]
        refine ⟨⟨a, rfl⟩, fun c hc => hsame (Entity.toYaml_injective e (Option.some.inj hc))⟩
      · rw [hreset, hholds.head]
        refine ⟨⟨b, rfl⟩, fun c hc => (hvolatile p a b hholds honly).trans ?_⟩
        exact hsame (Entity.toYaml_injective e (Option.some.inj hc))
    · intro entries _ entry _ p a b hpath hchange hnone hholds
      exact hvolatile p a b hholds
        (onlyVolatileChange_of_hidden hpath hchange hholds.kind hnone)

/-! ## A lost edit -/

/-- A request with a body text. -/
def editedRequest (text : Text) : Entity Bool where
  fields := .cons "id".toList (.scalar (.text "r1".toList)) <|
    .cons "body".toList (.mapping (.cons "text".toList (.scalar (.text text)) .nil)) <|
    .cons updatedAt (.scalar (.text "2024-01-01T00:00:00Z".toList)) .nil
  nonempty := nofun
  valid := by
    have hid : Yaml.IsKey "id".toList ∧ "id".toList ≠ updatedAt :=
      ⟨⟨by decide, List.all_eq_true.mp (by decide)⟩, by decide⟩
    have hbody : Yaml.IsKey "body".toList ∧ "body".toList ≠ updatedAt :=
      ⟨⟨by decide, List.all_eq_true.mp (by decide)⟩, by decide⟩
    have htext : Yaml.IsKey "text".toList ∧ "text".toList ≠ updatedAt :=
      ⟨⟨by decide, List.all_eq_true.mp (by decide)⟩, by decide⟩
    have hstamp : IsTimestamp (.text "2024-01-01T00:00:00Z".toList : Scalar Bool) := by
      rw [IsTimestamp]
      decide
    exact ⟨hid.2, hid.1, fun h => absurd h hid.2, trivial,
      hbody.1, fun h => absurd h hbody.2,
        ⟨htext.2, htext.1, fun h => absurd h htext.2, trivial, trivial⟩,
      isKey_updatedAt, fun _ => ⟨_, rfl, hstamp⟩, trivial, trivial⟩

theorem editedRequest_without (text : Text) : (editedRequest text).fields.without updatedAt =
    .cons "id".toList (.scalar (.text "r1".toList)) (.cons "body".toList
      (.mapping (.cons "text".toList (.scalar (.text text)) .nil)) .nil) := rfl

theorem editedRequest_quiet (e : Emitter Bool) (text : Text) :
    ((editedRequest text).fields.map e.write).quiet isWhitespace updatedAt =
      .cons "id".toList
        (.scalar ((e.write (.text "r1".toList)).quiet (isNoise isWhitespace updatedAt)))
        (.cons "body".toList (.mapping (.cons "text".toList
          (.scalar ((e.write (.text text)).quiet (isNoise isWhitespace updatedAt))) .nil)) .nil) :=
  rfl

/-- A repository with one modified file. -/
def modifiedFile (rel working head : Text) : Repository where
  statuses := .ok [⟨some rel, { wtModified := true }⟩]
  workdir := some fun p => if p = rel then some working else none
  headBlob p := if p = rel then some head else none

theorem holds_modifiedFile (e : Emitter ρ) {rel : Text} (hkind : (classifyPath rel).1 ≠ .other)
    (a b : Entity ρ) : (modifiedFile rel (a.toYaml e) (b.toYaml e)).Holds e rel a b :=
  ⟨hkind, by simp [modifiedFile, Repository.working], by simp [modifiedFile]⟩

def editedRepository : Repository :=
  modifiedFile "req_r1.yaml".toList
    ((editedRequest "a\nupdatedAt: 2".toList).toYaml Yaml.quoting)
    ((editedRequest "a\nupdatedAt: 1".toList).toYaml Yaml.quoting)

/-- An edit of a body line that looks like a timestamp is taken for volatile. -/
theorem edited_body_is_volatile : ¬ TimestampsOnly Yaml.quoting editedRepository := by
  intro h
  have hleaf : ∀ text ∈ ["a\nupdatedAt: 1".toList, "a\nupdatedAt: 2".toList],
      (Yaml.quoting.write (.text text)).quiet (isNoise isWhitespace updatedAt) =
        .block "|-".toList ["a".toList] := by
    decide
  have hholds : editedRepository.Holds Yaml.quoting "req_r1.yaml".toList
      (editedRequest "a\nupdatedAt: 2".toList) (editedRequest "a\nupdatedAt: 1".toList) :=
    holds_modifiedFile Yaml.quoting (by decide) _ _
  have hquiet : ((editedRequest "a\nupdatedAt: 2".toList).fields.map Yaml.quoting.write).quiet
      isWhitespace updatedAt =
      ((editedRequest "a\nupdatedAt: 1".toList).fields.map Yaml.quoting.write).quiet
        isWhitespace updatedAt := by
    rw [editedRequest_quiet, editedRequest_quiet, hleaf _ (List.mem_cons_of_mem _ List.mem_cons_self),
      hleaf _ List.mem_cons_self]
  have hsame := h.volatile _ _ _ hholds ((onlyVolatileChange_iff hholds).mpr hquiet)
  rw [SameButTimestamps, editedRequest_without, editedRequest_without] at hsame
  have hinner := Value.mapping.inj (Fields.cons.inj (Fields.cons.inj hsame).2.2).2.1
  exact absurd (Scalar.text.inj (Value.scalar.inj (Fields.cons.inj hinner).2.1)) (by decide)

end Voleeo.Git
