import Voleeo.Resolve.Str
import Voleeo.Runs
import Voleeo.Storage.ForestRuns
import Voleeo.Storage.Responses

/-!
# The history of responses and its files

Beside the file with the history of a request lies an index with the summaries.
The body of a large response is a file of its own, named after the response, and a
filter puts its result next to it.
-/
namespace Voleeo.Responses
open Storage (FileKey validateId)
open Resolve (strTrim)

structure StoredHttpResponseSummary where
  id : String
  requestId : String
  recordedAt : String
  status : ℕ
  statusText : String
  bodySize : ℕ
  totalMs : ℚ
  deriving DecidableEq, Repr

structure BodyFilterResult where
  filterKey : String
  lineCount : ℕ
  matchCount : ℕ
  error : Option String
  deriving DecidableEq, Repr

/-- The files of all histories, and how many ids have been drawn. -/
structure History where
  entries : FileKey → Option (List StoredHttpResponse)
  index : FileKey → Option (List StoredHttpResponseSummary)
  /-- The `*.body` files of a workspace, by their names. -/
  bodies : FileKey → Option String
  drawn : ℕ

def History.empty : History :=
  { entries := fun _ => none, index := fun _ => none, bodies := fun _ => none, drawn := 0 }

/-- The draws, the pretty-printer for bodies and the query language. -/
structure Backend where
  newId : ℕ → String
  newId_injective : Function.Injective newId
  now : ℕ → String
  formatForStorage : String → String
  applyJsonpath : String → String → Except String (String × ℕ)

abbrev OnHistory (α : Type) := Fallible History VoleeoError α

open Fallible (get modify)

def lift {α : Type} : Except VoleeoError α → OnHistory α
  | .ok a => pure a
  | .error e => Fallible.throw e

/-! ## Files -/

/-- Each segment of the name between dots must be an id. -/
def bodyFile (workspaceId responseId : String) : Except VoleeoError FileKey := do
  validateId workspaceId
  (responseId.toList.splitOn '.').forM fun segment => validateId (String.ofList segment)
  return (workspaceId, responseId)

def filterKey (responseId : String) : String := responseId ++ ".filter"

/-- A file that is not there, or a name that is refused, counts for nothing. -/
def History.removeBody (s : History) (workspaceId responseId : String) : History :=
  match bodyFile workspaceId responseId with
  | .ok path => { s with bodies := Function.update s.bodies path none }
  | .error _ => s

def removeBodyFiles (workspaceId : String) (entries : List StoredHttpResponse) (s : History) :
    History :=
  entries.foldl (fun s e =>
    if e.response.bodyWindowed then
      (s.removeBody workspaceId e.id).removeBody workspaceId (filterKey e.id)
    else s) s

def summarize (items : List StoredHttpResponse) : List StoredHttpResponseSummary :=
  items.map fun r =>
    { id := r.id, requestId := r.requestId, recordedAt := r.recordedAt
      status := r.response.status, statusText := r.response.statusText
      bodySize := r.response.bodySize, totalMs := r.response.timing.totalMs }

def readAll (workspaceId requestId : String) : OnHistory (List StoredHttpResponse) := do
  lift (validateId workspaceId)
  lift (validateId requestId)
  return ((← get).entries (workspaceId, requestId)).getD []

def writeIndex (workspaceId requestId : String) (items : List StoredHttpResponse) :
    OnHistory Unit :=
  modify fun s =>
    { s with index := Function.update s.index (workspaceId, requestId) (some (summarize items)) }

def writeAll (workspaceId requestId : String) (items : List StoredHttpResponse) :
    OnHistory Unit := do
  lift (validateId workspaceId)
  lift (validateId requestId)
  modify fun s =>
    { s with entries := Function.update s.entries (workspaceId, requestId) (some items) }
  writeIndex workspaceId requestId items

/-! ## Operations -/

section Operations
variable (b : Backend)

/-- The body of a large text goes to its file. -/
def writeBody (workspaceId id : String) (response : HttpResponse) : OnHistory Unit :=
  if response.bodyIsText ∧ response.body.utf8ByteSize > windowThreshold then do
    let path ← lift (bodyFile workspaceId id)
    modify fun s =>
      { s with bodies := Function.update s.bodies path (some (b.formatForStorage response.body)) }
  else return ()

def append (c : Completed) (limit : ℕ) : OnHistory StoredHttpResponse := do
  let s ← get
  modify fun s => { s with drawn := s.drawn + 1 }
  let id := b.newId s.drawn
  let recordedAt := b.now s.drawn
  if limit = 0 then
    return { stored b.formatForStorage id recordedAt c with
      response := { c.response with responseId := id } }
  else do
    writeBody b c.workspaceId id c.response
    let entry := stored b.formatForStorage id recordedAt c
    let items := entry :: (← readAll c.workspaceId c.requestId)
    if items.length > limit then
      modify (removeBodyFiles c.workspaceId (items.drop limit))
    writeAll c.workspaceId c.requestId (items.take limit)
    return entry

/-- The index is read if it is there, and written if it was missing. -/
def list (workspaceId requestId : String) : OnHistory (List StoredHttpResponseSummary) := do
  lift (validateId workspaceId)
  lift (validateId requestId)
  match (← get).index (workspaceId, requestId) with
  | some summaries => return summaries
  | none => do
      let items ← readAll workspaceId requestId
      if items ≠ [] then writeIndex workspaceId requestId items
      return summarize items

def clear (workspaceId requestId : String) : OnHistory Unit := do
  let entries ← readAll workspaceId requestId
  modify (removeBodyFiles workspaceId entries)
  modify fun s =>
    { s with
      entries := Function.update s.entries (workspaceId, requestId) none
      index := Function.update s.index (workspaceId, requestId) none }

/-- The result of a query goes next to the body; an empty query or one that fails clears it. -/
def bodyFilter (workspaceId responseId query : String) : OnHistory BodyFilterResult := do
  let key := filterKey responseId
  if strTrim query.toList = [] then
    modify fun s => s.removeBody workspaceId key
    return { filterKey := key, lineCount := 0, matchCount := 0, error := none }
  else do
    let path ← lift (bodyFile workspaceId responseId)
    match (← get).bodies path with
    | none => lift (.error (.storage "No such file or directory"))
    | some text =>
      match b.applyJsonpath text query with
      | .ok (filtered, matchCount) => do
          let path ← lift (bodyFile workspaceId key)
          modify fun s => { s with bodies := Function.update s.bodies path (some filtered) }
          return { filterKey := key, lineCount := countLines filtered, matchCount, error := none }
      | .error error => do
          modify fun s => s.removeBody workspaceId key
          return { filterKey := key, lineCount := 0, matchCount := 0, error := some error }

end Operations

/-! ## Names of files -/

variable {ws req id : String} {s : History} {b : Backend} {k : FileKey}

theorem validateId_spec (h : validateId id = .ok ()) :
    ∀ c ∈ id.toList, Storage.isIdChar c = true := by
  rw [validateId] at h
  split_ifs at h with hlength hall
  exact List.all_eq_true.mp hall

theorem dot_notMem_of_valid (h : validateId id = .ok ()) : '.' ∉ id.toList := fun hmem =>
  absurd (validateId_spec h '.' hmem) (by decide)

theorem toList_filterKey (id : String) :
    (filterKey id).toList = id.toList ++ '.' :: "filter".toList := by
  rw [filterKey, String.toList_append]
  rfl

/-- A name without a dot is no name of a filter. -/
theorem ne_filterKey (h : '.' ∉ id.toList) (id' : String) : id ≠ filterKey id' := by
  rintro rfl
  exact h (by rw [toList_filterKey]; simp)

theorem bodyFile_of_valid (hws : validateId ws = .ok ()) (hid : validateId id = .ok ()) :
    bodyFile ws id = .ok (ws, id) ∧ bodyFile ws (filterKey id) = .ok (ws, filterKey id) := by
  have hdot : ∀ c ∈ id.toList, (c == '.') = false := fun c hc => by
    simpa using fun h : c = '.' => dot_notMem_of_valid hid (h ▸ hc)
  have hfilter : ∀ c ∈ "filter".toList, (c == '.') = false := by simp
  have hsuffix : validateId "filter" = .ok () := by decide
  have hsplit : id.toList.splitOn '.' = [id.toList] := List.splitOnP_eq_singleton hdot
  have hsplit' : (filterKey id).toList.splitOn '.' = [id.toList, "filter".toList] := by
    rw [toList_filterKey]
    refine (List.splitOnP_append_cons_of_forall_mem hdot '.' (by decide) _).trans ?_
    rw [List.splitOnP_eq_singleton hfilter]
  have hid' : validateId (String.ofList id.toList) = .ok () := by rwa [String.ofList_toList]
  have hsuffix' : validateId (String.ofList "filter".toList) = .ok () := hsuffix
  constructor
  · rw [bodyFile, hws, hsplit, List.forM_eq_forM, List.forM_cons, hid']
    rfl
  · rw [bodyFile, hws, hsplit', List.forM_eq_forM, List.forM_cons, hid', List.forM_cons, hsuffix']
    rfl

/-- Only a name is ever removed. -/
theorem bodies_removeBody (s : History) (hws : validateId ws = .ok ())
    (hid : validateId id = .ok ()) (k : FileKey) :
    ((s.removeBody ws id).removeBody ws (filterKey id)).bodies k =
      if k = (ws, id) ∨ k = (ws, filterKey id) then none else s.bodies k := by
  obtain ⟨hbody, hfilter⟩ := bodyFile_of_valid hws hid
  simp only [History.removeBody, hbody, hfilter]
  by_cases hk : k = (ws, filterKey id)
  · simp [hk]
  · by_cases hk' : k = (ws, id)
    · rw [hk', Function.update_of_ne (hk' ▸ hk)]
      simp
    · rw [Function.update_of_ne hk, Function.update_of_ne hk', if_neg (by simp [hk, hk'])]

/-- The names that go with an entry. -/
def Owns (e : StoredHttpResponse) (name : String) : Prop :=
  e.response.bodyWindowed = true ∧ (name = e.id ∨ name = filterKey e.id)

instance (e : StoredHttpResponse) (name : String) : Decidable (Owns e name) :=
  inferInstanceAs (Decidable (_ ∧ _))

theorem removeBodyFiles_spec (hws : validateId ws = .ok ()) {gone : List StoredHttpResponse}
    (hids : ∀ e ∈ gone, validateId e.id = .ok ()) (s : History) :
    removeBodyFiles ws gone s =
      { s with bodies := fun k =>
          if k.1 = ws ∧ ∃ e ∈ gone, Owns e k.2 then none else s.bodies k } := by
  induction gone generalizing s with
  | nil => simp [removeBodyFiles]
  | cons e gone ih =>
    obtain ⟨hid, hgone⟩ := List.forall_mem_cons.mp hids
    obtain ⟨hbody, hfilter⟩ := bodyFile_of_valid hws hid
    rw [removeBodyFiles, List.foldl_cons, ← removeBodyFiles, ih hgone]
    cases hwindowed : e.response.bodyWindowed with
    | false => simp [Owns, hwindowed]
    | true =>
      simp only [if_true, bodies_removeBody s hws hid]
      simp only [History.removeBody, hbody, hfilter]
      congr 1
      funext k
      have howns : (k.1 = ws ∧ ∃ x ∈ e :: gone, Owns x k.2) ↔
          (k.1 = ws ∧ ∃ x ∈ gone, Owns x k.2) ∨ k = (ws, e.id) ∨ k = (ws, filterKey e.id) := by
        obtain ⟨w, name⟩ := k
        simp only [Owns, List.mem_cons, exists_eq_or_imp, hwindowed, true_and, Prod.mk.injEq]
        by_cases hw : w = ws
        · simp only [hw, true_and]
          exact or_comm
        · simp only [hw, false_and, or_self]
      by_cases hrest : k.1 = ws ∧ ∃ x ∈ gone, Owns x k.2
      · rw [if_pos hrest, if_pos (howns.mpr (Or.inl hrest))]
      · rw [if_neg hrest]
        refine if_congr ?_ rfl rfl
        rw [howns, or_iff_right hrest]

/-! ## The files together -/

/-- A response whose body is a file is in a history of the workspace. -/
def Windowed (s : History) (ws id : String) : Prop :=
  ∃ req, ∃ e ∈ (s.entries (ws, req)).getD [], e.response.bodyWindowed = true ∧ e.id = id

/-- An entry was drawn before another one. -/
def Backend.DrawnBefore (b : Backend) (id id' : String) : Prop :=
  ∃ t t', t < t' ∧ id = b.newId t ∧ id' = b.newId t'

structure InStep (b : Backend) (s : History) : Prop where
  index : ∀ k, s.index k = (s.entries k).map summarize
  drawn : ∀ k, ∀ e ∈ (s.entries k).getD [],
    validateId e.id = .ok () ∧ ∃ t < s.drawn, e.id = b.newId t
  newest : ∀ k, ((s.entries k).getD []).Pairwise fun e e' => b.DrawnBefore e'.id e.id
  apart : ∀ k k', ∀ e ∈ (s.entries k).getD [], ∀ e' ∈ (s.entries k').getD [],
    e.id = e'.id → k = k'
  complete : ∀ ws id, Windowed s ws id → (s.bodies (ws, id)).isSome = true
  sound : ∀ ws name, (s.bodies (ws, name)).isSome = true →
    ∃ id, Windowed s ws id ∧ (name = id ∨ name = filterKey id)

theorem inStep_empty (b : Backend) : InStep b History.empty where
  index _ := rfl
  drawn _ _ he := absurd he List.not_mem_nil
  newest _ := List.Pairwise.nil
  apart _ _ _ he := absurd he List.not_mem_nil
  complete _ _ h := by
    obtain ⟨_, _, he, _⟩ := h
    exact absurd he List.not_mem_nil
  sound _ _ h := absurd h Bool.false_ne_true

theorem DrawnBefore.ne {id id' : String} (h : b.DrawnBefore id id') : id ≠ id' := by
  obtain ⟨t, t', hlt, rfl, rfl⟩ := h
  exact fun heq => hlt.ne (b.newId_injective heq)

theorem InStep.valid (h : InStep b s) {e : StoredHttpResponse}
    (he : e ∈ (s.entries k).getD []) : validateId e.id = .ok () := (h.drawn k e he).1

theorem Windowed.valid (h : InStep b s) (hwindowed : Windowed s ws id) :
    validateId id = .ok () := by
  obtain ⟨req, e, he, -, rfl⟩ := hwindowed
  exact h.valid he

/-- A draw alone changes nothing. -/
theorem InStep.draw (h : InStep b s) : InStep b { s with drawn := s.drawn + 1 } where
  index := h.index
  drawn k e he := by
    obtain ⟨hid, t, hlt, ht⟩ := h.drawn k e he
    exact ⟨hid, t, hlt.trans (Nat.lt_succ_self _), ht⟩
  newest := h.newest
  apart := h.apart
  complete := h.complete
  sound := h.sound

/-- A history with a new entry in front, and the body of it in its file. -/
def History.prepend (s : History) (k : FileKey) (e : StoredHttpResponse) (text : String) :
    History where
  entries := Function.update s.entries k (some (e :: (s.entries k).getD []))
  index := Function.update s.index k (some (summarize (e :: (s.entries k).getD [])))
  bodies := if e.response.bodyWindowed then Function.update s.bodies (k.1, e.id) (some text)
    else s.bodies
  drawn := s.drawn + 1

theorem mem_prepend {k' : FileKey} {e e' : StoredHttpResponse} {text : String} :
    e' ∈ ((s.prepend k e text).entries k').getD [] ↔
      (k' = k ∧ e' = e) ∨ e' ∈ (s.entries k').getD [] := by
  by_cases hk : k' = k
  · subst hk
    simp [History.prepend]
  · simp [History.prepend, hk]

theorem windowed_prepend {e : StoredHttpResponse} {text ws' id : String} :
    Windowed (s.prepend k e text) ws' id ↔
      (ws' = k.1 ∧ e.response.bodyWindowed = true ∧ e.id = id) ∨ Windowed s ws' id := by
  simp only [Windowed, mem_prepend]
  constructor
  · rintro ⟨req, e', ⟨rfl, rfl⟩ | he', hwindowed, hid⟩
    · exact Or.inl ⟨rfl, hwindowed, hid⟩
    · exact Or.inr ⟨req, e', he', hwindowed, hid⟩
  · rintro (⟨rfl, hwindowed, hid⟩ | ⟨req, e', he', hwindowed, hid⟩)
    · exact ⟨k.2, e, Or.inl ⟨rfl, rfl⟩, hwindowed, hid⟩
    · exact ⟨req, e', Or.inr he', hwindowed, hid⟩

theorem InStep.prepend (h : InStep b s) (k : FileKey) {e : StoredHttpResponse} (text : String)
    (hid : e.id = b.newId s.drawn) (hvalid : validateId e.id = .ok ()) :
    InStep b (s.prepend k e text) where
  index k' := by
    by_cases hk : k' = k
    · subst hk
      simp [History.prepend]
    · simp [History.prepend, hk, h.index]
  drawn k' e' he' := by
    rcases mem_prepend.mp he' with ⟨-, rfl⟩ | he'
    · exact ⟨hvalid, s.drawn, Nat.lt_succ_self _, hid⟩
    · obtain ⟨hid', t, hlt, ht⟩ := h.drawn k' e' he'
      exact ⟨hid', t, hlt.trans (Nat.lt_succ_self _), ht⟩
  newest k' := by
    by_cases hk : k' = k
    · subst hk
      simp only [History.prepend, Function.update_self, Option.getD_some, List.pairwise_cons]
      refine ⟨fun e' he' => ?_, h.newest k'⟩
      obtain ⟨-, t, hlt, ht⟩ := h.drawn k' e' he'
      exact ⟨t, s.drawn, hlt, ht, hid⟩
    · simpa [History.prepend, hk] using h.newest k'
  apart k₁ k₂ e₁ he₁ e₂ he₂ heq := by
    have hfresh : ∀ k', ∀ e' ∈ (s.entries k').getD [], e'.id ≠ e.id := by
      intro k' e' he' hsame
      obtain ⟨-, t, hlt, ht⟩ := h.drawn k' e' he'
      rw [ht, hid] at hsame
      exact hlt.ne (b.newId_injective hsame)
    rcases mem_prepend.mp he₁ with ⟨hk₁, hnew₁⟩ | hold₁
    · rcases mem_prepend.mp he₂ with ⟨hk₂, -⟩ | hold₂
      · rw [hk₁, hk₂]
      · exact absurd (heq.symm.trans (congrArg _ hnew₁)) (hfresh k₂ e₂ hold₂)
    · rcases mem_prepend.mp he₂ with ⟨-, hnew₂⟩ | hold₂
      · exact absurd (heq.trans (congrArg _ hnew₂)) (hfresh k₁ e₁ hold₁)
      · exact h.apart k₁ k₂ e₁ hold₁ e₂ hold₂ heq
  complete ws' id hwindowed := by
    rcases windowed_prepend.mp hwindowed with ⟨rfl, hlarge, rfl⟩ | hold
    · simp [History.prepend, hlarge]
    · have hbody := h.complete ws' id hold
      simp only [History.prepend]
      split
      · rw [Function.update_apply]
        split
        · rfl
        · exact hbody
      · exact hbody
  sound ws' name hbody := by
    have hnew : (e.response.bodyWindowed = true ∧ (ws', name) = (k.1, e.id)) ∨
        (s.bodies (ws', name)).isSome = true := by
      simp only [History.prepend] at hbody
      split at hbody
      · rename_i hlarge
        by_cases hpath : (ws', name) = (k.1, e.id)
        · exact Or.inl ⟨hlarge, hpath⟩
        · rw [Function.update_of_ne hpath] at hbody
          exact Or.inr hbody
      · exact Or.inr hbody
    rcases hnew with ⟨hlarge, hpath⟩ | hold
    · obtain ⟨rfl, rfl⟩ := Prod.mk.inj hpath
      exact ⟨e.id, windowed_prepend.mpr (Or.inl ⟨rfl, hlarge, rfl⟩), Or.inl rfl⟩
    · obtain ⟨id, hwindowed, hname⟩ := h.sound ws' name hold
      exact ⟨id, windowed_prepend.mpr (Or.inr hwindowed), hname⟩

/-- A history of which only the first entries stay, with the files of the others gone. -/
def History.dropTail (s : History) (k : FileKey) (rest : Option (List StoredHttpResponse))
    (gone : List StoredHttpResponse) : History where
  entries := Function.update s.entries k rest
  index := Function.update s.index k (rest.map summarize)
  bodies := fun k' => if k'.1 = k.1 ∧ ∃ e ∈ gone, Owns e k'.2 then none else s.bodies k'
  drawn := s.drawn

theorem History.entries_dropTail (s : History) (k : FileKey)
    (rest : Option (List StoredHttpResponse)) (gone : List StoredHttpResponse) :
    (s.dropTail k rest gone).entries k = rest := by
  simp [History.dropTail]

section DropTail
variable {rest : Option (List StoredHttpResponse)} {gone : List StoredHttpResponse}

theorem mem_dropTail (hsplit : (s.entries k).getD [] = rest.getD [] ++ gone) {k' : FileKey}
    {e : StoredHttpResponse} (he : e ∈ ((s.dropTail k rest gone).entries k').getD []) :
    e ∈ (s.entries k').getD [] := by
  by_cases hk : k' = k
  · subst hk
    rw [hsplit]
    refine List.mem_append_left _ ?_
    simpa [History.dropTail] using he
  · simpa [History.dropTail, hk] using he

/-- What stays has another id than what goes. -/
theorem InStep.ne_gone (h : InStep b s) (hsplit : (s.entries k).getD [] = rest.getD [] ++ gone)
    {k' : FileKey} {e e' : StoredHttpResponse}
    (he : e ∈ ((s.dropTail k rest gone).entries k').getD []) (he' : e' ∈ gone) : e.id ≠ e'.id := by
  have hmem' : e' ∈ (s.entries k).getD [] := by
    rw [hsplit]
    exact List.mem_append_right _ he'
  intro hid
  have hk : k' = k := h.apart k' k e (mem_dropTail hsplit he) e' hmem' hid
  subst hk
  have hnewest := h.newest k'
  rw [hsplit, List.pairwise_append] at hnewest
  have hrest : e ∈ rest.getD [] := by simpa [History.dropTail] using he
  exact DrawnBefore.ne (hnewest.2.2 e hrest e' he') hid.symm

theorem windowed_dropTail (hsplit : (s.entries k).getD [] = rest.getD [] ++ gone) {ws' id : String}
    (h : Windowed (s.dropTail k rest gone) ws' id) : Windowed s ws' id := by
  obtain ⟨req, e, he, hlarge⟩ := h
  exact ⟨req, e, mem_dropTail hsplit he, hlarge⟩

/-- A windowed entry stays, or its files are among those that go. -/
theorem Windowed.stays_or_gone (hsplit : (s.entries k).getD [] = rest.getD [] ++ gone)
    {ws' id : String} (h : Windowed s ws' id) :
    Windowed (s.dropTail k rest gone) ws' id ∨
      ws' = k.1 ∧ ∃ e ∈ gone, e.response.bodyWindowed = true ∧ e.id = id := by
  obtain ⟨req, e, he, hlarge⟩ := h
  by_cases hk : (ws', req) = k
  · subst hk
    rw [hsplit, List.mem_append] at he
    rcases he with hrest | hgone
    · exact Or.inl ⟨req, e, by simpa [History.dropTail] using hrest, hlarge⟩
    · exact Or.inr ⟨rfl, e, hgone, hlarge⟩
  · exact Or.inl ⟨req, e, by simpa [History.dropTail, hk] using he, hlarge⟩

theorem InStep.dropTail (h : InStep b s) (hsplit : (s.entries k).getD [] = rest.getD [] ++ gone) :
    InStep b (s.dropTail k rest gone) where
  index k' := by
    by_cases hk : k' = k
    · subst hk
      simp [History.dropTail]
    · simp [History.dropTail, hk, h.index]
  drawn k' e he := h.drawn k' e (mem_dropTail hsplit he)
  newest k' := by
    by_cases hk : k' = k
    · subst hk
      have hnewest := h.newest k'
      rw [hsplit, List.pairwise_append] at hnewest
      simpa [History.dropTail] using hnewest.1
    · simpa [History.dropTail, hk] using h.newest k'
  apart k₁ k₂ e₁ he₁ e₂ he₂ :=
    h.apart k₁ k₂ e₁ (mem_dropTail hsplit he₁) e₂ (mem_dropTail hsplit he₂)
  complete ws' id hwindowed := by
    have hold := windowed_dropTail hsplit hwindowed
    have hvalid := hold.valid h
    obtain ⟨req, e, he, -, rfl⟩ := hwindowed
    have hstays : ¬ (ws' = k.1 ∧ ∃ e' ∈ gone, Owns e' e.id) := by
      rintro ⟨-, e', he', -, hid | hfilter⟩
      · exact h.ne_gone hsplit he he' hid
      · exact ne_filterKey (dot_notMem_of_valid hvalid) e'.id hfilter
    simp only [History.dropTail, if_neg hstays]
    exact h.complete ws' e.id hold
  sound ws' name hbody := by
    simp only [History.dropTail] at hbody
    split at hbody
    · exact absurd hbody Bool.false_ne_true
    · rename_i hkept
      obtain ⟨id, hwindowed, hname⟩ := h.sound ws' name hbody
      rcases hwindowed.stays_or_gone hsplit with hstays | ⟨hws, e, he, hlarge, rfl⟩
      · exact ⟨id, hstays, hname⟩
      · exact absurd ⟨hws, e, he, hlarge, hname⟩ hkept

end DropTail

/-! ## Runs of the operations -/

open Fallible (bind_apply pure_apply get_apply modify_apply)

def Completed.key (c : Completed) : FileKey := (c.workspaceId, c.requestId)

theorem lift_ok {α : Type} (a : α) : (lift (.ok a) : OnHistory α) = pure a := rfl

theorem readAll_run (hws : validateId ws = .ok ()) (hreq : validateId req = .ok ()) :
    readAll ws req s = (.ok ((s.entries (ws, req)).getD []), s) := by
  rw [readAll, hws, hreq]
  rfl

theorem writeAll_run (hws : validateId ws = .ok ()) (hreq : validateId req = .ok ())
    (items : List StoredHttpResponse) :
    writeAll ws req items s =
      (.ok (), { s with
        entries := Function.update s.entries (ws, req) (some items)
        index := Function.update s.index (ws, req) (some (summarize items)) }) := by
  rw [writeAll, hws, hreq]
  rfl

/-- The response is stored windowed just when its body goes to a file. -/
theorem bodyWindowed_stored {format : String → String} {recordedAt : String} {c : Completed}
    (hinline : c.response.bodyWindowed = false) :
    (stored format id recordedAt c).response.bodyWindowed = true ↔
      c.response.bodyIsText = true ∧ c.response.body.utf8ByteSize > windowThreshold := by
  simp only [stored, prepareForStore]
  split
  · rename_i h
    simpa using h
  · rename_i h
    simpa [hinline] using h

theorem writeBody_run {c : Completed} (recordedAt : String)
    (hws : validateId c.workspaceId = .ok ()) (hid : validateId id = .ok ())
    (hinline : c.response.bodyWindowed = false) :
    writeBody b c.workspaceId id c.response s =
      (.ok (), { s with bodies :=
        if (stored b.formatForStorage id recordedAt c).response.bodyWindowed then
          Function.update s.bodies (c.workspaceId, id) (some (b.formatForStorage c.response.body))
        else s.bodies }) := by
  rw [writeBody]
  simp only [bodyWindowed_stored hinline]
  split
  · rw [(bodyFile_of_valid hws hid).1]
    rfl
  · rfl

theorem append_stored {c : Completed} {limit : ℕ} (h : InStep b s) (hlimit : 0 < limit)
    (hws : validateId c.workspaceId = .ok ()) (hreq : validateId c.requestId = .ok ())
    (hid : validateId (b.newId s.drawn) = .ok ()) (hinline : c.response.bodyWindowed = false) :
    append b c limit s =
      (.ok (stored b.formatForStorage (b.newId s.drawn) (b.now s.drawn) c),
        (s.prepend c.key (stored b.formatForStorage (b.newId s.drawn) (b.now s.drawn) c)
          (b.formatForStorage c.response.body)).dropTail c.key
          (some ((stored b.formatForStorage (b.newId s.drawn) (b.now s.drawn) c ::
            (s.entries c.key).getD []).take limit))
          ((stored b.formatForStorage (b.newId s.drawn) (b.now s.drawn) c ::
            (s.entries c.key).getD []).drop limit)) := by
  have hgone : ∀ e ∈ (stored b.formatForStorage (b.newId s.drawn) (b.now s.drawn) c ::
      (s.entries c.key).getD []).drop limit, validateId e.id = .ok () := by
    intro e he
    rcases List.mem_cons.mp (List.mem_of_mem_drop he) with rfl | hold
    · exact hid
    · exact h.valid hold
  simp only [append, bind_apply, get_apply, modify_apply, Nat.ne_of_gt hlimit, if_false,
    writeBody_run (b.now s.drawn) hws hid hinline, readAll_run hws hreq]
  have hentry : (stored b.formatForStorage (b.newId s.drawn) (b.now s.drawn) c).id =
      b.newId s.drawn := rfl
  generalize stored b.formatForStorage (b.newId s.drawn) (b.now s.drawn) c = entry at hgone hentry ⊢
  simp only [Completed.key] at hgone ⊢
  split
  · simp only [bind_apply, modify_apply, removeBodyFiles_spec hws hgone, writeAll_run hws hreq,
      pure_apply, History.dropTail, History.prepend, Function.update_idem, Option.map_some,
      hentry]
  · rename_i hle
    have hall := List.drop_eq_nil_of_le (Nat.not_lt.mp hle)
    simp only [bind_apply, writeAll_run hws hreq, pure_apply, History.dropTail, History.prepend,
      Function.update_idem, Option.map_some, hall, List.not_mem_nil, false_and,
      exists_false, and_false, if_false, hentry]

theorem append_run {c : Completed} {limit : ℕ} (h : InStep b s) (hlimit : 0 < limit)
    (hws : validateId c.workspaceId = .ok ()) (hreq : validateId c.requestId = .ok ())
    (hid : validateId (b.newId s.drawn) = .ok ()) (hinline : c.response.bodyWindowed = false) :
    ∃ entry, entry.id = b.newId s.drawn ∧
      append b c limit s = (.ok entry,
        (s.prepend c.key entry (b.formatForStorage c.response.body)).dropTail c.key
          (some ((entry :: (s.entries c.key).getD []).take limit))
          ((entry :: (s.entries c.key).getD []).drop limit)) :=
  ⟨_, rfl, append_stored h hlimit hws hreq hid hinline⟩

theorem clear_run (h : InStep b s) (hws : validateId ws = .ok ()) (hreq : validateId req = .ok ()) :
    clear ws req s = (.ok (), s.dropTail (ws, req) none ((s.entries (ws, req)).getD [])) := by
  have hgone : ∀ e ∈ (s.entries (ws, req)).getD [], validateId e.id = .ok () :=
    fun e he => h.valid he
  simp only [clear, bind_apply, readAll_run hws hreq, modify_apply,
    removeBodyFiles_spec hws hgone, History.dropTail, Option.map_none]

/-! ## Filters -/

theorem bodyFile_eq {path : FileKey} (h : bodyFile ws id = .ok path) : path = (ws, id) := by
  rw [bodyFile] at h
  cases hws : validateId ws with
  | error e =>
    rw [hws] at h
    cases h
  | ok =>
    rw [hws] at h
    cases hsegments : (id.toList.splitOn '.').forM
        fun segment => validateId (String.ofList segment) with
    | error e =>
      rw [hsegments] at h
      cases h
    | ok =>
      rw [hsegments] at h
      exact (Except.ok.inj h).symm

/-- Removing the file of a filter touches no body. -/
theorem InStep.removeFilter (h : InStep b s) (ws id : String) :
    InStep b (s.removeBody ws (filterKey id)) := by
  rw [History.removeBody]
  split
  · rename_i path hpath
    obtain rfl := bodyFile_eq hpath
    refine ⟨h.index, h.drawn, h.newest, h.apart, ?_, ?_⟩
    · intro ws' id' hwindowed
      have hvalid := Windowed.valid h hwindowed
      have hne : (ws', id') ≠ (ws, filterKey id) := fun heq =>
        ne_filterKey (dot_notMem_of_valid hvalid) id (Prod.mk.inj heq).2
      simp only [Function.update_of_ne hne]
      exact h.complete ws' id' hwindowed
    · intro ws' name hbody
      by_cases hpath : (ws', name) = (ws, filterKey id)
      · simp [hpath] at hbody
      · simp only [Function.update_of_ne hpath] at hbody
        exact h.sound ws' name hbody
  · exact h

/-- The result of a filter goes next to a body that is there. -/
theorem InStep.putFilter (h : InStep b s) (hdot : '.' ∉ id.toList)
    (hbody : (s.bodies (ws, id)).isSome = true) (text : String) :
    InStep b { s with bodies := Function.update s.bodies (ws, filterKey id) (some text) } := by
  refine ⟨h.index, h.drawn, h.newest, h.apart, ?_, ?_⟩
  · intro ws' id' hwindowed
    by_cases hpath : (ws', id') = (ws, filterKey id)
    · simp [hpath]
    · simp only [Function.update_of_ne hpath]
      exact h.complete ws' id' hwindowed
  · intro ws' name hname
    by_cases hpath : (ws', name) = (ws, filterKey id)
    · obtain ⟨rfl, rfl⟩ := Prod.mk.inj hpath
      obtain ⟨id', hwindowed, rfl | rfl⟩ := h.sound ws' id hbody
      · exact ⟨id, hwindowed, Or.inr rfl⟩
      · exact absurd rfl (ne_filterKey hdot id')
    · simp only [Function.update_of_ne hpath] at hname
      exact h.sound ws' name hname

theorem bodyFilter_inStep (h : InStep b s) (hdot : '.' ∉ id.toList) (query : String) :
    InStep b (bodyFilter b ws id query s).2 := by
  rw [bodyFilter]
  split
  · exact h.removeFilter ws id
  · cases hpath : bodyFile ws id with
    | error e => exact h
    | ok path =>
      obtain rfl := bodyFile_eq hpath
      simp only [lift_ok, bind_apply, pure_apply, get_apply]
      cases htext : s.bodies (ws, id) with
      | none => exact h
      | some text =>
        simp only
        cases b.applyJsonpath text query with
        | error error => exact h.removeFilter ws id
        | ok result =>
          simp only
          cases hfilter : bodyFile ws (filterKey id) with
          | error e => exact h
          | ok path =>
            obtain rfl := bodyFile_eq hfilter
            exact h.putFilter hdot (by rw [htext]; rfl) result.1

/-! ## Histories over runs -/

inductive HistoryOp
  | append (c : Completed) (limit : ℕ)
  | clear (workspaceId requestId : String)
  | bodyFilter (workspaceId responseId query : String)

def HistoryOp.exec (b : Backend) (s : History) : HistoryOp → History
  | .append c limit => (Responses.append b c limit s).2
  | .clear workspaceId requestId => (Responses.clear workspaceId requestId s).2
  | .bodyFilter workspaceId responseId query =>
    (Responses.bodyFilter b workspaceId responseId query s).2

/-- What the operations are given: workspaces and requests with ids, responses as they come from
the network, and the names of responses, which have no dot. -/
def HistoryOp.Valid : HistoryOp → Prop
  | .append c _ => validateId c.workspaceId = .ok () ∧ validateId c.requestId = .ok () ∧
      c.response.bodyWindowed = false
  | .clear workspaceId requestId => validateId workspaceId = .ok () ∧ validateId requestId = .ok ()
  | .bodyFilter _ responseId _ => '.' ∉ responseId.toList

theorem append_zero (c : Completed) (s : History) :
    (append b c 0 s).2 = { s with drawn := s.drawn + 1 } := rfl

theorem drawn_removeBody (s : History) (ws id : String) : (s.removeBody ws id).drawn = s.drawn := by
  rw [History.removeBody]
  split <;> rfl

theorem drawn_bodyFilter (query : String) : (bodyFilter b ws id query s).2.drawn = s.drawn := by
  rw [bodyFilter]
  split
  · exact drawn_removeBody s ws (filterKey id)
  · cases bodyFile ws id with
    | error e => rfl
    | ok path =>
      simp only [lift_ok, bind_apply, pure_apply, get_apply]
      cases s.bodies path with
      | none => rfl
      | some text =>
        simp only
        cases b.applyJsonpath text query with
        | error error => exact drawn_removeBody s ws (filterKey id)
        | ok result => cases bodyFile ws (filterKey id) <;> rfl

theorem exec_inStep {op : HistoryOp} (h : InStep b s) (hvalid : op.Valid)
    (hid : validateId (b.newId s.drawn) = .ok ()) :
    InStep b (op.exec b s) ∧ (op.exec b s).drawn ≤ s.drawn + 1 := by
  cases op with
  | append c limit =>
    obtain ⟨hws, hreq, hinline⟩ := hvalid
    rcases Nat.eq_zero_or_pos limit with rfl | hlimit
    · rw [HistoryOp.exec, append_zero]
      exact ⟨h.draw, Nat.le_refl _⟩
    · obtain ⟨entry, hentry, hrun⟩ := append_run h hlimit hws hreq hid hinline
      rw [HistoryOp.exec, hrun]
      refine ⟨(h.prepend c.key _ hentry (by rwa [hentry])).dropTail ?_, Nat.le_refl _⟩
      simp [History.prepend, List.take_append_drop]
  | clear ws req =>
    rw [HistoryOp.exec, clear_run h hvalid.1 hvalid.2]
    exact ⟨h.dropTail (by simp), Nat.le_succ _⟩
  | bodyFilter ws id query =>
    exact ⟨bodyFilter_inStep h hvalid query, (drawn_bodyFilter query).le.trans (Nat.le_succ _)⟩

theorem run_inStep {ops : List HistoryOp} (h : InStep b s) (hvalid : ∀ op ∈ ops, op.Valid)
    (hids : ∀ t ≤ s.drawn + ops.length, validateId (b.newId t) = .ok ()) :
    InStep b (Runs.run (HistoryOp.exec b) s ops) ∧
      (Runs.run (HistoryOp.exec b) s ops).drawn ≤ s.drawn + ops.length := by
  induction ops generalizing s with
  | nil => exact ⟨h, Nat.le_refl _⟩
  | cons op ops ih =>
    obtain ⟨hop, hops⟩ := List.forall_mem_cons.mp hvalid
    obtain ⟨hnext, hdrawn⟩ := exec_inStep h hop (hids s.drawn (Nat.le_add_right _ _))
    obtain ⟨hall, hle⟩ := ih hnext hops fun t ht => hids t (by
      rw [List.length_cons]
      omega)
    refine ⟨hall, hle.trans ?_⟩
    rw [List.length_cons]
    omega

/-- What holds of the files of the histories. -/
structure Consistent (b : Backend) (s : History) : Prop where
  list : ∀ ws req, validateId ws = .ok () → validateId req = .ok () →
    (list ws req s).1 = .ok (summarize ((s.entries (ws, req)).getD []))
  newest : ∀ k, ((s.entries k).getD []).Pairwise fun e e' => b.DrawnBefore e'.id e.id
  append : ∀ c limit, 0 < limit → (HistoryOp.append c limit).Valid → ∃ entry s',
    append b c limit s = (.ok entry, s') ∧
      s'.entries c.key = some (entry :: ((s.entries c.key).getD []).take (limit - 1)) ∧
      ((s'.entries c.key).getD []).length ≤ limit
  complete : ∀ ws id, Windowed s ws id → (s.bodies (ws, id)).isSome = true
  sound : ∀ ws name, (s.bodies (ws, name)).isSome = true →
    ∃ id, Windowed s ws id ∧ (name = id ∨ name = filterKey id)

theorem list_run (h : InStep b s) (hws : validateId ws = .ok ()) (hreq : validateId req = .ok ()) :
    (list ws req s).1 = .ok (summarize ((s.entries (ws, req)).getD [])) := by
  have hindex := h.index (ws, req)
  simp only [list, hws, hreq, lift_ok, bind_apply, pure_apply, get_apply, hindex]
  cases hentries : s.entries (ws, req) with
  | none =>
    simp only [Option.map_none, readAll_run hws hreq, bind_apply, hentries, Option.getD_none]
    rfl
  | some items => rfl

/-- Over any run from no files, lists are the stored entries, an append puts its entry in front and
cuts the rest, and the body files are those of the stored entries and their filters. -/
theorem history_consistent (b : Backend) (ops : List HistoryOp) (hvalid : ∀ op ∈ ops, op.Valid)
    (hids : ∀ t ≤ ops.length, validateId (b.newId t) = .ok ()) :
    Consistent b (Runs.run (HistoryOp.exec b) History.empty ops) := by
  obtain ⟨h, hdrawn⟩ := run_inStep (inStep_empty b) hvalid (by
    simpa [History.empty] using hids)
  refine ⟨fun ws req => list_run h, h.newest, ?_, h.complete, h.sound⟩
  rintro c limit hlimit ⟨hws, hreq, hinline⟩
  have hid := hids _ (hdrawn.trans (by simp [History.empty]))
  obtain ⟨entry, -, hrun⟩ := append_run h hlimit hws hreq hid hinline
  refine ⟨entry, _, hrun, ?_⟩
  obtain ⟨n, rfl⟩ := Nat.exists_eq_succ_of_ne_zero hlimit.ne'
  rw [History.entries_dropTail]
  exact ⟨by simp, by simp⟩

/-- A backend for bodies that need no format. -/
def plainBackend : Backend where
  newId := Storage.faultless.newId
  newId_injective := Storage.faultless.newId_injective
  now := Storage.faultless.now
  formatForStorage body := body
  applyJsonpath _ _ := .error "Body is not valid JSON"

def pageLoad : Completed :=
  { workspaceId := "w1", requestId := "r1", response := { HttpResponse.blank with body := "hello" }
    resolvedRequest := HttpRequest.blank }

/-- Two sends with room for one, and a filter on the first. -/
theorem history_consistent_two_sends :
    Consistent plainBackend (Runs.run (HistoryOp.exec plainBackend) History.empty
      [.append pageLoad 1, .append pageLoad 1, .bodyFilter "w1" "n" "$.a"]) := by
  have hws : validateId "w1" = .ok () := by decide
  have hreq : validateId "r1" = .ok () := by decide
  have happend : (HistoryOp.append pageLoad 1).Valid := ⟨hws, hreq, rfl⟩
  have hfilter : (HistoryOp.bodyFilter "w1" "n" "$.a").Valid := by
    rw [HistoryOp.Valid]
    decide
  refine history_consistent plainBackend _ ?_ ?_
  · exact List.forall_mem_cons.mpr ⟨happend,
      List.forall_mem_cons.mpr ⟨happend, List.forall_mem_singleton.mpr hfilter⟩⟩
  · have hvalid : ∀ t < 4, validateId (Storage.faultless.newId t) = .ok () := by decide
    exact fun t ht => hvalid t (Nat.lt_succ_of_le ht)

end Voleeo.Responses
