import Voleeo.Entities
import Voleeo.Records
import Voleeo.Storage.BodySearch

/-!
# The cache of parsed bodies

A few parsed bodies are kept under their keys, and a queue has the keys in the order in which they
came. The cache is observed over runs: what it returns was loaded under the key at some step, and
has not left the cache since.
-/
namespace Voleeo.BodyWindow

/-! ## The cache -/

def cacheCap : ℕ := 4

structure BodyCache where
  map : Records (Prod.fst : String × Parsed → String)
  order : List String

namespace BodyCache

def empty : BodyCache := ⟨⟨[], List.nodup_nil⟩, []⟩

/-- Keys leave at the front of the queue until it fits. -/
def evict (map : Records (Prod.fst : String × Parsed → String)) : List String → BodyCache
  | [] => ⟨map, []⟩
  | key :: order =>
    if cacheCap < (key :: order).length then evict (map.remove key) order
    else ⟨map, key :: order⟩

def getOrLoad (cache : BodyCache) (key : String) (load : Except VoleeoError Text) :
    Except VoleeoError Parsed × BodyCache :=
  match cache.map.find? key with
  | some p => (.ok p.2, cache)
  | none =>
    match load with
    | .error e => (.error e, cache)
    | .ok text =>
      let parsed := parse text
      (.ok parsed, evict (cache.map.put (key, parsed)) (cache.order ++ [key]))

def invalidate (cache : BodyCache) (key : String) : BodyCache where
  map := cache.map.remove key
  order := cache.order.filter fun k => k ≠ key

end BodyCache

/-! ## Runs -/

/-- A call, with what loading the body would give. -/
inductive CacheCall
  | getOrLoad (key : String) (load : Except VoleeoError Text)
  | invalidate (key : String)

def CacheCall.exec (cache : BodyCache) : CacheCall → Option (Except VoleeoError Parsed) × BodyCache
  | .getOrLoad key load => ((cache.getOrLoad key load).1, (cache.getOrLoad key load).2)
  | .invalidate key => (none, cache.invalidate key)

structure CacheStep where
  before : BodyCache
  call : CacheCall
  result : Option (Except VoleeoError Parsed)
  after : BodyCache

/-- The steps of a run. -/
def cacheRun (cache : BodyCache) : List CacheCall → List CacheStep
  | [] => []
  | call :: calls =>
    let (result, after) := call.exec cache
    ⟨cache, call, result, after⟩ :: cacheRun after calls

namespace CacheStep

/-- The body of the key was not there, and was loaded. -/
def Loads (step : CacheStep) (key : String) (text : Text) : Prop :=
  step.call = .getOrLoad key (.ok text) ∧ key ∉ step.before.order

/-- The key has left the cache. -/
def Drops (step : CacheStep) (key : String) : Prop :=
  key ∈ step.before.order ∧ key ∉ step.after.order

end CacheStep

/-- The last that happened to the key was that this text was loaded, at the step of that number. -/
def Inserted (steps : List CacheStep) (key : String) (text : Text) (n : ℕ) : Prop :=
  (∃ step, steps[n]? = some step ∧ step.Loads key text) ∧
    ∀ m step, n < m → steps[m]? = some step →
      ¬ step.Drops key ∧ ∀ other, ¬ step.Loads key other

/-- What is promised of a step, after the steps that came before it. -/
structure CacheStep.Correct (earlier : List CacheStep) (step : CacheStep) : Prop where
  distinct : step.after.order.Nodup
  keys : ∀ key, key ∈ step.after.order ↔ (step.after.map.find? key).isSome
  capacity : step.after.order.length ≤ cacheCap
  loaded : ∀ key load parsed, step.call = .getOrLoad key load → step.result = some (.ok parsed) →
    ∃ text n, Inserted (earlier ++ [step]) key text n ∧ parsed = parse text
  failed : ∀ e, step.result = some (.error e) → step.after = step.before ∧
    ∃ key, step.call = .getOrLoad key (.error e)
  invalidated : ∀ key, step.call = .invalidate key →
    step.after.order = step.before.order.filter fun k => k ≠ key
  evicted : ∀ key load evicted, step.call = .getOrLoad key load → step.Drops evicted →
    ∃ text n, Inserted earlier evicted text n ∧ ∀ k ∈ step.after.order, ∃ text' n',
      n < n' ∧ Inserted (earlier ++ [step]) k text' n'

variable {steps : List CacheStep} {step : CacheStep} {cache : BodyCache} {key : String}
  {text : Text} {n : ℕ}

/-! ## What was inserted -/

theorem Inserted.concat (h : Inserted steps key text n) (hdrops : ¬ step.Drops key)
    (hloads : ∀ other, ¬ step.Loads key other) : Inserted (steps ++ [step]) key text n := by
  obtain ⟨⟨s, hs, hload⟩, hlater⟩ := h
  obtain ⟨hn, -⟩ := List.getElem?_eq_some_iff.mp hs
  refine ⟨⟨s, ?_, hload⟩, fun m s' hm hs' => ?_⟩
  · rw [List.getElem?_append_left hn]
    exact hs
  · rcases Nat.lt_or_ge m steps.length with hlt | hge
    · rw [List.getElem?_append_left hlt] at hs'
      exact hlater m s' hm hs'
    · rw [List.getElem?_append_right hge, List.getElem?_singleton] at hs'
      split at hs'
      · cases hs'
        exact ⟨hdrops, hloads⟩
      · cases hs'

theorem inserted_concat (h : step.Loads key text) :
    Inserted (steps ++ [step]) key text steps.length := by
  refine ⟨⟨step, List.getElem?_concat_length, h⟩, fun m s hm hs => ?_⟩
  have hlt := (List.getElem?_eq_some_iff.mp hs).1
  rw [List.length_append, List.length_singleton] at hlt
  omega

/-- The step of an insertion is one of the steps. -/
theorem Inserted.lt_length (h : Inserted steps key text n) : n < steps.length := by
  obtain ⟨⟨s, hs, -⟩, -⟩ := h
  exact (List.getElem?_eq_some_iff.mp hs).1

/-! ## What the cache holds -/

/-- A body in the cache, with the step that put it there. -/
structure CacheEntry where
  key : String
  text : Text
  step : ℕ

/-- The cache has these entries, in the order of the queue. -/
structure Contains (cache : BodyCache) (entries : List CacheEntry) : Prop where
  order : cache.order = entries.map CacheEntry.key
  nodup : cache.order.Nodup
  found : ∀ e ∈ entries, cache.map.find? e.key = some (e.key, parse e.text)
  known : ∀ key, (cache.map.find? key).isSome → key ∈ cache.order

variable {entries : List CacheEntry} {e : CacheEntry}

namespace Contains

theorem empty : Contains BodyCache.empty [] where
  order := rfl
  nodup := List.nodup_nil
  found := nofun
  known _ h := nomatch h

theorem exists_entry (h : Contains cache entries) (hkey : key ∈ cache.order) :
    ∃ e ∈ entries, e.key = key := by
  rw [h.order] at hkey
  exact List.mem_map.mp hkey

theorem mem_order (h : Contains cache entries) (he : e ∈ entries) : e.key ∈ cache.order := by
  rw [h.order]
  exact List.mem_map_of_mem he

theorem mem_order_iff (h : Contains cache entries) (key : String) :
    key ∈ cache.order ↔ (cache.map.find? key).isSome := by
  refine ⟨fun hkey => ?_, h.known key⟩
  obtain ⟨e, he, rfl⟩ := h.exists_entry hkey
  rw [h.found e he]
  rfl

theorem find?_eq_none_iff (h : Contains cache entries) :
    cache.map.find? key = none ↔ key ∉ cache.order := by
  rw [h.mem_order_iff, Option.not_isSome_iff_eq_none]

theorem remove (h : Contains cache entries) (key : String) :
    Contains (cache.invalidate key) (entries.filter fun e => e.key ≠ key) where
  order := by
    rw [BodyCache.invalidate, h.order, List.filter_map]
    rfl
  nodup := h.nodup.filter _
  found e he := by
    obtain ⟨he, hne⟩ := List.mem_filter.mp he
    rw [BodyCache.invalidate, Records.find?_remove, if_neg (of_decide_eq_true hne)]
    exact h.found e he
  known k hk := by
    rw [BodyCache.invalidate, Records.find?_remove] at hk
    split_ifs at hk with hkey
    · cases hk
    · exact List.mem_filter.mpr ⟨h.known k hk, decide_eq_true hkey⟩

theorem put (h : Contains cache entries) (hkey : key ∉ cache.order) (text : Text) (n : ℕ) :
    Contains ⟨cache.map.put (key, parse text), cache.order ++ [key]⟩
      (entries ++ [⟨key, text, n⟩]) where
  order := by rw [List.map_append, ← h.order]; rfl
  nodup := by
    rw [List.nodup_append]
    refine ⟨h.nodup, List.nodup_singleton key, fun a ha b hb => ?_⟩
    rw [List.mem_singleton.mp hb]
    exact fun heq => hkey (heq ▸ ha)
  found e he := by
    rw [Records.find?_put]
    rcases List.mem_append.mp he with he | he
    · have hne : key ≠ e.key := fun heq => hkey (heq ▸ h.mem_order he)
      rw [if_neg hne]
      exact h.found e he
    · rw [List.mem_singleton.mp he, if_pos rfl]
  known k hk := by
    rw [Records.find?_put] at hk
    split_ifs at hk with heq
    · exact List.mem_append_right _ (List.mem_singleton.mpr heq.symm)
    · exact List.mem_append_left _ (h.known k hk)

end Contains

/-- A queue with room is left as it is. -/
theorem evict_of_le {map : Records (Prod.fst : String × Parsed → String)} {order : List String}
    (h : order.length ≤ cacheCap) : BodyCache.evict map order = ⟨map, order⟩ := by
  cases order with
  | nil => rfl
  | cons key order => rw [BodyCache.evict, if_neg (Nat.not_lt.mpr h)]

/-- A queue that is longer by one loses its first key. -/
theorem evict_of_eq (h : Contains cache (e :: entries))
    (hlength : cache.order.length = cacheCap + 1) :
    BodyCache.evict cache.map cache.order = cache.invalidate e.key ∧
      (e :: entries).filter (fun e' => e'.key ≠ e.key) = entries := by
  have hnodup := h.nodup
  have horder := h.order
  rw [horder, List.map_cons] at hnodup hlength
  rw [List.map_cons] at horder
  obtain ⟨hnotMem, -⟩ := List.nodup_cons.mp hnodup
  have hrest : ∀ e' ∈ entries, e'.key ≠ e.key := fun e' he' heq =>
    hnotMem (heq ▸ List.mem_map_of_mem he')
  have hfilter : (e :: entries).filter (fun e' => e'.key ≠ e.key) = entries := by
    rw [List.filter_cons_of_neg (by simp)]
    exact List.filter_eq_self.mpr fun e' he' => decide_eq_true (hrest e' he')
  refine ⟨?_, hfilter⟩
  have hremoved := (h.remove e.key).order
  rw [hfilter] at hremoved
  rw [horder, BodyCache.evict, if_pos (by omega), evict_of_le (by
    rw [List.length_cons] at hlength
    omega), ← hremoved]
  rfl

/-! ## What a step does -/

/-- The entries were inserted one after another, and no more than fit. -/
structure Holds (steps : List CacheStep) (cache : BodyCache) (entries : List CacheEntry) :
    Prop where
  contains : Contains cache entries
  capacity : cache.order.length ≤ cacheCap
  inserted : ∀ e ∈ entries, Inserted steps e.key e.text e.step
  sorted : entries.Pairwise fun e e' => e.step < e'.step

/-- An entry that a step leaves in the cache is still the one inserted last under its key. -/
theorem Holds.concat (h : Holds steps step.before entries) (he : e ∈ entries)
    (hafter : e.key ∈ step.after.order) : Inserted (steps ++ [step]) e.key e.text e.step :=
  (h.inserted e he).concat (fun hdrops => hdrops.2 hafter)
    fun _ hloads => hloads.2 (h.contains.mem_order he)

/-- What a step keeps or puts in its place. -/
theorem Holds.correct {entries' : List CacheEntry}
    (h' : Holds (steps ++ [step]) step.after entries')
    (hloaded : ∀ key load parsed, step.call = .getOrLoad key load →
      step.result = some (.ok parsed) → ∃ e ∈ entries', e.key = key ∧ parsed = parse e.text)
    (hfailed : ∀ e, step.result = some (.error e) → step.after = step.before ∧
      ∃ key, step.call = .getOrLoad key (.error e))
    (hinvalidated : ∀ key, step.call = .invalidate key →
      step.after.order = step.before.order.filter fun k => k ≠ key)
    (hevicted : ∀ key load evicted, step.call = .getOrLoad key load → step.Drops evicted →
      ∃ text n, Inserted steps evicted text n ∧ ∀ e ∈ entries', n < e.step) :
    step.Correct steps where
  distinct := h'.contains.nodup
  keys := h'.contains.mem_order_iff
  capacity := h'.capacity
  loaded key load parsed hcall hresult := by
    obtain ⟨e, he, rfl, hparsed⟩ := hloaded key load parsed hcall hresult
    exact ⟨e.text, e.step, h'.inserted e he, hparsed⟩
  failed := hfailed
  invalidated := hinvalidated
  evicted key load evicted hcall hdrops := by
    obtain ⟨text, n, hinserted, hlater⟩ := hevicted key load evicted hcall hdrops
    refine ⟨text, n, hinserted, fun k hk => ?_⟩
    obtain ⟨e, he, rfl⟩ := h'.contains.exists_entry hk
    exact ⟨e.text, e.step, hlater e he, h'.inserted e he⟩

/-- A step that leaves the cache as it is. -/
theorem Holds.unchanged (h : Holds steps step.before entries) (hafter : step.after = step.before) :
    Holds (steps ++ [step]) step.after entries := by
  rw [hafter]
  refine ⟨h.contains, h.capacity, fun e he => h.concat he ?_, h.sorted⟩
  rw [hafter]
  exact h.contains.mem_order he

/-- A body is loaded: it is the last entry, and the first one goes if the queue is full. -/
theorem Holds.load (h : Holds steps step.before entries)
    (hcall : step.call = .getOrLoad key (.ok text)) (hkey : key ∉ step.before.order)
    (hafter : step.after = BodyCache.evict (step.before.map.put (key, parse text))
      (step.before.order ++ [key])) :
    ∃ entries', Holds (steps ++ [step]) step.after entries' ∧
      ⟨key, text, steps.length⟩ ∈ entries' ∧ ∀ evicted, step.Drops evicted →
        ∃ text n, Inserted steps evicted text n ∧ ∀ e ∈ entries', n < e.step := by
  have hput := h.contains.put hkey text steps.length
  have hnew : Inserted (steps ++ [step]) key text steps.length := inserted_concat ⟨hcall, hkey⟩
  have hlt : ∀ e ∈ entries, e.step < steps.length := fun e he => (h.inserted e he).lt_length
  have hsorted : (entries ++ [(⟨key, text, steps.length⟩ : CacheEntry)]).Pairwise
      fun e e' => e.step < e'.step := by
    rw [List.pairwise_append]
    refine ⟨h.sorted, List.pairwise_singleton _ _, fun e he e' he' => ?_⟩
    rw [List.mem_singleton.mp he']
    exact hlt e he
  have hinserted : ∀ e ∈ entries ++ [⟨key, text, steps.length⟩], e.key ∈ step.after.order →
      Inserted (steps ++ [step]) e.key e.text e.step := by
    intro e he hmem
    rcases List.mem_append.mp he with he | he
    · exact h.concat he hmem
    · rw [List.mem_singleton.mp he]
      exact hnew
  by_cases hfull : step.before.order.length = cacheCap
  · -- The first of the entries goes.
    cases hentries : entries with
    | nil =>
      have horder := h.contains.order
      rw [hentries, List.map_nil] at horder
      rw [horder] at hfull
      exact absurd hfull (by decide)
    | cons first rest =>
      subst hentries
      rw [List.cons_append] at hput hsorted hinserted
      have hlength : (step.before.order ++ [key]).length = cacheCap + 1 := by
        rw [List.length_append, hfull, List.length_singleton]
      obtain ⟨hevict, hrest⟩ := evict_of_eq hput hlength
      have hremoved := hput.remove first.key
      rw [hrest, ← hevict, ← hafter] at hremoved
      refine ⟨_, ⟨hremoved, ?_, fun e he => hinserted e (List.mem_cons_of_mem _ he)
        (hremoved.mem_order he), (List.pairwise_cons.mp hsorted).2⟩,
        List.mem_append_right _ List.mem_cons_self, ?_⟩
      · have hcount := congrArg List.length h.contains.order
        rw [hfull, List.length_map, List.length_cons] at hcount
        rw [hremoved.order, List.length_map, List.length_append, List.length_singleton, ← hcount]
      · rintro evicted ⟨hin, hout⟩
        obtain ⟨e, he, rfl⟩ := h.contains.exists_entry hin
        have heq : e = first := by
          rcases List.mem_cons.mp he with heq | he
          · exact heq
          · exact absurd (hremoved.mem_order (List.mem_append_left _ he)) hout
        subst heq
        exact ⟨e.text, e.step, h.inserted e he, (List.pairwise_cons.mp hsorted).1⟩
  · have hroom : (step.before.order ++ [key]).length ≤ cacheCap := by
      have hle := h.capacity
      rw [List.length_append, List.length_singleton]
      omega
    rw [evict_of_le hroom] at hafter
    rw [← hafter] at hput
    refine ⟨_, ⟨hput, ?_, fun e he => hinserted e he (hput.mem_order he), hsorted⟩,
      List.mem_append_right _ List.mem_cons_self, ?_⟩
    · rw [hafter]
      exact hroom
    · rintro evicted ⟨hin, hout⟩
      rw [hafter] at hout
      exact absurd (List.mem_append_left _ hin) hout

/-- Every call leaves a cache that holds what was inserted, and does what is promised. -/
theorem Holds.exec (h : Holds steps cache entries) (call : CacheCall)
    {result : Option (Except VoleeoError Parsed)} {after : BodyCache}
    (hexec : call.exec cache = (result, after)) :
    ∃ entries', Holds (steps ++ [⟨cache, call, result, after⟩]) after entries' ∧
      (⟨cache, call, result, after⟩ : CacheStep).Correct steps := by
  cases call with
  | invalidate key =>
    obtain ⟨rfl, rfl⟩ := Prod.mk.inj hexec
    have hremoved := h.contains.remove key
    have h₀ : Holds steps (CacheStep.mk cache (.invalidate key) none
      (cache.invalidate key)).before entries := h
    have h' : Holds (steps ++ [⟨cache, .invalidate key, none, cache.invalidate key⟩])
        (cache.invalidate key) (entries.filter fun e => e.key ≠ key) := by
      refine ⟨hremoved, (List.length_filter_le ..).trans h.capacity, fun e he => ?_,
        h.sorted.filter _⟩
      exact h₀.concat (List.mem_of_mem_filter he) (hremoved.mem_order he)
    refine ⟨_, h', h'.correct nofun nofun ?_ nofun⟩
    rintro _ ⟨⟩
    rfl
  | getOrLoad key load =>
    rw [CacheCall.exec, BodyCache.getOrLoad.eq_def] at hexec
    cases hfind : cache.map.find? key with
    | some p =>
      rw [hfind] at hexec
      obtain ⟨rfl, rfl⟩ := Prod.mk.inj hexec
      obtain ⟨e, he, rfl⟩ := h.contains.exists_entry (h.contains.known key (by rw [hfind]; rfl))
      rw [h.contains.found e he] at hfind
      cases hfind
      have h₀ : Holds steps (CacheStep.mk cache (.getOrLoad e.key load)
        (some (.ok (parse e.text))) cache).before entries := h
      have h' := h₀.unchanged rfl
      refine ⟨entries, h', h'.correct ?_ nofun nofun fun _ _ _ _ hdrops =>
        absurd hdrops.1 hdrops.2⟩
      rintro _ _ _ ⟨⟩ ⟨⟩
      exact ⟨e, he, rfl, rfl⟩
    | none =>
      rw [hfind] at hexec
      have hkey := h.contains.find?_eq_none_iff.mp hfind
      cases load with
      | error error =>
        obtain ⟨rfl, rfl⟩ := Prod.mk.inj hexec
        have h₀ : Holds steps (CacheStep.mk cache (.getOrLoad key (.error error))
          (some (.error error)) cache).before entries := h
        have h' := h₀.unchanged rfl
        refine ⟨entries, h', h'.correct nofun ?_ nofun fun _ _ _ _ hdrops =>
          absurd hdrops.1 hdrops.2⟩
        rintro _ ⟨⟩
        exact ⟨rfl, key, rfl⟩
      | ok text =>
        obtain ⟨rfl, rfl⟩ := Prod.mk.inj hexec
        have h₀ : Holds steps (CacheStep.mk cache (.getOrLoad key (.ok text))
          (some (.ok (parse text))) (BodyCache.evict (cache.map.put (key, parse text))
            (cache.order ++ [key]))).before entries := h
        obtain ⟨entries', h', hnew, hevicted⟩ := h₀.load rfl hkey rfl
        refine ⟨entries', h', h'.correct ?_ nofun nofun fun _ _ evicted _ => hevicted evicted⟩
        rintro _ _ _ ⟨⟩ ⟨⟩
        exact ⟨_, hnew, rfl, rfl⟩

theorem Holds.run (h : Holds steps cache entries) (calls : List CacheCall)
    {earlier later : List CacheStep} (hrun : cacheRun cache calls = earlier ++ step :: later) :
    step.Correct (steps ++ earlier) := by
  induction calls generalizing steps cache entries earlier with
  | nil => exact absurd hrun (by simp [cacheRun])
  | cons call calls ih =>
    rw [cacheRun] at hrun
    obtain ⟨entries', h', hcorrect⟩ := h.exec call rfl
    cases earlier with
    | nil =>
      obtain ⟨rfl, -⟩ := List.cons.inj hrun
      rw [List.append_nil]
      exact hcorrect
    | cons first earlier =>
      obtain ⟨rfl, hrest⟩ := List.cons.inj hrun
      have hstep := ih h' hrest
      rwa [List.append_assoc] at hstep

/-- In every run from the empty cache each step does what is promised. -/
theorem cacheRun_correct (calls : List CacheCall) (earlier later : List CacheStep)
    (step : CacheStep) (hrun : cacheRun .empty calls = earlier ++ step :: later) :
    step.Correct earlier := by
  have hempty : Holds [] BodyCache.empty [] := ⟨.empty, Nat.zero_le _, nofun, .nil⟩
  exact hempty.run calls hrun

/-- The fifth body takes the place of the first one. -/
theorem cacheRun_correct_fifth_body : ∃ earlier step,
    cacheRun .empty (["a", "b", "c", "d", "e"].map fun key => .getOrLoad key (.ok ['x'])) =
      earlier ++ [step] ∧ step.Drops "a" ∧ step.Correct earlier := by
  have hrun : cacheRun .empty (["a", "b", "c", "d", "e"].map fun key =>
      .getOrLoad key (.ok ['x'])) = List.take 4 (cacheRun .empty
        (["a", "b", "c", "d", "e"].map fun key => .getOrLoad key (.ok ['x']))) ++ [_] := rfl
  exact ⟨_, _, hrun, ⟨by decide, by decide⟩, cacheRun_correct _ _ [] _ hrun⟩

end Voleeo.BodyWindow
