import Mathlib
import Voleeo.Loops

/-!
# Chained responses

A template may ask for the response of another request, whose templates may ask in turn. Calls for
one request share the promise that is in flight, and a send cycle keeps what it has fetched.
-/
namespace Voleeo.ResponseChain
open Relation (TransGen ReflTransGen)

inductive ResponseStrategy
  | cache
  | refreshAfter
  | force
  deriving DecidableEq, Repr

/-- A `response.body` or `response.header` of a template. -/
structure Call (κ : Type) where
  requestId : κ
  strategy : ResponseStrategy
  deriving DecidableEq, Repr

/-- A request, with the calls in its templates in the groups that its sender awaits one after
another. -/
structure Request (κ : Type) where
  id : κ
  groups : List (List (Call κ))
  deriving DecidableEq, Repr

/-- What `ensureResponse` puts in flight. -/
inductive Promise (κ ρ : Type)
  /-- `resolveResponse` looks for the latest response. -/
  | deciding (c : Call κ)
  /-- The sender makes the calls of a group, awaits them, and takes the next group. -/
  | sending (requestId : κ) (todo : List (Call κ)) (waits : List ℕ) (groups : List (List (Call κ)))
  | settled (requestId : κ) (outcome : Option ρ)
  deriving DecidableEq, Repr

/-- A promise is known by its place in the list of all promises. -/
structure State (κ ρ : Type) where
  promises : List (Promise κ ρ)
  inFlight : κ → Option ℕ
  cycleCache : κ → Option ρ
  resolving : κ → Bool

variable {κ ρ : Type}

/-- The request of a promise that is not settled. -/
def Promise.running? : Promise κ ρ → Option κ
  | deciding c => some c.requestId
  | sending k _ _ _ => some k
  | settled _ _ => none

def State.running? (s : State κ ρ) (i : ℕ) : Option κ := (s.promises[i]?).bind Promise.running?

/-- Nothing was called yet. -/
def State.fresh : State κ ρ := ⟨[], fun _ => none, fun _ => none, fun _ => false⟩

variable [DecidableEq κ]

/-- The groups of a request; the sender throws where there is no such request. -/
def groupsOf (book : List (Request κ)) (k : κ) : List (List (Call κ)) :=
  ((book.find? fun r => r.id = k).map Request.groups).getD []

def State.resolveResponse (s : State κ ρ) (c : Call κ) : State κ ρ :=
  { s with
    promises := s.promises ++ [.deciding c]
    inFlight := Function.update s.inFlight c.requestId (some s.promises.length) }

/-- The promise to wait for, or `none` where the cycle has the response. -/
def ensureResponse (s : State κ ρ) (c : Call κ) : State κ ρ × Option ℕ :=
  if (s.cycleCache c.requestId).isSome then (s, none)
  else match s.inFlight c.requestId with
    | some i => (s, some i)
    | none => (s.resolveResponse c, some s.promises.length)

/-- The handlers that `ensureResponse` puts on its promise. -/
def State.settle (s : State κ ρ) (i : ℕ) (k : κ) (outcome : Option ρ) : State κ ρ :=
  { s with
    promises := s.promises.set i (.settled k outcome)
    cycleCache := if outcome.isSome then Function.update s.cycleCache k outcome else s.cycleCache
    inFlight := Function.update s.inFlight k none }

def State.enter (s : State κ ρ) (i : ℕ) (k : κ) (todo : List (Call κ)) (waits : List ℕ)
    (groups : List (List (Call κ))) : State κ ρ :=
  { s with promises := s.promises.set i (.sending k todo waits groups) }

/-- `markResolving` and `unmarkResolving`. -/
def State.mark (s : State κ ρ) (k : κ) (b : Bool) : State κ ρ :=
  { s with resolving := Function.update s.resolving k b }

/-- The sender up to its first template; the guard against cycles rejects the promise. -/
def State.beginSend (book : List (Request κ)) (s : State κ ρ) (i : ℕ) (k : κ) : State κ ρ :=
  if s.resolving k then s.settle i k none else (s.mark k true).enter i k [] [] (groupsOf book k)

/-- One promise goes on. -/
inductive Turn (book : List (Request κ)) (s : State κ ρ) : State κ ρ → Prop
  /-- The latest response is taken, or `cache` finds none. -/
  | latest {i c} (response : Option ρ) (hi : s.promises[i]? = some (.deciding c))
      (h : c.strategy = .cache ∨ c.strategy = .refreshAfter ∧ response.isSome) :
      Turn book s (s.settle i c.requestId response)
  | send {i c} (hi : s.promises[i]? = some (.deciding c)) (h : c.strategy ≠ .cache) :
      Turn book s (s.beginSend book i c.requestId)
  | make {i k c todo waits groups}
      (hi : s.promises[i]? = some (.sending k (c :: todo) waits groups)) :
      Turn book s ((ensureResponse s c).1.enter i k todo
        (waits ++ (ensureResponse s c).2.toList) groups)
  /-- The promises of a group are settled, whether they were fulfilled or rejected. -/
  | next {i k waits group groups}
      (hi : s.promises[i]? = some (.sending k [] waits (group :: groups)))
      (hwaits : ∀ j ∈ waits, s.running? j = none) : Turn book s (s.enter i k group [] groups)
  /-- The request is sent: a response is stored, or the send fails. -/
  | sent {i k waits} (response : Option ρ) (hi : s.promises[i]? = some (.sending k [] waits []))
      (hwaits : ∀ j ∈ waits, s.running? j = none) :
      Turn book s ((s.mark k false).settle i k response)

/-- A step within a send cycle. -/
inductive Within (book : List (Request κ)) (s : State κ ρ) : State κ ρ → Prop
  | turn {s'} (h : Turn book s s') : Within book s s'
  /-- A template of the request that is sent, or of a preview. -/
  | call (c : Call κ) : Within book s (ensureResponse s c).1

inductive Step (book : List (Request κ)) (s : State κ ρ) : State κ ρ → Prop
  | within {s'} (h : Within book s s') : Step book s s'
  | clearResponseCycleCache : Step book s { s with cycleCache := fun _ => none }

abbrev Reachable (book : List (Request κ)) (s : State κ ρ) : Prop :=
  ReflTransGen (Step book) .fresh s

/-- A template of the one request refers to the response of the other. -/
def Refers (book : List (Request κ)) (k l : κ) : Prop :=
  ∃ c ∈ (groupsOf book k).flatten, c.requestId = l

variable {book : List (Request κ)} {s s' : State κ ρ} {i j : ℕ} {k l : κ} {c : Call κ}
  {p q : Promise κ ρ} {todo : List (Call κ)} {waits : List ℕ} {groups : List (List (Call κ))}

theorem ensureResponse_cases (s : State κ ρ) (c : Call κ) :
    (s.cycleCache c.requestId ≠ none ∧ ensureResponse s c = (s, none)) ∨
      s.cycleCache c.requestId = none ∧
        ((∃ i, s.inFlight c.requestId = some i ∧ ensureResponse s c = (s, some i)) ∨
          s.inFlight c.requestId = none ∧
            ensureResponse s c = (s.resolveResponse c, some s.promises.length)) := by
  rw [ensureResponse]
  cases s.cycleCache c.requestId <;> cases s.inFlight c.requestId <;> simp

/-! ## What every run keeps -/

structure Inv (book : List (Request κ)) (s : State κ ρ) : Prop where
  /-- What is in flight is not settled, and a request has one such promise. -/
  flight : ∀ k i, s.inFlight k = some i ↔ s.running? i = some k
  idle : ∀ k, s.inFlight k = none → s.resolving k = false
  unmarked : ∀ (i : ℕ) c, s.promises[i]? = some (.deciding c) → s.resolving c.requestId = false
  refers : ∀ (i : ℕ) k todo waits groups, s.promises[i]? = some (.sending k todo waits groups) →
    (∀ c ∈ todo ++ groups.flatten, Refers book k c.requestId) ∧
      ∀ j ∈ waits, j < s.promises.length ∧ ∀ l, s.running? j = some l → Refers book k l

theorem inv_fresh : Inv book (State.fresh : State κ ρ) := by
  constructor <;> simp [State.fresh, State.running?]

theorem Inv.only (h : Inv book s) (hi : s.running? i = some k) (hj : s.running? j = some k) :
    i = j := by
  have hflight := (h.flight k i).mpr hi
  rw [(h.flight k j).mpr hj] at hflight
  exact (Option.some.inj hflight).symm

omit [DecidableEq κ] in
theorem length_of_running (hi : s.running? i = some k) : i < s.promises.length := by
  obtain ⟨p, hp, -⟩ := Option.bind_eq_some_iff.mp hi
  exact (List.getElem?_eq_some_iff.mp hp).1

omit [DecidableEq κ] in
theorem running?_of_getElem? (hi : s.promises[i]? = some p) : s.running? i = p.running? := by
  rw [State.running?, hi, Option.bind_some]

theorem Inv.ensureResponse (h : Inv book s) (c : Call κ) : Inv book (ensureResponse s c).1 := by
  rcases ensureResponse_cases s c with ⟨-, he⟩ | ⟨-, ⟨i, -, he⟩ | ⟨hnone, he⟩⟩ <;> rw [he]
  · exact h
  · exact h
  obtain ⟨hflight, hidle, hunmarked, hrefers⟩ := h
  constructor <;> simp only [State.running?, State.resolveResponse] at *
  · intro k i
    have hold := hflight k i
    rcases lt_trichotomy i s.promises.length with hi | rfl | hi <;>
      by_cases hk : k = c.requestId <;> grind [Promise.running?]
  · grind
  · grind
  · grind [Promise.running?]

theorem ensureResponse_old (c : Call κ) (hj : j < s.promises.length) :
    (ensureResponse s c).1.promises[j]? = s.promises[j]? := by
  rcases ensureResponse_cases s c with ⟨-, he⟩ | ⟨-, ⟨i, -, he⟩ | ⟨-, he⟩⟩ <;> rw [he]
  exact List.getElem?_append_left hj

theorem ensureResponse_flight (c : Call κ) (h : s.inFlight k = some i) :
    (ensureResponse s c).1.inFlight k = some i := by
  rcases ensureResponse_cases s c with ⟨-, he⟩ | ⟨-, ⟨j, -, he⟩ | ⟨hnone, he⟩⟩ <;> rw [he]
  · exact h
  · exact h
  · refine (Function.update_of_ne ?_ _ _).trans h
    rintro rfl
    rw [hnone] at h
    cases h

theorem inFlight_ensureResponse (h : (ensureResponse s c).2 = some j) :
    (ensureResponse s c).1.inFlight c.requestId = some j := by
  rcases ensureResponse_cases s c with ⟨-, he⟩ | ⟨-, ⟨i, hi, he⟩ | ⟨-, he⟩⟩ <;> rw [he] at h ⊢
  · cases h
  · exact hi.trans h
  · exact (Function.update_self ..).trans h

theorem Inv.enter (h : Inv book s) (hrun : s.running? i = some k) {b : Bool}
    (htodo : ∀ c ∈ todo ++ groups.flatten, Refers book k c.requestId)
    (hwaits : ∀ j ∈ waits, j < s.promises.length ∧ ∀ l, s.running? j = some l → Refers book k l) :
    Inv book ((s.mark k b).enter i k todo waits groups) := by
  have honly := fun j => @Inv.only κ ρ _ book s j i k h
  obtain ⟨hflight, hidle, hunmarked, hrefers⟩ := h
  have hk := (hflight k i).mpr hrun
  constructor <;> simp only [State.running?, State.mark, State.enter] at * <;>
    grind [Promise.running?]

theorem Inv.settle (h : Inv book s) (hrun : s.running? i = some k) (outcome : Option ρ) :
    Inv book ((s.mark k false).settle i k outcome) := by
  have honly := fun j => @Inv.only κ ρ _ book s j i k h
  obtain ⟨hflight, hidle, hunmarked, hrefers⟩ := h
  constructor <;> simp only [State.running?, State.settle, State.mark] at * <;>
    grind [Promise.running?]

theorem mark_eq {b : Bool} (h : s.resolving k = b) : s.mark k b = s := by
  rw [State.mark, ← h, Function.update_eq_self]

/-- The guard finds no mark when a promise decides on a send. -/
theorem Inv.beginSend (h : Inv book s) (hi : s.promises[i]? = some (.deciding c)) :
    s.beginSend book i c.requestId =
      (s.mark c.requestId true).enter i c.requestId [] [] (groupsOf book c.requestId) := by
  simp [State.beginSend, h.unmarked i c hi]

theorem Inv.turn (h : Inv book s) (hturn : Turn book s s') : Inv book s' := by
  cases hturn with
  | @latest i c response hi =>
    rw [← mark_eq (h.unmarked i c hi)]
    exact h.settle (running?_of_getElem? hi) response
  | @send i c hi =>
    rw [h.beginSend hi]
    exact h.enter (running?_of_getElem? hi) (fun d hd => ⟨d, by simpa using hd, rfl⟩) (by simp)
  | @make i k c todo waits groups hi =>
    have hrun := (h.flight k i).mpr (running?_of_getElem? hi)
    have hnew := h.ensureResponse c
    obtain ⟨htodo, hwaits⟩ := h.refers i k _ _ _ hi
    rw [← mark_eq (rfl : (ResponseChain.ensureResponse s c).1.resolving k = _)]
    refine hnew.enter ((hnew.flight k i).mp (ensureResponse_flight c hrun))
      (fun d hd => htodo d (by grind)) fun j hj => ?_
    rcases List.mem_append.mp hj with hj | hj
    · have hlength := (hwaits j hj).1
      have hold := ensureResponse_old c hlength
      have hmore := List.getElem?_eq_some_iff.mp (hold.trans (List.getElem?_eq_getElem hlength))
      refine ⟨hmore.1, fun l hl => (hwaits j hj).2 l ?_⟩
      rwa [State.running?, ← hold]
    · have hflight := (hnew.flight _ j).mp (inFlight_ensureResponse (Option.mem_toList.mp hj))
      refine ⟨length_of_running hflight, fun l hl => ?_⟩
      cases hflight.symm.trans hl
      exact htodo c (by simp)
  | @next i k waits group groups hi =>
    have htodo := (h.refers i k _ _ _ hi).1
    rw [← mark_eq (rfl : s.resolving k = _)]
    exact h.enter (running?_of_getElem? hi) (by simpa using htodo) (by simp)
  | sent response hi => exact h.settle (running?_of_getElem? hi) response

theorem Inv.within (h : Inv book s) (hwithin : Within book s s') : Inv book s' := by
  cases hwithin with
  | turn hturn => exact h.turn hturn
  | call c => exact h.ensureResponse c

theorem inv_of_reachable (h : Reachable book s) : Inv book s := by
  induction h with
  | refl => exact inv_fresh
  | tail _ hstep ih =>
    cases hstep with
    | within hwithin => exact ih.within hwithin
    | clearResponseCycleCache => exact ⟨ih.flight, ih.idle, ih.unmarked, ih.refers⟩

/-- A request that refers to no other is called, and answered. -/
theorem exists_answered : ∃ s : State ℕ ℕ, ReflTransGen (Within [⟨1, []⟩]) .fresh s ∧
    s.promises = [.settled 1 (some 7)] := by
  have hcall : ReflTransGen (Within [⟨1, []⟩]) (State.fresh : State ℕ ℕ) _ :=
    .single (.call ⟨1, .force⟩)
  have hsend := hcall.tail (.turn (.send (i := 0) (c := ⟨1, .force⟩) rfl (by decide)))
  exact ⟨_, hsend.tail (.turn (.sent (i := 0) (k := 1) (some 7) rfl (by simp))), rfl⟩

/-- The promises that were fulfilled since the cycle began. -/
structure Once (s₀ s : State κ ρ) : Prop where
  kept : ∀ (i : ℕ) k r, s.promises[i]? = some (.settled k (some r)) →
    s₀.promises[i]? = s.promises[i]? ∨ s.cycleCache k = some r ∧ s.inFlight k = none
  alone : ∀ (i j : ℕ) k r r', s.promises[i]? = some (.settled k (some r)) →
    s.promises[j]? = some (.settled k (some r')) →
      s₀.promises[i]? = s.promises[i]? ∨ s₀.promises[j]? = s.promises[j]? ∨ i = j
  old : ∀ (i : ℕ) k r, s₀.promises[i]? = some (.settled k r) → s.promises[i]? = s₀.promises[i]?

variable {s₀ : State κ ρ}

theorem Once.ensureResponse (h : Once s₀ s) (c : Call κ) : Once s₀ (ensureResponse s c).1 := by
  rcases ensureResponse_cases s c with ⟨-, he⟩ | ⟨hcache, ⟨i, -, he⟩ | ⟨hnone, he⟩⟩ <;> rw [he]
  · exact h
  · exact h
  obtain ⟨hkept, halone, hold⟩ := h
  constructor <;> simp only [State.resolveResponse] <;> grind

theorem Once.enter (h : Once s₀ s) (hi : s.running? i = some k) {b : Bool} :
    Once s₀ ((s.mark k b).enter i l todo waits groups) := by
  obtain ⟨hkept, halone, hold⟩ := h
  constructor <;> simp only [State.running?, State.mark, State.enter] at * <;>
    grind [Promise.running?]

theorem Once.settle (h : Once s₀ s) (hinv : Inv book s) (hi : s.running? i = some k) {b : Bool}
    (outcome : Option ρ) : Once s₀ ((s.mark k b).settle i k outcome) := by
  have hk := (hinv.flight k i).mpr hi
  obtain ⟨hkept, halone, hold⟩ := h
  constructor <;> simp only [State.running?, State.mark, State.settle] at * <;>
    grind [Promise.running?]

theorem Once.turn (h : Once s₀ s) (hinv : Inv book s) (hturn : Turn book s s') : Once s₀ s' := by
  cases hturn with
  | @latest i c response hi =>
    rw [← mark_eq (rfl : s.resolving c.requestId = _)]
    exact h.settle hinv (running?_of_getElem? hi) response
  | send hi =>
    rw [hinv.beginSend hi]
    exact h.enter (running?_of_getElem? hi)
  | @make i k c todo waits groups hi =>
    have hnew := hinv.ensureResponse c
    have hrun := ensureResponse_flight c ((hinv.flight k i).mpr (running?_of_getElem? hi))
    rw [← mark_eq (rfl : (ResponseChain.ensureResponse s c).1.resolving k = _)]
    exact (h.ensureResponse c).enter ((hnew.flight k i).mp hrun)
  | @next i k waits group groups hi =>
    rw [← mark_eq (rfl : s.resolving k = _)]
    exact h.enter (running?_of_getElem? hi)
  | sent response hi => exact h.settle hinv (running?_of_getElem? hi) response

theorem once_of_within (hinv : Inv book s₀) (hrun : ReflTransGen (Within book) s₀ s) :
    Inv book s ∧ Once s₀ s := by
  induction hrun with
  | refl => exact ⟨hinv, fun _ _ _ _ => .inl rfl, fun _ _ _ _ _ _ _ => .inl rfl, fun _ _ _ _ => rfl⟩
  | tail _ hstep ih =>
    refine ⟨ih.1.within hstep, ?_⟩
    cases hstep with
    | turn hturn => exact ih.2.turn ih.1 hturn
    | call c => exact ih.2.ensureResponse c

/-- From one `clearResponseCycleCache` to the next, a request is fetched once: whatever asks for it
later gets that response. -/
theorem one_response_per_cycle {r : ρ} (h : Reachable book s₀)
    (hrun : ReflTransGen (Within book) { s₀ with cycleCache := fun _ => none } s)
    (hi : s.promises[i]? = some (.settled k (some r))) (hnew : s₀.promises[i]? ≠ s.promises[i]?) :
    (∀ j r', s.promises[j]? = some (.settled k (some r')) → s₀.promises[j]? ≠ s.promises[j]? →
        j = i) ∧
      (∀ j, s.running? j ≠ some k) ∧ s.cycleCache k = some r ∧
        ∀ c : Call κ, c.requestId = k → ensureResponse s c = (s, none) := by
  obtain ⟨hinv, honce⟩ := once_of_within (inv_of_reachable (h.tail .clearResponseCycleCache)) hrun
  obtain ⟨hcache, hflight⟩ := (honce.kept i k r hi).resolve_left hnew
  refine ⟨fun j r' hj hjnew => ?_, fun j hj => ?_, hcache, fun c hc => ?_⟩
  · rcases honce.alone i j k r r' hi hj with hsame | hsame | rfl
    · exact absurd hsame hnew
    · exact absurd hsame hjnew
    · rfl
  · cases hflight.symm.trans ((hinv.flight k j).mpr hj)
  · simp [ResponseChain.ensureResponse, hc, hcache]

theorem one_response_per_cycle_answered : ∃ s : State ℕ ℕ, s.cycleCache 1 = some 7 ∧
    ensureResponse s ⟨1, .force⟩ = (s, none) := by
  obtain ⟨s, hrun, hs⟩ := exists_answered
  obtain ⟨-, -, hcache, hcall⟩ := one_response_per_cycle (i := 0) (k := 1) (r := 7) .refl hrun
    (by rw [hs]; rfl) (by rw [hs]; simp [State.fresh])
  exact ⟨s, hcache, hcall _ rfl⟩

/-! ## A loop blocks itself -/

/-- The promise will call for a request of the set, or waits for one. -/
def Held (S : Set κ) (s : State κ ρ) (k : κ) (i : ℕ) : Prop :=
  s.promises[i]? = some (.deciding ⟨k, .force⟩) ∨ ∃ todo waits groups,
    s.promises[i]? = some (.sending k todo waits groups) ∧
      ((∃ c ∈ todo ++ groups.flatten, c.requestId ∈ S) ∨
        ∃ j ∈ waits, ∃ l ∈ S, s.inFlight l = some j)

structure Blocked (S : Set κ) (s : State κ ρ) : Prop where
  uncached : ∀ k ∈ S, s.cycleCache k = none
  flying : ∀ k ∈ S, s.inFlight k ≠ none
  held : ∀ k ∈ S, ∀ i, s.inFlight k = some i → Held S s k i

variable {S : Set κ}

omit [DecidableEq κ] in
theorem Blocked.of_frame (h : Blocked S s) (hcache : ∀ k ∈ S, s'.cycleCache k = none)
    (hflight : ∀ k ∈ S, s'.inFlight k = s.inFlight k)
    (hheld : ∀ k ∈ S, ∀ i, s.inFlight k = some i →
      s'.promises[i]? = s.promises[i]? ∨ Held S s' k i) : Blocked S s' := by
  refine ⟨hcache, fun k hk => hflight k hk ▸ h.flying k hk, fun k hk i hi => ?_⟩
  rw [hflight k hk] at hi
  rcases hheld k hk i hi with hsame | hheld
  · have hold := h.held k hk i hi
    unfold Held at hold ⊢
    grind
  · exact hheld

theorem Blocked.ensureResponse (h : Blocked S s) (hinv : Inv book s) (c : Call κ) :
    Blocked S (ensureResponse s c).1 := by
  refine h.of_frame (fun k hk => ?_) (fun k hk => ?_) fun k hk i hi =>
    .inl (ensureResponse_old c (length_of_running ((hinv.flight k i).mp hi)))
  · rcases ensureResponse_cases s c with ⟨-, he⟩ | ⟨-, ⟨i, -, he⟩ | ⟨-, he⟩⟩ <;>
      exact he ▸ h.uncached k hk
  · obtain ⟨i, hi⟩ := Option.ne_none_iff_exists'.mp (h.flying k hk)
    rw [hi, ensureResponse_flight c hi]

/-- A promise of the set waits for none that is settled. -/
theorem Inv.not_held (hinv : Inv book s) (hwaits : ∀ j ∈ waits, s.running? j = none) :
    ¬ ∃ j ∈ waits, ∃ l ∈ S, s.inFlight l = some j := by
  rintro ⟨j, hj, l, -, hl⟩
  cases (hwaits j hj).symm.trans ((hinv.flight l j).mp hl)

theorem Blocked.settle (h : Blocked S s) (hinv : Inv book s) (hrun : s.running? i = some k)
    (hk : k ∉ S) {b : Bool} (outcome : Option ρ) : Blocked S ((s.mark k b).settle i k outcome) := by
  have hne : ∀ l ∈ S, l ≠ k := fun l hl heq => hk (heq ▸ hl)
  refine h.of_frame (fun l hl => ?_) (fun l hl => Function.update_of_ne (hne l hl) _ _)
    fun l hl j hj => .inl (List.getElem?_set_ne ?_)
  · have hold := h.uncached l hl
    have := hne l hl
    simp only [State.settle, State.mark]
    grind
  · rintro rfl
    cases hrun.symm.trans ((hinv.flight l i).mp hj)
    exact hk hl

theorem Blocked.enter (h : Blocked S s) (hinv : Inv book s) (hrun : s.running? i = some k)
    {b : Bool} (hheld : k ∈ S → (∃ c ∈ todo ++ groups.flatten, c.requestId ∈ S) ∨
      ∃ j ∈ waits, ∃ l ∈ S, s.inFlight l = some j) :
    Blocked S ((s.mark k b).enter i k todo waits groups) := by
  refine h.of_frame h.uncached (fun _ _ => rfl) fun l hl j hj => ?_
  by_cases hij : i = j
  · subst hij
    cases hrun.symm.trans ((hinv.flight l i).mp hj)
    exact .inr (.inr ⟨todo, waits, groups, List.getElem?_set_self (length_of_running hrun),
      hheld hl⟩)
  · exact .inl (List.getElem?_set_ne hij)

theorem Blocked.held_sending (h : Blocked S s) (hinv : Inv book s)
    (hi : s.promises[i]? = some (.sending k todo waits groups)) (hk : k ∈ S) :
    (∃ c ∈ todo ++ groups.flatten, c.requestId ∈ S) ∨
      ∃ j ∈ waits, ∃ l ∈ S, s.inFlight l = some j := by
  have hheld := h.held k hk i ((hinv.flight k i).mpr (running?_of_getElem? hi))
  unfold Held at hheld
  grind

theorem Blocked.turn (hS : ∀ k ∈ S, ∃ l ∈ S, Refers book k l) (hinv : Inv book s)
    (h : Blocked S s) (hturn : Turn book s s') : Blocked S s' := by
  cases hturn with
  | @latest i c response hi hlatest =>
    have hrun := running?_of_getElem? hi
    rw [← mark_eq (rfl : s.resolving c.requestId = _)]
    refine h.settle hinv hrun (fun hc => ?_) response
    have hheld := h.held _ hc i ((hinv.flight _ i).mpr hrun)
    unfold Held at hheld
    grind
  | @send i c hi =>
    rw [hinv.beginSend hi]
    refine h.enter hinv (running?_of_getElem? hi) fun hk => .inl ?_
    obtain ⟨l, hl, d, hd, rfl⟩ := hS _ hk
    exact ⟨d, by simpa using hd, hl⟩
  | @make i k c todo waits groups hi =>
    have hnew := hinv.ensureResponse c
    have hrun := ensureResponse_flight c ((hinv.flight k i).mpr (running?_of_getElem? hi))
    rw [← mark_eq (rfl : (ResponseChain.ensureResponse s c).1.resolving k = _)]
    refine (h.ensureResponse hinv c).enter hnew ((hnew.flight k i).mp hrun) fun hk => ?_
    rcases h.held_sending hinv hi hk with ⟨d, hd, hdS⟩ | ⟨j, hj, l, hl, hlj⟩
    · by_cases hdc : d = c
      · subst hdc
        obtain ⟨j, hj⟩ := Option.ne_none_iff_exists'.mp (h.flying _ hdS)
        have he : ResponseChain.ensureResponse s d = (s, some j) := by
          simp [ResponseChain.ensureResponse, h.uncached _ hdS, hj]
        rw [he]
        exact .inr ⟨j, by simp, d.requestId, hdS, hj⟩
      · exact .inl ⟨d, by grind, hdS⟩
    · exact .inr ⟨j, by simp [hj], l, hl, ensureResponse_flight c hlj⟩
  | @next i k waits group groups hi hwaits =>
    rw [← mark_eq (rfl : s.resolving k = _)]
    exact h.enter hinv (running?_of_getElem? hi) fun hk =>
      .inl ((h.held_sending hinv hi hk).resolve_right (hinv.not_held hwaits))
  | sent response hi hwaits =>
    refine h.settle hinv (running?_of_getElem? hi) (fun hk => ?_) response
    simpa using (h.held_sending hinv hi hk).resolve_right (hinv.not_held hwaits)

/-! ## Without a loop all calls end -/

/-- However the promises take turns, and whatever the sends answer, all of them are settled. -/
inductive Settles (book : List (Request κ)) : State κ ρ → Prop
  | done {s : State κ ρ} (h : ∀ i, s.running? i = none) : Settles book s
  | turn {s : State κ ρ} (hmore : ∃ s', Turn book s s')
      (h : ∀ s', Turn book s s' → Settles book s') : Settles book s

variable (w : κ → ℕ)

/-- What is still to do for calls that are not made. -/
def callCost (calls : List (Call κ)) : ℕ := (calls.map fun c => w c.requestId + 1).sum

def Promise.cost : Promise κ ρ → ℕ
  | deciding c => w c.requestId
  | sending _ todo _ groups => groups.length + 1 + callCost w (todo ++ groups.flatten)
  | settled _ _ => 0

def State.cost (s : State κ ρ) : ℕ := (s.promises.map (Promise.cost w)).sum

omit [DecidableEq κ] in
theorem cost_set (q : Promise κ ρ) (hi : s.promises[i]? = some p) :
    ((s.promises.set i q).map (Promise.cost w)).sum + p.cost w = s.cost w + q.cost w := by
  unfold State.cost
  generalize s.promises = ps at hi
  induction ps generalizing i with
  | nil => simp at hi
  | cons r ps ih =>
    cases i with
    | zero =>
      simp only [List.getElem?_cons_zero, Option.some.injEq] at hi
      subst hi
      simp only [List.set_cons_zero, List.map_cons, List.sum_cons]
      omega
    | succ i =>
      have htail := ih (by simpa using hi)
      simp only [List.set_cons_succ, List.map_cons, List.sum_cons]
      omega

theorem cost_ensureResponse_le (c : Call κ) :
    (ensureResponse s c).1.cost w ≤ s.cost w + w c.requestId := by
  rcases ensureResponse_cases s c with ⟨-, he⟩ | ⟨-, ⟨i, -, he⟩ | ⟨-, he⟩⟩ <;> rw [he]
  · exact Nat.le_add_right _ _
  · exact Nat.le_add_right _ _
  · simp [State.cost, State.resolveResponse, Promise.cost]

variable {w}

theorem cost_turn
    (hw : ∀ k, w k = (groupsOf book k).length + 2 + callCost w (groupsOf book k).flatten) (hinv : Inv book s) (hturn : Turn book s s') : s'.cost w < s.cost w := by
  cases hturn with
  | @latest i c response hi =>
    have hcost := cost_set w (.settled c.requestId response) hi
    have hmore := hw c.requestId
    simp only [Promise.cost] at hcost
    simp only [State.cost, State.settle] at *
    omega
  | @send i c hi =>
    have hcost := cost_set w (.sending c.requestId [] [] (groupsOf book c.requestId)) hi
    have hmore := hw c.requestId
    rw [hinv.beginSend hi]
    simp only [Promise.cost, List.nil_append] at hcost
    simp only [State.cost, State.mark, State.enter] at *
    omega
  | @make i k c todo waits groups hi =>
    have hold := (ensureResponse_old c (length_of_running (running?_of_getElem? hi))).trans hi
    have hcost := cost_set w (.sending k todo (waits ++ (ensureResponse s c).2.toList) groups) hold
    have hle := cost_ensureResponse_le (s := s) w c
    simp only [Promise.cost, callCost, List.cons_append, List.map_cons, List.sum_cons] at hcost
    simp only [State.cost, State.enter] at *
    omega
  | @next i k waits group groups hi =>
    have hcost := cost_set w (.sending k group [] groups) hi
    simp only [Promise.cost, List.flatten_cons, List.nil_append, List.length_cons] at hcost
    simp only [State.cost, State.enter] at *
    omega
  | @sent i k waits response hi =>
    have hcost := cost_set w (.settled k response) hi
    simp only [Promise.cost] at hcost
    simp only [State.cost, State.settle, State.mark] at *
    omega

/-- A promise goes on whose request refers to no other that is in flight. -/
theorem Inv.exists_turn (hwf : WellFounded fun l k => Refers book k l) (h : Inv book s)
    (hmore : ¬ ∀ i, s.running? i = none) : ∃ s', Turn book s s' := by
  obtain ⟨i₀, hi₀⟩ := not_forall.mp hmore
  obtain ⟨k₀, hk₀⟩ := Option.ne_none_iff_exists'.mp hi₀
  obtain ⟨k, ⟨i, hi⟩, hmin⟩ := hwf.has_min {k | ∃ i, s.running? i = some k} ⟨k₀, i₀, hk₀⟩
  obtain ⟨p, hp, hrun⟩ := Option.bind_eq_some_iff.mp hi
  cases p with
  | settled k r => cases hrun
  | deciding c =>
    by_cases hc : c.strategy = .cache
    · exact ⟨_, .latest none hp (.inl hc)⟩
    · exact ⟨_, .send hp hc⟩
  | sending k' todo waits groups =>
    obtain rfl : k' = k := Option.some.inj hrun
    cases todo with
    | cons c todo => exact ⟨_, .make hp⟩
    | nil =>
      have hwaits : ∀ j ∈ waits, s.running? j = none := by
        intro j hj
        cases hj' : s.running? j with
        | none => rfl
        | some l => exact absurd (((h.refers i k' _ _ _ hp).2 j hj).2 l hj') (hmin l ⟨j, hj'⟩)
      cases groups with
      | nil => exact ⟨_, .sent none hp hwaits⟩
      | cons group groups => exact ⟨_, .next hp hwaits⟩

theorem Inv.settles (hwf : WellFounded fun l k => Refers book k l) (h : Inv book s) :
    Settles book s := by
  obtain ⟨w, hw⟩ := exists_weight hwf (fun k => (groupsOf book k).flatten.map Call.requestId)
    (fun k l hl => List.mem_map.mp hl)
    fun k => (groupsOf book k).length + 2 + (groupsOf book k).flatten.length
  have hw' : ∀ k, w k = (groupsOf book k).length + 2 + callCost w (groupsOf book k).flatten := by
    intro k
    rw [hw, callCost, List.sum_map_add, List.map_map, List.map_const', List.sum_replicate]
    simp only [Function.comp_def, smul_eq_mul, mul_one]
    omega
  induction hn : s.cost w using Nat.strong_induction_on generalizing s with
  | _ n ih =>
    by_cases hdone : ∀ i, s.running? i = none
    · exact .done hdone
    · exact .turn (h.exists_turn hwf hdone) fun s' hturn =>
        ih _ (hn ▸ cost_turn hw' h hturn) (h.turn hturn) rfl

theorem Blocked.not_settles (hS : ∀ k ∈ S, ∃ l ∈ S, Refers book k l) (hk : k ∈ S)
    (hinv : Inv book s) (h : Blocked S s) : ¬ Settles book s := by
  intro hsettles
  induction hsettles with
  | done hdone =>
    obtain ⟨i, hi⟩ := Option.ne_none_iff_exists'.mp (h.flying k hk)
    cases (hdone i).symm.trans ((hinv.flight k i).mp hi)
  | turn hmore _ ih =>
    obtain ⟨s', hturn⟩ := hmore
    exact ih s' hturn (hinv.turn hturn) (h.turn hS hinv hturn)

theorem Refers.mem (h : Refers book k l) : k ∈ book.map Request.id ∧
    l ∈ book.flatMap fun r => r.groups.flatten.map Call.requestId := by
  obtain ⟨c, hc, rfl⟩ := h
  unfold groupsOf at hc
  cases hfind : book.find? fun r => r.id = k with
  | none => simp [hfind] at hc
  | some r =>
    have hmem := List.mem_of_find?_eq_some hfind
    have hid := List.find?_some hfind
    simp only [hfind, Option.map_some, Option.getD_some] at hc
    exact ⟨List.mem_map.mpr ⟨r, hmem, by simpa using hid⟩,
      List.mem_flatMap.mpr ⟨r, hmem, List.mem_map_of_mem hc⟩⟩

/-- All of the requests are called before one of them is sent. -/
theorem exists_all_called (book : List (Request κ)) (ids : List κ) :
    ∃ s : State κ ρ, Reachable book s ∧ (∀ k, s.cycleCache k = none) ∧
      (∀ k i, s.inFlight k = some i → s.promises[i]? = some (.deciding ⟨k, .force⟩)) ∧
        ∀ k ∈ ids, s.inFlight k ≠ none := by
  induction ids with
  | nil => exact ⟨.fresh, .refl, fun _ => rfl, by simp [State.fresh], by simp⟩
  | cons k ids ih =>
    obtain ⟨s, hreach, hcache, hforce, hflying⟩ := ih
    refine ⟨_, hreach.tail (.within (.call ⟨k, .force⟩)), ?_⟩
    rcases ensureResponse_cases s ⟨k, .force⟩ with ⟨hc, -⟩ | ⟨-, ⟨i, hi, he⟩ | ⟨hnone, he⟩⟩
    · exact absurd (hcache k) hc
    · rw [he]
      exact ⟨hcache, hforce, by grind⟩
    · rw [he]
      refine ⟨hcache, ?_, ?_⟩ <;> simp only [State.resolveResponse] <;> grind

/-- Every call comes to an end, however the promises take turns, exactly where no request leads back
to itself. -/
theorem chained_calls_settle_iff (book : List (Request κ)) :
    (∀ s : State κ ρ, Reachable book s → Settles book s) ↔ ∀ k, ¬ TransGen (Refers book) k k := by
  constructor
  · intro h k hloop
    have hS : ∀ l ∈ {l | TransGen (Refers book) k l ∧ TransGen (Refers book) l k},
        ∃ m ∈ {l | TransGen (Refers book) k l ∧ TransGen (Refers book) l k}, Refers book l m := by
      rintro l ⟨hkl, hlk⟩
      obtain ⟨m, hlm, hmk⟩ := Relation.TransGen.head'_iff.mp hlk
      exact ⟨m, ⟨hkl.tail hlm, .trans_right hmk hloop⟩, hlm⟩
    obtain ⟨s, hreach, hcache, hforce, hflying⟩ :=
      exists_all_called (ρ := ρ) book (book.map Request.id)
    refine Blocked.not_settles hS ⟨hloop, hloop⟩ (inv_of_reachable hreach)
      ⟨fun k _ => hcache k, fun l hl => hflying l ?_, fun k _ i hi => .inl (hforce k i hi)⟩
      (h s hreach)
    obtain ⟨m, -, hm⟩ := hS l hl
    exact hm.mem.1
  · intro hno s hreach
    exact (inv_of_reachable hreach).settles (wellFounded_of_no_loop (fun _ _ h => h.mem.2) hno)

end Voleeo.ResponseChain
