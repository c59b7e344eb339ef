import Voleeo.JsonText

/-!
# Reading JSON back

`JSON.parse` after `JSON.stringify` gives back every value whose numbers can be
read and whose objects are in the order of the language, and what `JSON.parse`
returns is such a value. Writing it takes no more room than the text it was read
from.
-/
namespace Voleeo.Json

/-! ## What is written is read back -/

/-- Its numbers can be read, and its objects are in the order of the language. -/
inductive Written : Json → Prop
  | null : Written .null
  | bool (b : Bool) : Written (.bool b)
  | number {text : String} (hchars : ∀ c ∈ text.toList, isNumberChar c = true)
      (h : isNumeral text.toList = true) : Written (.number text)
  | string (s : String) : Written (.string s)
  | array {values : List Json} (h : ∀ v ∈ values, Written v) : Written (.array values)
  | object {members : List (String × Json)} (hordered : Ordered members)
      (h : ∀ e ∈ members, Written e.2) : Written (.object members)

/-- What may follow a number. -/
def Stops (rest : Text) : Prop := ∀ c ∈ rest.head?, isNumberChar c = false

theorem elementTexts_eq (values : List Json) : elementTexts values = values.map stringify := by
  induction values with
  | nil => rfl
  | cons v vs ih => rw [elementTexts, ih, List.map_cons]

theorem memberTexts_eq (members : List (String × Json)) :
    memberTexts members = members.map memberText := by
  induction members with
  | nil => rfl
  | cons e es ih => rw [memberTexts, ih, List.map_cons]

theorem skipBlanks_of_head {c : Char} {s : Text} (h : isBlank c = false) :
    skipBlanks (c :: s) = c :: s := by
  simp [skipBlanks, h]

theorem readNumber_append {text rest : Text} (hchars : ∀ c ∈ text, isNumberChar c = true)
    (h : isNumeral text = true) (hrest : Stops rest) :
    readNumber (text ++ rest) = some (.number (String.ofList text), rest) := by
  have htake : rest.takeWhile isNumberChar = [] ∧ rest.dropWhile isNumberChar = rest := by
    cases rest with
    | nil => exact ⟨rfl, rfl⟩
    | cons c rest => simp [hrest c rfl]
  rw [readNumber, List.takeWhile_append_of_pos hchars, List.dropWhile_append_of_pos hchars,
    htake.1, htake.2, List.append_nil, if_pos h]

theorem isNumberChar_head {c : Char} (h : isNumberChar c = true) :
    isBlank c = false ∧ c ∉ ['"', '[', ']', '\x7b', 'n', 't', 'f'] := by
  refine ⟨?_, fun hc => ?_⟩
  · by_contra hblank
    simp only [isBlank, Bool.not_eq_false, Bool.or_eq_true, beq_iff_eq] at hblank
    rcases hblank with ((rfl | rfl) | rfl) | rfl <;> exact absurd h (by decide)
  · simp only [List.mem_cons, List.not_mem_nil, or_false] at hc
    rcases hc with rfl | rfl | rfl | rfl | rfl | rfl | rfl <;> exact absurd h (by decide)

theorem readValue_number {c : Char} {s : Text} (fuel : ℕ) (h : isNumberChar c = true) :
    readValue (fuel + 1) (c :: s) = readNumber (c :: s) := by
  have hno := (isNumberChar_head h).2
  rw [readValue]
  all_goals
    intros
    simp_all

/-- A value begins with a character that is no blank and closes nothing. -/
theorem Written.head {v : Json} (h : Written v) :
    ∃ c s, stringify v = c :: s ∧ isBlank c = false ∧ c ≠ ']' := by
  cases h with
  | null => exact ⟨_, _, rfl, by decide, by decide⟩
  | bool b => cases b <;> exact ⟨_, _, rfl, by decide, by decide⟩
  | number hchars h =>
    rename_i text
    rw [stringify]
    cases htext : text.toList with
    | nil =>
      rw [htext] at h
      exact absurd h (by decide)
    | cons c s =>
      obtain ⟨hblank, hno⟩ := isNumberChar_head (hchars c (by simp [htext]))
      refine ⟨c, s, rfl, hblank, ?_⟩
      rintro rfl
      simp at hno
  | string s => exact ⟨_, _, rfl, by decide, by decide⟩
  | array _ => exact ⟨_, _, rfl, by decide, by decide⟩
  | object _ _ => exact ⟨_, _, rfl, by decide, by decide⟩

theorem Written.skipBlanks {v : Json} (h : Written v) (rest : Text) :
    Json.skipBlanks (stringify v ++ rest) = stringify v ++ rest := by
  obtain ⟨c, s, hs, hblank, -⟩ := h.head
  rw [hs]
  exact skipBlanks_of_head hblank

theorem intercalate_head {t s : Text} {c : Char} (ht : t = c :: s) (ts : List Text) :
    ∃ tail, List.intercalate [','] (t :: ts) = c :: tail := by
  subst ht
  cases ts with
  | nil => exact ⟨s, List.intercalate_singleton⟩
  | cons u ts => exact ⟨_, List.intercalate_cons_cons⟩

theorem skipBlanks_intercalate {t s : Text} {c : Char} (ht : t = c :: s)
    (hblank : isBlank c = false) (ts : List Text) (rest : Text) :
    Json.skipBlanks (List.intercalate [','] (t :: ts) ++ rest) =
      List.intercalate [','] (t :: ts) ++ rest := by
  obtain ⟨tail, htail⟩ := intercalate_head ht ts
  rw [htail]
  exact skipBlanks_of_head hblank

/-- Enough fuel reads the value back, whatever follows it. -/
def ReadsBack (v : Json) : Prop := ∀ fuel rest, 2 * (stringify v).length ≤ fuel → Stops rest →
  readValue fuel (stringify v ++ rest) = some (v, rest)

theorem readElements_texts {v : Json} {vs : List Json}
    (h : ∀ w ∈ v :: vs, Written w ∧ ReadsBack w) (fuel : ℕ) (rest : Text)
    (hfuel : 2 * (List.intercalate [','] ((v :: vs).map stringify)).length + 1 ≤ fuel) :
    readElements fuel (List.intercalate [','] ((v :: vs).map stringify) ++ ']' :: rest) =
      some (v :: vs, rest) := by
  induction vs generalizing v fuel with
  | nil =>
    obtain ⟨fuel, rfl⟩ := Nat.exists_eq_add_of_le' (show 1 ≤ fuel by omega)
    rw [readElements]
    simp only [List.map_cons, List.map_nil, List.intercalate_singleton] at hfuel ⊢
    rw [(h v List.mem_cons_self).2 fuel _ (by omega) (by simp [Stops]; decide)]
    rfl
  | cons w vs ih =>
    obtain ⟨fuel, rfl⟩ := Nat.exists_eq_add_of_le' (show 1 ≤ fuel by omega)
    have htail : ∀ u ∈ w :: vs, Written u ∧ ReadsBack u := fun u hu =>
      h u (List.mem_cons_of_mem v hu)
    rw [List.map_cons, List.map_cons, List.intercalate_cons_cons, ← List.map_cons] at hfuel ⊢
    simp only [List.length_append, List.length_singleton] at hfuel
    rw [readElements, List.append_assoc, List.append_assoc,
      (h v List.mem_cons_self).2 fuel _ (by omega) (by simp [Stops]; decide)]
    have hnext := ih htail fuel (by omega)
    obtain ⟨c, s, hs, hblank, -⟩ := (htail w List.mem_cons_self).1.head
    have hskip := skipBlanks_intercalate hs hblank (vs.map stringify) (']' :: rest)
    have hcomma : ∀ text, Json.skipBlanks ([','] ++ text) = ',' :: text := fun text =>
      skipBlanks_of_head (by decide)
    rw [← List.map_cons] at hskip
    simp only [Option.bind_eq_bind, Option.bind_some, hcomma, hskip, hnext]
    rfl

theorem memberText_head (e : String × Json) : memberText e =
    '"' :: (e.1.toList.flatMap jsonEscape ++ ['"'] ++ ':' :: stringify e.2) := by
  rw [memberText, quote]
  rfl

theorem readMember {e : String × Json} (h : Written e.2 ∧ ReadsBack e.2) {fuel : ℕ}
    (members : List (String × Json)) {rest : Text} (hfuel : 2 * (memberText e).length ≤ fuel)
    (hrest : Stops rest) :
    readMembers (fuel + 1) members (memberText e ++ rest) = match Json.skipBlanks rest with
      | ',' :: rest => readMembers fuel (putMember e.1 e.2 members) (Json.skipBlanks rest)
      | '\x7d' :: rest => some (putMember e.1 e.2 members, rest)
      | _ => none := by
  obtain ⟨key, value⟩ := e
  have htext : memberText (key, value) ++ rest =
      '"' :: (key.toList.flatMap jsonEscape ++ '"' :: ':' :: (stringify value ++ rest)) := by
    rw [memberText_head]
    simp
  have hvalue : 2 * (stringify value).length ≤ fuel := by
    simp only [memberText, List.length_append, List.length_cons] at hfuel
    omega
  have hcolon : Json.skipBlanks (':' :: (stringify value ++ rest)) =
      ':' :: (stringify value ++ rest) := skipBlanks_of_head (by decide)
  rw [htext, readMembers, readString_literal]
  simp only [Option.bind_eq_bind, Option.bind_some, hcolon, h.1.skipBlanks,
    h.2 fuel rest hvalue hrest]
  rfl

theorem readMembers_texts {e : String × Json} {es : List (String × Json)}
    (h : ∀ a ∈ e :: es, Written a.2 ∧ ReadsBack a.2) (fuel : ℕ) (members : List (String × Json))
    (rest : Text)
    (hfuel : 2 * (List.intercalate [','] ((e :: es).map memberText)).length + 1 ≤ fuel) :
    readMembers fuel members (List.intercalate [','] ((e :: es).map memberText) ++ '\x7d' :: rest) =
      some ((e :: es).foldl (fun ms a => putMember a.1 a.2 ms) members, rest) := by
  induction es generalizing e fuel members with
  | nil =>
    obtain ⟨fuel, rfl⟩ := Nat.exists_eq_add_of_le' (show 1 ≤ fuel by omega)
    simp only [List.map_cons, List.map_nil, List.intercalate_singleton] at hfuel ⊢
    rw [readMember (h e List.mem_cons_self) members (by omega) (by simp [Stops]; decide)]
    rfl
  | cons a es ih =>
    obtain ⟨fuel, rfl⟩ := Nat.exists_eq_add_of_le' (show 1 ≤ fuel by omega)
    have htail : ∀ b ∈ a :: es, Written b.2 ∧ ReadsBack b.2 := fun b hb =>
      h b (List.mem_cons_of_mem e hb)
    rw [List.map_cons, List.map_cons, List.intercalate_cons_cons, ← List.map_cons] at hfuel ⊢
    simp only [List.length_append, List.length_singleton] at hfuel
    rw [List.append_assoc, List.append_assoc,
      readMember (h e List.mem_cons_self) members (by omega) (by simp [Stops]; decide)]
    have hskip := skipBlanks_intercalate (memberText_head a) (by decide) (es.map memberText)
      ('\x7d' :: rest)
    rw [← List.map_cons] at hskip
    show readMembers fuel (putMember e.1 e.2 members) (Json.skipBlanks
      (List.intercalate [','] ((a :: es).map memberText) ++ '\x7d' :: rest)) = _
    rw [hskip, ih htail fuel _ (by omega)]
    rfl

theorem readValue_array {c : Char} {s : Text} (fuel : ℕ) (hblank : isBlank c = false)
    (hclose : c ≠ ']') : readValue (fuel + 1) ('[' :: c :: s) =
      (readElements fuel (c :: s)).map fun r => (.array r.1, r.2) := by
  rw [readValue]
  simp only [skipBlanks_of_head hblank]
  split
  · rename_i heq
    exact absurd (List.cons.inj heq).1 hclose
  · cases readElements fuel (c :: s) <;> rfl

theorem readValue_object {c : Char} {s : Text} (fuel : ℕ) (hblank : isBlank c = false)
    (hclose : c ≠ '\x7d') : readValue (fuel + 1) ('\x7b' :: c :: s) =
      (readMembers fuel [] (c :: s)).map fun r => (.object r.1, r.2) := by
  rw [readValue]
  simp only [skipBlanks_of_head hblank]
  split
  · rename_i heq
    exact absurd (List.cons.inj heq).1 hclose
  · cases readMembers fuel [] (c :: s) <;> rfl

/-- Whatever follows it, a written value is read back. -/
theorem Written.readsBack {v : Json} (h : Written v) : ReadsBack v := by
  induction h with
  | null =>
    intro fuel rest hfuel _
    obtain ⟨fuel, rfl⟩ := Nat.exists_eq_add_of_le' (Nat.le_trans (by decide : 1 ≤ 8) hfuel)
    rfl
  | bool b =>
    intro fuel rest hfuel _
    cases b with
    | true =>
      obtain ⟨fuel, rfl⟩ := Nat.exists_eq_add_of_le' (Nat.le_trans (by decide : 1 ≤ 8) hfuel)
      rfl
    | false =>
      obtain ⟨fuel, rfl⟩ := Nat.exists_eq_add_of_le' (Nat.le_trans (by decide : 1 ≤ 10) hfuel)
      rfl
  | @number text hchars h =>
    intro fuel rest hfuel hrest
    obtain ⟨c, s, hs, -, -⟩ := (Written.number hchars h).head
    rw [stringify] at hs hfuel ⊢
    rw [hs, List.length_cons] at hfuel
    obtain ⟨fuel, rfl⟩ := Nat.exists_eq_add_of_le' (show 1 ≤ fuel by omega)
    have hc : isNumberChar c = true := hchars c (by simp [hs])
    have hread := readNumber_append hchars h hrest
    rw [hs, List.cons_append] at hread ⊢
    rw [readValue_number fuel hc, hread, ← hs, String.ofList_toList]
  | string s =>
    intro fuel rest hfuel _
    rw [stringify, quote] at hfuel ⊢
    simp only [List.cons_append, List.length_cons] at hfuel
    obtain ⟨fuel, rfl⟩ := Nat.exists_eq_add_of_le' (show 1 ≤ fuel by omega)
    rw [List.cons_append, List.cons_append, List.append_assoc, readValue]
    simp only [List.cons_append, List.nil_append]
    rw [readString_literal]
    rfl
  | @array values h ih =>
    intro fuel rest hfuel _
    have hall : ∀ v ∈ values, Written v ∧ ReadsBack v := fun v hv => ⟨h v hv, ih v hv⟩
    rw [stringify, elementTexts_eq] at hfuel ⊢
    simp only [List.cons_append, List.length_cons, List.length_append] at hfuel
    obtain ⟨fuel, rfl⟩ := Nat.exists_eq_add_of_le' (show 1 ≤ fuel by omega)
    cases values with
    | nil => rfl
    | cons v vs =>
      have hread := readElements_texts hall fuel rest (by omega)
      obtain ⟨c, s, hs, hblank, hclose⟩ := (hall v List.mem_cons_self).1.head
      obtain ⟨tail, htail⟩ := intercalate_head hs (vs.map stringify)
      rw [List.map_cons, htail] at hread ⊢
      rw [List.cons_append, List.cons_append, List.append_assoc, List.cons_append]
      exact (readValue_array fuel hblank hclose).trans (by
        rw [show c :: (tail ++ ([']'] ++ rest)) = c :: tail ++ ']' :: rest by simp, hread]
        rfl)
  | @object members hordered h ih =>
    intro fuel rest hfuel _
    have hall : ∀ e ∈ members, Written e.2 ∧ ReadsBack e.2 := fun e he => ⟨h e he, ih e he⟩
    rw [stringify, memberTexts_eq] at hfuel ⊢
    simp only [List.cons_append, List.length_cons, List.length_append] at hfuel
    obtain ⟨fuel, rfl⟩ := Nat.exists_eq_add_of_le' (show 1 ≤ fuel by omega)
    cases members with
    | nil => rfl
    | cons e es =>
      have hread := readMembers_texts hall fuel [] rest (by omega)
      obtain ⟨tail, htail⟩ := intercalate_head (memberText_head e) (es.map memberText)
      rw [foldl_putMember hordered, List.nil_append] at hread
      rw [List.map_cons, htail] at hread ⊢
      rw [List.cons_append, List.cons_append, List.append_assoc, List.cons_append]
      exact (readValue_object fuel (by decide) (by decide)).trans (by
        rw [show '"' :: (tail ++ (['\x7d'] ++ rest)) = '"' :: tail ++ '\x7d' :: rest by simp, hread]
        rfl)

/-- `JSON.parse` after `JSON.stringify`. -/
theorem Written.parse_stringify {v : Json} (h : Written v) : parse (stringify v) = some v := by
  have hread := h.readsBack (2 * (stringify v).length + 2) [] (by omega) (by simp [Stops])
  have hskip := h.skipBlanks []
  rw [List.append_nil] at hread hskip
  rw [parse, hskip, hread]
  rfl

/-! ## What is read can be written -/

theorem written_of_readNumber {s rest : Text} {v : Json} (h : readNumber s = some (v, rest)) :
    Written v := by
  rw [readNumber] at h
  split_ifs at h with hnumeral
  cases h
  refine .number (fun c hc => ?_) (by rwa [String.toList_ofList])
  rw [String.toList_ofList] at hc
  exact List.mem_takeWhile_imp hc

theorem quote_of_readMembers {fuel : ℕ} {ms out : List (String × Json)} {s rest : Text}
    (h : readMembers (fuel + 1) ms s = some (out, rest)) : ∃ tail, s = '"' :: tail := by
  rw [readMembers.eq_def] at h
  split at h
  · exact ⟨_, rfl⟩
  · cases h

/-- What the three readers return with a given fuel. -/
structure ReadsWritten (fuel : ℕ) : Prop where
  value : ∀ {s v rest}, readValue fuel s = some (v, rest) → Written v
  elements : ∀ {s vs rest}, readElements fuel s = some (vs, rest) → ∀ v ∈ vs, Written v
  members : ∀ {ms s out rest}, readMembers fuel ms s = some (out, rest) → Ordered ms →
    (∀ e ∈ ms, Written e.2) → Ordered out ∧ ∀ e ∈ out, Written e.2

theorem readsWritten (fuel : ℕ) : ReadsWritten fuel := by
  induction fuel with
  | zero => exact ⟨(by cases ·), (by cases ·), (by cases ·)⟩
  | succ fuel ih =>
    refine ⟨fun {s v rest} h => ?_, fun {s vs rest} h => ?_, fun {ms s out rest} h hms hw => ?_⟩
    · rw [readValue.eq_def] at h
      dsimp only at h
      split at h
      · obtain ⟨r, -, hr⟩ := Option.bind_eq_some_iff.mp h
        cases hr
        exact .string _
      · split at h
        · cases h
          exact .array (by simp)
        · obtain ⟨r, hread, hr⟩ := Option.bind_eq_some_iff.mp h
          cases hr
          exact .array (ih.elements hread)
      · split at h
        · cases h
          exact .object List.Pairwise.nil (by simp)
        · obtain ⟨r, hread, hr⟩ := Option.bind_eq_some_iff.mp h
          cases hr
          obtain ⟨hordered, hall⟩ := ih.members hread List.Pairwise.nil (by simp)
          exact .object hordered hall
      · cases h
        exact .null
      · cases h
        exact .bool true
      · cases h
        exact .bool false
      · exact written_of_readNumber h
    · rw [readElements] at h
      obtain ⟨⟨v, tail⟩, hv, h⟩ := Option.bind_eq_some_iff.mp h
      dsimp only at h
      split at h
      · obtain ⟨⟨ws, tail'⟩, hws, hr⟩ := Option.bind_eq_some_iff.mp h
        cases hr
        exact List.forall_mem_cons.mpr ⟨ih.value hv, ih.elements hws⟩
      · cases h
        exact List.forall_mem_cons.mpr ⟨ih.value hv, by simp⟩
      · cases h
    · obtain ⟨tail, rfl⟩ := quote_of_readMembers h
      rw [readMembers] at h
      obtain ⟨⟨key, tail⟩, -, h⟩ := Option.bind_eq_some_iff.mp h
      dsimp only at h
      split at h
      · obtain ⟨⟨value, tail'⟩, hvalue, h⟩ := Option.bind_eq_some_iff.mp h
        have hput : ∀ e ∈ putMember key value ms, Written e.2 := by
          intro e he
          rcases mem_of_putMember he with rfl | he
          · exact ih.value hvalue
          · exact hw e he
        dsimp only at h
        split at h
        · exact ih.members h (hms.putMember key value) hput
        · cases h
          exact ⟨hms.putMember key value, hput⟩
        · cases h
      · cases h

theorem written_of_parse {text : Text} {v : Json} (h : parse text = some v) : Written v := by
  obtain ⟨⟨w, rest⟩, hread, h⟩ := Option.bind_eq_some_iff.mp h
  dsimp only at h
  split_ifs at h
  cases h
  exact (readsWritten _).value hread

/-- Writing a value that was read and reading it again changes nothing. -/
theorem parse_stringify {text : Text} {v : Json} (h : parse text = some v) :
    parse (stringify v) = some v :=
  (written_of_parse h).parse_stringify

/-! ## The length of what is read -/

theorem length_skipBlanks_le (s : Text) : (skipBlanks s).length ≤ s.length :=
  (List.dropWhile_suffix _).length_le

theorem length_jsonEscape_le (c : Char) : (jsonEscape c).length ≤ 6 := by
  rw [jsonEscape]
  split_ifs <;> simp

theorem length_jsonEscape_escaped {c meant : Char} (h : escaped c = some meant) :
    (jsonEscape meant).length ≤ 2 := by
  unfold escaped at h
  split at h <;> cases h <;> decide

theorem length_jsonEscape_plain {c : Char} (hquote : c ≠ '"') (hbad : ¬ (c = '\\' ∨ c.toNat < 32)) :
    (jsonEscape c).length = 1 := by
  obtain ⟨hback, hlow⟩ := not_or.mp hbad
  have hno : ∀ n < 32, c.toNat ≠ n := fun n hn h => hlow (h ▸ hn)
  have hchar : ∀ d : Char, d.toNat < 32 → c ≠ d := fun d hd h => hlow (h ▸ hd)
  rw [jsonEscape, if_neg hquote, if_neg hback, if_neg (hno 8 (by decide)),
    if_neg (hno 12 (by decide)), if_neg (hchar '\n' (by decide)), if_neg (hchar '\r' (by decide)),
    if_neg (hchar '\t' (by decide)), if_neg hlow]
  rfl

theorem length_jsonEscape_pos (c : Char) : 0 < (jsonEscape c).length := by
  rw [jsonEscape]
  split_ifs <;> simp

theorem length_jsonEscape_ofNat {n : ℕ} (hlow : 0x10000 ≤ n) (hhigh : n ≤ 0x10FFFF) :
    (jsonEscape (Char.ofNat n)).length = 1 := by
  have hn : (Char.ofNat n).toNat = n := by
    rw [Char.ofNat, dif_pos (Or.inr ⟨by omega, by omega⟩)]
    rfl
  refine length_jsonEscape_plain ?_ ?_
  · intro hq
    have : (Char.ofNat n).toNat = 34 := by rw [hq]; rfl
    omega
  · rintro (hq | hq)
    · have : (Char.ofNat n).toNat = 92 := by rw [hq]; rfl
      omega
    · omega

/-- How long the units are in a literal that is written. -/
def unitsLength (units : List ℕ) : ℕ := ((joinPairs units).flatMap jsonEscape).length

/-- Two units that are joined need no more room than the second alone. -/
theorem unitsLength_cons (n : ℕ) (units : List ℕ) :
    unitsLength (n :: units) ≤ (jsonEscape (charOfUnit n)).length + unitsLength units := by
  cases units with
  | nil => simp [unitsLength, joinPairs]
  | cons m rest =>
    rw [unitsLength, joinPairs]
    split_ifs with hpair
    · obtain ⟨hhigh, hlow⟩ := Bool.and_eq_true_iff.mp hpair
      have hnot : isHigh m = false := by
        simp only [isHigh, isLow, Bool.and_eq_true, Bool.and_eq_false_iff, decide_eq_true_eq,
          decide_eq_false_iff_not] at hlow ⊢
        omega
      have hjoined : ∃ d, joinPairs (m :: rest) = d :: joinPairs rest := by
        cases rest with
        | nil => exact ⟨_, rfl⟩
        | cons k rest =>
          rw [joinPairs, hnot]
          exact ⟨_, rfl⟩
      obtain ⟨d, hd⟩ := hjoined
      have hn : 0xD800 ≤ n ∧ n ≤ 0xDBFF := by simpa [isHigh] using hhigh
      have hm : 0xDC00 ≤ m ∧ m ≤ 0xDFFF := by simpa [isLow] using hlow
      have hlen := length_jsonEscape_ofNat (show 0x10000 ≤
        0x10000 + 0x400 * (n - 0xD800) + (m - 0xDC00) by omega) (by omega)
      rw [unitsLength, hd, List.flatMap_cons, List.length_append, List.flatMap_cons,
        List.length_append, hlen]
      have hpos := length_jsonEscape_pos (charOfUnit n)
      omega
    · rw [List.flatMap_cons, List.length_append]
      rfl

theorem length_readUnits {s rest : Text} {units : List ℕ} (h : readUnits s = some (units, rest)) :
    unitsLength units + 1 + rest.length ≤ s.length := by
  induction s using readUnits.induct generalizing units with
  | case1 => cases h
  | case2 tail =>
    cases h
    simp [unitsLength, joinPairs]
    omega
  | case3 a b c d tail ih =>
    rw [readUnits] at h
    obtain ⟨unit, -, h⟩ := Option.bind_eq_some_iff.mp h
    obtain ⟨⟨units', rest'⟩, hr, h⟩ := Option.bind_eq_some_iff.mp h
    cases h
    have hcons := unitsLength_cons unit units'
    have hchar := length_jsonEscape_le (charOfUnit unit)
    have := ih hr
    simp only [List.length_cons]
    omega
  | case4 c tail hno ih =>
    rw [readUnits.eq_4 _ _ hno] at h
    obtain ⟨meant, hmeant, h⟩ := Option.bind_eq_some_iff.mp h
    obtain ⟨⟨units', rest'⟩, hr, h⟩ := Option.bind_eq_some_iff.mp h
    cases h
    have hcons := unitsLength_cons meant.toNat units'
    have hchar := length_jsonEscape_escaped hmeant
    rw [(charOfUnit_toNat meant).2] at hcons
    have := ih hr
    simp only [List.length_cons]
    omega
  | case5 c tail h1 h2 h3 hbad =>
    rw [readUnits.eq_5 _ _ h1 h2 h3, if_pos hbad] at h
    cases h
  | case6 c tail h1 h2 h3 hgood ih =>
    rw [readUnits.eq_5 _ _ h1 h2 h3, if_neg hgood] at h
    obtain ⟨⟨units', rest'⟩, hr, h⟩ := Option.bind_eq_some_iff.mp h
    cases h
    have hcons := unitsLength_cons c.toNat units'
    have hchar := length_jsonEscape_plain (fun hq => h1 hq) hgood
    rw [(charOfUnit_toNat c).2] at hcons
    have := ih hr
    simp only [List.length_cons]
    omega

theorem length_readString {s rest : Text} {text : String} (h : readString s = some (text, rest)) :
    (quote text).length + rest.length ≤ s.length + 1 := by
  obtain ⟨⟨units, rest'⟩, hr, h⟩ := Option.bind_eq_some_iff.mp h
  cases h
  have := length_readUnits hr
  rw [quote, String.toList_ofList]
  simp only [List.cons_append, List.length_cons, List.length_append, List.length_nil]
  rw [unitsLength] at this
  omega

theorem length_readNumber {s rest : Text} {v : Json} (h : readNumber s = some (v, rest)) :
    (stringify v).length + rest.length ≤ s.length := by
  rw [readNumber] at h
  split_ifs at h
  cases h
  have hlen := congrArg List.length (List.takeWhile_append_dropWhile (p := isNumberChar) (l := s))
  rw [List.length_append] at hlen
  rw [stringify, String.toList_ofList]
  omega

/-- The elements with the separator behind each. -/
def elementsLength (values : List Json) : ℕ := (values.map fun v => (stringify v).length + 1).sum

def membersLength (members : List (String × Json)) : ℕ :=
  (members.map fun e => (memberText e).length + 1).sum

theorem length_intercalate {d : Char} {t : Text} {ts : List Text} :
    (List.intercalate [d] (t :: ts)).length + 1 = ((t :: ts).map fun t => t.length + 1).sum := by
  induction ts generalizing t with
  | nil => simp
  | cons u ts ih =>
    rw [List.intercalate_cons_cons, List.length_append, List.length_append, List.map_cons,
      List.sum_cons, ← ih]
    simp only [List.length_singleton]
    omega

theorem length_stringify_array {values : List Json} (h : values ≠ []) :
    (stringify (.array values)).length = elementsLength values + 1 := by
  obtain ⟨v, vs, rfl⟩ := List.exists_cons_of_ne_nil h
  have hlen := @length_intercalate ',' (stringify v) (vs.map stringify)
  rw [← List.map_cons, List.map_map] at hlen
  rw [stringify, elementTexts_eq, elementsLength]
  simp only [List.cons_append, List.length_cons, List.length_append, List.length_nil]
  exact congrArg (· + 1) hlen

theorem length_stringify_object {members : List (String × Json)} (h : members ≠ []) :
    (stringify (.object members)).length = membersLength members + 1 := by
  obtain ⟨e, es, rfl⟩ := List.exists_cons_of_ne_nil h
  have hlen := @length_intercalate ',' (memberText e) (es.map memberText)
  rw [← List.map_cons, List.map_map] at hlen
  rw [stringify, memberTexts_eq, membersLength]
  simp only [List.cons_append, List.length_cons, List.length_append, List.length_nil]
  exact congrArg (· + 1) hlen

theorem membersLength_putMember_le (key : String) (value : Json) (ms : List (String × Json)) :
    membersLength (putMember key value ms) ≤
      (memberText (key, value)).length + 1 + membersLength ms := by
  induction ms with
  | nil => simp [putMember, membersLength]
  | cons e ms ih =>
    rw [membersLength] at ih ⊢
    rw [putMember, membersLength, List.map_cons, List.sum_cons]
    rw [membersLength] at ih
    split_ifs
    · rw [List.map_cons, List.sum_cons]
      omega
    · rw [List.map_cons, List.sum_cons, List.map_cons, List.sum_cons]
    · rw [List.map_cons, List.sum_cons]
      omega

theorem putMember_ne_nil (key : String) (value : Json) (ms : List (String × Json)) :
    putMember key value ms ≠ [] := by
  cases ms with
  | nil => simp [putMember]
  | cons e ms =>
    rw [putMember]
    split_ifs <;> simp

/-- What is read is written in no more characters than were taken. -/
structure NeverLonger (fuel : ℕ) : Prop where
  value : ∀ {s v rest}, readValue fuel s = some (v, rest) →
    (stringify v).length + rest.length ≤ s.length
  elements : ∀ {s vs rest}, readElements fuel s = some (vs, rest) →
    vs ≠ [] ∧ elementsLength vs + rest.length ≤ s.length
  members : ∀ {ms s out rest}, readMembers fuel ms s = some (out, rest) →
    out ≠ [] ∧ membersLength out + rest.length ≤ membersLength ms + s.length

theorem neverLonger (fuel : ℕ) : NeverLonger fuel := by
  induction fuel with
  | zero => exact ⟨(by cases ·), (by cases ·), (by cases ·)⟩
  | succ fuel ih =>
    refine ⟨fun {s v rest} h => ?_, fun {s vs rest} h => ?_, fun {ms s out rest} h => ?_⟩
    · rw [readValue.eq_def] at h
      dsimp only at h
      split at h
      · obtain ⟨⟨text, rest'⟩, hr, h⟩ := Option.bind_eq_some_iff.mp h
        cases h
        rw [stringify, List.length_cons]
        exact length_readString hr
      · rename_i tail
        have hskip := length_skipBlanks_le tail
        split at h
        · rename_i heq
          cases h
          rw [heq] at hskip
          simp only [List.length_cons] at hskip ⊢
          have : (stringify (.array [])).length = 2 := rfl
          omega
        · obtain ⟨⟨vs, rest'⟩, hr, h⟩ := Option.bind_eq_some_iff.mp h
          cases h
          obtain ⟨hne, hlen⟩ := ih.elements hr
          rw [length_stringify_array hne, List.length_cons]
          dsimp only
          omega
      · rename_i tail
        have hskip := length_skipBlanks_le tail
        split at h
        · rename_i heq
          cases h
          rw [heq] at hskip
          simp only [List.length_cons] at hskip ⊢
          have : (stringify (.object [])).length = 2 := rfl
          omega
        · obtain ⟨⟨ms, rest'⟩, hr, h⟩ := Option.bind_eq_some_iff.mp h
          cases h
          obtain ⟨hne, hlen⟩ := ih.members hr
          rw [length_stringify_object hne, List.length_cons]
          have : membersLength [] = 0 := rfl
          dsimp only
          omega
      · cases h
        exact Nat.le_of_eq (Nat.add_comm _ _)
      · cases h
        exact Nat.le_of_eq (Nat.add_comm _ _)
      · cases h
        exact Nat.le_of_eq (Nat.add_comm _ _)
      · exact length_readNumber h
    · rw [readElements] at h
      obtain ⟨⟨v, tail⟩, hv, h⟩ := Option.bind_eq_some_iff.mp h
      have hfirst := ih.value hv
      have hskip := length_skipBlanks_le tail
      dsimp only at h
      split at h
      · rename_i more heq
        obtain ⟨⟨ws, tail'⟩, hws, h⟩ := Option.bind_eq_some_iff.mp h
        cases h
        obtain ⟨-, hnext⟩ := ih.elements hws
        have hmore := length_skipBlanks_le more
        rw [heq, List.length_cons] at hskip
        refine ⟨by simp, ?_⟩
        rw [elementsLength, List.map_cons, List.sum_cons]
        rw [elementsLength] at hnext
        dsimp only
        omega
      · rename_i heq
        cases h
        rw [heq, List.length_cons] at hskip
        refine ⟨by simp, ?_⟩
        rw [elementsLength, List.map_cons, List.sum_cons, List.map_nil, List.sum_nil]
        omega
      · cases h
    · obtain ⟨tail, rfl⟩ := quote_of_readMembers h
      rw [readMembers] at h
      obtain ⟨⟨key, after⟩, hkey, h⟩ := Option.bind_eq_some_iff.mp h
      have hfirst := length_readString hkey
      have hskip := length_skipBlanks_le after
      dsimp only at h
      split at h
      · rename_i text heq
        obtain ⟨⟨value, after'⟩, hvalue, h⟩ := Option.bind_eq_some_iff.mp h
        have hsecond := ih.value hvalue
        have htext := length_skipBlanks_le text
        have hskip' := length_skipBlanks_le after'
        have hput := membersLength_putMember_le key value ms
        rw [memberText, List.length_append, List.length_cons] at hput
        rw [heq, List.length_cons] at hskip
        rw [List.length_cons]
        dsimp only at h
        split at h
        · rename_i more heq'
          obtain ⟨hne, hnext⟩ := ih.members h
          have hmore := length_skipBlanks_le more
          rw [heq', List.length_cons] at hskip'
          exact ⟨hne, by omega⟩
        · rename_i heq'
          cases h
          rw [heq', List.length_cons] at hskip'
          exact ⟨putMember_ne_nil key value ms, by omega⟩
        · cases h
      · cases h

/-- Writing what was read takes no more room. -/
theorem length_stringify_le {text : Text} {v : Json} (h : parse text = some v) :
    (stringify v).length ≤ text.length := by
  obtain ⟨⟨w, rest⟩, hread, h⟩ := Option.bind_eq_some_iff.mp h
  dsimp only at h
  split_ifs at h
  cases h
  have hlen := (neverLonger _).value hread
  have hskip := length_skipBlanks_le text
  omega

/-! ## No line breaks -/

theorem newline_not_mem_jsonEscape (c : Char) : '\n' ∉ jsonEscape c := by
  have hdigits : ∀ n < 16, hexDigit n ≠ '\n' := by decide
  intro hmem
  rw [jsonEscape] at hmem
  split_ifs at hmem with _ _ _ _ hlf _ _ hlow
  all_goals simp only [List.mem_cons, List.not_mem_nil, or_false] at hmem
  any_goals simp at hmem
  · rcases hmem with h | h
    · exact hdigits _ (by omega) h.symm
    · exact hdigits _ (by omega) h.symm
  · exact hlf hmem.symm

theorem newline_not_mem_quote (s : String) : '\n' ∉ quote s := by
  simp only [quote, List.cons_append, List.mem_cons, List.mem_append, List.mem_flatMap,
    List.not_mem_nil, or_false]
  rintro (h | ⟨c, -, h⟩ | h)
  · cases h
  · exact newline_not_mem_jsonEscape c h
  · cases h

end Voleeo.Json
