import Voleeo.JsonObject
import Voleeo.PrettyJson

/-!
# JSON texts as sequences of tokens

What stays of a text without its white space and the spelling of its strings. A value
with the members of its objects as they are written, also those whose key appears
again, is the tree of such a sequence, and no sequence has two trees.
-/
namespace Voleeo.JsonTokens
open Json (isBlank isNumberChar isNumeral readUnits isHigh isLow joinPairs quote Stops)

inductive Token
  | openArray
  | closeArray
  | openObject
  | closeObject
  | colon
  | comma
  /-- `null`, or a Boolean value. -/
  | literal (b : Option Bool)
  | number (text : String)
  | string (s : String)
  /-- A string with half of a surrogate pair. -/
  | broken (s : String)

/-! ## The scanner -/

/-- A surrogate without its other half. -/
def hasLone : List ℕ → Bool
  | [] => false
  | [n] => isHigh n || isLow n
  | n :: m :: rest =>
    if isHigh n && isLow m then hasLone rest else isHigh n || isLow n || hasLone (m :: rest)

attribute [local simp] hasLone

def stringToken (units : List ℕ) : Token :=
  let s := String.ofList (joinPairs units)
  if hasLone units then .broken s else .string s

/-- The token at the head of a text, and what follows it. -/
def readToken : Text → Option (Token × Text)
  | '[' :: rest => some (.openArray, rest)
  | ']' :: rest => some (.closeArray, rest)
  | '\x7b' :: rest => some (.openObject, rest)
  | '\x7d' :: rest => some (.closeObject, rest)
  | ':' :: rest => some (.colon, rest)
  | ',' :: rest => some (.comma, rest)
  | 'n' :: 'u' :: 'l' :: 'l' :: rest => some (.literal none, rest)
  | 't' :: 'r' :: 'u' :: 'e' :: rest => some (.literal (some true), rest)
  | 'f' :: 'a' :: 'l' :: 's' :: 'e' :: rest => some (.literal (some false), rest)
  | '"' :: rest => (readUnits rest).map fun r => (stringToken r.1, r.2)
  | s =>
    let text := s.takeWhile isNumberChar
    if isNumeral text then some (.number (String.ofList text), s.dropWhile isNumberChar)
    else none

/-- `skip` counts the characters that the last token still covers. -/
def scanFrom : ℕ → Text → Option (List Token)
  | _, [] => some []
  | skip + 1, _ :: rest => scanFrom skip rest
  | 0, c :: rest =>
    if isBlank c then scanFrom 0 rest
    else
      match readToken (c :: rest) with
      | none => none
      | some (token, after) =>
        (scanFrom (rest.length - after.length) rest).map fun tokens => token :: tokens

attribute [local simp] scanFrom

def scan (text : Text) : Option (List Token) := scanFrom 0 text

/-! ## The grammar -/

mutual

/-- The value at the head of the tokens, and what follows it. -/
def readValue : ℕ → List Token → Option (Json × List Token)
  | 0, _ => none
  | _ + 1, .literal none :: rest => some (.null, rest)
  | _ + 1, .literal (some b) :: rest => some (.bool b, rest)
  | _ + 1, .number text :: rest => some (.number text, rest)
  | _ + 1, .string s :: rest => some (.string s, rest)
  | _ + 1, .openArray :: .closeArray :: rest => some (.array [], rest)
  | fuel + 1, .openArray :: rest => (readElements fuel rest).map fun r => (.array r.1, r.2)
  | _ + 1, .openObject :: .closeObject :: rest => some (.object [], rest)
  | fuel + 1, .openObject :: rest => (readMembers fuel rest).map fun r => (.object r.1, r.2)
  | _ + 1, _ => none

def readElements : ℕ → List Token → Option (List Json × List Token)
  | 0, _ => none
  | fuel + 1, tokens =>
    match readValue fuel tokens with
    | some (v, .comma :: rest) => (readElements fuel rest).map fun r => (v :: r.1, r.2)
    | some (v, .closeArray :: rest) => some ([v], rest)
    | _ => none

def readMembers : ℕ → List Token → Option (List (String × Json) × List Token)
  | fuel + 1, .string key :: .colon :: rest =>
    match readValue fuel rest with
    | some (v, .comma :: rest) => (readMembers fuel rest).map fun r => ((key, v) :: r.1, r.2)
    | some (v, .closeObject :: rest) => some ([(key, v)], rest)
    | _ => none
  | _, _ => none

end

/-- The tree of a sequence. -/
def readTree (tokens : List Token) : Option Json :=
  match readValue (2 * tokens.length) tokens with
  | some (v, []) => some v
  | _ => none

mutual

def tokens : Json → List Token
  | .null => [.literal none]
  | .bool b => [.literal (some b)]
  | .number text => [.number text]
  | .string s => [.string s]
  | .array values => .openArray :: elementTokens true values
  | .object members => .openObject :: memberTokens true members

/-- A comma stands before each element but the first. -/
def elementTokens (first : Bool) : List Json → List Token
  | [] => [.closeArray]
  | v :: vs => (if first then [] else [.comma]) ++ tokens v ++ elementTokens false vs

def memberTokens (first : Bool) : List (String × Json) → List Token
  | [] => [.closeObject]
  | e :: es =>
    (if first then [] else [.comma]) ++ .string e.1 :: .colon :: pairTokens e ++
      memberTokens false es

def pairTokens : String × Json → List Token
  | (_, v) => tokens v

end

/-! ## No sequence has two trees -/

/-- What holds of a value when it holds of its parts holds of all values. -/
theorem json_induction {P : Json → Prop} (null : P .null) (bool : ∀ b, P (.bool b))
    (number : ∀ text, P (.number text)) (string : ∀ s, P (.string s))
    (array : ∀ values, (∀ v ∈ values, P v) → P (.array values))
    (object : ∀ members, (∀ e ∈ members, P e.2) → P (.object members)) (v : Json) : P v := by
  match v with
  | .null => exact null
  | .bool b => exact bool b
  | .number text => exact number text
  | .string s => exact string s
  | .array values =>
    exact array values fun w hw =>
      json_induction null bool number string array object w
  | .object members =>
    exact object members fun e he =>
      json_induction null bool number string array object e.2
termination_by sizeOf v
decreasing_by
  · exact Json.sizeOf_part_lt (v := .array values) hw
  · exact Json.sizeOf_part_lt (v := .object members) (List.mem_map_of_mem he)

@[simp] theorem pairTokens_eq (e : String × Json) : pairTokens e = tokens e.2 := by
  obtain ⟨key, v⟩ := e
  rw [pairTokens]

/-- No value begins as a block ends. -/
theorem tokens_head (v : Json) : ∃ t ts, tokens v = t :: ts ∧ t ≠ .closeArray := by
  cases v <;> exact ⟨_, _, rfl, nofun⟩

theorem readValue_openArray {t : Token} (h : t ≠ .closeArray) (fuel : ℕ) (ts : List Token) :
    readValue (fuel + 1) (.openArray :: t :: ts) =
      (readElements fuel (t :: ts)).map fun r => (.array r.1, r.2) := by
  rw [readValue]
  rintro rest ⟨rfl, -⟩
  exact h rfl

theorem readValue_openObject {t : Token} (h : t ≠ .closeObject) (fuel : ℕ) (ts : List Token) :
    readValue (fuel + 1) (.openObject :: t :: ts) =
      (readMembers fuel (t :: ts)).map fun r => (.object r.1, r.2) := by
  rw [readValue]
  rintro rest ⟨rfl, -⟩
  exact h rfl

/-- The reader takes a value back from its tokens. -/
def ReadsBack (v : Json) : Prop := ∀ fuel rest, 2 * (tokens v).length ≤ fuel →
  readValue fuel (tokens v ++ rest) = some (v, rest)

theorem readElements_tokens {v : Json} {vs : List Json} (h : ∀ w ∈ v :: vs, ReadsBack w)
    (fuel : ℕ) (rest : List Token)
    (hfuel : 2 * (tokens v ++ elementTokens false vs).length ≤ fuel) :
    readElements fuel (tokens v ++ elementTokens false vs ++ rest) = some (v :: vs, rest) := by
  induction vs generalizing v fuel with
  | nil =>
    simp only [elementTokens, List.length_append, List.length_singleton] at hfuel
    obtain ⟨fuel, rfl⟩ : ∃ f, fuel = f + 1 := ⟨fuel - 1, by omega⟩
    have hv := h v List.mem_cons_self fuel (.closeArray :: rest) (by omega)
    rw [elementTokens, List.append_assoc, List.singleton_append, readElements, hv]
  | cons w ws ih =>
    simp only [elementTokens, List.length_append, List.length_singleton, Bool.false_eq_true,
      if_false] at hfuel
    obtain ⟨fuel, rfl⟩ : ∃ f, fuel = f + 1 := ⟨fuel - 1, by omega⟩
    have hv := h v List.mem_cons_self fuel
      (.comma :: (tokens w ++ elementTokens false ws ++ rest)) (by omega)
    have hrest := ih (fun u hu => h u (List.mem_cons_of_mem v hu)) fuel
      (by rw [List.length_append]; omega)
    have hsplit : tokens v ++ elementTokens false (w :: ws) ++ rest =
        tokens v ++ .comma :: (tokens w ++ elementTokens false ws ++ rest) := by
      simp [elementTokens]
    rw [hsplit, readElements, hv]
    simp only [hrest, Option.map_some]

theorem readMembers_tokens {e : String × Json} {es : List (String × Json)}
    (h : ∀ a ∈ e :: es, ReadsBack a.2) (fuel : ℕ) (rest : List Token)
    (hfuel : 2 * (tokens e.2 ++ memberTokens false es).length ≤ fuel) :
    readMembers fuel (.string e.1 :: .colon :: tokens e.2 ++ memberTokens false es ++ rest) =
      some (e :: es, rest) := by
  induction es generalizing e fuel with
  | nil =>
    simp only [memberTokens, List.length_append, List.length_singleton] at hfuel
    obtain ⟨fuel, rfl⟩ : ∃ f, fuel = f + 1 := ⟨fuel - 1, by omega⟩
    have hv := h e List.mem_cons_self fuel (.closeObject :: rest) (by omega)
    have hsplit : Token.string e.1 :: .colon :: tokens e.2 ++ memberTokens false [] ++ rest =
        .string e.1 :: .colon :: (tokens e.2 ++ .closeObject :: rest) := by
      simp [memberTokens]
    rw [hsplit, readMembers, hv]
  | cons a es ih =>
    simp only [memberTokens, pairTokens_eq, List.length_append, List.length_cons,
      List.length_nil, Bool.false_eq_true, if_false] at hfuel
    obtain ⟨fuel, rfl⟩ : ∃ f, fuel = f + 1 := ⟨fuel - 1, by omega⟩
    have hv := h e List.mem_cons_self fuel (.comma :: (.string a.1 :: .colon :: tokens a.2 ++
      memberTokens false es ++ rest)) (by omega)
    have hrest := ih (fun u hu => h u (List.mem_cons_of_mem e hu)) fuel
      (by rw [List.length_append]; omega)
    have hsplit : Token.string e.1 :: .colon :: tokens e.2 ++ memberTokens false (a :: es) ++
        rest = .string e.1 :: .colon :: (tokens e.2 ++ .comma :: (.string a.1 :: .colon ::
          tokens a.2 ++ memberTokens false es ++ rest)) := by
      simp [memberTokens]
    rw [hsplit, readMembers, hv]
    simp only [hrest, Option.map_some]

theorem readsBack (v : Json) : ReadsBack v := by
  induction v using json_induction with
  | null | bool b | number text | string s =>
    intro fuel rest hfuel
    obtain ⟨fuel, rfl⟩ : ∃ f, fuel = f + 1 := ⟨fuel - 1, by simp [tokens] at hfuel; omega⟩
    rfl
  | array values ih =>
    intro fuel rest hfuel
    cases values with
    | nil =>
      obtain ⟨fuel, rfl⟩ : ∃ f, fuel = f + 1 :=
        ⟨fuel - 1, by simp [tokens, elementTokens] at hfuel; omega⟩
      rfl
    | cons v vs =>
      simp only [tokens, elementTokens, if_true, List.nil_append, List.length_cons] at hfuel
      obtain ⟨fuel, rfl⟩ : ∃ f, fuel = f + 1 := ⟨fuel - 1, by omega⟩
      have hread := readElements_tokens ih fuel rest (by omega)
      obtain ⟨t, ts, hhead, hne⟩ := tokens_head v
      have hsplit : tokens (.array (v :: vs)) ++ rest =
          .openArray :: (tokens v ++ elementTokens false vs ++ rest) := by
        simp [tokens, elementTokens]
      rw [hhead, List.cons_append, List.cons_append] at hread
      rw [hsplit, hhead, List.cons_append, List.cons_append, readValue_openArray hne, hread]
      rfl
  | object members ih =>
    intro fuel rest hfuel
    cases members with
    | nil =>
      obtain ⟨fuel, rfl⟩ : ∃ f, fuel = f + 1 :=
        ⟨fuel - 1, by simp [tokens, memberTokens] at hfuel; omega⟩
      rfl
    | cons e es =>
      simp only [tokens, memberTokens, pairTokens_eq, if_true, List.nil_append,
        List.length_cons, List.length_append] at hfuel
      obtain ⟨fuel, rfl⟩ : ∃ f, fuel = f + 1 := ⟨fuel - 1, by omega⟩
      have hread := readMembers_tokens ih fuel rest (by rw [List.length_append]; omega)
      have hsplit : tokens (.object (e :: es)) ++ rest =
          .openObject :: (.string e.1 :: .colon :: tokens e.2 ++ memberTokens false es ++
            rest) := by
        simp [tokens, memberTokens]
      have hne : Token.string e.1 ≠ .closeObject := nofun
      simp only [List.cons_append] at hread hsplit
      rw [hsplit, readValue_openObject hne, hread]
      rfl

theorem readTree_tokens (v : Json) : readTree (tokens v) = some v := by
  have hread := readsBack v _ [] (le_refl _)
  rw [List.append_nil] at hread
  rw [readTree, hread]

theorem tokens_injective : Function.Injective tokens := by
  intro v w h
  have hv := readTree_tokens v
  rw [h, readTree_tokens] at hv
  exact (Option.some.inj hv).symm

/-- What the readers take is the tokens of what they return. -/
structure ReadsTokens (fuel : ℕ) : Prop where
  value : ∀ {ts v rest}, readValue fuel ts = some (v, rest) → ts = tokens v ++ rest
  elements : ∀ {ts vs rest}, readElements fuel ts = some (vs, rest) →
    ∃ w ws, vs = w :: ws ∧ ts = tokens w ++ elementTokens false ws ++ rest
  members : ∀ {ts es rest}, readMembers fuel ts = some (es, rest) →
    ∃ a as, es = a :: as ∧
      ts = .string a.1 :: .colon :: tokens a.2 ++ memberTokens false as ++ rest

theorem readsTokens (fuel : ℕ) : ReadsTokens fuel := by
  induction fuel with
  | zero => exact ⟨(by cases ·), (by cases ·), (by cases ·)⟩
  | succ fuel ih =>
    refine ⟨fun {ts v rest} h => ?_, fun {ts vs rest} h => ?_, fun {ts es rest} h => ?_⟩
    · rw [readValue.eq_def] at h
      split at h
      case h_7 heq =>
        cases heq
        obtain ⟨⟨vs, rest'⟩, hread, heq⟩ := Option.map_eq_some_iff.mp h
        cases heq
        obtain ⟨w, ws, rfl, rfl⟩ := ih.elements hread
        simp [tokens, elementTokens]
      case h_9 heq =>
        cases heq
        obtain ⟨⟨es, rest'⟩, hread, heq⟩ := Option.map_eq_some_iff.mp h
        cases heq
        obtain ⟨a, as, rfl, rfl⟩ := ih.members hread
        simp [tokens, memberTokens]
      all_goals
        cases h
        try rfl
    · rw [readElements] at h
      split at h
      · next hv =>
          obtain ⟨⟨ws, rest'⟩, hrest, heq⟩ := Option.map_eq_some_iff.mp h
          cases heq
          obtain ⟨w, ws, rfl, rfl⟩ := ih.elements hrest
          exact ⟨_, _, rfl, by simp [ih.value hv, elementTokens]⟩
      · next hv =>
          cases h
          exact ⟨_, _, rfl, by simp [ih.value hv, elementTokens]⟩
      · cases h
    · rw [readMembers.eq_def] at h
      split at h
      · next heq =>
          cases heq
          split at h
          · next hv =>
              obtain ⟨⟨as, rest'⟩, hrest, heq⟩ := Option.map_eq_some_iff.mp h
              cases heq
              obtain ⟨a, as, rfl, rfl⟩ := ih.members hrest
              exact ⟨_, _, rfl, by simp [ih.value hv, memberTokens]⟩
          · next hv =>
              cases h
              exact ⟨_, _, rfl, by simp [ih.value hv, memberTokens]⟩
          · cases h
      · cases h

/-- The tree of a sequence is the value with these tokens. -/
theorem readTree_eq_some_iff {ts : List Token} {v : Json} :
    readTree ts = some v ↔ ts = tokens v := by
  constructor
  · intro h
    rw [readTree] at h
    split at h
    · next hread =>
        cases h
        rw [(readsTokens _).value hread, List.append_nil]
    · cases h
  · rintro rfl
    exact readTree_tokens v

/-! ## Scanning what is printed -/

theorem scanFrom_eq_drop (skip : ℕ) (s : Text) : scanFrom skip s = scan (s.drop skip) := by
  induction s generalizing skip with
  | nil => cases skip <;> rfl
  | cons c rest ih =>
    cases skip with
    | zero => rfl
    | succ skip => rw [scanFrom, ih, List.drop_succ_cons]

theorem scan_blank {c : Char} (h : isBlank c = true) (s : Text) : scan (c :: s) = scan s := by
  rw [scan, scanFrom, if_pos h]
  rfl

theorem scan_blanks {blanks : Text} (h : ∀ c ∈ blanks, isBlank c = true) (s : Text) :
    scan (blanks ++ s) = scan s := by
  induction blanks with
  | nil => rfl
  | cons c blanks ih =>
    rw [List.cons_append, scan_blank (h c List.mem_cons_self),
      ih fun d hd => h d (List.mem_cons_of_mem c hd)]

/-- One token. -/
theorem scan_token {c : Char} {cs after : Text} {token : Token} (hblank : isBlank c = false)
    (h : readToken (c :: (cs ++ after)) = some (token, after)) :
    scan (c :: (cs ++ after)) = (scan after).map (token :: ·) := by
  have hskip : (cs ++ after).length - after.length = cs.length := by
    rw [List.length_append, Nat.add_sub_cancel]
  rw [scan, scanFrom, hblank, h]
  simp only [Bool.false_eq_true, if_false, hskip, scanFrom_eq_drop, List.drop_left]

theorem scan_mark {c : Char} {s : Text} {token : Token} (hblank : isBlank c = false)
    (h : readToken (c :: s) = some (token, s)) : scan (c :: s) = (scan s).map (token :: ·) :=
  @scan_token c [] s token hblank h

theorem stringToken_toNat (s : String) : stringToken (s.toList.map Char.toNat) = .string s := by
  have hno : ∀ t : Text, hasLone (t.map Char.toNat) = false := by
    intro t
    induction t with
    | nil => rfl
    | cons c t ih =>
      obtain ⟨hc, -⟩ := Json.charOfUnit_toNat c
      cases t with
      | nil => exact hc
      | cons d t =>
        obtain ⟨hhigh, -⟩ := Bool.or_eq_false_iff.mp hc
        rw [List.map_cons, List.map_cons, hasLone, hhigh, Bool.false_and,
          if_neg Bool.false_ne_true, ← List.map_cons, ih]
        simpa [hhigh] using hc
  rw [stringToken, hno, Json.joinPairs_toNat, String.ofList_toList]
  rfl

theorem scan_quote (s : String) (rest : Text) :
    scan (quote s ++ rest) = (scan rest).map (.string s :: ·) := by
  have hread : readToken ('"' :: (s.toList.flatMap jsonEscape ++ ['"'] ++ rest)) =
      some (.string s, rest) := by
    rw [List.append_assoc, List.singleton_append, readToken, Json.readUnits_flatMap,
      Option.map_some, stringToken_toNat]
  exact scan_token (by decide) hread

/-- The text of a number. -/
def IsNumber (text : Text) : Prop :=
  (∀ c ∈ text, isNumberChar c = true) ∧ isNumeral text = true

theorem readToken_number {c : Char} (h : isNumberChar c = true) (s : Text) :
    readToken (c :: s) =
      if isNumeral ((c :: s).takeWhile isNumberChar) then
        some (.number (String.ofList ((c :: s).takeWhile isNumberChar)),
          (c :: s).dropWhile isNumberChar)
      else none := by
  rw [readToken]
  all_goals
    rintro rest heq
    cases heq
    exact absurd h (by decide)

theorem scan_number {text : String} (h : IsNumber text.toList) {rest : Text} (hrest : Stops rest) :
    scan (text.toList ++ rest) = (scan rest).map (.number text :: ·) := by
  obtain ⟨hchars, hnumeral⟩ := h
  cases htext : text.toList with
  | nil =>
    rw [htext] at hnumeral
    exact absurd hnumeral (by decide)
  | cons c cs =>
    rw [htext] at hchars hnumeral
    have hstop : rest.takeWhile isNumberChar = [] ∧ rest.dropWhile isNumberChar = rest := by
      cases rest with
      | nil => exact ⟨rfl, rfl⟩
      | cons d rest =>
        have hd : isNumberChar d = false := hrest d rfl
        exact ⟨by rw [List.takeWhile_cons, hd]; rfl, by rw [List.dropWhile_cons, hd]; rfl⟩
    have htake : (c :: (cs ++ rest)).takeWhile isNumberChar = c :: cs := by
      rw [← List.cons_append, List.takeWhile_append_of_pos hchars, hstop.1, List.append_nil]
    have hdrop : (c :: (cs ++ rest)).dropWhile isNumberChar = rest := by
      rw [← List.cons_append, List.dropWhile_append_of_pos hchars, hstop.2]
    have hc := hchars c List.mem_cons_self
    refine scan_token (Json.isNumberChar_head hc).1 ?_
    rw [readToken_number hc, htake, hdrop, if_pos hnumeral, ← htext, String.ofList_toList]

theorem isBlank_indentation (depth : ℕ) : ∀ c ∈ '\n' :: indentation depth, isBlank c = true := by
  intro c hc
  rcases List.mem_cons.mp hc with rfl | hc
  · decide
  · rw [List.eq_of_mem_replicate hc]
    decide

/-- The numbers in a value can be read. -/
def Numeric (v : Json) : Prop := ∀ text, .number text ∈ v.nodes → IsNumber text.toList

theorem Numeric.part {v w : Json} (h : Numeric v) (hw : w ∈ v.parts) : Numeric w :=
  fun text htext => h text (Json.nodes_subset (Json.part_mem_nodes (Json.self_mem_nodes v) hw) htext)

/-- The printed value is its tokens. -/
def Scans (v : Json) : Prop := ∀ depth rest, Stops rest →
  scan (v.toDoc.pretty depth ++ rest) = (scan rest).map (tokens v ++ ·)

theorem scan_separator {first : Bool} (depth : ℕ) (s : Text) :
    scan ((if first then [] else [',']) ++ '\n' :: indentation depth ++ s) =
      (scan s).map ((if first then [] else [.comma]) ++ ·) := by
  have hblank : scan ('\n' :: indentation depth ++ s) = scan s :=
    scan_blanks (isBlank_indentation depth) s
  cases first with
  | true =>
    rw [if_pos rfl, if_pos rfl, List.nil_append, hblank]
    simp
  | false =>
    have hcomma : scan (',' :: ('\n' :: indentation depth ++ s)) =
        (scan ('\n' :: indentation depth ++ s)).map (.comma :: ·) :=
      scan_mark (by decide) rfl
    rw [if_neg Bool.false_ne_true, if_neg Bool.false_ne_true, List.append_assoc,
      List.singleton_append, hcomma, hblank]
    rfl

theorem stops_items {vs : Docs} {depth : ℕ} {rest : Text} (h : Stops rest) :
    Stops (vs.pretty depth false ++ rest) := by
  cases vs with
  | nil => exact h
  | cons label doc docs =>
    intro c hc
    simp [Docs.pretty] at hc
    subst hc
    decide

theorem scan_values {vs : List Json} (h : ∀ v ∈ vs, Scans v) (depth : ℕ) (first : Bool)
    {tail rest : Text} (htail : Stops tail)
    (hclose : scan tail = (scan rest).map (.closeArray :: ·)) :
    scan ((Json.valueDocs vs).pretty depth first ++ tail) =
      (scan rest).map (elementTokens first vs ++ ·) := by
  induction vs generalizing first with
  | nil => exact hclose
  | cons v vs ih =>
    have hrest := ih (fun w hw => h w (List.mem_cons_of_mem v hw)) false
    have hsplit : (Json.valueDocs (v :: vs)).pretty depth first ++ tail =
        (if first then [] else [',']) ++ '\n' :: indentation depth ++
          (v.toDoc.pretty depth ++ ((Json.valueDocs vs).pretty depth false ++ tail)) := by
      simp [Json.valueDocs, Docs.pretty]
    rw [hsplit, scan_separator, h v List.mem_cons_self depth _ (stops_items htail), hrest]
    simp [elementTokens, Function.comp_def]

theorem scan_members {es : List (String × Json)} (h : ∀ e ∈ es, Scans e.2) (depth : ℕ)
    (first : Bool) {tail rest : Text} (htail : Stops tail)
    (hclose : scan tail = (scan rest).map (.closeObject :: ·)) :
    scan ((Json.memberDocs es).pretty depth first ++ tail) =
      (scan rest).map (memberTokens first es ++ ·) := by
  induction es generalizing first with
  | nil => exact hclose
  | cons e es ih =>
    have hrest := ih (fun a ha => h a (List.mem_cons_of_mem e ha)) false
    have hsplit : (Json.memberDocs (e :: es)).pretty depth first ++ tail =
        (if first then [] else [',']) ++ '\n' :: indentation depth ++
          (quote e.1 ++ ':' :: ([' '] ++ (e.2.toDoc.pretty depth ++
            ((Json.memberDocs es).pretty depth false ++ tail)))) := by
      obtain ⟨key, v⟩ := e
      simp [Json.memberDocs, Json.memberDoc, Docs.pretty]
    have hcolon : ∀ s, scan (':' :: ([' '] ++ s)) = (scan s).map (.colon :: ·) := by
      intro s
      have hblank : scan ([' '] ++ s) = scan s := scan_blank (by decide) s
      rw [← hblank]
      exact scan_mark (by decide) rfl
    rw [hsplit, scan_separator, scan_quote, hcolon,
      h e List.mem_cons_self depth _ (stops_items htail), hrest]
    simp [memberTokens, Function.comp_def]

/-- The end of a block that is not empty. -/
theorem scan_closing {c : Char} {token : Token} {rest : Text} (hblank : isBlank c = false)
    (h : readToken (c :: rest) = some (token, rest)) (depth : ℕ) :
    scan ('\n' :: indentation depth ++ c :: rest) = (scan rest).map (token :: ·) := by
  rw [scan_blanks (isBlank_indentation depth), scan_mark hblank h]

theorem scans {v : Json} (h : Numeric v) : Scans v := by
  have hnewline : ∀ depth rest, Stops ('\n' :: indentation depth ++ rest) := by
    intro depth rest c hc
    cases hc
    decide
  induction v using json_induction with
  | null =>
    intro depth rest _
    exact @scan_token 'n' "ull".toList rest (.literal none) (by decide) rfl
  | bool b =>
    intro depth rest _
    cases b with
    | true => exact @scan_token 't' "rue".toList rest (.literal (some true)) (by decide) rfl
    | false => exact @scan_token 'f' "alse".toList rest (.literal (some false)) (by decide) rfl
  | number text =>
    intro depth rest hrest
    exact scan_number (h text (Json.self_mem_nodes _)) hrest
  | string s =>
    intro depth rest _
    exact scan_quote s rest
  | array values ih =>
    intro depth rest _
    have hopen : ∀ s, scan ('[' :: s) = (scan s).map (.openArray :: ·) := fun s =>
      scan_mark (by decide) rfl
    cases values with
    | nil =>
      have hclose : scan (']' :: rest) = (scan rest).map (.closeArray :: ·) :=
        scan_mark (by decide) rfl
      refine (hopen (']' :: rest)).trans ?_
      rw [hclose, Option.map_map]
      rfl
    | cons v vs =>
      have hclose := @scan_closing ']' .closeArray rest (by decide) rfl depth
      have hitems := scan_values (fun w hw => ih w hw (h.part hw)) (depth + 1) true
        (hnewline depth (']' :: rest)) hclose
      have hsplit : (Json.array (v :: vs)).toDoc.pretty depth ++ rest =
          '[' :: ((Json.valueDocs (v :: vs)).pretty (depth + 1) true ++
            ('\n' :: indentation depth ++ ']' :: rest)) := by
        simp [Json.toDoc, Doc.pretty, Json.valueDocs, Docs.isNil]
      rw [hsplit, hopen, hitems, Option.map_map]
      rfl
  | object members ih =>
    intro depth rest _
    have hopen : ∀ s, scan ('\x7b' :: s) = (scan s).map (.openObject :: ·) := fun s =>
      scan_mark (by decide) rfl
    cases members with
    | nil =>
      have hclose : scan ('\x7d' :: rest) = (scan rest).map (.closeObject :: ·) :=
        scan_mark (by decide) rfl
      refine (hopen ('\x7d' :: rest)).trans ?_
      rw [hclose, Option.map_map]
      rfl
    | cons e es =>
      have hclose := @scan_closing '\x7d' .closeObject rest (by decide) rfl depth
      have hitems := scan_members
        (fun a ha => ih a ha (h.part (List.mem_map_of_mem ha))) (depth + 1) true
        (hnewline depth ('\x7d' :: rest)) hclose
      have hsplit : (Json.object (e :: es)).toDoc.pretty depth ++ rest =
          '\x7b' :: ((Json.memberDocs (e :: es)).pretty (depth + 1) true ++
            ('\n' :: indentation depth ++ '\x7d' :: rest)) := by
        simp [Json.toDoc, Doc.pretty, Json.memberDocs, Docs.isNil]
      rw [hsplit, hopen, hitems, Option.map_map]
      rfl

/-- What is printed is read as the tokens of the value. -/
theorem scan_pretty {v : Json} (h : Numeric v) : scan v.pretty = some (tokens v) := by
  have hscan := scans h 0 [] nofun
  rw [List.append_nil] at hscan
  rw [Json.pretty, hscan, scan, scanFrom, Option.map_some, List.append_nil]

/-! ## Numbers of a text -/

theorem isNumber_of_readToken {s after : Text} {text : String}
    (h : readToken s = some (.number text, after)) : IsNumber text.toList := by
  rw [readToken.eq_def] at h
  split at h
  case h_10 =>
    obtain ⟨⟨units, rest⟩, -, heq⟩ := Option.map_eq_some_iff.mp h
    have htoken : stringToken units = .number text := congrArg Prod.fst heq
    rw [stringToken] at htoken
    split_ifs at htoken
  case h_11 =>
    dsimp only at h
    split_ifs at h with hnumeral
    cases h
    rw [IsNumber, String.toList_ofList]
    exact ⟨fun c hc => List.mem_takeWhile_imp hc, hnumeral⟩
  all_goals cases h

theorem isNumber_of_scanFrom {s : Text} {skip : ℕ} {ts : List Token} {text : String}
    (h : scanFrom skip s = some ts) (htext : .number text ∈ ts) : IsNumber text.toList := by
  induction s generalizing skip ts with
  | nil =>
    have hnil : scanFrom skip [] = some [] := by cases skip <;> rfl
    rw [hnil] at h
    cases h
    exact absurd htext List.not_mem_nil
  | cons c rest ih =>
    cases skip with
    | succ skip => exact ih h htext
    | zero =>
      rw [scanFrom] at h
      split_ifs at h
      · exact ih h htext
      · split at h
        · cases h
        · next hread =>
            obtain ⟨ts', hts', rfl⟩ := Option.map_eq_some_iff.mp h
            rcases List.mem_cons.mp htext with rfl | htext
            · exact isNumber_of_readToken hread
            · exact ih hts' htext

theorem tokens_subset_elements {v : Json} {vs : List Json} (h : v ∈ vs) (first : Bool) :
    tokens v ⊆ elementTokens first vs := by
  induction vs generalizing first with
  | nil => cases h
  | cons w ws ih =>
    intro t ht
    rw [elementTokens, List.append_assoc]
    rcases List.mem_cons.mp h with rfl | h
    · exact List.mem_append_right _ (List.mem_append_left _ ht)
    · exact List.mem_append_right _ (List.mem_append_right _ (ih h false ht))

theorem tokens_subset_members {e : String × Json} {es : List (String × Json)} (h : e ∈ es)
    (first : Bool) : tokens e.2 ⊆ memberTokens first es := by
  induction es generalizing first with
  | nil => cases h
  | cons a es ih =>
    intro t ht
    rw [memberTokens, List.append_assoc]
    refine List.mem_append_right _ ?_
    rcases List.mem_cons.mp h with rfl | h
    · rw [pairTokens_eq]
      exact List.mem_append_left _ (List.mem_cons_of_mem _ (List.mem_cons_of_mem _ ht))
    · exact List.mem_append_right _ (ih h false ht)

theorem number_mem_tokens {v : Json} {text : String} (h : .number text ∈ v.nodes) :
    .number text ∈ tokens v := by
  induction v using json_induction with
  | null | bool b | string s =>
    rcases Json.mem_nodes.mp h with h | ⟨u, hu, -⟩
    · cases h
    · cases hu
  | number text' =>
    rcases Json.mem_nodes.mp h with h | ⟨u, hu, -⟩
    · cases h
      exact List.mem_singleton_self _
    · cases hu
  | array values ih =>
    rcases Json.mem_nodes.mp h with h | ⟨u, hu, h⟩
    · cases h
    · rw [tokens]
      exact List.mem_cons_of_mem _ (tokens_subset_elements hu true (ih u hu h))
  | object members ih =>
    rcases Json.mem_nodes.mp h with h | ⟨u, hu, h⟩
    · cases h
    · obtain ⟨e, he, rfl⟩ := List.mem_map.mp hu
      rw [tokens]
      exact List.mem_cons_of_mem _ (tokens_subset_members he true (ih e he h))

/-- The tree of a text. -/
def readJson (text : Text) : Option Json := (scan text).bind readTree

theorem readJson_eq_some_iff {text : Text} {v : Json} :
    readJson text = some v ↔ scan text = some (tokens v) := by
  rw [readJson, Option.bind_eq_some_iff]
  constructor
  · rintro ⟨ts, hscan, htree⟩
    rw [hscan, readTree_eq_some_iff.mp htree]
  · intro hscan
    exact ⟨_, hscan, readTree_tokens v⟩

theorem numeric_of_readJson {text : Text} {v : Json} (h : readJson text = some v) : Numeric v :=
  fun _ hmem => isNumber_of_scanFrom (readJson_eq_some_iff.mp h) (number_mem_tokens hmem)

end Voleeo.JsonTokens
