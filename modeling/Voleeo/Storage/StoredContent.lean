import Voleeo.JsonTokens
import Voleeo.LineSplit
import Voleeo.Storage.BodySearch
import Voleeo.Storage.FailedAppends
import Voleeo.Storage.FoldEnds

/-!
# What a large body is stored as

A body that is JSON goes through a value of the reader: the members of an object are
sorted and a key has its last value, and a number that is no machine integer becomes a
double. The text of that value is stored, and every other body as it is.
-/
namespace Voleeo.Responses
open JsonTokens (scan tokens readJson Numeric IsNumber json_induction)
open Json (insertAll insertMember Sorted)
open Storage (validateId)

/-- How the nearest double of a number is printed; none beyond the range of doubles. -/
structure FloatPrinter where
  print : Text → Option Text
  isNumber : ∀ {text out}, print text = some out → IsNumber out

section
variable (f : FloatPrinter)

/-- Integers of 64 bits are printed as they are, and negative zero is a double. -/
def printNumber : Text → Option Text
  | '-' :: digits =>
    if digits.all Char.isDigit && digits ≠ ['0'] && digitsValue digits ≤ 2 ^ 63 then
      some ('-' :: digits)
    else f.print ('-' :: digits)
  | text =>
    if text.all Char.isDigit && digitsValue text < 2 ^ 64 then some text else f.print text

mutual

/-- The value that is read, each number as it is printed; none when a number is out of range. -/
def reprint : Json → Option Json
  | .null => some .null
  | .bool b => some (.bool b)
  | .number text => (printNumber f text.toList).map fun out => .number (String.ofList out)
  | .string s => some (.string s)
  | .array values => (reprintAll values).map .array
  | .object members => (reprintMembers members).map fun members => .object (insertAll [] members)

def reprintAll : List Json → Option (List Json)
  | [] => some []
  | v :: vs => do
      let v ← reprint v
      let vs ← reprintAll vs
      return v :: vs

def reprintMembers : List (String × Json) → Option (List (String × Json))
  | [] => some []
  | e :: es => do
      let e ← reprintMember e
      let es ← reprintMembers es
      return e :: es

def reprintMember : String × Json → Option (String × Json)
  | (key, v) => (reprint v).map fun v => (key, v)

end

end

mutual

/-- How deep blocks are nested. -/
def depth : Json → ℕ
  | .null => 0
  | .bool _ => 0
  | .number _ => 0
  | .string _ => 0
  | .array values => depthAll values + 1
  | .object members => depthMembers members + 1

def depthAll : List Json → ℕ
  | [] => 0
  | v :: vs => max (depth v) (depthAll vs)

def depthMembers : List (String × Json) → ℕ
  | [] => 0
  | e :: es => max (depthMember e) (depthMembers es)

def depthMember : String × Json → ℕ
  | (_, v) => depth v

end

section
variable (f : FloatPrinter)

def recursionLimit : ℕ := 128

def fromStr (text : Text) : Option Json :=
  match readJson text with
  | none => none
  | some v => if depth v < recursionLimit then reprint f v else none

def formatForStorage (text : String) : String :=
  match fromStr f text.toList with
  | some v => String.ofList v.pretty
  | none => text

end

/-- The lines that the viewer gets. -/
def bodyWindow (workspaceId responseId : String) (startLine count : ℕ) : OnHistory (List Text) := do
  let path ← lift (bodyFile workspaceId responseId)
  match (← Fallible.get).bodies path with
  | some text => return (BodyWindow.window (BodyWindow.parse text.toList) startLine count).lines
  | none => lift (.error (.storage "No such file or directory"))

/-! ## What is kept -/

/-- The same tokens, and the same text if it is no JSON. -/
def SameContent (received returned : Text) : Prop :=
  scan returned = scan received ∧ (readJson received = none → returned = received)

/-- In each object the keys ascend, and each number is printed as it is written. -/
structure PrintsAlike (f : FloatPrinter) (v : Json) : Prop where
  sorted : ∀ members, .object members ∈ v.nodes → Sorted members
  number : ∀ text, .number text ∈ v.nodes → printNumber f text.toList = some text.toList

/-- What is read as a value is kept by it. -/
def StoresAsIs (f : FloatPrinter) (text : Text) : Prop :=
  ∀ v, readJson text = some v → depth v < recursionLimit →
    (∃ text, .number text ∈ v.nodes ∧ printNumber f text.toList = none) ∨ PrintsAlike f v

variable {f : FloatPrinter}

theorem reprintAll_eq_some {vs ws : List Json} : reprintAll f vs = some ws ↔
    List.Forall₂ (fun v w => reprint f v = some w) vs ws := by
  induction vs generalizing ws with
  | nil =>
    rw [reprintAll, List.forall₂_nil_left_iff, Option.some.injEq]
    exact eq_comm
  | cons v vs ih =>
    rw [reprintAll]
    constructor
    · intro h
      obtain ⟨w, hw, h⟩ := Option.bind_eq_some_iff.mp h
      obtain ⟨ws, hws, h⟩ := Option.bind_eq_some_iff.mp h
      cases h
      exact .cons hw (ih.mp hws)
    · rintro (_ | ⟨hw, hws⟩)
      rw [hw, ih.mpr hws]
      rfl

theorem reprintMembers_eq_some {es as : List (String × Json)} : reprintMembers f es = some as ↔
    List.Forall₂ (fun e a => a.1 = e.1 ∧ reprint f e.2 = some a.2) es as := by
  induction es generalizing as with
  | nil =>
    rw [reprintMembers, List.forall₂_nil_left_iff, Option.some.injEq]
    exact eq_comm
  | cons e es ih =>
    obtain ⟨key, v⟩ := e
    rw [reprintMembers, reprintMember]
    constructor
    · intro h
      obtain ⟨a, ha, h⟩ := Option.bind_eq_some_iff.mp h
      obtain ⟨as, has, h⟩ := Option.bind_eq_some_iff.mp h
      obtain ⟨w, hw, rfl⟩ := Option.map_eq_some_iff.mp ha
      cases h
      exact .cons ⟨rfl, hw⟩ (ih.mp has)
    · rintro (_ | ⟨⟨hkey, hw⟩, has⟩)
      change _ = key at hkey
      rw [hw, ih.mpr has, ← hkey]
      rfl

/-! ## Objects that are sorted already -/

theorem insertMember_last {key : String} {v : Json} {base : List (String × Json)}
    (h : ∀ e ∈ base, e.1 < key) : insertMember key v base = base ++ [(key, v)] := by
  induction base with
  | nil => rfl
  | cons e rest ih =>
    have hlt := h e List.mem_cons_self
    rw [insertMember, if_neg (not_lt_of_gt hlt), if_neg hlt.ne',
      ih fun a ha => h a (List.mem_cons_of_mem e ha)]
    rfl

theorem insertAll_of_sorted {base members : List (String × Json)} (h : Sorted (base ++ members)) :
    insertAll base members = base ++ members := by
  induction members generalizing base with
  | nil => rw [List.append_nil]; rfl
  | cons e rest ih =>
    have hlast : insertMember e.1 e.2 base = base ++ [e] :=
      insertMember_last fun a ha => (List.pairwise_append.mp h).2.2 a ha e List.mem_cons_self
    have hassoc : base ++ e :: rest = base ++ [e] ++ rest := by simp
    rw [hassoc] at h ⊢
    rw [insertAll, List.foldl_cons, hlast]
    exact ih h

theorem mem_insertAll {e : String × Json} {base members : List (String × Json)}
    (h : e ∈ insertAll base members) : e ∈ base ∨ e ∈ members := by
  induction members generalizing base with
  | nil => exact .inl h
  | cons a rest ih =>
    rcases ih h with hbase | hrest
    · rcases Json.mem_insertMember hbase with rfl | hbase
      · exact .inr List.mem_cons_self
      · exact .inl hbase
    · exact .inr (List.mem_cons_of_mem a hrest)

theorem sorted_of_keys {es as : List (String × Json)} (h : es.map (·.1) = as.map (·.1))
    (hes : Sorted es) : Sorted as := by
  have hkeys : (es.map (·.1)).Pairwise (· < ·) := List.pairwise_map.mpr hes
  rw [h] at hkeys
  exact List.pairwise_map.mp hkeys

theorem keys_of_forall₂ {es as : List (String × Json)}
    (h : List.Forall₂ (fun e a => a.1 = e.1 ∧ reprint f e.2 = some a.2) es as) :
    es.map (·.1) = as.map (·.1) := by
  induction h with
  | nil => rfl
  | cons hhead _ ih => rw [List.map_cons, List.map_cons, ih, hhead.1]

/-! ## Values that are printed alike -/

theorem PrintsAlike.part {v w : Json} (h : PrintsAlike f v) (hw : w ∈ v.parts) :
    PrintsAlike f w := by
  have hsub := Json.nodes_subset (Json.part_mem_nodes (Json.self_mem_nodes v) hw)
  exact ⟨fun members hmem => h.sorted members (hsub hmem),
    fun text hmem => h.number text (hsub hmem)⟩

theorem reprint_of_alike {v : Json} (h : PrintsAlike f v) : reprint f v = some v := by
  induction v using json_induction with
  | null | bool b | string s => rfl
  | number text =>
    rw [reprint, h.number text (Json.self_mem_nodes _), Option.map_some, String.ofList_toList]
  | array values ih =>
    have hall : reprintAll f values = some values :=
      reprintAll_eq_some.mpr (List.forall₂_same.mpr fun v hv => ih v hv (h.part hv))
    rw [reprint, hall, Option.map_some]
  | object members ih =>
    have hall : reprintMembers f members = some members :=
      reprintMembers_eq_some.mpr (List.forall₂_same.mpr fun e he =>
        ⟨rfl, ih e he (h.part (List.mem_map_of_mem he))⟩)
    have hsorted := h.sorted members (Json.self_mem_nodes _)
    rw [reprint, hall, Option.map_some, @insertAll_of_sorted [] members hsorted]
    rfl

/-- A value is printed alike when its parts are, and itself as it stands. -/
theorem alike_of_parts {v : Json} (h : ∀ w ∈ v.parts, PrintsAlike f w)
    (hsorted : ∀ members, v = .object members → Sorted members)
    (hnumber : ∀ text, v = .number text → printNumber f text.toList = some text.toList) :
    PrintsAlike f v := by
  refine ⟨fun members hmem => ?_, fun text hmem => ?_⟩
  · rcases Json.mem_nodes.mp hmem with heq | ⟨w, hw, hmem⟩
    · exact hsorted members heq.symm
    · exact (h w hw).sorted members hmem
  · rcases Json.mem_nodes.mp hmem with heq | ⟨w, hw, hmem⟩
    · exact hnumber text heq.symm
    · exact (h w hw).number text hmem

theorem alike_of_reprint {v : Json} (h : reprint f v = some v) : PrintsAlike f v := by
  induction v using json_induction with
  | null | bool b | string s => exact alike_of_parts nofun nofun nofun
  | number text =>
    refine alike_of_parts nofun nofun ?_
    rintro text' heq
    cases heq
    obtain ⟨out, hout, heq⟩ := Option.map_eq_some_iff.mp h
    have htext : String.ofList out = text := Json.number.inj heq
    rw [hout, ← htext, String.toList_ofList]
  | array values ih =>
    obtain ⟨ws, hws, heq⟩ := Option.map_eq_some_iff.mp h
    rw [Json.array.inj heq] at hws
    have hall := List.forall₂_same.mp (reprintAll_eq_some.mp hws)
    exact alike_of_parts (fun w hw => ih w hw (hall w hw)) nofun nofun
  | object members ih =>
    obtain ⟨as, has, heq⟩ := Option.map_eq_some_iff.mp h
    have hmembers : insertAll [] as = members := Json.object.inj heq
    have hsorted : Sorted members := hmembers ▸ Json.sorted_nil.insertAll
    have hpairs := reprintMembers_eq_some.mp has
    -- the keys of what is read are those of the object, so nothing moves
    have hsame : as = members := by
      rw [← hmembers]
      exact (@insertAll_of_sorted [] as (sorted_of_keys (keys_of_forall₂ hpairs) hsorted)).symm
    rw [hsame] at hpairs
    have hall := List.forall₂_same.mp hpairs
    refine alike_of_parts (fun w hw => ?_) (fun members' heq => ?_) nofun
    · obtain ⟨e, he, rfl⟩ := List.mem_map.mp hw
      exact ih e he (hall e he).2
    · cases heq
      exact hsorted

/-! ## Numbers out of range -/

theorem exists_reprintAll {vs : List Json} :
    (∃ ws, reprintAll f vs = some ws) ↔ ∀ v ∈ vs, ∃ w, reprint f v = some w := by
  induction vs with
  | nil => exact ⟨fun _ => nofun, fun _ => ⟨[], rfl⟩⟩
  | cons v vs ih =>
    rw [List.forall_mem_cons, ← ih]
    constructor
    · rintro ⟨ws, hws⟩
      cases reprintAll_eq_some.mp hws with
      | cons hw hrest => exact ⟨⟨_, hw⟩, _, reprintAll_eq_some.mpr hrest⟩
    · rintro ⟨⟨w, hw⟩, ws, hws⟩
      exact ⟨w :: ws, reprintAll_eq_some.mpr (.cons hw (reprintAll_eq_some.mp hws))⟩

theorem exists_reprintMembers {es : List (String × Json)} :
    (∃ as, reprintMembers f es = some as) ↔ ∀ e ∈ es, ∃ w, reprint f e.2 = some w := by
  induction es with
  | nil => exact ⟨fun _ => nofun, fun _ => ⟨[], rfl⟩⟩
  | cons e es ih =>
    rw [List.forall_mem_cons, ← ih]
    constructor
    · rintro ⟨as, has⟩
      cases reprintMembers_eq_some.mp has with
      | cons ha hrest => exact ⟨⟨_, ha.2⟩, _, reprintMembers_eq_some.mpr hrest⟩
    · rintro ⟨⟨w, hw⟩, as, has⟩
      exact ⟨(e.1, w) :: as,
        reprintMembers_eq_some.mpr (.cons ⟨rfl, hw⟩ (reprintMembers_eq_some.mp has))⟩

theorem inRange_iff {v : Json} {P : String → Prop} (hno : ∀ text, v ≠ .number text) :
    (∀ text, .number text ∈ v.nodes → P text) ↔
      ∀ w ∈ v.parts, ∀ text, .number text ∈ w.nodes → P text := by
  constructor
  · intro h w hw text htext
    exact h text (Json.mem_nodes.mpr (.inr ⟨w, hw, htext⟩))
  · intro h text htext
    rcases Json.mem_nodes.mp htext with heq | ⟨w, hw, htext⟩
    · exact absurd heq.symm (hno text)
    · exact h w hw text htext

/-- A value is read unless a number in it is out of range. -/
theorem exists_reprint {v : Json} : (∃ w, reprint f v = some w) ↔
    ∀ text, .number text ∈ v.nodes → printNumber f text.toList ≠ none := by
  induction v using json_induction with
  | null | bool b | string s =>
    refine ⟨fun _ => (inRange_iff (by intro text h; cases h)).mpr nofun, fun _ => ⟨_, rfl⟩⟩
  | number text =>
    constructor
    · rintro ⟨w, hw⟩ text' htext' hnone
      rcases Json.mem_nodes.mp htext' with heq | ⟨w, hw, -⟩
      · cases heq
        rw [reprint, hnone] at hw
        cases hw
      · cases hw
    · intro h
      obtain ⟨out, hout⟩ := Option.ne_none_iff_exists'.mp (h text (Json.self_mem_nodes _))
      exact ⟨_, by rw [reprint, hout]; rfl⟩
  | array values ih =>
    have hall : (∃ w, reprint f (.array values) = some w) ↔
        ∃ ws, reprintAll f values = some ws := by
      simp only [reprint, Option.map_eq_some_iff]
      exact ⟨fun ⟨_, ws, hws, _⟩ => ⟨ws, hws⟩, fun ⟨ws, hws⟩ => ⟨_, ws, hws, rfl⟩⟩
    rw [inRange_iff (by intro text h; cases h), hall, exists_reprintAll]
    exact forall₂_congr ih
  | object members ih =>
    have hall : (∃ w, reprint f (.object members) = some w) ↔
        ∃ as, reprintMembers f members = some as := by
      simp only [reprint, Option.map_eq_some_iff]
      exact ⟨fun ⟨_, as, has, _⟩ => ⟨as, has⟩, fun ⟨as, has⟩ => ⟨_, as, has, rfl⟩⟩
    rw [inRange_iff (by intro text h; cases h), hall, exists_reprintMembers]
    simp only [Json.parts, List.forall_mem_map]
    exact forall₂_congr ih

theorem isNumber_printNumber {text out : Text} (h : IsNumber text)
    (hout : printNumber f text = some out) : IsNumber out := by
  rw [printNumber.eq_def] at hout
  split at hout
  all_goals
    split_ifs at hout
    · cases hout
      exact h
    · exact f.isNumber hout

theorem numeric_of_parts {v : Json} (h : ∀ w ∈ v.parts, Numeric w)
    (hnumber : ∀ text, v = .number text → IsNumber text.toList) : Numeric v := by
  intro text htext
  rcases Json.mem_nodes.mp htext with heq | ⟨w, hw, htext⟩
  · exact hnumber text heq.symm
  · exact h w hw text htext

theorem numeric_reprint {v w : Json} (hv : Numeric v) (h : reprint f v = some w) : Numeric w := by
  induction v using json_induction generalizing w with
  | null | bool b | string s =>
    cases h
    exact hv
  | number text =>
    obtain ⟨out, hout, rfl⟩ := Option.map_eq_some_iff.mp h
    refine numeric_of_parts nofun ?_
    rintro text' heq
    cases heq
    rw [String.toList_ofList]
    exact isNumber_printNumber (hv text (Json.self_mem_nodes _)) hout
  | array values ih =>
    obtain ⟨ws, hws, rfl⟩ := Option.map_eq_some_iff.mp h
    have hpairs := reprintAll_eq_some.mp hws
    refine numeric_of_parts (fun w hw => ?_) (by intro text h; cases h)
    obtain ⟨v, hv', hvw⟩ := exists_of_mem_forall₂ hpairs hw
    exact ih v hv' (hv.part hv') hvw
  | object members ih =>
    obtain ⟨as, has, rfl⟩ := Option.map_eq_some_iff.mp h
    have hpairs := reprintMembers_eq_some.mp has
    refine numeric_of_parts (fun w hw => ?_) (by intro text h; cases h)
    obtain ⟨a, ha, rfl⟩ := List.mem_map.mp hw
    rcases mem_insertAll ha with hnil | ha
    · cases hnil
    · obtain ⟨e, he, hea⟩ := exists_of_mem_forall₂ hpairs ha
      exact ih e he (hv.part (List.mem_map_of_mem he)) hea.2

/-! ## The text that is stored -/

theorem sameContent_iff (f : FloatPrinter) (text : String) :
    SameContent text.toList (formatForStorage f text).toList ↔ StoresAsIs f text.toList := by
  have hunread : fromStr f text.toList = none →
      (SameContent text.toList (formatForStorage f text).toList ↔ StoresAsIs f text.toList) := by
    intro hnone
    rw [formatForStorage, hnone]
    refine ⟨fun _ v hread hdepth => .inl ?_, fun _ => ⟨rfl, fun _ => rfl⟩⟩
    rw [fromStr, hread] at hnone
    simp only [if_pos hdepth] at hnone
    by_contra hno
    obtain ⟨w, hw⟩ := exists_reprint.mpr fun t ht hnone => hno ⟨t, ht, hnone⟩
    exact absurd (hnone.symm.trans hw) nofun
  cases hread : readJson text.toList with
  | none => exact hunread (by rw [fromStr, hread])
  | some v =>
    by_cases hdepth : depth v < recursionLimit
    · cases hvalue : reprint f v with
      | none => exact hunread (by rw [fromStr, hread]; simp only [if_pos hdepth, hvalue])
      | some w =>
        have hfrom : fromStr f text.toList = some w := by
          rw [fromStr, hread]
          simp only [if_pos hdepth, hvalue]
        have hscan := JsonTokens.scan_pretty (numeric_reprint
          (JsonTokens.numeric_of_readJson hread) hvalue)
        rw [formatForStorage, hfrom]
        constructor
        · rintro ⟨hsame, -⟩ v' hread' -
          cases hread.symm.trans hread'
          rw [String.toList_ofList, hscan, JsonTokens.readJson_eq_some_iff.mp hread] at hsame
          have heq : w = v := JsonTokens.tokens_injective (Option.some.inj hsame)
          exact .inr (alike_of_reprint (heq ▸ hvalue))
        · intro h
          rcases h v hread hdepth with ⟨t, ht, hnone⟩ | halike
          · exact absurd hnone (exists_reprint.mp ⟨w, hvalue⟩ t ht)
          · have heq : v = w :=
              Option.some.inj ((reprint_of_alike halike).symm.trans hvalue)
            refine ⟨?_, fun hnone => absurd (hread.symm.trans hnone) nofun⟩
            rw [String.toList_ofList, hscan, JsonTokens.readJson_eq_some_iff.mp hread, heq]
    · refine hunread ?_
      rw [fromStr, hread]
      simp only [if_neg hdepth]

/-! ## Lines -/

/-- The lines of a text, without an empty one behind the last line feed. -/
def textLines (text : Text) : List Text :=
  let (lines, rest) := splitLines '\n' text
  if rest = [] then lines else lines ++ [rest]

theorem textLines_line {l : Text} (h : '\n' ∉ l) (t : Text) :
    textLines (l ++ '\n' :: t) = l :: textLines t := by
  rw [textLines, textLines, splitLines_line h]
  dsimp only
  split_ifs <;> rfl

theorem map_slice_textLines (front text : Text) :
    (BodyWindow.lineRangesFrom front.length front.length text).map
      (BodyWindow.slice (front ++ text)) = textLines text := by
  induction hn : text.length using Nat.strong_induction_on generalizing front text with
  | _ n ih =>
    by_cases hmem : '\n' ∈ text
    · obtain ⟨l, t, rfl, hl⟩ := List.eq_append_cons_of_mem hmem
      have hslice := BodyWindow.slice_append front l ('\n' :: t)
      have hlength : (front ++ (l ++ ['\n'])).length = front.length + l.length + 1 := by
        simp [Nat.add_assoc]
      have hsplit : front ++ (l ++ '\n' :: t) = front ++ (l ++ ['\n']) ++ t := by simp
      have hrest := ih t.length (by rw [← hn]; simp; omega) (front ++ (l ++ ['\n'])) t rfl
      rw [hlength, ← hsplit] at hrest
      rw [BodyWindow.lineRangesFrom_line hl, List.map_cons, hslice, hrest, textLines_line hl]
    · have hslice := BodyWindow.slice_append front text []
      rw [List.append_nil] at hslice
      rw [BodyWindow.lineRangesFrom_last hmem, textLines, splitLines_of_not_mem hmem]
      cases text with
      | nil => simp
      | cons c rest =>
        rw [if_pos (by simp), List.map_singleton, hslice]
        rfl

theorem window_lines (text : Text) (startLine count : ℕ) :
    (BodyWindow.window (BodyWindow.parse text) startLine count).lines =
      ((textLines text).drop startLine).take count := by
  have hlines : (BodyWindow.lineRanges text).map (BodyWindow.slice text) = textLines text :=
    map_slice_textLines [] text
  have hlength : (BodyWindow.lineRanges text).length = (textLines text).length := by
    rw [← hlines, List.length_map]
  have hwindow : (BodyWindow.window (BodyWindow.parse text) startLine count).lines =
      ((textLines text).take (min (min startLine (textLines text).length + count)
        (textLines text).length)).drop (min startLine (textLines text).length) := by
    rw [BodyWindow.window, BodyWindow.parse]
    dsimp only
    rw [List.map_drop, List.map_take, hlines, hlength]
  rw [hwindow, List.drop_take]
  rcases Nat.le_total startLine (textLines text).length with hle | hle
  · rw [Nat.min_eq_left hle]
    rcases Nat.le_total (startLine + count) (textLines text).length with hstop | hstop
    · rw [Nat.min_eq_left hstop, Nat.add_sub_cancel_left]
    · rw [Nat.min_eq_right hstop, List.take_of_length_le (by rw [List.length_drop]),
        List.take_of_length_le (by rw [List.length_drop]; omega)]
  · rw [Nat.min_eq_right hle, List.drop_length, List.drop_eq_nil_of_le hle, List.take_nil,
      List.take_nil]

/-! ## Reading a stored body -/

/-- A backend that stores bodies in this way. -/
def storing (f : FloatPrinter) (b : Backend) : Backend :=
  { b with formatForStorage := formatForStorage f }

theorem sameContent_storing (f : FloatPrinter) (b : Backend) (text : String) :
    SameContent text.toList ((storing f b).formatForStorage text).toList ↔
      StoresAsIs f text.toList := sameContent_iff f text

/-- The body of a response that is appended to the history has the same content when it is read
back, in whole or line by line. -/
def KeepsContent (b : Backend) (c : Completed) (limit : ℕ) (s : History) : Prop :=
  ∃ entry s' text, append b c limit s = (.ok entry, s') ∧
    (readFullBody c.workspaceId entry s').1 = .ok text ∧
    (∀ startLine count, (bodyWindow c.workspaceId entry.id startLine count s').1 =
      .ok (((textLines text.toList).drop startLine).take count)) ∧
    SameContent c.response.body.toList text.toList

/-- The file of a large body is there after its append. -/
theorem bodies_append {b : Backend} {c : Completed} {limit : ℕ} {s : History} (h : InStep b s)
    (hlimit : 0 < limit) (hc : (HistoryOp.append c limit).Valid)
    (hid : validateId (b.newId s.drawn) = .ok ()) (htext : c.response.bodyIsText = true)
    (hlarge : c.response.body.utf8ByteSize > windowThreshold) :
    ∃ entry s', append b c limit s = (.ok entry, s') ∧ entry.response.bodyWindowed = true ∧
      bodyFile c.workspaceId entry.id = .ok (c.workspaceId, entry.id) ∧
      s'.bodies (c.workspaceId, entry.id) = some (b.formatForStorage c.response.body) := by
  obtain ⟨hws, hreq, hinline⟩ := hc
  have hrun := append_stored h hlimit hws hreq hid hinline
  have hwindowed : (stored b.formatForStorage (b.newId s.drawn) (b.now s.drawn)
      c).response.bodyWindowed = true :=
    (bodyWindowed_stored hinline).mpr ⟨htext, hlarge⟩
  have hentry : (stored b.formatForStorage (b.newId s.drawn) (b.now s.drawn) c).id =
      b.newId s.drawn := rfl
  generalize stored b.formatForStorage (b.newId s.drawn) (b.now s.drawn) c = entry
    at hrun hwindowed hentry
  have hvalid : validateId entry.id = .ok () := hentry ▸ hid
  refine ⟨entry, _, hrun, hwindowed, (bodyFile_of_valid hws hvalid).1, ?_⟩
  have hprepend := h.prepend c.key (b.formatForStorage c.response.body) hentry hvalid
  have hsplit : ((s.prepend c.key entry (b.formatForStorage c.response.body)).entries c.key).getD
      [] = (some ((entry :: (s.entries c.key).getD []).take limit)).getD [] ++
        (entry :: (s.entries c.key).getD []).drop limit := by
    simp [History.prepend, List.take_append_drop]
  have hfirst : entry ∈ (((s.prepend c.key entry (b.formatForStorage c.response.body)).dropTail
      c.key (some ((entry :: (s.entries c.key).getD []).take limit))
      ((entry :: (s.entries c.key).getD []).drop limit)).entries c.key).getD [] := by
    obtain ⟨n, rfl⟩ := Nat.exists_eq_succ_of_ne_zero hlimit.ne'
    rw [History.entries_dropTail]
    exact List.mem_cons_self
  -- the entries that go have other names
  have hstays : ¬ (c.workspaceId = c.key.1 ∧
      ∃ e ∈ (entry :: (s.entries c.key).getD []).drop limit, Owns e entry.id) := by
    rintro ⟨-, e, he, -, hname | hfilter⟩
    · exact hprepend.ne_gone hsplit hfirst he hname
    · exact ne_filterKey (dot_notMem_of_valid hvalid) e.id hfilter
  simp only [History.dropTail, if_neg hstays, History.prepend, if_pos hwindowed]
  exact Function.update_self ..

theorem bodyWindow_eq_ok {ws id : String} {s : History} {text : String}
    (hpath : bodyFile ws id = .ok (ws, id)) (hbody : s.bodies (ws, id) = some text)
    (startLine count : ℕ) : (bodyWindow ws id startLine count s).1 =
      .ok (((textLines text.toList).drop startLine).take count) := by
  rw [bodyWindow, hpath]
  simp only [lift_ok, Fallible.bind_apply, Fallible.pure_apply, Fallible.get_apply, hbody,
    window_lines]

/-- What is read back is the text that was stored. -/
theorem keepsContent_iff {b : Backend} {c : Completed} {limit : ℕ} {s : History} (h : InStep b s)
    (hlimit : 0 < limit) (hc : (HistoryOp.append c limit).Valid)
    (hid : validateId (b.newId s.drawn) = .ok ()) (htext : c.response.bodyIsText = true)
    (hlarge : c.response.body.utf8ByteSize > windowThreshold) :
    KeepsContent b c limit s ↔
      SameContent c.response.body.toList (b.formatForStorage c.response.body).toList := by
  obtain ⟨entry, s', hrun, hwindowed, hpath, hbody⟩ := bodies_append h hlimit hc hid htext hlarge
  constructor
  · rintro ⟨entry', s'', text, hrun', hread, -, hsame⟩
    cases hrun.symm.trans hrun'
    rcases readFullBody_eq_ok.mp hread with ⟨hinline, -⟩ | ⟨-, path, hpath', hbody'⟩
    · exact absurd (hwindowed.symm.trans hinline) nofun
    · cases hpath.symm.trans hpath'
      rwa [← Option.some.inj (hbody.symm.trans hbody')] at hsame
  · intro hsame
    exact ⟨entry, s', _, hrun, readFullBody_eq_ok.mpr (.inr ⟨hwindowed, _, hpath, hbody⟩),
      bodyWindow_eq_ok hpath hbody, hsame⟩

/-- A large body that is appended after any run is read back with the same content exactly when
it is no JSON that can be stored as a value, or all its objects and numbers are printed as they
are written. -/
theorem stored_content_iff (f : FloatPrinter) (b : Backend) (ops : List HistoryOp)
    (hvalid : ∀ op ∈ ops, op.Valid) (hids : ∀ t ≤ ops.length, validateId (b.newId t) = .ok ())
    {c : Completed} {limit : ℕ} (hlimit : 0 < limit) (hc : (HistoryOp.append c limit).Valid)
    (htext : c.response.bodyIsText = true)
    (hlarge : c.response.body.utf8ByteSize > windowThreshold) :
    KeepsContent (storing f b) c limit
        (Runs.run (HistoryOp.exec (storing f b)) History.empty ops) ↔
      StoresAsIs f c.response.body.toList := by
  obtain ⟨h, hdrawn⟩ := run_inStep (inStep_empty (storing f b)) hvalid (by
    simpa [History.empty, storing] using hids)
  have hid := hids _ (hdrawn.trans (by simp [History.empty]))
  rw [keepsContent_iff h hlimit hc hid htext hlarge]
  exact sameContent_storing f b c.response.body

/-! ## Objects behind white space -/

/-- A large body with the same tokens. -/
def padded (text : String) : String :=
  String.ofList (List.replicate windowThreshold ' ') ++ text

theorem length_le_utf8ByteSize (s : Text) : s.length ≤ (String.ofList s).utf8ByteSize := by
  induction s with
  | nil => exact Nat.zero_le _
  | cons c s ih =>
    have hsize := c.utf8Size_pos
    rw [← List.singleton_append, String.ofList_append, String.utf8ByteSize_append,
      List.length_append, ← String.singleton_eq_ofList, String.utf8ByteSize_singleton,
      List.length_singleton]
    omega

theorem large_padded {text : String} (h : text ≠ "") :
    (padded text).utf8ByteSize > windowThreshold := by
  have hblanks := length_le_utf8ByteSize (List.replicate windowThreshold ' ')
  have htext : text.utf8ByteSize ≠ 0 := fun hzero => h (String.utf8ByteSize_eq_zero_iff.mp hzero)
  rw [List.length_replicate] at hblanks
  rw [padded, String.utf8ByteSize_append]
  omega

theorem readJson_padded (text : String) : readJson (padded text).toList = readJson text.toList := by
  have hblanks : ∀ c ∈ List.replicate windowThreshold ' ', Json.isBlank c = true := by
    intro c hc
    rw [List.eq_of_mem_replicate hc]
    rfl
  rw [readJson, padded, String.toList_append, String.toList_ofList,
    JsonTokens.scan_blanks hblanks, ← readJson]

theorem readJson_padded_pretty {v : Json} (h : Numeric v) :
    readJson (padded (String.ofList v.pretty)).toList = some v := by
  rw [readJson_padded, String.toList_ofList]
  exact JsonTokens.readJson_eq_some_iff.mpr (JsonTokens.scan_pretty h)

theorem pretty_ne_empty {v : Json} (h : Numeric v) : String.ofList v.pretty ≠ "" := by
  intro hempty
  have hpretty : v.pretty = [] := String.ofList_injective hempty
  have hscan := JsonTokens.scan_pretty h
  obtain ⟨t, ts, htokens, -⟩ := JsonTokens.tokens_head v
  rw [hpretty, htokens] at hscan
  exact absurd (Option.some.inj hscan) nofun

/-- Two members without a value. -/
def emptyPair (key key' : String) : Json := .object [(key, .null), (key', .null)]

theorem mem_parts_emptyPair {key key' : String} {v : Json} (h : v ∈ (emptyPair key key').parts) :
    v = .null := by
  rcases List.mem_cons.mp h with rfl | h
  · rfl
  · exact List.mem_singleton.mp h

theorem numeric_emptyPair (key key' : String) : Numeric (emptyPair key key') := by
  refine numeric_of_parts (fun v hv => ?_) (by intro text h; cases h)
  rw [mem_parts_emptyPair hv]
  exact numeric_of_parts nofun nofun

theorem alike_emptyPair {key key' : String} (h : key < key') :
    PrintsAlike f (emptyPair key key') := by
  refine alike_of_parts (fun v hv => ?_) (fun members heq => ?_) (by intro text h; cases h)
  · rw [mem_parts_emptyPair hv]
    exact alike_of_parts nofun nofun nofun
  · cases heq
    exact List.pairwise_pair.mpr h

/-- The response to a page that answers with two members. -/
def pairLoad (key key' : String) : Completed :=
  { pageLoad with response := { HttpResponse.blank with
      bodyIsText := true, body := padded (String.ofList (emptyPair key key').pretty) } }

theorem pairLoad_valid (key key' : String) : (HistoryOp.append (pairLoad key key') 1).Valid := by
  have hws : validateId "w1" = .ok () := by decide
  have hreq : validateId "r1" = .ok () := by decide
  exact ⟨hws, hreq, rfl⟩

theorem pairLoad_large (key key' : String) :
    (pairLoad key key').response.body.utf8ByteSize > windowThreshold :=
  large_padded (pretty_ne_empty (numeric_emptyPair key key'))

theorem pairLoad_isText (key key' : String) : (pairLoad key key').response.bodyIsText = true := rfl

theorem readJson_pairLoad (key key' : String) :
    readJson (pairLoad key key').response.body.toList = some (emptyPair key key') :=
  readJson_padded_pretty (numeric_emptyPair key key')

/-- No number is printed here. -/
def noDoubles : FloatPrinter where
  print _ := none
  isNumber := nofun

theorem plainBackend_valid : ∀ t ≤ 0, validateId (plainBackend.newId t) = .ok () := by
  intro t ht
  obtain rfl := Nat.le_zero.mp ht
  decide

theorem stored_content_sorted : KeepsContent (storing noDoubles plainBackend) (pairLoad "a" "b") 1
    (Runs.run (HistoryOp.exec (storing noDoubles plainBackend)) History.empty []) := by
  refine (stored_content_iff noDoubles plainBackend [] (List.forall_mem_nil _)
    plainBackend_valid Nat.one_pos
    (pairLoad_valid "a" "b") (pairLoad_isText "a" "b") (pairLoad_large "a" "b")).mpr
      fun v hread _ => .inr ?_
  cases (readJson_pairLoad "a" "b").symm.trans hread
  exact alike_emptyPair (by decide)

/-- The members of an object whose keys descend come back in another order. -/
theorem stored_content_moves : ¬ ∀ (f : FloatPrinter) (b : Backend) (ops : List HistoryOp)
    (c : Completed) (limit : ℕ), (∀ op ∈ ops, op.Valid) →
    (∀ t ≤ ops.length, validateId (b.newId t) = .ok ()) → 0 < limit →
    (HistoryOp.append c limit).Valid → c.response.bodyIsText = true →
    c.response.body.utf8ByteSize > windowThreshold →
    KeepsContent (storing f b) c limit
      (Runs.run (HistoryOp.exec (storing f b)) History.empty ops) := by
  intro h
  have hkeeps := h noDoubles plainBackend [] (pairLoad "b" "a") 1 (List.forall_mem_nil _)
    plainBackend_valid Nat.one_pos (pairLoad_valid "b" "a") (pairLoad_isText "b" "a")
    (pairLoad_large "b" "a")
  rw [Runs.run, List.foldl_nil] at hkeeps
  have hsame := (keepsContent_iff (inStep_empty (storing noDoubles plainBackend)) Nat.one_pos
    (pairLoad_valid "b" "a") (plainBackend_valid 0 le_rfl) (pairLoad_isText "b" "a")
    (pairLoad_large "b" "a")).mp hkeeps
  have hstores := (sameContent_storing noDoubles plainBackend _).mp hsame
  rcases hstores _ (readJson_pairLoad "b" "a") (by decide) with ⟨text, htext, -⟩ | halike
  · rcases Json.mem_nodes.mp htext with heq | ⟨v, hv, hmem⟩
    · cases heq
    · rw [mem_parts_emptyPair hv] at hmem
      rcases Json.mem_nodes.mp hmem with heq | ⟨w, hw, -⟩
      · cases heq
      · cases hw
  · have hsorted := halike.sorted _ (Json.self_mem_nodes (emptyPair "b" "a"))
    exact absurd (List.pairwise_pair.mp hsorted) (by decide)

end Voleeo.Responses
