import Voleeo.Imports.PathParameters

/-!
# Taking a path parameter out of a URL

The segment of a parameter is removed by three replacements over the whole text: the first
`/:name`, the next `:name`, and then every pair of slashes, also the one behind a scheme.
-/
namespace Voleeo.ParamEdits
open Imports.PathTemplate (inPath)
open Send (isSegmentEnd isSeparator isNameStart paramMatches extractPathParams)

/-- `String.replace` with a pattern `part(?=/|$|[?#])`: the first match only. -/
def replaceFirstPart (part replacement : Text) : Text → Text
  | [] => []
  | c :: rest =>
    if part <+: c :: rest ∧ isSegmentEnd ((c :: rest).drop part.length) = true then
      replacement ++ (c :: rest).drop part.length
    else c :: replaceFirstPart part replacement rest

attribute [local simp] replaceFirstPart

/-- `/:name`. -/
def paramPart (name : Text) : Text := '/' :: ':' :: name

theorem paramPart_ne_nil (name : Text) : paramPart name ≠ [] := List.cons_ne_nil _ _

/-- The pattern `(^|/)(:name)`, of which `$1` stays. -/
def replaceFirstName (name s : Text) : Text :=
  if (':' :: name) <+: s ∧ isSegmentEnd (s.drop (name.length + 1)) = true then
    s.drop (name.length + 1)
  else replaceFirstPart (paramPart name) ['/'] s

/-- All `//` become `/`, one after another. -/
def collapse : Text → Text
  | '/' :: '/' :: rest => '/' :: collapse rest
  | c :: rest => c :: collapse rest
  | [] => []

attribute [local simp] collapse

def removePathParamFromUrl (url name : Text) : Text :=
  collapse (replaceFirstName name (replaceFirstPart (paramPart name) [] url))

/-- `skip` counts the characters that the last segment still covers. -/
def dropFrom (name : Text) : ℕ → Text → Text
  | _, [] => []
  | skip + 1, _ :: rest => dropFrom name skip rest
  | 0, c :: rest =>
    if c = '?' ∨ c = '#' then c :: rest
    else if paramPart name <+: c :: rest ∧
        isSegmentEnd ((c :: rest).drop (paramPart name).length) = true then
      dropFrom name (name.length + 1) rest
    else c :: dropFrom name 0 rest

attribute [local simp] dropFrom

/-- A URL without the segments `/:name` of its path. -/
def dropSegments (name url : Text) : Text := dropFrom name 0 url

example : removePathParamFromUrl "\x7b\x7bbase\x7d\x7d/users/:id/posts?q=1".toList "id".toList =
    "\x7b\x7bbase\x7d\x7d/users/posts?q=1".toList := by decide

/-! ## Matches -/

variable {name part s : Text}

/-- A place where the pattern matches. -/
def IsMatch (part s before after : Text) : Prop :=
  s = before ++ part ++ after ∧ isSegmentEnd after = true

theorem isMatch_start {c : Char} {rest : Text} :
    (part <+: c :: rest ∧ isSegmentEnd ((c :: rest).drop part.length) = true) ↔
      ∃ after, IsMatch part (c :: rest) [] after := by
  constructor
  · rintro ⟨⟨after, hsplit⟩, hend⟩
    rw [← hsplit, List.drop_left] at hend
    exact ⟨after, hsplit.symm, hend⟩
  · rintro ⟨after, hsplit, hend⟩
    rw [List.nil_append] at hsplit
    rw [hsplit, List.drop_left]
    exact ⟨⟨after, rfl⟩, hend⟩

theorem isMatch_cons {c : Char} {rest before after : Text} :
    IsMatch part (c :: rest) (c :: before) after ↔ IsMatch part rest before after := by
  rw [IsMatch, IsMatch, List.cons_append, List.cons_append, List.cons.injEq]
  simp

/-- Nothing matches, or the first match is replaced. -/
theorem replaceFirstPart_cases (hpart : part ≠ []) (replacement s : Text) :
    ((∀ before after, ¬ IsMatch part s before after) ∧ replaceFirstPart part replacement s = s) ∨
      ∃ before after, IsMatch part s before after ∧
        (∀ b a, IsMatch part s b a → before.length ≤ b.length) ∧
        replaceFirstPart part replacement s = before ++ replacement ++ after := by
  induction s with
  | nil =>
    refine .inl ⟨fun before after h => hpart ?_, rfl⟩
    have hempty := List.append_eq_nil_iff.mp h.1.symm
    exact (List.append_eq_nil_iff.mp hempty.1).2
  | cons c rest ih =>
    by_cases hstart : ∃ after, IsMatch part (c :: rest) [] after
    · obtain ⟨after, hmatch⟩ := hstart
      refine .inr ⟨[], after, hmatch, fun b a _ => Nat.zero_le _, ?_⟩
      have hdrop : (c :: rest).drop part.length = after := by
        rw [hmatch.1, List.nil_append, List.drop_left]
      rw [replaceFirstPart, if_pos (isMatch_start.mpr ⟨after, hmatch⟩), hdrop]
      rfl
    · have hlater : ∀ b a, IsMatch part (c :: rest) b a →
          ∃ b', b = c :: b' ∧ IsMatch part rest b' a := by
        intro b a hmatch
        cases b with
        | nil => exact absurd ⟨a, hmatch⟩ hstart
        | cons d b' =>
          obtain rfl : c = d := (List.cons.inj hmatch.1).1
          exact ⟨b', rfl, isMatch_cons.mp hmatch⟩
      rw [replaceFirstPart, if_neg fun h => hstart (isMatch_start.mp h)]
      rcases ih with ⟨hno, hsame⟩ | ⟨before, after, hmatch, hfirst, hreplaced⟩
      · refine .inl ⟨fun b a h => ?_, by rw [hsame]⟩
        obtain ⟨b', -, h'⟩ := hlater b a h
        exact hno b' a h'
      · refine .inr ⟨c :: before, after, isMatch_cons.mpr hmatch, fun b a h => ?_, ?_⟩
        · obtain ⟨b', rfl, h'⟩ := hlater b a h
          exact Nat.succ_le_succ (hfirst b' a h')
        · rw [hreplaced]
          rfl

/-- Two places of a pattern that starts with a character of its own lie apart. -/
theorem match_apart {x : Char} {tail b a b' a' : Text} (hx : x ∉ tail)
    (h : b ++ (x :: tail) ++ a = b' ++ (x :: tail) ++ a') (hlt : b'.length < b.length) :
    ∃ y, b = b' ++ (x :: tail) ++ y ∧ a' = y ++ (x :: tail) ++ a := by
  rw [List.append_assoc, List.append_assoc b'] at h
  rcases List.append_eq_append_iff.mp h with ⟨z, rfl, -⟩ | ⟨z, rfl, hz⟩
  · rw [List.length_append] at hlt
    omega
  · rcases List.append_eq_append_iff.mp hz with ⟨y, rfl, hy⟩ | ⟨y, hy, hrest⟩
    · exact ⟨y, by rw [List.append_assoc], by rw [hy, List.append_assoc]⟩
    · cases z with
      | nil => simp at hlt
      | cons c z =>
        cases y with
        | nil =>
          rw [List.append_nil] at hy
          refine ⟨[], by rw [hy, List.append_nil], ?_⟩
          rw [List.nil_append] at hrest
          rw [List.nil_append, ← hrest]
        | cons d y =>
          obtain ⟨rfl, htail⟩ := List.cons.inj hy
          obtain ⟨rfl, -⟩ := List.cons.inj hrest
          exact absurd (by rw [htail]; simp) hx

/-- A pattern without separators matches in one of two parts of a text, up to its first letter. -/
theorem match_split {p rest b a : Text} (hpart : ∀ c ∈ part, inPath c = true) (hne : part ≠ [])
    (hrest : rest.head?.any inPath = false) (h : b ++ part ++ a = p ++ rest) :
    (∃ a', p = b ++ part ++ a' ∧ a = a' ++ rest) ∨ ∃ b', b = p ++ b' ∧ rest = b' ++ part ++ a := by
  rw [List.append_assoc] at h
  rcases List.append_eq_append_iff.mp h with ⟨z, rfl, hz⟩ | ⟨z, rfl, hz⟩
  · rcases List.append_eq_append_iff.mp hz with ⟨a', rfl, ha⟩ | ⟨w, rfl, hw⟩
    · exact .inl ⟨a', by rw [List.append_assoc], ha⟩
    · cases w with
      | nil => exact .inl ⟨[], by simp, by simpa using hw.symm⟩
      | cons d w =>
        have hd := hpart d (by simp)
        rw [hw, List.cons_append, List.head?_cons, Option.any_some, hd] at hrest
        cases hrest
  · exact .inr ⟨z, rfl, by rw [hz, List.append_assoc]⟩

/-! ## Names behind colons -/

open Imports.PathTemplate (IsIdentifier paramMatches_append paramMatches_identifier behindColon)

theorem head?_of_segmentEnd (h : isSegmentEnd s = true) : s.head?.any isWordChar = false := by
  cases s with
  | nil => rfl
  | cons c s => exact Send.separator_not_word h

/-- A match is one of the names that are found. -/
theorem paramMatches_place (hname : IsIdentifier name) (before : Text) {after : Text}
    (hend : isSegmentEnd after = true) :
    paramMatches (before ++ ':' :: name ++ after) =
      paramMatches before ++ name :: paramMatches after := by
  have hcolon : (':' :: name ++ after).head?.any isWordChar = false := rfl
  rw [List.append_assoc, paramMatches_append before hcolon,
    paramMatches_append (':' :: name) (head?_of_segmentEnd hend)]
  have hone : paramMatches (':' :: name) = [name] := paramMatches_identifier hname
  rw [hone]
  rfl

theorem paramMatches_segment (hname : IsIdentifier name) (before : Text) {after : Text}
    (hend : isSegmentEnd after = true) :
    paramMatches (before ++ paramPart name ++ after) =
      paramMatches before ++ name :: paramMatches after := by
  have hslash : paramMatches (before ++ ['/']) = paramMatches before := by
    rw [paramMatches_append before (by decide)]
    exact List.append_nil _
  have hsplit : before ++ paramPart name ++ after = before ++ ['/'] ++ ':' :: name ++ after := by
    simp [paramPart]
  rw [hsplit, paramMatches_place hname _ hend, hslash]

theorem inPath_name (hname : IsIdentifier name) : ∀ c ∈ name, inPath c = true := by
  intro c hc
  have hword := hname.2 c hc
  have hquery : c ≠ '?' := by
    rintro rfl
    cases hword
  have hhash : c ≠ '#' := by
    rintro rfl
    cases hword
  simp [inPath, hquery, hhash]

theorem inPath_paramPart (hname : IsIdentifier name) : ∀ c ∈ paramPart name, inPath c = true :=
  List.forall_mem_cons.mpr ⟨by decide, List.forall_mem_cons.mpr ⟨by decide, inPath_name hname⟩⟩

theorem slash_not_mem_name (hname : IsIdentifier name) : '/' ∉ ':' :: name := by
  rw [List.mem_cons, not_or]
  exact ⟨by decide, fun hmem => absurd (hname.2 '/' hmem) (by decide)⟩

theorem colon_not_mem_name (hname : IsIdentifier name) : ':' ∉ name :=
  fun hmem => absurd (hname.2 ':' hmem) (by decide)

theorem segmentEnd_of_append {x y : Text} (h : isSegmentEnd (x ++ y) = true) :
    isSegmentEnd x = true := by
  cases x with
  | nil => rfl
  | cons c x => exact h

/-- Where no name stands before a segment, none matches before it. -/
theorem no_earlier_segment (hname : IsIdentifier name) {front after b a : Text}
    (hfront : name ∉ paramMatches front)
    (hmatch : IsMatch (paramPart name) (front ++ paramPart name ++ after) b a) :
    front.length ≤ b.length := by
  by_contra hlt
  obtain ⟨y, rfl, rfl⟩ :=
    match_apart (slash_not_mem_name hname) hmatch.1 (Nat.lt_of_not_le hlt)
  have hend := hmatch.2
  rw [List.append_assoc] at hend
  have hnames := paramMatches_segment hname b (segmentEnd_of_append hend)
  rw [paramPart] at hnames
  rw [hnames] at hfront
  exact hfront (by simp)

/-- Where no name stands in a path, a segment matches behind it. -/
theorem no_segment (hname : IsIdentifier name) {p rest b a : Text}
    (hp : name ∉ paramMatches p) (hrest : rest.head?.any inPath = false)
    (hmatch : IsMatch (paramPart name) (p ++ rest) b a) :
    ∃ b', b = p ++ b' ∧ IsMatch (paramPart name) rest b' a := by
  rcases match_split (inPath_paramPart hname) (paramPart_ne_nil name) hrest hmatch.1.symm with
    ⟨a', rfl, rfl⟩ | ⟨b', rfl, hb⟩
  · rw [paramMatches_segment hname b (segmentEnd_of_append hmatch.2)] at hp
    exact absurd (by simp) hp
  · exact ⟨b', rfl, hb, hmatch.2⟩

theorem first_segment (hname : IsIdentifier name) (replacement : Text) {front after : Text}
    (hfront : name ∉ paramMatches front) (hend : isSegmentEnd after = true) :
    replaceFirstPart (paramPart name) replacement (front ++ paramPart name ++ after) =
      front ++ replacement ++ after := by
  have hmatch : IsMatch (paramPart name) (front ++ paramPart name ++ after) front after :=
    ⟨rfl, hend⟩
  rcases replaceFirstPart_cases (paramPart_ne_nil name) replacement
    (front ++ paramPart name ++ after) with
    ⟨hno, -⟩ | ⟨before, after', hmatch', hfirst, hreplaced⟩
  · exact absurd hmatch (hno front after)
  · have heq : front.length = before.length :=
      Nat.le_antisymm (no_earlier_segment hname hfront hmatch') (hfirst front after hmatch)
    have hsplit := hmatch'.1
    rw [List.append_assoc, List.append_assoc before] at hsplit
    obtain ⟨rfl, hrest⟩ := List.append_inj hsplit heq
    rw [hreplaced, List.append_cancel_left hrest]

/-! ## What is left of the segments -/

theorem dropFrom_eq (name : Text) (skip : ℕ) (s : Text) :
    dropFrom name skip s = dropSegments name (s.drop skip) := by
  induction s generalizing skip with
  | nil => cases skip <;> rfl
  | cons c s ih =>
    cases skip with
    | zero => rfl
    | succ skip => exact ih skip

theorem dropSegments_part (name : Text) {after : Text} (hend : isSegmentEnd after = true) :
    dropSegments name (paramPart name ++ after) = dropSegments name after := by
  have hmatch : paramPart name <+: '/' :: (':' :: name ++ after) ∧
      isSegmentEnd (('/' :: (':' :: name ++ after)).drop (paramPart name).length) = true :=
    isMatch_start.mpr ⟨after, rfl, hend⟩
  have hdrop : (':' :: name ++ after).drop (name.length + 1) = after := List.drop_left
  change dropFrom name 0 ('/' :: (':' :: name ++ after)) = _
  rw [dropFrom, if_neg (by decide), if_pos hmatch, dropFrom_eq, hdrop]

theorem dropSegments_cons {c : Char} {rest : Text} (hc : inPath c = true)
    (hno : ∀ after, ¬ IsMatch (paramPart name) (c :: rest) [] after) :
    dropSegments name (c :: rest) = c :: dropSegments name rest := by
  have hin : ¬ (c = '?' ∨ c = '#') := by
    rintro (rfl | rfl) <;> cases hc
  rw [dropSegments, dropFrom, if_neg hin, if_neg fun h => ?_]
  · rfl
  · obtain ⟨after, hmatch⟩ := isMatch_start.mp h
    exact hno after hmatch

theorem dropSegments_rest (name : Text) {rest : Text} (h : rest.head?.any inPath = false) :
    dropSegments name rest = rest := by
  cases rest with
  | nil => rfl
  | cons c rest =>
    have hout : c = '?' ∨ c = '#' := by
      have hc : inPath c = false := h
      rw [inPath, Bool.and_eq_false_iff] at hc
      simpa using hc
    rw [dropSegments, dropFrom, if_pos hout]

/-- In front of the first match everything stays. -/
theorem dropSegments_append {front t : Text} (hin : ∀ c ∈ front, inPath c = true)
    (hno : ∀ b a, IsMatch (paramPart name) (front ++ t) b a → front.length ≤ b.length) :
    dropSegments name (front ++ t) = front ++ dropSegments name t := by
  induction front with
  | nil => rfl
  | cons c front ih =>
    rw [List.forall_mem_cons] at hin
    have hstart : ∀ after, ¬ IsMatch (paramPart name) (c :: (front ++ t)) [] after :=
      fun after h => absurd (hno [] after h) (Nat.not_succ_le_zero _)
    have hrest := ih hin.2 fun b a h =>
      Nat.le_of_succ_le_succ (hno (c :: b) a (isMatch_cons.mpr h))
    rw [List.cons_append, dropSegments_cons hin.1 hstart, hrest]
    rfl

/-! ## Pairs of slashes -/

theorem collapse_cons {c : Char} (hc : c ≠ '/') (rest : Text) :
    collapse (c :: rest) = c :: collapse rest := by
  rw [collapse]
  rintro rest' heq -
  exact hc heq

theorem collapse_slash {rest : Text} (h : rest.head? ≠ some '/') :
    collapse ('/' :: rest) = '/' :: collapse rest := by
  rw [collapse]
  rintro rest' - rfl
  exact h rfl

theorem count_colon_collapse (s : Text) : (collapse s).count ':' = s.count ':' := by
  fun_induction collapse s with
  | case1 rest ih => simpa using ih
  | case2 c rest _ ih => rw [List.count_cons, List.count_cons, ih]
  | case3 => rfl

/-- Slashes only get fewer, and fewer unless there is no pair. -/
theorem count_slash_collapse (s : Text) : (collapse s).count '/' ≤ s.count '/' ∧
    ((collapse s).count '/' = s.count '/' → collapse s = s) := by
  fun_induction collapse s with
  | case1 rest ih =>
    have hless : ('/' :: collapse rest).count '/' < ('/' :: '/' :: rest).count '/' := by
      rw [List.count_cons_self, List.count_cons_self, List.count_cons_self]
      omega
    exact ⟨hless.le, fun heq => absurd heq hless.ne⟩
  | case2 c rest _ ih =>
    rw [List.count_cons, List.count_cons]
    refine ⟨Nat.add_le_add_right ih.1 _, fun heq => ?_⟩
    rw [ih.2 (Nat.add_right_cancel heq)]
  | case3 => exact ⟨le_rfl, fun _ => rfl⟩

theorem collapse_eq_self_iff (s : Text) : collapse s = s ↔ ¬ ['/', '/'] <:+: s := by
  fun_induction collapse s with
  | case1 rest ih =>
    have hless := (count_slash_collapse rest).1
    refine iff_of_false (fun heq => ?_) (fun h => h ⟨[], rest, rfl⟩)
    have hcount := congrArg (List.count '/') heq
    rw [List.count_cons_self, List.count_cons_self, List.count_cons_self] at hcount
    omega
  | case2 c rest hno ih =>
    rw [List.cons.injEq, eq_self_iff_true, true_and, ih, List.infix_cons_iff, not_or]
    refine ⟨fun h => ⟨?_, h⟩, fun h => h.2⟩
    rintro ⟨t, ht⟩
    obtain ⟨rfl, rfl⟩ := List.cons.inj ht
    exact hno t rfl rfl
  | case3 => exact iff_of_true rfl (by simp)

/-! ## Counting -/

theorem count_paramPart (hname : IsIdentifier name) :
    (paramPart name).count '/' = 1 ∧ (paramPart name).count ':' = 1 := by
  have hslash : name.count '/' = 0 := List.count_eq_zero.mpr fun hmem =>
    slash_not_mem_name hname (List.mem_cons_of_mem _ hmem)
  have hcolon : name.count ':' = 0 := List.count_eq_zero.mpr (colon_not_mem_name hname)
  simp [paramPart, hslash, hcolon]

/-- Nothing is replaced, or one slash and one colon. -/
theorem count_replaceFirstPart (hname : IsIdentifier name) (s : Text) :
    (∀ r, replaceFirstPart (paramPart name) r s = s) ∨
      ∀ r, (replaceFirstPart (paramPart name) r s).count '/' + 1 = s.count '/' + r.count '/' ∧
        (replaceFirstPart (paramPart name) r s).count ':' + 1 = s.count ':' + r.count ':' := by
  obtain ⟨hslash, hcolon⟩ := count_paramPart hname
  by_cases hmatch : ∃ before after, IsMatch (paramPart name) s before after
  · refine .inr fun r => ?_
    obtain ⟨b, a, hmatch⟩ := hmatch
    rcases replaceFirstPart_cases (paramPart_ne_nil name) r s with
      ⟨hno, -⟩ | ⟨before, after, hfirst, -, hreplaced⟩
    · exact absurd hmatch (hno b a)
    · rw [hreplaced, hfirst.1]
      simp only [List.count_append, hslash, hcolon]
      omega
  · refine .inl fun r => ?_
    rcases replaceFirstPart_cases (paramPart_ne_nil name) r s with
      ⟨-, hsame⟩ | ⟨before, after, hfirst, -⟩
    · exact hsame
    · exact absurd ⟨before, after, hfirst⟩ hmatch

/-- The second replacement leaves all slashes. -/
theorem count_replaceFirstName (hname : IsIdentifier name) (s : Text) :
    (replaceFirstName name s).count '/' = s.count '/' := by
  rw [replaceFirstName]
  split_ifs with hstart
  · obtain ⟨t, rfl⟩ := hstart.1
    have hdrop : (':' :: name ++ t).drop (name.length + 1) = t := List.drop_left
    rw [hdrop, List.count_append, List.count_eq_zero.mpr (slash_not_mem_name hname), Nat.zero_add]
  · rcases count_replaceFirstPart hname s with hsame | hcount
    · rw [hsame]
    · exact Nat.add_right_cancel (hcount ['/']).1

/-- What the segments take away that go: as many slashes as colons. -/
theorem count_dropSegments (hname : IsIdentifier name) (s : Text) :
    ∃ n, (dropSegments name s).count '/' + n = s.count '/' ∧
      (dropSegments name s).count ':' + n = s.count ':' := by
  obtain ⟨hslash, hcolon⟩ := count_paramPart hname
  induction hn : s.length using Nat.strong_induction_on generalizing s with
  | _ m ih =>
    cases s with
    | nil => exact ⟨0, rfl, rfl⟩
    | cons c rest =>
      by_cases hstart : ∃ after, IsMatch (paramPart name) (c :: rest) [] after
      · obtain ⟨after, hmatch⟩ := hstart
        have hsplit : c :: rest = paramPart name ++ after := hmatch.1
        have hlength : after.length < m := by
          rw [← hn, hsplit, List.length_append, paramPart, List.length_cons]
          omega
        obtain ⟨n, hs, hc⟩ := ih _ hlength after rfl
        refine ⟨n + 1, ?_, ?_⟩
        · rw [hsplit, dropSegments_part name hmatch.2, List.count_append, hslash]
          omega
        · rw [hsplit, dropSegments_part name hmatch.2, List.count_append, hcolon]
          omega
      · cases hin : inPath c with
        | false =>
          have hsame : dropSegments name (c :: rest) = c :: rest := dropSegments_rest name hin
          exact ⟨0, by rw [hsame]; rfl, by rw [hsame]; rfl⟩
        | true =>
          obtain ⟨n, hs, hc⟩ := ih rest.length (by rw [← hn]; exact Nat.lt_succ_self _) rest
            rfl
          refine ⟨n, ?_, ?_⟩
          · rw [dropSegments_cons hin fun after h => hstart ⟨after, h⟩, List.count_cons,
              List.count_cons]
            omega
          · rw [dropSegments_cons hin fun after h => hstart ⟨after, h⟩, List.count_cons,
              List.count_cons]
            omega

/-! ## The path of a URL -/

def pathOf (url : Text) : Text := url.takeWhile inPath

def restOf (url : Text) : Text := url.dropWhile inPath

theorem path_append_rest (url : Text) : pathOf url ++ restOf url = url :=
  List.takeWhile_append_dropWhile

theorem inPath_pathOf (url : Text) : ∀ c ∈ pathOf url, inPath c = true :=
  fun _ => List.mem_takeWhile_imp

theorem head?_restOf (url : Text) : (restOf url).head?.any inPath = false := by
  induction url with
  | nil => rfl
  | cons c url ih =>
    rw [restOf, List.dropWhile_cons]
    cases hc : inPath c with
    | true => exact ih
    | false => exact hc

theorem pathOf_append {p rest : Text} (hp : ∀ c ∈ p, inPath c = true)
    (hrest : rest.head?.any inPath = false) :
    pathOf (p ++ rest) = p ∧ restOf (p ++ rest) = rest := by
  have hstop : rest.takeWhile inPath = [] ∧ rest.dropWhile inPath = rest := by
    cases rest with
    | nil => exact ⟨rfl, rfl⟩
    | cons c rest =>
      have hc : inPath c = false := hrest
      simp [hc]
  rw [pathOf, restOf, List.takeWhile_append_of_pos hp, List.dropWhile_append_of_pos hp, hstop.1,
    hstop.2, List.append_nil]
  exact ⟨rfl, rfl⟩

theorem segmentEnd_of_rest {rest : Text} (h : rest.head?.any inPath = false) :
    isSegmentEnd rest = true := by
  cases rest with
  | nil => rfl
  | cons c rest =>
    have hc : inPath c = false := h
    rw [inPath, Bool.and_eq_false_iff] at hc
    rw [Send.isSegmentEnd_cons, isSeparator]
    rcases hc with hc | hc
    · rw [of_not_not (of_decide_eq_false hc)]
      rfl
    · rw [of_not_not (of_decide_eq_false hc)]
      rfl

theorem segmentEnd_append {x y : Text} (hx : isSegmentEnd x = true) (hy : isSegmentEnd y = true) :
    isSegmentEnd (x ++ y) = true := by
  cases x with
  | nil => exact hy
  | cons c x => exact hx

/-- The one place of a name in the path, and it is a segment. -/
structure OnlySegment (name url front back : Text) : Prop where
  path : pathOf url = front ++ paramPart name ++ back
  ends : isSegmentEnd back = true
  before : name ∉ paramMatches front
  behind : name ∉ paramMatches back

theorem OnlySegment.url {url front back : Text} (h : OnlySegment name url front back) :
    url = front ++ paramPart name ++ (back ++ restOf url) := by
  rw [← List.append_assoc, ← h.path, path_append_rest]

theorem OnlySegment.all_inPath {url front back : Text} (h : OnlySegment name url front back) :
    ∀ c ∈ front ++ back, inPath c = true := by
  have hpath := inPath_pathOf url
  rw [h.path] at hpath
  intro c hc
  refine hpath c ?_
  rcases List.mem_append.mp hc with hc | hc
  · simp [hc]
  · simp [hc]

theorem OnlySegment.dropped {url front back : Text} (h : OnlySegment name url front back)
    (hname : IsIdentifier name) : dropSegments name url = front ++ back ++ restOf url := by
  have hin := h.all_inPath
  have hend : isSegmentEnd (back ++ restOf url) = true :=
    segmentEnd_append h.ends (segmentEnd_of_rest (head?_restOf url))
  have hback : dropSegments name (back ++ restOf url) = back ++ restOf url := by
    rw [dropSegments_append (fun c hc => hin c (List.mem_append_right _ hc)),
      dropSegments_rest name (head?_restOf url)]
    intro b a hmatch
    obtain ⟨b', rfl, -⟩ := no_segment hname h.behind (head?_restOf url) hmatch
    rw [List.length_append]
    exact Nat.le_add_right _ _
  have hfront : ∀ b a, IsMatch (paramPart name) (front ++ (paramPart name ++ (back ++ restOf url)))
      b a → front.length ≤ b.length := by
    intro b a hmatch
    rw [← List.append_assoc] at hmatch
    exact no_earlier_segment hname h.before hmatch
  conv_lhs => rw [h.url]
  rw [List.append_assoc, dropSegments_append (fun c hc => hin c (List.mem_append_left _ hc)) hfront,
    dropSegments_part name hend, hback, List.append_assoc]

/-- In a URL that starts with a template the removal takes away the segment alone exactly when
no other part of the URL matches the patterns. -/
theorem OnlySegment.removes_iff {url front back : Text} (h : OnlySegment name url front back)
    (hname : IsIdentifier name) (hstart : front.head? = some '\x7b') :
    removePathParamFromUrl url name = dropSegments name url ↔
      (∀ b a, ¬ IsMatch (paramPart name) (restOf url) b a) ∧
        ¬ ['/', '/'] <:+: front ++ back ++ restOf url := by
  have hend : isSegmentEnd (back ++ restOf url) = true :=
    segmentEnd_append h.ends (segmentEnd_of_rest (head?_restOf url))
  have hfirst : replaceFirstPart (paramPart name) [] url = front ++ back ++ restOf url := by
    have hsegment := first_segment hname [] h.before hend
    rw [← h.url, List.append_nil, ← List.append_assoc] at hsegment
    exact hsegment
  have hnames : name ∉ paramMatches (front ++ back) := by
    rw [Imports.PathTemplate.paramMatches_append front (head?_of_segmentEnd h.ends),
      List.mem_append, not_or]
    exact ⟨h.before, h.behind⟩
  have hnotname : ¬ ((':' :: name) <+: front ++ back ++ restOf url ∧
      isSegmentEnd ((front ++ back ++ restOf url).drop (name.length + 1)) = true) := by
    rintro ⟨⟨t, ht⟩, -⟩
    cases front with
    | nil => cases hstart
    | cons c front =>
      obtain rfl : ':' = c := (List.cons.inj ht).1
      cases hstart
  rw [removePathParamFromUrl, hfirst, h.dropped hname, ← collapse_eq_self_iff]
  constructor
  · intro heq
    have hslash := count_replaceFirstName hname (front ++ back ++ restOf url)
    have hsame := (count_slash_collapse (replaceFirstName name (front ++ back ++ restOf url))).2
      (by rw [heq, hslash])
    have hunmatched : replaceFirstName name (front ++ back ++ restOf url) =
        front ++ back ++ restOf url := hsame.symm.trans heq
    refine ⟨fun b a hmatch => ?_, by rw [hunmatched] at heq; exact heq⟩
    rw [replaceFirstName, if_neg hnotname] at hunmatched
    rcases replaceFirstPart_cases (paramPart_ne_nil name) ['/'] (front ++ back ++ restOf url) with
      ⟨hno, -⟩ | ⟨before, after, hmatch', -, hreplaced⟩
    · refine hno (front ++ back ++ b) a ⟨?_, hmatch.2⟩
      rw [hmatch.1]
      simp
    · have hlength := congrArg List.length (hreplaced.symm.trans (hunmatched.trans hmatch'.1))
      simp only [paramPart, List.length_append, List.length_cons, List.length_nil] at hlength
      omega
  · rintro ⟨hno, hpair⟩
    have hunmatched : replaceFirstName name (front ++ back ++ restOf url) =
        front ++ back ++ restOf url := by
      rw [replaceFirstName, if_neg hnotname]
      rcases replaceFirstPart_cases (paramPart_ne_nil name) ['/'] (front ++ back ++ restOf url) with
        ⟨-, hsame⟩ | ⟨before, after, hmatch, -⟩
      · exact hsame
      · obtain ⟨b, -, hrest⟩ := no_segment hname hnames (head?_restOf url) hmatch
        exact absurd hrest (hno b after)
    rw [hunmatched, hpair]

/-! ## Names that are not removed -/

theorem takeWhile_collapse (s : Text) :
    (collapse s).takeWhile isWordChar = s.takeWhile isWordChar := by
  fun_induction collapse s with
  | case1 rest ih => rfl
  | case2 c rest _ ih => rw [List.takeWhile_cons, List.takeWhile_cons, ih]
  | case3 => rfl

theorem paramMatches_collapse (s : Text) : paramMatches (collapse s) = paramMatches s := by
  fun_induction collapse s with
  | case1 rest ih => exact ih
  | case2 c rest _ ih => rw [paramMatches, paramMatches, takeWhile_collapse, ih]
  | case3 => rfl

theorem head?_collapse (s : Text) : (collapse s).head? = s.head? := by
  fun_induction collapse s <;> rfl

theorem pathOf_collapse (s : Text) : pathOf (collapse s) = collapse (pathOf s) := by
  have hcons : ∀ (c : Char) (rest : Text), pathOf (c :: rest) =
      if inPath c = true then c :: pathOf rest else [] := fun c rest => List.takeWhile_cons
  fun_induction collapse s with
  | case1 rest ih =>
    have hslash : inPath '/' = true := rfl
    rw [hcons, hcons, hcons, if_pos hslash, if_pos hslash, ih, if_pos hslash, collapse]
  | case2 c rest hno ih =>
    rw [hcons, hcons, ih]
    split_ifs with hin
    · by_cases hc : c = '/'
      · subst hc
        have hhead : rest.head? ≠ some '/' := by
          cases rest with
          | nil => exact nofun
          | cons d rest =>
            rintro heq
            obtain rfl := Option.some.inj heq
            exact hno rest rfl rfl
        have hpath : (pathOf rest).head? ≠ some '/' := by
          cases rest with
          | nil => exact nofun
          | cons d rest =>
            rw [hcons]
            split_ifs
            · exact hhead
            · exact nofun
        rw [collapse_slash hpath]
      · rw [collapse_cons hc]
    · rfl
  | case3 => rfl

/-- A segment that stands in no path stays out of it. -/
theorem pathOf_replaceFirstPart (hname : IsIdentifier name) (replacement : Text) {url : Text}
    (hno : ∀ b a, ¬ IsMatch (paramPart name) (pathOf url) b a) :
    pathOf (replaceFirstPart (paramPart name) replacement url) = pathOf url := by
  rcases replaceFirstPart_cases (paramPart_ne_nil name) replacement url with
    ⟨-, hsame⟩ | ⟨before, after, hmatch, -, hreplaced⟩
  · rw [hsame]
  · have hsplit := hmatch.1
    rw [← path_append_rest url] at hsplit
    rcases match_split (inPath_paramPart hname) (paramPart_ne_nil name) (head?_restOf url)
      hsplit.symm with ⟨a', hpath, rfl⟩ | ⟨b', hb, hrest⟩
    · exact absurd ⟨hpath, segmentEnd_of_append hmatch.2⟩ (hno before a')
    · have hhead := head?_restOf url
      rw [hrest] at hhead
      cases b' with
      | nil => cases hhead
      | cons c b' =>
        have hhead' : (c :: b' ++ (replacement ++ after)).head?.any inPath = false := hhead
        rw [hreplaced, hb, List.append_assoc, List.append_assoc]
        exact (pathOf_append (inPath_pathOf url) hhead').1

/-- Where no segment of the path is the parameter, a name stays in the path. -/
theorem paramMatches_removed (hname : IsIdentifier name) {url : Text}
    (hstart : url.head? = some '\x7b')
    (hno : ∀ b a, ¬ IsMatch (paramPart name) (pathOf url) b a) :
    paramMatches (pathOf (removePathParamFromUrl url name)) = paramMatches (pathOf url) := by
  have hfirst := pathOf_replaceFirstPart hname [] hno
  have hnotname : ¬ ((':' :: name) <+: replaceFirstPart (paramPart name) [] url ∧
      isSegmentEnd ((replaceFirstPart (paramPart name) [] url).drop (name.length + 1)) = true) := by
    rintro ⟨⟨t, ht⟩, -⟩
    have hcolon : pathOf (replaceFirstPart (paramPart name) [] url) =
        ':' :: pathOf (name ++ t) := by
      rw [← ht]
      rfl
    cases url with
    | nil => cases hstart
    | cons c url =>
      obtain rfl := Option.some.inj hstart
      have hbrace : pathOf ('\x7b' :: url) = '\x7b' :: pathOf url := rfl
      rw [hcolon, hbrace] at hfirst
      exact absurd (List.cons.inj hfirst).1 (by decide)
  rw [removePathParamFromUrl, pathOf_collapse, paramMatches_collapse, replaceFirstName,
    if_neg hnotname, pathOf_replaceFirstPart hname ['/'] (by rw [hfirst]; exact hno), hfirst]

theorem head?_replaceFirstPart_of_ne {c : Char} (hc : c ≠ '/') (r : Text)
    (h : s.head? = some c) : (replaceFirstPart (paramPart name) r s).head? = some c := by
  cases s with
  | nil => cases h
  | cons d s =>
    obtain rfl := Option.some.inj h
    have hno : ¬ (paramPart name <+: d :: s ∧
        isSegmentEnd ((d :: s).drop (paramPart name).length) = true) := by
      rintro ⟨⟨u, hu⟩, -⟩
      exact hc (List.cons.inj hu).1.symm
    rw [replaceFirstPart, if_neg hno]
    rfl

/-- A template at the start stays there. -/
theorem head?_removed {url : Text} (hstart : url.head? = some '\x7b') :
    (removePathParamFromUrl url name).head? = some '\x7b' := by
  have hfirst : (replaceFirstPart (paramPart name) [] url).head? = some '\x7b' :=
    head?_replaceFirstPart_of_ne (by decide) [] hstart
  rw [removePathParamFromUrl, head?_collapse, replaceFirstName, if_neg]
  · exact head?_replaceFirstPart_of_ne (by decide) ['/'] hfirst
  · rintro ⟨⟨u, hu⟩, -⟩
    rw [← hu] at hfirst
    cases hfirst

/-! ## URLs with a scheme -/

def IsScheme (scheme : Text) : Prop :=
  scheme.head?.any Char.isAlpha = true ∧
    ∀ c ∈ scheme, (c.isAlphanum || c == '+' || c == '-' || c == '.') = true

/-- The text up to the authority. -/
def origin (scheme : Text) : Text := scheme ++ [':', '/', '/']

theorem match_behind {front t b a : Text} (hfront : '/' ∉ front)
    (hmatch : IsMatch (paramPart name) (front ++ t) b a) : front <+: b := by
  induction front generalizing b with
  | nil => exact List.nil_prefix
  | cons c front ih =>
    rw [List.mem_cons, not_or] at hfront
    cases b with
    | nil => exact absurd (List.cons.inj hmatch.1).1.symm hfront.1
    | cons d b =>
      obtain rfl : c = d := (List.cons.inj hmatch.1).1
      exact (List.prefix_cons_inj c).mpr (ih hfront.2 (isMatch_cons.mp hmatch))

theorem slash_not_mem_scheme {scheme : Text} (h : IsScheme scheme) : '/' ∉ scheme ++ [':'] := by
  rw [List.mem_append, not_or]
  exact ⟨fun hmem => absurd (h.2 '/' hmem) (by decide), by decide⟩

/-- No segment starts at the slashes of the authority. -/
theorem match_behind_origin {scheme rest b a : Text} (hscheme : IsScheme scheme)
    (hrest : rest.head? ≠ some ':')
    (hmatch : IsMatch (paramPart name) (origin scheme ++ rest) b a) :
    (origin scheme).length ≤ b.length := by
  have hsplit : origin scheme ++ rest = scheme ++ [':'] ++ ('/' :: '/' :: rest) := by
    simp [origin]
  rw [hsplit] at hmatch
  obtain ⟨b', rfl⟩ := match_behind (slash_not_mem_scheme hscheme) hmatch
  have htail : '/' :: '/' :: rest = b' ++ (paramPart name ++ a) :=
    List.append_cancel_left (hmatch.1.trans (by simp))
  have hlength : (origin scheme).length = (scheme ++ [':']).length + 2 := by simp [origin]
  have hlength' : (scheme ++ [':'] ++ b').length = (scheme ++ [':']).length + b'.length :=
    List.length_append
  rw [hlength, hlength']
  refine Nat.add_le_add_left ?_ _
  match b', htail with
  | [], htail =>
    have hcolon := (List.cons.inj (List.cons.inj htail).2).1
    exact absurd hcolon (by decide)
  | [d], htail =>
    have hhead := (List.cons.inj (List.cons.inj htail).2).2
    rw [hhead] at hrest
    exact absurd rfl hrest
  | _ :: _ :: b', _ => exact Nat.le_add_left _ _

theorem replaceFirstPart_front {front t : Text} (replacement : Text)
    (hno : ∀ b a, IsMatch part (front ++ t) b a → front.length ≤ b.length) :
    replaceFirstPart part replacement (front ++ t) =
      front ++ replaceFirstPart part replacement t := by
  induction front with
  | nil => rfl
  | cons c front ih =>
    have hstart : ¬ (part <+: c :: (front ++ t) ∧
        isSegmentEnd ((c :: (front ++ t)).drop part.length) = true) := by
      intro h
      obtain ⟨after, hmatch⟩ := isMatch_start.mp h
      exact absurd (hno [] after hmatch) (Nat.not_succ_le_zero _)
    rw [List.cons_append, replaceFirstPart, if_neg hstart, ih fun b a h =>
      Nat.le_of_succ_le_succ (hno (c :: b) a (isMatch_cons.mpr h))]
    rfl

theorem collapse_origin {scheme : Text} (hscheme : IsScheme scheme) (rest : Text) :
    collapse (origin scheme ++ rest) = scheme ++ ':' :: '/' :: collapse rest := by
  have hskip : ∀ front : Text, '/' ∉ front → ∀ t, collapse (front ++ t) = front ++ collapse t := by
    intro front hfront t
    induction front with
    | nil => rfl
    | cons c front ih =>
      rw [List.mem_cons, not_or] at hfront
      rw [List.cons_append, collapse_cons (Ne.symm hfront.1), ih hfront.2]
      rfl
  have hsplit : origin scheme ++ rest = scheme ++ [':'] ++ ('/' :: '/' :: rest) := by
    simp [origin]
  rw [hsplit, hskip _ (slash_not_mem_scheme hscheme), collapse, List.append_assoc]
  rfl

/-- Behind a replacement no name starts that did not start there before. -/
theorem head?_replaceFirstPart {rest : Text} (h : rest.head? ≠ some ':') :
    (replaceFirstPart (paramPart name) [] rest).head? ≠ some ':' := by
  rcases replaceFirstPart_cases (paramPart_ne_nil name) [] rest with
    ⟨-, hsame⟩ | ⟨before, after, hmatch, -, hreplaced⟩
  · rwa [hsame]
  · rw [hreplaced, List.append_nil]
    cases before with
    | nil =>
      cases after with
      | nil => exact nofun
      | cons c after =>
        rintro heq
        obtain rfl := Option.some.inj heq
        have hend : isSegmentEnd (':' :: after) = true := hmatch.2
        cases hend
    | cons c before =>
      rw [hmatch.1] at h
      exact h

/-- What the removal leaves of a URL with a scheme: the slash of its authority is gone. -/
theorem removed_origin {scheme rest : Text} (hscheme : IsScheme scheme)
    (hrest : rest.head? ≠ some ':') :
    removePathParamFromUrl (origin scheme ++ rest) name =
      scheme ++ ':' :: '/' :: collapse (replaceFirstPart (paramPart name) ['/']
        (replaceFirstPart (paramPart name) [] rest)) := by
  have hnotname : ∀ t : Text, ¬ ((':' :: name) <+: origin scheme ++ t ∧
      isSegmentEnd ((origin scheme ++ t).drop (name.length + 1)) = true) := by
    rintro t ⟨⟨u, hu⟩, -⟩
    have hhead := hscheme.1
    cases scheme with
    | nil => cases hhead
    | cons c scheme =>
      obtain rfl : ':' = c := (List.cons.inj hu).1
      cases hhead
  rw [removePathParamFromUrl,
    replaceFirstPart_front [] fun b a h => match_behind_origin hscheme hrest h,
    replaceFirstName, if_neg (hnotname _), replaceFirstPart_front ['/'] fun b a h =>
      match_behind_origin hscheme (head?_replaceFirstPart hrest) h, collapse_origin hscheme]

theorem inPath_origin {scheme : Text} (hscheme : IsScheme scheme) :
    ∀ c ∈ origin scheme, inPath c = true := by
  intro c hc
  rcases List.mem_append.mp hc with hc | hc
  · have hkept := hscheme.2 c hc
    have hquery : c ≠ '?' := by
      rintro rfl
      cases hkept
    have hhash : c ≠ '#' := by
      rintro rfl
      cases hkept
    simp [inPath, hquery, hhash]
  · have hall : ∀ c ∈ [':', '/', '/'], inPath c = true := by decide
    exact hall c hc

/-- A text whose segments are taken away down to its rest was the rest of them. -/
theorem dropSegments_start {rest : Text} (hslash : rest.head? = some '/')
    (h : (dropSegments name rest).head? ≠ some '/') :
    ∃ after, rest = paramPart name ++ after ∧ isSegmentEnd after = true := by
  cases rest with
  | nil => cases hslash
  | cons c rest =>
    obtain rfl : c = '/' := Option.some.inj hslash
    by_contra hno
    rw [dropSegments_cons rfl fun after hmatch => hno ⟨after, hmatch⟩] at h
    exact h rfl

/-- The slashes that are left show that the two replacements took away two segments, and that
no other pair of slashes is there. -/
theorem collapse_of_origin {rest : Text} (hname : IsIdentifier name)
    (h : collapse (replaceFirstPart (paramPart name) ['/']
      (replaceFirstPart (paramPart name) [] rest)) = '/' :: dropSegments name rest) :
    collapse (replaceFirstPart (paramPart name) ['/']
      (replaceFirstPart (paramPart name) [] rest)) = replaceFirstPart (paramPart name) ['/']
        (replaceFirstPart (paramPart name) [] rest) := by
  obtain ⟨n, hslash, hcolon⟩ := count_dropSegments hname rest
  have hfewer := count_slash_collapse (replaceFirstPart (paramPart name) ['/']
    (replaceFirstPart (paramPart name) [] rest))
  have hcolons := count_colon_collapse (replaceFirstPart (paramPart name) ['/']
    (replaceFirstPart (paramPart name) [] rest))
  rw [h, List.count_cons_self] at hfewer
  rw [h, List.count_cons_of_ne (by decide)] at hcolons
  have hone : ['/'].count '/' = 1 ∧ ['/'].count ':' = 0 := ⟨rfl, rfl⟩
  rcases count_replaceFirstPart hname rest with hsame | hcount
  · rw [hsame, hsame] at hfewer hcolons
    omega
  · have hfirst := hcount []
    rw [List.count_nil, List.count_nil] at hfirst
    rcases count_replaceFirstPart hname (replaceFirstPart (paramPart name) [] rest) with
      hsame | hcount'
    · rw [hsame] at hfewer hcolons
      omega
    · have hsecond := hcount' ['/']
      rw [h]
      refine hfewer.2 ?_
      omega

/-- The removal keeps the scheme only of a URL without an authority whose path is the parameter
twice. -/
theorem twice_of_origin {scheme rest : Text} (hname : IsIdentifier name)
    (hscheme : IsScheme scheme) (hrest : rest.head? ≠ some ':')
    (h : removePathParamFromUrl (origin scheme ++ rest) name =
      dropSegments name (origin scheme ++ rest)) :
    ∃ tail, tail.head?.any inPath = false ∧ rest = paramPart name ++ (paramPart name ++ tail) := by
  rw [removed_origin hscheme hrest, dropSegments_append (inPath_origin hscheme)
    fun b a => match_behind_origin hscheme hrest] at h
  have hcollapse : collapse (replaceFirstPart (paramPart name) ['/']
      (replaceFirstPart (paramPart name) [] rest)) = '/' :: dropSegments name rest := by
    have hsplit : origin scheme ++ dropSegments name rest =
        scheme ++ ':' :: '/' :: ('/' :: dropSegments name rest) := by simp [origin]
    rw [hsplit] at h
    exact (List.cons.inj (List.cons.inj (List.append_cancel_left h)).2).2
  have hpair := collapse_of_origin hname hcollapse
  rw [hpair] at hcollapse
  rw [hcollapse, collapse_eq_self_iff] at hpair
  have hdropped : (dropSegments name rest).head? ≠ some '/' := by
    intro hslash
    obtain ⟨t, ht⟩ := List.head?_eq_some_iff.mp hslash
    exact hpair ⟨[], t, by rw [ht]; rfl⟩
  have hslash : ∀ r t : Text, (replaceFirstPart (paramPart name) r t).head? = some '/' →
      t.head? = some '/' := by
    intro r t ht
    cases t with
    | nil => exact ht
    | cons c t =>
      by_contra hne
      rw [head?_replaceFirstPart_of_ne (fun hc => hne (hc ▸ rfl)) r List.head?_cons] at ht
      exact hne ht
  have hnone : name ∉ paramMatches [] := List.not_mem_nil
  have hfirst := hslash _ _ (by rw [hcollapse]; rfl)
  obtain ⟨after, rfl, hend⟩ := dropSegments_start (hslash _ _ hfirst) hdropped
  have hremoved : replaceFirstPart (paramPart name) [] (paramPart name ++ after) = after :=
    first_segment hname [] hnone hend
  rw [hremoved] at hfirst hcollapse
  rw [dropSegments_part name hend] at hcollapse hdropped
  obtain ⟨tail, rfl, htail⟩ := dropSegments_start hfirst hdropped
  have hkept : replaceFirstPart (paramPart name) ['/'] (paramPart name ++ tail) = '/' :: tail :=
    first_segment hname ['/'] hnone htail
  rw [hkept, dropSegments_part name htail] at hcollapse
  rw [dropSegments_part name htail, ← (List.cons.inj hcollapse).2] at hdropped
  refine ⟨tail, ?_, rfl⟩
  cases tail with
  | nil => rfl
  | cons c tail =>
    have hc : isSeparator c = true := htail
    simp only [isSeparator, Bool.or_eq_true, beq_iff_eq] at hc
    rcases hc with (rfl | rfl) | rfl
    · exact absurd rfl hdropped
    · rfl
    · rfl

end Voleeo.ParamEdits
