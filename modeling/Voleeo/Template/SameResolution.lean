import Voleeo.Resolve.Str
import Voleeo.Template.NothingLost

/-!
# The web resolver and the Rust resolver

Both read a template from the left, and both guard against cycles with the names
on the way down. On templates without quotes and parentheses they cut the text
alike, so their results differ at most in the white space next to braces that
stay.
-/
namespace Voleeo.Template
open OrderedMap
open Resolve (resolveInner resolveName resolveStr strTrim splitOnce opening closing pushToken
  isWhitespace UnicodeTables)

/-! ## What is compared -/

/-- White space of either language. -/
def IsSpace (c : Char) : Prop := isJsSpace c = true ∨ isWhitespace c = true

/-- Equal up to the white space directly inside braces. -/
inductive SameUpToPadding : Text → Text → Prop
  | nil : SameUpToPadding [] []
  | char (c : Char) {s t : Text} (h : SameUpToPadding s t) : SameUpToPadding (c :: s) (c :: t)
  | expr (inner : Text) {v w v' w' s t : Text} (hinner : ¬ closeBraces <:+: inner)
      (hspace : ∀ c ∈ v ++ w ++ v' ++ w', IsSpace c) (h : SameUpToPadding s t) :
      SameUpToPadding (openBraces ++ (v ++ inner ++ w) ++ closeBraces ++ s)
        (openBraces ++ (v' ++ inner ++ w') ++ closeBraces ++ t)

/-- The keys are distinct POSIX identifiers, and every row is enabled. -/
structure PosixVars (vars : List EnvironmentVariable) : Prop where
  identifier : ∀ v ∈ vars, isIdentifier v.key.toList = true
  distinct : (vars.map (·.key)).Nodup
  enabled : ∀ v ∈ vars, v.enabled = true

/-- No quote, parenthesis or backslash. -/
def Unquoted (text : Text) : Prop := ∀ c ∈ text, c ≠ '"' ∧ c ≠ '(' ∧ c ≠ ')' ∧ c ≠ '\\'

/-- Nothing is quoted or called, and both languages trim each expression alike. -/
structure PlainTemplate (text : Text) : Prop where
  plain : Unquoted text
  trims : ∀ inner, .expr inner ∈ segments text → strTrim inner = trim inner

def varMap (vars : List EnvironmentVariable) : OrderedMap Text Text :=
  ofList (vars.map fun v => (v.key.toList, v.value.toList))

namespace SameUpToPadding

theorem refl (s : Text) : SameUpToPadding s s := by
  induction s with
  | nil => exact nil
  | cons c s ih => exact char c ih

theorem append {s t s' t' : Text} (h : SameUpToPadding s t) (h' : SameUpToPadding s' t') :
    SameUpToPadding (s ++ s') (t ++ t') := by
  induction h with
  | nil => exact h'
  | char c _ ih => exact char c ih
  | expr inner hinner hspace _ ih =>
    have hexpr := expr inner hinner hspace ih
    simpa only [List.append_assoc] using hexpr

/-- Both ways of writing an expression that stays. -/
theorem unparsed {inner : Text} (h : ¬ closeBraces <:+: inner) :
    SameUpToPadding (openBraces ++ inner ++ closeBraces) (pushToken (trim inner)) := by
  obtain ⟨v, w, hv, hw, hsplit⟩ := trim_split inner
  have hcore : ¬ closeBraces <:+: trim inner := fun hclose =>
    h (hclose.trans ⟨v, w, hsplit.symm⟩)
  have hpadded := @expr (trim inner) v w [' '] [' '] [] [] hcore ?_ nil
  · rw [← hsplit] at hpadded
    simpa [pushToken, openBraces, closeBraces] using hpadded
  · have hblank : IsSpace ' ' := Or.inl (by decide)
    intro c hc
    simp only [List.mem_append, List.mem_singleton] at hc
    rcases hc with ((hc | hc) | rfl) | rfl
    · exact Or.inl (hv c hc)
    · exact Or.inl (hw c hc)
    · exact hblank
    · exact hblank

end SameUpToPadding

/-- How far the results may differ, given which texts stay between braces. -/
structure Tolerance where
  Rel : Text → Text → Prop
  Allows : Text → Prop
  refl : ∀ s, Rel s s
  append : ∀ {s t s' t'}, Rel s t → Rel s' t' → Rel (s ++ s') (t ++ t')
  unparsed : ∀ {inner}, Allows inner → ¬ closeBraces <:+: inner →
    Rel (openBraces ++ inner ++ closeBraces) (pushToken (trim inner))

/-- White space in braces is not compared. -/
def padding : Tolerance where
  Rel := SameUpToPadding
  Allows _ := True
  refl := .refl
  append := .append
  unparsed _ := .unparsed

/-- The results are the same, as what stays is written as Rust writes it. -/
def verbatim : Tolerance where
  Rel := Eq
  Allows inner := openBraces ++ inner ++ closeBraces = pushToken (trim inner)
  refl _ := rfl
  append h h' := by rw [h, h']
  unparsed h _ := h

/-- What stays between the braces of the text is allowed. -/
def Tolerance.Fits (T : Tolerance) (text : Text) : Prop :=
  ∀ inner, .expr inner ∈ segments text → isIdentifier (trim inner) = false → T.Allows inner

/-! ## The variables -/

variable {vars : List EnvironmentVariable} {name : Text}

theorem get?_varMap (h : PosixVars vars) :
    (varMap vars).get? name = (findVar vars name).map (·.value.toList) := by
  have hnodup : ((vars.map fun v => (v.key.toList, v.value.toList)).map Prod.fst).Nodup := by
    rw [List.map_map]
    have hinj : Function.Injective String.toList := fun s t => String.toList_inj.mp
    simpa [Function.comp_def] using h.distinct.map hinj
  cases hfind : findVar vars name with
  | none =>
    rw [Option.map_none, get?_eq_none, varMap, mem_keys_ofList]
    intro hmem
    obtain ⟨v, hv, rfl⟩ : ∃ v ∈ vars, v.key.toList = name := by simpa using hmem
    have hnone := List.find?_eq_none.mp hfind v hv
    simp [h.enabled v hv] at hnone
  | some found =>
    obtain ⟨hmem, hkey⟩ := key_of_findVar hfind
    rw [Option.map_some, get?_eq_some, varMap, entries_ofList hnodup]
    exact List.mem_map.mpr ⟨found, hmem, by rw [hkey]⟩

/-- A POSIX identifier is one in Rust, whatever its tables say. -/
theorem rust_identifier (tables : UnicodeTables) (h : isIdentifier name = true) :
    Resolve.isIdentifier tables name = true := by
  have hascii : ∀ c, isWordChar c = true → c.toNat < 128 := by
    intro c hc
    have := wordChar_range hc
    omega
  cases name with
  | nil => cases h
  | cons c cs =>
    simp only [isIdentifier, Bool.and_eq_true, List.all_eq_true] at h
    obtain ⟨hhead, hrest⟩ := h
    have hc : isWordChar c = true := by
      rw [isWordChar, Char.isAlphanum]
      simp only [Bool.or_eq_true] at hhead ⊢
      exact hhead.imp_left Or.inl
    simp only [Resolve.isIdentifier, Bool.and_eq_true, List.all_eq_true,
      tables.ascii_alphabetic c (hascii c hc)]
    exact ⟨hhead, fun d hd => (tables.isWord_ascii (hascii d (hrest d hd))).trans (hrest d hd)⟩

/-! ## Both cut a plain template alike -/

/-- Without quotes the search for the end is a search for the next `}}`. -/
theorem closeAt_plain {text : Text} (h : '"' ∉ text) :
    closeAt .out text = (splitOnce closing text).map fun parts => parts.1.length := by
  induction text with
  | nil => rfl
  | cons c rest ih =>
    rw [List.mem_cons, not_or] at h
    have hstart : closing <+: c :: rest ↔ c = '}' ∧ rest.head? = some '}' := by
      rw [closing, List.cons_prefix_cons]
      cases rest with
      | nil => simp
      | cons d rest => simp [eq_comm]
    rw [closeAt_cons, splitOnce]
    by_cases hclose : c = '}' ∧ rest.head? = some '}'
    · rw [if_pos ⟨rfl, hclose⟩, if_pos (hstart.mpr hclose)]
      rfl
    · have hnext : Quote.out.next c = .out := if_neg fun hc => h.1 hc.symm
      rw [if_neg fun hopen => hclose hopen.2, if_neg fun hopen => hclose (hstart.mp hopen), hnext,
        ih h.2, Option.map_map, Option.map_map]
      rfl

theorem splitOnce_of_ends {inner rest : Text} (hplain : '"' ∉ inner ++ '}' :: '}' :: rest)
    (h : Ends .out inner) :
    splitOnce closing (inner ++ '}' :: '}' :: rest) = some (inner, rest) := by
  have hclose := (closeAt_plain hplain).symm.trans (h rest)
  obtain ⟨⟨before, after⟩, hsplit, hlength⟩ := Option.map_eq_some_iff.mp hclose
  have htext := Resolve.splitOnce_eq_some hsplit
  rw [List.append_assoc] at htext
  obtain ⟨rfl, hrest⟩ := List.append_inj htext hlength.symm
  rw [hsplit, show rest = after from List.cons.inj (List.cons.inj hrest).2 |>.2]

theorem not_closing_of_ends {inner : Text} (hplain : '"' ∉ inner) (h : Ends .out inner) :
    ¬ closeBraces <:+: inner := by
  have hquote : '"' ∉ inner ++ '}' :: '}' :: [] := by simpa using hplain
  exact Resolve.not_infix_of_splitOnce (by decide) (splitOnce_of_ends hquote h)

/-! ## One expression -/

section
variable (T : Tolerance) (vars) (tables : UnicodeTables) (visited : List Text)

/-- A part of the web result stands beside what the Rust resolver writes for the same token. -/
def Beside : Piece → Text → Prop
  | .char c, part => part = [c]
  | .token (.var name), part => T.Rel part (resolveName tables (varMap vars) visited name)
  | .token _, _ => False

variable {T vars tables visited}

theorem parts_plain {text out : Text} :
    Parts (Beside vars T tables visited) (text.map .char) out ↔ out = text := by
  rw [Parts.map_iff]
  induction text generalizing out with
  | nil => rfl
  | cons c text ih =>
    constructor
    · rintro ⟨part, rest, rfl, rfl, hrest⟩
      rw [ih.mp hrest]
      rfl
    · rintro rfl
      exact ⟨[c], text, rfl, rfl, ih.mpr rfl⟩

theorem matchCall_plain {text : Text} (h : '(' ∉ text) : matchCall text = none := by
  rw [matchCall]
  split_ifs
  · rfl
  · split
    · rename_i rest hrest
      have hmem : '(' ∈ text.dropWhile isNameChar := hrest ▸ List.mem_cons_self
      exact absurd ((List.dropWhile_sublist _).mem hmem) h
    · rfl

/-- The token of an expression without a call. -/
theorem exprToken_plain {inner : Text} (h : '(' ∉ inner) : exprToken inner =
    if isIdentifier (trim inner) then .var (trim inner)
    else .plain (openBraces ++ inner ++ closeBraces) := by
  have hcall : matchCall (trim inner) = none := by
    obtain ⟨v, w, -, -, hinner⟩ := trim_split inner
    refine matchCall_plain fun hmem => h ?_
    rw [hinner]
    simp [hmem]
  rw [exprToken, parseExpr]
  simp only [hcall, trim_trim]
  split_ifs <;> rfl

/-- What Rust writes for an expression that the web app leaves as it is. -/
theorem same_unparsed (h : PosixVars vars) {inner : Text} (hid : isIdentifier (trim inner) = false)
    (hallowed : T.Allows inner) (htrim : strTrim inner = trim inner)
    (hinner : ¬ closeBraces <:+: inner) :
    T.Rel (openBraces ++ inner ++ closeBraces)
      (resolveName tables (varMap vars) visited (strTrim inner)) := by
  have hnone : (varMap vars).get? (trim inner) = none := by
    rw [get?_varMap h]
    cases hfind : findVar vars (trim inner) with
    | none => rfl
    | some found =>
      obtain ⟨hmem, hkey⟩ := key_of_findVar hfind
      rw [← hkey, h.identifier found hmem] at hid
      cases hid
  have hrust : resolveName tables (varMap vars) visited (strTrim inner) =
      pushToken (trim inner) := by
    rw [htrim, resolveName]
    simp only [hnone, ite_self]
  rw [hrust]
  exact T.unparsed hallowed hinner

theorem same_of_expr (h : PosixVars vars) {inner part : Text} (hparen : '(' ∉ inner)
    (hallowed : isIdentifier (trim inner) = false → T.Allows inner)
    (htrim : strTrim inner = trim inner) (hinner : ¬ closeBraces <:+: inner)
    (hpart : Parts (Beside vars T tables visited) (segmentPieces (.expr inner)) part) :
    T.Rel part (resolveName tables (varMap vars) visited (strTrim inner)) := by
  rw [segmentPieces, exprToken_plain hparen] at hpart
  split_ifs at hpart with hid
  · rw [htrim]
    exact (Parts.singleton_iff (R := Beside vars T tables visited)).mp hpart
  · rw [parts_plain.mp hpart]
    have hid : isIdentifier (trim inner) = false := by simpa using hid
    exact same_unparsed h hid (hallowed hid) htrim hinner

/-! ## A whole text -/

theorem same_of_parts (h : PosixVars vars) {text out : Text} {segs : List Segment}
    (hsegs : Segmented text segs) (hplain : ∀ c ∈ text, c ≠ '"' ∧ c ≠ '(')
    (htrims : ∀ inner, .expr inner ∈ segs → strTrim inner = trim inner ∧
      (isIdentifier (trim inner) = false → T.Allows inner))
    (hparts : Parts (fun seg => Parts (Beside vars T tables visited) (segmentPieces seg)) segs out) :
    T.Rel out (resolveInner tables (varMap vars) visited text) := by
  induction hsegs generalizing out with
  | nil =>
    rw [hparts, Resolve.resolveInner_unclosed (by simp [closing])]
    exact T.refl []
  | @char c rest segs hc _ ih =>
    obtain ⟨part, tail, rfl, hpart, htail⟩ := hparts
    obtain rfl : part = [c] :=
      (Parts.singleton_iff (R := Beside vars T tables visited)).mp hpart
    have hopen : ¬ opening <+: c :: rest := by
      rintro ⟨after, hafter⟩
      obtain ⟨rfl, hrest⟩ := List.cons.inj hafter
      exact hc ⟨rfl, by rw [← hrest]; rfl⟩
    rw [Resolve.resolveInner_char hopen]
    exact T.append (T.refl [c]) (ih (fun d hd => hplain d (List.mem_cons_of_mem _ hd))
      (fun inner hinner => htrims inner (List.mem_cons_of_mem _ hinner)) htail)
  | @unclosed rest segs hclose _ ih =>
    obtain ⟨part, tail, rfl, hpart, htail⟩ := hparts
    obtain rfl : part = ['{'] :=
      (Parts.singleton_iff (R := Beside vars T tables visited)).mp hpart
    have hquote : '"' ∉ rest := fun hmem =>
      (hplain '"' (List.mem_cons_of_mem _ (List.mem_cons_of_mem _ hmem))).1 rfl
    have hnone : splitOnce closing rest = none := by
      rw [closeAt_plain hquote] at hclose
      exact Option.map_eq_none_iff.mp hclose
    have hno : ¬ closing <:+: '{' :: rest := by
      rw [List.infix_cons_iff, not_or]
      refine ⟨?_, (Resolve.splitOnce_eq_none (by decide)).mp hnone⟩
      simp [closing]
    have hno' : ¬ closing <:+: '{' :: '{' :: rest := by
      rw [List.infix_cons_iff, not_or]
      exact ⟨by simp [closing], hno⟩
    have hrest := ih (fun d hd => hplain d (List.mem_cons_of_mem _ hd))
      (fun inner hinner => htrims inner (List.mem_cons_of_mem _ hinner)) htail
    rw [Resolve.resolveInner_unclosed hno] at hrest
    rw [Resolve.resolveInner_unclosed hno']
    exact T.append (T.refl ['{']) hrest
  | @expr inner rest segs hends _ ih =>
    obtain ⟨part, tail, rfl, hpart, htail⟩ := hparts
    have hinside : ∀ d ∈ inner ++ '}' :: '}' :: rest, d ≠ '"' ∧ d ≠ '(' := fun d hd =>
      hplain d (List.mem_cons_of_mem _ (List.mem_cons_of_mem _ hd))
    have hsplit := splitOnce_of_ends (fun hmem => (hinside _ hmem).1 rfl) hends
    have hquote : '"' ∉ inner := fun hmem => (hinside _ (List.mem_append_left _ hmem)).1 rfl
    have hparen : '(' ∉ inner := fun hmem => (hinside _ (List.mem_append_left _ hmem)).2 rfl
    rw [show '{' :: '{' :: (inner ++ '}' :: '}' :: rest) =
      opening ++ (inner ++ '}' :: '}' :: rest) from rfl, Resolve.resolveInner_expr hsplit]
    refine T.append ?_ (ih (fun d hd => hinside d ?_)
      (fun inner hinner => htrims inner (List.mem_cons_of_mem _ hinner)) htail)
    · obtain ⟨htrim, hallowed⟩ := htrims inner List.mem_cons_self
      exact same_of_expr h hparen hallowed htrim (not_closing_of_ends hquote hends) hpart
    · simp [hd]

/-! ## The web resolver -/

theorem infix_of_segment {text inner : Text} {segs : List Segment} (h : Segmented text segs)
    (hinner : .expr inner ∈ segs) : inner <:+: text := by
  induction h with
  | nil => cases hinner
  | char _ _ ih =>
    exact (ih (by simpa using hinner)).trans (List.suffix_cons _ _).isInfix
  | unclosed _ _ ih =>
    exact (ih (by simpa using hinner)).trans (List.suffix_cons _ _).isInfix
  | @expr inner' rest segs _ _ ih =>
    rcases List.mem_cons.mp hinner with heq | hmem
    · cases heq
      exact ⟨['{', '{'], '}' :: '}' :: rest, by simp⟩
    · exact (ih hmem).trans ⟨'{' :: '{' :: (inner' ++ ['}', '}']), [], by simp⟩

/-- A plain template holds no call. -/
theorem not_func_of_plain {text : Text} (h : PlainTemplate text) {name : Text} {args : JsRecord} :
    .func name args ∉ tokenize text := by
  intro hmem
  have hpiece : Piece.token (.func name args) ∈ (tokenize text).flatMap pieces :=
    List.mem_flatMap.mpr ⟨_, hmem, List.mem_singleton_self _⟩
  rw [pieces_tokenize] at hpiece
  obtain ⟨seg, hseg, hpiece⟩ := List.mem_flatMap.mp hpiece
  cases seg with
  | char c => cases List.mem_singleton.mp hpiece
  | unclosed => cases List.mem_singleton.mp hpiece
  | expr inner =>
    have hparen : '(' ∉ inner := fun hin =>
      (h.plain '(' ((infix_of_segment (segmented_segments text) hseg).subset hin)).2.1 rfl
    rw [segmentPieces, exprToken_plain hparen] at hpiece
    split_ifs at hpiece
    · cases List.mem_singleton.mp hpiece
    · obtain ⟨c, -, hc⟩ := List.mem_map.mp hpiece
      cases hc

theorem resolveInner_plain {text : Text} (h : ¬ openBraces <:+: text) :
    resolveInner tables (varMap vars) visited text = text := by
  have hnone : splitOnce opening text = none := (Resolve.splitOnce_eq_none (by decide)).mpr h
  rw [Resolve.resolveInner_eq, hnone]

theorem resolveName_kept (h : name ∈ visited ∨ findVar vars name = none) (hvars : PosixVars vars) :
    resolveName tables (varMap vars) visited name = pushToken name := by
  rw [resolveName]
  rcases h with hv | hnone
  · rw [if_neg fun hboth => hboth.2 hv]
  · simp only [get?_varMap hvars, hnone, Option.map_none, ite_self]

theorem resolveName_found {found : EnvironmentVariable} (hv : name ∉ visited)
    (hfound : findVar vars name = some found) (hvars : PosixVars vars) :
    resolveName tables (varMap vars) visited name =
      resolveInner tables (varMap vars) (name :: visited) found.value.toList := by
  obtain ⟨hmem, hkey⟩ := key_of_findVar hfound
  have hid := rust_identifier tables (hkey ▸ hvars.identifier found hmem)
  rw [resolveName, if_pos ⟨hid, hv⟩, get?_varMap hvars, hfound, Option.map_some]

theorem exists_ok_of_mapM {α : Type} {f : α → Except Rejection Text} {xs : List α}
    {P : Text → Prop} (h : ∃ parts, xs.mapM f = .ok parts ∧ P parts.flatten) :
    ∃ out, (do let parts ← xs.mapM f; return parts.flatten) = Except.ok out ∧ P out := by
  obtain ⟨parts, hparts, hP⟩ := h
  exact ⟨parts.flatten, by rw [hparts]; rfl, hP⟩

/-- The induction is on the variables that the way down has not entered. -/
theorem resolveTemplateImpl_same {fns : List BoundTemplateFunction} (h : PosixVars vars)
    (hvalues : ∀ v ∈ vars, PlainTemplate v.value.toList ∧ T.Fits v.value.toList)
    (site : RenderSite) (text : Text) (htext : PlainTemplate text) (hfits : T.Fits text) :
    ∃ out, resolveTemplateImpl vars fns visited site text = .ok out ∧
      T.Rel out (resolveInner tables (varMap vars) visited text) := by
  induction hn : (unvisited (·.key.toList) vars visited).length using Nat.strong_induction_on
    generalizing visited site text with
  | _ n ih =>
    rw [resolveTemplateImpl]
    refine exists_ok_of_mapM ?_
    refine (Parts.exists_mapM (R := fun tok part =>
      Parts (Beside vars T tables visited) (pieces tok.1) part) fun tok htok => ?_).imp
      fun parts hparts => ⟨hparts.1, ?_⟩
    · obtain ⟨tok, i⟩ := tok
      have hmem : tok ∈ tokenize text := List.fst_mem_of_mem_zipIdx htok
      cases tok with
      | plain text => exact ⟨text, rfl, parts_plain.mpr rfl⟩
      | func name args => exact absurd hmem (not_func_of_plain htext)
      | var name =>
        have hkept : name ∈ visited ∨ findVar vars name = none →
            Parts (Beside vars T tables visited) (pieces (.var name)) (serialize [.var name]) := by
          intro hkept
          refine (Parts.singleton_iff (R := Beside vars T tables visited)).mpr ?_
          rw [Beside, resolveName_kept hkept h, serialize_singleton]
          exact T.refl _
        by_cases hv : name ∈ visited
        · exact ⟨_, by simp only [hv, dif_pos], hkept (Or.inl hv)⟩
        · cases hfound : findVar vars name with
          | none =>
            refine ⟨_, ?_, hkept (Or.inr hfound)⟩
            simp only [hv, dif_neg, not_false_eq_true]
            split
            · rfl
            · rename_i hsome
              rw [hfound] at hsome
              cases hsome
          | some found =>
            obtain ⟨hfoundMem, hkey⟩ := key_of_findVar hfound
            obtain ⟨hplain, hfoundFits⟩ := hvalues found hfoundMem
            obtain ⟨out, hout, hsame⟩ : ∃ out,
                (if openBraces <:+: found.value.toList then
                  resolveTemplateImpl vars fns (name :: visited) (i :: site) found.value.toList
                else .ok found.value.toList) = .ok out ∧
                T.Rel out (resolveInner tables (varMap vars) (name :: visited)
                  found.value.toList) := by
              split_ifs with hopen
              · exact ih _ (hn ▸ unvisited_lt hfoundMem hkey hv) (i :: site) _ hplain hfoundFits rfl
              · exact ⟨_, rfl, by rw [resolveInner_plain hopen]; exact T.refl _⟩
            refine ⟨out, ?_, (Parts.singleton_iff (R := Beside vars T tables visited)).mpr ?_⟩
            · simp only [hv, dif_neg, not_false_eq_true]
              split
              · rename_i hnone
                rw [hfound] at hnone
                cases hnone
              · rename_i found' hsome
                obtain rfl : found = found' := by simpa [hfound] using hsome
                exact hout
            · rw [Beside, resolveName_found hv hfound h]
              exact hsame
    · refine same_of_parts h (segmented_segments text)
        (fun c hc => ⟨(htext.plain c hc).1, (htext.plain c hc).2.1⟩)
        (fun inner hinner => ⟨htext.trims inner hinner, hfits inner hinner⟩) ?_
      rw [← Parts.flatMap_iff, ← pieces_tokenize, Parts.flatMap_iff,
        ← List.zipIdx_map_fst 0 (tokenize text), Parts.map_iff]
      exact hparts.2

/-- Both resolvers give a result, and the results agree up to the white space in braces. -/
theorem resolvers_agree (tables : UnicodeTables) (vars : List EnvironmentVariable) (text : Text)
    (hvars : PosixVars vars) (hvalues : ∀ v ∈ vars, PlainTemplate v.value.toList)
    (htext : PlainTemplate text) :
    ∃ out, resolveTemplate text vars [] = .ok out ∧
      SameUpToPadding out (resolveStr tables text (varMap vars)) :=
  resolveTemplateImpl_same (T := padding) hvars
    (fun v hv => ⟨hvalues v hv, fun _ _ _ => trivial⟩) [] text htext fun _ _ _ => trivial

end

/-- Two variables that stand for each other. -/
def cycle : List EnvironmentVariable :=
  [⟨"X", "{{ Y }}", false, true⟩, ⟨"Y", "{{ X }}", false, true⟩]

theorem posixVars_cycle : PosixVars cycle where
  identifier := List.forall_mem_cons.mpr ⟨by decide, List.forall_mem_singleton.mpr (by decide)⟩
  distinct := by decide
  enabled := by simp [cycle]

theorem plainTemplate_expr {text : Text} (inner : Text) (hplain : Unquoted text)
    (hsegs : segments text = [.expr inner]) (htrim : strTrim inner = trim inner) :
    PlainTemplate text where
  plain := hplain
  trims inner' hmem := by
    rw [hsegs] at hmem
    cases List.mem_singleton.mp hmem
    exact htrim

theorem plainTemplate_x : PlainTemplate "{{ X }}".toList :=
  plainTemplate_expr " X ".toList (by simp [Unquoted]) (by decide) (by decide)

theorem resolvers_agree_cycle : ∃ out, resolveTemplate "{{ X }}".toList cycle [] = .ok out ∧
    SameUpToPadding out (resolveStr UnicodeTables.asciiOnly "{{ X }}".toList (varMap cycle)) :=
  resolvers_agree UnicodeTables.asciiOnly cycle _ posixVars_cycle
    (List.forall_mem_cons.mpr ⟨plainTemplate_expr " Y ".toList (by simp [Unquoted]) (by decide)
      (by decide), List.forall_mem_singleton.mpr plainTemplate_x⟩) plainTemplate_x

/-! ## White space of one language only -/

theorem SameUpToPadding.head?_eq {s t : Text} (h : SameUpToPadding s t) : s.head? = t.head? := by
  cases h with
  | nil => rfl
  | char c h => rfl
  | expr inner hinner hspace h => rfl

def one : List EnvironmentVariable := [⟨"A", "1", false, true⟩]

theorem posixVars_one : PosixVars one :=
  ⟨by simp [one, isIdentifier], by simp [one], by simp [one]⟩

/-- A next line character in front of the name, which Rust trims and JavaScript does not. -/
def nextLine : Text := [Char.ofNat 0x85, 'A']

theorem web_keeps_nextLine :
    resolveTemplate (openBraces ++ nextLine ++ closeBraces) one [] =
      .ok (openBraces ++ nextLine ++ closeBraces) := by
  have htokens : tokenize (openBraces ++ nextLine ++ closeBraces) =
      [.plain (openBraces ++ nextLine ++ closeBraces)] := rfl
  rw [resolveTemplate, resolveTemplateImpl, htokens]
  rfl

theorem rust_resolves_nextLine :
    resolveStr UnicodeTables.asciiOnly (openBraces ++ nextLine ++ closeBraces) (varMap one) =
      ['1'] := by
  have hsplit : splitOnce closing (nextLine ++ closeBraces) = some (nextLine, []) := by decide
  rw [resolveStr, List.append_assoc, show openBraces = opening from rfl,
    Resolve.resolveInner_expr hsplit, resolveName, if_pos (by decide),
    show (varMap one).get? (strTrim nextLine) = some ['1'] from by decide]
  simp only [Resolve.resolveInner_unclosed (show ¬ closing <:+: ['1'] by decide),
    Resolve.resolveInner_unclosed (show ¬ closing <:+: [] by decide), List.append_nil]

theorem next_line_splits_resolvers :
    ¬ ∀ (tables : UnicodeTables) (vars : List EnvironmentVariable) (text : Text), PosixVars vars →
      (∀ v ∈ vars, Unquoted v.value.toList) → Unquoted text →
      ∃ out, resolveTemplate text vars [] = .ok out ∧
        SameUpToPadding out (resolveStr tables text (varMap vars)) := by
  intro h
  obtain ⟨out, hout, hsame⟩ := h UnicodeTables.asciiOnly one
    (openBraces ++ nextLine ++ closeBraces) posixVars_one (by simp [one, Unquoted])
    (by simp [Unquoted, openBraces, nextLine, closeBraces])
  rw [web_keeps_nextLine] at hout
  cases hout
  rw [rust_resolves_nextLine] at hsame
  exact absurd hsame.head?_eq (by decide)

end Voleeo.Template
