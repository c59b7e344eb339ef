import Voleeo.Template.Segments

/-!
# The search through serialized text

Started outside quotes, the search for an end runs through the arguments of a
call and stops behind it. Started inside quotes it sees the call with its quotes
swapped, and a quote or a pair of braces in an argument value lets it end there.
-/
namespace Voleeo.Template

/-- The search runs through the text and is in state `q'` behind it. -/
def Passes (q : Quote) (text : Text) (q' : Quote) : Prop :=
  ∀ y, closeAt q (text ++ y) = (closeAt q' y).map (· + text.length)

theorem map_add_map_add (o : Option ℕ) (a b : ℕ) :
    (o.map (· + a)).map (· + b) = o.map (· + (a + b)) := by
  cases o <;> simp [Nat.add_assoc]

theorem passes_nil (q : Quote) : Passes q [] q := by
  intro y
  simp

theorem Passes.append {q q' q'' : Quote} {s t : Text} (hs : Passes q s q')
    (ht : Passes q' t q'') : Passes q (s ++ t) q'' := by
  intro y
  rw [List.append_assoc, hs, ht, map_add_map_add, List.length_append, Nat.add_comm t.length]

theorem passes_cons {q q' : Quote} {c : Char} {text : Text} (hc : q = .out → c ≠ '}')
    (h : Passes (q.next c) text q') : Passes q (c :: text) q' := by
  intro y
  have hno : ¬ (q = .out ∧ c = '}' ∧ (text ++ y).head? = some '}') :=
    fun hclose => hc hclose.1 hclose.2.1
  rw [List.cons_append, closeAt_cons, if_neg hno, h, map_add_map_add, List.length_cons]

theorem passes_char {q : Quote} {c : Char} (hc : q = .out → c ≠ '}') : Passes q [c] (q.next c) :=
  passes_cons hc (passes_nil _)

theorem Passes.isSome {q q' : Quote} {text : Text} (h : Passes q text q') (y : Text) :
    (closeAt q (text ++ y)).isSome = (closeAt q' y).isSome := by
  rw [h, Option.isSome_map]

/-- A search that runs through outside quotes finds the braces behind. -/
theorem Passes.ends {q : Quote} {text : Text} (h : Passes q text .out) : Ends q text := by
  intro rest
  rw [h, closeAt_braces]
  simp

/-- Inside quotes, text without quotes and backslashes is passed. -/
theorem passes_quoted {z : Text} (h : ∀ c ∈ z, c ≠ '"' ∧ c ≠ '\\') :
    Passes .quoted z .quoted := by
  induction z with
  | nil => exact passes_nil _
  | cons c z ih =>
    obtain ⟨hq, hs⟩ := h c List.mem_cons_self
    have hnext : Quote.quoted.next c = .quoted := by simp [Quote.next, hq, hs]
    refine passes_cons (by simp) ?_
    rw [hnext]
    exact ih fun d hd => h d (List.mem_cons_of_mem _ hd)

/-- Outside quotes, text without quotes and closing braces is passed. -/
theorem passes_out {z : Text} (h : ∀ c ∈ z, c ≠ '"' ∧ c ≠ '}') : Passes .out z .out := by
  induction z with
  | nil => exact passes_nil _
  | cons c z ih =>
    obtain ⟨hq, hb⟩ := h c List.mem_cons_self
    have hnext : Quote.out.next c = .out := by simp [Quote.next, hq]
    refine passes_cons (fun _ => hb) ?_
    rw [hnext]
    exact ih fun d hd => h d (List.mem_cons_of_mem _ hd)

/-- Inside quotes, an escaped value is passed whatever it holds. -/
theorem passes_quoted_escape (v : Text) : Passes .quoted (escapeArgValue v) .quoted := by
  induction v with
  | nil => exact passes_nil _
  | cons c v ih =>
    rw [escapeArgValue_cons]
    refine Passes.append ?_ ih
    by_cases hc : c = '\\' ∨ c = '"'
    · have hesc : escapeChar c = ['\\', c] := by simp [escapeChar, hc]
      have hnext : Quote.quoted.next '\\' = .escaped := by decide
      rw [hesc]
      refine passes_cons (by simp) ?_
      rw [hnext]
      exact passes_char (by simp)
    · have hesc : escapeChar c = [c] := by simp [escapeChar, hc]
      rw [not_or] at hc
      rw [hesc]
      exact passes_quoted (by simpa using ⟨hc.2, hc.1⟩)

/-! ## Values with the quotes swapped -/

/-- A value in which a search with swapped quotes does not end. -/
def CleanValue (v : Text) : Prop := '"' ∉ v ∧ ¬ closeBraces <:+: v

theorem cleanValue_of_cons {c : Char} {v : Text} (h : CleanValue (c :: v)) : CleanValue v :=
  ⟨fun hq => h.1 (List.mem_cons_of_mem _ hq), fun hb => h.2 (hb.trans (List.infix_cons_iff.mpr
    (Or.inr List.infix_rfl)))⟩

theorem head?_escape_ne_brace {v y : Text} (hv : v.head? ≠ some '}') :
    (escapeArgValue v ++ '"' :: y).head? ≠ some '}' := by
  cases v with
  | nil => simp [escapeArgValue]
  | cons c v =>
    have hc : c ≠ '}' := fun h => hv (by simp [h])
    rw [escapeArgValue_cons]
    unfold escapeChar
    split_ifs
    · simp
    · simpa using hc

/-- Outside quotes, a clean value is passed, and its closing quote opens. -/
theorem passes_out_escape {v : Text} (h : CleanValue v) :
    Passes .out (escapeArgValue v ++ ['"']) .quoted := by
  induction v with
  | nil => exact passes_char (by simp)
  | cons c v ih =>
    have hv := ih (cleanValue_of_cons h)
    have hq : c ≠ '"' := fun hc => h.1 (by simp [hc])
    rw [escapeArgValue_cons, List.append_assoc]
    by_cases hs : c = '\\'
    · have hesc : escapeChar c = ['\\', '\\'] := by simp [escapeChar, hs]
      rw [hesc]
      exact (passes_out (by simp)).append hv
    · have hesc : escapeChar c = [c] := by simp [escapeChar, hs, hq]
      have hnext : Quote.out.next c = .out := by simp [Quote.next, hq]
      intro y
      have hno : ¬ (Quote.out = .out ∧ c = '}' ∧
          (escapeArgValue v ++ ['"'] ++ y).head? = some '}') := by
        rintro ⟨-, rfl, hhead⟩
        rw [List.append_assoc, List.singleton_append] at hhead
        apply head?_escape_ne_brace (v := v) (y := y) _ hhead
        intro hv'
        apply h.2
        cases v with
        | nil => cases hv'
        | cons d v =>
          obtain rfl : d = '}' := Option.some.inj hv'
          exact ⟨[], v, rfl⟩
      rw [hesc, List.singleton_append, List.cons_append, closeAt_cons, if_neg hno, hnext, hv,
        map_add_map_add, List.length_cons]

/-- Outside quotes, a value that is not clean ends the search or swaps the quotes back. -/
theorem closeAt_out_escape_isSome {v : Text} (h : ¬ CleanValue v) {y : Text}
    (hy : (closeAt .out y).isSome = true) :
    (closeAt .out (escapeArgValue v ++ '"' :: y)).isSome = true := by
  induction v with
  | nil => exact absurd ⟨by simp, by simp [closeBraces]⟩ h
  | cons c v ih =>
    rw [escapeArgValue_cons, List.append_assoc]
    by_cases hq : c = '"'
    · have hesc : escapeChar c = ['\\', '"'] := by simp [escapeChar, hq]
      have hopen : Passes .out ['\\', '"'] .quoted :=
        passes_cons (by simp) (passes_char (by simp))
      have hclose : Passes .quoted ['"'] .out := passes_char (by simp)
      have hpass := (hopen.append (passes_quoted_escape v)).append hclose
      have htext : escapeChar c ++ (escapeArgValue v ++ '"' :: y) =
          ['\\', '"'] ++ escapeArgValue v ++ ['"'] ++ y := by simp [hesc]
      rw [htext, hpass.isSome]
      exact hy
    by_cases hs : c = '\\'
    · have hesc : escapeChar c = ['\\', '\\'] := by simp [escapeChar, hs]
      have hv : ¬ CleanValue v := by
        intro hv
        apply h
        refine ⟨?_, ?_⟩
        · simpa [hs] using hv.1
        · intro hb
          rcases List.infix_cons_iff.mp hb with hb | hb
          · rw [hs] at hb
            simp [closeBraces] at hb
          · exact hv.2 hb
      rw [hesc, (passes_out (by simp)).isSome]
      exact ih hv
    · have hesc : escapeChar c = [c] := by simp [escapeChar, hs, hq]
      have hnext : Quote.out.next c = .out := by simp [Quote.next, hq]
      rw [hesc, List.singleton_append, closeAt_cons, hnext]
      split_ifs with hclose
      · rfl
      · rw [Option.isSome_map]
        apply ih
        intro hv
        apply h
        refine ⟨?_, ?_⟩
        · simpa [Ne.symm hq] using hv.1
        · intro hb
          rcases List.infix_cons_iff.mp hb with hb | hb
          · apply hclose
            obtain ⟨z, hz⟩ := hb
            cases hz
            exact ⟨rfl, rfl, by simp [escapeArgValue_cons, escapeChar]⟩
          · exact hv.2 hb

/-! ## Arguments -/

theorem nameChar_ne {c d : Char} (h : isNameChar c = true) (hd : isNameChar d = false) : c ≠ d := by
  rintro rfl
  rw [h] at hd
  cases hd

/-- A name holds no quote, backslash or brace. -/
theorem passes_name {q : Quote} (hq : q ≠ .escaped) {name : Text}
    (h : ∀ c ∈ name, isNameChar c = true) : Passes q name q := by
  cases q with
  | out =>
    exact passes_out fun c hc => ⟨nameChar_ne (h c hc) (by decide), nameChar_ne (h c hc) (by decide)⟩
  | quoted =>
    exact passes_quoted fun c hc =>
      ⟨nameChar_ne (h c hc) (by decide), nameChar_ne (h c hc) (by decide)⟩
  | escaped => exact absurd rfl hq

theorem passes_argName {q : Quote} (hq : q ≠ .escaped) {key : Text} (h : IsArgName key) :
    Passes q key q :=
  passes_name hq fun c hc => nameChar_of_wordChar (h.2 c hc)

theorem passes_out_argText {e : Text × Text} (he : IsArgName e.1) :
    Passes .out (argText e) .out := by
  have hkey : Passes .out e.1 .out := passes_argName (by decide) he
  have hopen : Passes .out ['=', '"'] .quoted := passes_cons (by simp) (passes_char (by simp))
  have hclose : Passes .quoted ['"'] .out := passes_char (by simp)
  exact ((hkey.append hopen).append (passes_quoted_escape e.2)).append hclose

theorem passes_out_argsTail {es : List (Text × Text)} (h : ∀ e ∈ es, IsArgName e.1) :
    Passes .out (argsTail es) .out := by
  induction es with
  | nil => exact passes_nil _
  | cons e es ih =>
    have hsep : Passes .out [',', ' '] .out := passes_out (by simp)
    have htail := ih fun a ha => h a (List.mem_cons_of_mem _ ha)
    exact (hsep.append (passes_out_argText (h e List.mem_cons_self))).append htail

theorem passes_out_argsText {es : List (Text × Text)} (h : ∀ e ∈ es, IsArgName e.1) :
    Passes .out (argsText es) .out := by
  cases es with
  | nil => exact passes_nil _
  | cons e es =>
    rw [argsText_cons]
    exact (passes_out_argText (h e List.mem_cons_self)).append
      (passes_out_argsTail fun a ha => h a (List.mem_cons_of_mem _ ha))

theorem passes_quoted_argText {e : Text × Text} (he : IsArgName e.1) (hv : CleanValue e.2) :
    Passes .quoted (argText e) .quoted := by
  have hkey : Passes .quoted e.1 .quoted := passes_argName (by decide) he
  have hopen : Passes .quoted ['=', '"'] .out := passes_cons (by simp) (passes_char (by simp))
  have hpass := (hkey.append hopen).append (passes_out_escape hv)
  rwa [← List.append_assoc] at hpass

theorem closeAt_quoted_argText_isSome {e : Text × Text} (he : IsArgName e.1)
    (hv : ¬ CleanValue e.2) {y : Text} (hy : (closeAt .out y).isSome = true) :
    (closeAt .quoted (argText e ++ y)).isSome = true := by
  have hkey : Passes .quoted e.1 .quoted := passes_argName (by decide) he
  have hopen : Passes .quoted ['=', '"'] .out := passes_cons (by simp) (passes_char (by simp))
  have htext : argText e ++ y = (e.1 ++ ['=', '"']) ++ (escapeArgValue e.2 ++ '"' :: y) := by
    simp [argText]
  rw [htext, (hkey.append hopen).isSome]
  exact closeAt_out_escape_isSome hv hy

theorem passes_quoted_argsTail {es : List (Text × Text)} (h : ∀ e ∈ es, IsArgName e.1)
    (hv : ∀ e ∈ es, CleanValue e.2) : Passes .quoted (argsTail es) .quoted := by
  induction es with
  | nil => exact passes_nil _
  | cons e es ih =>
    have hsep : Passes .quoted [',', ' '] .quoted := passes_quoted (by simp)
    have htail := ih (fun a ha => h a (List.mem_cons_of_mem _ ha))
      fun a ha => hv a (List.mem_cons_of_mem _ ha)
    exact (hsep.append (passes_quoted_argText (h e List.mem_cons_self)
      (hv e List.mem_cons_self))).append htail

theorem closeAt_quoted_argsTail_isSome {es : List (Text × Text)} (h : ∀ e ∈ es, IsArgName e.1)
    (hv : ¬ ∀ e ∈ es, CleanValue e.2) {y : Text} (hy : (closeAt .out y).isSome = true) :
    (closeAt .quoted (argsTail es ++ y)).isSome = true := by
  induction es with
  | nil => exact absurd (by simp) hv
  | cons e es ih =>
    have hsep : Passes .quoted [',', ' '] .quoted := passes_quoted (by simp)
    have he := h e List.mem_cons_self
    have hes : ∀ a ∈ es, IsArgName a.1 := fun a ha => h a (List.mem_cons_of_mem _ ha)
    have htext : argsTail (e :: es) ++ y = [',', ' '] ++ (argText e ++ (argsTail es ++ y)) := by
      simp [argsTail]
    rw [htext, hsep.isSome]
    by_cases hclean : CleanValue e.2
    · rw [(passes_quoted_argText he hclean).isSome]
      apply ih hes
      intro hall
      apply hv
      intro a ha
      rcases List.mem_cons.mp ha with rfl | ha
      · exact hclean
      · exact hall a ha
    · apply closeAt_quoted_argText_isSome he hclean
      rw [(passes_out_argsTail hes).isSome]
      exact hy

theorem passes_quoted_argsText {es : List (Text × Text)} (h : ∀ e ∈ es, IsArgName e.1)
    (hv : ∀ e ∈ es, CleanValue e.2) : Passes .quoted (argsText es) .quoted := by
  cases es with
  | nil => exact passes_nil _
  | cons e es =>
    rw [argsText_cons]
    exact (passes_quoted_argText (h e List.mem_cons_self) (hv e List.mem_cons_self)).append
      (passes_quoted_argsTail (fun a ha => h a (List.mem_cons_of_mem _ ha))
        fun a ha => hv a (List.mem_cons_of_mem _ ha))

theorem closeAt_quoted_argsText_isSome {es : List (Text × Text)} (h : ∀ e ∈ es, IsArgName e.1)
    (hv : ¬ ∀ e ∈ es, CleanValue e.2) {y : Text} (hy : (closeAt .out y).isSome = true) :
    (closeAt .quoted (argsText es ++ y)).isSome = true := by
  cases es with
  | nil => exact absurd (by simp) hv
  | cons e es =>
    -- The text of the list is the tail of the list behind a separator.
    have hsep : Passes .quoted [',', ' '] .quoted := passes_quoted (by simp)
    have htail : argsTail (e :: es) ++ y = [',', ' '] ++ (argsText (e :: es) ++ y) := by
      simp [argsText_cons, argsTail]
    have hsome := closeAt_quoted_argsTail_isSome h hv hy
    rwa [htail, hsep.isSome] at hsome

/-! ## Expressions -/

theorem passes_opening {q : Quote} (hq : q ≠ .out) : Passes q openBraces .quoted := by
  cases q with
  | out => exact absurd rfl hq
  | quoted => exact passes_cons (by simp) (passes_char (by simp))
  | escaped => exact passes_cons (by simp) (passes_char (by simp))

theorem passes_varInner {q : Quote} (hq : q ≠ .escaped) {name : Text}
    (h : ∀ c ∈ name, isWordChar c = true) : Passes q (varInner name) q := by
  have hname : Passes q name q := passes_name hq fun c hc => nameChar_of_wordChar (h c hc)
  have hspace : Passes q [' '] q := by
    cases q with
    | out => exact passes_out (by simp)
    | quoted => exact passes_quoted (by simp)
    | escaped => exact absurd rfl hq
  exact (hspace.append hname).append hspace

theorem callInner_eq (name : Text) (args : JsRecord) :
    callInner name args = [' '] ++ name ++ ['('] ++ argsText args.entries ++ [')', ' '] := by
  simp [callInner]

theorem passes_out_callInner {name : Text} {args : JsRecord}
    (hname : ∀ c ∈ name, isNameChar c = true) (hargs : ∀ key ∈ args.keys, IsArgName key) :
    Passes .out (callInner name args) .out := by
  have hentries : ∀ e ∈ args.entries, IsArgName e.1 :=
    fun e he => hargs e.1 (List.mem_map.mpr ⟨e, he, rfl⟩)
  have hspace : Passes .out [' '] .out := passes_out (by simp)
  have hopen : Passes .out ['('] .out := passes_out (by simp)
  have hclose : Passes .out [')', ' '] .out := passes_out (by simp)
  rw [callInner_eq]
  exact (((hspace.append (passes_name (by decide) hname)).append hopen).append
    (passes_out_argsText hentries)).append hclose

theorem passes_quoted_callInner {name : Text} {args : JsRecord}
    (hname : ∀ c ∈ name, isNameChar c = true) (hargs : ∀ key ∈ args.keys, IsArgName key)
    (hv : ∀ e ∈ args.entries, CleanValue e.2) :
    Passes .quoted (callInner name args) .quoted := by
  have hentries : ∀ e ∈ args.entries, IsArgName e.1 :=
    fun e he => hargs e.1 (List.mem_map.mpr ⟨e, he, rfl⟩)
  have hspace : Passes .quoted [' '] .quoted := passes_quoted (by simp)
  have hopen : Passes .quoted ['('] .quoted := passes_quoted (by simp)
  have hclose : Passes .quoted [')', ' '] .quoted := passes_quoted (by simp)
  rw [callInner_eq]
  exact (((hspace.append (passes_name (by decide) hname)).append hopen).append
    (passes_quoted_argsText hentries hv)).append hclose

theorem closeAt_quoted_callInner_isSome {name : Text} {args : JsRecord}
    (hname : ∀ c ∈ name, isNameChar c = true) (hargs : ∀ key ∈ args.keys, IsArgName key)
    (hv : ¬ ∀ e ∈ args.entries, CleanValue e.2) (y : Text) :
    (closeAt .quoted (callInner name args ++ (closeBraces ++ y))).isSome = true := by
  have hentries : ∀ e ∈ args.entries, IsArgName e.1 :=
    fun e he => hargs e.1 (List.mem_map.mpr ⟨e, he, rfl⟩)
  have hspace : Passes .quoted [' '] .quoted := passes_quoted (by simp)
  have hopen : Passes .quoted ['('] .quoted := passes_quoted (by simp)
  have hclose : Passes .out [')', ' '] .out := passes_out (by simp)
  have hbraces : (closeAt .out ([')', ' '] ++ (closeBraces ++ y))).isSome = true := by
    rw [hclose.isSome]
    simp [closeBraces, closeAt_braces]
  have htext : callInner name args ++ (closeBraces ++ y) = [' '] ++ name ++ ['('] ++
      (argsText args.entries ++ ([')', ' '] ++ (closeBraces ++ y))) := by simp [callInner_eq]
  rw [htext, ((hspace.append (passes_name (by decide) hname)).append hopen).isSome]
  exact closeAt_quoted_argsText_isSome hentries hv hbraces

end Voleeo.Template
