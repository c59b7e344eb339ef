import Voleeo.Template.Resolve
import Voleeo.Template.RoundTrip

/-!
# What is left of an unresolved template

An expression that names nothing known is written back from its parsed form. The
text of a variable or of an unrecognised expression survives. The text of a call
survives when its arguments are written the way the serializer writes them.
-/
namespace Voleeo.Template

/-! ## What should survive -/

/-- The characters that are not whitespace. -/
def ink (text : Text) : Text := text.filter fun c => !isJsSpace c

/-- Plain text is copied, and an expression that names nothing known keeps its ink. -/
def KeepsInk (vars : List EnvironmentVariable) (fns : List BoundTemplateFunction) :
    Segment → Text → Prop
  | .char c, part => part = [c]
  | .unclosed, part => part = ['{']
  | .expr inner, part =>
    ¬ Known vars fns (exprToken inner) → ink part = ink (openBraces ++ inner ++ closeBraces)

/-- Plain text is copied, and an expression changes only in the whitespace next to its braces. -/
def KeepsText : Segment → Text → Prop
  | .char c, part => part = [c]
  | .unclosed, part => part = ['{']
  | .expr inner, part => ∃ v w, (∀ c ∈ v, isJsSpace c = true) ∧ (∀ c ∈ w, isJsSpace c = true) ∧
      part = openBraces ++ (v ++ trim inner ++ w) ++ closeBraces

def NothingLost (s : Text) : Prop :=
  (∀ vars fns out, resolveTemplate s vars fns = .ok out →
    Parts (KeepsInk vars fns) (segments s) out) ∧
  ∃ out, resolveTemplate s [] [] = .ok out ∧ Parts KeepsText (segments s) out

/-- An argument list as the serializer writes it. -/
def CanonicalArgs (body : Text) : Prop :=
  ∃ args : JsRecord, (∀ key ∈ args.keys, IsArgName key) ∧ protoKey ∉ args.keys ∧
    body = argsText args.entries

def CanonicalSegment : Segment → Prop
  | .expr inner => ∀ name body, matchCall (trim inner) = some (name, body) → CanonicalArgs body
  | _ => True

/-! ## One expression -/

theorem ink_append (s t : Text) : ink (s ++ t) = ink s ++ ink t := List.filter_append s t

theorem ink_space {s : Text} (h : ∀ c ∈ s, isJsSpace c = true) : ink s = [] := by
  rw [ink, List.filter_eq_nil_iff]
  intro c hc
  simp [h c hc]

theorem ink_trim (s : Text) : ink (trim s) = ink s := by
  obtain ⟨v, w, hv, hw, hs⟩ := trim_split s
  rw [congrArg ink hs, ink_append, ink_append, ink_space hv, ink_space hw, List.nil_append,
    List.append_nil]

theorem ink_of_keepsText {inner part : Text} (h : KeepsText (.expr inner) part) :
    ink part = ink (openBraces ++ inner ++ closeBraces) := by
  obtain ⟨v, w, hv, hw, rfl⟩ := h
  simp only [ink_append, ink_space hv, ink_space hw, ink_trim, List.nil_append, List.append_nil]

/-- The written form of an expression keeps the text exactly when its arguments are canonical. -/
theorem keepsText_iff (inner : Text) :
    KeepsText (.expr inner) (renderSegment (.expr inner)) ↔ CanonicalSegment (.expr inner) := by
  have hspace : ∀ c ∈ [' '], isJsSpace c = true := List.forall_mem_singleton.mpr (by decide)
  have htoken : ∀ tok, parseExpr (trim inner) = some tok → exprToken inner = tok := by
    intro tok htok
    rw [exprToken, htok]
    rfl
  rw [renderSegment_expr]
  rcases parseExpr_cases (trim inner) with ⟨name, body, hcall, hparse⟩ | ⟨hcall, hid, hparse⟩ |
    ⟨hcall, -, hparse⟩
  · rw [trim_trim] at hcall
    have hvalid := validCall_of_parseExpr hparse
    obtain ⟨-, -, htext⟩ := matchCall_spec hcall
    rw [normalInner, htoken _ hparse]
    constructor
    · rintro ⟨v, w, hv, hw, heq⟩ name' body' hcall'
      rw [hcall] at hcall'
      cases hcall'
      refine ⟨_, hvalid.arg_names, hvalid.no_proto, ?_⟩
      have hinner : callInner name (parseArgs (trim body)) = v ++ trim inner ++ w :=
        List.append_cancel_left (List.append_cancel_right heq)
      have htrim := congrArg trim hinner
      rw [trim_callInner hvalid.name_ne hvalid.name_chars, trim_padding hv hw, htext] at htrim
      have hbody := List.append_cancel_left htrim
      exact (List.append_cancel_right (List.cons.inj hbody).2).symm
    · intro hcanonical
      obtain ⟨args, hnames, hproto, hbody⟩ := hcanonical name body hcall
      have hargs : parseArgs (trim body) = args := by
        have hentries : ∀ e ∈ args.entries, IsArgName e.1 :=
          fun e he => hnames e.1 (List.mem_map.mpr ⟨e, he, rfl⟩)
        rw [hbody, trim_argsText hentries, parseArgs_argsText hentries,
          JsRecord.ofEntries_entries hproto]
      refine ⟨[' '], [' '], hspace, hspace, ?_⟩
      rw [htext, hargs, hbody]
      simp [callInner]
  · rw [trim_trim] at hcall hid hparse
    rw [normalInner, htoken _ hparse]
    constructor
    · intro _ name body hcall'
      rw [hcall] at hcall'
      cases hcall'
    · intro _
      exact ⟨[' '], [' '], hspace, hspace, rfl⟩
  · rw [trim_trim] at hcall
    have htok : exprToken inner = .plain (openBraces ++ inner ++ closeBraces) := by
      rw [exprToken, hparse]
      rfl
    rw [normalInner, htok]
    constructor
    · intro _ name body hcall'
      rw [hcall] at hcall'
      cases hcall'
    · intro _
      obtain ⟨v, w, hv, hw, hs⟩ := trim_split inner
      exact ⟨v, w, hv, hw, congrArg (fun s => openBraces ++ s ++ closeBraces) hs⟩

/-! ## Resolved templates in parts -/

/-- A character is copied, and a token that names nothing known is written back. -/
def WritesBack (vars : List EnvironmentVariable) (fns : List BoundTemplateFunction) :
    Piece → Text → Prop
  | .char c, part => part = [c]
  | .token t, part => ¬ Known vars fns t → part = serializeToken t

theorem parts_chars {vars : List EnvironmentVariable} {fns : List BoundTemplateFunction}
    {text out : Text} : Parts (WritesBack vars fns) (text.map .char) out ↔ out = text := by
  rw [Parts.map_iff]
  induction text generalizing out with
  | nil => rfl
  | cons c text ih =>
    constructor
    · rintro ⟨part, rest, rfl, rfl, hrest⟩
      rw [ih.mp hrest]
      rfl
    · rintro rfl
      exact ⟨[c], text, rfl, rfl, ih.mpr rfl⟩

theorem parts_pieces {vars : List EnvironmentVariable} {fns : List BoundTemplateFunction}
    {tok : TemplateToken} {part : Text} :
    Parts (WritesBack vars fns) (pieces tok) part ↔
      (¬ Known vars fns tok → part = serializeToken tok) := by
  cases tok with
  | plain text =>
    have hknown : ¬ Known vars fns (.plain text) := id
    simp only [pieces, parts_chars, hknown, not_false_eq_true, true_imp_iff, serializeToken]
  | var name => exact Parts.singleton_iff
  | func name args => exact Parts.singleton_iff

/-- A resolved template consists of one part for each segment. -/
theorem parts_resolveTemplate {vars : List EnvironmentVariable}
    {fns : List BoundTemplateFunction} {s out : Text} (h : resolveTemplate s vars fns = .ok out) :
    Parts (fun seg => Parts (WritesBack vars fns) (segmentPieces seg)) (segments s) out := by
  rw [← Parts.flatMap_iff, ← pieces_tokenize, Parts.flatMap_iff]
  exact (resolveTemplateImpl_ok h).mono fun tok _ part hpart => parts_pieces.mpr hpart

theorem keepsInk_of_parts {vars : List EnvironmentVariable} {fns : List BoundTemplateFunction}
    {seg : Segment} (hseg : CanonicalSegment seg) {part : Text}
    (h : Parts (WritesBack vars fns) (segmentPieces seg) part) : KeepsInk vars fns seg part := by
  cases seg with
  | char c => exact Parts.singleton_iff.mp h
  | unclosed => exact Parts.singleton_iff.mp h
  | expr inner =>
    intro hknown
    have hpart : part = renderSegment (.expr inner) := parts_pieces.mp h hknown
    rw [hpart]
    exact ink_of_keepsText ((keepsText_iff inner).mpr hseg)

/-! ## The parts are determined -/

theorem ends_cons {q : Quote} {c : Char} {text : Text} :
    Ends q (c :: text) ↔
      ¬ (q = .out ∧ c = '}' ∧ (text ++ ['}']).head? = some '}') ∧ Ends (q.next c) text := by
  have hhead : ∀ rest, (text ++ '}' :: '}' :: rest).head? = (text ++ ['}']).head? := by
    intro rest
    cases text <;> rfl
  constructor
  · intro h
    have hno : ¬ (q = .out ∧ c = '}' ∧ (text ++ ['}']).head? = some '}') := by
      intro hclose
      have hsome := h []
      rw [List.cons_append, closeAt_cons, hhead, if_pos hclose] at hsome
      cases hsome
    refine ⟨hno, fun rest => ?_⟩
    have hsome := h rest
    rw [List.cons_append, closeAt_cons, hhead, if_neg hno, Option.map_eq_some_iff] at hsome
    obtain ⟨n, hn, heq⟩ := hsome
    rw [hn]
    exact congrArg some (Nat.succ.inj heq)
  · rintro ⟨hno, h⟩ rest
    rw [List.cons_append, closeAt_cons, hhead, if_neg hno, h rest]
    rfl

theorem ends_unique {q : Quote} {s t : Text} (r r' : Text) (hs : Ends q s) (ht : Ends q t)
    (heq : s ++ '}' :: '}' :: r = t ++ '}' :: '}' :: r') : s = t := by
  have hlen := hs r
  rw [heq, ht r'] at hlen
  exact (List.append_inj heq (Option.some.inj hlen).symm).1

theorem passes_space {q : Quote} (hq : q ≠ .escaped) {v : Text}
    (hv : ∀ c ∈ v, isJsSpace c = true) : Passes q v q := by
  have hne : ∀ c ∈ v, ∀ d, isJsSpace d = false → c ≠ d := by
    rintro c hc d hd rfl
    rw [hv c hc] at hd
    cases hd
  cases q with
  | out => exact passes_out fun c hc => ⟨hne c hc _ (by decide), hne c hc _ (by decide)⟩
  | quoted => exact passes_quoted fun c hc => ⟨hne c hc _ (by decide), hne c hc _ (by decide)⟩
  | escaped => exact absurd rfl hq

/-- Whitespace does not lead out of quotes. -/
theorem out_of_ends_space {q : Quote} {v : Text} (hv : ∀ c ∈ v, isJsSpace c = true)
    (h : Ends q v) : q = .out := by
  cases q with
  | out => rfl
  | quoted =>
    have hsome := h []
    rw [passes_space (by decide) hv] at hsome
    cases hsome
  | escaped =>
    have hsome := h []
    cases v with
    | nil => cases hsome
    | cons c v =>
      have hpass : Passes .escaped (c :: v) .quoted :=
        passes_cons (by simp)
          (passes_space (by simp [Quote.next]) fun d hd => hv d (List.mem_cons_of_mem _ hd))
      rw [hpass] at hsome
      cases hsome

/-- Whitespace behind the last parenthesis may be exchanged. -/
theorem ends_respace {q : Quote} {s v w : Text} (hv : ∀ c ∈ v, isJsSpace c = true)
    (hw : ∀ c ∈ w, isJsSpace c = true) (h : Ends q (s ++ ')' :: v)) :
    Ends q (s ++ ')' :: w) := by
  induction s generalizing q with
  | nil =>
    rw [List.nil_append, ends_cons] at h ⊢
    refine ⟨fun hclose => absurd hclose.2.1 (by decide), ?_⟩
    rw [out_of_ends_space hv h.2]
    exact (passes_space (by decide) hw).ends
  | cons c s ih =>
    rw [List.cons_append, ends_cons] at h ⊢
    refine ⟨?_, ih h.2⟩
    have hhead : (s ++ ')' :: w ++ ['}']).head? = (s ++ ')' :: v ++ ['}']).head? := by
      cases s <;> rfl
    rw [hhead]
    exact h.1

theorem ends_padding {s v v' w w' : Text} (hv : ∀ c ∈ v, isJsSpace c = true)
    (hv' : ∀ c ∈ v', isJsSpace c = true) (hw : ∀ c ∈ w, isJsSpace c = true)
    (hw' : ∀ c ∈ w', isJsSpace c = true) (h : Ends .out (v ++ (s ++ [')']) ++ w)) :
    Ends .out (v' ++ (s ++ [')']) ++ w') := by
  have hinner : Ends .out (s ++ ')' :: w) := by
    intro rest
    have hsome := h rest
    have hsplit : v ++ (s ++ [')']) ++ w ++ '}' :: '}' :: rest =
        v ++ (s ++ ')' :: w ++ '}' :: '}' :: rest) := by simp
    rw [hsplit, passes_space (by decide) hv, Option.map_eq_some_iff] at hsome
    obtain ⟨n, hn, hlen⟩ := hsome
    rw [hn]
    simp only [List.length_append, List.length_cons, List.length_nil] at hlen ⊢
    exact congrArg some (by omega)
  intro rest
  have hsplit : v' ++ (s ++ [')']) ++ w' ++ '}' :: '}' :: rest =
      v' ++ (s ++ ')' :: w' ++ '}' :: '}' :: rest) := by simp
  rw [hsplit, passes_space (by decide) hv', ends_respace hw hw' hinner rest]
  simp only [Option.map_some, List.length_append, List.length_cons, List.length_nil]
  exact congrArg some (by omega)

theorem space_unique {v w x y : Text} (hv : ∀ c ∈ v, isJsSpace c = true)
    (hw : ∀ c ∈ w, isJsSpace c = true) (hx : ∀ c ∈ x.head?, isJsSpace c = false)
    (hy : ∀ c ∈ y.head?, isJsSpace c = false) (heq : v ++ x = w ++ y) : v = w ∧ x = y := by
  induction v generalizing w with
  | nil =>
    cases w with
    | nil => exact ⟨rfl, heq⟩
    | cons c w =>
      have hc := hx c (by rw [show x = c :: (w ++ y) from heq]; rfl)
      rw [hw c List.mem_cons_self] at hc
      cases hc
  | cons c v ih =>
    cases w with
    | nil =>
      have hc := hy c (by rw [show y = c :: (v ++ x) from heq.symm]; rfl)
      rw [hv c List.mem_cons_self] at hc
      cases hc
    | cons d w =>
      obtain ⟨rfl, htail⟩ := List.cons.inj heq
      obtain ⟨rfl, rfl⟩ := ih (fun a ha => hv a (List.mem_cons_of_mem _ ha))
        (fun a ha => hw a (List.mem_cons_of_mem _ ha)) htail
      exact ⟨rfl, rfl⟩

theorem padding_unique {s v v' w w' : Text} (r r' : Text) (hs : ∀ c ∈ s.head?, isJsSpace c = false)
    (hv : ∀ c ∈ v, isJsSpace c = true) (hv' : ∀ c ∈ v', isJsSpace c = true)
    (hw : ∀ c ∈ w, isJsSpace c = true) (hw' : ∀ c ∈ w', isJsSpace c = true)
    (heq : v ++ s ++ w ++ '}' :: r = v' ++ s ++ w' ++ '}' :: r') :
    v ++ s ++ w = v' ++ s ++ w' := by
  have hbrace : ∀ r : Text, ∀ c ∈ ('}' :: r).head?, isJsSpace c = false := by
    intro r c hc
    obtain rfl : '}' = c := Option.some.inj hc
    decide
  cases s with
  | nil =>
    simp only [List.append_nil] at heq ⊢
    refine (space_unique ?_ ?_ (hbrace r) (hbrace r') heq).1
    · intro c hc
      exact (List.mem_append.mp hc).elim (hv c) (hw c)
    · intro c hc
      exact (List.mem_append.mp hc).elim (hv' c) (hw' c)
  | cons c s =>
    have hhead : ∀ z : Text, ∀ d ∈ ((c :: s) ++ z).head?, isJsSpace d = false :=
      fun z d hd => hs d hd
    rw [List.append_assoc, List.append_assoc, List.append_assoc, List.append_assoc] at heq
    obtain ⟨rfl, htail⟩ := space_unique hv hv' (hhead _) (hhead _) heq
    obtain ⟨rfl, -⟩ := space_unique hw hw' (hbrace r) (hbrace r') (List.append_cancel_left htail)
    rfl

/-- At the place of an expression, the only part that keeps the text is the one written. -/
theorem part_unique {inner part r r' : Text} (hends : Ends .out inner)
    (hpart : KeepsText (.expr inner) part)
    (heq : renderSegment (.expr inner) ++ r = part ++ r') : part = renderSegment (.expr inner) := by
  by_cases hkeeps : KeepsText (.expr inner) (renderSegment (.expr inner))
  · obtain ⟨v, w, hv, hw, rfl⟩ := hpart
    obtain ⟨v', w', hv', hw', hrender⟩ := hkeeps
    rw [hrender] at heq ⊢
    simp only [List.append_assoc] at heq
    have hinner := List.append_cancel_left heq
    rw [padding_unique ('}' :: r') ('}' :: r) (trim_head inner) hv hv' hw hw']
    simpa [closeBraces] using hinner.symm
  · obtain ⟨v, w, hv, hw, rfl⟩ := hpart
    rw [keepsText_iff] at hkeeps
    obtain ⟨name, body, hcall⟩ : ∃ name body, matchCall (trim inner) = some (name, body) := by
      by_contra hno
      push Not at hno
      exact hkeeps fun name body hcall => absurd hcall (hno name body)
    obtain ⟨-, -, htext⟩ := matchCall_spec hcall
    have hparen : trim inner = (name ++ '(' :: body) ++ [')'] := by simp [htext]
    obtain ⟨v', w', hv', hw', hinner⟩ := trim_split inner
    have hpadded : Ends .out (v ++ trim inner ++ w) := by
      rw [hparen]
      apply ends_padding hv' hv hw' hw
      rw [← hparen, ← hinner]
      exact hends
    have hnormal : normalInner inner = v ++ trim inner ++ w := by
      apply ends_unique r r' (ends_normalInner hends) hpadded
      rw [renderSegment_expr] at heq
      simp only [List.append_assoc] at heq
      simpa [closeBraces] using List.append_cancel_left heq
    rw [renderSegment_expr, hnormal]

/-- When the written template keeps the text part by part, every written expression does. -/
theorem canonical_of_parts {text : Text} {segs : List Segment} (h : Segmented text segs)
    (hparts : Parts KeepsText segs (segs.flatMap renderSegment)) :
    ∀ seg ∈ segs, CanonicalSegment seg := by
  induction h with
  | nil => simp
  | char hc hrest ih =>
    obtain ⟨part, rest, heq, rfl, hrestParts⟩ := hparts
    rw [List.flatMap_cons] at heq
    have htail := @List.append_cancel_left _ [_] _ _ heq
    rw [← htail] at hrestParts
    exact List.forall_mem_cons.mpr ⟨trivial, ih hrestParts⟩
  | unclosed hclose hrest ih =>
    obtain ⟨part, rest, heq, rfl, hrestParts⟩ := hparts
    rw [List.flatMap_cons] at heq
    have htail := @List.append_cancel_left _ ['{'] _ _ heq
    rw [← htail] at hrestParts
    exact List.forall_mem_cons.mpr ⟨trivial, ih hrestParts⟩
  | @expr inner rest segs hends hrest ih =>
    obtain ⟨part, out, heq, hpart, hrestParts⟩ := hparts
    rw [List.flatMap_cons] at heq
    have hunique := part_unique hends hpart heq
    rw [hunique] at heq hpart
    rw [← List.append_cancel_left heq] at hrestParts
    exact List.forall_mem_cons.mpr ⟨(keepsText_iff inner).mp hpart, ih hrestParts⟩

/-- Exactly when nothing is lost: every call of the template has its arguments in the form in
which the serializer writes them. -/
theorem nothingLost_iff (s : Text) :
    NothingLost s ↔ ∀ seg ∈ segments s, CanonicalSegment seg := by
  constructor
  · rintro ⟨-, out, hout, hparts⟩
    rw [resolveTemplate, resolveTemplateImpl_nil, serialize_tokenize] at hout
    cases hout
    exact canonical_of_parts (segmented_segments s) hparts
  · intro hcanonical
    refine ⟨fun vars fns out hout => ?_, _, resolveTemplateImpl_nil [] [] s, ?_⟩
    · exact (parts_resolveTemplate hout).mono fun seg hseg part hpart =>
        keepsInk_of_parts (hcanonical seg hseg) hpart
    · rw [serialize_tokenize]
      apply Parts.of_forall
      intro seg hseg
      cases seg with
      | char c => rfl
      | unclosed => rfl
      | expr inner => exact (keepsText_iff inner).mpr (hcanonical _ hseg)

theorem not_known_nil (tok : TemplateToken) : ¬ Known [] [] tok := by
  cases tok <;> simp [Known, findVar, findFn]

/-- A positional argument is dropped. -/
theorem positional_argument_is_lost : ¬ ∀ s : Text, NothingLost s := by
  intro h
  obtain ⟨hink, -⟩ := h "{{ f(x) }}".toList
  have hsegs : segments "{{ f(x) }}".toList = [.expr " f(x) ".toList] := by decide
  have hout : resolveTemplate "{{ f(x) }}".toList [] [] = .ok "{{ f() }}".toList := by
    rw [resolveTemplate, resolveTemplateImpl_nil]
    decide
  have hparts := hink [] [] _ hout
  rw [hsegs, Parts.singleton_iff] at hparts
  exact absurd (hparts (not_known_nil _)) (by decide)

end Voleeo.Template
