import Voleeo.Template.Search

/-!
# Round trip of tokenizer and serializer

Serialized expressions end where they were written to end, so a template without
unclosed openings keeps its tokens. Behind an unclosed opening the tokens are kept
as long as no argument value holds a quote or a pair of closing braces.
-/
namespace Voleeo.Template

/-! ## The written form of an expression -/

theorem exprToken_cases (inner : Text) :
    (∃ name, isIdentifier name = true ∧ exprToken inner = .var name) ∨
    (∃ name args, ValidCall name args ∧ exprToken inner = .func name args) ∨
    exprToken inner = .plain (openBraces ++ inner ++ closeBraces) := by
  unfold exprToken
  rcases parseExpr_cases (trim inner) with ⟨name, body, -, hparse⟩ | ⟨-, hid, hparse⟩ |
    ⟨-, -, hparse⟩
  · exact Or.inr (Or.inl ⟨name, _, validCall_of_parseExpr hparse, by rw [hparse]; rfl⟩)
  · exact Or.inl ⟨_, hid, by rw [hparse]; rfl⟩
  · exact Or.inr (Or.inr (by rw [hparse]; rfl))

/-- What the serializer writes between the braces of an expression. -/
def normalInner (inner : Text) : Text :=
  match exprToken inner with
  | .plain _ => inner
  | .var name => varInner name
  | .func name args => callInner name args

theorem renderSegment_expr (inner : Text) :
    renderSegment (.expr inner) = openBraces ++ normalInner inner ++ closeBraces := by
  rw [renderSegment, normalInner]
  rcases exprToken_cases inner with ⟨name, -, h⟩ | ⟨name, args, -, h⟩ | h
  · rw [h]
    exact serializeVar_eq name
  · rw [h]
    exact serializeFuncToken_eq name args
  · rw [h]
    rfl

theorem ends_normalInner {inner : Text} (hends : Ends .out inner) :
    Ends .out (normalInner inner) := by
  unfold normalInner
  rcases exprToken_cases inner with ⟨name, hid, h⟩ | ⟨name, args, hcall, h⟩ | h
  · rw [h]
    exact (passes_varInner (by decide) (isIdentifier_spec hid).2).ends
  · rw [h]
    exact (passes_out_callInner hcall.name_chars hcall.arg_names).ends
  · rw [h]
    exact hends

/-- The written form is read as the same expression. -/
theorem segmentPieces_normalInner (inner : Text) :
    segmentPieces (.expr (normalInner inner)) = segmentPieces (.expr inner) := by
  unfold normalInner
  rcases exprToken_cases inner with ⟨name, hid, h⟩ | ⟨name, args, hcall, h⟩ | h
  · simp only [segmentPieces, h]
    rw [exprToken, parseExpr_varInner hid]
    rfl
  · simp only [segmentPieces, h]
    rw [exprToken, parseExpr_valid hcall]
    rfl
  · rw [h]

/-! ## Behind an unclosed opening -/

def CleanToken : TemplateToken → Prop
  | .func _ args => ∀ e ∈ args.entries, CleanValue e.2
  | _ => True

def CleanSegment : Segment → Prop
  | .expr inner => CleanToken (exprToken inner)
  | _ => True

theorem head?_render {text : Text} {segs : List Segment} (h : Segmented text segs) :
    (segs.flatMap renderSegment).head? = text.head? := by
  cases h with
  | nil => rfl
  | char hc h => rfl
  | unclosed hclose h => rfl
  | expr hends h =>
    rw [List.flatMap_cons, renderSegment_expr]
    rfl

theorem closeAt_opening {q : Quote} {c : Char} (hc : c ≠ '}') (rest : Text) :
    closeAt q (c :: rest) = (closeAt (q.next c) rest).map (· + 1) := by
  rw [closeAt_cons, if_neg fun hclose => hc hclose.2.1]

/-- An expression that the search does not end in leaves it inside quotes. -/
theorem not_out_of_none {q : Quote} {inner rest : Text} (hends : Ends .out inner)
    (h : closeAt q ('{' :: '{' :: (inner ++ '}' :: '}' :: rest)) = none) : q ≠ .out := by
  rintro rfl
  have hopen : Passes .out openBraces .out := passes_out (by simp [openBraces])
  have hsome := hopen (inner ++ '}' :: '}' :: rest)
  rw [hends rest] at hsome
  rw [show openBraces ++ (inner ++ '}' :: '}' :: rest) =
    '{' :: '{' :: (inner ++ '}' :: '}' :: rest) from rfl, h] at hsome
  cases hsome

theorem passes_expr {q : Quote} {inner rest : Text} (hends : Ends .out inner)
    (hclean : CleanToken (exprToken inner))
    (h : closeAt q ('{' :: '{' :: (inner ++ '}' :: '}' :: rest)) = none) :
    Passes q (renderSegment (.expr inner)) .quoted := by
  have hopen := passes_opening (not_out_of_none hends h)
  have hclose : Passes .quoted closeBraces .quoted :=
    passes_quoted (by simp [closeBraces])
  rw [renderSegment_expr]
  unfold normalInner
  rcases exprToken_cases inner with ⟨name, hid, htok⟩ | ⟨name, args, hcall, htok⟩ | htok
  · rw [htok]
    exact (hopen.append (passes_varInner (by decide) (isIdentifier_spec hid).2)).append hclose
  · rw [htok] at hclean ⊢
    exact (hopen.append
      (passes_quoted_callInner hcall.name_chars hcall.arg_names hclean)).append hclose
  · rw [htok]
    intro y
    have hthrough := @closeAt_through q ('{' :: '{' :: inner) _ h y
    simpa [openBraces, closeBraces] using hthrough

/-- A search that finds no end in a template finds none in its normal form, when all calls are
clean. -/
theorem closeAt_render_clean {text : Text} {segs : List Segment} (h : Segmented text segs)
    (hclean : ∀ seg ∈ segs, CleanSegment seg) {q : Quote} (hnone : closeAt q text = none) :
    closeAt q (segs.flatMap renderSegment) = none := by
  induction h generalizing q with
  | nil => rfl
  | @char c rest segs hc hrest ih =>
    have htail : ∀ seg ∈ segs, CleanSegment seg :=
      fun seg hseg => hclean seg (List.mem_cons_of_mem _ hseg)
    rw [closeAt_cons] at hnone
    split_ifs at hnone with hclose
    rw [← head?_render hrest] at hclose
    rw [Option.map_eq_none_iff] at hnone
    rw [List.flatMap_cons, renderSegment, List.singleton_append, closeAt_cons, if_neg hclose,
      ih htail hnone]
    rfl
  | @unclosed rest segs hclose hrest ih =>
    have htail : ∀ seg ∈ segs, CleanSegment seg :=
      fun seg hseg => hclean seg (List.mem_cons_of_mem _ hseg)
    rw [closeAt_opening (by decide), Option.map_eq_none_iff] at hnone
    rw [List.flatMap_cons, renderSegment, List.singleton_append, closeAt_opening (by decide),
      ih htail hnone]
    rfl
  | @expr inner rest segs hends hrest ih =>
    have htail : ∀ seg ∈ segs, CleanSegment seg :=
      fun seg hseg => hclean seg (List.mem_cons_of_mem _ hseg)
    have hquoted := @closeAt_quoted_of_none _ ('{' :: '{' :: inner) _ hnone
    rw [List.flatMap_cons, passes_expr hends (hclean _ List.mem_cons_self) hnone, ih htail hquoted]
    rfl

/-- In the normal form the search ends behind the first call, when some call is not clean. -/
theorem closeAt_render_unclean {text : Text} {segs : List Segment} (h : Segmented text segs)
    (hclean : ¬ ∀ seg ∈ segs, CleanSegment seg) {q : Quote} (hnone : closeAt q text = none) :
    ∃ (n : ℕ) (plain : Text) (t : TemplateToken) (ps : List Piece),
      closeAt q (segs.flatMap renderSegment) = some n ∧ plain.length ≤ n ∧
      segs.flatMap segmentPieces = plain.map .char ++ .token t :: ps := by
  induction h generalizing q with
  | nil => exact absurd (by simp) hclean
  | @char c rest segs hc hrest ih =>
    have htail : ¬ ∀ seg ∈ segs, CleanSegment seg :=
      fun hall => hclean (List.forall_mem_cons.mpr ⟨trivial, hall⟩)
    rw [closeAt_cons] at hnone
    split_ifs at hnone with hclose
    rw [← head?_render hrest] at hclose
    rw [Option.map_eq_none_iff] at hnone
    obtain ⟨n, plain, t, ps, hn, hle, hps⟩ := ih htail hnone
    refine ⟨n + 1, c :: plain, t, ps, ?_, Nat.succ_le_succ hle, ?_⟩
    · rw [List.flatMap_cons, renderSegment, List.singleton_append, closeAt_cons, if_neg hclose, hn]
      rfl
    · rw [List.flatMap_cons, hps]
      rfl
  | @unclosed rest segs hclose hrest ih =>
    have htail : ¬ ∀ seg ∈ segs, CleanSegment seg :=
      fun hall => hclean (List.forall_mem_cons.mpr ⟨trivial, hall⟩)
    rw [closeAt_opening (by decide), Option.map_eq_none_iff] at hnone
    obtain ⟨n, plain, t, ps, hn, hle, hps⟩ := ih htail hnone
    refine ⟨n + 1, '{' :: plain, t, ps, ?_, Nat.succ_le_succ hle, ?_⟩
    · rw [List.flatMap_cons, renderSegment, List.singleton_append, closeAt_opening (by decide), hn]
      rfl
    · rw [List.flatMap_cons, hps]
      rfl
  | @expr inner rest segs hends hrest ih =>
    have hquoted := @closeAt_quoted_of_none _ ('{' :: '{' :: inner) _ hnone
    by_cases hseg : CleanToken (exprToken inner)
    · have htail : ¬ ∀ seg ∈ segs, CleanSegment seg :=
        fun hall => hclean (List.forall_mem_cons.mpr ⟨hseg, hall⟩)
      obtain ⟨n, plain, t, ps, hn, hle, hps⟩ := ih htail hquoted
      have hend : closeAt q ((Segment.expr inner :: segs).flatMap renderSegment) =
          some (n + (renderSegment (.expr inner)).length) := by
        rw [List.flatMap_cons, passes_expr hends hseg hnone, hn]
        rfl
      refine ⟨n + (renderSegment (.expr inner)).length, ?_⟩
      rcases exprToken_cases inner with ⟨name, -, htok⟩ | ⟨name, args, -, htok⟩ | htok
      · exact ⟨[], .var name, segs.flatMap segmentPieces, hend, Nat.zero_le _, by
          rw [List.flatMap_cons, segmentPieces, htok]
          rfl⟩
      · exact ⟨[], .func name args, segs.flatMap segmentPieces, hend, Nat.zero_le _, by
          rw [List.flatMap_cons, segmentPieces, htok]
          rfl⟩
      · refine ⟨renderSegment (.expr inner) ++ plain, t, ps, hend, ?_, ?_⟩
        · rw [List.length_append]
          omega
        · rw [List.flatMap_cons, hps, segmentPieces, renderSegment, htok]
          simp [pieces, serializeToken]
    · rcases exprToken_cases inner with ⟨name, -, htok⟩ | ⟨name, args, hcall, htok⟩ | htok
      · exact absurd (by rw [htok]; trivial) hseg
      · rw [htok] at hseg
        have hsome := closeAt_quoted_callInner_isSome hcall.name_chars hcall.arg_names hseg
          (segs.flatMap renderSegment)
        obtain ⟨n, hn⟩ := Option.isSome_iff_exists.mp hsome
        refine ⟨n + openBraces.length, [], .func name args, segs.flatMap segmentPieces, ?_,
          Nat.zero_le _, ?_⟩
        · rw [List.flatMap_cons, renderSegment_expr, normalInner, htok, List.append_assoc,
            List.append_assoc, passes_opening (not_out_of_none hends hnone), hn]
          rfl
        · rw [List.flatMap_cons, segmentPieces, htok]
          rfl
      · exact absurd (by rw [htok]; trivial) hseg

/-! ## The round trip -/

/-- Behind the first opening that is never closed, no argument value holds a quote or `}}`. -/
def CleanAfterUnclosed (segs : List Segment) : Prop :=
  ∀ seg ∈ segs.dropWhile fun seg => decide (seg ≠ .unclosed), CleanSegment seg

/-- An expression at the place of an unclosed opening changes the pieces. -/
theorem pieces_expr_ne {inner plain : Text} {t : TemplateToken} {ps rest : List Piece}
    (hlen : plain.length ≤ inner.length + 1) :
    segmentPieces (.expr inner) ++ rest ≠ .char '{' :: (plain.map .char ++ .token t :: ps) := by
  intro heq
  rcases exprToken_cases inner with ⟨name, -, htok⟩ | ⟨name, args, -, htok⟩ | htok
  · rw [segmentPieces, htok] at heq
    cases heq
  · rw [segmentPieces, htok] at heq
    cases heq
  · rw [segmentPieces, htok] at heq
    -- The token stands where the left side still has a character of plain text.
    have hleft := congrArg (fun l : List Piece => l[plain.length + 1]?) heq
    have hshort : plain.length + 1 < (openBraces ++ inner ++ closeBraces).length := by
      simp [openBraces, closeBraces]
      omega
    simp only [pieces, List.getElem?_cons_succ] at hleft
    rw [List.getElem?_append_left (by rw [List.length_map]; exact hshort), List.getElem?_map,
      List.getElem?_eq_getElem hshort, List.getElem?_append_right (by simp)] at hleft
    simp at hleft

theorem pieces_render_iff {text : Text} {segs : List Segment} (h : Segmented text segs) :
    (segments (segs.flatMap renderSegment)).flatMap segmentPieces = segs.flatMap segmentPieces ↔
      CleanAfterUnclosed segs := by
  induction h with
  | nil => simp [CleanAfterUnclosed, segments, segmentsFrom]
  | @char c rest segs hc hrest ih =>
    rw [← head?_render hrest] at hc
    have hsegs : segments ((Segment.char c :: segs).flatMap renderSegment) =
        .char c :: segments (segs.flatMap renderSegment) :=
      segments_of_segmented (.char hc (segmented_segments _))
    rw [hsegs, List.flatMap_cons, List.flatMap_cons, List.append_cancel_left_eq, ih]
    rfl
  | @unclosed rest segs hclose hrest ih =>
    obtain ⟨tail, htail⟩ : ∃ tail, segs.flatMap renderSegment = '{' :: tail := by
      have hhead := head?_render hrest
      cases hr : segs.flatMap renderSegment with
      | nil =>
        rw [hr] at hhead
        cases hhead
      | cons c tail =>
        rw [hr] at hhead
        exact ⟨tail, by rw [Option.some.inj hhead]⟩
    have hnone : closeAt .out ('{' :: rest) = none := by
      rw [closeAt_opening (by decide)]
      exact Option.map_eq_none_iff.mpr hclose
    have hrender : (Segment.unclosed :: segs).flatMap renderSegment = '{' :: '{' :: tail := by
      rw [List.flatMap_cons, htail]
      rfl
    have hdrop : CleanAfterUnclosed (.unclosed :: segs) ↔ ∀ seg ∈ segs, CleanSegment seg := by
      simp [CleanAfterUnclosed, CleanSegment]
    rw [hdrop, hrender]
    constructor
    · intro heq
      by_contra hclean
      obtain ⟨n, plain, t, ps, hn, hle, hps⟩ := closeAt_render_unclean hrest hclean hnone
      rw [htail, closeAt_opening (by decide), Option.map_eq_some_iff] at hn
      obtain ⟨m, hm, rfl⟩ := hn
      obtain ⟨inner, after, rfl, rfl, hends⟩ := closeAt_eq_some hm
      rw [segments_of_segmented (.expr hends (segmented_segments after)), List.flatMap_cons,
        List.flatMap_cons, hps] at heq
      exact pieces_expr_ne hle heq
    · intro hclean
      have hafter := closeAt_render_clean hrest hclean hnone
      rw [htail, closeAt_opening (by decide), Option.map_eq_none_iff] at hafter
      rw [segments_of_segmented (.unclosed hafter (segmented_segments _)), ← htail,
        List.flatMap_cons, List.flatMap_cons, ih.mpr]
      intro seg hseg
      exact hclean seg ((List.dropWhile_sublist _).mem hseg)
  | @expr inner rest segs hends hrest ih =>
    have hrender : (Segment.expr inner :: segs).flatMap renderSegment =
        '{' :: '{' :: (normalInner inner ++ '}' :: '}' :: segs.flatMap renderSegment) := by
      rw [List.flatMap_cons, renderSegment_expr]
      simp [openBraces, closeBraces]
    rw [hrender, segments_of_segmented (.expr (ends_normalInner hends) (segmented_segments _)),
      List.flatMap_cons, List.flatMap_cons, segmentPieces_normalInner,
      List.append_cancel_left_eq, ih]
    rfl

/-- Parsing the normal form of a template gives its tokens back, and the normal form is its own. -/
def RoundTrips (s : Text) : Prop :=
  SameUpToMerging (tokenize (serialize (tokenize s))) (tokenize s) ∧
    serialize (tokenize (serialize (tokenize s))) = serialize (tokenize s)

theorem serialize_eq_of_same {ts ts' : List TemplateToken} (h : SameUpToMerging ts ts') :
    serialize ts = serialize ts' := by
  rw [serialize_eq, serialize_eq, h]

theorem roundTrips_iff (s : Text) : RoundTrips s ↔ CleanAfterUnclosed (segments s) := by
  have hpieces : SameUpToMerging (tokenize (serialize (tokenize s))) (tokenize s) ↔
      CleanAfterUnclosed (segments s) := by
    unfold SameUpToMerging
    rw [pieces_tokenize, pieces_tokenize, serialize_tokenize]
    exact pieces_render_iff (segmented_segments s)
  exact ⟨fun h => hpieces.mp h.1, fun h => ⟨hpieces.mpr h, serialize_eq_of_same (hpieces.mpr h)⟩⟩

/-- A call as the editor builds one: the name and the argument names have the shapes that the
parser reads, the values are arbitrary. -/
structure CallToken where
  name : Text
  args : JsRecord
  name_ne : name ≠ []
  name_chars : ∀ c ∈ name, isNameChar c = true
  arg_names : ∀ key ∈ args.keys, IsArgName key

def CallToken.token (call : CallToken) : TemplateToken := .func call.name call.args

def CallToken.RoundTrips (call : CallToken) : Prop :=
  SameUpToMerging (tokenize (serialize [call.token])) [call.token]

theorem tokenize_call (call : CallToken) :
    (tokenize (serialize [call.token])).flatMap pieces =
      [.token (.func call.name (JsRecord.ofEntries call.args.entries))] := by
  have htext : serialize [call.token] =
      '{' :: '{' :: (callInner call.name call.args ++ '}' :: '}' :: []) := by
    simp [serialize, CallToken.token, serializeToken, serializeFuncToken_eq, openBraces,
      closeBraces]
  have hends := (passes_out_callInner call.name_chars call.arg_names).ends
  rw [pieces_tokenize, htext, segments_of_segmented (.expr hends .nil), List.flatMap_singleton,
    segmentPieces, exprToken, parseExpr_callInner call.name_ne call.name_chars call.arg_names]
  rfl

theorem call_roundTrips_iff (call : CallToken) : call.RoundTrips ↔ protoKey ∉ call.args.keys := by
  have hpieces : call.RoundTrips ↔ JsRecord.ofEntries call.args.entries = call.args := by
    unfold CallToken.RoundTrips SameUpToMerging
    rw [tokenize_call]
    simp [CallToken.token, pieces]
  rw [hpieces]
  constructor
  · intro heq hproto
    rw [← heq] at hproto
    exact (JsRecord.mem_keys_ofEntries hproto).2 rfl
  · exact JsRecord.ofEntries_entries

/-- Exactly when templates and single calls keep their tokens. -/
theorem roundTrip_iff (s : Text) (call : CallToken) :
    (RoundTrips s ↔ CleanAfterUnclosed (segments s)) ∧
      (call.RoundTrips ↔ protoKey ∉ call.args.keys) :=
  ⟨roundTrips_iff s, call_roundTrips_iff call⟩

/-- The escaped braces of the value are written without escapes, and the unclosed opening then
ends at them. -/
def bracesBehindUnclosed : Text :=
  -- `{{"{{ f(k="\}\}{{b\}\}") }}`
  "\x7b\x7b\"\x7b\x7b f(k=\"\\\x7d\\\x7d\x7b\x7bb\\\x7d\\\x7d\") \x7d\x7d".toList

theorem braces_behind_unclosed : ¬ ((∀ s : Text, RoundTrips s) ∧
    ∀ call : CallToken, call.RoundTrips) := by
  intro h
  have hsame := (h.1 bracesBehindUnclosed).2
  revert hsame
  decide

end Voleeo.Template
