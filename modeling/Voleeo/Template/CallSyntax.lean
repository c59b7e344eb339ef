import Voleeo.JsRecord

/-!
# Template tokens

A template is plain text with `{{ expr }}` tokens. The tokenizer looks for the
end of a token with an eye on quotes, and an expression is a variable name or a
call with `key="value"` arguments. The serializer writes a token in one fixed
form.
-/
namespace Voleeo.Template

inductive TemplateToken
  | plain (text : Text)
  | var (name : Text)
  | func (name : Text) (args : JsRecord)

/-! ## Argument values -/

def escapeChar (c : Char) : Text := if c = '\\' ∨ c = '"' then ['\\', c] else [c]

def escapeArgValue (v : Text) : Text := v.flatMap escapeChar

/-- A backslash in front of a line terminator is not an escape. -/
def unescapeArgValue : Text → Text
  | [] => []
  | ['\\'] => ['\\']
  | '\\' :: c :: rest =>
    if isLineTerminator c then '\\' :: c :: unescapeArgValue rest else c :: unescapeArgValue rest
  | c :: rest => c :: unescapeArgValue rest

attribute [local simp] unescapeArgValue

/-! ## Expressions -/

/-- The raw value in front of a closing quote. -/
def matchValue : Text → Option Text
  | [] => none
  | '"' :: _ => some []
  | ['\\'] => none
  | '\\' :: c :: rest =>
    if isLineTerminator c then none else (matchValue rest).map fun v => '\\' :: c :: v
  | c :: rest => (matchValue rest).map (c :: ·)

attribute [local simp] matchValue

/-- One match of `(\w+)="((?:\\.|[^"\\])*)"` at the start of the text: key and raw value. -/
def matchArg (text : Text) : Option (Text × Text) :=
  let key := text.takeWhile isWordChar
  if key = [] then none
  else
    match text.dropWhile isWordChar with
    | '=' :: '"' :: rest => (matchValue rest).map fun v => (key, v)
    | _ => none

/-- All matches, left to right. `skip` counts the characters that the last match still covers. -/
def findArgs : ℕ → Text → List (Text × Text)
  | _, [] => []
  | skip + 1, _ :: rest => findArgs skip rest
  | 0, c :: rest =>
    match matchArg (c :: rest) with
    | some (key, raw) => (key, raw) :: findArgs (key.length + raw.length + 2) rest
    | none => findArgs 0 rest

attribute [local simp] findArgs

def parseArgs (argsRaw : Text) : JsRecord :=
  JsRecord.ofEntries ((findArgs 0 argsRaw).map fun m => (m.1, unescapeArgValue m.2))

def isNameChar (c : Char) : Bool := isWordChar c || c == '.'

/-- `^([\w.]+)\((.*)\)$`: the name, and the text between the outer parentheses. -/
def matchCall (text : Text) : Option (Text × Text) :=
  let name := text.takeWhile isNameChar
  if name = [] then none
  else
    match text.dropWhile isNameChar with
    | '(' :: rest => if rest.getLast? = some ')' then some (name, rest.dropLast) else none
    | _ => none

/-- A POSIX identifier. -/
def isIdentifier : Text → Bool
  | [] => false
  | c :: cs => (c.isAlpha || c == '_') && cs.all isWordChar

def parseExpr (expr : Text) : Option TemplateToken :=
  let trimmed := trim expr
  match matchCall trimmed with
  | some (name, argsRaw) => some (.func name (parseArgs (trim argsRaw)))
  | none => if isIdentifier trimmed then some (.var trimmed) else none

/-! ## Tokenizer -/

/-- The number of characters in front of the `}}` that ends a token. -/
def findTokenEnd : Bool → Text → Option ℕ
  | _, [] => none
  | true, ['\\'] => none -- the step over an escape runs past the end
  | true, '\\' :: _ :: rest => (findTokenEnd true rest).map (· + 2)
  | inQuotes, '"' :: rest => (findTokenEnd (!inQuotes) rest).map (· + 1)
  | false, '}' :: '}' :: _ => some 0
  | inQuotes, _ :: rest => (findTokenEnd inQuotes rest).map (· + 1)

attribute [local simp] findTokenEnd

/-- What the tokenizer sees at a position. -/
inductive Look
  | char
  /-- An opening whose end is missing. -/
  | unclosed
  /-- An opening, and the number of characters up to its end. -/
  | expr (length : ℕ)
  deriving DecidableEq, Repr

def look : Text → Look
  | '{' :: '{' :: inside =>
    match findTokenEnd false inside with
    | none => .unclosed
    | some n => .expr n
  | _ => .char

def openBraces : Text := ['{', '{']
def closeBraces : Text := ['}', '}']

/-- An unrecognised expression stays plain text. -/
def exprToken (inner : Text) : TemplateToken :=
  (parseExpr (trim inner)).getD (.plain (openBraces ++ inner ++ closeBraces))

def pushPlain (plain : Text) (tokens : List TemplateToken) : List TemplateToken :=
  if plain = [] then tokens else .plain plain :: tokens

/-- The loop of the tokenizer: `plain` is the text since the last token, and `skip` counts the
characters that the last token still covers. -/
def tokenizeFrom (plain : Text) : ℕ → Text → List TemplateToken
  | _, [] => pushPlain plain []
  | skip + 1, _ :: rest => tokenizeFrom plain skip rest
  | 0, c :: rest =>
    match look (c :: rest) with
    | .char => tokenizeFrom (plain ++ [c]) 0 rest
    | .unclosed => tokenizeFrom (plain ++ [c]) 0 rest
    | .expr n =>
      pushPlain plain (exprToken ((rest.drop 1).take n) :: tokenizeFrom [] (n + 3) rest)

attribute [local simp] tokenizeFrom

def tokenize (text : Text) : List TemplateToken := tokenizeFrom [] 0 text

/-! ## Serializer -/

def argText (e : Text × Text) : Text := e.1 ++ ['=', '"'] ++ escapeArgValue e.2 ++ ['"']

def argsText (es : List (Text × Text)) : Text := List.intercalate [',', ' '] (es.map argText)

def serializeFuncToken (name : Text) (args : JsRecord) : Text :=
  ['{', '{', ' '] ++ name ++ ['('] ++ argsText args.entries ++ [')', ' ', '}', '}']

def serializeToken : TemplateToken → Text
  | .plain text => text
  | .var name => ['{', '{', ' '] ++ name ++ [' ', '}', '}']
  | .func name args => serializeFuncToken name args

def serialize (tokens : List TemplateToken) : Text := tokens.flatMap serializeToken

-- `{{uuid.v3( name="foo",namespace="ns" )}}` becomes `{{ uuid.v3(name="foo", namespace="ns") }}`.
example :
    serialize (tokenize "\x7b\x7buuid.v3( name=\"foo\",namespace=\"ns\" )\x7d\x7d".toList) =
      "\x7b\x7b uuid.v3(name=\"foo\", namespace=\"ns\") \x7d\x7d".toList := by decide

end Voleeo.Template

/-!
## Parsing what the serializer writes

A serialized expression parses back to its token. The argument loop finds the
written arguments one after another, and the escapes of a value are undone.
-/
namespace Voleeo.Template

/-! ## Characters -/

theorem not_space_of_nameChar {c : Char} (h : isNameChar c = true) : isJsSpace c = false := by
  rw [isNameChar, Bool.or_eq_true, beq_iff_eq] at h
  rcases h with hword | rfl
  · have hrange := wordChar_range hword
    simp only [isJsSpace, Bool.or_eq_false_iff, Bool.and_eq_false_iff, decide_eq_false_iff_not,
      beq_eq_false_iff_ne, ne_eq]
    omega
  · decide

theorem nameChar_of_wordChar {c : Char} (h : isWordChar c = true) : isNameChar c = true := by
  simp [isNameChar, h]

/-! ## Values -/

theorem escapeArgValue_cons (c : Char) (v : Text) :
    escapeArgValue (c :: v) = escapeChar c ++ escapeArgValue v := rfl

theorem unescape_plain {c : Char} (hc : c ≠ '\\') (v : Text) :
    unescapeArgValue (c :: v) = c :: unescapeArgValue v := by
  rw [unescapeArgValue]
  · intro h
    exact absurd h hc
  · intro c' rest h
    exact absurd h hc

theorem unescape_escape (v : Text) : unescapeArgValue (escapeArgValue v) = v := by
  induction v with
  | nil => rfl
  | cons c v ih =>
    rw [escapeArgValue_cons]
    by_cases hs : c = '\\'
    · subst hs
      simp [escapeChar, unescapeArgValue, isLineTerminator, ih]
    by_cases hq : c = '"'
    · subst hq
      simp [escapeChar, unescapeArgValue, isLineTerminator, ih]
    · have hc : escapeChar c = [c] := by simp [escapeChar, hs, hq]
      rw [hc, List.singleton_append, unescape_plain hs, ih]

theorem matchValue_plain {c : Char} (hs : c ≠ '\\') (hq : c ≠ '"') (v : Text) :
    matchValue (c :: v) = (matchValue v).map (c :: ·) := by
  rw [matchValue]
  · intro h
    exact absurd h hq
  · intro h
    exact absurd h hs
  · intro c' rest h
    exact absurd h hs

/-- The value match stops at the quote that the serializer writes. -/
theorem matchValue_escape (v w : Text) :
    matchValue (escapeArgValue v ++ '"' :: w) = some (escapeArgValue v) := by
  induction v with
  | nil => rfl
  | cons c v ih =>
    rw [escapeArgValue_cons, List.append_assoc]
    by_cases hs : c = '\\'
    · subst hs
      simp [escapeChar, matchValue, isLineTerminator, ih]
    by_cases hq : c = '"'
    · subst hq
      simp [escapeChar, matchValue, isLineTerminator, ih]
    · have hc : escapeChar c = [c] := by simp [escapeChar, hs, hq]
      rw [hc, List.singleton_append, matchValue_plain hs hq, ih]
      rfl

/-! ## Arguments -/

/-- An argument name that the argument match accepts. -/
def IsArgName (key : Text) : Prop := key ≠ [] ∧ ∀ c ∈ key, isWordChar c = true

theorem takeWhile_stop {p : Char → Bool} {s : Text} (hs : ∀ c ∈ s, p c = true) {c : Char}
    (hc : p c = false) (w : Text) : (s ++ c :: w).takeWhile p = s := by
  rw [List.takeWhile_append_of_pos hs, List.takeWhile_cons_of_neg (by simp [hc]), List.append_nil]

theorem dropWhile_stop {p : Char → Bool} {s : Text} (hs : ∀ c ∈ s, p c = true) {c : Char}
    (hc : p c = false) (w : Text) : (s ++ c :: w).dropWhile p = c :: w := by
  rw [List.dropWhile_append_of_pos hs, List.dropWhile_cons_of_neg (by simp [hc])]

theorem matchArg_argText {e : Text × Text} (he : IsArgName e.1) (w : Text) :
    matchArg (argText e ++ w) = some (e.1, escapeArgValue e.2) := by
  have htext : argText e ++ w = e.1 ++ '=' :: '"' :: (escapeArgValue e.2 ++ '"' :: w) := by
    simp [argText]
  have heq : isWordChar '=' = false := by decide
  unfold matchArg
  rw [htext, takeWhile_stop he.2 heq, dropWhile_stop he.2 heq, if_neg he.1]
  simp [matchValue_escape]

theorem findArgs_skip (skip : ℕ) (t : Text) : findArgs skip t = findArgs 0 (t.drop skip) := by
  induction t generalizing skip with
  | nil => cases skip <;> rfl
  | cons c t ih =>
    cases skip with
    | zero => rfl
    | succ skip =>
      rw [findArgs, ih, List.drop_succ_cons]

theorem findArgs_argText {e : Text × Text} (he : IsArgName e.1) (w : Text) :
    findArgs 0 (argText e ++ w) = (e.1, escapeArgValue e.2) :: findArgs 0 w := by
  obtain ⟨c, key, hkey⟩ := List.exists_cons_of_ne_nil he.1
  have hmatch := matchArg_argText he w
  have htext : argText e ++ w = c :: (key ++ '=' :: '"' :: (escapeArgValue e.2 ++ '"' :: w)) := by
    simp [argText, hkey]
  have hdrop : (key ++ '=' :: '"' :: (escapeArgValue e.2 ++ '"' :: w)).drop
      (e.1.length + (escapeArgValue e.2).length + 2) = w := by
    have hlen : e.1.length + (escapeArgValue e.2).length + 2 =
        (key ++ '=' :: '"' :: (escapeArgValue e.2 ++ ['"'])).length := by
      rw [hkey]
      simp only [List.length_append, List.length_cons, List.length_nil]
      omega
    have hsplit : key ++ '=' :: '"' :: (escapeArgValue e.2 ++ '"' :: w) =
        (key ++ '=' :: '"' :: (escapeArgValue e.2 ++ ['"'])) ++ w := by simp
    rw [hlen, hsplit, List.drop_left]
  rw [htext] at hmatch ⊢
  rw [findArgs, hmatch]
  simp only
  rw [findArgs_skip, hdrop]

theorem findArgs_separator (w : Text) : findArgs 0 (',' :: ' ' :: w) = findArgs 0 w := by
  have hcomma : isWordChar ',' = false := by decide
  have hspace : isWordChar ' ' = false := by decide
  have h1 : matchArg (',' :: ' ' :: w) = none := by simp [matchArg, hcomma]
  have h2 : matchArg (' ' :: w) = none := by simp [matchArg, hspace]
  rw [findArgs, h1]
  simp only
  rw [findArgs, h2]

/-- The written arguments after the first one. -/
def argsTail (es : List (Text × Text)) : Text := es.flatMap fun e => ',' :: ' ' :: argText e

theorem argsText_cons (e : Text × Text) (es : List (Text × Text)) :
    argsText (e :: es) = argText e ++ argsTail es := by
  induction es generalizing e with
  | nil => simp [argsText, argsTail, List.intercalate]
  | cons e' es ih =>
    have hstep : argsText (e :: e' :: es) = argText e ++ [',', ' '] ++ argsText (e' :: es) := by
      simp [argsText, List.intercalate]
    rw [hstep, ih]
    simp [argsTail]

theorem findArgs_argsTail {es : List (Text × Text)} (h : ∀ e ∈ es, IsArgName e.1) :
    findArgs 0 (argsTail es) = es.map fun e => (e.1, escapeArgValue e.2) := by
  induction es with
  | nil => rfl
  | cons e es ih =>
    have htext : argsTail (e :: es) = ',' :: ' ' :: (argText e ++ argsTail es) := by
      simp [argsTail]
    rw [htext, findArgs_separator, findArgs_argText (h e List.mem_cons_self),
      ih fun a ha => h a (List.mem_cons_of_mem _ ha), List.map_cons]

theorem findArgs_argsText {es : List (Text × Text)} (h : ∀ e ∈ es, IsArgName e.1) :
    findArgs 0 (argsText es) = es.map fun e => (e.1, escapeArgValue e.2) := by
  cases es with
  | nil => rfl
  | cons e es =>
    rw [argsText_cons, findArgs_argText (h e List.mem_cons_self),
      findArgs_argsTail fun a ha => h a (List.mem_cons_of_mem _ ha), List.map_cons]

/-- The object that the argument loop builds from written arguments. -/
theorem parseArgs_argsText {es : List (Text × Text)} (h : ∀ e ∈ es, IsArgName e.1) :
    parseArgs (argsText es) = JsRecord.ofEntries es := by
  unfold parseArgs
  rw [findArgs_argsText h, List.map_map]
  congr 1
  rw [show es = es.map id from (List.map_id es).symm]
  simp only [List.map_map]
  apply List.map_congr_left
  intro e _
  simp [unescape_escape]

/-! ## Calls -/

/-- The calls that the serializer can write without loss. -/
structure ValidCall (name : Text) (args : JsRecord) : Prop where
  name_ne : name ≠ []
  name_chars : ∀ c ∈ name, isNameChar c = true
  arg_names : ∀ key ∈ args.keys, IsArgName key
  no_proto : protoKey ∉ args.keys

theorem matchCall_eq {name : Text} (hne : name ≠ []) (hname : ∀ c ∈ name, isNameChar c = true)
    (body : Text) : matchCall (name ++ '(' :: (body ++ [')'])) = some (name, body) := by
  have hparen : isNameChar '(' = false := by decide
  unfold matchCall
  rw [takeWhile_stop hname hparen, dropWhile_stop hname hparen, if_neg hne]
  simp

theorem trim_argsText {es : List (Text × Text)} (h : ∀ e ∈ es, IsArgName e.1) :
    trim (argsText es) = argsText es := by
  cases es with
  | nil => rfl
  | cons e es =>
    obtain ⟨hne, hword⟩ := h e List.mem_cons_self
    obtain ⟨c, key, hkey⟩ := List.exists_cons_of_ne_nil hne
    apply trim_of_ends
    · intro d hd
      have hcd : c = d := by simpa [argsText_cons, argText, hkey] using hd
      exact hcd ▸ not_space_of_nameChar (nameChar_of_wordChar (hword c (by simp [hkey])))
    · intro d hd
      have hlast : (argsText (e :: es)).getLast? = some '"' := by
        rcases List.eq_nil_or_concat es with rfl | ⟨es', e', rfl⟩
        · rw [argsText_cons, argsTail, List.flatMap_nil, List.append_nil, argText,
            List.getLast?_concat]
        · rw [List.concat_eq_append]
          have htail : argsTail (es' ++ [e']) =
              argsTail es' ++ ([',', ' '] ++ e'.1 ++ ['=', '"'] ++ escapeArgValue e'.2) ++
                ['"'] := by
            simp [argsTail, argText]
          rw [argsText_cons, htail, ← List.append_assoc, List.getLast?_concat]
      rw [hlast] at hd
      obtain rfl : '"' = d := Option.some.inj hd
      decide

/-- The text between the braces of a serialized call. -/
def callInner (name : Text) (args : JsRecord) : Text :=
  ' ' :: (name ++ '(' :: (argsText args.entries ++ [')'])) ++ [' ']

theorem serializeFuncToken_eq (name : Text) (args : JsRecord) :
    serializeFuncToken name args = openBraces ++ callInner name args ++ closeBraces := by
  simp [serializeFuncToken, callInner, openBraces, closeBraces]

theorem trim_padded {core : Text} (hhead : ∀ c ∈ core.head?, isJsSpace c = false)
    (hlast : ∀ c ∈ core.getLast?, isJsSpace c = false) : trim (' ' :: core ++ [' ']) = core := by
  have hspace : ∀ c ∈ [' '], isJsSpace c = true := List.forall_mem_singleton.mpr (by decide)
  have hcore := trim_of_ends hhead hlast
  have hpad := trim_padding (s := core) hspace hspace
  rwa [hcore] at hpad

/-- A call neither begins nor ends with a space. -/
theorem call_ends {name : Text} (hne : name ≠ []) (hname : ∀ c ∈ name, isNameChar c = true)
    (body : Text) :
    (∀ c ∈ (name ++ '(' :: (body ++ [')'])).head?, isJsSpace c = false) ∧
      ∀ c ∈ (name ++ '(' :: (body ++ [')'])).getLast?, isJsSpace c = false := by
  obtain ⟨c, cs, rfl⟩ := List.exists_cons_of_ne_nil hne
  constructor
  · intro d hd
    have hcd : c = d := by simpa using hd
    exact hcd ▸ not_space_of_nameChar (hname c List.mem_cons_self)
  · intro d hd
    have hlast : ((c :: cs) ++ '(' :: (body ++ [')'])).getLast? = some ')' := by
      rw [← List.cons_append, ← List.append_assoc, List.getLast?_concat]
    rw [hlast] at hd
    obtain rfl : ')' = d := Option.some.inj hd
    decide

theorem trim_call {name : Text} (hne : name ≠ []) (hname : ∀ c ∈ name, isNameChar c = true)
    (body : Text) : trim (name ++ '(' :: (body ++ [')'])) = name ++ '(' :: (body ++ [')']) :=
  trim_of_ends (call_ends hne hname body).1 (call_ends hne hname body).2

theorem trim_callInner {name : Text} (hne : name ≠ [])
    (hname : ∀ c ∈ name, isNameChar c = true) (args : JsRecord) :
    trim (callInner name args) = name ++ '(' :: (argsText args.entries ++ [')']) :=
  trim_padded (call_ends hne hname _).1 (call_ends hne hname _).2

/-- A serialized call parses to the call built from its listed arguments. -/
theorem parseExpr_callInner {name : Text} {args : JsRecord} (hne : name ≠ [])
    (hname : ∀ c ∈ name, isNameChar c = true) (hargs : ∀ key ∈ args.keys, IsArgName key) :
    parseExpr (trim (callInner name args)) =
      some (.func name (JsRecord.ofEntries args.entries)) := by
  have hentries : ∀ e ∈ args.entries, IsArgName e.1 :=
    fun e he => hargs e.1 (List.mem_map.mpr ⟨e, he, rfl⟩)
  rw [trim_callInner hne hname]
  unfold parseExpr
  simp only [trim_call hne hname, matchCall_eq hne hname, trim_argsText hentries,
    parseArgs_argsText hentries]

theorem parseExpr_valid {name : Text} {args : JsRecord} (h : ValidCall name args) :
    parseExpr (trim (callInner name args)) = some (.func name args) := by
  rw [parseExpr_callInner h.name_ne h.name_chars h.arg_names, JsRecord.ofEntries_entries h.no_proto]

/-! ## What the parser accepts -/

theorem matchCall_spec {text name body : Text} (h : matchCall text = some (name, body)) :
    name ≠ [] ∧ (∀ c ∈ name, isNameChar c = true) ∧ text = name ++ '(' :: (body ++ [')']) := by
  unfold matchCall at h
  simp only at h
  split_ifs at h with hne
  split at h
  · rename_i rest hrest
    split_ifs at h with hlast
    cases h
    refine ⟨hne, fun c hc => List.mem_takeWhile_imp hc, ?_⟩
    have hrest' : rest.dropLast ++ [')'] = rest := by
      have hconcat := List.dropLast_append_getLast? ')' (by simpa using hlast)
      exact hconcat
    rw [hrest', ← hrest, List.takeWhile_append_dropWhile]
  · cases h

theorem isArgName_of_matchArg {t key raw : Text} (h : matchArg t = some (key, raw)) :
    IsArgName key := by
  unfold matchArg at h
  simp only at h
  split_ifs at h with hne
  split at h
  · rw [Option.map_eq_some_iff] at h
    obtain ⟨v, -, heq⟩ := h
    cases heq
    exact ⟨hne, fun c hc => List.mem_takeWhile_imp hc⟩
  · cases h

theorem isArgName_of_findArgs {skip : ℕ} {t : Text} {m : Text × Text}
    (h : m ∈ findArgs skip t) : IsArgName m.1 := by
  induction t generalizing skip with
  | nil => cases skip <;> cases h
  | cons c t ih =>
    cases skip with
    | succ skip => exact ih h
    | zero =>
      rw [findArgs] at h
      split at h
      · rename_i key raw hmatch
        rcases List.mem_cons.mp h with rfl | h
        · exact isArgName_of_matchArg hmatch
        · exact ih h
      · exact ih h

theorem isArgName_of_parseArgs {t key : Text} (h : key ∈ (parseArgs t).keys) :
    IsArgName key ∧ key ≠ protoKey := by
  obtain ⟨hmem, hproto⟩ := JsRecord.mem_keys_ofEntries h
  refine ⟨?_, hproto⟩
  rw [List.map_map] at hmem
  obtain ⟨m, hm, rfl⟩ := List.mem_map.mp hmem
  show IsArgName m.1
  exact isArgName_of_findArgs hm

theorem parseExpr_cases (expr : Text) :
    (∃ name body, matchCall (trim expr) = some (name, body) ∧
      parseExpr expr = some (.func name (parseArgs (trim body)))) ∨
    (matchCall (trim expr) = none ∧ isIdentifier (trim expr) = true ∧
      parseExpr expr = some (.var (trim expr))) ∨
    (matchCall (trim expr) = none ∧ isIdentifier (trim expr) = false ∧ parseExpr expr = none) := by
  unfold parseExpr
  cases hcall : matchCall (trim expr) with
  | some call => exact Or.inl ⟨call.1, call.2, rfl, by simp [hcall]⟩
  | none =>
    cases hid : isIdentifier (trim expr) with
    | true => exact Or.inr (Or.inl ⟨rfl, rfl, by simp [hcall, hid]⟩)
    | false => exact Or.inr (Or.inr ⟨rfl, rfl, by simp [hcall, hid]⟩)

/-- A parsed call can be written without loss. -/
theorem validCall_of_parseExpr {expr name : Text} {args : JsRecord}
    (h : parseExpr expr = some (.func name args)) : ValidCall name args := by
  rcases parseExpr_cases expr with ⟨name', body, hcall, hparse⟩ | ⟨-, -, hparse⟩ | ⟨-, -, hparse⟩
  · rw [hparse] at h
    cases h
    obtain ⟨hne, hname, -⟩ := matchCall_spec hcall
    exact ⟨hne, hname, fun key hkey => (isArgName_of_parseArgs hkey).1,
      fun hkey => (isArgName_of_parseArgs hkey).2 rfl⟩
  · rw [hparse] at h
    cases h
  · rw [hparse] at h
    cases h

theorem isIdentifier_spec {name : Text} (h : isIdentifier name = true) :
    name ≠ [] ∧ ∀ c ∈ name, isWordChar c = true := by
  cases name with
  | nil => cases h
  | cons c cs =>
    simp only [isIdentifier, Bool.and_eq_true, List.all_eq_true] at h
    refine ⟨by simp, ?_⟩
    intro d hd
    rcases List.mem_cons.mp hd with rfl | hd
    · have hd' := h.1
      simp only [Bool.or_eq_true] at hd'
      rcases hd' with hd' | hd'
      · simp [isWordChar, Char.isAlphanum, hd']
      · simp [isWordChar, hd']
    · exact h.2 d hd

/-- The text between the braces of a serialized variable. -/
def varInner (name : Text) : Text := ' ' :: name ++ [' ']

theorem serializeVar_eq (name : Text) :
    serializeToken (.var name) = openBraces ++ varInner name ++ closeBraces := by
  simp [serializeToken, varInner, openBraces, closeBraces]

theorem matchCall_identifier {name : Text} (h : ∀ c ∈ name, isWordChar c = true) :
    matchCall name = none := by
  have hname : ∀ c ∈ name, isNameChar c = true := fun c hc => nameChar_of_wordChar (h c hc)
  have hdrop : name.dropWhile isNameChar = [] := by
    rw [List.dropWhile_eq_nil_iff]
    exact hname
  unfold matchCall
  simp only [hdrop, ite_self]

theorem trim_identifier {name : Text} (h : ∀ c ∈ name, isWordChar c = true) :
    trim name = name ∧ trim (varInner name) = name := by
  have hspace : ∀ c ∈ name, isJsSpace c = false :=
    fun c hc => not_space_of_nameChar (nameChar_of_wordChar (h c hc))
  have hhead : ∀ c ∈ name.head?, isJsSpace c = false :=
    fun c hc => hspace c (List.mem_of_head? hc)
  have hlast : ∀ c ∈ name.getLast?, isJsSpace c = false :=
    fun c hc => hspace c (List.mem_of_getLast? hc)
  exact ⟨trim_of_ends hhead hlast, trim_padded hhead hlast⟩

/-- A serialized variable parses back. -/
theorem parseExpr_varInner {name : Text} (h : isIdentifier name = true) :
    parseExpr (trim (varInner name)) = some (.var name) := by
  obtain ⟨-, hword⟩ := isIdentifier_spec h
  obtain ⟨htrim, hinner⟩ := trim_identifier hword
  rw [hinner]
  unfold parseExpr
  simp [htrim, matchCall_identifier hword, h]

end Voleeo.Template
