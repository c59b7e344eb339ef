import Voleeo.JsString
import Voleeo.LineSplit
import Voleeo.Parts

/-!
# Block-style YAML as rows

A document in block style is a list of rows. A row has an indentation, the
bullets of the list items that it opens, a key, and a value on its line, as an
indented block behind it, or in the rows that follow. The lines of a document
determine its rows.
-/
namespace Voleeo.Yaml

inductive RowValue
  /-- A scalar on the line of its key. -/
  | inline (text : Text)
  /-- A text with line breaks: the block header, and the lines below it. -/
  | block (header : Text) (lines : List Text)
  /-- A mapping or a list in the rows that follow. -/
  | opens
  deriving DecidableEq, Repr

/-- A row without a key is a scalar item of a list. -/
structure Row where
  indent : ℕ
  bullets : ℕ
  key : Text
  value : RowValue
  deriving DecidableEq, Repr

def pad (n : ℕ) : Text := List.replicate n ' '

def bulletText (n : ℕ) : Text := (List.replicate n ['-', ' ']).flatten

namespace Row

/-- The column of the key. -/
def keyIndent (r : Row) : ℕ := r.indent + 2 * r.bullets

/-- The indentation of a block below the row. -/
def bodyIndent (r : Row) : ℕ := if r.key = [] then r.keyIndent else r.keyIndent + 2

/-- What stands on the line of the row as its value. -/
def lineText (r : Row) : Text :=
  match r.value with
  | .inline text => text
  | .block header _ => header
  | .opens => []

/-- The line of the row behind the indentation and the bullets. -/
def content (r : Row) : Text :=
  if r.key = [] then r.lineText
  else r.key ++ ':' :: (if r.lineText = [] then [] else ' ' :: r.lineText)

def head (r : Row) : Text := pad r.indent ++ (bulletText r.bullets ++ r.content)

/-- A line of a block is indented unless it is empty. -/
def bodyLine (r : Row) (line : Text) : Text := if line = [] then [] else pad r.bodyIndent ++ line

def body (r : Row) : List Text :=
  match r.value with
  | .block _ lines => lines.map r.bodyLine
  | _ => []

end Row

def lines (rows : List Row) : List Text := rows.flatMap fun r => r.head :: r.body

/-! ## Well-formed rows -/

/-- What a scalar on one line looks like: it cannot be taken for a key, a bullet or a block. -/
structure IsInline (text : Text) : Prop where
  ne_nil : text ≠ []
  not_space : text.head? ≠ some ' '
  not_block : text.head? ≠ some '|'
  not_bullet : ¬ ['-', ' '] <+: text
  not_key : ∀ key : Text, ∀ rest, key ≠ [] → (∀ c ∈ key, isWordChar c = true) →
    text = key ++ ':' :: rest → rest ≠ [] ∧ rest.head? ≠ some ' '
  one_line : '\n' ∉ text ∧ '\r' ∉ text

structure IsBlockHeader (header : Text) : Prop where
  block : header.head? = some '|'
  one_line : '\n' ∉ header ∧ '\r' ∉ header

/-- A value that can be told from every other value by its line and its block. -/
def RowValue.Valid : RowValue → Prop
  | .inline text => IsInline text
  | .block header ls => IsBlockHeader header ∧ ∀ l ∈ ls, '\n' ∉ l ∧ '\r' ∉ l
  | .opens => True

structure Row.Valid (r : Row) : Prop where
  key : ∀ c ∈ r.key, isWordChar c = true
  item : r.key = [] → r.bullets ≠ 0 ∧ r.value ≠ .opens
  value : r.value.Valid

theorem Row.Valid.inline {r : Row} (h : r.Valid) {text : Text} (hvalue : r.value = .inline text) :
    IsInline text := by
  have := h.value
  rwa [hvalue] at this

theorem Row.Valid.block {r : Row} (h : r.Valid) {header : Text} {ls : List Text}
    (hvalue : r.value = .block header ls) :
    IsBlockHeader header ∧ ∀ l ∈ ls, '\n' ∉ l ∧ '\r' ∉ l := by
  have := h.value
  rwa [hvalue] at this

/-- A document in which a block ends at a row that stands left of its lines. -/
inductive Nested : List Row → Prop
  | nil : Nested []
  | cons (r : Row) (rest : List Row) : r.Valid →
      (∀ r' ∈ rest.head?, (∃ header ls, r.value = .block header ls) → r'.indent < r.bodyIndent) →
      Nested rest → Nested (r :: rest)

/-- A text that begins with another character has no key in front. -/
theorem ne_key_of_front {c : Char} {cs key rest : Text} (hc : isWordChar c = false)
    (hne : key ≠ []) (hkey : ∀ d ∈ key, isWordChar d = true) : c :: cs ≠ key ++ ':' :: rest := by
  intro heq
  obtain ⟨d, ds, rfl⟩ := List.exists_cons_of_ne_nil hne
  obtain ⟨rfl, -⟩ := List.cons.inj heq
  rw [hkey c List.mem_cons_self] at hc
  cases hc

/-! ## A line determines its row up to the block -/

theorem pad_append_inj {m n : ℕ} {s t : Text} (hs : s.head? ≠ some ' ') (ht : t.head? ≠ some ' ')
    (h : pad m ++ s = pad n ++ t) : m = n ∧ s = t := by
  induction m generalizing n with
  | zero =>
    cases n with
    | zero => exact ⟨rfl, h⟩
    | succ n =>
      rw [pad, List.replicate_zero, List.nil_append] at h
      rw [h] at hs
      exact absurd rfl hs
  | succ m ih =>
    cases n with
    | zero =>
      rw [show pad 0 ++ t = t from rfl] at h
      rw [← h] at ht
      exact absurd rfl ht
    | succ n =>
      obtain ⟨rfl, rfl⟩ := ih (List.cons.inj h).2
      exact ⟨rfl, rfl⟩

theorem bullets_append_inj {m n : ℕ} {s t : Text} (hs : ¬ ['-', ' '] <+: s)
    (ht : ¬ ['-', ' '] <+: t) (h : bulletText m ++ s = bulletText n ++ t) : m = n ∧ s = t := by
  have hsucc : ∀ k u, bulletText (k + 1) ++ u = '-' :: ' ' :: (bulletText k ++ u) := fun k u => by
    simp [bulletText, List.replicate_succ]
  induction m generalizing n with
  | zero =>
    cases n with
    | zero => exact ⟨rfl, h⟩
    | succ n =>
      rw [hsucc, show bulletText 0 ++ s = s from rfl] at h
      exact absurd ⟨_, h.symm⟩ hs
  | succ m ih =>
    cases n with
    | zero =>
      rw [hsucc, show bulletText 0 ++ t = t from rfl] at h
      exact absurd ⟨_, h⟩ ht
    | succ n =>
      rw [hsucc, hsucc] at h
      obtain ⟨rfl, rfl⟩ := ih (List.cons.inj (List.cons.inj h).2).2
      exact ⟨rfl, rfl⟩

namespace Row

/-- The row without the lines of its block. -/
def bare (r : Row) : Row :=
  match r.value with
  | .block header _ => { r with value := .block header [] }
  | _ => r

variable {r r' : Row}

theorem Valid.lineText (h : r.Valid) (hopens : r.value ≠ .opens) :
    r.lineText ≠ [] ∧ r.lineText.head? ≠ some ' ' ∧ ¬ ['-', ' '] <+: r.lineText := by
  rw [Row.lineText]
  cases hvalue : r.value with
  | inline text =>
    have hinline := h.inline hvalue
    exact ⟨hinline.ne_nil, hinline.not_space, hinline.not_bullet⟩
  | block header ls =>
    have hblock := (h.block hvalue).1.block
    change header ≠ [] ∧ header.head? ≠ some ' ' ∧ ¬ ['-', ' '] <+: header
    refine ⟨fun hnil => ?_, ?_, ?_⟩
    · rw [hnil] at hblock
      cases hblock
    · rw [hblock]
      decide
    · rintro ⟨tail, rfl⟩
      cases hblock
  | opens => exact absurd hvalue hopens

theorem not_wordChar {c : Char} (hc : isWordChar c = true) :
    c ≠ ' ' ∧ c ≠ '-' ∧ c ≠ ':' ∧ c ≠ '|' := by
  refine ⟨?_, ?_, ?_, ?_⟩ <;> rintro rfl <;> revert hc <;> decide

theorem Valid.content (h : r.Valid) :
    r.content ≠ [] ∧ r.content.head? ≠ some ' ' ∧ ¬ ['-', ' '] <+: r.content := by
  rw [Row.content]
  split_ifs with hkey
  · exact h.lineText (h.item hkey).2
  all_goals
    obtain ⟨c, cs, hcs⟩ := List.exists_cons_of_ne_nil hkey
    have hchar := not_wordChar (h.key c (by rw [hcs]; exact List.mem_cons_self))
    rw [hcs]
    refine ⟨by simp, by simpa using hchar.1, ?_⟩
    rintro ⟨tail, htail⟩
    exact hchar.2.1 (List.cons.inj htail).1.symm

theorem Valid.front (h : r.Valid) : (bulletText r.bullets ++ r.content).head? ≠ some ' ' := by
  cases hbullets : r.bullets with
  | zero => exact h.content.2.1
  | succ n => simp [bulletText, List.replicate_succ]

/-- The value on the line tells the value but for the lines of a block. -/
theorem Valid.bare_eq (h : r.Valid) (h' : r'.Valid) (hindent : r.indent = r'.indent)
    (hbullets : r.bullets = r'.bullets) (hkey : r.key = r'.key)
    (htext : r.lineText = r'.lineText) : r.bare = r'.bare := by
  have hblock : ∀ {r : Row}, r.Valid →
      ((∃ header ls, r.value = .block header ls) ↔ r.lineText.head? = some '|') := by
    intro r h
    rw [Row.lineText]
    cases hvalue : r.value with
    | inline text => simpa using (h.inline hvalue).not_block
    | block header ls => simpa using (h.block hvalue).1.block
    | opens => simp
  have hopens : ∀ {r : Row}, r.Valid → (r.value = .opens ↔ r.lineText = []) := by
    intro r h
    constructor
    · intro hvalue
      rw [Row.lineText, hvalue]
    · intro hnil
      by_contra hne
      exact (h.lineText hne).1 hnil
  have hsame : (∃ header ls, r.value = .block header ls) ↔
      ∃ header ls, r'.value = .block header ls := by
    rw [hblock h, hblock h', htext]
  have hsame' : r.value = .opens ↔ r'.value = .opens := by rw [hopens h, hopens h', htext]
  obtain ⟨indent, bullets, key, value⟩ := r
  obtain ⟨indent', bullets', key', value'⟩ := r'
  simp only at hindent hbullets hkey
  subst hindent hbullets hkey
  cases value <;> cases value' <;> simp_all [bare, Row.lineText]

theorem Valid.head_inj (h : r.Valid) (h' : r'.Valid) (heq : r.head = r'.head) :
    r.bare = r'.bare := by
  obtain ⟨hindent, hrest⟩ := pad_append_inj h.front h'.front heq
  obtain ⟨hbullets, hcontent⟩ := bullets_append_inj h.content.2.2 h'.content.2.2 hrest
  -- A scalar item is no key.
  have hmixed : ∀ {r r' : Row}, r.Valid → r'.Valid → r.content = r'.content → r.key = [] →
      r'.key = [] := by
    intro r r' h h' hcontent hkey
    by_contra hkey'
    rw [Row.content, if_pos hkey, Row.content, if_neg hkey'] at hcontent
    cases hvalue : r.value with
    | opens => exact (h.item hkey).2 hvalue
    | block header ls =>
      obtain ⟨c, cs, hcs⟩ := List.exists_cons_of_ne_nil hkey'
      have hchar := not_wordChar (h'.key c (by rw [hcs]; exact List.mem_cons_self))
      have hblock := (h.block hvalue).1.block
      rw [Row.lineText, hvalue] at hcontent
      simp only at hcontent
      rw [hcontent, hcs] at hblock
      exact hchar.2.2.2 (Option.some.inj hblock)
    | inline text =>
      rw [Row.lineText, hvalue] at hcontent
      simp only at hcontent
      have hrest := (h.inline hvalue).not_key _ _ hkey' h'.key hcontent
      by_cases hnil : r'.lineText = []
      · rw [if_pos hnil] at hrest
        exact hrest.1 rfl
      · rw [if_neg hnil] at hrest
        exact hrest.2 rfl
  by_cases hkey : r.key = []
  · have hkey' := hmixed h h' hcontent hkey
    rw [Row.content, if_pos hkey, Row.content, if_pos hkey'] at hcontent
    exact h.bare_eq h' hindent hbullets (hkey.trans hkey'.symm) hcontent
  · have hkey' : r'.key ≠ [] := fun hkey' => hkey (hmixed h' h hcontent.symm hkey')
    rw [Row.content, if_neg hkey, Row.content, if_neg hkey'] at hcontent
    have hcolon : ∀ {r : Row}, r.Valid → ∀ c ∈ r.key, decide (c ≠ ':') = true := fun h c hc =>
      decide_eq_true (not_wordChar (h.key c hc)).2.2.1
    have hsplit : r.key = r'.key ∧ (if r.lineText = [] then [] else ' ' :: r.lineText) =
        if r'.lineText = [] then [] else ' ' :: r'.lineText := by
      constructor
      · have htake := congrArg (List.takeWhile fun c => decide (c ≠ ':')) hcontent
        rwa [List.takeWhile_append_of_pos (hcolon h), List.takeWhile_append_of_pos (hcolon h'),
          List.takeWhile_cons_of_neg (by simp), List.takeWhile_cons_of_neg (by simp),
          List.append_nil, List.append_nil] at htake
      · have hdrop := congrArg (List.dropWhile fun c => decide (c ≠ ':')) hcontent
        rw [List.dropWhile_append_of_pos (hcolon h), List.dropWhile_append_of_pos (hcolon h'),
          List.dropWhile_cons_of_neg (by simp), List.dropWhile_cons_of_neg (by simp)] at hdrop
        exact (List.cons.inj hdrop).2
    refine h.bare_eq h' hindent hbullets hsplit.1 ?_
    have htext := hsplit.2
    split_ifs at htext with hnil hnil'
    · rw [hnil, hnil']
    · exact (List.cons.inj htext).2

end Row

/-! ## The lines of a document determine its rows -/

/-- The lines that belong to a block: empty ones, and those behind its indentation. -/
def InBody (n : ℕ) (line : Text) : Prop := line = [] ∨ pad n <+: line

namespace Row

variable {r r' : Row}

theorem bodyLine_inBody (r : Row) (line : Text) : InBody r.bodyIndent (r.bodyLine line) := by
  rw [bodyLine]
  split_ifs with hnil
  · exact .inl rfl
  · exact .inr ⟨line, rfl⟩

theorem bodyLine_injective (r : Row) : Function.Injective r.bodyLine := by
  intro l l' h
  have hcons : ∀ {l : Text}, l ≠ [] → pad r.bodyIndent ++ l ≠ [] := fun hl hnil =>
    hl (List.append_eq_nil_iff.mp hnil).2
  by_cases hl : l = [] <;> by_cases hl' : l' = []
  · rw [hl, hl']
  · rw [bodyLine, bodyLine, if_pos hl, if_neg hl'] at h
    exact absurd h.symm (hcons hl')
  · rw [bodyLine, bodyLine, if_neg hl, if_pos hl'] at h
    exact absurd h (hcons hl)
  · rw [bodyLine, bodyLine, if_neg hl, if_neg hl'] at h
    exact List.append_cancel_left h

/-- A row that stands left of a block does not belong to it. -/
theorem Valid.head_not_inBody (h : r.Valid) {n : ℕ} (hn : r.indent < n) : ¬ InBody n r.head := by
  have hfront := h.front
  rintro (hnil | ⟨tail, htail⟩)
  · rw [head, List.append_eq_nil_iff, List.append_eq_nil_iff] at hnil
    exact h.content.1 hnil.2.2
  · obtain ⟨k, rfl⟩ := Nat.exists_eq_add_of_lt hn
    rw [head, pad, pad, Nat.add_assoc, List.replicate_add, List.append_assoc] at htail
    have hrest := List.append_cancel_left htail
    rw [← hrest, List.replicate_succ] at hfront
    exact hfront rfl

end Row

theorem lines_cons (r : Row) (rest : List Row) :
    lines (r :: rest) = r.head :: (r.body ++ lines rest) := by
  simp [lines]

theorem Nested.valid {r : Row} {rest : List Row} (h : Nested (r :: rest)) : r.Valid := by
  cases h with
  | cons _ _ hvalid => exact hvalid

/-- Behind a block the first line does not belong to it. -/
theorem Nested.head_not_inBody {r : Row} {rest : List Row} (h : Nested (r :: rest))
    (hblock : ∃ header ls, r.value = .block header ls) :
    ∀ line ∈ (lines rest).head?, ¬ InBody r.bodyIndent line := by
  cases h with
  | cons _ _ _ hnext hrest =>
    cases rest with
    | nil => simp [lines]
    | cons r' rest =>
      rw [lines_cons]
      rintro line ⟨⟩
      exact hrest.valid.head_not_inBody (hnext r' rfl hblock)

theorem lines_injective {rows rows' : List Row} (h : Nested rows) (h' : Nested rows')
    (heq : lines rows = lines rows') : rows = rows' := by
  induction h generalizing rows' with
  | nil =>
    cases h' with
    | nil => rfl
    | cons => simp [lines] at heq
  | cons r rest hvalid hnext hrest ih =>
    have hr := Nested.cons r rest hvalid hnext hrest
    cases h' with
    | nil => simp [lines] at heq
    | cons r' rest' hvalid' hnext' hrest' =>
      have hr' := Nested.cons r' rest' hvalid' hnext' hrest'
      rw [lines_cons, lines_cons] at heq
      obtain ⟨hhead, htail⟩ := List.cons.inj heq
      have hbare := hvalid.head_inj hvalid' hhead
      have hrows : r = r' ∧ lines rest = lines rest' := by
        obtain ⟨indent, bullets, key, value⟩ := r
        obtain ⟨indent', bullets', key', value'⟩ := r'
        cases value <;> cases value' <;> cases hbare
        case inline => exact ⟨rfl, htail⟩
        case opens => exact ⟨rfl, htail⟩
        case block header ls ls' =>
          have hbody := fun (r : Row) (ls : List Text) => List.forall_mem_map.mpr
            fun l (_ : l ∈ ls) => r.bodyLine_inBody l
          obtain ⟨hls, hlines⟩ := append_inj_of_split htail (hbody _ _)
            (hr.head_not_inBody ⟨_, _, rfl⟩) (hbody _ _) (hr'.head_not_inBody ⟨_, _, rfl⟩)
          rw [List.map_injective_iff.mpr (Row.bodyLine_injective _) hls]
          exact ⟨rfl, hlines⟩
      rw [hrows.1, ih hrest' hrows.2]

/-! ## Lines have no line breaks -/

def IsOneLine (line : Text) : Prop := '\n' ∉ line ∧ '\r' ∉ line

theorem IsOneLine.append {s t : Text} (hs : IsOneLine s) (ht : IsOneLine t) :
    IsOneLine (s ++ t) := by
  simp only [IsOneLine, List.mem_append, not_or]
  exact ⟨⟨hs.1, ht.1⟩, hs.2, ht.2⟩

theorem IsOneLine.of_forall {s : Text} (h : ∀ c ∈ s, c ≠ '\n' ∧ c ≠ '\r') : IsOneLine s :=
  ⟨fun hn => (h _ hn).1 rfl, fun hr => (h _ hr).2 rfl⟩

theorem isOneLine_pad (n : ℕ) : IsOneLine (pad n) := by
  refine .of_forall fun c hc => ?_
  rw [List.eq_of_mem_replicate hc]
  decide

theorem isOneLine_bulletText (n : ℕ) : IsOneLine (bulletText n) := by
  refine .of_forall fun c hc => ?_
  obtain ⟨bullet, hbullet, hc⟩ := List.mem_flatten.mp hc
  rw [List.eq_of_mem_replicate hbullet] at hc
  have hchars : ∀ c ∈ ['-', ' '], c ≠ '\n' ∧ c ≠ '\r' := by simp
  exact hchars c hc

namespace Row

variable {r : Row}

theorem Valid.isOneLine_content (h : r.Valid) : IsOneLine r.content := by
  have htext : IsOneLine r.lineText := by
    rw [Row.lineText]
    cases hvalue : r.value with
    | inline text => exact (h.inline hvalue).one_line
    | block header ls => exact (h.block hvalue).1.one_line
    | opens => exact ⟨List.not_mem_nil, List.not_mem_nil⟩
  have hkey : IsOneLine r.key := by
    refine .of_forall fun c hc => ?_
    have hchar := h.key c hc
    constructor <;> rintro rfl <;> revert hchar <;> decide
  rw [Row.content]
  split_ifs with hnil hline
  · exact htext
  · exact hkey.append (.of_forall (by simp))
  · exact hkey.append (IsOneLine.append (s := [':', ' ']) (.of_forall (by simp)) htext)

theorem Valid.isOneLine (h : r.Valid) : ∀ line ∈ r.head :: r.body, IsOneLine line := by
  rw [List.forall_mem_cons]
  constructor
  · exact (isOneLine_pad _).append ((isOneLine_bulletText _).append h.isOneLine_content)
  · intro line hline
    rw [Row.body] at hline
    split at hline
    · rename_i header ls hvalue
      obtain ⟨l, hl, rfl⟩ := List.mem_map.mp hline
      rw [bodyLine]
      split_ifs
      · exact ⟨List.not_mem_nil, List.not_mem_nil⟩
      · exact (isOneLine_pad _).append ((h.block hvalue).2 l hl)
    · cases hline

end Row

theorem Nested.isOneLine {rows : List Row} (h : Nested rows) :
    ∀ line ∈ lines rows, IsOneLine line := by
  induction h with
  | nil => simp [lines]
  | cons r rest hvalid _ _ ih =>
    intro line hline
    rw [lines_cons, ← List.cons_append, List.mem_append] at hline
    rcases hline with hline | hline
    · exact hvalid.isOneLine line hline
    · exact ih line hline

end Voleeo.Yaml
