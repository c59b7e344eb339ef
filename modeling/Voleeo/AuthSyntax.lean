import Voleeo.JsString

/-!
# Syntax of HTTP authentication

Tokens, quoted strings, and challenges as a server may write them. Whitespace around
`=` and a repeated parameter name are not among what it may write.
-/
namespace Voleeo

/-- RFC 9110 `tchar`. -/
def isTokenChar (c : Char) : Bool :=
  c.isAlphanum || "!#$%&'*+-.^_|~".toList.contains c || c.toNat == 96

theorem isTokenChar_range {c : Char} (h : isTokenChar c = true) : 33 ≤ c.toNat ∧ c.toNat ≤ 126 := by
  rw [isTokenChar, Bool.or_eq_true, Bool.or_eq_true] at h
  rcases h with (h | h) | h
  · simp only [Char.isAlphanum, Char.isAlpha, Char.isUpper, Char.isLower, Char.isDigit,
      Bool.or_eq_true, Bool.and_eq_true, decide_eq_true_eq] at h
    change (((65 ≤ c.toNat ∧ c.toNat ≤ 90) ∨ (97 ≤ c.toNat ∧ c.toNat ≤ 122)) ∨
      (48 ≤ c.toNat ∧ c.toNat ≤ 57)) at h
    omega
  · have hall : ∀ d ∈ "!#$%&'*+-.^_|~".toList, 33 ≤ d.toNat ∧ d.toNat ≤ 126 := by
      intro d hd
      simp only [String.reduceToList, List.mem_cons, List.not_mem_nil, or_false] at hd
      rcases hd with rfl | rfl | rfl | rfl | rfl | rfl | rfl | rfl | rfl | rfl | rfl | rfl | rfl |
        rfl <;> decide
    exact hall c (List.contains_iff_mem.mp h)
  · rw [beq_iff_eq] at h
    omega

namespace AuthSyntax

def IsToken (s : List Char) : Prop := s ≠ [] ∧ ∀ c ∈ s, isTokenChar c = true

instance (s : List Char) : Decidable (IsToken s) := inferInstanceAs (Decidable (_ ∧ _))

theorem IsToken.ne {s : List Char} (h : IsToken s) {c d : Char} (hc : c ∈ s)
    (hd : isTokenChar d = false) : c ≠ d := by
  rintro rfl
  rw [h.2 c hc] at hd
  cases hd

theorem IsToken.not_mem {s : List Char} (h : IsToken s) {d : Char}
    (hd : isTokenChar d = false) : d ∉ s := fun hmem => h.ne hmem hd rfl

/-- What may stand between the quotes of a quoted string. -/
inductive IsQuoted : List Char → Prop
  | nil : IsQuoted []
  | plain {c : Char} {s : List Char} : c ≠ '"' → c ≠ '\\' → IsQuoted s → IsQuoted (c :: s)
  | escaped {c : Char} {s : List Char} : IsQuoted s → IsQuoted ('\\' :: c :: s)

/-- The text that a quoted string stands for. -/
def unquote : List Char → List Char
  | '\\' :: c :: rest => c :: unquote rest
  | c :: rest => c :: unquote rest
  | [] => []

/-- A text without quotes and backslashes. -/
def IsPlain (s : List Char) : Prop := '"' ∉ s ∧ '\\' ∉ s

instance (s : List Char) : Decidable (IsPlain s) := inferInstanceAs (Decidable (_ ∧ _))

theorem IsPlain.tail {c : Char} {s : List Char} (h : IsPlain (c :: s)) : IsPlain s :=
  ⟨fun hs => h.1 (List.mem_cons_of_mem _ hs), fun hs => h.2 (List.mem_cons_of_mem _ hs)⟩

theorem IsPlain.isQuoted {s : List Char} (h : IsPlain s) : IsQuoted s := by
  induction s with
  | nil => exact .nil
  | cons c s ih =>
    refine .plain ?_ ?_ (ih h.tail)
    · rintro rfl
      exact h.1 List.mem_cons_self
    · rintro rfl
      exact h.2 List.mem_cons_self

theorem unquote_of_not_mem {s : List Char} (h : '\\' ∉ s) : unquote s = s := by
  induction s using unquote.induct with
  | case1 c rest ih => exact absurd List.mem_cons_self h
  | case2 c rest hnot ih =>
    rw [unquote.eq_2 c rest hnot, ih fun hs => h (List.mem_cons_of_mem _ hs)]
  | case3 => rfl

theorem IsToken.isPlain {s : List Char} (h : IsToken s) : IsPlain s :=
  ⟨h.not_mem (by decide), h.not_mem (by decide)⟩

inductive AuthValue
  | token (s : List Char) (isToken : IsToken s)
  | quoted (raw : List Char) (isQuoted : IsQuoted raw)

namespace AuthValue

/-- What stands in the value, escapes included. -/
def content : AuthValue → List Char
  | token s _ => s
  | quoted raw _ => raw

def text : AuthValue → List Char
  | token s _ => s
  | quoted raw _ => '"' :: raw ++ ['"']

end AuthValue

structure AuthParam where
  name : List Char
  isToken : IsToken name
  value : AuthValue

namespace AuthParam

/-- Names are the same in upper and in lower case. -/
def key (p : AuthParam) : List Char := p.name.map Char.toLower

def text (p : AuthParam) : List Char := p.name ++ '=' :: p.value.text

def row (p : AuthParam) : List Char × List Char := (p.key, p.value.content)

end AuthParam

/-- The content of a parameter, by its name in lower case. -/
def paramOf (params : List AuthParam) (key : List Char) : Option (List Char) :=
  (params.find? fun p => p.key = key).map fun p => p.value.content

def isListChar (c : Char) : Bool := c == ' ' || c == '\t' || c == ','

/-- What separates two parameters. Empty elements of the list may stand in it. -/
structure Comma where
  text : List Char
  listChars : ∀ c ∈ text, isListChar c = true
  comma : ',' ∈ text

def moreText (more : List (Comma × AuthParam)) : List Char :=
  more.flatMap fun next => next.1.text ++ next.2.text

inductive AuthContent
  | bare
  | token68 (spaces : ℕ) (body : List Char) (padding : ℕ)
      (body68 : body ≠ [] ∧ ∀ c ∈ body, (c.isAlphanum || "-._~+/".toList.contains c) = true)
  | params (spaces : ℕ) (first : AuthParam) (more : List (Comma × AuthParam))

namespace AuthContent

def text : AuthContent → List Char
  | bare => []
  | token68 spaces body padding _ =>
    List.replicate (spaces + 1) ' ' ++ (body ++ List.replicate padding '=')
  | params spaces first more => List.replicate (spaces + 1) ' ' ++ (first.text ++ moreText more)

def paramList : AuthContent → List AuthParam
  | bare => []
  | token68 .. => []
  | params _ first more => first :: more.map Prod.snd

end AuthContent

/-- One challenge of a `WWW-Authenticate` header. -/
structure AuthChallenge where
  scheme : List Char
  isToken : IsToken scheme
  content : AuthContent
  distinct : (content.paramList.map AuthParam.key).Nodup

namespace AuthChallenge

def text (ch : AuthChallenge) : List Char := ch.scheme ++ ch.content.text

def param (ch : AuthChallenge) : List Char → Option (List Char) := paramOf ch.content.paramList

end AuthChallenge

end AuthSyntax

end Voleeo
