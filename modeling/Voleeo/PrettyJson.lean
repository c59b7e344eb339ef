import Voleeo.JsonRoundTrip

/-!
# JSON over several lines

A pretty printer puts each member on a line of its own, indented by two blanks for each block
around it, and leaves an empty block on the line where it stands. A document is what the printer
is told: texts that are written as they are, and blocks.
-/
namespace Voleeo

mutual

inductive Doc
  | scalar (text : Text)
  | block (opening closing : Char) (items : Docs)

/-- Items with what is written in front of them. -/
inductive Docs
  | nil
  | cons (label : Text) (doc : Doc) (rest : Docs)

end

namespace Json

mutual

def toDoc : Json → Doc
  | .null => .scalar "null".toList
  | .bool true => .scalar "true".toList
  | .bool false => .scalar "false".toList
  | .number text => .scalar text.toList
  | .string s => .scalar (quote s)
  | .array values => .block '[' ']' (valueDocs values)
  | .object members => .block '\x7b' '\x7d' (memberDocs members)

def valueDocs : List Json → Docs
  | [] => .nil
  | v :: vs => .cons [] (toDoc v) (valueDocs vs)

def memberDocs : List (String × Json) → Docs
  | [] => .nil
  | e :: es => .cons (quote e.1 ++ [':', ' ']) (memberDoc e) (memberDocs es)

def memberDoc : String × Json → Doc
  | (_, value) => toDoc value

end

end Json

def Docs.isNil : Docs → Bool
  | .nil => true
  | .cons _ _ _ => false

def indentation (depth : ℕ) : Text := List.replicate (2 * depth) ' '

mutual

def Doc.pretty (depth : ℕ) : Doc → Text
  | .scalar text => text
  | .block opening closing items =>
    if items.isNil then [opening, closing]
    else opening :: items.pretty (depth + 1) true ++ '\n' :: indentation depth ++ [closing]

/-- A comma stands before each item but the first. -/
def Docs.pretty (depth : ℕ) (first : Bool) : Docs → Text
  | .nil => []
  | .cons label doc rest =>
    (if first then [] else [',']) ++ '\n' :: indentation depth ++ label ++ doc.pretty depth ++
      rest.pretty depth false

end

/-- The text of a value over several lines. -/
def Json.pretty (v : Json) : Text := v.toDoc.pretty 0

/-! ## The lines -/

mutual

/-- The lines of a document behind a label, with a text behind its last line. -/
def Doc.lines (depth : ℕ) (label tail : Text) : Doc → List Text
  | .scalar text => [indentation depth ++ (label ++ text ++ tail)]
  | .block opening closing items =>
    if items.isNil then [indentation depth ++ (label ++ [opening, closing] ++ tail)]
    else (indentation depth ++ (label ++ [opening])) :: items.lines (depth + 1) ++
      [indentation depth ++ closing :: tail]

def Docs.lines (depth : ℕ) : Docs → List Text
  | .nil => []
  | .cons label doc rest =>
    doc.lines depth label (if rest.isNil then [] else [',']) ++ rest.lines depth

end

theorem Doc.lines_ne_nil (depth : ℕ) (label tail : Text) (doc : Doc) :
    doc.lines depth label tail ≠ [] := by
  cases doc with
  | scalar text => exact List.cons_ne_nil _ _
  | block opening closing items =>
    rw [lines]
    split_ifs <;> simp

theorem Docs.lines_ne_nil {depth : ℕ} {docs : Docs} (h : docs.isNil = false) :
    docs.lines depth ≠ [] := by
  cases docs with
  | nil => cases h
  | cons label doc rest =>
    rw [lines]
    exact fun h => Doc.lines_ne_nil _ _ _ _ (List.append_eq_nil_iff.mp h).1

theorem intercalate_append {α : Type} (sep : List α) {xs ys : List (List α)} (hx : xs ≠ [])
    (hy : ys ≠ []) :
    List.intercalate sep (xs ++ ys) =
      List.intercalate sep xs ++ sep ++ List.intercalate sep ys := by
  induction xs with
  | nil => exact absurd rfl hx
  | cons x xs ih =>
    obtain ⟨y, ys, rfl⟩ := List.exists_cons_of_ne_nil hy
    obtain _ | ⟨x', xs⟩ := xs
    · rw [List.singleton_append, List.intercalate_cons_cons, List.intercalate_singleton]
    · rw [List.cons_append, List.cons_append, List.intercalate_cons_cons, ← List.cons_append,
        ih (List.cons_ne_nil _ _), List.intercalate_cons_cons]
      simp only [List.append_assoc]

mutual

/-- What is printed is the lines with line feeds between them. -/
theorem Doc.pretty_eq_lines (depth : ℕ) (label tail : Text) : ∀ doc : Doc,
    indentation depth ++ (label ++ doc.pretty depth ++ tail) =
      List.intercalate ['\n'] (doc.lines depth label tail)
  | .scalar text => by rw [Doc.pretty, Doc.lines, List.intercalate_singleton]
  | .block opening closing items => by
      rw [Doc.pretty, Doc.lines]
      cases h : items.isNil with
      | true => simp only [if_true, List.intercalate_singleton]
      | false =>
        have hitems := Docs.pretty_eq_lines (depth + 1) true items h
        have hlines := @Docs.lines_ne_nil (depth + 1) items h
        rw [if_neg (by simp), if_neg (by simp), hitems,
          intercalate_append _ (List.cons_ne_nil _ _) (List.cons_ne_nil _ _),
          List.intercalate_singleton,
          ← List.singleton_append (x := indentation depth ++ (label ++ [opening])),
          intercalate_append _ (List.cons_ne_nil _ _) hlines, List.intercalate_singleton]
        simp

theorem Docs.pretty_eq_lines (depth : ℕ) (first : Bool) : ∀ docs : Docs, docs.isNil = false →
    docs.pretty depth first =
      (if first then [] else [',']) ++ '\n' :: List.intercalate ['\n'] (docs.lines depth)
  | .nil, h => by cases h
  | .cons label doc rest, _ => by
      rw [Docs.pretty, Docs.lines]
      cases h : rest.isNil with
      | true =>
        obtain _ | ⟨label', doc', rest⟩ := rest
        · have hdoc := Doc.pretty_eq_lines depth label [] doc
          rw [List.append_nil] at hdoc
          simp only [if_true, Docs.lines, Docs.pretty, List.append_nil, ← hdoc]
          simp
        · cases h
      | false =>
        have hdoc := Doc.pretty_eq_lines depth label [','] doc
        have hlines := Doc.lines_ne_nil depth label [','] doc
        rw [Docs.pretty_eq_lines depth false rest h, if_neg Bool.false_ne_true,
          intercalate_append _ hlines (Docs.lines_ne_nil h), ← hdoc]
        simp

end

end Voleeo
