/-
# Pieces of a written form

A written form falls into words and marks: parentheses and semicolons stand for
themselves, and words are apart by these and by spaces. The pieces of a text
are those of its parts where a part begins or ends with a mark or a space
(`Lox.pieces_append_left`, `Lox.pieces_append_right`), so written forms are
taken apart without regard to what their parts are.

Key definitions: `Lox.isSolid`, `Lox.pieces`, `Lox.IsPiece`.
Key theorems: `Lox.pieces_parenthesized`, `Lox.pieces_braced`, `Lox.IsPiece.pieces`.
-/
import Mathlib.Data.List.SplitBy
import Lox.Ast.Render

namespace Lox

/-- The character belongs to a word. -/
def isSolid (c : Char) : Bool := c ≠ ' ' && c ≠ '(' && c ≠ ')' && c ≠ ';'

/-- The words and marks of a text. -/
def pieces (text : String) : List String :=
  ((text.toList.splitBy fun c d => isSolid c && isSolid d).filter (· ≠ [' '])).map String.ofList

/-- The text begins with no character of a word. -/
def opensApart (text : String) : Bool := text.toList.head?.all (!isSolid ·)

/-- The text ends with no character of a word. -/
def closesApart (text : String) : Bool := text.toList.getLast?.all (!isSolid ·)

/-- The text is one word. -/
structure IsPiece (text : String) : Prop where
  nonempty : text.toList ≠ []
  solid : ∀ c ∈ text.toList, isSolid c = true

section

variable {s t : String}

theorem IsPiece.of_all (hne : t.toList ≠ []) (h : t.toList.all isSolid = true) : IsPiece t :=
  ⟨hne, List.all_eq_true.mp h⟩

theorem pieces_append (h : ∀ c ∈ s.toList.getLast?, ∀ d ∈ t.toList.head?,
    (isSolid c && isSolid d) = false) : pieces (s ++ t) = pieces s ++ pieces t := by
  unfold pieces
  rw [String.toList_append, List.splitBy_append h, List.filter_append, List.map_append]

/-- Behind a mark or a space another part begins. -/
theorem pieces_append_left (h : closesApart s = true) : pieces (s ++ t) = pieces s ++ pieces t := by
  refine pieces_append fun c hc d _ => ?_
  unfold closesApart at h
  rw [Option.mem_def.mp hc, Option.all_some, Bool.not_eq_true'] at h
  rw [h, Bool.false_and]

theorem closesApart_append (hne : t.toList ≠ []) (h : closesApart t = true) :
    closesApart (s ++ t) = true := by
  unfold closesApart at h ⊢
  rw [String.toList_append, List.getLast?_append_of_ne_nil _ hne, h]

/-- In front of a mark or a space a part ends. -/
theorem pieces_append_right (h : opensApart t = true) : pieces (s ++ t) = pieces s ++ pieces t := by
  refine pieces_append fun c _ d hd => ?_
  unfold opensApart at h
  rw [Option.mem_def.mp hd, Option.all_some, Bool.not_eq_true'] at h
  rw [h, Bool.and_false]

/-- A word is its only piece. -/
theorem IsPiece.pieces (h : IsPiece t) : pieces t = [t] := by
  have hchain : t.toList.IsChain fun c d => (isSolid c && isSolid d) = true := by
    refine List.Pairwise.isChain (List.pairwise_of_forall_mem_list fun c hc d hd => ?_)
    rw [h.solid c hc, h.solid d hd, Bool.and_self]
  have hne : t.toList ≠ [' '] := fun heq =>
    absurd (h.solid ' ' (heq ▸ List.mem_singleton_self ' ')) (by decide)
  unfold Lox.pieces
  rw [List.splitBy_of_isChain h.nonempty hchain, List.filter_cons_of_pos (by simpa using hne),
    List.filter_nil, List.map_singleton, String.ofList_toList]

end

/-- Parts with spaces between them. -/
theorem pieces_intercalate : ∀ parts : List String,
    pieces (" ".intercalate parts) = parts.flatMap pieces
  | [] => by decide
  | [t] => by rw [String.intercalate_singleton, List.flatMap_singleton]
  | t :: u :: parts => by
    have hspace : pieces " " = [] := by decide
    have hcloses : closesApart (t ++ " ") = true := closesApart_append (by decide) rfl
    rw [String.intercalate_cons_cons, pieces_append_left hcloses, pieces_append_right rfl, hspace,
      List.append_nil, pieces_intercalate (u :: parts), List.flatMap_cons, List.flatMap_cons,
      List.flatMap_cons]

theorem pieces_parenthesized (parts : List String) :
    pieces (parenthesized parts) = "(" :: parts.foldr (pieces · ++ ·) [")"] := by
  have hopen : pieces "(" = ["("] := by decide
  have hclose : pieces ")" = [")"] := by decide
  unfold parenthesized
  rw [pieces_append_right rfl, pieces_append_left rfl, hopen, hclose, pieces_intercalate,
    List.foldr_append_eq_append, ← List.flatMap_def]
  rfl

theorem pieces_braced (body : List String) :
    pieces (braced body) = "\x7b" :: body.foldr (pieces · ++ ·) ["\x7d"] := by
  have hopen : pieces "\x7b " = ["\x7b"] := by decide
  have hclose : pieces " \x7d" = ["\x7d"] := by decide
  unfold braced
  split
  · rename_i hempty
    rw [List.isEmpty_iff.mp hempty]
    decide
  · rw [pieces_append_right rfl, pieces_append_left rfl, hopen, hclose, pieces_intercalate,
      List.foldr_append_eq_append, ← List.flatMap_def]
    rfl

end Lox
