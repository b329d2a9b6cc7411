/-
# Written forms are unambiguous

Trees of texts are read back from their written forms, so two of them that are
written alike are alike, up to where their marks stand. Texts with strings or
infinite numbers stand aside: a string is written as any other word may be, and
infinity as a name is.

Key theorems: `Lox.Expr.Over.render_injective`, `Lox.Stmt.Over.render_injective`,
`Lox.written_unambiguous`.
-/
import Lox.Proofs.Rendering.Statements
import Lox.Proofs.Wellformed.Layout
import Lox.Proofs.Wellformed.Yielding

namespace Lox

open Respelling

/-- One thing is found in some pieces. -/
theorem Finds.unique {α : Type} {p : Nat → Reader α} {ps : List String} {a b : α}
    (ha : Finds p ps a) (hb : Finds p ps b) : a = b := by
  obtain ⟨n, hn⟩ := ha
  obtain ⟨k, hk⟩ := hb
  have hsame := (hn (max n k) (by omega) []).symm.trans (hk (max n k) (by omega) [])
  exact congrArg Prod.fst (Option.some.inj hsame)

theorem Expr.Over.render_injective {e e' : Expr} (he : e.Over .written) (he' : e'.Over .written)
    (h : e.render = e'.render) : e.respell .unplaced = e'.respell .unplaced := by
  have hfinds := he.told.finds
  rw [h] at hfinds
  exact hfinds.unique he'.told.finds

theorem Stmt.Over.render_injective {s s' : Stmt} (hs : s.Over .written) (hs' : s'.Over .written)
    (h : s.render = s'.render) : s.respell .unplaced = s'.respell .unplaced := by
  have hfinds := hs.told.finds
  rw [h] at hfinds
  exact hfinds.unique hs'.told.finds

/-- **A written form tells its tree.** Where no string stands in a text, and no number is infinite, the
statements that the parser returns are written alike only if they are alike up to where their marks
stand, whatever was reported of the texts; and so are the expressions that it returns. -/
theorem written_unambiguous {source source' : String} (limits limits' : Limits)
    (h : Showable source) (h' : Showable source') :
    (∀ s ∈ (parse limits (scan source).tokens).stmts,
      ∀ s' ∈ (parse limits' (scan source').tokens).stmts,
        s.toNode.written = s'.toNode.written → s.respell .unplaced = s'.respell .unplaced) ∧
    (∀ e ∈ parseExpression? limits (scan source).tokens,
      ∀ e' ∈ parseExpression? limits' (scan source').tokens,
        e.toNode.written = e'.toNode.written → e.respell .unplaced = e'.respell .unplaced) := by
  refine ⟨fun s hs s' hs' halike => ?_, fun e he e' he' halike => ?_⟩
  · have hover := over_of_parse limits _ s hs
    have hover' := over_of_parse limits' _ s' hs'
    rw [hover.wellFormed.written, hover'.wellFormed.written] at halike
    exact (hover.mono (.written h)).render_injective (hover'.mono (.written h'))
      (Except.ok.inj halike)
  · have hover := over_of_parseExpression? limits _ e he
    have hover' := over_of_parseExpression? limits' _ e' he'
    rw [hover.wellFormed.written, hover'.wellFormed.written] at halike
    exact (hover.mono (.written h)).render_injective (hover'.mono (.written h'))
      (Except.ok.inj halike)

/-- A string may be written as a constant is. -/
example : (Expr.literal (.string "nil")).render = (Expr.literal .nil).render := rfl

/-- A function, and the same function with other spaces. -/
theorem function_written_alike :
    let source := "fun f(x)\x7bprint-x+1;\x7d"
    let other := "fun f( x ) \x7b print - x + 1; \x7d"
    let text := "(fun f (x) \x7b print (+ (- x) 1); \x7d)"
    Showable source ∧ Showable other ∧
      ∃ s ∈ (parse ⟨60, 5⟩ (scan source).tokens).stmts,
      ∃ s' ∈ (parse ⟨60, 5⟩ (scan other).tokens).stmts,
        s.toNode.written = .ok text ∧ s'.toNode.written = .ok text ∧
          s.respell .unplaced = s'.respell .unplaced := by
  intro source other text
  have hshown : Showable source := ⟨by decide +kernel, by decide +kernel⟩
  have hshown' : Showable other := ⟨by decide +kernel, by decide +kernel⟩
  have hwritten : .ok text ∈ (parse ⟨60, 5⟩ (scan source).tokens).stmts.map (·.toNode.written) := by
    decide +kernel
  have hwritten' : .ok text ∈ (parse ⟨60, 5⟩ (scan other).tokens).stmts.map (·.toNode.written) := by
    decide +kernel
  obtain ⟨s, hs, htext⟩ := List.mem_map.mp hwritten
  obtain ⟨s', hs', htext'⟩ := List.mem_map.mp hwritten'
  obtain ⟨halike, -⟩ := written_unambiguous ⟨60, 5⟩ ⟨60, 5⟩ hshown hshown'
  exact ⟨hshown, hshown', s, hs, s', hs', htext, htext',
    halike s hs s' hs' (htext.trans htext'.symm)⟩

end Lox
