/-
# Reading written expressions

The written form of an expression of a text is told by its first pieces: a word
by itself, or the piece behind a parenthesis. What stands inside it is read back
in turn, so the whole expression is, up to where its marks stand
(`Lox.Expr.Over.told`).

Key definitions: `Lox.Expr.Told`.
Key theorems: `Lox.Expr.Told.finds`, `Lox.Expr.Over.told`.
-/
import Lox.Proofs.Rendering.Words

namespace Lox

open Reader Respelling

/-! ### Lists of parts -/

theorem renderArgs_eq (args : List Expr) : renderArgs args = args.map Expr.render := by
  induction args with
  | nil => rfl
  | cons arg args ih => exact congrArg (arg.render :: ·) ih

theorem renderBody_eq (body : List Stmt) : renderBody body = body.map Stmt.render := by
  induction body with
  | nil => rfl
  | cons s body ih => exact congrArg (s.render :: ·) ih

theorem renderMethods_eq (methods : List Fun) : renderMethods methods = methods.map renderFunction := by
  induction methods with
  | nil => rfl
  | cons m methods ih => exact congrArg (renderFunction m :: ·) ih

section

variable (r : Respelling)

theorem argsRespell_eq (args : List Expr) : argsRespell r args = args.map (Expr.respell r) := by
  induction args with
  | nil => rfl
  | cons arg args ih => exact congrArg (arg.respell r :: ·) ih

theorem bodyRespell_eq (body : List Stmt) : bodyRespell r body = body.map (Stmt.respell r) := by
  induction body with
  | nil => rfl
  | cons s body ih => exact congrArg (s.respell r :: ·) ih

theorem methodsRespell_eq (methods : List Fun) :
    methodsRespell r methods = methods.map (functionRespell r) := by
  induction methods with
  | nil => rfl
  | cons m methods ih => exact congrArg (functionRespell r m :: ·) ih

end

/-- A form in parentheses: the piece that tells it, and the pieces of its parts. -/
theorem pieces_form {head : String} (h : pieces head = [head]) (parts : List String) :
    pieces (parenthesized (head :: parts)) = "(" :: head :: parts.foldr (pieces · ++ ·) [")"] := by
  rw [pieces_parenthesized, List.foldr_cons, h]
  rfl

/-! ### Expressions -/

/-- The written form of the expression tells which expression it is: by its only word, or by the piece
behind its parenthesis and what follows. -/
inductive Expr.Told (e : Expr) : Prop
  | leaf : Leaf e.render (e.respell .unplaced) → Told e
  | form {head : String} {ps : List String} {found : Expr} : head ∉ statementHeads →
      pieces e.render = "(" :: head :: ps →
      Finds (fun n => readForm (readExpr n) n head) ps found →
      found = e.respell .unplaced → Told e

namespace Expr.Told

variable {e : Expr}

/-- It is read back. -/
theorem finds (h : e.Told) : Finds readExpr (pieces e.render) (e.respell .unplaced) := by
  refine .succ (fun _ => rfl) ?_
  cases h with
  | leaf hleaf =>
    have hne : e.render ≠ "(" := by
      intro heq
      exact absurd (hleaf.solid '(' (by rw [heq]; decide)) (by decide)
    rw [hleaf.toIsPiece.pieces]
    exact .next (.ofFalse hne (hleaf.reads ▸ .pure _))
  | form _ hpieces hfinds heq =>
    rw [hpieces, ← heq]
    exact .next (.ofTrue rfl (.next hfinds))

/-- It does not begin as a list ends. -/
theorem begins (h : e.Told) {stop : String} (hstop : stop ∈ [")", "\x7d"]) :
    BeginsBeside stop (pieces e.render) := by
  cases h with
  | leaf hleaf =>
    exact ⟨e.render, [], hleaf.toIsPiece.pieces, fun heq => hleaf.not_closing (heq ▸ hstop)⟩
  | form _ hpieces _ _ =>
    refine ⟨_, _, hpieces, ?_⟩
    rintro rfl
    exact absurd hstop (by decide)

end Expr.Told

/-! ### The forms of expressions -/

theorem readForm_operator {expr : Reader Expr} {steps : Nat} {w : String} (hw : w ∈ operatorWords) :
    readForm expr steps w = readOperands expr (markOf w) := by
  unfold readForm
  split
  case h_7 => rfl
  all_goals exact absurd hw (by decide)

theorem readAssignment_name {expr : Reader Expr} {w : String} (hw : IsNameWord w) :
    readAssignment expr w = do
      let value ← expr
      expect ")"
      return .assign (.free (markOf w)) value := by
  unfold readAssignment
  split
  · rename_i name hdot
    obtain ⟨c, hc, hstarts⟩ := hw.begins
    rw [hdot] at hc
    cases hc
    exact absurd hstarts (by decide)
  · rfl

theorem readAssignment_property {expr : Reader Expr} (name : String) :
    readAssignment expr ("." ++ name) = do
      let object ← expr
      let value ← expr
      expect ")"
      return .set object (markOf name) value := by
  have htext : ("." ++ name).toList = '.' :: name.toList := by
    rw [String.toList_append]
    rfl
  unfold readAssignment
  split
  · rename_i hdot
    rw [htext] at hdot
    cases hdot
    rw [String.ofList_toList]
  · rename_i hno
    exact absurd htext (hno _)

theorem free_markOf {use : NameUse} {kind : TokenKind} (h : Vocabulary.written.Use kind use) {w : String}
    (hw : markOf w = use.name.respell .unplaced) :
    .free (markOf w) = use.respell .unplaced := by
  obtain ⟨name, hops⟩ := use
  obtain rfl : hops = none := h.hops
  rw [hw]
  rfl

namespace Expr.Told

variable {value object : Expr} {use : NameUse} {name : Mark}

/-- An operator behind its parenthesis, and its operands. -/
theorem operator {kinds : List TokenKind} {op : Mark} (hop : Vocabulary.written.operator kinds op)
    (hkinds : kinds ⊆ unaryKinds ++ binaryKinds ++ logicalKinds) {e : Expr} {parts : List String}
    (hrender : e.render = parenthesized (op.text :: parts))
    (hfinds : Finds (fun n => readOperands (readExpr n) (op.respell .unplaced))
      (parts.foldr (pieces · ++ ·) [")"]) (e.respell .unplaced)) : e.Told := by
  obtain ⟨hword, hmark⟩ := mem_operatorWords hop hkinds
  have hpieces := pieces_form (operatorWords_pieces _ hword) parts
  have hheads : ∀ w ∈ operatorWords, w ∉ statementHeads := by decide
  refine .form (hheads _ hword) (hrender ▸ hpieces) ?_ rfl
  simp only [readForm_operator hword, hmark]
  exact hfinds

theorem assign (hu : Vocabulary.written.Use .identifier use) (h : value.Told) :
    (Expr.assign use value).Told := by
  have hname := Vocabulary.isNameWord hu.name
  have hhead : pieces ("= " ++ use.name.text) = ["=", use.name.text] := by
    rw [pieces_append_left (by decide), hname.toIsPiece.pieces]
    rfl
  have hpieces : pieces (Expr.assign use value).render =
      "(" :: "=" :: use.name.text :: (pieces value.render ++ [")"]) := by
    show pieces (parenthesized ["= " ++ use.name.text, value.render]) = _
    rw [pieces_parenthesized, List.foldr_cons, hhead]
    rfl
  refine .form (by decide) hpieces (.next ?_)
    (congrArg (Expr.assign · _) (free_markOf hu (Vocabulary.markOf_name hu.name)))
  simp only [readAssignment_name hname]
  exact h.finds.bind (.expect (.pure _))

theorem call {callee : Expr} {paren : Mark} {args : List Expr} (h : callee.Told)
    (hp : Vocabulary.written.word .rightParen paren) (ha : ∀ arg ∈ args, arg.Told) :
    (Expr.call callee paren args).Told := by
  have hpieces : pieces (Expr.call callee paren args).render = "(" :: "call" ::
      (pieces callee.render ++ args.foldr (fun arg ps => pieces arg.render ++ ps) [")"]) := by
    show pieces (parenthesized ("call" :: callee.render :: renderArgs args)) = _
    rw [pieces_form (by decide), List.foldr_cons, renderArgs_eq, List.foldr_map]
  have hargs : Finds (fun n => Reader.all (readExpr n) ")" n)
      (args.foldr (fun arg ps => pieces arg.render ++ ps) [")"])
      (args.map (Expr.respell .unplaced)) :=
    .all fun arg harg => ⟨(ha arg harg).finds, (ha arg harg).begins (by decide)⟩
  refine .form (by decide) hpieces (h.finds.bind hargs.map) ?_
  rw [markOf_fixedWord hp (by decide), ← argsRespell_eq]
  rfl

theorem get (h : object.Told) (hn : Vocabulary.written.word .identifier name) :
    (Expr.get object name).Told := by
  have hpieces := @pieces_form "." (by decide) [object.render, name.text]
  rw [List.foldr_cons, List.foldr_cons, (Vocabulary.isNameWord hn).toIsPiece.pieces] at hpieces
  exact .form (by decide) hpieces (h.finds.bind (.next (.expect (.pure _))))
    (congrArg (Expr.get _) (Vocabulary.markOf_name hn))

theorem set (ho : object.Told) (hn : Vocabulary.written.word .identifier name) (h : value.Told) :
    (Expr.set object name value).Told := by
  have hpoint : IsPiece ("." ++ name.text) := by
    constructor
    · rw [String.toList_append]
      exact List.cons_ne_nil '.' _
    · rw [String.toList_append]
      exact List.forall_mem_cons.mpr ⟨rfl, (Vocabulary.isNameWord hn).solid⟩
  have hhead : pieces ("= ." ++ name.text) = ["=", "." ++ name.text] := by
    have hsplit : "= ." = "= " ++ "." := by decide
    rw [hsplit, String.append_assoc, pieces_append_left (by decide), hpoint.pieces]
    rfl
  have hpieces : pieces (Expr.set object name value).render =
      "(" :: "=" :: ("." ++ name.text) :: (pieces object.render ++ (pieces value.render ++ [")"])) := by
    show pieces (parenthesized ["= ." ++ name.text, object.render, value.render]) = _
    rw [pieces_parenthesized, List.foldr_cons, hhead]
    rfl
  refine .form (by decide) hpieces (.next ?_)
    (congrArg (Expr.set _ · _) (Vocabulary.markOf_name hn))
  simp only [readAssignment_property]
  exact ho.finds.bind (h.finds.bind (.expect (.pure _)))

theorem superMethod (hu : Vocabulary.written.Use .kwSuper use)
    (hn : Vocabulary.written.word .identifier name) : (Expr.superMethod use name).Told := by
  have hpieces := @pieces_form "super" (by decide) [name.text]
  rw [List.foldr_cons, (Vocabulary.isNameWord hn).toIsPiece.pieces] at hpieces
  have hsuper : .free (markOf "super") = use.respell .unplaced :=
    free_markOf hu (markOf_fixedWord hu.name (by decide))
  refine .form (by decide) hpieces (.next (.expect (.pure _))) ?_
  rw [hsuper, Vocabulary.markOf_name hn]
  rfl

end Expr.Told

/-- Every expression of a text is told by its written form. -/
theorem Expr.Over.told {e : Expr} (he : e.Over .written) : e.Told := by
  induction he with
  | literal hx => exact .leaf (leaf_literal hx)
  | «variable» hu => exact .leaf (leaf_variable hu)
  | receiver hu => exact .leaf (leaf_receiver hu)
  | grouping _ ih =>
    exact .form (by decide) (pieces_form (by decide) _) (ih.finds.bind (.expect (.pure _))) rfl
  | unary hop _ ih => exact .operator hop (by decide) rfl (ih.finds.bind (.accept (.pure _)))
  | @binary _ _ op _ hop _ ihl ihr =>
    have hno : ∀ kind ∈ binaryKinds, ¬ (kind = .kwOr ∨ kind = .kwAnd) := by decide
    refine .operator hop (by decide) rfl ?_
    exact ihl.finds.bind (.refuse ((ihr.begins (by decide)).append _)
      (ihr.finds.bind (.expect (.ofFalse (hno op.kind hop.1) (.pure _)))))
  | @logical _ _ op _ hop _ ihl ihr =>
    have hyes : ∀ kind ∈ logicalKinds, kind = .kwOr ∨ kind = .kwAnd := by decide
    refine .operator hop (by decide) rfl ?_
    exact ihl.finds.bind (.refuse ((ihr.begins (by decide)).append _)
      (ihr.finds.bind (.expect (.ofTrue (hyes op.kind hop.1) (.pure _)))))
  | ternary _ _ _ ihc ihy ihn =>
    exact .form (by decide) (pieces_form (by decide) _)
      (ihc.finds.bind (ihy.finds.bind (ihn.finds.bind (.expect (.pure _))))) rfl
  | assign hu _ ih => exact .assign hu ih
  | call _ hp _ ih iha => exact .call ih hp iha
  | get _ hn ih => exact .get ih hn
  | set _ hn _ iho ihv => exact .set iho hn ihv
  | superMethod hu hm => exact .superMethod hu hm

end Lox
