/-
# Reading written statements

The written form of a statement of a text is told by its first pieces, as that
of an expression is: by a word such as `print`, by a brace, or by the piece
behind a parenthesis, which is a word of the language where the form is not an
expression's. So the whole statement is read back, up to where its marks stand
(`Lox.Stmt.Over.told`).

Key definitions: `Lox.Stmt.Told`, `Lox.functionPieces`.
Key theorems: `Lox.Stmt.Over.told`.
-/
import Lox.Proofs.Rendering.Expressions

namespace Lox

open Reader Respelling

/-- The written form of the statement tells which statement it is, and it does not begin as a list
ends. -/
structure Stmt.Told (s : Stmt) : Prop where
  finds : Finds readStmt (pieces s.render) (s.respell .unplaced)
  begins {stop : String} : stop ∈ [")", "\x7d"] → BeginsBeside stop (pieces s.render)

namespace Stmt.Told

variable {s found : Stmt} {ps : List String} {w : String}

/-- By its first piece. -/
theorem of_first (hw : w ∉ [")", "\x7d"]) (hpieces : pieces s.render = w :: ps)
    (hfinds : Finds (fun n => readRest (readExpr n) (readStmt n) n w) ps found)
    (heq : found = s.respell .unplaced) : s.Told where
  finds := by
    rw [hpieces, ← heq]
    exact .succ (fun _ => rfl) (.next hfinds)
  begins hstop := ⟨w, ps, hpieces, fun h => hw (h ▸ hstop)⟩

/-- By the word behind its parenthesis. -/
theorem of_head (hw : w ∈ statementHeads) (hpieces : pieces s.render = "(" :: w :: ps)
    (hfinds : Finds (fun n => readCompound (readExpr n) (readStmt n) n w) ps found)
    (heq : found = s.respell .unplaced) : s.Told :=
  of_first (by decide) hpieces (.next (.ofTrue hw hfinds)) heq

end Stmt.Told

theorem readRest_leaf {expr : Reader Expr} {stmt : Reader Stmt} {steps : Nat} {w : String} {e : Expr}
    (hw : Leaf w e) : readRest expr stmt steps w = do
      expect ";"
      return .expr (readLeaf w) := by
  unfold readRest
  split
  case h_4 => exact absurd (hw.solid '(' (by decide)) (by decide)
  case h_5 => rfl
  all_goals exact absurd (by decide) hw.plain

/-! ### Bodies and functions -/

/-- The statements of a body, up to the brace behind them. -/
theorem finds_body {body : List Stmt} (h : ∀ s ∈ body, s.Told) :
    Finds (fun n => Reader.all (readStmt n) "\x7d" n)
      (body.foldr (fun s ps => pieces s.render ++ ps) ["\x7d"]) (bodyRespell .unplaced body) := by
  rw [bodyRespell_eq]
  exact .all fun s hs => ⟨(h s hs).finds, (h s hs).begins (by decide)⟩

/-- The pieces of a function behind the word for it, and of the parenthesis behind it. -/
def functionPieces (decl : Fun) : List String :=
  decl.name.text :: "(" :: (decl.params.foldr (fun param ps => [param.text] ++ ps) [")"] ++
    "\x7b" :: (decl.body.foldr (fun s ps => pieces s.render ++ ps) ["\x7d"] ++ [")"]))

section

variable {decl : Fun}

theorem pieces_function (h : decl.Headed .written) :
    pieces (renderFunction decl) = "(" :: "fun" :: functionPieces decl := by
  have hword : pieces "fun" = ["fun"] := by decide
  have hparams : ∀ params : List Mark, (∀ m ∈ params, Vocabulary.written.word .identifier m) →
      params.foldr (fun param ps => pieces param.text ++ ps) [")"] =
        params.foldr (fun param ps => [param.text] ++ ps) [")"] := by
    intro params hall
    induction params with
    | nil => rfl
    | cons m params ih =>
      obtain ⟨hm, hparams⟩ := List.forall_mem_cons.mp hall
      rw [List.foldr_cons, List.foldr_cons, (Vocabulary.isNameWord hm).toIsPiece.pieces, ih hparams]
  obtain ⟨name, params, body⟩ := decl
  show pieces (parenthesized ["fun", name.text, parenthesized (params.map Mark.text),
    braced (renderBody body)]) = _
  rw [pieces_form hword, List.foldr_cons, List.foldr_cons, List.foldr_cons, List.foldr_nil,
    (Vocabulary.isNameWord h.name).toIsPiece.pieces, pieces_parenthesized, pieces_braced,
    List.foldr_map, hparams params h.params, renderBody_eq, List.foldr_map]
  rfl

theorem finds_function (h : decl.Headed .written) (hbody : ∀ s ∈ decl.body, s.Told) :
    Finds (fun n => readFunction (readStmt n) n) (functionPieces decl)
      (functionRespell .unplaced decl) := by
  have hparams : Finds (fun n => Reader.all next ")" n)
      (decl.params.foldr (fun param ps => [param.text] ++ ps) [")"]) (decl.params.map Mark.text) :=
    .all fun m hm => by
      have hname := Vocabulary.isNameWord (h.params m hm)
      exact ⟨⟨0, fun _ _ _ => rfl⟩, m.text, [], rfl, hname.ne_of_head (by decide)⟩
  have hmarks : (decl.params.map Mark.text).map markOf = decl.params.map (Mark.respell .unplaced) := by
    rw [List.map_map]
    exact List.map_congr_left fun m hm => Vocabulary.markOf_name (h.params m hm)
  have hfound : (⟨markOf decl.name.text, (decl.params.map Mark.text).map markOf,
      bodyRespell .unplaced decl.body⟩ : Fun) = functionRespell .unplaced decl := by
    rw [Vocabulary.markOf_name h.name, hmarks]
    obtain ⟨name, params, body⟩ := decl
    rfl
  rw [← hfound]
  exact .next (.expect (hparams.bind (.expect ((finds_body hbody).bind (.expect (.pure _))))))

/-- Methods, up to the parenthesis behind them. -/
theorem finds_methods {methods : List Fun} (h : ∀ m ∈ methods, m.Headed .written)
    (hbody : ∀ m ∈ methods, ∀ s ∈ m.body, s.Told) :
    Finds (fun n => Reader.all (readMethod (readStmt n) n) ")" n)
      (methods.foldr (fun m ps => pieces (renderFunction m) ++ ps) [")"])
      (methodsRespell .unplaced methods) := by
  rw [methodsRespell_eq]
  refine .all fun m hm => ?_
  rw [pieces_function (h m hm)]
  exact ⟨.expect (.expect (finds_function (h m hm) (hbody m hm))), _, _, rfl, by decide⟩

end

/-! ### The forms of statements -/

theorem pieces_semicolon : pieces ";" = [";"] := by
  decide

namespace Stmt.Told

variable {value : Expr} {name : Mark}

theorem expr (h : value.Told) : (Stmt.expr value).Told := by
  have hpieces : pieces (Stmt.expr value).render = pieces value.render ++ [";"] := by
    show pieces (value.render ++ ";") = _
    rw [pieces_append_right rfl, pieces_semicolon]
  cases h with
  | leaf hleaf =>
    rw [hleaf.toIsPiece.pieces] at hpieces
    refine .of_first hleaf.not_closing hpieces ?_ (congrArg Stmt.expr hleaf.reads)
    simp only [readRest_leaf hleaf]
    exact .expect (.pure _)
  | form hhead hform hfinds heq =>
    rw [hform] at hpieces
    exact .of_first (by decide) hpieces (.next (.ofFalse hhead (hfinds.bind (.expect (.pure _)))))
      (congrArg Stmt.expr heq)

theorem print (h : value.Told) : (Stmt.print value).Told := by
  have hpieces : pieces (Stmt.print value).render = "print" :: (pieces value.render ++ [";"]) := by
    show pieces ("print " ++ value.render ++ ";") = _
    have hword : pieces "print " = ["print"] := by decide
    rw [pieces_append_right rfl, pieces_append_left rfl, hword, pieces_semicolon]
    rfl
  exact .of_first (by decide) hpieces (h.finds.bind (.expect (.pure _))) rfl

theorem var {initial : Option Expr} (hn : Vocabulary.written.word .identifier name)
    (h : ∀ e ∈ initial, e.Told) : (Stmt.var name initial).Told := by
  have hname := (Vocabulary.isNameWord hn).toIsPiece.pieces
  have hword : pieces "var " = ["var"] := by decide
  cases initial with
  | none =>
    have hpieces : pieces (Stmt.var name none).render = ["var", name.text, ";"] := by
      show pieces ("var " ++ name.text ++ ";") = _
      rw [pieces_append_right rfl, pieces_append_left rfl, hword, hname, pieces_semicolon]
      rfl
    refine .of_first (by decide) hpieces (.next (.accept (.pure _))) ?_
    rw [Vocabulary.markOf_name hn]
    rfl
  | some initial =>
    have hpieces : pieces (Stmt.var name (some initial)).render =
        "var" :: name.text :: "=" :: (pieces initial.render ++ [";"]) := by
      show pieces ("var " ++ name.text ++ " = " ++ initial.render ++ ";") = _
      have hequals : pieces " = " = ["="] := by decide
      rw [pieces_append_right rfl, pieces_append_left (closesApart_append (by decide) rfl),
        pieces_append_right rfl, pieces_append_left rfl, hword, hname, hequals, pieces_semicolon]
      rfl
    refine .of_first (by decide) hpieces (.next (.refuse ⟨"=", _, rfl, by decide⟩
      (.expect ((h initial rfl).finds.bind (.expect (.pure _)))))) ?_
    rw [Vocabulary.markOf_name hn]
    rfl

theorem block {body : List Stmt} (h : ∀ s ∈ body, s.Told) : (Stmt.block body).Told := by
  have hpieces : pieces (Stmt.block body).render =
      "\x7b" :: body.foldr (fun s ps => pieces s.render ++ ps) ["\x7d"] := by
    show pieces (braced (renderBody body)) = _
    rw [pieces_braced, renderBody_eq, List.foldr_map]
  exact .of_first (by decide) hpieces (finds_body h).map rfl

theorem branch {cond : Expr} {yes : Stmt} {no : Option Stmt} (hc : cond.Told) (hy : yes.Told)
    (hn : ∀ s ∈ no, s.Told) : (Stmt.branch cond yes no).Told := by
  cases no with
  | none =>
    exact .of_head (by decide) (pieces_form (by decide) _)
      (hc.finds.bind (hy.finds.bind (.accept (.pure _)))) rfl
  | some no =>
    have hno := hn no rfl
    exact .of_head (by decide) (pieces_form (by decide) _)
      (hc.finds.bind (hy.finds.bind (.refuse ((hno.begins (by decide)).append _)
        (hno.finds.bind (.expect (.pure _)))))) rfl

theorem giveBack {keyword : Mark} {value : Option Expr}
    (hk : Vocabulary.written.word .kwReturn keyword) (h : ∀ e ∈ value, e.Told) :
    (Stmt.giveBack keyword value).Told := by
  have hkeyword : markOf "return" = keyword.respell .unplaced := markOf_fixedWord hk (by decide)
  cases value with
  | none =>
    have hpieces : pieces "(return)" = ["(", "return", ")"] := by decide
    refine .of_head (by decide) hpieces (.accept (.pure _)) ?_
    rw [hkeyword]
    rfl
  | some value =>
    have hvalue := h value rfl
    refine .of_head (by decide) (pieces_form (by decide) _)
      (.refuse ((hvalue.begins (by decide)).append _)
        (hvalue.finds.bind (.expect (.pure _)))) ?_
    rw [hkeyword]
    rfl

section

variable {methods : List Fun} (hn : Vocabulary.written.word .identifier name)
  (hm : ∀ m ∈ methods, m.Headed .written) (h : ∀ m ∈ methods, ∀ s ∈ m.body, s.Told)
include hn hm h

theorem baseClass : (Stmt.classDecl name none methods).Told := by
  have hname := (Vocabulary.isNameWord hn).toIsPiece.pieces
  have hpieces : pieces (Stmt.classDecl name none methods).render = "(" :: "class" :: name.text ::
      methods.foldr (fun m ps => pieces (renderFunction m) ++ ps) [")"] := by
    show pieces (parenthesized (("class " ++ name.text) :: renderMethods methods)) = _
    have hword : pieces "class " = ["class"] := by decide
    rw [pieces_parenthesized, List.foldr_cons, pieces_append_left rfl, hword, hname,
      renderMethods_eq, List.foldr_map]
    rfl
  have hbegins : BeginsBeside "<"
      (methods.foldr (fun m ps => pieces (renderFunction m) ++ ps) [")"]) := by
    cases methods with
    | nil => exact ⟨")", [], rfl, by decide⟩
    | cons m methods =>
      rw [List.foldr_cons, pieces_function (hm m List.mem_cons_self)]
      exact ⟨"(", _, rfl, by decide⟩
  refine .of_head (by decide) hpieces (.next (.refuse hbegins (finds_methods hm h).map)) ?_
  rw [Vocabulary.markOf_name hn]
  rfl

theorem subclass {superclass : NameUse} (hu : Vocabulary.written.Use .identifier superclass) :
    (Stmt.classDecl name (some superclass) methods).Told := by
  have hname := (Vocabulary.isNameWord hn).toIsPiece.pieces
  have hsuper := (Vocabulary.isNameWord hu.name).toIsPiece.pieces
  have hpieces : pieces (Stmt.classDecl name (some superclass) methods).render =
      "(" :: "class" :: name.text :: "<" :: superclass.name.text ::
        methods.foldr (fun m ps => pieces (renderFunction m) ++ ps) [")"] := by
    show pieces (parenthesized (("class " ++ name.text ++ " < " ++ superclass.name.text) ::
      renderMethods methods)) = _
    have hword : pieces "class " = ["class"] := by decide
    have hbelow : pieces " < " = ["<"] := by decide
    rw [pieces_parenthesized, List.foldr_cons,
      pieces_append_left (closesApart_append (by decide) rfl), pieces_append_right rfl,
      pieces_append_left rfl, hword, hname, hbelow, hsuper, renderMethods_eq, List.foldr_map]
    rfl
  refine .of_head (by decide) hpieces (.next (.accept (.next (finds_methods hm h).map))) ?_
  rw [Vocabulary.markOf_name hn, free_markOf hu (Vocabulary.markOf_name hu.name)]
  rfl

end

end Stmt.Told

/-- Every statement of a text is told by its written form. -/
theorem Stmt.Over.told {s : Stmt} (hs : s.Over .written) : s.Told := by
  induction hs with
  | expr he => exact .expr he.told
  | print he => exact .print he.told
  | var hn he => exact .var hn fun e h => (he e h).told
  | block _ ih => exact .block ih
  | branch hc _ _ ihy ihn => exact .branch hc.told ihy ihn
  | loop hc _ ih =>
    exact .of_head (by decide) (pieces_form (by decide) _)
      (hc.told.finds.bind (ih.finds.bind (.expect (.pure _)))) rfl
  | function hd _ ih => exact .of_head (by decide) (pieces_function hd) (finds_function hd ih).map rfl
  | giveBack hk he => exact .giveBack hk fun e h => (he e h).told
  | @classDecl _ superclass _ hn hu hm _ ih =>
    cases superclass with
    | none => exact .baseClass hn hm ih
    | some superclass => exact .subclass hn hm ih (hu superclass rfl)

end Lox
