/-
# The layout of trees

The children that a node has by its label, at every depth: how many, and
whether an expression, a statement, a function, a mark, a constant or nothing
stands in a place (`Lox.Node.Shaped`). The operator of a unary, binary or
logical node is one that there is for the label, and a superclass is a
variable. A tree over known operators is laid out so and reads back as itself,
a node that is laid out so reads as a tree over known operators, and it has a
written form.

Key definitions: `Lox.Node.Shaped`, `Lox.Expr.WellFormed`, `Lox.Stmt.WellFormed`.
Key theorems: `Lox.Stmt.Over.wellFormed`, `Lox.Node.Shaped.over`, `Lox.Stmt.WellFormed.written`.
-/
import Mathlib.Logic.Basic
import Lox.Ast.Reading
import Lox.Proofs.Wellformed.Vocabulary

namespace Lox

/-- What may be asked for where a node stands. -/
inductive Node.Place where
  | expression | statement | function

/-- The node has the children that its label asks for, at every depth, and is what its place asks
for. -/
inductive Node.Shaped : Place → Node → Prop
  | literal {x : Literal} : Shaped .expression (.tree "literal" [.literal x])
  | grouping {e : Node} : Shaped .expression e → Shaped .expression (.tree "grouping" [e])
  | unary {op : Mark} {e : Node} : op.kind ∈ unaryKinds → Shaped .expression e →
      Shaped .expression (.tree "unary" [.mark op, e])
  | binary {op : Mark} {l r : Node} : Shaped .expression l → op.kind ∈ binaryKinds →
      Shaped .expression r → Shaped .expression (.tree "binary" [l, .mark op, r])
  | logical {op : Mark} {l r : Node} : Shaped .expression l → op.kind ∈ logicalKinds →
      Shaped .expression r → Shaped .expression (.tree "logical" [l, .mark op, r])
  | ternary {c y n : Node} : Shaped .expression c → Shaped .expression y → Shaped .expression n →
      Shaped .expression (.tree "ternary" [c, y, n])
  | variable {name : Mark} : Shaped .expression (.tree "variable" [.mark name])
  | assign {name : Mark} {e : Node} : Shaped .expression e →
      Shaped .expression (.tree "assign" [.mark name, e])
  | call {callee : Node} {paren : Mark} {args : List Node} : Shaped .expression callee →
      (∀ arg ∈ args, Shaped .expression arg) →
      Shaped .expression (.tree "call" [callee, .mark paren, .tree "arguments" args])
  | get {o : Node} {name : Mark} : Shaped .expression o →
      Shaped .expression (.tree "get" [o, .mark name])
  | set {o e : Node} {name : Mark} : Shaped .expression o → Shaped .expression e →
      Shaped .expression (.tree "set" [o, .mark name, e])
  | receiver {keyword : Mark} : Shaped .expression (.tree "this" [.mark keyword])
  | superMethod {keyword method : Mark} :
      Shaped .expression (.tree "super" [.mark keyword, .mark method])
  | expr {e : Node} : Shaped .expression e → Shaped .statement (.tree "exprstmt" [e])
  | print {e : Node} : Shaped .expression e → Shaped .statement (.tree "printstmt" [e])
  | var {name : Mark} : Shaped .statement (.tree "vardecl" [.mark name, .absent])
  | varWith {name : Mark} {e : Node} : Shaped .expression e →
      Shaped .statement (.tree "vardecl" [.mark name, e])
  | block {body : List Node} : (∀ s ∈ body, Shaped .statement s) →
      Shaped .statement (.tree "block" body)
  | branch {c y : Node} : Shaped .expression c → Shaped .statement y →
      Shaped .statement (.tree "ifstmt" [c, y, .absent])
  | branchElse {c y n : Node} : Shaped .expression c → Shaped .statement y →
      Shaped .statement n → Shaped .statement (.tree "ifstmt" [c, y, n])
  | loop {c body : Node} : Shaped .expression c → Shaped .statement body →
      Shaped .statement (.tree "whilestmt" [c, body])
  | function {name : Mark} {params : List Mark} {body : List Node} :
      (∀ s ∈ body, Shaped .statement s) → Shaped .function
        (.tree "fundecl" [.mark name, .tree "params" (params.map .mark), .tree "body" body])
  | declaration {f : Node} : Shaped .function f → Shaped .statement f
  | giveBack {keyword : Mark} : Shaped .statement (.tree "returnstmt" [.mark keyword, .absent])
  | giveBackValue {keyword : Mark} {e : Node} : Shaped .expression e →
      Shaped .statement (.tree "returnstmt" [.mark keyword, e])
  | classDecl {name : Mark} {methods : List Node} : (∀ m ∈ methods, Shaped .function m) →
      Shaped .statement (.tree "classdecl" [.mark name, .absent, .tree "methods" methods])
  | subclassDecl {name superclass : Mark} {methods : List Node} :
      (∀ m ∈ methods, Shaped .function m) → Shaped .statement
        (.tree "classdecl" [.mark name, .tree "variable" [.mark superclass], .tree "methods" methods])

/-- The expression is laid out as its label says, and it is what its layout reads as. -/
structure Expr.WellFormed (e : Expr) : Prop where
  shaped : e.toNode.Shaped .expression
  readsBack : e.toNode.toExpr = e

/-- The statement is laid out as its label says, and it is what its layout reads as. -/
structure Stmt.WellFormed (s : Stmt) : Prop where
  shaped : s.toNode.Shaped .statement
  readsBack : s.toNode.toStmt = s

/-! ### Lists of nodes -/

theorem argNodes_eq : ∀ args : List Expr, argNodes args = args.map Expr.toNode
  | [] => rfl
  | arg :: args => by rw [argNodes, argNodes_eq args, List.map_cons]

theorem bodyNodes_eq : ∀ body : List Stmt, bodyNodes body = body.map Stmt.toNode
  | [] => rfl
  | s :: body => by rw [bodyNodes, bodyNodes_eq body, List.map_cons]

theorem methodNodes_eq : ∀ methods : List Fun, methodNodes methods = methods.map functionNode
  | [] => rfl
  | m :: methods => by rw [methodNodes, methodNodes_eq methods, List.map_cons]

theorem Node.toPieces_eq : ∀ ns : List Node, toPieces ns = ns.map toPiece
  | [] => rfl
  | n :: ns => by rw [toPieces, toPieces_eq ns, List.map_cons]

theorem Piece.marks_mark : ∀ ms : List Mark, Piece.marks (Node.toPieces (ms.map .mark)) = ms
  | [] => rfl
  | m :: ms => congrArg (m :: ·) (marks_mark ms)

/-! ### Trees are laid out -/

section

variable {e : Expr} {s : Stmt} {decl : Fun}

theorem Expr.Over.shaped (he : e.Over .known) : e.toNode.Shaped .expression := by
  induction he with
  | literal => exact .literal
  | grouping _ ih => exact .grouping ih
  | unary hop _ ih => exact .unary hop ih
  | binary _ hop _ ihl ihr => exact .binary ihl hop ihr
  | logical _ hop _ ihl ihr => exact .logical ihl hop ihr
  | ternary _ _ _ ihc ihy ihn => exact .ternary ihc ihy ihn
  | «variable» => exact .variable
  | assign _ _ ih => exact .assign ih
  | call _ _ _ ih iha =>
    rw [Expr.toNode, argNodes_eq]
    exact .call ih (List.forall_mem_map.mpr iha)
  | get _ _ ih => exact .get ih
  | set _ _ _ iho ihv => exact .set iho ihv
  | receiver => exact .receiver
  | superMethod => exact .superMethod

theorem shaped_functionNode (h : ∀ s ∈ decl.body, s.toNode.Shaped .statement) :
    (functionNode decl).Shaped .function := by
  rw [functionNode, bodyNodes_eq]
  exact .function (List.forall_mem_map.mpr h)

theorem Stmt.Over.shaped (hs : s.Over .known) : s.toNode.Shaped .statement := by
  induction hs with
  | expr he => exact .expr he.shaped
  | print he => exact .print he.shaped
  | @var _ initial _ he =>
    cases initial with
    | none => exact .var
    | some e => exact .varWith (he e rfl).shaped
  | block _ ih =>
    rw [Stmt.toNode, bodyNodes_eq]
    exact .block (List.forall_mem_map.mpr ih)
  | @branch _ _ no hc _ _ ihy ihn =>
    cases no with
    | none => exact .branch hc.shaped ihy
    | some s => exact .branchElse hc.shaped ihy (ihn s rfl)
  | loop hc _ ih => exact .loop hc.shaped ih
  | function _ _ ih => exact .declaration (shaped_functionNode ih)
  | @giveBack _ value _ he =>
    cases value with
    | none => exact .giveBack
    | some e => exact .giveBackValue (he e rfl).shaped
  | @classDecl _ superclass _ _ _ _ _ ih =>
    rw [Stmt.toNode, methodNodes_eq]
    have hmethods := List.forall_mem_map.mpr fun m hm => shaped_functionNode (ih m hm)
    cases superclass with
    | none => exact .classDecl hmethods
    | some use => exact .subclassDecl hmethods

end

/-! ### Trees read back -/

section

variable {v : Vocabulary} {e : Expr} {s : Stmt} {decl : Fun}

theorem map_eq_self {α : Type} {g : α → α} : ∀ {xs : List α}, (∀ x ∈ xs, g x = x) → xs.map g = xs
  | [], _ => rfl
  | x :: xs, h => by
    obtain ⟨hx, hxs⟩ := List.forall_mem_cons.mp h
    rw [List.map_cons, hx, map_eq_self hxs]

/-- A use of which nothing is known is all that its name says. -/
theorem Vocabulary.Use.eq_free (hv : ∀ {h}, v.hops h → h = none) {kind : TokenKind} {use : NameUse}
    (hu : v.Use kind use) : .free use.name = use := by
  obtain ⟨name, hops⟩ := use
  rw [NameUse.free, show hops = none from hv hu.hops]

theorem toExpr_argNodes {args : List Expr} (h : ∀ arg ∈ args, arg.toNode.toExpr = arg) :
    (Node.toPieces (argNodes args)).map Piece.toExpr = args := by
  rw [Node.toPieces_eq, argNodes_eq, List.map_map, List.map_map]
  exact map_eq_self h

theorem toStmt_bodyNodes {body : List Stmt} (h : ∀ s ∈ body, s.toNode.toStmt = s) :
    (Node.toPieces (bodyNodes body)).map Piece.toStmt = body := by
  rw [Node.toPieces_eq, bodyNodes_eq, List.map_map, List.map_map]
  exact map_eq_self h

theorem Expr.Over.readsBack (hv : ∀ {h}, v.hops h → h = none) (he : e.Over v) :
    e.toNode.toExpr = e := by
  induction he with
  | literal => rfl
  | grouping _ ih => exact congrArg Expr.grouping ih
  | unary _ _ ih => exact congrArg (Expr.unary _) ih
  | binary _ _ _ ihl ihr => exact congrArg₂ (Expr.binary · _ ·) ihl ihr
  | logical _ _ _ ihl ihr => exact congrArg₂ (Expr.logical · _ ·) ihl ihr
  | @ternary cond yes no _ _ _ ihc ihy ihn =>
    show Expr.ternary cond.toNode.toExpr yes.toNode.toExpr no.toNode.toExpr = _
    rw [ihc, ihy, ihn]
  | «variable» hu => exact congrArg Expr.variable (hu.eq_free hv)
  | assign hu _ ih => exact congrArg₂ Expr.assign (hu.eq_free hv) ih
  | call _ _ _ ih iha => exact congrArg₂ (Expr.call · _ ·) ih (toExpr_argNodes iha)
  | get _ _ ih => exact congrArg (Expr.get · _) ih
  | set _ _ _ iho ihv => exact congrArg₂ (Expr.set · _ ·) iho ihv
  | receiver hu => exact congrArg Expr.receiver (hu.eq_free hv)
  | superMethod hu => exact congrArg (Expr.superMethod · _) (hu.eq_free hv)

theorem toPiece_functionNode (h : ∀ s ∈ decl.body, s.toNode.toStmt = s) :
    (functionNode decl).toPiece = .tree "fundecl" (functionNode decl).offset?
      (Node.toPieces (functionNode decl).children) (.function decl) := by
  obtain ⟨name, params, body⟩ := decl
  have hform : Piece.form "fundecl" (Node.toPieces (functionNode ⟨name, params, body⟩).children) =
      .function ⟨name, Piece.marks (Node.toPieces (params.map .mark)),
        (Node.toPieces (bodyNodes body)).map Piece.toStmt⟩ := rfl
  rw [Piece.marks_mark, toStmt_bodyNodes h] at hform
  exact congrArg (Piece.tree "fundecl" _ _) hform

theorem functions_methodNodes : ∀ {methods : List Fun},
    (∀ m ∈ methods, ∀ s ∈ m.body, s.toNode.toStmt = s) →
    Piece.functions (Node.toPieces (methodNodes methods)) = methods
  | [], _ => rfl
  | m :: methods, h => by
    obtain ⟨hm, hms⟩ := List.forall_mem_cons.mp h
    have hpiece := toPiece_functionNode hm
    have htail := functions_methodNodes hms
    unfold Piece.functions at htail ⊢
    rw [methodNodes, Node.toPieces, hpiece, List.filterMap_cons, htail]

/-- A tree is never absent. -/
theorem Expr.exists_toPiece (e : Expr) : ∃ label offset parts form,
    e.toNode.toPiece = .tree label offset parts form := by
  cases e <;> exact ⟨_, _, _, _, rfl⟩

theorem Stmt.exists_toPiece (s : Stmt) : ∃ label offset parts form,
    s.toNode.toPiece = .tree label offset parts form := by
  cases s with
  | branch _ _ no => cases no <;> exact ⟨_, _, _, _, rfl⟩
  | function decl =>
    obtain ⟨name, params, body⟩ := decl
    exact ⟨_, _, _, _, rfl⟩
  | _ => exact ⟨_, _, _, _, rfl⟩

theorem Stmt.Over.readsBack (hv : ∀ {h}, v.hops h → h = none) (hs : s.Over v) :
    s.toNode.toStmt = s := by
  induction hs with
  | expr he => exact congrArg Stmt.expr (he.readsBack hv)
  | print he => exact congrArg Stmt.print (he.readsBack hv)
  | @var name initial _ he =>
    cases initial with
    | none => rfl
    | some e =>
      have hread := (he e rfl).readsBack hv
      obtain ⟨label, offset, parts, form, hpiece⟩ := e.exists_toPiece
      unfold Node.toExpr at hread
      unfold Node.toStmt
      rw [Stmt.toNode, optionNode, Node.toPiece, Node.toPieces, Node.toPieces, Node.toPieces]
      rw [hpiece] at hread ⊢
      exact congrArg (fun e => Stmt.var name (some e)) hread
  | block _ ih => exact congrArg Stmt.block (toStmt_bodyNodes ih)
  | @branch cond yes no hc _ _ ihy ihn =>
    have hcond := hc.readsBack hv
    cases no with
    | none => exact congrArg₂ (Stmt.branch · · none) hcond ihy
    | some s =>
      have hread := ihn s rfl
      obtain ⟨label, offset, parts, form, hpiece⟩ := s.exists_toPiece
      unfold Node.toStmt at hread
      have hform : (Stmt.branch cond yes (some s)).toNode.toStmt =
          .branch cond.toNode.toExpr yes.toNode.toStmt (some s.toNode.toPiece.toStmt) := by
        unfold Node.toStmt
        rw [Stmt.toNode, Node.toPiece, Node.toPieces, Node.toPieces, Node.toPieces, Node.toPieces,
          hpiece]
        rfl
      rw [hform, hcond, ihy, hread]
  | loop hc _ ih => exact congrArg₂ Stmt.loop (hc.readsBack hv) ih
  | function _ _ ih =>
    have hpiece := toPiece_functionNode ih
    unfold Node.toStmt
    rw [Stmt.toNode, hpiece]
    rfl
  | @giveBack keyword value _ he =>
    cases value with
    | none => rfl
    | some e =>
      have hread := (he e rfl).readsBack hv
      obtain ⟨label, offset, parts, form, hpiece⟩ := e.exists_toPiece
      unfold Node.toExpr at hread
      unfold Node.toStmt
      rw [Stmt.toNode, optionNode, Node.toPiece, Node.toPieces, Node.toPieces, Node.toPieces]
      rw [hpiece] at hread ⊢
      exact congrArg (fun e => Stmt.giveBack keyword (some e)) hread
  | @classDecl name superclass methods _ hu _ _ ih =>
    have hmethods := functions_methodNodes ih
    cases superclass with
    | none => exact congrArg (Stmt.classDecl name none) hmethods
    | some use =>
      exact congrArg₂ (fun use ms => Stmt.classDecl name (some use) ms) ((hu use rfl).eq_free hv)
        hmethods

/-- A tree over tokens is laid out as its labels say. -/
theorem Expr.Over.wellFormed {T : Token → Prop} (he : e.Over (.ofTokens T)) : e.WellFormed :=
  ⟨(he.mono (Vocabulary.ofTokens_le_known T)).shaped, he.readsBack fun h => h⟩

theorem Stmt.Over.wellFormed {T : Token → Prop} (hs : s.Over (.ofTokens T)) : s.WellFormed :=
  ⟨(hs.mono (Vocabulary.ofTokens_le_known T)).shaped, hs.readsBack fun h => h⟩

end

/-! ### What is laid out is over known operators -/

namespace Node

/-- What a node that is laid out for a place reads as there. -/
def Place.Reads : Place → Node → Prop
  | .expression, n => n.toExpr.Over .known
  | .statement, n => n.toStmt.Over .known
  | .function, n => ∃ decl : Fun, decl.Over .known ∧ ∃ label offset parts,
      n.toPiece = .tree label offset parts (.function decl)

variable {place : Place} {n : Node}

theorem Shaped.exists_toPiece (h : n.Shaped place) : ∃ label offset parts form,
    n.toPiece = .tree label offset parts form := by
  induction h with
  | declaration _ ih => exact ih
  | _ => exact ⟨_, _, _, _, rfl⟩

theorem forall_mem_toExpr {ns : List Node} (h : ∀ n ∈ ns, n.toExpr.Over .known) :
    ∀ e ∈ (toPieces ns).map Piece.toExpr, e.Over .known := by
  rw [toPieces_eq, List.map_map]
  exact List.forall_mem_map.mpr h

theorem forall_mem_toStmt {ns : List Node} (h : ∀ n ∈ ns, n.toStmt.Over .known) :
    ∀ s ∈ (toPieces ns).map Piece.toStmt, s.Over .known := by
  rw [toPieces_eq, List.map_map]
  exact List.forall_mem_map.mpr h

theorem forall_mem_functions : ∀ {ns : List Node}, (∀ n ∈ ns, Place.Reads .function n) →
    ∀ decl ∈ Piece.functions (toPieces ns), decl.Over .known
  | [], _ => fun _ h => nomatch h
  | n :: ns, h => by
    obtain ⟨⟨decl, hdecl, label, offset, parts, hpiece⟩, hns⟩ := List.forall_mem_cons.mp h
    have htail := forall_mem_functions hns
    unfold Piece.functions at htail ⊢
    rw [toPieces, hpiece, List.filterMap_cons]
    exact List.forall_mem_cons.mpr ⟨hdecl, htail⟩

/-- A node that is laid out as its label says reads as a tree over known operators. -/
theorem Shaped.reads (h : n.Shaped place) : place.Reads n := by
  induction h with
  | literal => exact .literal trivial
  | grouping _ ih => exact .grouping ih
  | unary hop _ ih => exact .unary hop ih
  | binary _ hop _ ihl ihr => exact .binary ihl hop ihr
  | logical _ hop _ ihl ihr => exact .logical ihl hop ihr
  | ternary _ _ _ ihc ihy ihn => exact .ternary ihc ihy ihn
  | «variable» => exact .variable ⟨trivial, trivial⟩
  | assign _ ih => exact .assign ⟨trivial, trivial⟩ ih
  | call _ _ ih iha => exact .call ih trivial (forall_mem_toExpr iha)
  | get _ ih => exact .get ih trivial
  | set _ _ iho ihe => exact .set iho trivial ihe
  | receiver => exact .receiver ⟨trivial, trivial⟩
  | superMethod => exact .superMethod ⟨trivial, trivial⟩ trivial
  | expr _ ih => exact .expr ih
  | print _ ih => exact .print ih
  | var => exact .var trivial fun _ h => by cases h
  | @varWith name e he ih =>
    obtain ⟨label, offset, parts, form, hpiece⟩ := he.exists_toPiece
    have hread : (tree "vardecl" [.mark name, e]).toStmt = .var name (some e.toExpr) := by
      unfold toStmt toExpr
      rw [toPiece, toPieces, toPieces, toPieces, hpiece]
      rfl
    rw [Place.Reads, hread]
    exact .var trivial fun _ h => Option.some.inj h ▸ ih
  | block _ ih => exact .block (forall_mem_toStmt ih)
  | branch _ _ ihc ihy => exact .branch ihc ihy fun _ h => by cases h
  | @branchElse c y n _ _ hn ihc ihy ihn =>
    obtain ⟨label, offset, parts, form, hpiece⟩ := hn.exists_toPiece
    have hread : (tree "ifstmt" [c, y, n]).toStmt =
        .branch c.toExpr y.toStmt (some n.toStmt) := by
      unfold toStmt toExpr
      rw [toPiece, toPieces, toPieces, toPieces, toPieces, hpiece]
      rfl
    rw [Place.Reads, hread]
    exact .branch ihc ihy fun _ h => Option.some.inj h ▸ ihn
  | loop _ _ ihc ihb => exact .loop ihc ihb
  | @function name params body _ ih =>
    refine ⟨⟨name, Piece.marks (toPieces (params.map .mark)), (toPieces body).map Piece.toStmt⟩, ?_,
      _, _, _, rfl⟩
    exact ⟨⟨trivial, fun _ _ => trivial⟩, forall_mem_toStmt ih⟩
  | declaration _ ih =>
    obtain ⟨decl, hdecl, label, offset, parts, hpiece⟩ := ih
    rw [Place.Reads, toStmt, hpiece]
    exact .function hdecl.toHeaded hdecl.body
  | giveBack => exact .giveBack trivial fun _ h => by cases h
  | @giveBackValue keyword e he ih =>
    obtain ⟨label, offset, parts, form, hpiece⟩ := he.exists_toPiece
    have hread : (tree "returnstmt" [.mark keyword, e]).toStmt =
        .giveBack keyword (some e.toExpr) := by
      unfold toStmt toExpr
      rw [toPiece, toPieces, toPieces, toPieces, hpiece]
      rfl
    rw [Place.Reads, hread]
    exact .giveBack trivial fun _ h => Option.some.inj h ▸ ih
  | classDecl _ ih =>
    have hmethods := forall_mem_functions ih
    exact .classDecl trivial (fun _ h => by cases h) (fun m hm => (hmethods m hm).toHeaded)
      fun m hm => (hmethods m hm).body
  | subclassDecl _ ih =>
    have hmethods := forall_mem_functions ih
    exact .classDecl trivial (fun _ _ => ⟨trivial, trivial⟩)
      (fun m hm => (hmethods m hm).toHeaded) fun m hm => (hmethods m hm).body

end Node

section

variable {v : Vocabulary} {e : Expr} {s : Stmt}

theorem Expr.WellFormed.over (he : e.WellFormed) : e.Over .known :=
  he.readsBack ▸ he.shaped.reads

theorem Stmt.WellFormed.over (hs : s.WellFormed) : s.Over .known :=
  hs.readsBack ▸ hs.shaped.reads

/-! ### Written forms -/

theorem unwritableArg?_eq_none : ∀ {args : List Expr}, (∀ arg ∈ args, arg.unwritable? = none) →
    unwritableArg? args = none
  | [], _ => rfl
  | arg :: args, h => by
    obtain ⟨harg, hargs⟩ := List.forall_mem_cons.mp h
    rw [unwritableArg?, harg, unwritableArg?_eq_none hargs]
    rfl

theorem unwritableIn?_eq_none : ∀ {body : List Stmt}, (∀ s ∈ body, s.unwritable? = none) →
    unwritableIn? body = none
  | [], _ => rfl
  | s :: body, h => by
    obtain ⟨hs, hbody⟩ := List.forall_mem_cons.mp h
    rw [unwritableIn?, hs, unwritableIn?_eq_none hbody]
    rfl

theorem unwritableMethod?_eq_none : ∀ {methods : List Fun},
    (∀ m ∈ methods, ∀ s ∈ m.body, s.unwritable? = none) → unwritableMethod? methods = none
  | [], _ => rfl
  | m :: methods, h => by
    obtain ⟨hm, hmethods⟩ := List.forall_mem_cons.mp h
    rw [unwritableMethod?, unwritableFunction?, unwritableIn?_eq_none hm,
      unwritableMethod?_eq_none hmethods]
    rfl

/-- A tree without stray nodes has a written form. -/
theorem Expr.Over.unwritable?_eq_none (he : e.Over v) : e.unwritable? = none := by
  induction he with
  | literal | «variable» | receiver | superMethod => rfl
  | grouping _ ih | unary _ _ ih | assign _ _ ih | get _ _ ih => exact ih
  | binary _ _ _ ihl ihr | logical _ _ _ ihl ihr | set _ _ _ ihl ihr =>
    rw [unwritable?, ihl, ihr]
    rfl
  | ternary _ _ _ ihc ihy ihn =>
    rw [unwritable?, ihc, ihy, ihn]
    rfl
  | call _ _ _ ih iha =>
    rw [unwritable?, ih, unwritableArg?_eq_none iha]
    rfl

theorem Stmt.Over.unwritable?_eq_none (hs : s.Over v) : s.unwritable? = none := by
  have option {o : Option Expr} (h : ∀ e ∈ o, e.Over v) : o.bind Expr.unwritable? = none := by
    cases o with
    | none => rfl
    | some e => exact (h e rfl).unwritable?_eq_none
  induction hs with
  | expr he | print he => exact he.unwritable?_eq_none
  | var _ he | giveBack _ he => exact option he
  | block _ ih => exact unwritableIn?_eq_none ih
  | function _ _ ih =>
    rw [unwritable?, unwritableFunction?]
    exact unwritableIn?_eq_none ih
  | @branch _ _ no hc _ _ ihy ihn =>
    cases no with
    | none =>
      rw [unwritable?, hc.unwritable?_eq_none, ihy]
      rfl
    | some s =>
      rw [unwritable?, hc.unwritable?_eq_none, ihy, ihn s rfl]
      rfl
  | loop hc _ ih =>
    rw [unwritable?, hc.unwritable?_eq_none, ih]
    rfl
  | classDecl _ _ _ _ ih => exact unwritableMethod?_eq_none ih

theorem Node.Shaped.isExpr {place : Place} {n : Node} (h : n.Shaped place) :
    n.isExpr = match place with
      | .expression => true
      | .statement | .function => false := by
  induction h with
  | declaration _ ih => exact ih
  | _ => rfl

/-- What is laid out as its labels say can be written. -/
theorem Expr.WellFormed.written (he : e.WellFormed) : e.toNode.written = .ok e.render := by
  rw [Node.written, he.shaped.isExpr, he.readsBack]
  simp only [if_true, Piece.writtenExpr, he.over.unwritable?_eq_none]

theorem Stmt.WellFormed.written (hs : s.WellFormed) : s.toNode.written = .ok s.render := by
  rw [Node.written, hs.shaped.isExpr, hs.readsBack]
  simp [Piece.writtenStmt, hs.over.unwritable?_eq_none]

end

end Lox
