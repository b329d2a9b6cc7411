/-
# Reading labelled trees

A labelled tree read back as a program tree. The label says whether a node is
an expression or a statement; what stands in the wrong place, has an unknown
label, or lacks the children of its label, is kept as a stray node with its
written form, if it has one. A list of arguments, parameters, methods or
statements may have any label, since only its place counts.

Key definitions: `Lox.Node.toExpr`, `Lox.Node.toStmt`, `Lox.Node.written`, `Lox.Piece`.
-/
import Lox.Ast.Node
import Lox.Ast.Render

namespace Lox

/-- What a tree reads as by its label. -/
inductive Form where
  | expr (e : Expr)
  | stmt (s : Stmt)
  | function (f : Fun)
  | unknown

/-- What a node reads as on its own. A tree keeps its parts, for a place where only they count. -/
inductive Piece where
  | tree (label : String) (offset : Option Int) (parts : List Piece) (form : Form)
  | mark (m : Mark)
  | literal (value : Literal)
  | absent

namespace Piece

/-- The written form of an expression, or the label inside it that has none. -/
def writtenExpr (e : Expr) : Except String String :=
  match e.unwritable? with
  | some label => .error label
  | none => .ok e.render

/-- The written form of a statement, or the label inside it that has none. -/
def writtenStmt (s : Stmt) : Except String String :=
  match s.unwritable? with
  | some label => .error label
  | none => .ok s.render

/-- The piece as an expression. A lone mark or constant is written as its text. -/
def toExpr : Piece → Expr
  | .tree _ _ _ (.expr e) => e
  | .tree label offset _ (.stmt s) => .stray ⟨label, offset, writtenStmt s⟩
  | .tree label offset _ (.function f) => .stray ⟨label, offset, writtenStmt (.function f)⟩
  | .tree label offset _ .unknown => .stray ⟨label, offset, .error label⟩
  | .mark m => .stray ⟨"", m.offset, .ok m.text⟩
  | .literal value => .stray ⟨"", none, .ok value.display⟩
  | .absent => .stray ⟨"", none, .error ""⟩

/-- The piece as a statement. -/
def toStmt : Piece → Stmt
  | .tree _ _ _ (.stmt s) => s
  | .tree _ _ _ (.function f) => .function f
  | .tree label offset _ (.expr e) => .stray ⟨label, offset, writtenExpr e⟩
  | .tree label offset _ .unknown => .stray ⟨label, offset, .error label⟩
  | .mark m => .stray ⟨"", m.offset, .ok m.text⟩
  | .literal value => .stray ⟨"", none, .ok value.display⟩
  | .absent => .stray ⟨"", none, .error ""⟩

/-- The marks among the pieces. -/
def marks (ps : List Piece) : List Mark :=
  ps.filterMap fun
    | .mark m => some m
    | _ => none

/-- The functions among the pieces. -/
def functions (ps : List Piece) : List Fun :=
  ps.filterMap fun
    | .tree _ _ _ (.function f) => some f
    | _ => none

/-- The pieces of a tree put together as its label says. -/
def form (label : String) (parts : List Piece) : Form :=
  match label, parts with
  | "literal", [.literal value] => .expr (.literal value)
  | "grouping", [inner] => .expr (.grouping inner.toExpr)
  | "unary", [.mark op, operand] => .expr (.unary op operand.toExpr)
  | "binary", [left, .mark op, right] => .expr (.binary left.toExpr op right.toExpr)
  | "logical", [left, .mark op, right] => .expr (.logical left.toExpr op right.toExpr)
  | "ternary", [cond, yes, no] => .expr (.ternary cond.toExpr yes.toExpr no.toExpr)
  | "variable", [.mark name] => .expr (.variable (.free name))
  | "assign", [.mark name, value] => .expr (.assign (.free name) value.toExpr)
  | "call", [callee, .mark paren, .tree _ _ args _] =>
    .expr (.call callee.toExpr paren (args.map toExpr))
  | "get", [object, .mark name] => .expr (.get object.toExpr name)
  | "set", [object, .mark name, value] => .expr (.set object.toExpr name value.toExpr)
  | "this", [.mark keyword] => .expr (.receiver (.free keyword))
  | "super", [.mark keyword, .mark method] => .expr (.superMethod (.free keyword) method)
  | "exprstmt", [value] => .stmt (.expr value.toExpr)
  | "printstmt", [value] => .stmt (.print value.toExpr)
  | "vardecl", [.mark name, .absent] => .stmt (.var name none)
  | "vardecl", [.mark name, initial] => .stmt (.var name (some initial.toExpr))
  | "block", body => .stmt (.block (body.map toStmt))
  | "ifstmt", [cond, yes, .absent] => .stmt (.branch cond.toExpr yes.toStmt none)
  | "ifstmt", [cond, yes, no] => .stmt (.branch cond.toExpr yes.toStmt (some no.toStmt))
  | "whilestmt", [cond, body] => .stmt (.loop cond.toExpr body.toStmt)
  | "fundecl", [.mark name, .tree _ _ params _, .tree _ _ body _] =>
    .function ⟨name, marks params, body.map toStmt⟩
  | "returnstmt", [.mark keyword, .absent] => .stmt (.giveBack keyword none)
  | "returnstmt", [.mark keyword, value] => .stmt (.giveBack keyword (some value.toExpr))
  | "classdecl", [.mark name, .absent, .tree _ _ methods _] =>
    .stmt (.classDecl name none (functions methods))
  | "classdecl", [.mark name, .tree _ _ _ (.expr (.variable superclass)), .tree _ _ methods _] =>
    .stmt (.classDecl name (some superclass) (functions methods))
  | _, _ => .unknown

end Piece

namespace Node

mutual

/-- What a node reads as. -/
def toPiece : Node → Piece
  | .tree label cs =>
    let parts := toPieces cs
    .tree label (firstOffset? cs) parts (Piece.form label parts)
  | .mark m => .mark m
  | .literal value => .literal value
  | .absent => .absent

/-- What the children of a node read as. -/
def toPieces : List Node → List Piece
  | [] => []
  | n :: ns => n.toPiece :: toPieces ns

end

/-- The node as an expression. -/
def toExpr (n : Node) : Expr := n.toPiece.toExpr

/-- The node as a statement. -/
def toStmt (n : Node) : Stmt := n.toPiece.toStmt

/-- The written form of a node, or the label inside it that has none. -/
def written (n : Node) : Except String String :=
  if n.isExpr then Piece.writtenExpr n.toExpr else Piece.writtenStmt n.toStmt

end Node

end Lox
