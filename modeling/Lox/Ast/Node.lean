/-
# Trees of labelled nodes

Every program tree is also a plain tree: nodes with a label and children in a
fixed order, where a child is a node, a mark, a constant, or absent. This view
is what passes to and from a caller, and the order of its marks says where a
tree begins: the offset of a tree is that of the first mark in it that has
one. Constants have no offset.

Key definitions: `Lox.Node`, `Lox.Node.offset?`, `Lox.Expr.toNode`, `Lox.Stmt.toNode`,
`Lox.Expr.offset?`, `Lox.Stmt.offset?`.
-/
import Lox.Ast.Basic

namespace Lox

/-- A labelled tree. -/
inductive Node where
  | tree (label : String) (children : List Node)
  | mark (m : Mark)
  | literal (value : Literal)
  | absent

instance : Inhabited Node := ⟨.absent⟩

namespace Node

/-- The label, if this is a tree. -/
def label? : Node → Option String
  | .tree label _ => some label
  | _ => none

/-- The children; only a tree has any. -/
def children : Node → List Node
  | .tree _ cs => cs
  | _ => []

/-- The labels of expressions. -/
def exprLabels : List String :=
  ["literal", "grouping", "unary", "binary", "logical", "ternary", "variable", "assign", "call",
   "get", "set", "this", "super"]

/-- The label is that of an expression. -/
def isExpr (n : Node) : Bool :=
  n.label?.any (exprLabels.contains ·)

mutual

/-- The offset of the first mark that has one. -/
def offset? : Node → Option Int
  | .tree _ cs => firstOffset? cs
  | .mark m => m.offset
  | .literal _ => none
  | .absent => none

/-- The first offset among nodes. -/
def firstOffset? : List Node → Option Int
  | [] => none
  | n :: ns => n.offset?.or (firstOffset? ns)

end

end Node

/-- The label of an expression. -/
def Expr.label : Expr → String
  | .literal _ => "literal"
  | .grouping _ => "grouping"
  | .unary .. => "unary"
  | .binary .. => "binary"
  | .logical .. => "logical"
  | .ternary .. => "ternary"
  | .variable _ => "variable"
  | .assign .. => "assign"
  | .call .. => "call"
  | .get .. => "get"
  | .set .. => "set"
  | .receiver _ => "this"
  | .superMethod .. => "super"
  | .stray node => node.label

/-- The label of a statement. -/
def Stmt.label : Stmt → String
  | .expr _ => "exprstmt"
  | .print _ => "printstmt"
  | .var .. => "vardecl"
  | .block _ => "block"
  | .branch .. => "ifstmt"
  | .loop .. => "whilestmt"
  | .function _ => "fundecl"
  | .giveBack .. => "returnstmt"
  | .classDecl .. => "classdecl"
  | .stray node => node.label

/-- A stray node keeps its label and its offset. -/
def Stray.toNode (node : Stray) : Node :=
  .tree node.label [.mark ⟨.eof, "", node.offset⟩]

mutual

/-- The labelled tree of an expression. -/
def Expr.toNode : Expr → Node
  | .literal value => .tree "literal" [.literal value]
  | .grouping inner => .tree "grouping" [inner.toNode]
  | .unary op operand => .tree "unary" [.mark op, operand.toNode]
  | .binary left op right => .tree "binary" [left.toNode, .mark op, right.toNode]
  | .logical left op right => .tree "logical" [left.toNode, .mark op, right.toNode]
  | .ternary cond yes no => .tree "ternary" [cond.toNode, yes.toNode, no.toNode]
  | .variable use => .tree "variable" [.mark use.name]
  | .assign use value => .tree "assign" [.mark use.name, value.toNode]
  | .call callee paren args =>
    .tree "call" [callee.toNode, .mark paren, .tree "arguments" (argNodes args)]
  | .get object name => .tree "get" [object.toNode, .mark name]
  | .set object name value => .tree "set" [object.toNode, .mark name, value.toNode]
  | .receiver use => .tree "this" [.mark use.name]
  | .superMethod use method => .tree "super" [.mark use.name, .mark method]
  | .stray node => node.toNode

/-- The labelled trees of arguments. -/
def argNodes : List Expr → List Node
  | [] => []
  | arg :: args => arg.toNode :: argNodes args

end

/-- The labelled tree of an expression that may be absent. -/
def optionNode : Option Expr → Node
  | none => .absent
  | some e => e.toNode

mutual

/-- The labelled tree of a statement. -/
def Stmt.toNode : Stmt → Node
  | .expr value => .tree "exprstmt" [value.toNode]
  | .print value => .tree "printstmt" [value.toNode]
  | .var name initial => .tree "vardecl" [.mark name, optionNode initial]
  | .block body => .tree "block" (bodyNodes body)
  | .branch cond yes none => .tree "ifstmt" [cond.toNode, yes.toNode, .absent]
  | .branch cond yes (some no) => .tree "ifstmt" [cond.toNode, yes.toNode, no.toNode]
  | .loop cond body => .tree "whilestmt" [cond.toNode, body.toNode]
  | .function decl => functionNode decl
  | .giveBack keyword value => .tree "returnstmt" [.mark keyword, optionNode value]
  | .classDecl name superclass methods =>
    .tree "classdecl"
      [.mark name, optionNode (superclass.map Expr.variable), .tree "methods" (methodNodes methods)]
  | .stray node => node.toNode

/-- The labelled trees of the statements of a body. -/
def bodyNodes : List Stmt → List Node
  | [] => []
  | stmt :: body => stmt.toNode :: bodyNodes body

/-- The labelled tree of a function. -/
def functionNode : Fun → Node
  | ⟨name, params, body⟩ =>
    .tree "fundecl" [.mark name, .tree "params" (params.map .mark), .tree "body" (bodyNodes body)]

/-- The labelled trees of methods. -/
def methodNodes : List Fun → List Node
  | [] => []
  | method :: methods => functionNode method :: methodNodes methods

end

/-- The offset of the first positioned mark of an expression. -/
def Expr.offset? (e : Expr) : Option Int := e.toNode.offset?

/-- The offset of the first positioned mark of a statement. -/
def Stmt.offset? (s : Stmt) : Option Int := s.toNode.offset?

end Lox
