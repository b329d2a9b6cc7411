/-
# Trees spelled otherwise

A tree keeps of a token its kind, its text and where it stands. A respelling
gives every token another text and another offset, by where it stands and what
it says. It changes no kind of token, so no shape and no size of a tree. The
respellings that only move tokens keep all texts, and leave the marks without
an offset without one.

Key definitions: `Lox.Respelling`, `Lox.Respelling.moving`,
`Lox.Respelling.atStart`, `Lox.Token.respell`, `Lox.Expr.respell`,
`Lox.Stmt.respell`.
Key theorems: `Lox.Stmt.respell_respell`, `Lox.Stmt.offset?_respell`, `Lox.Stmt.fits_respell`.
-/
import Lox.Ast.Depth
import Lox.Evaluation

namespace Lox

/-- Other texts for tokens, by their offsets and texts, and other places; `offset` is where marks come
to be, those without an offset as well. -/
structure Respelling where
  text : Option Int → String → String
  place : Int → Int
  offset : Option Int → Option Int
  offset_some : ∀ o, offset (some o) = some (place o)

namespace Respelling

attribute [simp] offset_some

/-- The same texts elsewhere. -/
def moving (place : Int → Int) : Respelling := ⟨fun _ text => text, place, Option.map place, fun _ => rfl⟩

/-- The same texts, and all marks at the start. -/
def atStart : Respelling := ⟨fun _ text => text, fun _ => 0, fun _ => some 0, fun _ => rfl⟩

/-- One respelling after the other. -/
def andThen (r r' : Respelling) : Respelling where
  text offset text := r'.text (r.offset offset) (r.text offset text)
  place := r'.place ∘ r.place
  offset := r'.offset ∘ r.offset
  offset_some o := by simp

theorem moving_andThen_moving (place place' : Int → Int) :
    (moving place).andThen (moving place') = moving (place' ∘ place) := by
  simp [andThen, moving, Function.comp_def]

theorem offset_eq_map {r : Respelling} (hr : r.offset none = none) (o : Option Int) :
    r.offset o = o.map r.place := by
  cases o with
  | none => exact hr
  | some o => exact r.offset_some o

end Respelling

/-- The token with another text and offset. -/
def Token.respell (r : Respelling) (t : Token) : Token :=
  { t with lexeme := r.text (some t.offset) t.lexeme, offset := r.place t.offset }

/-- The mark with another text and offset. -/
def Mark.respell (r : Respelling) (m : Mark) : Mark :=
  { m with text := r.text m.offset m.text, offset := r.offset m.offset }

def NameUse.respell (r : Respelling) (use : NameUse) : NameUse :=
  { use with name := use.name.respell r }

def Stray.respell (r : Respelling) (node : Stray) : Stray :=
  { node with offset := r.offset node.offset }

mutual

/-- The expression spelled otherwise. -/
def Expr.respell (r : Respelling) : Expr → Expr
  | .literal value => .literal value
  | .grouping inner => .grouping (inner.respell r)
  | .unary op operand => .unary (op.respell r) (operand.respell r)
  | .binary left op right => .binary (left.respell r) (op.respell r) (right.respell r)
  | .logical left op right => .logical (left.respell r) (op.respell r) (right.respell r)
  | .ternary cond yes no => .ternary (cond.respell r) (yes.respell r) (no.respell r)
  | .variable use => .variable (use.respell r)
  | .assign use value => .assign (use.respell r) (value.respell r)
  | .call callee paren args => .call (callee.respell r) (paren.respell r) (argsRespell r args)
  | .get object name => .get (object.respell r) (name.respell r)
  | .set object name value => .set (object.respell r) (name.respell r) (value.respell r)
  | .receiver use => .receiver (use.respell r)
  | .superMethod use method => .superMethod (use.respell r) (method.respell r)
  | .stray node => .stray (node.respell r)

/-- The arguments spelled otherwise. -/
def argsRespell (r : Respelling) : List Expr → List Expr
  | [] => []
  | arg :: args => arg.respell r :: argsRespell r args

end

mutual

/-- The statement spelled otherwise. -/
def Stmt.respell (r : Respelling) : Stmt → Stmt
  | .expr value => .expr (value.respell r)
  | .print value => .print (value.respell r)
  | .var name initial => .var (name.respell r) (initial.map (Expr.respell r))
  | .block body => .block (bodyRespell r body)
  | .branch cond yes none => .branch (cond.respell r) (yes.respell r) none
  | .branch cond yes (some no) =>
    .branch (cond.respell r) (yes.respell r) (some (no.respell r))
  | .loop cond body => .loop (cond.respell r) (body.respell r)
  | .function decl => .function (functionRespell r decl)
  | .giveBack keyword value => .giveBack (keyword.respell r) (value.map (Expr.respell r))
  | .classDecl name superclass methods =>
    .classDecl (name.respell r) (superclass.map (NameUse.respell r)) (methodsRespell r methods)
  | .stray node => .stray (node.respell r)

/-- The statements of a body spelled otherwise. -/
def bodyRespell (r : Respelling) : List Stmt → List Stmt
  | [] => []
  | stmt :: body => stmt.respell r :: bodyRespell r body

/-- The function spelled otherwise. -/
def functionRespell (r : Respelling) : Fun → Fun
  | ⟨name, params, body⟩ => ⟨name.respell r, params.map (Mark.respell r), bodyRespell r body⟩

/-- The methods spelled otherwise. -/
def methodsRespell (r : Respelling) : List Fun → List Fun
  | [] => []
  | method :: methods => functionRespell r method :: methodsRespell r methods

end

variable (r r' : Respelling)

@[simp] theorem Token.respell_kind (t : Token) : (t.respell r).kind = t.kind := rfl

@[simp] theorem Token.respell_literal (t : Token) : (t.respell r).literal = t.literal := rfl

@[simp] theorem Token.respell_mark (t : Token) : (t.respell r).mark = t.mark.respell r := by
  simp [Token.mark, Token.respell, Mark.respell]

@[simp] theorem Mark.respell_text (m : Mark) :
    (m.respell r).text = r.text m.offset m.text := rfl

@[simp] theorem Mark.respell_kind (m : Mark) : (m.respell r).kind = m.kind := rfl

@[simp] theorem Mark.respell_offset (m : Mark) : (m.respell r).offset = r.offset m.offset := rfl

@[simp] theorem NameUse.respell_name (use : NameUse) :
    (use.respell r).name = use.name.respell r := rfl

@[simp] theorem NameUse.respell_free (m : Mark) : (free m).respell r = free (m.respell r) := rfl

@[simp] theorem NameUse.respell_hops (use : NameUse) : (use.respell r).hops = use.hops := rfl

@[simp] theorem functionRespell_name (decl : Fun) :
    (functionRespell r decl).name = decl.name.respell r := by
  cases decl
  rfl

@[simp] theorem functionRespell_params (decl : Fun) :
    (functionRespell r decl).params = decl.params.map (Mark.respell r) := by
  cases decl
  rfl

@[simp] theorem functionRespell_body (decl : Fun) :
    (functionRespell r decl).body = bodyRespell r decl.body := by
  cases decl
  rfl

/-! ### One respelling after another -/

@[simp] theorem Mark.respell_respell (m : Mark) :
    (m.respell r).respell r' = m.respell (r.andThen r') := by
  simp [respell, Respelling.andThen]

@[simp] theorem NameUse.respell_respell (use : NameUse) :
    (use.respell r).respell r' = use.respell (r.andThen r') := by
  simp [respell]

mutual

@[simp] theorem Expr.respell_respell : ∀ e : Expr, (e.respell r).respell r' = e.respell (r.andThen r')
  | .literal _ | .variable _ | .receiver _ | .superMethod .. => by simp [Expr.respell]
  | .grouping e | .unary _ e | .assign _ e | .get e _ => by simp [Expr.respell, e.respell_respell]
  | .binary l _ r | .logical l _ r => by
    simp [Expr.respell, l.respell_respell, r.respell_respell]
  | .ternary cond yes no => by
    simp [Expr.respell, cond.respell_respell, yes.respell_respell, no.respell_respell]
  | .call callee _ args => by
    simp [Expr.respell, callee.respell_respell, argsRespell_argsRespell args]
  | .set object _ value => by
    simp [Expr.respell, object.respell_respell, value.respell_respell]
  | .stray node => by simp [Expr.respell, Stray.respell, Respelling.andThen]

theorem argsRespell_argsRespell : ∀ args : List Expr,
    argsRespell r' (argsRespell r args) = argsRespell (r.andThen r') args
  | [] => rfl
  | e :: args => by
    simp [argsRespell, e.respell_respell, argsRespell_argsRespell args]

end

theorem optionRespell_optionRespell (e : Option Expr) :
    (e.map (Expr.respell r)).map (Expr.respell r') = e.map (Expr.respell (r.andThen r')) := by
  cases e <;> simp

mutual

@[simp] theorem Stmt.respell_respell : ∀ s : Stmt, (s.respell r).respell r' = s.respell (r.andThen r')
  | .expr _ | .print _ => by simp [Stmt.respell]
  | .var _ initial => by simp [Stmt.respell, optionRespell_optionRespell r r' initial]
  | .giveBack _ value => by simp [Stmt.respell, optionRespell_optionRespell r r' value]
  | .block body => by simp [Stmt.respell, bodyRespell_bodyRespell body]
  | .branch _ yes none => by simp [Stmt.respell, yes.respell_respell]
  | .branch _ yes (some no) => by simp [Stmt.respell, yes.respell_respell, no.respell_respell]
  | .loop _ body => by simp [Stmt.respell, body.respell_respell]
  | .function decl => by simp [Stmt.respell, functionRespell_functionRespell decl]
  | .classDecl _ superclass methods => by
    cases superclass <;> simp [Stmt.respell, methodsRespell_methodsRespell methods]
  | .stray node => by simp [Stmt.respell, Stray.respell, Respelling.andThen]

theorem bodyRespell_bodyRespell : ∀ body : List Stmt,
    bodyRespell r' (bodyRespell r body) = bodyRespell (r.andThen r') body
  | [] => rfl
  | s :: body => by simp [bodyRespell, s.respell_respell, bodyRespell_bodyRespell body]

theorem functionRespell_functionRespell : ∀ decl : Fun,
    functionRespell r' (functionRespell r decl) = functionRespell (r.andThen r') decl
  | ⟨name, params, body⟩ => by
    have hparams : Mark.respell r' ∘ Mark.respell r = Mark.respell (r.andThen r') := by
      funext m
      simp
    simp [functionRespell, bodyRespell_bodyRespell body, hparams]

theorem methodsRespell_methodsRespell : ∀ methods : List Fun,
    methodsRespell r' (methodsRespell r methods) = methodsRespell (r.andThen r') methods
  | [] => rfl
  | m :: ms => by
    simp [methodsRespell, functionRespell_functionRespell m, methodsRespell_methodsRespell ms]

end

/-! ### Offsets move with the marks -/

section

variable {r}

mutual

theorem Expr.node_respell (hr : r.offset none = none) : ∀ e : Expr,
    (e.respell r).toNode.offset? = e.toNode.offset?.map r.place
  | .literal _ | .variable _ | .receiver _ | .superMethod .. => by
    simp [Expr.respell, Expr.toNode, Node.offset?, Node.firstOffset?, Option.map_or,
      Respelling.offset_eq_map hr]
  | .grouping e | .unary _ e | .assign _ e | .get e _ => by
    simp [Expr.respell, Expr.toNode, Node.offset?, Node.firstOffset?, Option.map_or,
      Respelling.offset_eq_map hr, e.node_respell hr]
  | .binary l _ r | .logical l _ r => by
    simp [Expr.respell, Expr.toNode, Node.offset?, Node.firstOffset?, Option.map_or,
      Respelling.offset_eq_map hr, l.node_respell hr, r.node_respell hr]
  | .ternary cond yes no => by
    simp [Expr.respell, Expr.toNode, Node.offset?, Node.firstOffset?, Option.map_or,
      cond.node_respell hr, yes.node_respell hr, no.node_respell hr]
  | .call callee _ args => by
    simp [Expr.respell, Expr.toNode, Node.offset?, Node.firstOffset?, Option.map_or,
      Respelling.offset_eq_map hr, callee.node_respell hr, argNodes_respell hr args]
  | .set object _ value => by
    simp [Expr.respell, Expr.toNode, Node.offset?, Node.firstOffset?, Option.map_or,
      Respelling.offset_eq_map hr, object.node_respell hr, value.node_respell hr]
  | .stray node => by
    simp [Expr.respell, Stray.respell, Expr.toNode, Stray.toNode, Node.offset?, Node.firstOffset?,
      Respelling.offset_eq_map hr]

theorem argNodes_respell (hr : r.offset none = none) : ∀ args : List Expr,
    Node.firstOffset? (argNodes (argsRespell r args)) = (Node.firstOffset? (argNodes args)).map r.place
  | [] => rfl
  | e :: args => by
    simp [argsRespell, argNodes, Node.firstOffset?, Option.map_or, e.node_respell hr,
      argNodes_respell hr args]

end

theorem Expr.offset?_respell (hr : r.offset none = none) (e : Expr) :
    (e.respell r).offset? = e.offset?.map r.place :=
  e.node_respell hr

theorem optionNode_respell (hr : r.offset none = none) (e : Option Expr) :
    (optionNode (e.map (Expr.respell r))).offset? = (optionNode e).offset?.map r.place := by
  cases e with
  | none => rfl
  | some e => exact e.node_respell hr

theorem markNodes_respell (hr : r.offset none = none) (params : List Mark) :
    Node.firstOffset? ((params.map (Mark.respell r)).map .mark) =
      (Node.firstOffset? (params.map .mark)).map r.place := by
  induction params with
  | nil => rfl
  | cons m params ih =>
    rw [List.map_map] at ih
    simp [Node.firstOffset?, Node.offset?, Option.map_or, Respelling.offset_eq_map hr, ih]

mutual

theorem Stmt.node_respell (hr : r.offset none = none) : ∀ s : Stmt,
    (s.respell r).toNode.offset? = s.toNode.offset?.map r.place
  | .expr e | .print e => by
    simp [Stmt.respell, Stmt.toNode, Node.offset?, Node.firstOffset?, e.node_respell hr]
  | .var _ initial => by
    simp [Stmt.respell, Stmt.toNode, Node.offset?, Node.firstOffset?, Option.map_or,
      Respelling.offset_eq_map hr, optionNode_respell hr initial]
  | .giveBack _ value => by
    simp [Stmt.respell, Stmt.toNode, Node.offset?, Node.firstOffset?, Option.map_or,
      Respelling.offset_eq_map hr, optionNode_respell hr value]
  | .block body => by simp [Stmt.respell, Stmt.toNode, Node.offset?, bodyNodes_respell hr body]
  | .branch cond yes none => by
    simp [Stmt.respell, Stmt.toNode, Node.offset?, Node.firstOffset?, Option.map_or,
      cond.node_respell hr, yes.node_respell hr]
  | .branch cond yes (some no) => by
    simp [Stmt.respell, Stmt.toNode, Node.offset?, Node.firstOffset?, Option.map_or,
      cond.node_respell hr, yes.node_respell hr, no.node_respell hr]
  | .loop cond body => by
    simp [Stmt.respell, Stmt.toNode, Node.offset?, Node.firstOffset?, Option.map_or,
      cond.node_respell hr, body.node_respell hr]
  | .function decl => by simp [Stmt.respell, Stmt.toNode, functionNode_respell hr decl]
  | .classDecl _ superclass methods => by
    cases superclass <;>
      simp [Stmt.respell, Stmt.toNode, Node.offset?, Node.firstOffset?, Option.map_or,
        Respelling.offset_eq_map hr, optionNode, Expr.toNode, methodNodes_respell hr methods]
  | .stray node => by
    simp [Stmt.respell, Stray.respell, Stmt.toNode, Stray.toNode, Node.offset?, Node.firstOffset?,
      Respelling.offset_eq_map hr]

theorem bodyNodes_respell (hr : r.offset none = none) : ∀ body : List Stmt,
    Node.firstOffset? (bodyNodes (bodyRespell r body)) =
      (Node.firstOffset? (bodyNodes body)).map r.place
  | [] => rfl
  | s :: body => by
    simp [bodyRespell, bodyNodes, Node.firstOffset?, Option.map_or, s.node_respell hr,
      bodyNodes_respell hr body]

theorem functionNode_respell (hr : r.offset none = none) : ∀ decl : Fun,
    (functionNode (functionRespell r decl)).offset? = (functionNode decl).offset?.map r.place
  | ⟨_, params, body⟩ => by
    have hparams := markNodes_respell hr params
    rw [List.map_map] at hparams
    simp [functionRespell, functionNode, Node.offset?, Node.firstOffset?, Option.map_or,
      Respelling.offset_eq_map hr, hparams, bodyNodes_respell hr body]

theorem methodNodes_respell (hr : r.offset none = none) : ∀ methods : List Fun,
    Node.firstOffset? (methodNodes (methodsRespell r methods)) =
      (Node.firstOffset? (methodNodes methods)).map r.place
  | [] => rfl
  | m :: ms => by
    simp [methodsRespell, methodNodes, Node.firstOffset?, Option.map_or, functionNode_respell hr m,
      methodNodes_respell hr ms]

end

theorem Stmt.offset?_respell (hr : r.offset none = none) (s : Stmt) :
    (s.respell r).offset? = s.offset?.map r.place :=
  s.node_respell hr

end

/-! ### Sizes stay -/

mutual

theorem Expr.fits_respell : ∀ (e : Expr) (depth : Nat), (e.respell r).fits depth = e.fits depth
  | e, 0 => by cases e <;> rfl
  | .literal _, _ + 1 | .variable _, _ + 1 | .receiver _, _ + 1 | .superMethod .., _ + 1
  | .stray _, _ + 1 => rfl
  | .grouping e, _ + 1 | .unary _ e, _ + 1 | .assign _ e, _ + 1 | .get e _, _ + 1 => by
    simp [Expr.respell, Expr.fits, e.fits_respell]
  | .binary l _ r, _ + 1 | .logical l _ r, _ + 1 => by
    simp [Expr.respell, Expr.fits, l.fits_respell, r.fits_respell]
  | .ternary cond yes no, _ + 1 => by
    simp [Expr.respell, Expr.fits, cond.fits_respell, yes.fits_respell, no.fits_respell]
  | .call callee _ args, _ + 1 => by
    simp [Expr.respell, Expr.fits, callee.fits_respell, argsFit_respell args]
  | .set object _ value, _ + 1 => by
    simp [Expr.respell, Expr.fits, object.fits_respell, value.fits_respell]

theorem argsFit_respell : ∀ (args : List Expr) (depth : Nat),
    argsFit (argsRespell r args) depth = argsFit args depth
  | [], _ => rfl
  | e :: args, depth => by
    simp [argsRespell, argsFit, e.fits_respell, argsFit_respell args]

end

theorem optionFits_respell (e : Option Expr) (depth : Nat) :
    optionFits (e.map (Expr.respell r)) depth = optionFits e depth := by
  cases e with
  | none => rfl
  | some e => exact e.fits_respell r depth

mutual

theorem Stmt.fits_respell : ∀ (s : Stmt) (depth : Nat), (s.respell r).fits depth = s.fits depth
  | .branch _ _ none, 0 | .branch _ _ (some _), 0 => rfl
  | .expr _, 0 | .print _, 0 | .var .., 0 | .block _, 0 | .loop .., 0 | .function _, 0
  | .giveBack .., 0 | .classDecl .., 0 | .stray _, 0 => rfl
  | .expr e, _ + 1 | .print e, _ + 1 => e.fits_respell r _
  | .var _ initial, _ + 1 => optionFits_respell r initial _
  | .giveBack _ value, _ + 1 => optionFits_respell r value _
  | .block body, _ + 1 => bodyFits_respell body _
  | .branch cond yes none, _ + 1 => by
    simp [Stmt.respell, Stmt.fits, cond.fits_respell, yes.fits_respell]
  | .branch cond yes (some no), _ + 1 => by
    simp [Stmt.respell, Stmt.fits, cond.fits_respell, yes.fits_respell, no.fits_respell]
  | .loop cond body, _ + 1 => by
    simp [Stmt.respell, Stmt.fits, cond.fits_respell, body.fits_respell]
  | .function decl, _ + 1 => functionFits_respell decl _
  | .classDecl _ _ methods, _ + 1 => methodsFit_respell methods _
  | .stray _, _ + 1 => rfl

theorem bodyFits_respell : ∀ (body : List Stmt) (depth : Nat),
    bodyFits (bodyRespell r body) depth = bodyFits body depth
  | [], _ => rfl
  | s :: body, depth => by
    simp [bodyRespell, bodyFits, s.fits_respell, bodyFits_respell body]

theorem functionFits_respell : ∀ (decl : Fun) (depth : Nat),
    functionFits (functionRespell r decl) depth = functionFits decl depth
  | ⟨_, _, body⟩, depth => bodyFits_respell body depth

theorem methodsFit_respell : ∀ (methods : List Fun) (depth : Nat),
    methodsFit (methodsRespell r methods) depth = methodsFit methods depth
  | [], _ => rfl
  | m :: ms, depth => by
    simp [methodsRespell, methodsFit, functionFits_respell m, methodsFit_respell ms]

end

theorem bodyFits_append (body more : List Stmt) (depth : Nat) :
    bodyFits (body ++ more) depth = (bodyFits body depth && bodyFits more depth) := by
  induction body with
  | nil => rfl
  | cons s body ih => simp [bodyFits, ih, Bool.and_assoc]

theorem Expr.stepsIn_respell (e : Expr) : (e.respell r).stepsIn = e.stepsIn := by
  cases e <;> rfl

theorem Stmt.stepsIn_respell (s : Stmt) : (s.respell r).stepsIn = s.stepsIn := by
  cases s with
  | branch _ _ no => cases no <;> rfl
  | _ => rfl

end Lox
