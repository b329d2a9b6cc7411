/-
# What is checked, and when

Most nodes evaluate some expressions first, their operands, and check then
whether they can go on with these values. What comes first, and the mark that
an error of the check stands at, depend on the form of the node only
(`Lox.Site.operands`, `Lox.Site.point?`). What is refused is told by one rule
for each check (`Lox.Rejects`), in the store behind the operands.

A node is its operands, and what comes behind them
(`Lox.evalExpr_eq_operands`, `Lox.execStmt_eq_operands`). If the check rejects
the values, the node fails there and then, in the store that the operands
left.

Key definitions: `Lox.Site.operands`, `Lox.Site.point?`, `Lox.Rejects`, `Lox.Expr.finish`,
`Lox.bindClass`.
Key theorems: `Lox.evalExpr_eq_operands`, `Lox.execStmt_eq_operands`, `Lox.Rejects.run`,
`Lox.bindClass_binds`.
-/
import Lox.Proofs.Dispatch.Tracing

namespace Lox

open Procedure

/-- What an expression evaluates before its own check, in this order. The value that a field is set to
comes behind the check. -/
def Expr.operands : Expr → List Expr
  | .unary _ operand => [operand]
  | .binary left _ right => [left, right]
  | .assign _ value => [value]
  | .call callee _ args => callee :: args
  | .get object _ | .set object _ _ => [object]
  | .literal _ | .grouping _ | .logical .. | .ternary .. | .variable _ | .receiver _
  | .superMethod .. | .stray _ => []

/-- What a statement evaluates before its own check. Only a class with a superclass has one. -/
def Stmt.operands : Stmt → List Expr
  | .classDecl _ (some use) _ => [.variable use]
  | .expr _ | .print _ | .var .. | .block _ | .branch .. | .loop .. | .function _ | .giveBack ..
  | .classDecl _ none _ | .stray _ => []

/-- What is evaluated before the own check of the node. -/
def Site.operands : Site → List Expr
  | .expr e => e.operands
  | .stmt s => s.operands

/-- The mark that an error of an expression's own check stands at. -/
def Expr.point? : Expr → Option Mark
  | .unary op _ | .binary _ op _ => some op
  | .variable use | .receiver use | .assign use _ => some use.name
  | .call _ paren _ => some paren
  | .get _ name | .set _ name _ => some name
  | .superMethod _ method => some method
  | .literal _ | .grouping _ | .logical .. | .ternary .. | .stray _ => none

/-- The mark that an error of a statement's own check stands at. -/
def Stmt.point? : Stmt → Option Mark
  | .classDecl _ (some use) _ => some use.name
  | .expr _ | .print _ | .var .. | .block _ | .branch .. | .loop .. | .function _ | .giveBack ..
  | .classDecl _ none _ | .stray _ => none

/-- The mark that an error of the node's own check stands at: the operator, the closing parenthesis of
a call, the name of a property, of a method behind `super`, of a superclass, or of a variable. -/
def Site.point? : Site → Option Mark
  | .expr e => e.point?
  | .stmt s => s.point?

/-- The own check of a node rejects the values of its operands, in the store and in a frame. -/
inductive Rejects (s : Store) (f : FrameId) : Site → List Value → Cause → Prop
  | operandNotNumber {op e v} : op.kind = .minus → (∀ x, v ≠ .number x) →
    Rejects s f (.expr (.unary op e)) [v] .operandNotNumber
  | unsupportedUnary {op e v} : op.kind ≠ .minus → op.kind ≠ .bang →
    Rejects s f (.expr (.unary op e)) [v] (.unsupportedUnary op.text)
  | operandsNotAddable {l op r v w} : op.kind = .plus → (∀ x y, v = .number x → w ≠ .number y) →
    (∀ a, v ≠ .string a ∧ w ≠ .string a) →
    Rejects s f (.expr (.binary l op r)) [v, w] .operandsNotAddable
  | operandsNotNumbers {l op r v w g} : arithmetic? op.kind = some g →
    (∀ x y, v = .number x → w ≠ .number y) →
    Rejects s f (.expr (.binary l op r)) [v, w] .operandsNotNumbers
  | unsupportedOperator {l op r v w} : arithmetic? op.kind = none → op.kind ≠ .plus →
    op.kind ≠ .equalEqual → op.kind ≠ .bangEqual →
    Rejects s f (.expr (.binary l op r)) [v, w] (.unsupportedOperator op.text)
  | undefinedVariable {use} : use.hops = none → s.get? Store.globals use.name.text = none →
    Rejects s f (.expr (.variable use)) [] (.undefinedVariable use.name.text)
  | undefinedReceiver {use} : use.hops = none → s.get? Store.globals use.name.text = none →
    Rejects s f (.expr (.receiver use)) [] (.undefinedVariable use.name.text)
  | undefinedTarget {use e v} : use.hops = none → s.holder? use.name.text Store.globals = none →
    Rejects s f (.expr (.assign use e)) [v] (.undefinedVariable use.name.text)
  | notCallable {callee paren args v vs} : s.arity? v = none →
    Rejects s f (.expr (.call callee paren args)) (v :: vs) .notCallable
  | wrongArity {callee paren args v vs n} : s.arity? v = some n → vs.length ≠ n →
    Rejects s f (.expr (.call callee paren args)) (v :: vs) (.wrongArity n vs.length)
  | noProperties {object name v} : (∀ i, v ≠ .instanceRef i) →
    Rejects s f (.expr (.get object name)) [v] .noProperties
  | undefinedProperty {object name i} : (s.instanceObject i).fields.get? name.text = none →
    s.findMethod? (s.instanceObject i).cls name.text = none →
    Rejects s f (.expr (.get object name)) [.instanceRef i] (.undefinedProperty name.text)
  | noFields {object name value v} : (∀ i, v ≠ .instanceRef i) →
    Rejects s f (.expr (.set object name value)) [v] .noFields
  | noSuperMethod {use method superclass receiver} {d : Nat} : use.hops = some d →
    Run.getAt f d "super" s = (.ok superclass, s) →
    Run.getAt f ((d : Int) - 1) "this" s = (.ok receiver, s) →
    s.methodOf? superclass method.text = none →
    Rejects s f (.expr (.superMethod use method)) [] (.undefinedProperty method.text)
  | superclassNotClass {name use methods v} : (∀ c, v ≠ .classRef c) →
    Rejects s f (.stmt (.classDecl name (some use) methods)) [v] .superclassNotClass

/-! ### A node is its operands and what comes behind them -/

/-- What an expression does with the values of its operands; all that it does, if it has none. -/
def Expr.finish (inner : Evaluator) (e : Expr) (f : FrameId) (vs : List Value) : Run Value :=
  match e, vs with
  | .unary op _, [v] => unaryResult op v
  | .binary _ op _, [v, w] => binaryResult op v w
  | .assign use _, [v] => do
    inner.access.store use v f
    return v
  | .call _ paren _, v :: vs => callWith inner v vs paren.offset
  | .get _ name, [v] => getProperty v name
  | .set _ name value, [.instanceRef id] => do
    let v ← inner.expr value f
    setProperty id name v
    return v
  | .set _ name _, [_] => Run.fail .noFields name.offset
  | e, _ => evalExpr inner e f

/-- Make a class whose superclass is known, and bind its name. -/
def bindClass (name : Mark) (superclass : Option ClassId) (methods : List Fun) (f : FrameId) :
    Run Unit := do
  Run.define f name.text .nil
  let inside ← methodFrame superclass f
  let made ← makeMethods inside methods .empty
  let c ← Run.newClass ⟨name.text, superclass, made⟩
  Run.assign f name (.classRef c)

/-- What a statement does with the value of its superclass; all that it does, if it has none. -/
def Stmt.finish (inner : Evaluator) (st : Stmt) (f : FrameId) (vs : List Value) : Run Flow :=
  match st, vs with
  | .classDecl name (some _) methods, [.classRef c] => do
    bindClass name (some c) methods f
    return .next
  | .classDecl _ (some use) _, [_] => Run.fail .superclassNotClass use.name.offset
  | st, _ => execStmt inner st f

section

variable (inner : Evaluator) (f : FrameId)

/-- An expression is its operands, and then the rest. -/
theorem evalExpr_eq_operands (e : Expr) :
    evalExpr inner e f = evalArgs inner e.operands f >>= e.finish inner f := by
  cases e with
  | unary _ _ | binary _ _ _ | assign _ _ | get _ _ =>
    simp only [evalExpr, Expr.operands, evalArgs, bind_assoc, pure_bind, Expr.finish]
  | call callee paren args =>
    simp only [evalExpr, Expr.operands, evalArgs, bind_assoc, pure_bind, Expr.finish]
  | set object name value =>
    simp only [evalExpr, Expr.operands, evalArgs, bind_assoc, pure_bind]
    refine bind_congr fun v => ?_
    cases v <;> rfl
  | literal _ | grouping _ | logical _ _ _ | ternary _ _ _ | «variable» _ | receiver _
  | superMethod _ _ | stray _ => rfl

/-- A statement is its operands, and then the rest. -/
theorem execStmt_eq_operands (st : Stmt) :
    execStmt inner st f = evalArgs inner st.operands f >>= st.finish inner f := by
  cases st with
  | classDecl name superclass methods =>
    cases superclass with
    | none => rfl
    | some use =>
      simp only [execStmt, execClass, evalSuperclass, Stmt.operands, evalArgs, bind_assoc, pure_bind,
        map_eq_pure_bind]
      refine bind_congr fun v => ?_
      cases v <;> first | rfl | (simp only [pure_bind, Stmt.finish, bindClass, bind_assoc])
  | _ => rfl

/-- As many values as there are arguments. -/
theorem length_of_evalArgs {inner : Evaluator} {f : FrameId} : ∀ {es : List Expr} {s s' : Store}
    {vs : List Value}, evalArgs inner es f s = (.ok vs, s') → vs.length = es.length
  | [], _, _, _, h => by
    cases h
    rfl
  | e :: es, s, s', vs, h => by
    obtain ⟨v, s₁, _, h⟩ := exists_of_bind h
    obtain ⟨ws, s₂, hargs, h⟩ := exists_of_bind h
    cases h
    simp [length_of_evalArgs hargs]

end

/-- Evaluate a node for what it does. -/
def Site.run (inner : Evaluator) : Site → FrameId → Run Unit
  | .expr e, f => discard (evalExpr inner e f)
  | .stmt st, f => discard (execStmt inner st f)

/-! ### What is refused fails, and writes nothing -/

section

variable {inner : Evaluator} {f : FrameId} {s s' : Store} {vs : List Value} {cause : Cause} {mark : Mark}

theorem get_of_undefined {name : Mark} (h : s.get? f name.text = none) :
    Run.get f name s = (.error (.error ⟨.undefinedVariable name.text, name.offset⟩), s) := by
  have hread : Procedure.read (ε := Fault) (fun s : Store => s.get? f name.text) s =
      (.ok (s.get? f name.text), s) := rfl
  rw [Run.get, bind_ok hread, h]
  rfl

theorem assign_of_undefined {name : Mark} {v : Value} (h : s.holder? name.text f = none) :
    Run.assign f name v s = (.error (.error ⟨.undefinedVariable name.text, name.offset⟩), s) := by
  have hread : Procedure.read (ε := Fault) (fun s : Store => s.holder? name.text f) s =
      (.ok (s.holder? name.text f), s) := rfl
  rw [Run.assign, bind_ok hread, h]
  rfl

theorem unaryResult_of_not_number {op : Mark} {v : Value} (hop : op.kind = .minus)
    (hv : ∀ x, v ≠ .number x) :
    unaryResult op v s = (.error (.error ⟨.operandNotNumber, op.offset⟩), s) := by
  unfold unaryResult
  rw [hop]
  cases v with
  | const c =>
    cases c with
    | number x => exact absurd rfl (hv x)
    | nil | bool _ | string _ => rfl
  | _ => rfl

theorem unaryResult_of_unsupported {op : Mark} {v : Value} (hminus : op.kind ≠ .minus)
    (hbang : op.kind ≠ .bang) :
    unaryResult op v s = (.error (.error ⟨.unsupportedUnary op.text, op.offset⟩), s) := by
  unfold unaryResult
  cases hkind : op.kind <;> first | exact absurd hkind hminus | exact absurd hkind hbang | rfl

theorem joinOrAdd_of_not_addable {op : Mark} {v w : Value}
    (hnumbers : ∀ x y, v = .number x → w ≠ .number y)
    (hstrings : ∀ a, v ≠ .string a ∧ w ≠ .string a) :
    joinOrAdd op v w s = (.error (.error ⟨.operandsNotAddable, op.offset⟩), s) := by
  unfold joinOrAdd
  split
  · exact absurd rfl (hnumbers _ _ rfl)
  · exact absurd rfl (hstrings _).1
  · exact absurd rfl (hstrings _).2
  · rfl

/-- A plus joins or adds. -/
theorem binaryResult_of_plus {op : Mark} (hop : op.kind = .plus) (v w : Value) :
    binaryResult op v w = joinOrAdd op v w := by
  unfold binaryResult
  rw [hop]

/-- Arithmetic takes numbers only. -/
theorem binaryResult_of_arithmetic {op : Mark} {g : Double → Double → Value}
    (hop : arithmetic? op.kind = some g) (v w : Value) :
    binaryResult op v w = match v, w with
      | .const (.number x), .const (.number y) => pure (g x y)
      | _, _ => Run.fail .operandsNotNumbers op.offset := by
  unfold binaryResult
  cases hkind : op.kind <;> rw [hkind] at hop <;> cases hop <;> rfl

theorem binaryResult_of_not_numbers {op : Mark} {v w : Value} {g : Double → Double → Value}
    (hop : arithmetic? op.kind = some g) (hnumbers : ∀ x y, v = .number x → w ≠ .number y) :
    binaryResult op v w s = (.error (.error ⟨.operandsNotNumbers, op.offset⟩), s) := by
  rw [binaryResult_of_arithmetic hop]
  split
  · exact absurd rfl (hnumbers _ _ rfl)
  · rfl

theorem binaryResult_of_unsupported {op : Mark} {v w : Value} (hop : arithmetic? op.kind = none)
    (hplus : op.kind ≠ .plus) (heq : op.kind ≠ .equalEqual) (hne : op.kind ≠ .bangEqual) :
    binaryResult op v w s = (.error (.error ⟨.unsupportedOperator op.text, op.offset⟩), s) := by
  unfold binaryResult
  cases hkind : op.kind <;> rw [hkind] at hop <;>
    first | exact absurd hkind hplus | exact absurd hkind heq | exact absurd hkind hne | rfl | cases hop

theorem look_of_undefined {use : NameUse} (hhops : use.hops = none)
    (hget : s.get? Store.globals use.name.text = none) :
    Access.recorded.look use f s =
      (.error (.error ⟨.undefinedVariable use.name.text, use.name.offset⟩), s) := by
  unfold Access.recorded
  dsimp only
  rw [hhops]
  exact get_of_undefined hget

theorem store_of_undefined {use : NameUse} {v : Value} (hhops : use.hops = none)
    (hholder : s.holder? use.name.text Store.globals = none) :
    Access.recorded.store use v f s =
      (.error (.error ⟨.undefinedVariable use.name.text, use.name.offset⟩), s) := by
  unfold Access.recorded
  dsimp only
  rw [hhops]
  exact assign_of_undefined hholder

theorem callWith_of_not_callable {v : Value} {place : Option Int} (h : s.arity? v = none) :
    callWith inner v vs place s = (.error (.error ⟨.notCallable, place⟩), s) := by
  have hread : Procedure.read (ε := Fault) (fun s : Store => s.arity? v) s = (.ok (s.arity? v), s) := rfl
  rw [callWith, bind_ok hread, h]
  rfl

theorem callWith_of_wrong_arity {v : Value} {place : Option Int} {n : Nat} (h : s.arity? v = some n)
    (hlen : vs.length ≠ n) :
    callWith inner v vs place s = (.error (.error ⟨.wrongArity n vs.length, place⟩), s) := by
  have hread : Procedure.read (ε := Fault) (fun s : Store => s.arity? v) s = (.ok (s.arity? v), s) := rfl
  rw [callWith, bind_ok hread, h]
  exact congrFun (if_neg hlen) s

theorem instanceProperty_of_undefined {i : InstanceId} {name : Mark}
    (hfield : (s.instanceObject i).fields.get? name.text = none)
    (hmethod : s.findMethod? (s.instanceObject i).cls name.text = none) :
    instanceProperty i name s =
      (.error (.error ⟨.undefinedProperty name.text, name.offset⟩), s) := by
  have hread : Procedure.read (ε := Fault)
      (fun s : Store => (s.instanceObject i).fields.get? name.text) s = (.ok none, s) := by
    rw [← hfield]
    rfl
  have hread' : Procedure.read (ε := Fault)
      (fun s : Store => s.findMethod? (s.instanceObject i).cls name.text) s = (.ok none, s) := by
    rw [← hmethod]
    rfl
  rw [instanceProperty, bind_ok hread]
  dsimp only
  rw [bind_ok hread']
  rfl

theorem superProperty_of_undefined {use : NameUse} {method : Mark} {d : Nat} {superclass receiver : Value}
    (hhops : use.hops = some d) (hsuper : Run.getAt f d "super" s = (.ok superclass, s))
    (hthis : Run.getAt f ((d : Int) - 1) "this" s = (.ok receiver, s))
    (hmethod : s.methodOf? superclass method.text = none) :
    superProperty use method f s =
      (.error (.error ⟨.undefinedProperty method.text, method.offset⟩), s) := by
  have hread : Procedure.read (ε := Fault) (fun s : Store => s.methodOf? superclass method.text) s =
      (.ok none, s) := by
    rw [← hmethod]
    rfl
  unfold superProperty
  rw [hhops]
  dsimp only
  rw [bind_ok hsuper, bind_ok hthis, bind_ok hread]
  rfl

/-- An expression whose check rejects the values fails, and leaves the store as it is. -/
theorem Rejects.finish_expr {e : Expr} (h : Rejects s f (.expr e) vs cause) (hpoint : e.point? = some mark)
    (haccess : inner.access = .recorded) :
    e.finish inner f vs s = (.error (.error ⟨cause, mark.offset⟩), s) := by
  cases h with
  | operandNotNumber hop hv =>
    cases hpoint
    exact unaryResult_of_not_number hop hv
  | unsupportedUnary hminus hbang =>
    cases hpoint
    exact unaryResult_of_unsupported hminus hbang
  | operandsNotAddable hop hnumbers hstrings =>
    cases hpoint
    show binaryResult mark _ _ s = _
    rw [binaryResult_of_plus hop]
    exact joinOrAdd_of_not_addable hnumbers hstrings
  | operandsNotNumbers hop hnumbers =>
    cases hpoint
    exact binaryResult_of_not_numbers hop hnumbers
  | unsupportedOperator hop hplus heq hne =>
    cases hpoint
    exact binaryResult_of_unsupported hop hplus heq hne
  | undefinedVariable hhops hget | undefinedReceiver hhops hget =>
    cases hpoint
    show inner.access.look _ f s = _
    rw [haccess]
    exact look_of_undefined hhops hget
  | undefinedTarget hhops hholder =>
    cases hpoint
    refine bind_error ?_
    rw [haccess]
    exact store_of_undefined hhops hholder
  | notCallable harity =>
    cases hpoint
    exact callWith_of_not_callable harity
  | wrongArity harity hlen =>
    cases hpoint
    exact callWith_of_wrong_arity harity hlen
  | @noProperties _ _ v hv =>
    cases hpoint
    cases v with
    | instanceRef i => exact absurd rfl (hv i)
    | _ => rfl
  | undefinedProperty hfield hmethod =>
    cases hpoint
    exact instanceProperty_of_undefined hfield hmethod
  | @noFields _ _ _ v hv =>
    cases hpoint
    cases v with
    | instanceRef i => exact absurd rfl (hv i)
    | _ => rfl
  | noSuperMethod hhops hsuper hthis hmethod =>
    cases hpoint
    exact superProperty_of_undefined hhops hsuper hthis hmethod

/-- A class whose superclass is refused fails, and leaves the store as it is. -/
theorem Rejects.finish_stmt {st : Stmt} (h : Rejects s f (.stmt st) vs cause)
    (hpoint : st.point? = some mark) :
    st.finish inner f vs s = (.error (.error ⟨cause, mark.offset⟩), s) := by
  cases h with
  | superclassNotClass hv =>
    cases hpoint
    rename_i v
    cases v with
    | classRef c => exact absurd rfl (hv c)
    | _ => rfl

/-- A node fails behind its operands, if its check rejects their values: from there on nothing is
written, and the error has the place of the check. -/
theorem Rejects.run {site : Site} {s₀ : Store} (h : Rejects s f site vs cause)
    (hpoint : site.point? = some mark) (haccess : inner.access = .recorded)
    (hoperands : evalArgs inner site.operands f s₀ = (.ok vs, s)) :
    site.run inner f s₀ = (.error (.error ⟨cause, mark.offset⟩), s) := by
  cases site with
  | expr e =>
    refine bind_error ?_
    rw [evalExpr_eq_operands]
    exact (bind_ok hoperands).trans (h.finish_expr hpoint haccess)
  | stmt st =>
    refine bind_error ?_
    rw [execStmt_eq_operands]
    exact (bind_ok hoperands).trans (h.finish_stmt hpoint)

end

/-! ### Only what is refused fails -/

section

variable {f : FrameId} {s s' : Store} {e : RuntimeError}

theorem unaryResult_error {op : Mark} {operand : Expr} {v : Value}
    (h : unaryResult op v s = (.error (.error e), s')) :
    s' = s ∧ Rejects s f (.expr (.unary op operand)) [v] e.cause ∧ e.offset = op.offset := by
  by_cases hminus : op.kind = .minus
  · by_cases hv : ∃ x, v = .number x
    · obtain ⟨x, rfl⟩ := hv
      unfold unaryResult at h
      rw [hminus] at h
      cases h
    · cases (unaryResult_of_not_number hminus fun x hx => hv ⟨x, hx⟩).symm.trans h
      exact ⟨rfl, .operandNotNumber hminus fun x hx => hv ⟨x, hx⟩, rfl⟩
  · by_cases hbang : op.kind = .bang
    · unfold unaryResult at h
      rw [hbang] at h
      cases h
    · cases (unaryResult_of_unsupported hminus hbang).symm.trans h
      exact ⟨rfl, .unsupportedUnary hminus hbang, rfl⟩

theorem joinOrAdd_error {op : Mark} {l r : Expr} {v w : Value} (hop : op.kind = .plus)
    (h : joinOrAdd op v w s = (.error (.error e), s')) :
    s' = s ∧ Rejects s f (.expr (.binary l op r)) [v, w] e.cause ∧ e.offset = op.offset := by
  by_cases hnumbers : ∃ x y, v = .number x ∧ w = .number y
  · obtain ⟨x, y, rfl, rfl⟩ := hnumbers
    cases h
  · have hnumbers : ∀ x y, v = .number x → w ≠ .number y := fun x y hx hy => hnumbers ⟨x, y, hx, hy⟩
    by_cases hstrings : ∀ a, v ≠ .string a ∧ w ≠ .string a
    · cases (joinOrAdd_of_not_addable hnumbers hstrings).symm.trans h
      exact ⟨rfl, .operandsNotAddable hop hnumbers hstrings, rfl⟩
    · unfold joinOrAdd at h
      split at h
      · exact absurd rfl (hnumbers _ _ rfl)
      · cases h
      · cases h
      · rename_i hleft hright _
        exact absurd (fun a => ⟨hleft a, hright a⟩) hstrings

theorem binaryResult_error {op : Mark} {l r : Expr} {v w : Value}
    (h : binaryResult op v w s = (.error (.error e), s')) :
    s' = s ∧ Rejects s f (.expr (.binary l op r)) [v, w] e.cause ∧ e.offset = op.offset := by
  by_cases hplus : op.kind = .plus
  · rw [binaryResult_of_plus hplus] at h
    exact joinOrAdd_error hplus h
  by_cases heq : op.kind = .equalEqual
  · unfold binaryResult at h
    rw [heq] at h
    cases h
  by_cases hne : op.kind = .bangEqual
  · unfold binaryResult at h
    rw [hne] at h
    cases h
  cases hop : arithmetic? op.kind with
  | none =>
    cases (binaryResult_of_unsupported hop hplus heq hne).symm.trans h
    exact ⟨rfl, .unsupportedOperator hop hplus heq hne, rfl⟩
  | some g =>
    by_cases hnumbers : ∃ x y, v = .number x ∧ w = .number y
    · obtain ⟨x, y, rfl, rfl⟩ := hnumbers
      rw [binaryResult_of_arithmetic hop] at h
      cases h
    · have hnumbers : ∀ x y, v = .number x → w ≠ .number y :=
        fun x y hx hy => hnumbers ⟨x, y, hx, hy⟩
      cases (binaryResult_of_not_numbers hop hnumbers).symm.trans h
      exact ⟨rfl, .operandsNotNumbers hop hnumbers, rfl⟩

theorem get_error {name : Mark} (h : Run.get f name s = (.error (.error e), s')) :
    s' = s ∧ s.get? f name.text = none ∧ e = ⟨.undefinedVariable name.text, name.offset⟩ := by
  cases hget : s.get? f name.text with
  | none =>
    cases (get_of_undefined hget).symm.trans h
    exact ⟨rfl, rfl, rfl⟩
  | some v =>
    have hread : Procedure.read (ε := Fault) (fun s : Store => s.get? f name.text) s = (.ok (some v), s) := by
      rw [Procedure.read, hget]
    rw [Run.get, bind_ok hread] at h
    cases h

theorem assign_error {name : Mark} {v : Value} (h : Run.assign f name v s = (.error (.error e), s')) :
    s' = s ∧ s.holder? name.text f = none ∧ e = ⟨.undefinedVariable name.text, name.offset⟩ := by
  cases hholder : s.holder? name.text f with
  | none =>
    cases (assign_of_undefined hholder).symm.trans h
    exact ⟨rfl, rfl, rfl⟩
  | some g =>
    have hread : Procedure.read (ε := Fault) (fun s : Store => s.holder? name.text f) s =
        (.ok (some g), s) := by rw [Procedure.read, hholder]
    rw [Run.assign, bind_ok hread] at h
    cases h

theorem ancestor_error {d : Int} : Run.ancestor f d s ≠ (.error (.error e), s') := by
  have hread : Procedure.read (ε := Fault) (fun s : Store => s.ancestor? d.toNat f) s =
      (.ok (s.ancestor? d.toNat f), s) := rfl
  rw [Run.ancestor, bind_ok hread]
  cases s.ancestor? d.toNat f <;> rintro ⟨⟩

/-- A name that is not where its record says is no error of the program. -/
theorem getAt_error {d : Int} {name : String} : Run.getAt f d name s ≠ (.error (.error e), s') := by
  intro h
  rcases ha : Run.ancestor f d s with ⟨fault | a, s₁⟩
  · rw [Run.getAt, bind_error ha] at h
    cases h
    exact ancestor_error ha
  · have hread : Procedure.read (ε := Fault) (fun s : Store => (s.frame a).vars.get? name) s₁ =
        (.ok ((s₁.frame a).vars.get? name), s₁) := rfl
    rw [Run.getAt, bind_ok ha, bind_ok hread] at h
    cases hv : (s₁.frame a).vars.get? name <;> rw [hv] at h <;> cases h

theorem assignAt_error {d : Int} {name : String} {v : Value} :
    Run.assignAt f d name v s ≠ (.error (.error e), s') := by
  intro h
  rcases ha : Run.ancestor f d s with ⟨fault | a, s₁⟩
  · rw [Run.assignAt, bind_error ha] at h
    cases h
    exact ancestor_error ha
  · have hread : Procedure.read (ε := Fault) (fun s : Store => (s.frame a).vars.contains name) s₁ =
        (.ok ((s₁.frame a).vars.contains name), s₁) := rfl
    rw [Run.assignAt, bind_ok ha, bind_ok hread] at h
    cases hv : (s₁.frame a).vars.contains name <;> rw [hv] at h <;> cases h

theorem look_error {use : NameUse} (h : Access.recorded.look use f s = (.error (.error e), s')) :
    s' = s ∧ use.hops = none ∧ s.get? Store.globals use.name.text = none ∧
      e = ⟨.undefinedVariable use.name.text, use.name.offset⟩ := by
  unfold Access.recorded at h
  dsimp only at h
  cases hhops : use.hops with
  | none =>
    rw [hhops] at h
    obtain ⟨hs, hget, he⟩ := get_error h
    exact ⟨hs, rfl, hget, he⟩
  | some d =>
    rw [hhops] at h
    exact (getAt_error h).elim

theorem store_error {use : NameUse} {v : Value}
    (h : Access.recorded.store use v f s = (.error (.error e), s')) :
    s' = s ∧ use.hops = none ∧ s.holder? use.name.text Store.globals = none ∧
      e = ⟨.undefinedVariable use.name.text, use.name.offset⟩ := by
  unfold Access.recorded at h
  dsimp only at h
  cases hhops : use.hops with
  | none =>
    rw [hhops] at h
    obtain ⟨hs, hholder, he⟩ := assign_error h
    exact ⟨hs, rfl, hholder, he⟩
  | some d =>
    rw [hhops] at h
    exact (assignAt_error h).elim

/-- Reading a property fails only if there is none, or the value has no properties. -/
theorem getProperty_error {object : Expr} {name : Mark} {v : Value}
    (h : getProperty v name s = (.error (.error e), s')) :
    s' = s ∧ Rejects s f (.expr (.get object name)) [v] e.cause ∧ e.offset = name.offset := by
  cases v with
  | instanceRef i =>
    cases hfield : (s.instanceObject i).fields.get? name.text with
    | some w =>
      have hread : Procedure.read (ε := Fault)
          (fun s : Store => (s.instanceObject i).fields.get? name.text) s = (.ok (some w), s) := by
        rw [← hfield]
        rfl
      have h : instanceProperty i name s = _ := h
      rw [instanceProperty, bind_ok hread] at h
      cases h
    | none =>
      cases hmethod : s.findMethod? (s.instanceObject i).cls name.text with
      | none =>
        cases (instanceProperty_of_undefined hfield hmethod).symm.trans h
        exact ⟨rfl, .undefinedProperty hfield hmethod, rfl⟩
      | some m =>
        have hread : Procedure.read (ε := Fault)
            (fun s : Store => (s.instanceObject i).fields.get? name.text) s = (.ok none, s) := by
          rw [← hfield]
          rfl
        have hread' : Procedure.read (ε := Fault)
            (fun s : Store => s.findMethod? (s.instanceObject i).cls name.text) s = (.ok (some m), s) := by
          rw [← hmethod]
          rfl
        have h : instanceProperty i name s = _ := h
        rw [instanceProperty, bind_ok hread] at h
        dsimp only at h
        rw [bind_ok hread'] at h
        cases h
  | const _ | native _ | function _ | method _ | classRef _ =>
    cases h
    exact ⟨rfl, .noProperties (by rintro _ ⟨⟩), rfl⟩

/-- A method behind `super` fails only if the superclass has none of that name. -/
theorem superProperty_error {use : NameUse} {method : Mark}
    (h : superProperty use method f s = (.error (.error e), s')) :
    s' = s ∧ Rejects s f (.expr (.superMethod use method)) [] e.cause ∧ e.offset = method.offset := by
  unfold superProperty at h
  cases hhops : use.hops with
  | none =>
    rw [hhops] at h
    cases h
  | some d =>
    rw [hhops] at h
    dsimp only at h
    obtain ⟨_, superclass, _, hsuper⟩ | ⟨fault, hsuper⟩ := getAt_cases (s := s) (f := f) d "super"
    · rw [bind_ok hsuper] at h
      obtain ⟨_, receiver, _, hthis⟩ | ⟨fault, hthis⟩ :=
        getAt_cases (s := s) (f := f) ((d : Int) - 1) "this"
      · have hread : Procedure.read (ε := Fault) (fun s : Store => s.methodOf? superclass method.text) s =
            (.ok (s.methodOf? superclass method.text), s) := rfl
        rw [bind_ok hthis, bind_ok hread] at h
        cases hmethod : s.methodOf? superclass method.text with
        | none =>
          rw [hmethod] at h
          cases h
          exact ⟨rfl, .noSuperMethod hhops hsuper hthis hmethod, rfl⟩
        | some m =>
          rw [hmethod] at h
          cases h
      · rw [bind_error hthis] at h
        cases h
        exact (getAt_error hthis).elim
    · rw [bind_error hsuper] at h
      cases h
      exact (getAt_error hsuper).elim

end

/-! ### A class is bound without an evaluation -/

section

variable {f : FrameId} {s : Store} {name : Mark}

/-- Making methods leaves the frames as they are. -/
theorem makeMethods_ok (inside : FrameId) : ∀ (ms : List Fun) (made : Bindings FunctionId) (s : Store),
    ∃ made' s', makeMethods inside ms made s = (.ok made', s') ∧ s'.frames = s.frames
  | [], made, s => ⟨made, s, rfl, rfl⟩
  | m :: ms, made, s => by
    obtain ⟨made', s', hmade, hframes⟩ := makeMethods_ok inside ms (made.bind m.name.text s.functions.size)
      (s.withFunction ⟨m, inside, m.name.text = Store.initName⟩)
    exact ⟨made', s', hmade, hframes⟩

/-- The frame for the methods is a new one, if any; what is bound stays bound. -/
theorem methodFrame_ok (superclass : Option ClassId) (hbinds : s.Binds f name.text) :
    ∃ inside s', methodFrame superclass f s = (.ok inside, s') ∧ s'.Binds f name.text := by
  cases superclass with
  | none => exact ⟨f, s, rfl, hbinds⟩
  | some c =>
    refine ⟨s.frames.size, _, rfl, ?_⟩
    show ((s.withFrame (some f)).define s.frames.size "super" (.classRef c)).Binds f name.text
    have hlt : s.frames.size < (s.withFrame (some f)).frames.size := by simp [Store.withFrame]
    exact (Store.binds_define hlt).mpr (.inr (Store.binds_withFrame.mpr ⟨Nat.ne_of_lt hbinds.lt, hbinds⟩))

/-- In a frame that is there the name of a class is bound to it in the end. -/
theorem bindClass_binds (hf : f < s.frames.size) (superclass : Option ClassId) (methods : List Fun) :
    ∃ c s', bindClass name superclass methods f s = (.ok (), s') ∧
      (s'.frame f).vars.get? name.text = some (.classRef c) := by
  have hdefined : (s.define f name.text .nil).Binds f name.text :=
    (Store.binds_define hf).mpr (.inl ⟨rfl, rfl⟩)
  obtain ⟨inside, s₁, hinside, hbinds⟩ := methodFrame_ok superclass hdefined
  obtain ⟨made, s₂, hmade, hframes⟩ := makeMethods_ok inside methods .empty s₁
  have hbinds₂ : (s₂.withClass ⟨name.text, superclass, made⟩).Binds f name.text := by
    show ((s₂.frames.getD f default).vars.contains name.text) = true
    rw [hframes]
    exact hbinds
  refine ⟨s₂.classes.size, (s₂.withClass ⟨name.text, superclass, made⟩).define f name.text
    (.classRef s₂.classes.size), ?_, ?_⟩
  · show (methodFrame superclass f >>= _) (s.define f name.text .nil) = _
    rw [bind_ok hinside, bind_ok hmade]
    show Run.assign f name (.classRef s₂.classes.size) (s₂.withClass _) = _
    rw [Run.assign]
    have hread : Procedure.read (ε := Fault) (fun s : Store => s.holder? name.text f)
        (s₂.withClass ⟨name.text, superclass, made⟩) =
        (.ok (some f), s₂.withClass ⟨name.text, superclass, made⟩) := by
      rw [Procedure.read, Store.holder?_of_binds hbinds₂]
    rw [bind_ok hread]
    rfl
  · rw [Store.frame_define, if_pos ⟨rfl, hbinds₂.lt⟩, Bindings.get?_bind, if_pos rfl]

end

end Lox
