/-
# Names exchanged scope by scope

Two names are exchanged in some scopes and left alone in the others, so a name
stands for one thing in one scope and for another in the next. A flag for each
scope, the innermost first, says whether they are exchanged in it. A tree that
is spelled otherwise follows this exchange if it calls each name as the scope
does that the name is bound in, by the record of its use, and leaves all other
words alone (`Lox.Stmt.Follows`). A tree that is spelled as it was follows the
exchange in no scope at all.

Key definitions: `Lox.Exchange`, `Lox.Exchange.name`, `Lox.Exchange.nameAt`, `Lox.Expr.Follows`,
`Lox.Stmt.Follows`.
Key theorems: `Lox.Exchange.name_injective`, `Lox.functionFollows_same`, `Lox.functionRespell_same`.
-/
import Lox.Proofs.Scanner.Words
import Lox.Proofs.Spelling.Respelling
import Mathlib.Logic.Equiv.Basic

namespace Lox

/-- Two names, neither of them a word of a class. -/
structure Exchange where
  old : String
  new : String
  plainOld : isPlain old
  plainNew : isPlain new

namespace Exchange

variable (c : Exchange)

/-- What a name is called in a scope where the names are exchanged, or are not. -/
def name (exchanged : Bool) (n : String) : String :=
  if exchanged then Equiv.swap c.old c.new n else n

/-- What a use is called that is bound so many scopes out, or among the globals. -/
def nameAt (ls : List Bool) : Option Nat → String → String
  | none, n => n
  | some d, n => c.name (ls.getD d false) n

@[simp] theorem name_false (n : String) : c.name false n = n := rfl

@[simp] theorem name_old : c.name true c.old = c.new := Equiv.swap_apply_left ..

@[simp] theorem name_new : c.name true c.new = c.old := Equiv.swap_apply_right ..

theorem name_of_ne {n : String} (ho : n ≠ c.old) (hn : n ≠ c.new) (b : Bool) : c.name b n = n := by
  cases b with
  | false => rfl
  | true => exact Equiv.swap_apply_of_ne_of_ne ho hn

theorem name_injective (b : Bool) : Function.Injective (c.name b) := by
  cases b with
  | false => exact Function.injective_id
  | true => exact (Equiv.swap c.old c.new).injective

@[simp] theorem name_inj (b : Bool) {n m : String} : c.name b n = c.name b m ↔ n = m :=
  (c.name_injective b).eq_iff

@[simp] theorem name_this (b : Bool) : c.name b "this" = "this" :=
  c.name_of_ne (Ne.symm c.plainOld.1) (Ne.symm c.plainNew.1) b

@[simp] theorem name_super (b : Bool) : c.name b "super" = "super" :=
  c.name_of_ne (Ne.symm c.plainOld.2) (Ne.symm c.plainNew.2) b

end Exchange

/-- All marks stay where they are. -/
def Respelling.Still (r : Respelling) : Prop := ∀ offset, r.offset offset = offset

theorem Respelling.Still.offset_eq {r : Respelling} (h : r.Still) (offset : Option Int) :
    r.offset offset = offset :=
  h offset

theorem Respelling.Still.map_eq {r : Respelling} (h : r.Still) (offset : Option Int) :
    offset.map r.place = offset :=
  (Respelling.offset_eq_map (h none) offset).symm.trans (h offset)

/-! ### Trees that follow -/

section

variable (c : Exchange) (r : Respelling)

/-- The mark is spelled as it was. -/
def Mark.Keeps (m : Mark) : Prop := (m.respell r).text = m.text

/-- The mark of a declaration calls the name as the innermost scope does. -/
def Mark.Declares (ls : List Bool) (m : Mark) : Prop :=
  (m.respell r).text = c.name (ls.headD false) m.text

/-- The use calls the name as the scope does that binds it. -/
def NameUse.Follows (ls : List Bool) (use : NameUse) : Prop :=
  (use.name.respell r).text = c.nameAt ls use.hops use.name.text

mutual

/-- The names of the expression follow the scopes. -/
def Expr.Follows (ls : List Bool) : Expr → Prop
  | .literal _ | .stray _ => True
  | .grouping inner => inner.Follows ls
  | .unary op operand => op.Keeps r ∧ operand.Follows ls
  | .binary left op right | .logical left op right =>
    left.Follows ls ∧ op.Keeps r ∧ right.Follows ls
  | .ternary cond yes no => cond.Follows ls ∧ yes.Follows ls ∧ no.Follows ls
  | .variable use | .receiver use => use.Follows c r ls
  | .assign use value => use.Follows c r ls ∧ value.Follows ls
  | .call callee _ args => callee.Follows ls ∧ argsFollow ls args
  | .get object name => object.Follows ls ∧ name.Keeps r
  | .set object name value => object.Follows ls ∧ name.Keeps r ∧ value.Follows ls
  | .superMethod use method => use.Follows c r ls ∧ method.Keeps r

def argsFollow (ls : List Bool) : List Expr → Prop
  | [] => True
  | arg :: args => arg.Follows ls ∧ argsFollow ls args

end

def optionFollows (ls : List Bool) : Option Expr → Prop
  | none => True
  | some e => e.Follows c r ls

mutual

/-- The names of the statement follow the scopes. Functions and classes keep their names, which are
part of what they print as. -/
def Stmt.Follows (ls : List Bool) : Stmt → Prop
  | .expr value | .print value => value.Follows c r ls
  | .var name initial => name.Declares c r ls ∧ optionFollows c r ls initial
  | .block body => ∃ b, bodyFollows (b :: ls) body
  | .branch cond yes none => cond.Follows c r ls ∧ yes.Follows ls
  | .branch cond yes (some no) => cond.Follows c r ls ∧ yes.Follows ls ∧ no.Follows ls
  | .loop cond body => cond.Follows c r ls ∧ body.Follows ls
  | .function decl => decl.name.Declares c r ls ∧ functionFollows ls decl
  | .giveBack _ value => optionFollows c r ls value
  | .classDecl name none methods =>
    name.Keeps r ∧ name.Declares c r ls ∧ methodsFollow (false :: ls) methods
  | .classDecl name (some use) methods =>
    name.Keeps r ∧ name.Declares c r ls ∧ use.Follows c r ls ∧
      methodsFollow (false :: false :: ls) methods
  | .stray _ => True

def bodyFollows (ls : List Bool) : List Stmt → Prop
  | [] => True
  | stmt :: body => stmt.Follows ls ∧ bodyFollows ls body

/-- The names of the function follow the scopes around it and its own one. -/
def functionFollows (ls : List Bool) : Fun → Prop
  | ⟨name, params, body⟩ =>
    name.Keeps r ∧ ∃ b, (∀ m ∈ params, m.Declares c r (b :: ls)) ∧ bodyFollows (b :: ls) body

def methodsFollow (ls : List Bool) : List Fun → Prop
  | [] => True
  | method :: methods => functionFollows ls method ∧ methodsFollow ls methods

end

end

/-! ### Trees as they were -/

/-- Nothing is spelled otherwise. -/
abbrev Respelling.same : Respelling := .moving id

open Respelling

theorem Respelling.still_same : same.Still := fun offset => by
  cases offset <;> rfl

@[simp] theorem Mark.respell_same (m : Mark) : m.respell same = m := by
  cases m
  simp [Mark.respell, moving]

@[simp] theorem NameUse.respell_same (use : NameUse) : use.respell same = use := by
  simp [NameUse.respell]

mutual

@[simp] theorem Expr.respell_same : ∀ e : Expr, e.respell same = e
  | .literal _ | .variable _ | .receiver _ | .superMethod .. => by simp [Expr.respell]
  | .grouping e | .unary _ e | .assign _ e | .get e _ => by simp [Expr.respell, e.respell_same]
  | .binary l _ r | .logical l _ r => by simp [Expr.respell, l.respell_same, r.respell_same]
  | .ternary cond yes no => by
    simp [Expr.respell, cond.respell_same, yes.respell_same, no.respell_same]
  | .call callee _ args => by simp [Expr.respell, callee.respell_same, argsRespell_same args]
  | .set object _ value => by simp [Expr.respell, object.respell_same, value.respell_same]
  | .stray node => by simp [Expr.respell, Stray.respell, moving]

theorem argsRespell_same : ∀ args : List Expr, argsRespell same args = args
  | [] => rfl
  | e :: args => by simp [argsRespell, e.respell_same, argsRespell_same args]

end

theorem optionRespell_same (e : Option Expr) : e.map (Expr.respell same) = e := by
  cases e <;> simp

mutual

@[simp] theorem Stmt.respell_same : ∀ s : Stmt, s.respell same = s
  | .expr _ | .print _ => by simp [Stmt.respell]
  | .var _ initial => by simp [Stmt.respell, optionRespell_same initial]
  | .giveBack _ value => by simp [Stmt.respell, optionRespell_same value]
  | .block body => by simp [Stmt.respell, bodyRespell_same body]
  | .branch _ yes none => by simp [Stmt.respell, yes.respell_same]
  | .branch _ yes (some no) => by simp [Stmt.respell, yes.respell_same, no.respell_same]
  | .loop _ body => by simp [Stmt.respell, body.respell_same]
  | .function decl => by simp [Stmt.respell, functionRespell_same decl]
  | .classDecl _ superclass methods => by
    cases superclass <;> simp [Stmt.respell, methodsRespell_same methods]
  | .stray node => by simp [Stmt.respell, Stray.respell, moving]

theorem bodyRespell_same : ∀ body : List Stmt, bodyRespell same body = body
  | [] => rfl
  | s :: body => by simp [bodyRespell, s.respell_same, bodyRespell_same body]

theorem functionRespell_same : ∀ decl : Fun, functionRespell same decl = decl
  | ⟨name, params, body⟩ => by
    have hparams : Mark.respell same = id := by
      funext m
      simp
    simp [functionRespell, bodyRespell_same body, hparams]

theorem methodsRespell_same : ∀ methods : List Fun, methodsRespell same methods = methods
  | [] => rfl
  | m :: ms => by simp [methodsRespell, functionRespell_same m, methodsRespell_same ms]

end

section

variable {c : Exchange} {ls : List Bool}

theorem Mark.declares_same (hls : ∀ b ∈ ls, b = false) (m : Mark) : m.Declares c same ls := by
  have hhead : ls.headD false = false := by
    cases ls with
    | nil => rfl
    | cons b _ => exact hls b List.mem_cons_self
  rw [Mark.Declares, hhead, m.respell_same]
  rfl

theorem NameUse.follows_same (hls : ∀ b ∈ ls, b = false) (use : NameUse) : use.Follows c same ls := by
  rw [NameUse.Follows, use.name.respell_same]
  cases use.hops with
  | none => rfl
  | some d =>
    have hd : ls.getD d false = false := by
      rw [List.getD_eq_getElem?_getD]
      cases hd : ls[d]? with
      | none => rfl
      | some b => exact hls b (List.mem_of_getElem? hd)
    rw [Exchange.nameAt, hd]
    rfl

mutual

theorem Expr.follows_same (hls : ∀ b ∈ ls, b = false) : ∀ e : Expr, e.Follows c same ls
  | .literal _ | .stray _ => trivial
  | .grouping e => e.follows_same hls
  | .unary _ e => ⟨rfl, e.follows_same hls⟩
  | .binary l _ r | .logical l _ r => ⟨l.follows_same hls, rfl, r.follows_same hls⟩
  | .ternary cond yes no =>
    ⟨cond.follows_same hls, yes.follows_same hls, no.follows_same hls⟩
  | .variable use | .receiver use => use.follows_same hls
  | .assign use e => ⟨use.follows_same hls, e.follows_same hls⟩
  | .call callee _ args => ⟨callee.follows_same hls, argsFollow_same hls args⟩
  | .get e _ => ⟨e.follows_same hls, rfl⟩
  | .set object _ value => ⟨object.follows_same hls, rfl, value.follows_same hls⟩
  | .superMethod use _ => ⟨use.follows_same hls, rfl⟩

theorem argsFollow_same (hls : ∀ b ∈ ls, b = false) : ∀ args : List Expr, argsFollow c same ls args
  | [] => trivial
  | e :: args => ⟨e.follows_same hls, argsFollow_same hls args⟩

end

theorem optionFollows_same (hls : ∀ b ∈ ls, b = false) :
    ∀ e : Option Expr, optionFollows c same ls e
  | none => trivial
  | some e => e.follows_same hls

/-- One more scope in which nothing is exchanged. -/
theorem none_cons {ls : List Bool} (hls : ∀ b ∈ ls, b = false) : ∀ b ∈ false :: ls, b = false :=
  List.forall_mem_cons.mpr ⟨rfl, hls⟩

mutual

theorem Stmt.follows_same : ∀ (s : Stmt) {ls : List Bool}, (∀ b ∈ ls, b = false) → s.Follows c same ls
  | .expr e, _, h | .print e, _, h => e.follows_same h
  | .var name initial, _, h => ⟨name.declares_same h, optionFollows_same h initial⟩
  | .block body, _, h => ⟨false, bodyFollows_same body (none_cons h)⟩
  | .branch cond yes none, _, h | .loop cond yes, _, h => ⟨cond.follows_same h, yes.follows_same h⟩
  | .branch cond yes (some no), _, h => ⟨cond.follows_same h, yes.follows_same h, no.follows_same h⟩
  | .function decl, _, h => ⟨decl.name.declares_same h, functionFollows_same decl h⟩
  | .giveBack _ value, _, h => optionFollows_same h value
  | .classDecl name none ms, _, h =>
    ⟨rfl, name.declares_same h, methodsFollow_same ms (none_cons h)⟩
  | .classDecl name (some use) ms, _, h =>
    ⟨rfl, name.declares_same h, use.follows_same h, methodsFollow_same ms (none_cons (none_cons h))⟩
  | .stray _, _, _ => trivial

theorem bodyFollows_same : ∀ (body : List Stmt) {ls : List Bool}, (∀ b ∈ ls, b = false) →
    bodyFollows c same ls body
  | [], _, _ => trivial
  | s :: body, _, h => ⟨s.follows_same h, bodyFollows_same body h⟩

theorem functionFollows_same : ∀ (decl : Fun) {ls : List Bool}, (∀ b ∈ ls, b = false) →
    functionFollows c same ls decl
  | ⟨_, _, body⟩, _, h =>
    ⟨rfl, false, fun m _ => m.declares_same (none_cons h), bodyFollows_same body (none_cons h)⟩

theorem methodsFollow_same : ∀ (methods : List Fun) {ls : List Bool}, (∀ b ∈ ls, b = false) →
    methodsFollow c same ls methods
  | [], _, _ => trivial
  | m :: ms, _, h => ⟨functionFollows_same m h, methodsFollow_same ms h⟩

end

end

end Lox
