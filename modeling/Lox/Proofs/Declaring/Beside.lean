/-
# Stores that bind one more name

A declaration is new to a store if no function in it says its name. A second
store stands beside the first one that differs in two ways only: its frames may
bind that name besides, and its functions may have the declaration besides
(`Lox.Store.Beside`). All that a store is asked for while a program runs that
does not say the name, the second one tells as the first one does.

Key definitions: `Lox.Addition`, `Lox.Construct.Gains`, `Lox.Padded`, `Lox.Store.Beside`.
Key theorems: `Lox.Construct.Gains.block`, `Lox.Construct.Gains.call`, `Lox.Store.Beside.get?`,
`Lox.Store.Beside.define`, `Lox.Store.Beside.defineBesides`.
-/
import Lox.Proofs.Declaring.Insertion
import Lox.Proofs.Dispatch.Superclasses
import Lox.Proofs.Idle.Binding
import Lox.Proofs.Renaming.Twins
import Lox.Proofs.Running.Growth
import Lox.Proofs.Scanner.Replacing

namespace Lox

/-- A declaration in the scope of `opener`, before these statements of it. -/
structure Addition where
  mark : Mark
  opener : Opener
  behind : List Stmt
  named : IsName mark.text

variable {g : Addition}

namespace Addition

/-- The marks do not say the name that is declared. -/
def Unsaid (g : Addition) (marks : List Mark) : Prop := ∀ m ∈ marks, m.text ≠ g.mark.text

/-- The scope has no statements but the declaration. -/
def Lonely (g : Addition) : Prop := g.opener.body = []

theorem ne_this (g : Addition) : "this" ≠ g.mark.text := Ne.symm g.named.isPlain.1

theorem ne_super (g : Addition) : "super" ≠ g.mark.text := Ne.symm g.named.isPlain.2

end Addition

/-! ### Trees with the declaration besides -/

/-- The second part is the first one, or has the declaration besides; the first one does not say its
name. -/
structure Construct.Gains (g : Addition) (k k' : Construct) : Prop where
  same_or : k' = k ∨ Grown g.mark g.opener g.behind k k'
  unsaid : g.Unsaid k.marks

/-- Bodies, statement by statement; the second one may have the declaration besides. -/
inductive Padded (g : Addition) : List Stmt → List Stmt → Prop
  | nil : Padded g [] []
  | cons {s s' : Stmt} {body body' : List Stmt} : Construct.Gains g (.stmt s) (.stmt s') →
    Padded g body body' → Padded g (s :: body) (s' :: body')
  | besides {body body' : List Stmt} : Padded g body body' →
    Padded g body (.var g.mark none :: body')

/-- A function, and the same one or one that has the declaration besides. A body that is empty stays
so, unless the declaration is all that its scope has. -/
structure Fun.Gains (g : Addition) (decl decl' : Fun) : Prop where
  name : decl'.name = decl.name
  params : decl'.params = decl.params
  body : Padded g decl.body decl'.body
  empty : decl.body = [] → decl'.body = [] ∨ g.Lonely

namespace Padded

theorem of_forall₂ {body body' : List Stmt}
    (h : List.Forall₂ (fun s s' => Construct.Gains g (.stmt s) (.stmt s')) body body') :
    Padded g body body' ∧ (body = [] → body' = []) := by
  induction h with
  | nil => exact ⟨.nil, id⟩
  | cons hs _ ih => exact ⟨.cons hs ih.1, (nomatch ·)⟩

theorem append {before before' later later' : List Stmt} (h : Padded g before before')
    (hl : Padded g later later') : Padded g (before ++ later) (before' ++ later') := by
  induction h with
  | nil => exact hl
  | cons hs _ ih => exact .cons hs ih
  | besides _ ih => exact .besides ih

end Padded

namespace Construct.Gains

theorem refl {k : Construct} (h : g.Unsaid k.marks) : Gains g k k := ⟨.inl rfl, h⟩

/-- The statements of a body in which one of them may have the declaration. -/
theorem body {stmts stmts' : List Stmt} (h : Gains g (.body stmts) (.body stmts')) :
    List.Forall₂ (fun s s' => Gains g (.stmt s) (.stmt s')) stmts stmts' := by
  have same : ∀ {stmts : List Stmt}, g.Unsaid (bodyMarks stmts) →
      List.Forall₂ (fun s s' => Gains g (.stmt s) (.stmt s')) stmts stmts := by
    intro stmts
    induction stmts with
    | nil => exact fun _ => .nil
    | cons s stmts ih =>
      intro hunsaid
      obtain ⟨hs, hstmts⟩ := List.forall_mem_append.mp hunsaid
      exact .cons (.refl hs) (ih hstmts)
  obtain ⟨heq | hgrown, hunsaid⟩ := h
  · cases heq
    exact same hunsaid
  · cases hgrown with
    | @among before later s s' h =>
      have hunsaid : g.Unsaid (bodyMarks (before ++ s :: later)) := hunsaid
      rw [bodyMarks_append] at hunsaid
      obtain ⟨hbefore, hs⟩ := List.forall_mem_append.mp hunsaid
      obtain ⟨hs, hlater⟩ := List.forall_mem_append.mp hs
      exact List.rel_append (same hbefore) (.cons ⟨.inr h, hs⟩ (same hlater))

/-- A body that stays as it is. -/
theorem padded {stmts : List Stmt} (h : g.Unsaid (bodyMarks stmts)) : Padded g stmts stmts :=
  (Padded.of_forall₂ (body (.refl h))).1

/-- The body of the scope. -/
theorem scope {before : List Stmt} (hb : g.Unsaid (bodyMarks (before ++ g.behind))) :
    Padded g (before ++ g.behind) (before ++ .var g.mark none :: g.behind) := by
  rw [bodyMarks_append] at hb
  obtain ⟨hbefore, hbehind⟩ := List.forall_mem_append.mp hb
  exact .append (padded hbefore) (.besides (padded hbehind))

theorem block {stmts : List Stmt} {s' : Stmt} (h : Gains g (.stmt (.block stmts)) (.stmt s')) :
    ∃ stmts', s' = .block stmts' ∧ Padded g stmts stmts' ∧ (stmts = [] → stmts' = [] ∨ g.Lonely) := by
  obtain ⟨heq | hgrown, hunsaid⟩ := h
  · cases heq
    exact ⟨_, rfl, padded hunsaid, .inl⟩
  · cases hgrown with
    | inBlock ho => exact ⟨_, rfl, scope hunsaid, fun hnil => .inr (by rw [Addition.Lonely, ho]; exact hnil)⟩
    | block h =>
      obtain ⟨hpadded, hempty⟩ := Padded.of_forall₂ (body ⟨.inr h, hunsaid⟩)
      exact ⟨_, rfl, hpadded, fun hnil => .inl (hempty hnil)⟩

theorem call (kind : FunctionKind) {decl decl' : Fun}
    (h : Gains g (.function kind decl) (.function kind decl')) : decl.Gains g decl' := by
  obtain ⟨name, params, stmts⟩ := decl
  obtain ⟨heq | hgrown, hunsaid⟩ := h
  · cases heq
    obtain ⟨-, hbody⟩ := List.forall_mem_append.mp (List.forall_mem_cons.mp hunsaid).2
    exact ⟨rfl, rfl, padded hbody, .inl⟩
  · obtain ⟨-, hbody⟩ := List.forall_mem_append.mp (List.forall_mem_cons.mp hunsaid).2
    cases hgrown with
    | inCall ho =>
      exact ⟨rfl, rfl, scope hbody, fun hnil => .inr (by rw [Addition.Lonely, ho]; exact hnil)⟩
    | call h =>
      obtain ⟨hpadded, hempty⟩ := Padded.of_forall₂ (body ⟨.inr h, hbody⟩)
      exact ⟨rfl, rfl, hpadded, fun hnil => .inl (hempty hnil)⟩

theorem stepsIn_eq {s s' : Stmt} (h : Gains g (.stmt s) (.stmt s')) : s'.stepsIn = s.stepsIn := by
  obtain heq | hgrown := h.same_or
  · cases heq
    rfl
  · cases hgrown <;> rfl

theorem branch {cond : Expr} {yes : Stmt} {no : Option Stmt} {s' : Stmt}
    (h : Gains g (.stmt (.branch cond yes no)) (.stmt s')) : ∃ yes' no',
      s' = .branch cond yes' no' ∧ g.Unsaid cond.marks ∧ Gains g (.stmt yes) (.stmt yes') ∧
        Option.Rel (fun no no' => Gains g (.stmt no) (.stmt no')) no no' := by
  obtain ⟨hsame, hunsaid⟩ := h
  cases no with
  | none =>
    obtain ⟨hcond, hyes⟩ := List.forall_mem_append.mp hunsaid
    obtain heq | hgrown := hsame
    · cases heq
      exact ⟨yes, none, rfl, hcond, .refl hyes, .none⟩
    · cases hgrown with
      | yes _ h => exact ⟨_, none, rfl, hcond, ⟨.inr h, hyes⟩, .none⟩
  | some no =>
    obtain ⟨hunsaid, hno⟩ := List.forall_mem_append.mp hunsaid
    obtain ⟨hcond, hyes⟩ := List.forall_mem_append.mp hunsaid
    obtain heq | hgrown := hsame
    · cases heq
      exact ⟨yes, some no, rfl, hcond, .refl hyes, .some (.refl hno)⟩
    · cases hgrown with
      | yes _ h => exact ⟨_, some no, rfl, hcond, ⟨.inr h, hyes⟩, .some (.refl hno)⟩
      | no h => exact ⟨yes, some _, rfl, hcond, .refl hyes, .some ⟨.inr h, hno⟩⟩

theorem loop {cond : Expr} {stmt s' : Stmt} (h : Gains g (.stmt (.loop cond stmt)) (.stmt s')) :
    ∃ stmt', s' = .loop cond stmt' ∧ g.Unsaid cond.marks ∧ Gains g (.stmt stmt) (.stmt stmt') := by
  obtain ⟨hsame, hunsaid⟩ := h
  obtain ⟨hcond, hbody⟩ := List.forall_mem_append.mp hunsaid
  obtain heq | hgrown := hsame
  · cases heq
    exact ⟨stmt, rfl, hcond, .refl hbody⟩
  · cases hgrown with
    | loop h => exact ⟨_, rfl, hcond, ⟨.inr h, hbody⟩⟩

theorem function {decl : Fun} {s' : Stmt} (h : Gains g (.stmt (.function decl)) (.stmt s')) :
    ∃ decl', s' = .function decl' ∧ decl.Gains g decl' := by
  obtain ⟨heq | hgrown, hunsaid⟩ := h
  · cases heq
    exact ⟨decl, rfl, call .function (.refl hunsaid)⟩
  · cases hgrown with
    | function h => exact ⟨_, rfl, call _ ⟨.inr h, hunsaid⟩⟩

/-- Methods, one for one. -/
theorem methods {ms ms' : List Fun} (h : Gains g (.methods ms) (.methods ms')) :
    List.Forall₂ (Fun.Gains g) ms ms' := by
  have same : ∀ {ms : List Fun}, g.Unsaid (methodMarks ms) → List.Forall₂ (Fun.Gains g) ms ms := by
    intro ms
    induction ms with
    | nil => exact fun _ => .nil
    | cons m ms ih =>
      intro hunsaid
      obtain ⟨hm, hms⟩ := List.forall_mem_append.mp hunsaid
      exact .cons (call .method (.refl hm)) (ih hms)
  obtain ⟨heq | hgrown, hunsaid⟩ := h
  · cases heq
    exact same hunsaid
  · cases hgrown with
    | @method before later m m' h =>
      have hunsaid : g.Unsaid (methodMarks (before ++ m :: later)) := hunsaid
      rw [methodMarks_append] at hunsaid
      obtain ⟨hbefore, hm⟩ := List.forall_mem_append.mp hunsaid
      obtain ⟨hm, hlater⟩ := List.forall_mem_append.mp hm
      exact List.rel_append (same hbefore) (.cons (call _ ⟨.inr h, hm⟩) (same hlater))

theorem classDecl {name : Mark} {superclass : Option NameUse} {ms : List Fun} {s' : Stmt}
    (h : Gains g (.stmt (.classDecl name superclass ms)) (.stmt s')) :
    ∃ ms', s' = .classDecl name superclass ms' ∧ name.text ≠ g.mark.text ∧
      (∀ use ∈ superclass, use.name.text ≠ g.mark.text) ∧ List.Forall₂ (Fun.Gains g) ms ms' := by
  obtain ⟨hsame, hunsaid⟩ := h
  have hparts : name.text ≠ g.mark.text ∧ (∀ use ∈ superclass, use.name.text ≠ g.mark.text) ∧
      g.Unsaid (methodMarks ms) := by
    cases superclass with
    | none =>
      obtain ⟨hname, hms⟩ := List.forall_mem_cons.mp hunsaid
      exact ⟨hname, fun _ hu => (nomatch hu), hms⟩
    | some use =>
      obtain ⟨hname, hunsaid⟩ := List.forall_mem_cons.mp hunsaid
      obtain ⟨huse, hms⟩ := List.forall_mem_cons.mp hunsaid
      refine ⟨hname, fun _ hu => ?_, hms⟩
      cases hu
      exact huse
  obtain ⟨hname, huse, hms⟩ := hparts
  obtain heq | hgrown := hsame
  · cases heq
    exact ⟨ms, rfl, hname, huse, methods (.refl hms)⟩
  · cases hgrown with
    | classDecl _ h => exact ⟨_, rfl, hname, huse, methods ⟨.inr h, hms⟩⟩

end Construct.Gains

/-! ### Stores -/

/-- The same function, or one that has the declaration besides, made in the same frame. -/
structure Closure.Gains (g : Addition) (closure closure' : Closure) : Prop where
  decl : closure.decl.Gains g closure'.decl
  frame : closure'.frame = closure.frame
  isInitializer : closure'.isInitializer = closure.isInitializer

/-- The second store is the first one, but for the name that frames may bind besides and the
declaration that functions may have besides. -/
structure Store.Beside (g : Addition) (s s' : Store) : Prop where
  frames : s'.frames.size = s.frames.size
  parent : ∀ f, (s'.frame f).parent = (s.frame f).parent
  vars : ∀ f name, name ≠ g.mark.text → (s'.frame f).vars.get? name = (s.frame f).vars.get? name
  functions : s'.functions.size = s.functions.size
  function : ∀ id, (s.function id).Gains g (s'.function id)
  rest : s' = { s with frames := s'.frames, functions := s'.functions }

namespace Store.Beside

variable {s s' : Store} (h : s.Beside g s')
include h

/-! ### What both stores tell -/

theorem method (id : MethodId) : s'.method id = s.method id := by
  rw [h.rest]
  rfl

theorem classObject (cls : ClassId) : s'.classObject cls = s.classObject cls := by
  rw [h.rest]
  rfl

theorem instanceObject (id : InstanceId) : s'.instanceObject id = s.instanceObject id := by
  rw [h.rest]
  rfl

theorem clock : s'.clock = s.clock := by
  rw [h.rest]

theorem contains {name : String} (hn : name ≠ g.mark.text) (f : FrameId) :
    (s'.frame f).vars.contains name = (s.frame f).vars.contains name :=
  congrArg Option.isSome (h.vars f name hn)

theorem ancestor? (d : Nat) (f : FrameId) : s'.ancestor? d f = s.ancestor? d f := by
  induction d generalizing f with
  | zero => rfl
  | succ d ih =>
    rw [Store.ancestor?, Store.ancestor?, h.parent]
    cases (s.frame f).parent with
    | none => rfl
    | some p => exact ih p

theorem holder? {name : String} (hn : name ≠ g.mark.text) (f : FrameId) :
    s'.holder? name f = s.holder? name f := by
  have within : ∀ fuel f, s'.holderWithin? name fuel f = s.holderWithin? name fuel f := by
    intro fuel
    induction fuel with
    | zero => exact fun _ => rfl
    | succ fuel ih =>
      intro f
      simp only [Store.holderWithin?, h.contains hn, h.parent, ih]
  rw [Store.holder?, Store.holder?, h.frames]
  exact within _ f

theorem get? {name : String} (hn : name ≠ g.mark.text) (f : FrameId) :
    s'.get? f name = s.get? f name := by
  simp only [Store.get?, h.holder? hn, h.vars _ name hn]

theorem findMethod? (cls : ClassId) (name : String) :
    s'.findMethod? cls name = s.findMethod? cls name :=
  Store.findMethod?_congr (by rw [h.rest])

theorem methodOf? (v : Value) (name : String) : s'.methodOf? v name = s.methodOf? v name := by
  cases v with
  | classRef cls => exact h.findMethod? cls name
  | const _ | native _ | function _ | method _ | instanceRef _ => rfl

theorem functionArity (id : FunctionId) : s'.functionArity id = s.functionArity id :=
  congrArg List.length (h.function id).decl.params

theorem arity? (v : Value) : s'.arity? v = s.arity? v := by
  cases v with
  | const _ | native _ | instanceRef _ => rfl
  | function id => exact congrArg some (h.functionArity id)
  | method id => simp only [Store.arity?, h.method, h.functionArity]
  | classRef cls => simp only [Store.arity?, h.findMethod?, h.functionArity]

theorem functionName (id : FunctionId) :
    (s'.function id).decl.name = (s.function id).decl.name := (h.function id).decl.name

theorem display (v : Value) : s'.display v = s.display v := by
  cases v with
  | const _ | native _ => rfl
  | function id => simp only [Store.display, h.functionName]
  | method id => simp only [Store.display, h.method, h.functionName]
  | classRef cls => simp only [Store.display, h.classObject]
  | instanceRef id => simp only [Store.display, h.instanceObject, h.classObject]

/-! ### Steps of both stores -/

theorem withFrame (parent : Option FrameId) :
    (s.withFrame parent).Beside g (s'.withFrame parent) := by
  refine ⟨by simp [Store.withFrame, h.frames], fun f => ?_, fun f name hn => ?_, h.functions,
    h.function, ?_⟩
  · rw [Store.frame_withFrame, Store.frame_withFrame, h.frames]
    split
    · rfl
    · exact h.parent f
  · rw [Store.frame_withFrame, Store.frame_withFrame, h.frames]
    split
    · rfl
    · exact h.vars f name hn
  · show s'.withFrame parent = _
    conv_lhs => rw [h.rest]
    rfl

theorem define (f : FrameId) (name : String) (v : Value) :
    (s.define f name v).Beside g (s'.define f name v) := by
  refine ⟨by simp [Store.define, h.frames], fun a => ?_, fun a other hn => ?_, h.functions,
    h.function, ?_⟩
  · rw [Store.frame_define, Store.frame_define, h.frames]
    split
    · exact h.parent a
    · exact h.parent a
  · rw [Store.frame_define, Store.frame_define, h.frames]
    split
    · rw [Bindings.get?_bind, Bindings.get?_bind, h.vars a other hn]
    · exact h.vars a other hn
  · show s'.define f name v = _
    conv_lhs => rw [h.rest]
    rfl

/-- The second store alone may bind the name. -/
theorem defineBesides (f : FrameId) (v : Value) : s.Beside g (s'.define f g.mark.text v) := by
  refine ⟨by simp [Store.define, h.frames], fun a => ?_, fun a other hn => ?_, h.functions,
    h.function, ?_⟩
  · rw [Store.frame_define]
    split
    · exact h.parent a
    · exact h.parent a
  · rw [Store.frame_define]
    split
    · rw [Bindings.get?_bind, if_neg hn]
      exact h.vars a other hn
    · exact h.vars a other hn
  · show s'.define f g.mark.text v = _
    conv_lhs => rw [h.rest]
    rfl

theorem withFunction {closure closure' : Closure} (hc : closure.Gains g closure') :
    (s.withFunction closure).Beside g (s'.withFunction closure') := by
  refine ⟨h.frames, h.parent, h.vars, by simp [Store.withFunction, h.functions], fun id => ?_, ?_⟩
  · rw [Store.function_withFunction, Store.function_withFunction, h.functions]
    split
    · exact hc
    · exact h.function id
  · show s'.withFunction closure' = _
    conv_lhs => rw [h.rest]
    rfl

/-- A step beside frames and functions. -/
theorem aside {m : Store → Store} (hm : Pair.Aside m) : (m s).Beside g (m s') := by
  refine ⟨?_, fun f => ?_, fun f name hn => ?_, ?_, fun id => ?_, ?_⟩
  · rw [hm.frames, hm.frames, h.frames]
  · rw [hm.frame, hm.frame, h.parent]
  · rw [hm.frame, hm.frame, h.vars f name hn]
  · rw [hm.functions, hm.functions, h.functions]
  · rw [hm.function, hm.function]
    exact h.function id
  · rw [hm.frames, hm.functions, ← hm]
    exact congrArg m h.rest

end Store.Beside

/-- A store in which no function says the name stands beside itself. -/
theorem Store.beside_self {s : Store} (h : ∀ id, g.Unsaid (functionMarks (s.function id).decl)) :
    s.Beside g s where
  frames := rfl
  parent _ := rfl
  vars _ _ _ := rfl
  functions := rfl
  function id := ⟨Construct.Gains.call .function (.refl (h id)), rfl, rfl⟩
  rest := rfl

end Lox
