/-
# Statements in frames that match

If the evaluations further in keep to the open scopes, so does the execution
of a statement around them: the frame matches the scopes behind the statement,
where its name is ready if it declares one. So all evaluations keep to the
scopes, to any number of steps.

Key theorems: `Lox.Holds.execLoop`, `Lox.Holds.execClass`, `Lox.Holds.execStmt`,
`Lox.keeps_watched`.
-/
import Lox.Proofs.Running.Expressions

namespace Lox

open Procedure

variable {P : Visit → Prop} {w w' : World} {σ : Scoping} {os : List Opener} {f : FrameId}

/-- While a variable is initialized, its name is neither ready nor bound. -/
theorem Matches.initializing (hm : Matches w σ.scopes os f) {m : Mark}
    (hs : (σ.initializing m).Silent) : Matches w (σ.initializing m).scopes os f := by
  obtain ⟨heq, hfresh⟩ := Scoping.initializing_of_silent hs
  rw [heq]
  cases hscopes : σ.scopes with
  | nil => exact hm
  | cons scope outer =>
    rw [hscopes] at hm
    have hc : scope.contains m.text = false := hfresh scope (by simp [hscopes])
    obtain ⟨hmirrors, hexact⟩ := hm
    have hnot : ¬ w.store.Binds f m.text := by
      intro hb
      rw [Bindings.contains, hexact scope rfl _ hb] at hc
      cases hc
    cases hmirrors with
    | inside hf hready hnames hp hm =>
      refine ⟨.inside hf (fun name hr => ?_) hnames hp hm, ?_⟩
      · rw [Bindings.get?_bind] at hr
        split at hr
        · cases hr
        · exact hready name hr
      · intro first hfirst name hb
        cases hfirst
        have hne : name ≠ m.text := fun heq => hnot (heq ▸ hb)
        rw [Bindings.get?_bind, if_neg hne]
        exact hexact scope rfl name hb

namespace Holds

variable (hst : Stock P) {inner : Watch → Evaluator} (hk : Keeps P inner)

include hst hk

omit hst in
/-- An expression leaves the frame as it was. -/
theorem exprInFrame {e : Expr} {τ : Scoping} (hP : P ⟨.expr e, τ, os⟩) (hs : Sound P w)
    (hr : Runs w ⟨.expr e, τ, os⟩ f) (hm : Matches w σ.scopes os f) :
    Holds P (some f) w (fun watch => (inner watch).expr (τ.boundExpr e) f)
      fun w' v => Known P w' v ∧ Matches w' σ.scopes os f := by
  refine ((hk.expr hP hs hr).mono fun w' v hle hs' hv => ?_).loosen
  exact ⟨hv, hm.mono hs.toFramed hs'.toFramed hle⟩

/-- Each turn of a loop leaves the frame as it was. -/
theorem execLoop {cond : Expr} {body : Stmt} (hPcond : P ⟨.expr cond, σ, os⟩)
    (hPbody : P ⟨.stmt body, σ, os⟩) (hd : body.declared? = none) (turns : Nat) (hs : Sound P w)
    (hm : Matches w σ.scopes os f) :
    Holds P (some f) w
      (fun watch => execLoop (inner watch) (σ.boundExpr cond) (σ.boundStmt body) f turns)
      (Goes P σ.scopes os f) := by
  induction turns generalizing w with
  | zero => exact halt hs trivial fun _ h => nomatch h
  | succ turns ih =>
    simp only [Lox.execLoop]
    refine bind (exprInFrame hk hPcond hs (.inside hm) hm) fun w1 v _ hs1 hq => ?_
    split
    · refine bind (hk.stmt hPbody hs1 hq.2) fun w2 flow _ hs2 hflow => ?_
      rw [hst.behindStmt_eq hPbody, Scoping.behind_of_declared hd] at hflow
      cases flow with
      | next => exact ih hs2 hflow
      | returning v => exact pure hs2 hflow
    · exact pure hs1 hq.2

/-! ### Classes -/

omit hk in
/-- Methods are made in a frame that mirrors the scopes outside that of the receiver. -/
theorem makeMethods {ms : List Fun} {cls : Mark} {inside : FrameId} {made : Bindings FunctionId}
    {τ : Scoping} (hP : P ⟨.methods ms, τ, .receiver cls :: os⟩) (hs : Sound P w)
    (hm : Mirrors w τ.scopes.tail os inside)
    (hmade : ∀ name m, made.get? name = some m → Bindable P w name m) :
    Holds P none w (fun _ => makeMethods inside (τ.boundMethods ms) made)
      fun w' made' => ∀ name m, made'.get? name = some m → Bindable P w' name m := by
  induction ms generalizing w made with
  | nil => exact pure hs hmade
  | cons m ms ih =>
    have hPm : P ⟨.function (methodKind m.name) m, τ, .receiver cls :: os⟩ :=
      hst.part hP (List.mem_cons_self ..)
    have hPms : P ⟨.methods ms, τ.behindFunction (methodKind m.name) m, .receiver cls :: os⟩ :=
      hst.part hP (by simp [Visit.parts])
    rw [(hst.clean hPm).behindFunction_eq (hst.standing hPm).1.pending] at hPms
    let bound := τ.boundFunction (methodKind m.name) m
    let closure : Closure := ⟨bound, inside, bound.name.text = Store.initName⟩
    show Holds P none w (fun _ => Run.newFunction closure >>= fun id =>
      Lox.makeMethods inside ((τ.behindFunction (methodKind m.name) m).boundMethods ms)
        (made.bind bound.name.text id)) _
    rw [(hst.clean hPm).behindFunction_eq (hst.standing hPm).1.pending]
    let w1 := w.set (w.store.withFunction closure)
    have hwritten : WrittenAt P closure.decl := ⟨_, _, _, _, hPm, rfl⟩
    have hs1 : Sound P w1 := hs.withFunction hwritten
    have hle1 : w.Le none w1 := World.le_withFunction closure
    have hfunction : w1.store.function w.store.functions.size = closure :=
      (Store.function_withFunction ..).trans (if_pos rfl)
    have hnew : Bindable P w1 bound.name.text w.store.functions.size := by
      refine .of ?_ hPm (by rw [hfunction]) (by rw [Scoping.boundFunction_name]) (by rw [hfunction]) ?_
      · simp [w1, World.set, Store.withFunction]
      · rw [hfunction]
        exact hm.mono hs1.toFramed hle1
    have hstep : Holds P none w (fun _ => Run.newFunction closure)
        fun w' id => w' = w1 ∧ id = w.store.functions.size := step rfl hle1 hs1 ⟨rfl, rfl⟩
    refine bind hstep fun w2 id _ _ heq => ?_
    obtain ⟨rfl, rfl⟩ := heq
    refine ih hPms hs1 (hm.mono hs1.toFramed hle1) fun name m' hm' => ?_
    rw [Bindings.get?_bind] at hm'
    split at hm'
    · rename_i hname
      cases hm'
      rw [hname]
      exact hnew
    · exact (hmade name m' hm').mono hs1.toFramed hle1

omit hst hk in
/-- A name that the frame binds is bound anew there. -/
theorem assignOwn {m : Mark} {v : Value} (hs : Sound P w) (hb : w.store.Binds f m.text)
    (hv : Known P w v) : Holds P none w (fun _ => Run.assign f m v) fun _ _ => True := by
  unfold Run.assign
  refine read ?_
  rw [Store.holder?_of_binds hb]
  exact step rfl (World.le_redefine hb.lt hb) (hs.redefine hb.lt hb hv) trivial

omit hk in
/-- A class is made of its methods, and takes the place of what its name was bound to. -/
theorem makeClass {ms : List Fun} {cls name : Mark} {inside : FrameId} {τ : Scoping}
    {superclass : Option ClassId} (hP : P ⟨.methods ms, τ, .receiver cls :: os⟩) (hs : Sound P w)
    (hm : Mirrors w τ.scopes.tail os inside) (hb : w.store.Binds f name.text) :
    Holds P none w (fun _ => do
      let made ← Lox.makeMethods inside (τ.boundMethods ms) .empty
      let c ← Run.newClass ⟨name.text, superclass, made⟩
      Run.assign f name (.classRef c)) fun _ _ => True := by
  refine bind (makeMethods hst hP hs hm fun _ _ h => nomatch h) fun w1 made hle1 hs1 hmade => ?_
  let object : ClassObject := ⟨name.text, superclass, made⟩
  let w2 := w1.set (w1.store.withClass object)
  have hs2 : Sound P w2 := hs1.withClass hmade
  have hle2 : w1.Le none w2 :=
    World.le_of_frames rfl (Nat.le_refl _) (fun _ _ => rfl) (Nat.le_refl _) fun _ _ => rfl
  have hstep : Holds P none w1 (fun _ => Run.newClass object) fun w' _ => w' = w2 :=
    step rfl hle2 hs2 rfl
  refine bind hstep fun _ c _ _ heq => ?_
  subst heq
  exact assignOwn hs2 (hle1.bound f hb.lt _ hb) trivial

omit hst hk in
/-- The name of a class is bound before its methods are made. -/
theorem defineClass {name : Mark} {run : Watch → Run Unit}
    (hdeclared : ∀ o ∈ os.head?, name.text ∈ o.names) (hs : Sound P w)
    (hm : Matches w σ.scopes os f)
    (hrun : ∀ w', Sound P w' → Matches w' (σ.define name).scopes os f →
      w'.store.Binds f name.text → Holds P none w' run fun _ _ => True) :
    Holds P (some f) w (fun watch => Run.define f name.text .nil >>= fun _ => run watch)
      fun w' _ => Matches w' (σ.define name).scopes os f := by
  obtain ⟨hm1, hname⟩ := hm.define (v := .nil) hs.toFramed hdeclared
  have hf := hm.mirrors.lt hs.toFramed
  have hs1 := hs.define (v := .nil) hf hname trivial
  have hb : (w.store.define f name.text .nil).Binds f name.text :=
    (Store.binds_define hf).mpr (.inl ⟨rfl, rfl⟩)
  have hstep : Holds P (some f) w (fun _ => Run.define f name.text .nil)
      fun w' _ => w' = w.set (w.store.define f name.text .nil) :=
    step rfl (World.le_define hf) hs1 rfl
  refine bind hstep fun w1 _ _ _ heq => ?_
  subst heq
  refine ((hrun _ hs1 hm1 hb).mono fun w' _ hle hs' _ => ?_).loosen
  exact hm1.mono hs1.toFramed hs'.toFramed hle

omit hk in
/-- Behind a class its name is bound. -/
theorem execPlainClass {name : Mark} {ms : List Fun}
    (hP : P ⟨.stmt (.classDecl name none ms), σ, os⟩) (hs : Sound P w)
    (hm : Matches w σ.scopes os f) :
    Holds P (some f) w (fun watch => execClass (inner watch) name none
        (((σ.declaringClass name).enter ["this"]).boundMethods ms) f)
      fun w' _ => Matches w' (σ.define name).scopes os f := by
  have hPms : P ⟨.methods ms, (σ.declaringClass name).enter ["this"], .receiver name :: os⟩ :=
    hst.part hP (List.mem_singleton_self _)
  have hd := Scoping.declaringClass_of_silent ((hst.clean hPms).silent.of_le
    (Scoping.le_behindMethods ms ((σ.declaringClass name).enter ["this"])))
  show Holds P (some f) w (fun _ => Run.define f name.text .nil >>= fun _ => do
    let made ← Lox.makeMethods f (((σ.declaringClass name).enter ["this"]).boundMethods ms) .empty
    let c ← Run.newClass ⟨name.text, none, made⟩
    Run.assign f name (.classRef c)) _
  refine defineClass (hst.declared hP rfl) hs hm fun w1 hs1 hm1 hb => ?_
  refine makeClass hst hPms hs1 ?_ hb
  show Mirrors w1 (σ.declaringClass name).scopes os f
  rw [hd]
  exact hm1.mirrors

/-- The methods of a class with a superclass are made in a frame that binds that. -/
theorem execSubclass {name : Mark} {use : NameUse} {ms : List Fun}
    (hP : P ⟨.stmt (.classDecl name (some use) ms), σ, os⟩) (hs : Sound P w)
    (hm : Matches w σ.scopes os f) :
    Holds P (some f) w (fun watch => execClass (inner watch) name
        (some ⟨use.name, (σ.inheriting name use).hops? use.name.text⟩)
        (((((σ.inheriting name use).behindExpr (.variable use)).enter ["super"]).enter
          ["this"]).boundMethods ms) f)
      fun w' _ => Matches w' (σ.define name).scopes os f := by
  have hPuse : P ⟨.expr (.variable use), σ.inheriting name use, os⟩ :=
    hst.part hP (List.mem_cons_self ..)
  have hPms : P ⟨.methods ms, (((σ.inheriting name use).behindExpr (.variable use)).enter
      ["super"]).enter ["this"], .receiver name :: .superclass name :: os⟩ :=
    hst.part hP (by simp [Visit.parts])
  obtain ⟨hi, hne⟩ := Scoping.inheriting_of_silent ((hst.clean hPuse).silent.of_le
    (Scoping.le_behindExpr (.variable use) _))
  have hruns : Runs w ⟨.expr (.variable use), σ.inheriting name use, os⟩ f := by
    rw [hi]
    exact .superclass hne hm
  have hexpr := hk.expr hPuse hs hruns
  rw [Scoping.boundExpr_variable] at hexpr
  have huse : Holds P none w (fun watch => Lox.evalSuperclass (inner watch)
      ⟨use.name, (σ.inheriting name use).hops? use.name.text⟩ f) fun w' _ =>
        Matches w' σ.scopes os f := by
    refine bind hexpr fun w1 v hle1 hs1 _ => ?_
    cases v with
    | classRef c => exact pure hs1 (hm.mono hs.toFramed hs1.toFramed hle1)
    | const _ | native _ | function _ | method _ | instanceRef _ => exact fail hs1
  refine bind (huse.map some).loosen fun w1 superclass _ hs1 hq => ?_
  obtain ⟨c, rfl, hm1⟩ := hq
  refine defineClass (hst.declared hP rfl) hs1 hm1 fun w2 hs2 hm2 hb => ?_
  let w3 := w2.binding f (.superclass name) "super" (.classRef c)
  have hs3 : Sound P w3 := hs2.binding trivial rfl
  have hle3 : w2.Le none w3 := World.le_binding ..
  have hframe : Holds P none w2 (fun _ => methodFrame (some c) f)
      fun w' inside => w' = w3 ∧ inside = w2.store.frames.size := step rfl hle3 hs3 ⟨rfl, rfl⟩
  refine bind hframe fun _ _ _ _ heq => ?_
  obtain ⟨rfl, rfl⟩ := heq
  refine makeClass hst hPms hs3 ?_ (hle3.bound f hb.lt _ hb)
  show Mirrors w3 (((σ.inheriting name use).behindExpr (.variable use)).enter ["super"]).scopes _ _
  rw [hst.behindExpr_eq hPuse, hi]
  refine hm2.mirrors.binding hs3.toFramed rfl fun other hr => ?_
  by_cases ho : other = "super"
  · exact ho
  · simp [Bindings.get?, Bindings.find?, ho] at hr

/-! ### Every statement -/

omit hk in
/-- A function finds itself bound in the frame that it was made in. -/
theorem makeFunction {decl : Fun} (hP : P ⟨.stmt (.function decl), σ, os⟩) (hs : Sound P w)
    (hm : Matches w σ.scopes os f) :
    Holds P (some f) w (fun watch => execStmt (inner watch) (σ.boundStmt (.function decl)) f)
      (Goes P (σ.define decl.name).scopes os f) := by
  have hPf : P ⟨.function .function decl, (σ.declare decl.name).define decl.name, os⟩ :=
    hst.part hP (List.mem_singleton_self _)
  have hfresh : σ.Fresh decl.name.text :=
    Scoping.fresh_of_silent ((hst.clean hPf).silent.of_le
      ((Scoping.le_define _ decl.name).trans (Scoping.le_behindFunction .function decl _)))
  have hbound : σ.boundStmt (.function decl) = .function ((σ.define decl.name).boundFunction
      .function decl) := by
    rw [← Scoping.define_declare hfresh]
    rfl
  rw [Scoping.define_declare hfresh] at hPf
  rw [hbound]
  let bound := (σ.define decl.name).boundFunction .function decl
  have hname : bound.name = decl.name := Scoping.boundFunction_name .function decl
  let closure : Closure := ⟨bound, f, false⟩
  let w1 := w.set (w.store.withFunction closure)
  have hwritten : WrittenAt P closure.decl := ⟨_, _, _, _, hPf, rfl⟩
  have hs1 : Sound P w1 := hs.withFunction hwritten
  have hle1 : w.Le none w1 := World.le_withFunction closure
  have hm1 : Matches w1 σ.scopes os f := hm.mono hs.toFramed hs1.toFramed hle1
  let id := w.store.functions.size
  obtain ⟨hm2, hconfined⟩ := hm1.define (v := .function id) hs1.toFramed (hst.declared hP rfl)
  have hf := hm1.mirrors.lt hs1.toFramed
  have hfunction : (w1.set (w1.store.define f decl.name.text (.function id))).store.function id =
      closure := (Store.function_withFunction ..).trans (if_pos rfl)
  have hknown : Known P (w1.set (w1.store.define f decl.name.text (.function id)))
      (.function id) := by
    have hplain : ((w1.set (w1.store.define f decl.name.text (.function id))).store.function
        id).isInitializer = false := by rw [hfunction]
    refine ⟨.of ?_ hPf (by rw [hfunction]) ?_ (fun hi => ?_) ?_, hplain⟩
    · simp [id, w1, World.set, Store.withFunction, Store.define]
    · rw [hplain]
      decide
    · rw [hplain] at hi
      cases hi
    · rw [hfunction]
      exact hm2.mirrors
  have hs2 := hs1.define_of hf hconfined (.inr hknown)
  have hrun : execStmt (inner .quiet) (.function bound) f w.store =
      (.ok .next, (w1.set (w1.store.define f decl.name.text (.function id))).store) := by
    rw [← hname]
    rfl
  exact step hrun (hle1.loosen.trans (World.le_define hf)) hs2 hm2

/-- The name of a variable is bound behind its initializer. -/
theorem execVar {name : Mark} {initial : Option Expr} (hP : P ⟨.stmt (.var name initial), σ, os⟩)
    (hs : Sound P w) (hm : Matches w σ.scopes os f) :
    Holds P (some f) w (fun watch => execStmt (inner watch) (σ.boundStmt (.var name initial)) f)
      (Goes P (σ.define name).scopes os f) := by
  have hdefine : ∀ {w : World} {v : Value}, Sound P w → Matches w σ.scopes os f → Known P w v →
      Holds P (some f) w (fun _ => Run.define f name.text v >>= fun _ => Pure.pure Flow.next)
        (Goes P (σ.define name).scopes os f) :=
    fun hs hm hv => bind (define hs hm (hst.declared hP rfl) hv) fun _ _ _ hs' hm' => pure hs' hm'
  cases initial with
  | none => exact hdefine (v := .nil) hs hm trivial
  | some e =>
    have hPe : P ⟨.expr e, σ.initializing name, os⟩ := hst.part hP (List.mem_singleton_self _)
    have hm0 := hm.initializing ((hst.clean hPe).silent.of_le (Scoping.le_behindExpr e _))
    rw [Scoping.boundStmt_var]
    exact bind (exprInFrame hk hPe hs (.inside hm0) hm) fun w1 v _ hs1 hq => hdefine hs1 hq.2 hq.1

/-- A block runs in a frame of its own, and leaves no name in those that were there. -/
theorem execBlock {body : List Stmt} (hP : P ⟨.stmt (.block body), σ, os⟩) (hs : Sound P w)
    (hm : Matches w σ.scopes os f) :
    Holds P none w (fun watch => execStmt (inner watch) (σ.boundStmt (.block body)) f)
      (Goes P σ.scopes os f) := by
  have hPbody : P ⟨.body body, σ.enter [], .block body :: os⟩ :=
    hst.part hP (List.mem_singleton_self _)
  have hs1 := hs.withFrame f (.block body)
  have hm1 := Matches.enter hs.toFramed hm.mirrors (.block body)
  have hinside := execBody hst (fun hP hs hm => hk.stmt hP hs hm) hPbody hs1 hm1
  have hrun : ∀ watch, Lox.execStmt (inner watch) (σ.boundStmt (.block body)) f w.store =
      Lox.execBody (inner watch).stmt ((σ.enter []).boundBody body) w.store.frames.size
        (w.withFrame f (.block body)).store := fun _ => rfl
  refine (close (World.le_withFrame f (.block body)) (Nat.le_refl _) hrun hinside).mono
    fun w' flow hle hs' hq => ?_
  cases flow with
  | next => exact hm.mono hs.toFramed hs'.toFramed hle
  | returning v => exact hq v rfl

/-- A statement that declares nothing leaves the frame as it was. -/
theorem stmtInFrame {s : Stmt} (hP : P ⟨.stmt s, σ, os⟩) (hd : s.declared? = none) (hs : Sound P w)
    (hm : Matches w σ.scopes os f) :
    Holds P (some f) w (fun watch => (inner watch).stmt (σ.boundStmt s) f)
      (Goes P σ.scopes os f) := by
  have h := hk.stmt hP hs hm
  rwa [hst.behindStmt_eq hP, Scoping.behind_of_declared hd] at h

/-- Neither way of a branch declares anything. -/
theorem execBranch {cond : Expr} {yes : Stmt} {no : Option Stmt}
    (hP : P ⟨.stmt (.branch cond yes no), σ, os⟩) (hs : Sound P w) (hm : Matches w σ.scopes os f) :
    Holds P (some f) w (fun watch => execStmt (inner watch) (σ.boundStmt (.branch cond yes no)) f)
      (Goes P σ.scopes os f) := by
  have hregular := (hst.clean hP).regular
  have hPcond : P ⟨.expr cond, σ, os⟩ := by
    cases no with
    | none | some _ => exact hst.part hP (List.mem_cons_self ..)
  have hPyes : P ⟨.stmt yes, σ.behindExpr cond, os⟩ := by
    cases no with
    | none | some _ => exact hst.part hP (by simp [Visit.parts])
  rw [hst.behindExpr_eq hPcond] at hPyes
  have hcond := exprInFrame hk hPcond hs (.inside hm) hm
  cases no with
  | none =>
    show Holds P (some f) w (fun watch => (inner watch).expr (σ.boundExpr cond) f >>= fun v =>
      if v.truthy then (inner watch).stmt ((σ.behindExpr cond).boundStmt yes) f
      else Pure.pure .next) _
    rw [hst.behindExpr_eq hPcond]
    refine bind hcond fun w1 v _ hs1 hq => ?_
    split
    · exact stmtInFrame hst hk hPyes hregular.2.2 hs1 hq.2
    · exact pure hs1 hq.2
  | some no =>
    have hPno : P ⟨.stmt no, (σ.behindExpr cond).behindStmt yes, os⟩ :=
      hst.part hP (by simp [Visit.parts])
    have hyes := hst.behindStmt_eq hPyes
    rw [Scoping.behind_of_declared hregular.2.1.2] at hyes
    rw [hst.behindExpr_eq hPcond, hyes] at hPno
    show Holds P (some f) w (fun watch => (inner watch).expr (σ.boundExpr cond) f >>= fun v =>
      if v.truthy then (inner watch).stmt ((σ.behindExpr cond).boundStmt yes) f
      else (inner watch).stmt (((σ.behindExpr cond).behindStmt yes).boundStmt no) f) _
    rw [hst.behindExpr_eq hPcond, hyes]
    refine bind hcond fun w1 v _ hs1 hq => ?_
    split
    · exact stmtInFrame hst hk hPyes hregular.2.1.2 hs1 hq.2
    · exact stmtInFrame hst hk hPno hregular.2.2.2 hs1 hq.2

/-- A value is given back as it is. -/
theorem execGiveBack {keyword : Mark} {value : Option Expr}
    (hP : P ⟨.stmt (.giveBack keyword value), σ, os⟩) (hs : Sound P w)
    (hm : Matches w σ.scopes os f) :
    Holds P (some f) w
      (fun watch => execStmt (inner watch) (σ.boundStmt (.giveBack keyword value)) f)
      (Goes P σ.scopes os f) := by
  cases value with
  | none =>
    rw [Scoping.boundStmt_giveBack_none]
    exact pure (a := Flow.returning .nil) hs trivial
  | some e =>
    have hPe : P ⟨.expr e, σ.givingBack keyword, os⟩ := hst.part hP (List.mem_singleton_self _)
    have hg := Scoping.givingBack_of_silent
      ((hst.clean hPe).silent.of_le (Scoping.le_behindExpr e (σ.givingBack keyword)))
    rw [hg] at hPe
    rw [Scoping.boundStmt_giveBack, hg]
    show Holds P (some f) w (fun watch => (inner watch).expr (σ.boundExpr e) f >>= fun v =>
      Pure.pure (Flow.returning v)) _
    exact bind (exprInFrame hk hPe hs (.inside hm) hm) fun _ v _ hs1 hq => pure hs1 hq.1

/-- Behind a class its name is bound, with a superclass or without one. -/
theorem execClass {name : Mark} {superclass : Option NameUse} {ms : List Fun}
    (hP : P ⟨.stmt (.classDecl name superclass ms), σ, os⟩) (hs : Sound P w)
    (hm : Matches w σ.scopes os f) :
    Holds P (some f) w
      (fun watch => execStmt (inner watch) (σ.boundStmt (.classDecl name superclass ms)) f)
      (Goes P (σ.define name).scopes os f) := by
  have hfinish : ∀ {run : Watch → Run Unit},
      Holds P (some f) w run (fun w' _ => Matches w' (σ.define name).scopes os f) →
        Holds P (some f) w (fun watch => run watch >>= fun _ => Pure.pure Flow.next)
          (Goes P (σ.define name).scopes os f) :=
    fun h => bind h fun _ _ _ hs' hm' => pure hs' hm'
  cases superclass with
  | none => exact hfinish (execPlainClass hst hP hs hm)
  | some use =>
    rw [Scoping.boundStmt_subclass]
    exact hfinish (execSubclass hst hk hP hs hm)

theorem execStmt {s : Stmt} (hP : P ⟨.stmt s, σ, os⟩) (hs : Sound P w)
    (hm : Matches w σ.scopes os f) :
    Holds P (some f) w (fun watch => execStmt (inner watch) (σ.boundStmt s) f)
      (Goes P (σ.behindStmt s).scopes os f) := by
  have hclean := hst.clean hP
  rw [hst.behindStmt_eq hP]
  cases s with
  | expr e =>
    show Holds P (some f) w (fun watch => Functor.discard ((inner watch).expr (σ.boundExpr e) f) >>=
      fun _ => Pure.pure Flow.next) _
    have hPe : P ⟨.expr e, σ, os⟩ := hst.part hP (List.mem_singleton_self _)
    refine bind (exprInFrame hk hPe hs (.inside hm) hm).discard fun w1 _ _ hs1 hq => ?_
    obtain ⟨_, _, hm1⟩ := hq
    exact pure hs1 hm1
  | print e =>
    show Holds P (some f) w (fun watch => (inner watch).expr (σ.boundExpr e) f >>= fun v =>
      Run.print v >>= fun _ => Pure.pure Flow.next) _
    have hPe : P ⟨.expr e, σ, os⟩ := hst.part hP (List.mem_singleton_self _)
    refine bind (exprInFrame hk hPe hs (.inside hm) hm) fun w1 v _ hs1 hq => ?_
    let s2 := { w1.store with output := w1.store.output.push (w1.store.display v) }
    have hle2 : w1.Le none (w1.set s2) :=
      World.le_of_frames rfl (Nat.le_refl _) (fun _ _ => rfl) (Nat.le_refl _) fun _ _ => rfl
    have hs2 : Sound P (w1.set s2) := hs1.of_same hle2 rfl rfl rfl rfl
    exact step (a := Flow.next) rfl hle2.loosen hs2 (hq.2.mono hs1.toFramed hs2.toFramed hle2)
  | var name initial => exact execVar hst hk hP hs hm
  | block body => exact (execBlock hst hk hP hs hm).loosen
  | branch cond yes no => exact execBranch hst hk hP hs hm
  | loop cond body =>
    have hPcond : P ⟨.expr cond, σ, os⟩ := hst.part hP (List.mem_cons_self ..)
    have hPbody : P ⟨.stmt body, σ.behindExpr cond, os⟩ := hst.part hP (by simp [Visit.parts])
    show Holds P (some f) w (fun watch => Lox.execLoop (inner watch) (σ.boundExpr cond)
      ((σ.behindExpr cond).boundStmt body) f (inner watch).turns) _
    rw [hst.behindExpr_eq hPcond] at hPbody ⊢
    simp only [hk.turns]
    exact execLoop hst hk hPcond hPbody hclean.regular.2.2 _ hs hm
  | function decl => exact makeFunction hst hP hs hm
  | giveBack keyword value => exact execGiveBack hst hk hP hs hm
  | classDecl name superclass ms => exact execClass hst hk hP hs hm
  | stray node => exact hclean.regular.elim

end Holds

/-! ### Every evaluation -/

/-- To any number of steps the evaluations keep to the scopes that are open. -/
theorem keeps_watched (hst : Stock P) (turns : Nat) : ∀ steps spent,
    Keeps P fun watch => Evaluator.watched watch .recorded turns steps spent
  | 0, spent => by
    have hoverflow : ∀ {α : Type} {free : Option FrameId} {w : World} {Q : World → α → Prop},
        Sound P w → Holds P free w (fun _ => (halt .overflow : Run α)) Q :=
      fun hs => .halt hs trivial fun _ h => nomatch h
    unfold Evaluator.watched
    exact ⟨fun _ => rfl, fun _ => rfl, fun _ hs _ => hoverflow hs, fun _ hs _ => hoverflow hs,
      fun _ hs _ => hoverflow hs⟩
  | steps + 1, spent + 1 => by
    unfold Evaluator.watched
    exact keeps_watched hst turns steps spent
  | steps + 1, 0 => by
    have hstmt : ∀ {w : World} {σ : Scoping} {os : List Opener} {s : Stmt} {f : FrameId} (n : Nat),
        P ⟨.stmt s, σ, os⟩ → Sound P w → Matches w σ.scopes os f →
          Holds P (some f) w (fun watch => do
            watch (.stmt (σ.boundStmt s)) f
            Run.placed (fun _ => (σ.boundStmt s).offset?)
              (execStmt (Evaluator.watched watch .recorded turns steps n) (σ.boundStmt s) f))
            (Goes P (σ.behindStmt s).scopes os f) := by
      intro w σ os s f n hP hs hm
      refine .watch ⟨⟨Nat.le_refl _, hs⟩, _, hP, rfl, .inside hm⟩ (.placed ?_)
      refine (Holds.execStmt hst (keeps_watched hst turns steps n) hP hs hm).mono
        fun _ _ _ _ hq => ⟨hq, ?_⟩
      rintro name ⟨_, _, _, _, hsite, _⟩
      cases hsite
    unfold Evaluator.watched
    refine ⟨fun _ => rfl, fun _ => rfl, ?_, fun hP hs hm => hstmt _ hP hs hm,
      fun hP hs hm => hstmt _ hP hs hm⟩
    intro w σ os e f hP hs hm
    exact Holds.expression hst (keeps_watched hst turns steps _) hP hs hm

end Lox
