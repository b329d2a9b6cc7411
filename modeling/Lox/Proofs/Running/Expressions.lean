/-
# Expressions in frames that match

If the evaluations further in keep to the open scopes, so does the evaluation
of an expression around them: one case for each form. Its parts are evaluated
in the same frame, which binds no new name meanwhile.

Key theorems: `Lox.Holds.readVariable`, `Lox.Holds.assign`, `Lox.Holds.evalExpr`.
-/
import Lox.Proofs.Running.Calls

namespace Lox

open Procedure

variable {P : Visit → Prop} {w w' : World} {σ : Scoping} {os : List Opener} {f : FrameId}

namespace Stock

variable (hst : Stock P)

include hst

theorem behindExpr_eq {e : Expr} (hP : P ⟨.expr e, σ, os⟩) : σ.behindExpr e = σ :=
  (hst.clean hP).behindExpr_eq

theorem behindStmt_eq {s : Stmt} (hP : P ⟨.stmt s, σ, os⟩) : σ.behindStmt s = σ.behind s :=
  (hst.clean hP).behindStmt_eq (hst.standing hP).1.pending

theorem declared {s : Stmt} (hP : P ⟨.stmt s, σ, os⟩) {m : Mark} (hm : s.declared? = some m) :
    ∀ o ∈ os.head?, m.text ∈ o.names :=
  Visit.declares_stmt (hst.standing hP) hm

theorem boundExpr_assign {use : NameUse} {value : Expr} (hP : P ⟨.expr (.assign use value), σ, os⟩) :
    σ.boundExpr (.assign use value) =
      .assign ⟨use.name, σ.hops? use.name.text⟩ (σ.boundExpr value) := by
  show Expr.assign ⟨use.name, (σ.behindExpr value).hops? use.name.text⟩ _ = _
  rw [hst.behindExpr_eq (hst.part hP (List.mem_singleton_self _))]
  rfl

theorem boundExpr_receiver {use : NameUse} (hP : P ⟨.expr (.receiver use), σ, os⟩) :
    σ.boundExpr (.receiver use) = .receiver ⟨use.name, σ.hops? use.name.text⟩ := by
  have hcls := Scoping.cls_of_silent_receiver (hst.clean hP).silent
  rw [Scoping.boundExpr, Scoping.run_receiver, if_neg hcls]

end Stock

namespace Holds

/-! ### Operators -/

theorem unaryResult (hs : Sound P w) (op : Mark) (v : Value) :
    Holds P none w (fun _ => unaryResult op v) (Known P) := by
  unfold Lox.unaryResult
  split
  · split
    · exact pure hs trivial
    · exact fail hs
  · exact pure hs trivial
  · exact fail hs

theorem binaryResult (hs : Sound P w) (op : Mark) (u v : Value) :
    Holds P none w (fun _ => binaryResult op u v) (Known P) := by
  unfold Lox.binaryResult
  split
  · unfold joinOrAdd
    split
    · exact pure hs trivial
    · exact read (pure hs trivial)
    · exact read (pure hs trivial)
    · exact fail hs
  · exact pure hs trivial
  · exact pure hs trivial
  · split
    · exact fail hs
    · rename_i hg
      split
      · obtain ⟨_, hconst⟩ := arithmetic?_const hg _ _
        rw [hconst]
        exact pure hs trivial
      · exact fail hs

/-! ### Expressions -/

variable (hst : Stock P) {inner : Watch → Evaluator} (hk : Keeps P inner)

include hst hk

theorem evalArgs {es : List Expr} (hP : P ⟨.args es, σ, os⟩) (hs : Sound P w)
    (hm : Matches w σ.scopes os f) :
    Holds P none w (fun watch => evalArgs (inner watch) (σ.boundArgs es) f)
      fun w' vs => ∀ v ∈ vs, Known P w' v := by
  induction es generalizing w with
  | nil => exact pure hs fun _ h => nomatch h
  | cons e es ih =>
    have hPe : P ⟨.expr e, σ, os⟩ := hst.part hP (List.mem_cons_self ..)
    have hPes : P ⟨.args es, σ.behindExpr e, os⟩ := hst.part hP (by simp [Visit.parts])
    show Holds P none w (fun watch => (inner watch).expr (σ.boundExpr e) f >>= fun v =>
      Lox.evalArgs (inner watch) ((σ.behindExpr e).boundArgs es) f >>= fun vs =>
        Pure.pure (v :: vs)) _
    rw [hst.behindExpr_eq hPe] at hPes ⊢
    refine bind (hk.expr hPe hs (.inside hm)) fun w1 v hle1 hs1 hv => ?_
    refine bind (ih hPes hs1 (hm.mono hs.toFramed hs1.toFramed hle1)) fun w2 vs hle2 hs2 hvs => ?_
    refine pure hs2 fun u hu => ?_
    obtain rfl | hu := List.mem_cons.mp hu
    · exact hv.mono hs1.toFramed hs2.toFramed hle2
    · exact hvs u hu

omit hst hk in
/-- Where a variable is read it is ready, and so bound. -/
theorem ready_of_runs (hst : Stock P) {use : NameUse} (hP : P ⟨.expr (.variable use), σ, os⟩)
    (hm : Runs w ⟨.expr (.variable use), σ, os⟩ f) : ∃ scopes, Mirrors w scopes os f ∧
      ∀ d, σ.hops? use.name.text = some d →
        ∃ scope, scopes[d]? = some scope ∧ scope.get? use.name.text = some true := by
  have hready := Scoping.ready_of_silent (hst.clean hP).silent
  have hfound := fun d hd => Scoping.Reading.found_ready (d := d) (hst.standing hP) hd hready
  cases hm with
  | inside hm => exact ⟨σ.scopes, hm.mirrors, hfound⟩
  | @superclass σ' _ name _ _ hn hm =>
    refine ⟨σ'.scopes, hm.mirrors, fun d hd => ?_⟩
    obtain ⟨scope, hscope, hr⟩ := hfound d hd
    exact Scoping.get?_define hn hscope hr

theorem readVariable {use : NameUse} (hP : P ⟨.expr (.variable use), σ, os⟩) (hs : Sound P w)
    (hm : Runs w ⟨.expr (.variable use), σ, os⟩ f) :
    Holds P none w (fun watch => evalExpr (inner watch) (σ.boundExpr (.variable use)) f)
      (Known P) := by
  rw [Scoping.boundExpr_variable]
  show Holds P none w (fun watch => (inner watch).access.look _ f) _
  simp only [hk.access]
  obtain ⟨scopes, hmirrors, hready⟩ := ready_of_runs hst hP hm
  exact look hs hmirrors hready

/-- The parts of an expression are evaluated in the frame of the expression. -/
theorem part {e e' : Expr} (hP : P ⟨.expr e, σ, os⟩)
    (hpart : (⟨.expr e', σ, os⟩ : Visit) ∈ (⟨.expr e, σ, os⟩ : Visit).parts) (hs : Sound P w)
    (hm : Matches w σ.scopes os f) :
    Holds P none w (fun watch => (inner watch).expr (σ.boundExpr e') f) (Known P) :=
  hk.expr (hst.part hP hpart) hs (.inside hm)

theorem evalExpr {e : Expr} (hP : P ⟨.expr e, σ, os⟩) (hs : Sound P w)
    (hm : Matches w σ.scopes os f) (he : ∀ use value, e ≠ .assign use value) :
    Holds P none w (fun watch => evalExpr (inner watch) (σ.boundExpr e) f) (Known P) := by
  have hclean := hst.clean hP
  cases e with
  | literal value => exact pure hs trivial
  | grouping e => exact part hst hk hP (List.mem_singleton_self _) hs hm
  | assign use value => exact absurd rfl (he use value)
  | «variable» use => exact readVariable hst hk hP hs (.inside hm)
  | receiver use =>
    have hcls := Scoping.cls_of_silent_receiver hclean.silent
    rw [hst.boundExpr_receiver hP]
    show Holds P none w (fun watch => (inner watch).access.look _ f) _
    simp only [hk.access]
    have hreading : σ.Reading P os [⟨.receiver, use⟩] := hst.standing hP
    have hn := hreading.nested_cls (show UseKind.receiver ≠ .variable by decide)
    have hname : use.name.text = "this" := hclean.regular
    refine Holds.look hs hm.mirrors fun d hd => ?_
    rw [hname] at hd ⊢
    exact hn.receiver_ready hreading.aligned hcls hd
  | superMethod use method =>
    have hcls := Scoping.cls_of_silent_super hclean.silent
    rw [Scoping.boundExpr_superMethod]
    have hreading : σ.Reading P os [⟨.superMethod, use⟩] := hst.standing hP
    have hn := hreading.nested_cls (show UseKind.superMethod ≠ .variable by decide)
    exact superProperty hst hs hreading.aligned hn hm.mirrors hcls hclean.regular method
  | unary op e =>
    show Holds P none w (fun watch => (inner watch).expr (σ.boundExpr e) f >>= fun v =>
      Lox.unaryResult op v) _
    exact bind (part hst hk hP (List.mem_singleton_self _) hs hm) fun _ v _ hs1 _ =>
      unaryResult hs1 op v
  | get e name =>
    show Holds P none w (fun watch => (inner watch).expr (σ.boundExpr e) f >>= fun v =>
      Lox.getProperty v name) _
    exact bind (part hst hk hP (List.mem_singleton_self _) hs hm) fun _ v _ hs1 hv =>
      getProperty hst hs1 hv name
  | binary l op r =>
    have hl := hst.behindExpr_eq (hst.part hP (List.mem_cons_self ..))
    show Holds P none w (fun watch => (inner watch).expr (σ.boundExpr l) f >>= fun v =>
      (inner watch).expr ((σ.behindExpr l).boundExpr r) f >>= fun u => Lox.binaryResult op v u) _
    rw [hl]
    refine bind (part hst hk hP (List.mem_cons_self ..) hs hm) fun w1 v hle1 hs1 _ => ?_
    have hm1 := hm.mono hs.toFramed hs1.toFramed hle1
    refine bind (part hst hk hP (by simp [Visit.parts, hl]) hs1 hm1) fun _ u _ hs2 _ => ?_
    exact binaryResult hs2 op v u
  | logical l op r =>
    have hl := hst.behindExpr_eq (hst.part hP (List.mem_cons_self ..))
    show Holds P none w (fun watch => (inner watch).expr (σ.boundExpr l) f >>= fun v =>
      if v.truthy = (op.kind = .kwOr) then Pure.pure v
      else (inner watch).expr ((σ.behindExpr l).boundExpr r) f) _
    rw [hl]
    refine bind (part hst hk hP (List.mem_cons_self ..) hs hm) fun w1 v hle1 hs1 hv => ?_
    have hm1 := hm.mono hs.toFramed hs1.toFramed hle1
    split
    · exact pure hs1 hv
    · exact part hst hk hP (by simp [Visit.parts, hl]) hs1 hm1
  | ternary cond yes no =>
    have hPcond : P ⟨.expr cond, σ, os⟩ := hst.part hP (List.mem_cons_self ..)
    have hPyes : P ⟨.expr yes, σ.behindExpr cond, os⟩ := hst.part hP (by simp [Visit.parts])
    have hcond := hst.behindExpr_eq hPcond
    rw [hcond] at hPyes
    have hyes := hst.behindExpr_eq hPyes
    show Holds P none w (fun watch => (inner watch).expr (σ.boundExpr cond) f >>= fun v =>
      if v.truthy then (inner watch).expr ((σ.behindExpr cond).boundExpr yes) f
      else (inner watch).expr (((σ.behindExpr cond).behindExpr yes).boundExpr no) f) _
    rw [hcond, hyes]
    refine bind (hk.expr hPcond hs (.inside hm)) fun w1 v hle1 hs1 _ => ?_
    have hm1 := hm.mono hs.toFramed hs1.toFramed hle1
    split
    · exact hk.expr hPyes hs1 (.inside hm1)
    · exact part hst hk hP (by simp [Visit.parts, hcond, hyes]) hs1 hm1
  | call callee paren args =>
    have hPcallee : P ⟨.expr callee, σ, os⟩ := hst.part hP (List.mem_cons_self ..)
    have hPargs : P ⟨.args args, σ.behindExpr callee, os⟩ := hst.part hP (by simp [Visit.parts])
    show Holds P none w (fun watch => (inner watch).expr (σ.boundExpr callee) f >>= fun v =>
      Lox.evalArgs (inner watch) ((σ.behindExpr callee).boundArgs args) f >>= fun vs =>
        Lox.callWith (inner watch) v vs paren.offset) _
    rw [hst.behindExpr_eq hPcallee] at hPargs ⊢
    refine bind (hk.expr hPcallee hs (.inside hm)) fun w1 v hle1 hs1 hv => ?_
    have hm1 := hm.mono hs.toFramed hs1.toFramed hle1
    refine bind (evalArgs hst hk hPargs hs1 hm1) fun w2 vs hle2 hs2 hvs => ?_
    exact callWith hst hk hs2 (hv.mono hs1.toFramed hs2.toFramed hle2) hvs
  | set object name value =>
    have hvalue := hst.behindExpr_eq (hst.part hP (List.mem_cons_self ..))
    show Holds P none w (fun watch =>
      (inner watch).expr ((σ.behindExpr value).boundExpr object) f >>= _) _
    rw [hvalue]
    refine bind (part hst hk hP (by simp [Visit.parts, hvalue]) hs hm) fun w1 o hle1 hs1 _ => ?_
    have hm1 := hm.mono hs.toFramed hs1.toFramed hle1
    cases o with
    | const _ | native _ | function _ | method _ | classRef _ => exact fail hs1
    | instanceRef id =>
      refine bind (part hst hk hP (List.mem_cons_self ..) hs1 hm1) fun w2 v hle2 hs2 hv => ?_
      let made := w2.set (w2.store.setField id name.text v)
      have hs3 : Sound P made := hs2.setField hv
      have hle3 : w2.Le none made :=
        World.le_of_frames rfl (Nat.le_refl _) (fun _ _ => rfl) (Nat.le_refl _) fun _ _ => rfl
      exact step rfl hle3 hs3 (hv.mono hs2.toFramed hs3.toFramed hle3)
  | stray node => exact hclean.regular.elim

/-- A variable that is assigned too early is not assigned at all. -/
theorem assign {use : NameUse} {value : Expr} {offset : Unit → Option Int}
    (hP : P ⟨.expr (.assign use value), σ, os⟩) (hs : Sound P w) (hm : Matches w σ.scopes os f) :
    Holds P none w (fun watch => do
      watch (.expr (σ.boundExpr (.assign use value))) f
      Run.placed offset (Lox.evalExpr (inner watch) (σ.boundExpr (.assign use value)) f))
      (Known P) := by
  have hPv : P ⟨.expr value, σ, os⟩ := hst.part hP (List.mem_singleton_self _)
  let t : Moment := ⟨.expr (σ.boundExpr (.assign use value)), f, w.store⟩
  have ht : Explained P w t := ⟨⟨Nat.le_refl _, hs⟩, _, hP, rfl, .inside hm⟩
  have hbound := hst.boundExpr_assign hP
  have hrun : ∀ watch, Lox.evalExpr (inner watch) (σ.boundExpr (.assign use value)) f =
      (inner watch).expr (σ.boundExpr value) f >>= fun v =>
        Access.recorded.store ⟨use.name, σ.hops? use.name.text⟩ v f >>= fun _ => Pure.pure v := by
    intro watch
    rw [hbound, ← hk.access watch]
    rfl
  have hvalue := hk.expr hPv hs (.inside hm)
  by_cases hearly : ∃ name, t.Premature name
  · obtain ⟨name, hname⟩ := hearly
    obtain ⟨use', value', d, a, hsite, rfl, hd, ha, hb⟩ := id hname
    cases hbound.symm.trans (Site.expr.inj hsite)
    obtain ⟨w1, r, hle1, hs1, hr, hf, hrun1⟩ := hvalue
    cases r with
    | error fault =>
      have hfails : Holds P none w (fun watch => (inner watch).expr (σ.boundExpr value) f)
          fun _ _ => False := ⟨w1, .error fault, hle1, hs1, hr, hf, hrun1⟩
      refine watch ht (placed ?_)
      simp only [hrun]
      exact bind hfails fun _ _ _ _ h => h.elim
    | ok v =>
      -- what the frame did not bind before, it does not bind when the value is there
      have hm1 := hm.mono hs.toFramed hs1.toFramed hle1
      have ha1 := (hm.mirrors.ancestor_eq hs.toFramed hs1.toFramed hle1 d).trans ha
      obtain ⟨scope, hscope, _⟩ := hopsIn?_eq_some hd
      obtain ⟨a', ha', _, hma⟩ := hm.mirrors.ancestor (List.getElem?_eq_some_iff.mp hscope).1
      cases ha.symm.trans ha'
      have hb1 : ¬ w1.store.Binds a use.name.text := fun hb1 =>
        hb (hle1.still a (hma.lt hs.toFramed) (by simp) _ hb1)
      refine ⟨w1, .error (.diverged (.unbound use.name.text d)), hle1, hs1,
        (hst.standing hP).fair hm1.mirrors (List.mem_cons_self ..) hd ha1 hb1,
        fun name d' heq => ?_, fun watch hw => ?_⟩
      · cases heq
        exact ⟨t, hname, comes_watch⟩
      · have hpass : watch t.site t.frame t.store = (.ok (), t.store) :=
          hw t (ht.mono hle1) fun h => nomatch h
        have hstore : Access.recorded.store ⟨use.name, σ.hops? use.name.text⟩ v f w1.store =
            (.error (.diverged (.unbound use.name.text d)), w1.store) := by
          rw [show σ.hops? use.name.text = some d from hd]
          exact (assignAt_eq ha1).trans (if_neg hb1)
        refine (bind_ok hpass).trans (placed_error rfl ?_)
        rw [hrun]
        exact (bind_ok (hrun1 watch (hw.earlier (.refl none w1)))).trans (bind_error hstore)
  · refine watch ht (placed ?_)
    simp only [hrun]
    refine bind hvalue fun w1 v hle1 hs1 hv => ?_
    have hm1 := hm.mono hs.toFramed hs1.toFramed hle1
    refine bind (store hs1 hm1.mirrors hv fun d a hd ha => ?_) fun w2 _ hle2 hs2 _ =>
      pure hs2 ⟨hv.mono hs1.toFramed hs2.toFramed hle2, fun name h => hearly ⟨name, h⟩⟩
    -- what the frame bound before, it binds when the value is there
    have ha0 := (hm.mirrors.ancestor_eq hs.toFramed hs1.toFramed hle1 d).symm.trans ha
    have hb : w.store.Binds a use.name.text := Classical.byContradiction fun hb =>
      hearly ⟨_, _, _, d, a, congrArg Site.expr hbound, rfl, hd, ha0, hb⟩
    exact hle1.bound a hb.lt _ hb

/-- An expression has a value that is known. -/
theorem expression {e : Expr} (hP : P ⟨.expr e, σ, os⟩) (hs : Sound P w)
    (hm : Runs w ⟨.expr e, σ, os⟩ f) :
    Holds P none w (fun watch => do
      watch (.expr (σ.boundExpr e)) f
      Run.placed (fun _ => (σ.boundExpr e).offset?)
        (Lox.evalExpr (inner watch) (σ.boundExpr e) f)) (Known P) := by
  have ht : Explained P w ⟨.expr (σ.boundExpr e), f, w.store⟩ :=
    ⟨⟨Nat.le_refl _, hs⟩, _, hP, rfl, hm⟩
  -- only an assignment can be premature, and the pass makes assignments of assignments only
  have hlate : (∀ use value, σ.boundExpr e ≠ .assign use value) → ∀ name,
      ¬ (Moment.mk (.expr (σ.boundExpr e)) f w.store).Premature name := by
    rintro h name ⟨use, value, _, _, hsite, _, _⟩
    exact h use value (Site.expr.inj hsite)
  by_cases hv : ∃ use, e = .variable use
  · obtain ⟨use, rfl⟩ := hv
    exact watch ht (placed ((readVariable hst hk hP hs hm).mono fun _ _ _ _ hq =>
      ⟨hq, hlate fun _ _ h => nomatch h⟩))
  have hmatch : Matches w σ.scopes os f := by
    cases hm with
    | inside hm => exact hm
    | superclass _ _ => exact absurd ⟨_, rfl⟩ hv
  by_cases ha : ∃ use value, e = .assign use value
  · obtain ⟨use, value, rfl⟩ := ha
    exact assign hst hk hP hs hmatch
  · refine watch ht (placed ((evalExpr hst hk hP hs hmatch fun use value h =>
      ha ⟨use, value, h⟩).mono fun _ _ _ _ hq => ⟨hq, hlate ?_⟩))
    intro use value h
    cases e with
    | assign use value => exact ha ⟨use, value, rfl⟩
    | receiver use =>
      rw [hst.boundExpr_receiver hP] at h
      cases h
    | superMethod use method =>
      rw [Scoping.boundExpr_superMethod] at h
      cases h
    | _ => cases h

end Holds

end Lox
