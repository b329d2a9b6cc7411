/-
# Trees that the pass of names makes past idle scopes

What the pass makes of a part of a program in one place sheds the idle scopes,
and is what it makes of it in a place that is the same without them. Nothing
is reported there, and the marks of the part have offsets (`Lox.Visit.Tidy`).

Key definitions: `Lox.Construct.marks`, `Lox.Visit.Tidy`.
Key theorems: `Lox.Visit.Tidy.part`, `Lox.Expr.sheds_bound`, `Lox.Stmt.sheds_bound`,
`Lox.functionSheds_bound`.
-/
import Lox.Proofs.Grammar.Marks
import Lox.Proofs.Idle.Scoping

namespace Lox

open Scoping

/-- The marks in a part. -/
def Construct.marks : Construct → List Mark
  | .expr e => e.marks
  | .args es => argMarks es
  | .stmt s => s.marks
  | .body stmts => bodyMarks stmts
  | .function _ decl => functionMarks decl
  | .methods decls => methodMarks decls

/-- A clean place, where all marks have an offset. -/
structure Visit.Tidy (v : Visit) : Prop extends v.Clean where
  placed : ∀ m ∈ v.construct.marks, m.Placed

namespace Visit

theorem marks_part : ∀ {v w : Visit}, w ∈ v.parts → w.construct.marks ⊆ v.construct.marks
  | ⟨.expr (.literal _), _, _⟩, _, h | ⟨.expr (.variable _), _, _⟩, _, h
  | ⟨.expr (.receiver _), _, _⟩, _, h | ⟨.expr (.superMethod _ _), _, _⟩, _, h
  | ⟨.expr (.stray _), _, _⟩, _, h | ⟨.args [], _, _⟩, _, h | ⟨.stmt (.var _ none), _, _⟩, _, h
  | ⟨.stmt (.giveBack _ none), _, _⟩, _, h | ⟨.stmt (.stray _), _, _⟩, _, h
  | ⟨.body [], _, _⟩, _, h | ⟨.methods [], _, _⟩, _, h => nomatch h
  | ⟨.expr (.grouping _), _, _⟩, _, h | ⟨.stmt (.expr _), _, _⟩, _, h
  | ⟨.stmt (.print _), _, _⟩, _, h | ⟨.stmt (.block _), _, _⟩, _, h
  | ⟨.stmt (.function _), _, _⟩, _, h => by
    obtain rfl := List.mem_singleton.mp h
    exact List.Subset.refl _
  | ⟨.expr (.unary _ _), _, _⟩, _, h | ⟨.expr (.assign _ _), _, _⟩, _, h
  | ⟨.stmt (.var _ (some _)), _, _⟩, _, h | ⟨.stmt (.giveBack _ (some _)), _, _⟩, _, h
  | ⟨.stmt (.classDecl _ none _), _, _⟩, _, h => by
    obtain rfl := List.mem_singleton.mp h
    exact List.subset_cons_self _ _
  | ⟨.expr (.get _ _), _, _⟩, _, h => by
    obtain rfl := List.mem_singleton.mp h
    exact List.subset_append_left _ _
  | ⟨.function _ ⟨_, _, _⟩, _, _⟩, _, h => by
    obtain rfl := List.mem_singleton.mp h
    exact List.subset_append_right _ _
  | ⟨.expr (.binary _ _ _), _, _⟩, _, h | ⟨.expr (.logical _ _ _), _, _⟩, _, h
  | ⟨.expr (.call _ _ _), _, _⟩, _, h => by
    obtain rfl | rfl := of_mem_two h
    · exact List.subset_append_left _ _
    · exact fun m hm => List.mem_append_right _ (List.mem_cons_of_mem _ hm)
  | ⟨.expr (.set _ _ _), _, _⟩, _, h => by
    obtain rfl | rfl := of_mem_two h
    · exact fun m hm => List.mem_append_right _ (List.mem_cons_of_mem _ hm)
    · exact List.subset_append_left _ _
  | ⟨.args (_ :: _), _, _⟩, _, h | ⟨.stmt (.branch _ _ none), _, _⟩, _, h
  | ⟨.stmt (.loop _ _), _, _⟩, _, h | ⟨.body (_ :: _), _, _⟩, _, h
  | ⟨.methods (_ :: _), _, _⟩, _, h => by
    obtain rfl | rfl := of_mem_two h
    · exact List.subset_append_left _ _
    · exact List.subset_append_right _ _
  | ⟨.expr (.ternary _ _ _), _, _⟩, _, h | ⟨.stmt (.branch _ _ (some _)), _, _⟩, _, h => by
    obtain rfl | h := List.mem_cons.mp h
    · exact fun m hm => List.mem_append_left _ (List.mem_append_left _ hm)
    · obtain rfl | rfl := of_mem_two h
      · exact fun m hm => List.mem_append_left _ (List.mem_append_right _ hm)
      · exact List.subset_append_right _ _
  | ⟨.stmt (.classDecl _ (some _) _), _, _⟩, _, h => by
    obtain rfl | rfl := of_mem_two h
    · intro m hm
      obtain rfl := List.mem_singleton.mp hm
      exact List.mem_cons_of_mem _ (List.mem_cons_self ..)
    · exact fun m hm => List.mem_cons_of_mem _ (List.mem_cons_of_mem _ hm)

theorem second_mem {v w : Visit} : w ∈ [v, w] :=
  List.mem_cons_of_mem _ (List.mem_singleton_self w)

theorem third_mem {u v w : Visit} : w ∈ [u, v, w] :=
  List.mem_cons_of_mem _ second_mem

theorem Tidy.part {v w : Visit} (h : v.Tidy) (hw : w ∈ v.parts) : w.Tidy :=
  ⟨h.toClean.part hw, fun m hm => h.placed m (marks_part hw hm)⟩

end Visit

open Visit

section

variable {ls : List Bool} {σ σ' : Scoping}

theorem NameUse.sheds_bound (h : σ.Sheds ls σ') {use : NameUse} (hp : use.name.Placed) :
    NameUse.Sheds ls ⟨use.name, σ.hops? use.name.text⟩ ⟨use.name, σ'.hops? use.name.text⟩ :=
  ⟨rfl, hp, h.scopes.hops use.name.text⟩

end

mutual

theorem Expr.sheds_bound : ∀ {e : Expr} {ls : List Bool} {σ σ' : Scoping} {os : List Opener},
    Tidy ⟨.expr e, σ, os⟩ → σ.Sheds ls σ' → (σ.boundExpr e).Sheds ls (σ'.boundExpr e)
  | .literal value, _, _, _, _, _, _ => .literal value
  | .grouping e, _, _, _, _, hv, h =>
    .grouping (Expr.sheds_bound (hv.part (List.mem_singleton_self _)) h)
  | .unary op e, _, _, _, _, hv, h =>
    .unary (hv.placed op (List.mem_cons_self ..))
      (Expr.sheds_bound (hv.part (List.mem_singleton_self _)) h)
  | .binary l op r, _, _, _, _, hv, h =>
    .binary (Expr.sheds_bound (hv.part (List.mem_cons_self ..)) h)
      (hv.placed op (List.mem_append_right _ (List.mem_cons_self ..)))
      (Expr.sheds_bound (hv.part second_mem) (h.behindExpr l))
  | .logical l op r, _, _, _, _, hv, h =>
    .logical (Expr.sheds_bound (hv.part (List.mem_cons_self ..)) h)
      (Expr.sheds_bound (hv.part second_mem) (h.behindExpr l))
  | .ternary cond yes no, _, _, _, _, hv, h =>
    .ternary (Expr.sheds_bound (hv.part (List.mem_cons_self ..)) h)
      (Expr.sheds_bound (hv.part (List.mem_cons_of_mem _ (List.mem_cons_self ..)))
        (h.behindExpr cond))
      (Expr.sheds_bound (hv.part third_mem) ((h.behindExpr cond).behindExpr yes))
  | .variable use, _, _, _, _, hv, h => by
    rw [boundExpr_variable, boundExpr_variable]
    exact .variable (NameUse.sheds_bound h (hv.placed use.name (List.mem_singleton_self _)))
  | .assign use e, _, σ, σ', _, hv, h => by
    have he := Expr.sheds_bound (hv.part (w := ⟨.expr e, σ, _⟩) (List.mem_singleton_self _)) h
    have huse := NameUse.sheds_bound (h.behindExpr e) (hv.placed use.name (List.mem_cons_self ..))
    exact .assign huse he
  | .call callee paren args, _, _, _, _, hv, h =>
    .call (Expr.sheds_bound (hv.part (List.mem_cons_self ..)) h)
      (hv.placed paren (List.mem_append_right _ (List.mem_cons_self ..)))
      (argsShed_bound (hv.part second_mem) (h.behindExpr callee))
  | .get e name, _, _, _, _, hv, h =>
    .get (Expr.sheds_bound (hv.part (List.mem_singleton_self _)) h)
      (hv.placed name (List.mem_append_right _ (List.mem_singleton_self _)))
  | .set object name value, _, _, _, _, hv, h =>
    .set (Expr.sheds_bound (hv.part second_mem) (h.behindExpr value))
      (hv.placed name (List.mem_append_right _ (List.mem_cons_self ..)))
      (Expr.sheds_bound (hv.part (List.mem_cons_self ..)) h)
  | .receiver use, _, σ, σ', _, hv, h => by
    have hcls : σ.cls ≠ .none := cls_of_silent_receiver hv.silent
    rw [boundExpr, boundExpr, run_receiver, run_receiver, if_neg hcls, if_neg (h.cls ▸ hcls)]
    exact .receiver (NameUse.sheds_bound h (hv.placed use.name (List.mem_singleton_self _)))
  | .superMethod use method, _, σ, σ', _, hv, h => by
    have hname : use.name.text = "super" := hv.regular
    rw [boundExpr, boundExpr, run_superMethod, run_superMethod]
    refine .superMethod (NameUse.sheds_bound h (hv.placed use.name (List.mem_cons_self ..)))
      (fun d hd => h.scopes.busy_receiver ?_)
      (hv.placed method (List.mem_cons_of_mem _ (List.mem_singleton_self _)))
    rwa [hname] at hd
  | .stray _, _, _, _, _, hv, _ => hv.regular.elim

theorem argsShed_bound : ∀ {es : List Expr} {ls : List Bool} {σ σ' : Scoping} {os : List Opener},
    Tidy ⟨.args es, σ, os⟩ → σ.Sheds ls σ' →
      List.Forall₂ (Expr.Sheds ls) (σ.boundArgs es) (σ'.boundArgs es)
  | [], _, _, _, _, _, _ => .nil
  | e :: _, _, _, _, _, hv, h =>
    .cons (Expr.sheds_bound (hv.part (List.mem_cons_self ..)) h)
      (argsShed_bound (hv.part second_mem) (h.behindExpr e))

end

mutual

/-- What the pass makes of a statement sheds the idle scopes. -/
theorem Stmt.sheds_bound : ∀ {s : Stmt} {ls : List Bool} {σ σ' : Scoping} {os : List Opener},
    Tidy ⟨.stmt s, σ, os⟩ → (Busy ls 0 ∨ s.declared? = none) → σ.Sheds ls σ' →
      (σ.boundStmt s).Sheds ls (σ'.boundStmt s)
  | .expr e, _, _, _, _, hv, _, h =>
    .expr (Expr.sheds_bound (hv.part (List.mem_singleton_self _)) h)
  | .print e, _, _, _, _, hv, _, h =>
    .print (Expr.sheds_bound (hv.part (List.mem_singleton_self _)) h)
  | .var name none, _, _, _, _, _, .inl hb, _ => .var hb .none
  | .var name (some e), _, _, _, _, hv, .inl hb, h => by
    rw [boundStmt_var, boundStmt_var]
    exact .var hb (.some (Expr.sheds_bound (hv.part (List.mem_singleton_self _))
      (h.initializing hb name)))
  | .block body, _, _, _, _, hv, _, h =>
    .block (bodySheds_bound (hv.part (List.mem_singleton_self _)) busy_inside (h.enter []))
  | .branch cond yes none, _, _, _, _, hv, _, h =>
    .branch (Expr.sheds_bound (hv.part (List.mem_cons_self ..)) h)
      (Stmt.sheds_bound (hv.part second_mem) (.inr hv.regular.2.2) (h.behindExpr cond))
  | .branch cond yes (some no), _, _, _, _, hv, _, h =>
    .branchElse (Expr.sheds_bound (hv.part (List.mem_cons_self ..)) h)
      (Stmt.sheds_bound (hv.part (List.mem_cons_of_mem _ (List.mem_cons_self ..)))
        (.inr hv.regular.2.1.2) (h.behindExpr cond))
      (Stmt.sheds_bound (hv.part third_mem) (.inr hv.regular.2.2.2)
        ((h.behindExpr cond).behindStmt yes hv.regular.2.1.1 (.inr hv.regular.2.1.2)))
  | .loop cond body, _, _, _, _, hv, _, h =>
    .loop (Expr.sheds_bound (hv.part (List.mem_cons_self ..)) h)
      (Stmt.sheds_bound (hv.part second_mem) (.inr hv.regular.2.2) (h.behindExpr cond))
  | .function decl, _, _, _, _, hv, .inl hb, h =>
    .function hb (functionSheds_bound (hv.part (List.mem_singleton_self _))
      ((h.declare hb decl.name).define hb decl.name))
  | .giveBack keyword none, _, _, _, _, _, _, _ => by
    rw [boundStmt_giveBack_none, boundStmt_giveBack_none]
    exact .giveBack .none
  | .giveBack keyword (some e), _, _, _, _, hv, _, h => by
    rw [boundStmt_giveBack, boundStmt_giveBack]
    exact .giveBack (.some (Expr.sheds_bound (hv.part (List.mem_singleton_self _))
      (h.givingBack keyword)))
  | .classDecl name none ms, _, _, _, _, hv, .inl hb, h =>
    .classDecl hb (methodsShed_bound (hv.part (List.mem_singleton_self _))
      ((h.declaringClass hb name).enter ["this"]))
  | .classDecl name (some use) ms, _, _, _, _, hv, .inl hb, h => by
    have huse := (h.inheriting hb name use).behindExpr (.variable use)
    rw [boundStmt_subclass, boundStmt_subclass]
    refine .subclass hb (NameUse.sheds_bound (h.inheriting hb name use) ?_)
      (methodsShed_bound (hv.part second_mem) ((huse.enter ["super"]).enter ["this"]))
    exact hv.placed use.name (List.mem_cons_of_mem _ (List.mem_cons_self ..))
  | .stray _, _, _, _, _, hv, _, _ => hv.regular.elim

theorem bodySheds_bound : ∀ {body : List Stmt} {ls : List Bool} {σ σ' : Scoping} {os : List Opener},
    Tidy ⟨.body body, σ, os⟩ → Busy ls 0 → σ.Sheds ls σ' →
      BodySheds ls (σ.boundBody body) (σ'.boundBody body)
  | [], _, _, _, _, _, _, _ => .nil
  | s :: _, _, _, _, _, hv, hb, h =>
    .cons (Stmt.sheds_bound (hv.part (List.mem_cons_self ..)) (.inl hb) h)
      (bodySheds_bound (hv.part second_mem) hb (h.behindStmt s hv.regular.1 (.inl hb)))

theorem functionSheds_bound : ∀ {kind : FunctionKind} {decl : Fun} {ls : List Bool}
    {σ σ' : Scoping} {os : List Opener}, Tidy ⟨.function kind decl, σ, os⟩ → σ.Sheds ls σ' →
      FunctionSheds ls (σ.boundFunction kind decl) (σ'.boundFunction kind decl)
  | kind, ⟨_, params, _⟩, _, _, _, _, hv, h =>
    .of (bodySheds_bound (hv.part (List.mem_singleton_self _)) busy_inside
      (h.enteringFunction kind params))

theorem methodsShed_bound : ∀ {ms : List Fun} {ls : List Bool} {σ σ' : Scoping} {os : List Opener},
    Tidy ⟨.methods ms, σ, os⟩ → σ.Sheds ls σ' →
      MethodsShed ls (σ.boundMethods ms) (σ'.boundMethods ms)
  | [], _, _, _, _, _, _ => .nil
  | m :: _, _, _, _, _, hv, h =>
    .cons (functionSheds_bound (hv.part (List.mem_cons_self ..)) h)
      (methodsShed_bound (hv.part second_mem)
        (h.behindFunction (methodKind m.name) m hv.regular.1))

end

end Lox
