/-
# The declared name exchanged in its scope

In the scope of a declaration that is never seen its name may be exchanged for
a new one, without anything else being spelled otherwise: in a scope that does
not declare a name no use of it is bound. So the program with the declaration,
in which only that is spelled otherwise, follows the exchange of both names in
that one scope.

Key definitions: `Lox.Lacks`, `Lox.Mark.Stays`, `Lox.Construct.Follows`.
Key theorems: `Lox.NameUse.follows_lacking`, `Lox.Stmt.follows_lacking`, `Lox.Grown.follows`.
-/
import Lox.Proofs.Declaring.Settling
import Lox.Proofs.Idle.Binding
import Lox.Proofs.Renaming.Following

namespace Lox

open Scoping

/-- There is a flag for each scope, and scopes with the flag do not declare the name. -/
def Lacks (x : String) (ls : List Bool) (os : List Opener) : Prop :=
  List.Forall₂ (fun flag o => flag = true → x ∉ o.names) ls os

/-- The mark is spelled as it was, and not by the new name. -/
def Mark.Stays (c : Exchange) (r : Respelling) (m : Mark) : Prop := m.Keeps r ∧ m.text ≠ c.new

/-- The names of the part follow the scopes. -/
def Construct.Follows (c : Exchange) (r : Respelling) (ls : List Bool) : Construct → Prop
  | .expr e => e.Follows c r ls
  | .args es => argsFollow c r ls es
  | .stmt s => s.Follows c r ls
  | .body stmts => bodyFollows c r ls stmts
  | .function _ decl => functionFollows c r ls decl
  | .methods decls => methodsFollow c r ls decls

section

variable {c : Exchange} {r : Respelling} {ls : List Bool} {os : List Opener} {σ : Scoping}

theorem Lacks.without {x : String} (h : Lacks x ls os) (o : Opener) : Lacks x (false :: ls) (o :: os) :=
  .cons (nomatch ·) h

/-- In scopes that do not declare the old name a name is called what it was. -/
theorem Exchange.nameAt_lacking (h : Lacks c.old ls os) {n : String} (hn : n ≠ c.new) :
    ∀ {scopes : List (Bindings Bool)}, Aligned scopes os → c.nameAt ls (hopsIn? scopes n) n = n := by
  induction h with
  | nil =>
    intro scopes ha
    cases ha
    rfl
  | @cons flag o ls os hflag _ ih =>
    intro scopes ha
    cases ha with
    | @inside scope scopes _ _ hnames _ ha =>
      have ih := ih ha
      rw [hopsIn?_cons]
      cases hc : scope.contains n with
      | true =>
        cases flag with
        | false => rfl
        | true => exact c.name_of_ne (fun ho => hflag rfl (ho ▸ hnames n hc)) hn true
      | false => cases hh : hopsIn? scopes n <;> rw [hh] at ih <;> exact ih

theorem NameUse.follows_lacking (h : Lacks c.old ls os) (ha : Aligned σ.scopes os) {use : NameUse}
    (hm : use.name.Stays c r) : NameUse.Follows c r ls ⟨use.name, σ.hops? use.name.text⟩ :=
  hm.1.trans (Exchange.nameAt_lacking h hm.2 ha).symm

/-- A name that the innermost scope declares is called what it was. -/
theorem Mark.declares_lacking (h : Lacks c.old ls os) {m : Mark}
    (hd : ∀ o ∈ os.head?, m.text ∈ o.names) (hm : m.Stays c r) : m.Declares c r ls := by
  refine hm.1.trans ?_
  cases h with
  | nil => rfl
  | @cons flag o _ _ hflag _ =>
    cases flag with
    | false => rfl
    | true => exact (c.name_of_ne (fun ho => hflag rfl (ho ▸ hd o rfl)) hm.2 true).symm

theorem Mark.declares_false {m : Mark} (hm : m.Stays c r) : m.Declares c r (false :: ls) := hm.1

end

section

variable {P : Visit → Prop} {c : Exchange} {r : Respelling}

/-- What is open at the place of an expression is what its openers open. -/
theorem Stock.aligned_expr (hst : Stock P) {e : Expr} {σ : Scoping} {os : List Opener}
    (h : P ⟨.expr e, σ, os⟩) : Aligned σ.scopes os :=
  Scoping.Reading.aligned (hst.standing h)

mutual

theorem Expr.follows_lacking (hst : Stock P) : ∀ {e : Expr} {σ : Scoping} {os : List Opener}
    {ls : List Bool}, P ⟨.expr e, σ, os⟩ → Lacks c.old ls os → (∀ m ∈ e.marks, m.Stays c r) →
      (σ.boundExpr e).Follows c r ls
  | .literal _, _, _, _, _, _, _ => trivial
  | .grouping e, σ, os, ls, hv, hl, hm =>
    Expr.follows_lacking (e := e) hst (hst.part hv (List.mem_singleton_self _)) hl hm
  | .unary op e, σ, os, ls, hv, hl, hm => by
    obtain ⟨hop, hm⟩ := List.forall_mem_cons.mp hm
    exact ⟨hop.1, Expr.follows_lacking hst (hst.part hv (List.mem_singleton_self _)) hl hm⟩
  | .get e name, σ, os, ls, hv, hl, hm => by
    obtain ⟨hm, hname⟩ := List.forall_mem_append.mp hm
    exact ⟨Expr.follows_lacking hst (hst.part hv (List.mem_singleton_self _)) hl hm,
      (hname name (List.mem_singleton_self _)).1⟩
  | .binary l op r', σ, os, ls, hv, hl, hm | .logical l op r', σ, os, ls, hv, hl, hm => by
    obtain ⟨hm, hright⟩ := List.forall_mem_append.mp hm
    obtain ⟨hop, hright⟩ := List.forall_mem_cons.mp hright
    exact ⟨Expr.follows_lacking hst (hst.part hv (List.mem_cons_self ..)) hl hm, hop.1,
      Expr.follows_lacking hst (hst.part hv Visit.second_mem) hl hright⟩
  | .ternary cond yes no, σ, os, ls, hv, hl, hm => by
    obtain ⟨hm, hno⟩ := List.forall_mem_append.mp hm
    obtain ⟨hcond, hyes⟩ := List.forall_mem_append.mp hm
    exact ⟨Expr.follows_lacking hst (hst.part hv (List.mem_cons_self ..)) hl hcond,
      Expr.follows_lacking hst (hst.part hv (List.mem_cons_of_mem _ (List.mem_cons_self ..))) hl hyes,
      Expr.follows_lacking hst (hst.part hv Visit.third_mem) hl hno⟩
  | .variable use, σ, os, ls, hv, hl, hm => by
    have hfollows := NameUse.follows_lacking hl (hst.aligned_expr hv) (hm use.name (List.mem_singleton_self _))
    show ((resolveVariable use).run σ).1.Follows c r ls
    rwa [run_variable]
  | .assign use value, σ, os, ls, hv, hl, hm => by
    have hvalue : P ⟨.expr value, σ, os⟩ := hst.part hv (List.mem_singleton_self _)
    obtain ⟨hname, hm⟩ := List.forall_mem_cons.mp hm
    refine ⟨?_, Expr.follows_lacking hst hvalue hl hm⟩
    show NameUse.Follows c r ls ⟨use.name, (σ.behindExpr value).hops? use.name.text⟩
    rw [(hst.clean hvalue).behindExpr_eq]
    exact NameUse.follows_lacking hl (hst.aligned_expr hv) hname
  | .call callee paren args, σ, os, ls, hv, hl, hm => by
    obtain ⟨hcallee, hm⟩ := List.forall_mem_append.mp hm
    exact ⟨Expr.follows_lacking hst (hst.part hv (List.mem_cons_self ..)) hl hcallee,
      argsFollow_lacking hst (hst.part hv Visit.second_mem) hl (List.forall_mem_cons.mp hm).2⟩
  | .set object name value, σ, os, ls, hv, hl, hm => by
    obtain ⟨hobject, hm⟩ := List.forall_mem_append.mp hm
    obtain ⟨hname, hvalue⟩ := List.forall_mem_cons.mp hm
    exact ⟨Expr.follows_lacking hst (hst.part hv Visit.second_mem) hl hobject, hname.1,
      Expr.follows_lacking hst (hst.part hv (List.mem_cons_self ..)) hl hvalue⟩
  | .receiver use, σ, os, ls, hv, hl, hm => by
    have hkeeps := (hm use.name (List.mem_singleton_self _)).1
    have hword : ∀ b, c.name b use.name.text = use.name.text := by
      rw [show use.name.text = "this" from (hst.clean hv).regular]
      exact c.name_this
    rw [boundExpr, run_receiver]
    split
    · exact NameUse.follows_word use hkeeps hword
    · exact NameUse.follows_word ⟨use.name, _⟩ hkeeps hword
  | .superMethod use method, σ, os, ls, hv, hl, hm => by
    obtain ⟨hname, hm⟩ := List.forall_mem_cons.mp hm
    have hword : ∀ b, c.name b use.name.text = use.name.text := by
      rw [show use.name.text = "super" from (hst.clean hv).regular]
      exact c.name_super
    rw [boundExpr, run_superMethod]
    exact ⟨NameUse.follows_word ⟨use.name, _⟩ hname.1 hword, (hm method (List.mem_singleton_self _)).1⟩
  | .stray _, _, _, _, hv, _, _ => (hst.clean hv).regular.elim

theorem argsFollow_lacking (hst : Stock P) : ∀ {es : List Expr} {σ : Scoping} {os : List Opener}
    {ls : List Bool}, P ⟨.args es, σ, os⟩ → Lacks c.old ls os → (∀ m ∈ argMarks es, m.Stays c r) →
      argsFollow c r ls (σ.boundArgs es)
  | [], _, _, _, _, _, _ => trivial
  | e :: es, σ, os, ls, hv, hl, hm => by
    obtain ⟨he, hes⟩ := List.forall_mem_append.mp hm
    exact ⟨Expr.follows_lacking hst (hst.part hv (List.mem_cons_self ..)) hl he,
      argsFollow_lacking hst (hst.part hv Visit.second_mem) hl hes⟩

end

mutual

/-- What the pass makes of a statement follows the exchange in scopes that do not declare the old
name, if nothing in it is spelled otherwise. -/
theorem Stmt.follows_lacking (hst : Stock P) : ∀ {s : Stmt} {σ : Scoping} {os : List Opener}
    {ls : List Bool}, P ⟨.stmt s, σ, os⟩ → Lacks c.old ls os → (∀ m ∈ s.marks, m.Stays c r) →
      (σ.boundStmt s).Follows c r ls
  | .expr e, σ, os, ls, hv, hl, hm | .print e, σ, os, ls, hv, hl, hm =>
    Expr.follows_lacking hst (hst.part hv (List.mem_singleton_self _)) hl hm
  | .var name none, σ, os, ls, hv, hl, hm =>
    ⟨Mark.declares_lacking hl (Visit.declares_stmt (hst.standing hv) rfl)
      (hm name (List.mem_cons_self ..)), trivial⟩
  | .var name (some e), σ, os, ls, hv, hl, hm => by
    obtain ⟨hname, hm⟩ := List.forall_mem_cons.mp hm
    rw [boundStmt_var]
    exact ⟨Mark.declares_lacking hl (Visit.declares_stmt (hst.standing hv) rfl) hname,
      Expr.follows_lacking hst (hst.part hv (List.mem_singleton_self _)) hl hm⟩
  | .block body, σ, os, ls, hv, hl, hm =>
    ⟨false, bodyFollows_lacking hst (hst.part hv (List.mem_singleton_self _)) (hl.without _) hm⟩
  | .branch cond yes none, σ, os, ls, hv, hl, hm | .loop cond yes, σ, os, ls, hv, hl, hm => by
    obtain ⟨hcond, hyes⟩ := List.forall_mem_append.mp hm
    exact ⟨Expr.follows_lacking hst (hst.part hv (List.mem_cons_self ..)) hl hcond,
      Stmt.follows_lacking hst (hst.part hv Visit.second_mem) hl hyes⟩
  | .branch cond yes (some no), σ, os, ls, hv, hl, hm => by
    obtain ⟨hm, hno⟩ := List.forall_mem_append.mp hm
    obtain ⟨hcond, hyes⟩ := List.forall_mem_append.mp hm
    exact ⟨Expr.follows_lacking hst (hst.part hv (List.mem_cons_self ..)) hl hcond,
      Stmt.follows_lacking hst (hst.part hv (List.mem_cons_of_mem _ (List.mem_cons_self ..))) hl hyes,
      Stmt.follows_lacking hst (hst.part hv Visit.third_mem) hl hno⟩
  | .function ⟨name, params, body⟩, σ, os, ls, hv, hl, hm =>
    ⟨Mark.declares_lacking hl (Visit.declares_stmt (hst.standing hv) rfl) (hm name (List.mem_cons_self ..)),
      functionFollows_lacking hst (hst.part hv (List.mem_singleton_self _)) hl hm⟩
  | .giveBack keyword none, σ, os, ls, hv, hl, hm => by
    rw [boundStmt_giveBack_none]
    exact trivial
  | .giveBack keyword (some e), σ, os, ls, hv, hl, hm => by
    rw [boundStmt_giveBack]
    exact Expr.follows_lacking hst (hst.part hv (List.mem_singleton_self _)) hl
      (List.forall_mem_cons.mp hm).2
  | .classDecl name none ms, σ, os, ls, hv, hl, hm => by
    obtain ⟨hname, hm⟩ := List.forall_mem_cons.mp hm
    exact ⟨hname.1, Mark.declares_lacking hl (Visit.declares_stmt (hst.standing hv) rfl) hname,
      methodsFollow_lacking hst (hst.part hv (List.mem_singleton_self _)) (hl.without _) hm⟩
  | .classDecl name (some use) ms, σ, os, ls, hv, hl, hm => by
    obtain ⟨hname, hm⟩ := List.forall_mem_cons.mp hm
    obtain ⟨huse, hm⟩ := List.forall_mem_cons.mp hm
    have hsuper : ((σ.inheriting name use).boundExpr (.variable use)).Follows c r ls :=
      Expr.follows_lacking hst (hst.part hv (List.mem_cons_self ..)) hl (List.forall_mem_singleton.mpr huse)
    rw [boundExpr_variable] at hsuper
    rw [boundStmt_subclass]
    exact ⟨hname.1, Mark.declares_lacking hl (Visit.declares_stmt (hst.standing hv) rfl) hname, hsuper,
      methodsFollow_lacking hst (hst.part hv Visit.second_mem) ((hl.without _).without _) hm⟩
  | .stray _, _, _, _, hv, _, _ => (hst.clean hv).regular.elim

theorem bodyFollows_lacking (hst : Stock P) : ∀ {body : List Stmt} {σ : Scoping} {os : List Opener}
    {ls : List Bool}, P ⟨.body body, σ, os⟩ → Lacks c.old ls os → (∀ m ∈ bodyMarks body, m.Stays c r) →
      bodyFollows c r ls (σ.boundBody body)
  | [], _, _, _, _, _, _ => trivial
  | s :: body, σ, os, ls, hv, hl, hm => by
    obtain ⟨hs, hbody⟩ := List.forall_mem_append.mp hm
    exact ⟨Stmt.follows_lacking hst (hst.part hv (List.mem_cons_self ..)) hl hs,
      bodyFollows_lacking hst (hst.part hv Visit.second_mem) hl hbody⟩

theorem functionFollows_lacking (hst : Stock P) : ∀ {kind : FunctionKind} {decl : Fun} {σ : Scoping}
    {os : List Opener} {ls : List Bool}, P ⟨.function kind decl, σ, os⟩ → Lacks c.old ls os →
      (∀ m ∈ functionMarks decl, m.Stays c r) → functionFollows c r ls (σ.boundFunction kind decl)
  | kind, ⟨name, params, body⟩, σ, os, ls, hv, hl, hm => by
    obtain ⟨hname, hm⟩ := List.forall_mem_cons.mp hm
    obtain ⟨hparams, hbody⟩ := List.forall_mem_append.mp hm
    exact ⟨hname.1, false, fun m hm => Mark.declares_false (hparams m hm),
      bodyFollows_lacking hst (hst.part hv (List.mem_singleton_self _)) (hl.without _) hbody⟩

theorem methodsFollow_lacking (hst : Stock P) : ∀ {ms : List Fun} {σ : Scoping} {os : List Opener}
    {ls : List Bool}, P ⟨.methods ms, σ, os⟩ → Lacks c.old ls os → (∀ m ∈ methodMarks ms, m.Stays c r) →
      methodsFollow c r ls (σ.boundMethods ms)
  | [], _, _, _, _, _, _ => trivial
  | m :: ms, σ, os, ls, hv, hl, hm => by
    obtain ⟨hfirst, hrest⟩ := List.forall_mem_append.mp hm
    exact ⟨functionFollows_lacking hst (hst.part hv (List.mem_cons_self ..)) hl hfirst,
      methodsFollow_lacking hst (hst.part hv Visit.second_mem) hl hrest⟩

end

end

/-! ### With the declaration -/

section

variable {c : Exchange} {r : Respelling} {ls : List Bool}

theorem bodyFollows_append {body more : List Stmt} :
    bodyFollows c r ls (body ++ more) ↔ bodyFollows c r ls body ∧ bodyFollows c r ls more := by
  induction body with
  | nil => exact (and_iff_right trivial).symm
  | cons s body ih => rw [List.cons_append, bodyFollows, bodyFollows, ih, and_assoc]

theorem methodsFollow_append {ms more : List Fun} :
    methodsFollow c r ls (ms ++ more) ↔ methodsFollow c r ls ms ∧ methodsFollow c r ls more := by
  induction ms with
  | nil => exact (and_iff_right trivial).symm
  | cons m ms ih => rw [List.cons_append, methodsFollow, methodsFollow, ih, and_assoc]

variable {P : Visit → Prop} {d : Mark} {o : Opener} {behind : List Stmt} {k k' : Construct}

/-- The body of the scope with the declaration, in which that has the new name. -/
theorem Spared.follows (hs : Spared P d.text o behind) (hst : Stock P) (hd : c.old = d.text)
    (hnew : (d.respell r).text = c.new) {before : List Stmt} {σ : Scoping} {os : List Opener}
    (hv : P ⟨.body (before ++ behind), σ, o :: os⟩) (hl : Lacks c.old ls os)
    (hm : ∀ m ∈ bodyMarks (before ++ behind), m.Stays c r) :
    bodyFollows c r (true :: ls) (σ.boundBody (before ++ .var d none :: behind)) := by
  obtain ⟨before₁, behind₁, hsame, hmore, -⟩ := hs.declared hst hv
  have hlacks : Lacks c.old (true :: ls) (o :: os) := .cons (fun _ => hd ▸ hs.undeclared) hl
  have hfollows := bodyFollows_lacking hst hv hlacks hm
  rw [hsame, bodyFollows_append] at hfollows
  have hdeclares : d.Declares c r (true :: ls) := by
    show (d.respell r).text = c.name true d.text
    rw [hnew, ← hd, c.name_old]
  rw [hmore, bodyFollows_append]
  exact ⟨hfollows.1, ⟨hdeclares, trivial⟩, hfollows.2⟩

/-- The part with the declaration follows the exchange in the scope of that, if nothing but the
declaration is spelled otherwise. -/
theorem Grown.follows (hst : Stock P) (hs : Spared P d.text o behind) (hd : c.old = d.text)
    (hnew : (d.respell r).text = c.new) (h : Grown d o behind k k') :
    ∀ {σ os ls}, P ⟨k, σ, os⟩ → Lacks c.old ls os → (∀ m ∈ k.marks, m.Stays c r) →
      (k'.bound σ).Follows c r ls := by
  induction h with
  | @inBlock before ho =>
    intro σ os ls hv hl hm
    subst ho
    exact ⟨true, hs.follows hst hd hnew (hst.part hv (List.mem_singleton_self _)) hl hm⟩
  | @inCall kind name params before ho =>
    intro σ os ls hv hl hm
    subst ho
    obtain ⟨hname, hm⟩ := List.forall_mem_cons.mp hm
    obtain ⟨hparams, hm⟩ := List.forall_mem_append.mp hm
    have hbody := hs.follows hst hd hnew (hst.part hv (List.mem_singleton_self _)) hl hm
    refine ⟨hname.1, true, fun m hmem => ?_, hbody⟩
    have hlacks : Lacks c.old [true] [.call ⟨name, params, before ++ behind⟩] :=
      .cons (fun _ => hd ▸ hs.undeclared) .nil
    refine Mark.declares_lacking hlacks (fun o ho => ?_) (hparams m hmem)
    cases ho
    exact List.mem_append_left _ (List.mem_map_of_mem hmem)
  | block _ ih =>
    intro σ os ls hv hl hm
    exact ⟨false, ih (hst.part hv (List.mem_singleton_self _)) (hl.without _) hm⟩
  | call _ ih =>
    intro σ os ls hv hl hm
    obtain ⟨hname, hm⟩ := List.forall_mem_cons.mp hm
    obtain ⟨hparams, hm⟩ := List.forall_mem_append.mp hm
    exact ⟨hname.1, false, fun m hmem => Mark.declares_false (hparams m hmem),
      ih (hst.part hv (List.mem_singleton_self _)) (hl.without _) hm⟩
  | @among before later s s' h ih =>
    intro σ os ls hv hl hm
    have hplace := hst.part (hst.rest (s :: later) before hv) (List.mem_cons_self ..)
    have hbehind : (σ.behindBody before).behindStmt s' = (σ.behindBody before).behindStmt s :=
      (h.bindsAlike hst hs hplace).behind
    have hfollows := bodyFollows_lacking hst hv hl hm
    rw [boundBody_append, bodyFollows_append] at hfollows
    show bodyFollows c r ls (σ.boundBody (before ++ s' :: later))
    rw [boundBody_append, bodyFollows_append]
    refine ⟨hfollows.1, ih hplace hl fun m hmem => hm m ?_, ?_⟩
    · show m ∈ bodyMarks (before ++ s :: later)
      rw [bodyMarks_append]
      exact List.mem_append_right _ (List.mem_append_left _ hmem)
    · show bodyFollows c r ls (((σ.behindBody before).behindStmt s').boundBody later)
      rw [hbehind]
      exact hfollows.2.2
  | @yes cond yes yes' no h ih =>
    intro σ os ls hv hl hm
    cases no with
    | none =>
      obtain ⟨hcond, hyes⟩ := List.forall_mem_append.mp hm
      exact ⟨Expr.follows_lacking hst (hst.part hv (List.mem_cons_self ..)) hl hcond,
        ih (hst.part hv Visit.second_mem) hl hyes⟩
    | some no =>
      have hplace := hst.part hv (List.mem_cons_of_mem _ (List.mem_cons_self ..))
      have hbehind : (σ.behindExpr cond).behindStmt yes' = (σ.behindExpr cond).behindStmt yes :=
        (h.bindsAlike hst hs hplace).behind
      obtain ⟨hm, hno⟩ := List.forall_mem_append.mp hm
      obtain ⟨hcond, hyes⟩ := List.forall_mem_append.mp hm
      refine ⟨Expr.follows_lacking hst (hst.part hv (List.mem_cons_self ..)) hl hcond,
        ih hplace hl hyes, ?_⟩
      show (((σ.behindExpr cond).behindStmt yes').boundStmt no).Follows c r ls
      rw [hbehind]
      exact Stmt.follows_lacking hst (hst.part hv Visit.third_mem) hl hno
  | no h ih =>
    intro σ os ls hv hl hm
    obtain ⟨hm, hno⟩ := List.forall_mem_append.mp hm
    obtain ⟨hcond, hyes⟩ := List.forall_mem_append.mp hm
    exact ⟨Expr.follows_lacking hst (hst.part hv (List.mem_cons_self ..)) hl hcond,
      Stmt.follows_lacking hst (hst.part hv (List.mem_cons_of_mem _ (List.mem_cons_self ..))) hl hyes,
      ih (hst.part hv Visit.third_mem) hl hno⟩
  | loop h ih =>
    intro σ os ls hv hl hm
    obtain ⟨hcond, hbody⟩ := List.forall_mem_append.mp hm
    exact ⟨Expr.follows_lacking hst (hst.part hv (List.mem_cons_self ..)) hl hcond,
      ih (hst.part hv Visit.second_mem) hl hbody⟩
  | @function decl decl' h ih =>
    intro σ os ls hv hl hm
    have hname := h.name_eq
    have hdecl : decl.name.Stays c r := by
      obtain ⟨name, params, body⟩ := decl
      exact hm name (List.mem_cons_self ..)
    have hfollows := ih (hst.part hv (List.mem_singleton_self _)) hl hm
    have hdeclares := Mark.declares_lacking hl (Visit.declares_stmt (hst.standing hv) rfl) hdecl
    show (Mark.Declares c r ls (boundFunction _ .function decl').name) ∧
      functionFollows c r ls (((σ.declare decl'.name).define decl'.name).boundFunction .function decl')
    rw [boundFunction_name, hname]
    exact ⟨hdeclares, hfollows⟩
  | @classDecl name superclass methods methods' _ ih =>
    intro σ os ls hv hl hm
    cases superclass with
    | none =>
      obtain ⟨hname, hm⟩ := List.forall_mem_cons.mp hm
      exact ⟨hname.1, Mark.declares_lacking hl (Visit.declares_stmt (hst.standing hv) rfl) hname,
        ih (hst.part hv (List.mem_singleton_self _)) (hl.without _) hm⟩
    | some use =>
      obtain ⟨hname, hm⟩ := List.forall_mem_cons.mp hm
      obtain ⟨huse, hm⟩ := List.forall_mem_cons.mp hm
      have hsuper : ((σ.inheriting name use).boundExpr (.variable use)).Follows c r ls :=
        Expr.follows_lacking hst (hst.part hv (List.mem_cons_self ..)) hl
          (List.forall_mem_singleton.mpr huse)
      rw [boundExpr_variable] at hsuper
      have hmethods := ih (hst.part hv Visit.second_mem) ((hl.without _).without _) hm
      show (σ.boundStmt (.classDecl name (some use) methods')).Follows c r ls
      rw [boundStmt_subclass]
      exact ⟨hname.1, Mark.declares_lacking hl (Visit.declares_stmt (hst.standing hv) rfl) hname, hsuper,
        hmethods⟩
  | @method before later m m' h ih =>
    intro σ os ls hv hl hm
    have hplace := hst.part (hst.methodsRest (m :: later) before hv) (List.mem_cons_self ..)
    have hbehind : (σ.behindMethods before).behindFunction (methodKind m.name) m' =
        (σ.behindMethods before).behindFunction (methodKind m.name) m := (h.bindsAlike hst hs hplace).behind
    have hfollows := methodsFollow_lacking hst hv hl hm
    rw [boundMethods_append, methodsFollow_append] at hfollows
    show methodsFollow c r ls (σ.boundMethods (before ++ m' :: later))
    rw [boundMethods_append, methodsFollow_append]
    refine ⟨hfollows.1, ?_⟩
    show functionFollows c r ls ((σ.behindMethods before).boundFunction (methodKind m'.name) m') ∧
      methodsFollow c r ls
        (((σ.behindMethods before).behindFunction (methodKind m'.name) m').boundMethods later)
    rw [h.name_eq, hbehind]
    refine ⟨ih hplace hl fun m' hmem => hm m' ?_, hfollows.2.2⟩
    show m' ∈ methodMarks (before ++ m :: later)
    rw [methodMarks_append]
    exact List.mem_append_right _ (List.mem_append_left _ hmem)

end

end Lox
