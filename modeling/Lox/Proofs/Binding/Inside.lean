/-
# What stands inside a part

The scopes that are opened inside a part of a program, and the uses inside it
with their records. A part of a part opens no more scopes; one that it is
directly inside of is counted among those around it instead
(`Lox.Visit.allOpeners`). So no two scopes around a place are one, and names
that are declared once in a program are declared by one of them. A statement
that declares a name is one of the body of the innermost scope around it.

Key definitions: `Lox.bodyOpeners`, `Lox.Opener.locals`, `Lox.localNames`, `Lox.Visit.allOpeners`,
`Lox.Visit.uses`.
Key theorems: `Lox.Visited.allOpeners`, `Lox.Visited.uses`, `Lox.Visited.inside`,
`Lox.Visited.locals`.
-/
import Lox.Proofs.Binding.Settled
import Mathlib.Data.List.Flatten
import Mathlib.Data.List.Perm.Subperm
import Mathlib.Data.List.Nodup

namespace Lox

open Scoping

/-! ### Scopes inside -/

mutual

/-- The scopes that a statement opens, and those inside them. -/
def Stmt.openers : Stmt → List Opener
  | .expr _ | .print _ | .var _ _ | .giveBack _ _ | .stray _ => []
  | .block body => .block body :: bodyOpeners body
  | .branch _ yes none => yes.openers
  | .branch _ yes (some no) => yes.openers ++ no.openers
  | .loop _ body => body.openers
  | .function decl => functionOpeners decl
  | .classDecl name none methods => .receiver name :: methodOpeners methods
  | .classDecl name (some _) methods => .receiver name :: .superclass name :: methodOpeners methods

def bodyOpeners : List Stmt → List Opener
  | [] => []
  | stmt :: body => stmt.openers ++ bodyOpeners body

def functionOpeners : Fun → List Opener
  | ⟨name, params, body⟩ => .call ⟨name, params, body⟩ :: bodyOpeners body

def methodOpeners : List Fun → List Opener
  | [] => []
  | method :: methods => functionOpeners method ++ methodOpeners methods

end

def Construct.openers : Construct → List Opener
  | .expr _ | .args _ => []
  | .stmt s => s.openers
  | .body stmts => bodyOpeners stmts
  | .function _ decl => functionOpeners decl
  | .methods decls => methodOpeners decls

/-- The statements of the scope. -/
def Opener.body : Opener → List Stmt
  | .block stmts => stmts
  | .call decl => decl.body
  | .receiver _ | .superclass _ => []

/-- The names that are declared in the scope, each as often as it is declared there. -/
def Opener.locals : Opener → List String
  | .block body => declaredNames body
  | .call decl => decl.params.map (·.text) ++ declaredNames decl.body
  | .receiver _ | .superclass _ => []

/-- The names that are declared in the scopes of a program: variables, parameters, functions and
classes. -/
def localNames (program : List Stmt) : List String :=
  (bodyOpeners program).flatMap Opener.locals

namespace Visit

/-- The scopes inside the part, and those around it. -/
def allOpeners (v : Visit) : List Opener := v.construct.openers ++ v.openers

theorem allOpeners_part : ∀ {v w : Visit}, w ∈ v.parts → w.allOpeners.Subperm v.allOpeners
  | ⟨.expr (.literal _), _, _⟩, _, h | ⟨.expr (.variable _), _, _⟩, _, h
  | ⟨.expr (.receiver _), _, _⟩, _, h | ⟨.expr (.superMethod _ _), _, _⟩, _, h
  | ⟨.expr (.stray _), _, _⟩, _, h | ⟨.args [], _, _⟩, _, h
  | ⟨.stmt (.var _ none), _, _⟩, _, h | ⟨.stmt (.giveBack _ none), _, _⟩, _, h
  | ⟨.stmt (.stray _), _, _⟩, _, h | ⟨.body [], _, _⟩, _, h | ⟨.methods [], _, _⟩, _, h => nomatch h
  | ⟨.expr (.grouping _), _, _⟩, _, h | ⟨.expr (.unary _ _), _, _⟩, _, h
  | ⟨.expr (.get _ _), _, _⟩, _, h | ⟨.expr (.assign _ _), _, _⟩, _, h
  | ⟨.stmt (.expr _), _, _⟩, _, h | ⟨.stmt (.print _), _, _⟩, _, h
  | ⟨.stmt (.var _ (some _)), _, _⟩, _, h | ⟨.stmt (.giveBack _ (some _)), _, _⟩, _, h
  | ⟨.stmt (.function _), _, _⟩, _, h => by
    obtain rfl := List.mem_singleton.mp h
    exact .refl _
  | ⟨.expr (.binary _ _ _), _, _⟩, _, h | ⟨.expr (.logical _ _ _), _, _⟩, _, h
  | ⟨.expr (.call _ _ _), _, _⟩, _, h | ⟨.expr (.set _ _ _), _, _⟩, _, h
  | ⟨.args (_ :: _), _, _⟩, _, h => by
    obtain rfl | rfl := of_mem_two h <;> exact .refl _
  | ⟨.expr (.ternary _ _ _), _, _⟩, _, h => by
    obtain rfl | h := List.mem_cons.mp h
    · exact .refl _
    · obtain rfl | rfl := of_mem_two h <;> exact .refl _
  | ⟨.stmt (.block body), σ, os⟩, _, h => by
    obtain rfl := List.mem_singleton.mp h
    exact List.perm_middle.subperm
  | ⟨.stmt (.branch cond yes none), _, os⟩, _, h | ⟨.stmt (.loop cond yes), _, os⟩, _, h => by
    obtain rfl | rfl := of_mem_two h
    · exact (List.sublist_append_right _ _).subperm
    · exact .refl _
  | ⟨.stmt (.branch cond yes (some no)), _, os⟩, _, h => by
    have hyes : (yes.openers ++ os).Sublist ((yes.openers ++ no.openers) ++ os) :=
      (List.sublist_append_left ..).append_right os
    have hno : (no.openers ++ os).Sublist ((yes.openers ++ no.openers) ++ os) :=
      (List.sublist_append_right ..).append_right os
    obtain rfl | h := List.mem_cons.mp h
    · exact (List.sublist_append_right _ _).subperm
    · obtain rfl | rfl := of_mem_two h
      · exact hyes.subperm
      · exact hno.subperm
  | ⟨.stmt (.classDecl name none ms), _, os⟩, _, h => by
    obtain rfl := List.mem_singleton.mp h
    exact List.perm_middle.subperm
  | ⟨.stmt (.classDecl name (some use) ms), _, os⟩, _, h => by
    have hinside : (methodOpeners ms ++ (.receiver name :: .superclass name :: os)).Perm
        (.receiver name :: .superclass name :: methodOpeners ms ++ os) :=
      List.perm_middle.trans (.cons _ List.perm_middle)
    obtain rfl | rfl := of_mem_two h
    · exact (List.sublist_append_right _ _).subperm
    · exact hinside.subperm
  | ⟨.body (s :: body), _, os⟩, _, h => by
    have hs : (s.openers ++ os).Sublist ((s.openers ++ bodyOpeners body) ++ os) :=
      (List.sublist_append_left ..).append_right os
    have hbody : (bodyOpeners body ++ os).Sublist ((s.openers ++ bodyOpeners body) ++ os) :=
      (List.sublist_append_right ..).append_right os
    obtain rfl | rfl := of_mem_two h
    · exact hs.subperm
    · exact hbody.subperm
  | ⟨.function kind ⟨name, params, body⟩, _, os⟩, _, h => by
    obtain rfl := List.mem_singleton.mp h
    exact List.perm_middle.subperm
  | ⟨.methods (m :: ms), _, os⟩, _, h => by
    have hm : (functionOpeners m ++ os).Sublist ((functionOpeners m ++ methodOpeners ms) ++ os) :=
      (List.sublist_append_left ..).append_right os
    have hms : (methodOpeners ms ++ os).Sublist ((functionOpeners m ++ methodOpeners ms) ++ os) :=
      (List.sublist_append_right ..).append_right os
    obtain rfl | rfl := of_mem_two h
    · exact hm.subperm
    · exact hms.subperm

end Visit

/-! ### Uses inside -/

namespace Visit

/-- The uses in the part, with their records. -/
def uses (v : Visit) : List Occurrence :=
  match v.construct with
  | .expr e => (v.scoping.boundExpr e).occurrences
  | .args es => argOccurrences (v.scoping.boundArgs es)
  | .stmt s => (v.scoping.boundStmt s).occurrences
  | .body stmts => bodyOccurrences (v.scoping.boundBody stmts)
  | .function kind decl => functionOccurrences (v.scoping.boundFunction kind decl)
  | .methods decls => methodOccurrences (v.scoping.boundMethods decls)

theorem uses_part : ∀ {v w : Visit}, w ∈ v.parts → w.uses ⊆ v.uses
  | ⟨.expr (.literal _), _, _⟩, _, h | ⟨.expr (.variable _), _, _⟩, _, h
  | ⟨.expr (.receiver _), _, _⟩, _, h | ⟨.expr (.superMethod _ _), _, _⟩, _, h
  | ⟨.expr (.stray _), _, _⟩, _, h | ⟨.args [], _, _⟩, _, h
  | ⟨.stmt (.var _ none), _, _⟩, _, h | ⟨.stmt (.giveBack _ none), _, _⟩, _, h
  | ⟨.stmt (.stray _), _, _⟩, _, h | ⟨.body [], _, _⟩, _, h | ⟨.methods [], _, _⟩, _, h => nomatch h
  | ⟨.expr (.grouping _), _, _⟩, _, h | ⟨.expr (.unary _ _), _, _⟩, _, h
  | ⟨.expr (.get _ _), _, _⟩, _, h | ⟨.stmt (.expr _), _, _⟩, _, h | ⟨.stmt (.print _), _, _⟩, _, h
  | ⟨.stmt (.function _), _, _⟩, _, h | ⟨.stmt (.block _), _, _⟩, _, h
  | ⟨.stmt (.classDecl _ none _), _, _⟩, _, h | ⟨.function _ ⟨_, _, _⟩, _, _⟩, _, h => by
    obtain rfl := List.mem_singleton.mp h
    exact List.Subset.refl _
  | ⟨.expr (.assign _ _), _, _⟩, _, h => by
    obtain rfl := List.mem_singleton.mp h
    exact List.subset_cons_self _ _
  | ⟨.expr (.binary _ _ _), _, _⟩, _, h | ⟨.expr (.logical _ _ _), _, _⟩, _, h
  | ⟨.expr (.call _ _ _), _, _⟩, _, h | ⟨.args (_ :: _), _, _⟩, _, h
  | ⟨.stmt (.branch _ _ none), _, _⟩, _, h | ⟨.stmt (.loop _ _), _, _⟩, _, h
  | ⟨.body (_ :: _), _, _⟩, _, h | ⟨.methods (_ :: _), _, _⟩, _, h => by
    obtain rfl | rfl := of_mem_two h
    · exact List.subset_append_left _ _
    · exact List.subset_append_right _ _
  | ⟨.expr (.set _ _ _), _, _⟩, _, h => by
    obtain rfl | rfl := of_mem_two h
    · exact List.subset_append_right _ _
    · exact List.subset_append_left _ _
  | ⟨.expr (.ternary cond yes no), σ, os⟩, _, h
  | ⟨.stmt (.branch cond yes (some no)), σ, os⟩, _, h => by
    obtain rfl | h := List.mem_cons.mp h
    · exact List.Subset.trans (List.subset_append_left _ _) (List.subset_append_left _ _)
    · obtain rfl | rfl := of_mem_two h
      · exact List.Subset.trans (List.subset_append_right _ _) (List.subset_append_left _ _)
      · exact List.subset_append_right _ _
  | ⟨.stmt (.var name (some e)), σ, os⟩, _, h => by
    obtain rfl := List.mem_singleton.mp h
    show _ ⊆ (σ.boundStmt (.var name (some e))).occurrences
    rw [boundStmt_var]
    exact List.Subset.refl _
  | ⟨.stmt (.giveBack keyword (some e)), σ, os⟩, _, h => by
    obtain rfl := List.mem_singleton.mp h
    show _ ⊆ (σ.boundStmt (.giveBack keyword (some e))).occurrences
    rw [boundStmt_giveBack]
    exact List.Subset.refl _
  | ⟨.stmt (.classDecl name (some use) ms), σ, os⟩, _, h => by
    show _ ⊆ (σ.boundStmt (.classDecl name (some use) ms)).occurrences
    rw [boundStmt_subclass]
    obtain rfl | rfl := of_mem_two h
    · show ((σ.inheriting name use).boundExpr (.variable use)).occurrences ⊆ _
      rw [boundExpr_variable]
      exact List.cons_subset_cons _ (List.nil_subset _)
    · exact List.subset_cons_self _ _

end Visit

/-! ### Declarations of the innermost scope -/

namespace Visit

/-- A statement that declares a name is one of the body of the innermost scope. -/
def Inside (v : Visit) : Prop :=
  ∀ o ∈ v.openers.head?, match v.construct with
    | .stmt s => s.declared? ≠ none → s ∈ o.body
    | .body stmts => stmts ⊆ o.body
    | .expr _ | .args _ | .function _ _ | .methods _ => True

theorem inside_of_declared {s : Stmt} {σ : Scoping} {os : List Opener} (h : s.declared? = none) :
    Inside ⟨.stmt s, σ, os⟩ := fun _ _ hs => absurd h hs

theorem Inside.part : ∀ {v w : Visit}, v.Clean → v.Inside → w ∈ v.parts → w.Inside
  | ⟨.expr (.literal _), _, _⟩, _, _, _, h | ⟨.expr (.variable _), _, _⟩, _, _, _, h
  | ⟨.expr (.receiver _), _, _⟩, _, _, _, h | ⟨.expr (.superMethod _ _), _, _⟩, _, _, _, h
  | ⟨.expr (.stray _), _, _⟩, _, _, _, h | ⟨.args [], _, _⟩, _, _, _, h
  | ⟨.stmt (.var _ none), _, _⟩, _, _, _, h | ⟨.stmt (.giveBack _ none), _, _⟩, _, _, _, h
  | ⟨.stmt (.stray _), _, _⟩, _, _, _, h | ⟨.body [], _, _⟩, _, _, _, h
  | ⟨.methods [], _, _⟩, _, _, _, h => nomatch h
  | ⟨.expr (.grouping _), _, _⟩, _, _, _, h | ⟨.expr (.unary _ _), _, _⟩, _, _, _, h
  | ⟨.expr (.get _ _), _, _⟩, _, _, _, h | ⟨.expr (.assign _ _), _, _⟩, _, _, _, h
  | ⟨.stmt (.expr _), _, _⟩, _, _, _, h | ⟨.stmt (.print _), _, _⟩, _, _, _, h
  | ⟨.stmt (.var _ (some _)), _, _⟩, _, _, _, h | ⟨.stmt (.giveBack _ (some _)), _, _⟩, _, _, _, h
  | ⟨.stmt (.function _), _, _⟩, _, _, _, h | ⟨.stmt (.classDecl _ none _), _, _⟩, _, _, _, h => by
    obtain rfl := List.mem_singleton.mp h
    exact fun _ _ => trivial
  | ⟨.expr (.binary _ _ _), _, _⟩, _, _, _, h | ⟨.expr (.logical _ _ _), _, _⟩, _, _, _, h
  | ⟨.expr (.call _ _ _), _, _⟩, _, _, _, h | ⟨.expr (.set _ _ _), _, _⟩, _, _, _, h
  | ⟨.args (_ :: _), _, _⟩, _, _, _, h | ⟨.stmt (.classDecl _ (some _) _), _, _⟩, _, _, _, h
  | ⟨.methods (_ :: _), _, _⟩, _, _, _, h => by
    obtain rfl | rfl := of_mem_two h <;> exact fun _ _ => trivial
  | ⟨.expr (.ternary _ _ _), _, _⟩, _, _, _, h => by
    obtain rfl | h := List.mem_cons.mp h
    · exact fun _ _ => trivial
    · obtain rfl | rfl := of_mem_two h <;> exact fun _ _ => trivial
  | ⟨.stmt (.block body), _, _⟩, _, _, _, h | ⟨.function _ ⟨_, _, body⟩, _, _⟩, _, _, _, h => by
    obtain rfl := List.mem_singleton.mp h
    intro o ho
    cases ho
    exact List.Subset.refl body
  | ⟨.stmt (.branch _ _ none), _, _⟩, _, hc, _, h | ⟨.stmt (.loop _ _), _, _⟩, _, hc, _, h => by
    obtain rfl | rfl := of_mem_two h
    · exact fun _ _ => trivial
    · exact inside_of_declared hc.regular.2.2
  | ⟨.stmt (.branch _ _ (some _)), _, _⟩, _, hc, _, h => by
    obtain rfl | h := List.mem_cons.mp h
    · exact fun _ _ => trivial
    · obtain rfl | rfl := of_mem_two h
      · exact inside_of_declared hc.regular.2.1.2
      · exact inside_of_declared hc.regular.2.2.2
  | ⟨.body (s :: body), _, _⟩, _, _, hi, h => by
    obtain rfl | rfl := of_mem_two h
    · exact fun o ho _ => hi o ho List.mem_cons_self
    · exact fun o ho => List.Subset.trans (List.subset_cons_self s body) (hi o ho)

end Visit

/-! ### Places of a program -/

namespace Visited

variable {program : List Stmt} {v : Visit}

/-- The scopes inside and around a place are different ones of the program. -/
theorem allOpeners (h : Visited program v) : v.allOpeners.Subperm (bodyOpeners program) := by
  induction h with
  | program => exact (List.Perm.of_eq (List.append_nil _)).subperm
  | part _ hw ih => exact (Visit.allOpeners_part hw).trans ih

/-- The uses at a place are uses of the program. -/
theorem uses (h : Visited program v) : v.uses ⊆ bodyOccurrences (initial.boundBody program) := by
  induction h with
  | program => exact List.Subset.refl _
  | part _ hw ih => exact List.Subset.trans (Visit.uses_part hw) ih

theorem inside (hc : (Visit.whole program).Clean) (h : Visited program v) : v.Inside := by
  have hboth : v.Clean ∧ v.Inside := by
    induction h with
    | program => exact ⟨hc, fun _ ho => nomatch ho⟩
    | part _ hw ih => exact ⟨ih.1.part hw, ih.2.part ih.1 hw⟩
  exact hboth.2

/-- The names that are declared in the scopes around a place are different ones of the program. -/
theorem locals (h : Visited program v) :
    (v.openers.flatMap Opener.locals).Subperm (localNames program) := by
  have hopeners : v.openers.Subperm (bodyOpeners program) :=
    (List.sublist_append_right ..).subperm.trans h.allOpeners
  obtain ⟨os, hperm, hsub⟩ := hopeners
  exact ⟨_, hperm.flatMap_right _, hsub.flatMap _⟩

end Visited

theorem bodyOccurrences_eq (body : List Stmt) : bodyOccurrences body = occurrences body := by
  induction body with
  | nil => rfl
  | cons s body ih => rw [bodyOccurrences, ih, occurrences, occurrences, List.flatMap_cons]

end Lox
