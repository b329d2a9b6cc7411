/-
# The mentions of a variable

A variable or parameter of a local scope is mentioned where it is declared,
and wherever its name is used with a record that leads to its scope. Flags for
the scopes around a place, the innermost first, say which one that is, so the
mentions of a tree whose names are bound can be listed (`Lox.Stmt.mentions`).
They are some of its marks, in their order.

Key definitions: `Lox.Opener.declares`, `Lox.NameUse.IsOf`, `Lox.Expr.mentions`,
`Lox.Stmt.mentions`, `Lox.bodyMentions`.
Key theorems: `Lox.mem_bodyMentions`, `Lox.text_of_bodyMentions`, `Lox.bodyMentions_sublist`.
-/
import Lox.Proofs.Binding.Distinct
import Lox.Proofs.Grammar.Marks

namespace Lox

/-! ### Variables and their uses -/

/-- The scope is the one of the variable. -/
def Opener.declares (d : Mark) (o : Opener) : Bool := d ∈ o.vars

/-- The use has the name of the variable, and its record leads to the scope of it. -/
def NameUse.IsOf (d : Mark) (ls : List Bool) (use : NameUse) : Prop :=
  use.name.text = d.text ∧ ∃ hops ∈ use.hops, ls.getD hops false = true

instance (d : Mark) (ls : List Bool) (use : NameUse) : Decidable (use.IsOf d ls) :=
  inferInstanceAs (Decidable (_ ∧ _))

def NameUse.mentions (d : Mark) (ls : List Bool) (use : NameUse) : List Mark :=
  if use.IsOf d ls then [use.name] else []

section

variable (d : Mark)

mutual

/-- The uses of the variable in an expression. -/
def Expr.mentions (ls : List Bool) : Expr → List Mark
  | .literal _ | .receiver _ | .superMethod .. | .stray _ => []
  | .grouping e | .unary _ e | .get e _ => e.mentions ls
  | .binary left _ right | .logical left _ right => left.mentions ls ++ right.mentions ls
  | .ternary cond yes no => cond.mentions ls ++ yes.mentions ls ++ no.mentions ls
  | .variable use => use.mentions d ls
  | .assign use value => use.mentions d ls ++ value.mentions ls
  | .call callee _ args => callee.mentions ls ++ argMentions ls args
  | .set object _ value => object.mentions ls ++ value.mentions ls

def argMentions (ls : List Bool) : List Expr → List Mark
  | [] => []
  | arg :: args => arg.mentions ls ++ argMentions ls args

end

def optionMentions (ls : List Bool) : Option Expr → List Mark
  | none => []
  | some e => e.mentions d ls

mutual

/-- The mentions of the variable in a statement: its declaration, if that stands here, and uses. -/
def Stmt.mentions (ls : List Bool) : Stmt → List Mark
  | .expr value | .print value => value.mentions d ls
  | .var name initial =>
    (if ls.headD false = true ∧ name = d then [name] else []) ++ optionMentions d ls initial
  | .block body => bodyMentions ((Opener.block body).declares d :: ls) body
  | .branch cond yes none => cond.mentions d ls ++ yes.mentions ls
  | .branch cond yes (some no) => cond.mentions d ls ++ yes.mentions ls ++ no.mentions ls
  | .loop cond body => cond.mentions d ls ++ body.mentions ls
  | .function decl => functionMentions ls decl
  | .giveBack _ value => optionMentions d ls value
  | .classDecl _ none methods => methodMentions (false :: ls) methods
  | .classDecl _ (some use) methods =>
    use.mentions d ls ++ methodMentions (false :: false :: ls) methods
  | .stray _ => []

def bodyMentions (ls : List Bool) : List Stmt → List Mark
  | [] => []
  | stmt :: body => stmt.mentions ls ++ bodyMentions ls body

def functionMentions (ls : List Bool) : Fun → List Mark
  | ⟨name, params, body⟩ =>
    params.filter (· = d) ++
      bodyMentions ((Opener.call ⟨name, params, body⟩).declares d :: ls) body

def methodMentions (ls : List Bool) : List Fun → List Mark
  | [] => []
  | method :: methods => functionMentions ls method ++ methodMentions ls methods

end

end

/-! ### Binding names leaves declarations alone -/

open Scoping

theorem var?_boundStmt (s : Stmt) (σ : Scoping) : (σ.boundStmt s).var? = s.var? := by
  cases s with
  | var name initial =>
    cases initial with
    | none => rfl
    | some e =>
      rw [boundStmt_var]
      rfl
  | branch cond yes no => cases no <;> rfl
  | giveBack keyword value =>
    cases value with
    | none => rw [boundStmt_giveBack_none]
    | some e =>
      rw [boundStmt_giveBack]
      rfl
  | classDecl name superclass ms =>
    cases superclass with
    | none => rfl
    | some use =>
      rw [boundStmt_subclass]
      rfl
  | expr _ | print _ | block _ | loop _ _ | function _ | stray _ => rfl

theorem variables_boundBody (body : List Stmt) : ∀ σ : Scoping,
    (σ.boundBody body).filterMap Stmt.var? = body.filterMap Stmt.var? := by
  induction body with
  | nil => exact fun _ => rfl
  | cons s body ih =>
    intro σ
    show (σ.boundStmt s :: (σ.behindStmt s).boundBody body).filterMap Stmt.var? = _
    rw [List.filterMap_cons, List.filterMap_cons, var?_boundStmt, ih]

section

variable {d : Mark}

theorem declares_block (body : List Stmt) (σ : Scoping) :
    (Opener.block (σ.boundBody body)).declares d = (Opener.block body).declares d := by
  rw [Opener.declares, Opener.declares, Opener.vars, Opener.vars]
  simp only [Opener.body, variables_boundBody]
  rfl

theorem declares_call (name : Mark) (params : List Mark) (body : List Stmt) (σ : Scoping) :
    (Opener.call ⟨name, params, σ.boundBody body⟩).declares d =
      (Opener.call ⟨name, params, body⟩).declares d := by
  rw [Opener.declares, Opener.declares, Opener.vars, Opener.vars]
  simp only [Opener.body, variables_boundBody]
  rfl

/-! ### The declaration is among the mentions -/

theorem mem_bodyMentions_of_variable {ls : List Bool} : ∀ {body : List Stmt},
    d ∈ body.filterMap Stmt.var? → d ∈ bodyMentions d (true :: ls) body
  | [], h => nomatch h
  | s :: body, h => by
    rw [bodyMentions, List.mem_append]
    rw [List.filterMap_cons] at h
    cases s with
    | var name initial =>
      obtain rfl | h := List.mem_cons.mp h
      · refine .inl (List.mem_append_left _ ?_)
        rw [if_pos ⟨rfl, rfl⟩]
        exact List.mem_singleton_self d
      · exact .inr (mem_bodyMentions_of_variable h)
    | expr _ | print _ | block _ | branch _ _ _ | loop _ _ | function _ | giveBack _ _
    | classDecl _ _ _ | stray _ => exact .inr (mem_bodyMentions_of_variable h)

mutual

theorem Stmt.mem_mentions {o : Opener} (hd : d ∈ o.vars) : ∀ {s : Stmt} {σ : Scoping}
    {ls : List Bool}, o ∈ s.openers → d ∈ (σ.boundStmt s).mentions d ls
  | .expr _, _, _, h | .print _, _, _, h | .var _ _, _, _, h | .giveBack _ _, _, _, h
  | .stray _, _, _, h => nomatch h
  | .block body, σ, ls, h => by
    show d ∈ bodyMentions d ((Opener.block ((σ.enter []).boundBody body)).declares d :: ls)
      ((σ.enter []).boundBody body)
    obtain rfl | h := List.mem_cons.mp h
    · rw [declares_block, Opener.declares, decide_eq_true hd]
      refine mem_bodyMentions_of_variable ?_
      rw [variables_boundBody]
      exact hd
    · exact mem_bodyMentions hd h
  | .branch cond yes none, _, _, h => List.mem_append_right _ (Stmt.mem_mentions hd h)
  | .branch cond yes (some no), _, _, h => by
    obtain h | h := List.mem_append.mp h
    · exact List.mem_append_left _ (List.mem_append_right _ (Stmt.mem_mentions hd h))
    · exact List.mem_append_right _ (Stmt.mem_mentions hd h)
  | .loop cond body, _, _, h => List.mem_append_right _ (Stmt.mem_mentions hd h)
  | .function decl, _, _, h => mem_functionMentions hd h
  | .classDecl name none ms, _, _, h => by
    obtain rfl | h := List.mem_cons.mp h
    · cases hd
    · exact mem_methodMentions hd h
  | .classDecl name (some use) ms, σ, _, h => by
    rw [boundStmt_subclass]
    obtain rfl | h := List.mem_cons.mp h
    · cases hd
    · obtain rfl | h := List.mem_cons.mp h
      · cases hd
      · exact List.mem_append_right _ (mem_methodMentions hd h)

/-- A variable of a local scope is mentioned in the program once its names are bound. -/
theorem mem_bodyMentions {o : Opener} (hd : d ∈ o.vars) : ∀ {body : List Stmt} {σ : Scoping}
    {ls : List Bool}, o ∈ bodyOpeners body → d ∈ bodyMentions d ls (σ.boundBody body)
  | [], _, _, h => nomatch h
  | s :: body, _, _, h => by
    obtain h | h := List.mem_append.mp h
    · exact List.mem_append_left _ (Stmt.mem_mentions hd h)
    · exact List.mem_append_right _ (mem_bodyMentions hd h)

theorem mem_functionMentions {o : Opener} (hd : d ∈ o.vars) : ∀ {kind : FunctionKind} {decl : Fun}
    {σ : Scoping} {ls : List Bool}, o ∈ functionOpeners decl →
      d ∈ functionMentions d ls (σ.boundFunction kind decl)
  | kind, ⟨name, params, body⟩, σ, ls, h => by
    show d ∈ params.filter (· = d) ++ bodyMentions d ((Opener.call ⟨name, params,
      (σ.enteringFunction kind params).boundBody body⟩).declares d :: ls)
        ((σ.enteringFunction kind params).boundBody body)
    rw [List.mem_append]
    obtain rfl | h := List.mem_cons.mp h
    · rw [declares_call, Opener.declares, decide_eq_true hd]
      obtain hd | hd := List.mem_append.mp hd
      · exact .inl (List.mem_filter.mpr ⟨hd, decide_eq_true rfl⟩)
      · refine .inr (mem_bodyMentions_of_variable ?_)
        rw [variables_boundBody]
        exact hd
    · exact .inr (mem_bodyMentions hd h)

theorem mem_methodMentions {o : Opener} (hd : d ∈ o.vars) : ∀ {ms : List Fun} {σ : Scoping}
    {ls : List Bool}, o ∈ methodOpeners ms → d ∈ methodMentions d ls (σ.boundMethods ms)
  | [], _, _, h => nomatch h
  | m :: ms, _, _, h => by
    obtain h | h := List.mem_append.mp h
    · exact List.mem_append_left _ (mem_functionMentions hd h)
    · exact List.mem_append_right _ (mem_methodMentions hd h)

end

/-! ### Mentions have the name of the variable -/

theorem NameUse.text_of_mentions {ls : List Bool} {use : NameUse} :
    ∀ m ∈ use.mentions d ls, m.text = d.text := by
  intro m hm
  unfold NameUse.mentions at hm
  split at hm
  · rename_i hof
    rw [List.mem_singleton.mp hm]
    exact hof.1
  · cases hm

mutual

theorem Expr.text_of_mentions {ls : List Bool} : ∀ {e : Expr}, ∀ m ∈ e.mentions d ls, m.text = d.text
  | .literal _ | .receiver _ | .superMethod .. | .stray _ => List.forall_mem_nil _
  | .grouping e | .unary _ e | .get e _ => e.text_of_mentions
  | .binary l _ r | .logical l _ r =>
    List.forall_mem_append.mpr ⟨l.text_of_mentions, r.text_of_mentions⟩
  | .ternary cond yes no => List.forall_mem_append.mpr
    ⟨List.forall_mem_append.mpr ⟨cond.text_of_mentions, yes.text_of_mentions⟩, no.text_of_mentions⟩
  | .variable use => use.text_of_mentions
  | .assign use value => List.forall_mem_append.mpr ⟨use.text_of_mentions, value.text_of_mentions⟩
  | .call callee _ _ => List.forall_mem_append.mpr ⟨callee.text_of_mentions, text_of_argMentions⟩
  | .set object _ value =>
    List.forall_mem_append.mpr ⟨object.text_of_mentions, value.text_of_mentions⟩

theorem text_of_argMentions {ls : List Bool} : ∀ {es : List Expr},
    ∀ m ∈ argMentions d ls es, m.text = d.text
  | [] => List.forall_mem_nil _
  | e :: _ => List.forall_mem_append.mpr ⟨e.text_of_mentions, text_of_argMentions⟩

end

theorem text_of_optionMentions {ls : List Bool} : ∀ {o : Option Expr},
    ∀ m ∈ optionMentions d ls o, m.text = d.text
  | none => List.forall_mem_nil _
  | some e => e.text_of_mentions

mutual

theorem Stmt.text_of_mentions : ∀ {s : Stmt} {ls : List Bool}, ∀ m ∈ s.mentions d ls, m.text = d.text
  | .expr e, _ | .print e, _ => e.text_of_mentions
  | .var name initial, ls => by
    refine List.forall_mem_append.mpr ⟨fun m hm => ?_, text_of_optionMentions⟩
    split at hm
    · rename_i hd
      rw [List.mem_singleton.mp hm, hd.2]
    · cases hm
  | .block body, _ => text_of_bodyMentions
  | .branch cond yes none, _ | .loop cond yes, _ =>
    List.forall_mem_append.mpr ⟨cond.text_of_mentions, yes.text_of_mentions⟩
  | .branch cond yes (some no), _ => List.forall_mem_append.mpr
    ⟨List.forall_mem_append.mpr ⟨cond.text_of_mentions, yes.text_of_mentions⟩, no.text_of_mentions⟩
  | .function decl, _ => text_of_functionMentions
  | .giveBack _ value, _ => text_of_optionMentions
  | .classDecl _ none ms, _ => text_of_methodMentions
  | .classDecl _ (some use) ms, _ =>
    List.forall_mem_append.mpr ⟨use.text_of_mentions, text_of_methodMentions⟩
  | .stray _, _ => List.forall_mem_nil _

theorem text_of_bodyMentions : ∀ {body : List Stmt} {ls : List Bool},
    ∀ m ∈ bodyMentions d ls body, m.text = d.text
  | [], _ => List.forall_mem_nil _
  | s :: _, _ => List.forall_mem_append.mpr ⟨s.text_of_mentions, text_of_bodyMentions⟩

theorem text_of_functionMentions : ∀ {decl : Fun} {ls : List Bool},
    ∀ m ∈ functionMentions d ls decl, m.text = d.text
  | ⟨_, params, _⟩, _ => List.forall_mem_append.mpr ⟨fun m hm => by
      rw [of_decide_eq_true (List.mem_filter.mp hm).2], text_of_bodyMentions⟩

theorem text_of_methodMentions : ∀ {ms : List Fun} {ls : List Bool},
    ∀ m ∈ methodMentions d ls ms, m.text = d.text
  | [], _ => List.forall_mem_nil _
  | _ :: _, _ => List.forall_mem_append.mpr ⟨text_of_functionMentions, text_of_methodMentions⟩

end

/-! ### Mentions are marks -/

theorem NameUse.mentions_sublist (ls : List Bool) (use : NameUse) :
    (use.mentions d ls).Sublist [use.name] := by
  unfold NameUse.mentions
  split
  · exact .refl _
  · exact List.nil_sublist _

mutual

/-- Binding names leaves marks alone, so the mentions are marks of the expression as it was. -/
theorem Expr.mentions_sublist : ∀ (e : Expr) (σ : Scoping) (ls : List Bool),
    ((σ.boundExpr e).mentions d ls).Sublist e.marks
  | .literal _, _, _ | .stray _, _, _ => List.nil_sublist _
  | .grouping e, σ, ls => e.mentions_sublist σ ls
  | .unary _ e, σ, ls => (e.mentions_sublist σ ls).cons _
  | .get e _, σ, ls => (e.mentions_sublist σ ls).trans (List.sublist_append_left ..)
  | .binary l _ r, σ, ls | .logical l _ r, σ, ls =>
    (l.mentions_sublist σ ls).append ((r.mentions_sublist (σ.behindExpr l) ls).cons _)
  | .ternary cond yes no, σ, ls =>
    ((cond.mentions_sublist σ ls).append (yes.mentions_sublist (σ.behindExpr cond) ls)).append
      (no.mentions_sublist ((σ.behindExpr cond).behindExpr yes) ls)
  | .variable use, σ, ls => by
    show (((resolveVariable use).run σ).1.mentions d ls).Sublist [use.name]
    rw [run_variable]
    exact NameUse.mentions_sublist ls _
  | .assign use value, σ, ls =>
    (NameUse.mentions_sublist ls ⟨use.name, (σ.behindExpr value).hops? use.name.text⟩).append
      (value.mentions_sublist σ ls)
  | .call callee _ args, σ, ls =>
    (callee.mentions_sublist σ ls).append ((argMentions_sublist args (σ.behindExpr callee) ls).cons _)
  | .set object _ value, σ, ls =>
    (object.mentions_sublist (σ.behindExpr value) ls).append ((value.mentions_sublist σ ls).cons _)
  | .receiver use, σ, ls => by
    rw [boundExpr, run_receiver]
    split
    · exact List.nil_sublist _
    · exact List.nil_sublist _
  | .superMethod use m, σ, ls => by
    rw [boundExpr, run_superMethod]
    exact List.nil_sublist _

theorem argMentions_sublist : ∀ (es : List Expr) (σ : Scoping) (ls : List Bool),
    (argMentions d ls (σ.boundArgs es)).Sublist (argMarks es)
  | [], _, _ => List.nil_sublist _
  | e :: es, σ, ls =>
    (e.mentions_sublist σ ls).append (argMentions_sublist es (σ.behindExpr e) ls)

end

theorem declaration_sublist (ls : List Bool) (name : Mark) :
    (if ls.headD false = true ∧ name = d then [name] else []).Sublist [name] := by
  split
  · exact .refl _
  · exact List.nil_sublist _

mutual

theorem Stmt.mentions_sublist : ∀ (s : Stmt) (σ : Scoping) (ls : List Bool),
    ((σ.boundStmt s).mentions d ls).Sublist s.marks
  | .expr e, σ, ls | .print e, σ, ls => e.mentions_sublist σ ls
  | .var name none, σ, ls => (declaration_sublist ls name).append (List.nil_sublist [])
  | .var name (some e), σ, ls => by
    rw [boundStmt_var]
    exact (declaration_sublist ls name).append (e.mentions_sublist (σ.initializing name) ls)
  | .block body, σ, ls => bodyMentions_sublist body (σ.enter []) _
  | .branch cond yes none, σ, ls | .loop cond yes, σ, ls =>
    (cond.mentions_sublist σ ls).append (yes.mentions_sublist (σ.behindExpr cond) ls)
  | .branch cond yes (some no), σ, ls =>
    ((cond.mentions_sublist σ ls).append (yes.mentions_sublist (σ.behindExpr cond) ls)).append
      (no.mentions_sublist ((σ.behindExpr cond).behindStmt yes) ls)
  | .function decl, σ, ls =>
    functionMentions_sublist .function decl ((σ.declare decl.name).define decl.name) ls
  | .giveBack keyword none, σ, ls => by
    rw [boundStmt_giveBack_none]
    exact List.nil_sublist _
  | .giveBack keyword (some e), σ, ls => by
    rw [boundStmt_giveBack]
    exact (e.mentions_sublist (σ.givingBack keyword) ls).cons _
  | .classDecl name none ms, σ, ls =>
    (methodMentions_sublist ms ((σ.declaringClass name).enter ["this"]) _).cons _
  | .classDecl name (some use) ms, σ, ls => by
    rw [boundStmt_subclass]
    exact ((NameUse.mentions_sublist ls _).append (methodMentions_sublist ms _ _)).cons _
  | .stray _, _, _ => List.nil_sublist _

theorem bodyMentions_sublist : ∀ (body : List Stmt) (σ : Scoping) (ls : List Bool),
    (bodyMentions d ls (σ.boundBody body)).Sublist (bodyMarks body)
  | [], _, _ => List.nil_sublist _
  | s :: body, σ, ls =>
    (s.mentions_sublist σ ls).append (bodyMentions_sublist body (σ.behindStmt s) ls)

theorem functionMentions_sublist : ∀ (kind : FunctionKind) (decl : Fun) (σ : Scoping)
    (ls : List Bool), (functionMentions d ls (σ.boundFunction kind decl)).Sublist (functionMarks decl)
  | kind, ⟨_, params, body⟩, σ, ls =>
    ((List.filter_sublist (l := params)).append
      (bodyMentions_sublist body (σ.enteringFunction kind params) (_ :: ls))).cons _

theorem methodMentions_sublist : ∀ (ms : List Fun) (σ : Scoping) (ls : List Bool),
    (methodMentions d ls (σ.boundMethods ms)).Sublist (methodMarks ms)
  | [], _, _ => List.nil_sublist _
  | m :: ms, σ, ls =>
    (functionMentions_sublist (methodKind m.name) m σ ls).append
      (methodMentions_sublist ms (σ.behindFunction (methodKind m.name) m) ls)

end

end

end Lox
