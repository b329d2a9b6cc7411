/-
# A declaration that is never seen

A program and the same one with a declaration more, that no use of its name
sees, run alike in a session (`Lox.Unseen.run_agrees`). The functions of
earlier inputs, and those of the program, may say the name. So it is exchanged
first, in the scope of the declaration, for a name that none of them says. The
program with that declaration agrees with the one that has the first, as
renaming is invisible; and it agrees with the program without any, since then
nothing that runs says what it declares.

Key definitions: `Lox.Unseen`.
Key theorems: `Lox.exists_isName`, `Lox.Grown.respell`, `Lox.Unseen.run_agrees`.
-/
import Lox.Proofs.Declaring.Following
import Lox.Proofs.Declaring.Overlooking
import Lox.Proofs.Renaming.Invisible
import Mathlib.Data.Set.Finite.Basic

namespace Lox

open Respelling Scanner Scoping

/-! ### New names -/

/-- A name of underscores. -/
def underscores (n : Nat) : String := String.ofList (List.replicate (n + 1) '_')

theorem isName_underscores (n : Nat) : IsName (underscores n) where
  begins := by
    rw [underscores, String.toList_ofList]
    exact nextItem_word.mpr (by decide)
  whole := by
    have hall : ∀ c ∈ List.replicate (n + 1) '_', continuesWord c = true := by
      intro c hc
      rw [List.eq_of_mem_replicate hc]
      decide
    have hspan : spanLength continuesWord (List.replicate (n + 1) '_' ++ []) = _ :=
      spanLength_append_of_all hall
    rw [List.append_nil] at hspan
    rw [underscores, String.toList_ofList]
    exact hspan
  free := by
    have hwords : ∀ word ∈ keywords, word.1.toList.head? ≠ some '_' := by decide
    have hnone : keywords.lookup (underscores n) = none := by
      refine List.lookup_eq_none_iff.mpr fun word hword => bne_iff_ne.mpr ?_
      rintro heq
      refine hwords word hword ?_
      rw [← heq, underscores, String.toList_ofList]
      rfl
    rw [wordKind, hnone]
    rfl

theorem underscores_injective : Function.Injective underscores := by
  intro n m h
  have hlength := congrArg (fun s : String => s.toList.length) h
  simpa [underscores] using hlength

/-- There is a name that is none of these. -/
theorem exists_isName (used : List String) : ∃ name, IsName name ∧ name ∉ used := by
  obtain ⟨_, ⟨n, rfl⟩, hn⟩ :=
    (Set.infinite_range_of_injective underscores_injective).exists_notMem_finset used.toFinset
  exact ⟨_, isName_underscores n, fun h => hn (List.mem_toFinset.mpr h)⟩

/-! ### The marks of bound trees -/

mutual

/-- Binding names leaves all marks as they are. -/
theorem Expr.marks_bound : ∀ (e : Expr) (σ : Scoping), (σ.boundExpr e).marks = e.marks
  | .literal _, _ | .stray _, _ => rfl
  | .grouping e, σ => e.marks_bound σ
  | .unary op e, σ => congrArg (op :: ·) (e.marks_bound σ)
  | .get e name, σ => congrArg (· ++ [name]) (e.marks_bound σ)
  | .binary l op r, σ | .logical l op r, σ =>
    congrArg₂ (· ++ op :: ·) (l.marks_bound σ) (r.marks_bound (σ.behindExpr l))
  | .ternary cond yes no, σ =>
    congrArg₂ (· ++ ·)
      (congrArg₂ (· ++ ·) (cond.marks_bound σ) (yes.marks_bound (σ.behindExpr cond)))
      (no.marks_bound ((σ.behindExpr cond).behindExpr yes))
  | .variable use, σ => by
    rw [boundExpr_variable]
    rfl
  | .assign use value, σ => congrArg (use.name :: ·) (value.marks_bound σ)
  | .call callee paren args, σ =>
    congrArg₂ (· ++ paren :: ·) (callee.marks_bound σ) (argMarks_bound args (σ.behindExpr callee))
  | .set object name value, σ =>
    congrArg₂ (· ++ name :: ·) (object.marks_bound (σ.behindExpr value)) (value.marks_bound σ)
  | .receiver use, σ => by
    rw [boundExpr, run_receiver]
    split <;> rfl
  | .superMethod use m, σ => by
    rw [boundExpr, run_superMethod]
    rfl

theorem argMarks_bound : ∀ (es : List Expr) (σ : Scoping), argMarks (σ.boundArgs es) = argMarks es
  | [], _ => rfl
  | e :: es, σ => congrArg₂ (· ++ ·) (e.marks_bound σ) (argMarks_bound es (σ.behindExpr e))

end

mutual

theorem Stmt.marks_bound : ∀ (s : Stmt) (σ : Scoping), (σ.boundStmt s).marks = s.marks
  | .expr e, σ | .print e, σ => e.marks_bound σ
  | .var name none, σ => rfl
  | .var name (some e), σ => by
    rw [boundStmt_var]
    exact congrArg (name :: ·) (e.marks_bound (σ.initializing name))
  | .block body, σ => bodyMarks_bound body (σ.enter [])
  | .branch cond yes none, σ | .loop cond yes, σ =>
    congrArg₂ (· ++ ·) (cond.marks_bound σ) (yes.marks_bound (σ.behindExpr cond))
  | .branch cond yes (some no), σ =>
    congrArg₂ (· ++ ·)
      (congrArg₂ (· ++ ·) (cond.marks_bound σ) (yes.marks_bound (σ.behindExpr cond)))
      (no.marks_bound ((σ.behindExpr cond).behindStmt yes))
  | .function decl, σ => functionMarks_bound .function decl ((σ.declare decl.name).define decl.name)
  | .giveBack keyword none, σ => by
    rw [boundStmt_giveBack_none]
  | .giveBack keyword (some e), σ => by
    rw [boundStmt_giveBack]
    exact congrArg (keyword :: ·) (e.marks_bound (σ.givingBack keyword))
  | .classDecl name none ms, σ =>
    congrArg (name :: ·) (methodMarks_bound ms ((σ.declaringClass name).enter ["this"]))
  | .classDecl name (some use) ms, σ => by
    rw [boundStmt_subclass]
    exact congrArg (name :: use.name :: ·) (methodMarks_bound ms _)
  | .stray _, _ => rfl

theorem bodyMarks_bound : ∀ (body : List Stmt) (σ : Scoping),
    bodyMarks (σ.boundBody body) = bodyMarks body
  | [], _ => rfl
  | s :: body, σ => congrArg₂ (· ++ ·) (s.marks_bound σ) (bodyMarks_bound body (σ.behindStmt s))

theorem functionMarks_bound : ∀ (kind : FunctionKind) (decl : Fun) (σ : Scoping),
    functionMarks (σ.boundFunction kind decl) = functionMarks decl
  | kind, ⟨name, params, body⟩, σ =>
    congrArg (name :: params ++ ·) (bodyMarks_bound body (σ.enteringFunction kind params))

theorem methodMarks_bound : ∀ (ms : List Fun) (σ : Scoping),
    methodMarks (σ.boundMethods ms) = methodMarks ms
  | [], _ => rfl
  | m :: ms, σ => congrArg₂ (· ++ ·) (functionMarks_bound (methodKind m.name) m σ)
      (methodMarks_bound ms (σ.behindFunction (methodKind m.name) m))

end

/-! ### Grown trees spelled otherwise -/

theorem bodyRespell_append (r : Respelling) (body more : List Stmt) :
    bodyRespell r (body ++ more) = bodyRespell r body ++ bodyRespell r more := by
  induction body with
  | nil => rfl
  | cons s body ih => exact congrArg (s.respell r :: ·) ih

theorem methodsRespell_append (r : Respelling) (ms more : List Fun) :
    methodsRespell r (ms ++ more) = methodsRespell r ms ++ methodsRespell r more := by
  induction ms with
  | nil => rfl
  | cons m ms ih => exact congrArg (functionRespell r m :: ·) ih

/-- The part spelled otherwise. -/
def Construct.respell (r : Respelling) : Construct → Construct
  | .expr e => .expr (e.respell r)
  | .args es => .args (argsRespell r es)
  | .stmt s => .stmt (s.respell r)
  | .body stmts => .body (bodyRespell r stmts)
  | .function kind decl => .function kind (functionRespell r decl)
  | .methods decls => .methods (methodsRespell r decls)

theorem eq_nil_of_bodyRespell {r : Respelling} {body : List Stmt} (h : bodyRespell r body = []) :
    body = [] := by
  cases body with
  | nil => rfl
  | cons s body => cases h

/-- Of whatever kind the function is. -/
theorem Grown.ofKind {d : Mark} {o : Opener} {behind : List Stmt} {kind : FunctionKind} {f f' : Fun}
    (h : Grown d o behind (.function kind f) (.function kind f')) (kind' : FunctionKind) :
    Grown d o behind (.function kind' f) (.function kind' f') := by
  cases h with
  | inCall ho => exact .inCall ho
  | call h => exact .call h

/-- Spelled otherwise the part has the declaration spelled otherwise. -/
theorem Grown.respell {d : Mark} {o : Opener} {behind : List Stmt} {k k' : Construct}
    (r : Respelling) (h : Grown d o behind k k') : ∃ o₁ behind₁,
      Grown (d.respell r) o₁ behind₁ (k.respell r) (k'.respell r) ∧ (o₁.body = [] → o.body = []) := by
  induction h with
  | @inBlock before ho =>
    subst ho
    refine ⟨.block (bodyRespell r (before ++ behind)), bodyRespell r behind, ?_, eq_nil_of_bodyRespell⟩
    show Grown _ _ _ (.stmt (.block (bodyRespell r (before ++ behind))))
      (.stmt (.block (bodyRespell r (before ++ .var d none :: behind))))
    rw [bodyRespell_append, bodyRespell_append]
    exact .inBlock rfl
  | @inCall kind name params before ho =>
    subst ho
    refine ⟨.call (functionRespell r ⟨name, params, before ++ behind⟩), bodyRespell r behind, ?_,
      eq_nil_of_bodyRespell⟩
    show Grown _ _ _
      (.function kind ⟨name.respell r, params.map (Mark.respell r), bodyRespell r (before ++ behind)⟩)
      (.function kind
        ⟨name.respell r, params.map (Mark.respell r), bodyRespell r (before ++ .var d none :: behind)⟩)
    rw [functionRespell, bodyRespell_append, bodyRespell_append]
    exact .inCall rfl
  | block _ ih =>
    obtain ⟨o₁, behind₁, h, hempty⟩ := ih
    exact ⟨o₁, behind₁, .block h, hempty⟩
  | call _ ih =>
    obtain ⟨o₁, behind₁, h, hempty⟩ := ih
    exact ⟨o₁, behind₁, .call h, hempty⟩
  | @among before later s s' _ ih =>
    obtain ⟨o₁, behind₁, h, hempty⟩ := ih
    refine ⟨o₁, behind₁, ?_, hempty⟩
    show Grown _ _ _ (.body (bodyRespell r (before ++ s :: later)))
      (.body (bodyRespell r (before ++ s' :: later)))
    rw [bodyRespell_append, bodyRespell_append]
    exact .among h
  | yes no _ ih =>
    obtain ⟨o₁, behind₁, h, hempty⟩ := ih
    refine ⟨o₁, behind₁, ?_, hempty⟩
    cases no with
    | none => exact .yes none h
    | some no => exact .yes (some (no.respell r)) h
  | no _ ih =>
    obtain ⟨o₁, behind₁, h, hempty⟩ := ih
    exact ⟨o₁, behind₁, .no h, hempty⟩
  | loop _ ih =>
    obtain ⟨o₁, behind₁, h, hempty⟩ := ih
    exact ⟨o₁, behind₁, .loop h, hempty⟩
  | function _ ih =>
    obtain ⟨o₁, behind₁, h, hempty⟩ := ih
    exact ⟨o₁, behind₁, .function h, hempty⟩
  | @classDecl name superclass ms ms' _ ih =>
    obtain ⟨o₁, behind₁, h, hempty⟩ := ih
    refine ⟨o₁, behind₁, ?_, hempty⟩
    cases superclass with
    | none => exact .classDecl none h
    | some use => exact .classDecl (some (use.respell r)) h
  | @method before later m m' h ih =>
    obtain ⟨o₁, behind₁, hgrown, hempty⟩ := ih
    refine ⟨o₁, behind₁, ?_, hempty⟩
    show Grown _ _ _ (.methods (methodsRespell r (before ++ m :: later)))
      (.methods (methodsRespell r (before ++ m' :: later)))
    rw [methodsRespell_append, methodsRespell_append]
    exact .method (hgrown.ofKind _)

/-! ### Running with the declaration -/

theorem Report.Agrees.symm {a b : Report} (h : a.Agrees b) : b.Agrees a :=
  ⟨h.executed.symm, h.sayings.symm, h.escaped.symm, h.output.symm⟩

theorem Report.Agrees.runsOut {a b : Report} (h : a.Agrees b) (ha : a.RunsOut) : b.RunsOut := by
  unfold RunsOut
  rw [← h.sayings]
  exact ha

theorem Report.Alike.trans_agrees {a b c : Report} (h : a.Alike b) (g : b.Agrees c) : a.Agrees c :=
  ⟨h.executed.trans g.executed, h.sayings.trans g.sayings,
    (congrArg (Option.map Fault.nameless) h.escaped).trans g.escaped, h.output.trans g.output⟩

/-- The marks of all functions that the store has. -/
def Store.marks (s : Store) : List Mark :=
  (default :: s.functions.toList).flatMap fun closure : Closure => functionMarks closure.decl

theorem Store.functionMarks_subset (s : Store) (id : FunctionId) :
    functionMarks (s.function id).decl ⊆ s.marks := by
  intro m hm
  refine List.mem_flatMap.mpr ⟨s.function id, ?_, hm⟩
  unfold function
  rw [Array.getD_eq_getD_getElem?]
  cases hget : s.functions[id]? with
  | none => exact List.mem_cons_self ..
  | some closure =>
    exact List.mem_cons_of_mem _ (Array.mem_toList_iff.mpr (Array.mem_of_getElem? hget))

/-- The second program is the first one with a declaration of `d` in the scope of `o`, before these
statements of it, where no use of its name sees it. -/
structure Unseen (d : Mark) (o : Opener) (behind stmts stmts' : List Stmt) : Prop where
  clean : (Visit.whole stmts).Clean
  spared : Spared (VisitedIn [stmts]) d.text o behind
  grown : Grown d o behind (.body stmts) (.body stmts')
  apart : ∀ m ∈ bodyMarks stmts, m.offset ≠ d.offset
  alone : ∀ new, bodyRespell (.replacing new [d]) stmts = stmts
  named : IsName d.text

namespace Unseen

variable {d : Mark} {o : Opener} {behind stmts stmts' : List Stmt}

theorem stock (h : Unseen d o behind stmts stmts') : Stock (VisitedIn [stmts]) :=
  stock_visitedIn (List.forall_mem_singleton.mpr h.clean)

theorem visited (stmts : List Stmt) : VisitedIn [stmts] (Visit.whole stmts) :=
  ⟨stmts, List.mem_singleton_self _, .program⟩

/-- The pass of names makes the same of both, but for the declaration, and notes the same misuses. -/
theorem bindsAlike (h : Unseen d o behind stmts stmts') :
    BindsAlike d o .initial (.body stmts) (.body stmts') :=
  h.grown.bindsAlike h.stock h.spared (visited stmts)

/-- A new name in place of the declared one. -/
theorem follows (h : Unseen d o behind stmts stmts') {new : String} (hnew : IsName new)
    (hunused : ∀ m ∈ bodyMarks stmts, m.text ≠ new) :
    ∃ c : Exchange, c.new = new ∧
      bodyFollows c (.replacing new [d]) [] (Scoping.initial.boundBody stmts') ∧
      bodyFollows c (.replacing new [d]) [] (Scoping.initial.boundBody stmts) := by
  let c : Exchange := ⟨d.text, new, h.named.isPlain, hnew.isPlain⟩
  have hstays : ∀ m ∈ bodyMarks stmts, m.Stays c (.replacing new [d]) := fun m hm =>
    ⟨Mark.keeps_replacing (by simpa using h.apart m hm), hunused m hm⟩
  have hd : (d.respell (.replacing new [d])).text = c.new := by
    simp [Respelling.text_replacing, c]
  exact ⟨c, rfl, h.grown.follows h.stock h.spared rfl hd (visited stmts) .nil hstays,
    bodyFollows_lacking h.stock (visited stmts) .nil hstays⟩

/-- In a session both programs agree, unless the declaration is all that its scope has and the second
program runs out of steps. -/
theorem run_agrees (h : Unseen d o behind stmts stmts') (limits : Limits) (clock : Clock)
    (inputs : List Input) :
    let session := (Session.start limits clock).after inputs
    let first := session.execute (interpret limits (Scoping.initial.boundBody stmts))
    let second := session.execute (interpret limits (Scoping.initial.boundBody stmts'))
    (o.body = [] ∧ second.1.RunsOut) ∨ first.1.Agrees second.1 := by
  intro session first second
  obtain ⟨new, hnew, hunused⟩ :=
    exists_isName ((bodyMarks stmts ++ session.store.marks).map Mark.text)
  have hnone : ∀ m ∈ bodyMarks stmts ++ session.store.marks, m.text ≠ new :=
    fun m hm heq => hunused (heq ▸ List.mem_map_of_mem hm)
  obtain ⟨hstmts, hstore⟩ := List.forall_mem_append.mp hnone
  obtain ⟨c, rfl, hfollows', hfollows⟩ := h.follows hnew hstmts
  have hstill := still_replacing c.new [d]
  have hkept := (boundBody_exchanged hstill hstmts hfollows).1
  rw [h.alone] at hkept
  obtain ⟨o₁, behind₁, hgrown, hempty⟩ := h.bindsAlike.grown
  obtain ⟨o₂, behind₂, hgrown, hempty'⟩ := hgrown.respell (.replacing c.new [d])
  have hmark : (d.respell (.replacing c.new [d])).text = c.new := by
    simp [Respelling.text_replacing]
  let g : Addition := ⟨d.respell (.replacing c.new [d]), o₂, behind₂, by rwa [hmark]⟩
  have hgains : Construct.Gains g (.body (Scoping.initial.boundBody stmts))
      (.body (bodyRespell (.replacing c.new [d]) (Scoping.initial.boundBody stmts'))) := by
    refine ⟨.inr ?_, ?_⟩
    · rw [hkept]
      exact hgrown
    · show ∀ m ∈ bodyMarks (Scoping.initial.boundBody stmts), m.text ≠ g.mark.text
      rw [bodyMarks_bound, show g.mark.text = c.new from hmark]
      exact hstmts
  have hunsaid : ∀ id, g.Unsaid (functionMarks (session.store.function id).decl) := by
    intro id m hm
    rw [show g.mark.text = c.new from hmark]
    exact hstore m (session.store.functionMarks_subset id hm)
  have hagrees := Session.execute_agrees (Run.Mimics.interpretWith
    (Evaluator.mimics_within c limits.turns limits.steps 0) hstill
    (Session.twins_opening limits clock inputs c) hfollows')
  obtain ⟨hlonely, hout⟩ | halike := Session.execute_echoes (Run.Echoes.interpretWith
    (Evaluator.overlooks_within g limits.turns limits.steps 0) hgains) hunsaid
  · exact .inl ⟨hempty (hempty' hlonely), hagrees.symm.runsOut hout⟩
  · exact .inr (halike.trans_agrees hagrees.symm)

end Unseen

end Lox
