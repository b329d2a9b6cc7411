/-
# Where runtime errors are reported

A program stops with the first statement that fails, and the report of an
error stands where the error does. That arose at a moment of the run, at a
place of the program, and its mark is that of a token of the text. So the
report stands at the token of the operation whose own check failed, whatever
is evaluated around it, and no error is without a place when it is reported.

Key definitions: `Lox.Stops`.
Key theorems: `Lox.Evaluator.Sources.interpretWith`, `Lox.point?_boundExpr`,
`Lox.runtime_errors_stand_at_operations`.
-/
import Lox.Proofs.Failing.Sources
import Lox.Proofs.Grammar.Sorts
import Lox.Proofs.Idle.Opening

namespace Lox

open Procedure

/-! ### Programs -/

/-- One of the statements fails with the fault, of which this is the report. -/
def Stops (evaluator : Evaluator) (stmts : List Stmt) (d : Diagnostic) (fault : Fault) (s' : Store) :
    Prop :=
  ∃ stmt ∈ stmts, ∃ s, evaluator.stmt stmt Store.globals s = (.error fault, s') ∧
    fault.diagnostic? stmt.offset? = some d

section

variable {turns : Nat} {inner : Watch → Evaluator}

theorem Comes.reported {run : Watch → Run Unit} {start : Unit → Option Int} {s : Store} {t : Moment}
    (h : Comes run s t) : Comes (fun W => reported start (run W)) s t :=
  fun m => reported_error (h m)

theorem Heard.reported {run : Watch → Run Unit} {s : Store} (h : Heard run s)
    (start : Unit → Option Int) : Heard (fun W => reported start (run W)) s := by
  intro W hW
  obtain heq | ⟨t, m, ht, hstop, heq⟩ := h W hW
  · refine .inl ?_
    show Lox.reported start (run W) s = Lox.reported start (run .quiet) s
    rw [Lox.reported, Lox.reported, heq]
  · exact .inr ⟨t, m, ht.reported, hstop, reported_error heq⟩

theorem discard_error {α : Type} {p : Run α} {fault : Fault} {s s' : Store}
    (h : discard p s = (.error fault, s')) : p s = (.error fault, s') := by
  rcases hp : p s with ⟨fault' | a, s''⟩
  · cases (bind_error (f := fun _ => (pure () : Run Unit)) hp).symm.trans h
    rfl
  · cases (bind_ok (f := fun _ => (pure () : Run Unit)) hp).symm.trans h

/-- A report of a program is that of a fault which one of its statements fails with; if this is an
error, it arises on the way. -/
theorem Evaluator.Sources.interpretWith (h : Evaluator.Sources turns inner) :
    ∀ (stmts : List Stmt) (s : Store),
    Heard (fun W => Lox.interpretWith (inner W) stmts) s ∧
      ∀ ds s' d, Lox.interpretWith (inner .quiet) stmts s = (.ok ds, s') → d ∈ ds →
        ds = [d] ∧ ∃ fault, Stops (inner .quiet) stmts d fault s' ∧
          ∀ e, fault = .error e → Arises turns (fun W => Lox.interpretWith (inner W) stmts) s e s'
  | [], s => by
    refine ⟨.step _, fun ds s' d hrun hd => ?_⟩
    cases hrun
    cases hd
  | stmt :: stmts, s => by
    have hstmt := (h.stmt stmt Store.globals s).discard
    have hreported := hstmt.heard.reported fun _ => stmt.offset?
    have hheard : Heard (fun W => Lox.interpretWith (inner W) (stmt :: stmts)) s :=
      hreported.bind fun ds s₁ _ => by
        cases ds with
        | nil => exact (Evaluator.Sources.interpretWith h stmts s₁).1
        | cons d ds => exact .step _
    refine ⟨hheard, fun ds s' d hrun hd => ?_⟩
    rcases hfirst : discard ((inner .quiet).stmt stmt Store.globals) s with ⟨fault | _, s₁⟩
    · -- the first statement fails
      have hresult : reported (fun _ => stmt.offset?) _ s = _ := reported_error hfirst
      cases hdiagnostic : fault.diagnostic? stmt.offset? with
      | none =>
        rw [hdiagnostic] at hresult
        cases (interpretWith_escaped hresult).symm.trans hrun
      | some d₁ =>
        rw [hdiagnostic] at hresult
        cases (interpretWith_reported hresult).symm.trans hrun
        obtain rfl := List.mem_singleton.mp hd
        refine ⟨rfl, fault, ⟨stmt, List.mem_cons_self .., s, discard_error hfirst, hdiagnostic⟩, ?_⟩
        rintro e rfl
        obtain hnever | ⟨t, ht, hraises⟩ := hstmt.source e _ hfirst
        · exact hnever.elim
        · exact ⟨t, ht.reported.bind, hraises⟩
    · have hresult : reported (fun _ => stmt.offset?) _ s = _ := reported_ok hfirst
      obtain ⟨hds, fault, ⟨other, hmem, s₂, hfails, hdiagnostic⟩, harises⟩ :=
        (Evaluator.Sources.interpretWith h stmts s₁).2 ds s' d
          ((interpretWith_next hresult).symm.trans hrun) hd
      refine ⟨hds, fault, ⟨other, List.mem_cons_of_mem _ hmem, s₂, hfails, hdiagnostic⟩,
        fun e he => ?_⟩
      obtain ⟨t, ht, hraises⟩ := harises e he
      exact ⟨t, hreported.later hresult ht, hraises⟩

end

/-! ### The marks of bound trees -/

/-- The sort of the token that the mark of a node's check comes from, where that is not an operator:
a name, or the parenthesis that closes a call. -/
def Site.sort? : Site → Option TokenKind
  | .expr (.call ..) => some .rightParen
  | .expr (.variable _) | .expr (.assign ..) | .expr (.get ..) | .expr (.set ..)
  | .expr (.superMethod ..) | .stmt (.classDecl ..) => some .identifier
  | _ => none

section

variable (σ : Scoping)

/-- The pass of names leaves the mark of an expression's check as it is. -/
theorem point_boundExpr (e : Expr) :
    (Site.expr (σ.boundExpr e)).point? = (Site.expr e).point? ∧
      (Site.expr (σ.boundExpr e)).sort? = (Site.expr e).sort? := by
  cases e with
  | «variable» use =>
    rw [Scoping.boundExpr_variable]
    exact ⟨rfl, rfl⟩
  | receiver use =>
    rw [Scoping.boundExpr, Scoping.run_receiver]
    split <;> exact ⟨rfl, rfl⟩
  | superMethod use method =>
    rw [Scoping.boundExpr, Scoping.run_superMethod]
    exact ⟨rfl, rfl⟩
  | _ => exact ⟨rfl, rfl⟩

theorem point_boundStmt (st : Stmt) :
    (Site.stmt (σ.boundStmt st)).point? = (Site.stmt st).point? ∧
      (Site.stmt (σ.boundStmt st)).sort? = (Site.stmt st).sort? := by
  cases st with
  | var name initial =>
    cases initial with
    | none => exact ⟨rfl, rfl⟩
    | some e =>
      rw [Scoping.boundStmt_var]
      exact ⟨rfl, rfl⟩
  | branch cond yes no => cases no <;> exact ⟨rfl, rfl⟩
  | giveBack keyword value =>
    cases value with
    | none =>
      rw [Scoping.boundStmt_giveBack_none]
      exact ⟨rfl, rfl⟩
    | some e =>
      rw [Scoping.boundStmt_giveBack]
      exact ⟨rfl, rfl⟩
  | classDecl name superclass ms =>
    cases superclass with
    | none => exact ⟨rfl, rfl⟩
    | some use =>
      rw [Scoping.boundStmt_subclass]
      exact ⟨rfl, rfl⟩
  | _ => exact ⟨rfl, rfl⟩

end

/-! ### The sorts of marks -/

/-- The marks in a part are of their sorts. -/
def Construct.Sorted : Construct → Prop
  | .expr e => e.Sorted
  | .args es => argsSorted es
  | .stmt s => s.Sorted
  | .body stmts => bodySorted stmts
  | .function _ decl => functionSorted decl
  | .methods decls => methodsSorted decls

namespace Visit

/-- The parts of what is of its sorts are so. -/
theorem sorted_part : ∀ {v w : Visit}, w ∈ v.parts → v.construct.Sorted → w.construct.Sorted
  | ⟨.expr e, σ, os⟩, w, hw, h => by
    cases e with
    | literal _ | «variable» _ | receiver _ | superMethod _ _ | stray _ => cases hw
    | grouping _ | unary _ _ =>
      obtain rfl := List.mem_singleton.mp hw
      exact h
    | get _ _ | assign _ _ =>
      obtain rfl := List.mem_singleton.mp hw
      exact h.2
    | binary _ _ _ | logical _ _ _ =>
      obtain rfl | rfl := of_mem_two hw
      · exact h.1
      · exact h.2
    | ternary _ _ _ =>
      obtain rfl | hw := List.mem_cons.mp hw
      · exact h.1
      · obtain rfl | rfl := of_mem_two hw
        · exact h.2.1
        · exact h.2.2
    | call _ _ _ =>
      obtain rfl | rfl := of_mem_two hw
      · exact h.2.1
      · exact h.2.2
    | set _ _ _ =>
      obtain rfl | rfl := of_mem_two hw
      · exact h.2.2
      · exact h.2.1
  | ⟨.args [], σ, os⟩, w, hw, h | ⟨.body [], σ, os⟩, w, hw, h | ⟨.methods [], σ, os⟩, w, hw, h =>
    nomatch hw
  | ⟨.args (_ :: _), σ, os⟩, w, hw, h | ⟨.body (_ :: _), σ, os⟩, w, hw, h
  | ⟨.methods (_ :: _), σ, os⟩, w, hw, h => by
    obtain rfl | rfl := of_mem_two hw
    · exact h.1
    · exact h.2
  | ⟨.function kind ⟨_, _, _⟩, σ, os⟩, w, hw, h => by
    obtain rfl := List.mem_singleton.mp hw
    exact h
  | ⟨.stmt st, σ, os⟩, w, hw, h => by
    cases st with
    | stray _ => cases hw
    | expr _ | print _ | block _ | function _ =>
      obtain rfl := List.mem_singleton.mp hw
      exact h
    | var _ initial | giveBack _ initial =>
      cases initial with
      | none => cases hw
      | some e =>
        obtain rfl := List.mem_singleton.mp hw
        exact h e rfl
    | loop _ _ =>
      obtain rfl | rfl := of_mem_two hw
      · exact h.1
      · exact h.2
    | branch _ _ no =>
      cases no with
      | none =>
        obtain rfl | rfl := of_mem_two hw
        · exact h.1
        · exact h.2
      | some _ =>
        obtain rfl | hw := List.mem_cons.mp hw
        · exact h.1
        · obtain rfl | rfl := of_mem_two hw
          · exact h.2.1
          · exact h.2.2
    | classDecl _ superclass _ =>
      cases superclass with
      | none =>
        obtain rfl := List.mem_singleton.mp hw
        exact h.2
      | some use =>
        obtain rfl | rfl := of_mem_two hw
        · exact h.1 use rfl
        · exact h.2

end Visit

/-- What is visited in a program has its marks among those of the program, and of their sorts. -/
theorem marks_of_visited {program : List Stmt} {v : Visit} (h : Visited program v)
    (hs : bodySorted program) : v.construct.marks ⊆ bodyMarks program ∧ v.construct.Sorted := by
  induction h with
  | program => exact ⟨List.Subset.refl _, hs⟩
  | part _ hw ih => exact ⟨List.Subset.trans (Visit.marks_part hw) ih.1, Visit.sorted_part hw ih.2⟩

/-- The mark of a node's check is one of the marks of the place, and of its sort. -/
theorem point_of_resolved {site : Site} {v : Visit} {m : Mark} (hv : v.resolved? = some site)
    (hm : site.point? = some m) (hs : v.construct.Sorted) :
    m ∈ v.construct.marks ∧ ∀ k, site.sort? = some k → m.kind = k := by
  obtain ⟨c, σ, os⟩ := v
  cases c with
  | args _ | body _ | function _ _ | methods _ => cases hv
  | expr e =>
    cases hv
    obtain ⟨hpoint, hsort⟩ := point_boundExpr σ e
    rw [hpoint] at hm
    rw [hsort]
    cases e with
    | literal _ | grouping _ | logical _ _ _ | ternary _ _ _ | stray _ => cases hm
    | unary _ _ | binary _ _ _ | receiver _ =>
      cases hm
      exact ⟨by simp [Construct.marks], fun _ hk => nomatch hk⟩
    | «variable» _ =>
      cases hm
      exact ⟨by simp [Construct.marks], by rintro _ ⟨⟩; exact hs⟩
    | assign _ _ | call _ _ _ | get _ _ | set _ _ _ =>
      cases hm
      exact ⟨by simp [Construct.marks], by rintro _ ⟨⟩; exact hs.1⟩
    | superMethod _ _ =>
      cases hm
      exact ⟨by simp [Construct.marks], by rintro _ ⟨⟩; exact hs⟩
  | stmt st =>
    cases hv
    obtain ⟨hpoint, hsort⟩ := point_boundStmt σ st
    rw [hpoint] at hm
    rw [hsort]
    cases st with
    | classDecl name superclass ms =>
      cases superclass with
      | none => cases hm
      | some use =>
        cases hm
        exact ⟨by simp [Construct.marks], by rintro _ ⟨⟩; exact hs.1 use rfl⟩
    | _ => cases hm

/-! ### Sessions -/

section

variable {limits : Limits} {session : Session} {source : String}

/-- An accepted program as an input. -/
theorem accepted_of_accepts (h : Accepts limits source) :
    (Input.program source).accepted? limits = some
      ⟨(parse limits (scan source).tokens).stmts,
        .program (resolve limits (parse limits (scan source).tokens).stmts).stmts⟩ := by
  show acceptedProgram? limits source = _
  unfold acceptedProgram?
  dsimp only
  rw [h.scans, h.parses, h.binds]
  rfl

/-- A report of an accepted program is that of a fault that one of its statements ends in, and the
store is left as it was then; if this is an error, it arises at a moment of the run. -/
theorem Session.stops_of_report (h : Accepts session.limits source) {d : Diagnostic}
    (hd : d ∈ (session.run source).1.diagnostics) :
    ∃ fault s', Stops (.ofLimits session.limits)
        (resolve session.limits (parse session.limits (scan source).tokens).stmts).stmts d fault s' ∧
      session.run source = (⟨true, [d], none, s'.output.toList⟩, { session with store := s' }) ∧
      ∀ e, fault = .error e → ∃ t, session.Reaches (.program source) t ∧
        (t.frame < t.store.frames.size → t.Raises session.limits.turns e s') := by
  have hsources := Evaluator.sources_watched session.limits.turns session.limits.steps 0
  have hquiet : Evaluator.watched .quiet .recorded session.limits.turns session.limits.steps 0 =
      .ofLimits session.limits := Evaluator.watched_quiet ..
  rcases hrun : interpret session.limits
    (resolve session.limits (parse session.limits (scan source).tokens).stmts).stmts session.opening
    with ⟨r, s'⟩
  have hreport := (session.run_of_accepts h).trans (Session.execute_eq hrun)
  rw [hreport] at hd ⊢
  cases r with
  | error fault => cases hd
  | ok ds =>
    have hinterpret := (hsources.interpretWith
      (resolve session.limits (parse session.limits (scan source).tokens).stmts).stmts
      session.opening).2 ds s' d
    rw [hquiet] at hinterpret
    obtain ⟨rfl, fault, hstops, harises⟩ := hinterpret hrun hd
    refine ⟨fault, s', hstops, rfl, fun e he => ?_⟩
    obtain ⟨t, ht, hraises⟩ := harises e he
    exact ⟨t, ⟨_, accepted_of_accepts h, ht⟩, hraises⟩

/-- The frame of an explained moment is there. -/
theorem Explained.frame_lt {P : Visit → Prop} {w : World} {t : Moment} (h : Explained P w t) :
    t.frame < t.store.frames.size := by
  obtain ⟨⟨_, hsound⟩, v, _, _, hruns⟩ := h
  cases hruns with
  | inside hm => exact hm.mirrors.lt hsound.toFramed
  | superclass _ hm => exact hm.mirrors.lt hsound.toFramed

/-- **Runtime errors stand at the operation that failed.** In a fresh session an accepted program that
something is reported of stops with one of its statements. If it stops with an error, the run came to a
moment at which the own check of a node refused: the operands of the node were evaluated from there on
without an error, which leads to the store that the program ends in, and the check refused their values
for this cause, so that the node failed there. From then on the error has the place of a token of the
text, the one that the check of the node stands at: an operator, the parenthesis that closes a call, or
the name of a property, a method, a superclass or a variable. So it left the statement, and so it is
reported. -/
theorem runtime_errors_stand_at_operations {limits : Limits} {clock : Clock} {source : String}
    (h : Accepts limits source) {d : Diagnostic}
    (hd : d ∈ ((Session.start limits clock).run source).1.diagnostics) :
    ∃ fault s', Stops (.ofLimits limits)
        (resolve limits (parse limits (scan source).tokens).stmts).stmts d fault s' ∧
      ((Session.start limits clock).run source).2.store = s' ∧
      ∀ e, fault = .error e → ∃ t steps spent vs tok,
        (Session.start limits clock).Reaches (.program source) t ∧
        evalArgs (.within .recorded limits.turns steps spent) t.site.operands t.frame t.store =
          (.ok vs, s') ∧
        Rejects s' t.frame t.site vs e.cause ∧
        t.site.run (.within .recorded limits.turns steps spent) t.frame t.store =
          (.error (.error ⟨e.cause, some tok.offset⟩), s') ∧
        tok ∈ (scan source).tokens ∧ t.site.point? = some tok.mark ∧
        (∀ k, t.site.sort? = some k → tok.kind = k) ∧
        e.offset = some tok.offset ∧ d = ⟨.runtime, tok.offset, e.cause.message⟩ := by
  obtain ⟨fault, s', hstops, hreport, harises⟩ :=
    Session.stops_of_report h hd
  refine ⟨fault, s', hstops, by rw [hreport], ?_⟩
  rintro e rfl
  obtain ⟨t, hreaches, hraises⟩ := harises e rfl
  have hfirst : ((Session.start limits clock).after []).Reaches (.program source) t := hreaches
  obtain ⟨w, hexplained⟩ := Session.explained_of_reaches hfirst
  obtain ⟨steps, spent, vs, mark, hargs, hrejects, hpoint, hoffset⟩ := hraises hexplained.frame_lt
  obtain ⟨_, v, ⟨program, hprogram, hvisited⟩, hv, _⟩ := hexplained
  have hwritten : writtenPrograms limits ([] ++ [.program source]) =
      [(parse limits (scan source).tokens).stmts] := by
    simp [writtenPrograms, accepted_of_accepts h]
  rw [hwritten] at hprogram
  obtain rfl := List.mem_singleton.mp hprogram
  obtain ⟨hmarks, hsorted⟩ := marks_of_visited hvisited (sorted_of_parse h.parses)
  obtain ⟨hmem, hkind⟩ := point_of_resolved hv hpoint hsorted
  obtain ⟨tok, htok, rfl⟩ := mem_tokens_of_parse h.parses (hmarks hmem)
  obtain ⟨stmt, hstmt, s, hfails, hdiagnostic⟩ := hstops
  have hplace : e.offset = some tok.offset := hoffset _ rfl
  have hfailed := hrejects.run hpoint (Evaluator.within_access ..) hargs
  refine ⟨t, steps, spent, vs, tok, hreaches, hargs, hrejects, hfailed, List.dropLast_subset _ htok, hpoint,
    hkind, hplace, ?_⟩
  have hreported : some (Diagnostic.mk .runtime (e.offset.getD 0) e.cause.message) = some d := hdiagnostic
  rw [← Option.some.inj hreported, hplace]
  rfl

/-- An error in the midst of a call is reported at the name of the property. -/
theorem error_in_call_stands_at_property :
    let source := "fun f(x) \x7b return 1 + x.y; \x7d print f(2);"
    let d : Diagnostic := ⟨.runtime, 24, "Only instances have properties."⟩
    Accepts ⟨60, 5⟩ source ∧ d ∈ ((Session.start ⟨60, 5⟩ (.still ⟨0⟩)).run source).1.diagnostics ∧
      ∃ t tok, (Session.start ⟨60, 5⟩ (.still ⟨0⟩)).Reaches (.program source) t ∧
        tok ∈ (scan source).tokens ∧ t.site.point? = some tok.mark ∧ tok.offset = 24 := by
  intro source d
  have haccepts : Accepts ⟨60, 5⟩ source := ⟨by decide +kernel, by decide +kernel, by decide +kernel⟩
  have hd : d ∈ ((Session.start ⟨60, 5⟩ (.still ⟨0⟩)).run source).1.diagnostics := by decide +kernel
  obtain ⟨fault, s', ⟨stmt, _, _, _, hreported⟩, _, herror⟩ :=
    runtime_errors_stand_at_operations haccepts hd
  cases fault with
  | error e =>
    obtain ⟨t, _, _, _, tok, hreaches, _, _, _, htok, hpoint, _, _, hplace⟩ := herror e rfl
    exact ⟨haccepts, hd, t, tok, hreaches, htok, hpoint, (congrArg Diagnostic.offset hplace).symm⟩
  | overflow =>
    have hmessage : stackOverflowMessage = "Only instances have properties." :=
      congrArg Diagnostic.message (Option.some.inj hreported)
    exact absurd hmessage (by decide)
  | diverged _ | misplaced _ | exhausted => cases hreported

end

end Lox
