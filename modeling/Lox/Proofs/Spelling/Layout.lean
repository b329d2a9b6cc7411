/-
# Layout

Two texts are written with the same words if nothing is reported of either,
and their tokens have the same kinds, texts and values. They may differ in
spaces, line feeds and comments, so in every offset. All passes make the same
of both, but for offsets: the same trees and the same reports, and of running
them come the same lines. What a session has run leaves nothing behind from
which further inputs could tell where it stood, so whole histories of inputs
may be laid out anew.

Key definitions: `Lox.SameWords`, `Lox.Report.Alike`, `Lox.Session.Alike`.
Key theorems: `Lox.SameWords.parse`, `Lox.resolve_alike`, `Lox.Session.run_alike`,
`Lox.Session.runLine_alike`, `Lox.Session.after_alike`, `Lox.layout_never_matters`.
-/
import Lox.Proofs.Running.Sessions
import Lox.Proofs.Scanner.Words
import Lox.Proofs.Spelling.Parsing
import Lox.Proofs.Spelling.Resolving
import Lox.Proofs.Spelling.Running
import Mathlib.Data.List.Forall2

namespace Lox

open Respelling

/-- Every mark stands at the start. -/
abbrev Respelling.unplaced : Respelling := moving fun _ => 0

/-- Nothing is reported of either text, and their tokens say the same. -/
structure SameWords (source other : String) : Prop where
  left : (scan source).diagnostics = []
  right : (scan other).diagnostics = []
  words : (scan source).tokens.map Token.word = (scan other).tokens.map Token.word

/-- The reports say the same. -/
structure Report.Alike (a b : Report) : Prop where
  executed : a.executed = b.executed
  sayings : a.diagnostics.map Diagnostic.saying = b.diagnostics.map Diagnostic.saying
  escaped : a.escaped = b.escaped
  output : a.output = b.output

/-- Nothing tells the sessions apart for an input that follows but the offsets in their functions. -/
structure Session.Alike (a b : Session) : Prop where
  limits : a.limits = b.limits
  store : a.opening.carry (fun _ => 0) #[] = b.opening.carry (fun _ => 0) #[]

theorem Session.Alike.refl (session : Session) : session.Alike session := ⟨rfl, rfl⟩

theorem Report.Alike.trans {a b c : Report} (h : a.Alike b) (g : b.Alike c) : a.Alike c :=
  ⟨h.executed.trans g.executed, h.sayings.trans g.sayings, h.escaped.trans g.escaped,
    h.output.trans g.output⟩

/-- Sessions alike have the same globals. -/
theorem Session.Alike.globals {a b : Session} (h : a.Alike b) :
    a.store.frame Store.globals = b.store.frame Store.globals := by
  have hframe := congrArg (·.frame Store.globals) h.store
  simp only [Store.carry_frame] at hframe
  exact hframe

/-! ### The same words, the same trees -/

/-- Tokens that say the same are the same once they stand in one place. -/
theorem unplaced_of_words {ts us : List Token} (h : ts.map Token.word = us.map Token.word) :
    ts.map (Token.respell unplaced) = us.map (Token.respell unplaced) := by
  have hword : Token.respell unplaced = (fun w => ⟨w.1, w.2.1, w.2.2, 0⟩) ∘ Token.word := rfl
  rw [hword, ← List.map_map, h, List.map_map]

namespace SameWords

variable {source other : String} (h : SameWords source other) (limits : Limits)
include h

theorem unplaced : (scan source).tokens.map (Token.respell unplaced) =
    (scan other).tokens.map (Token.respell unplaced) :=
  unplaced_of_words h.words

/-- The trees of both are the same in one place, and so are the reports. -/
theorem parse : (parse limits (scan source).tokens).respell .unplaced =
    (parse limits (scan other).tokens).respell .unplaced := by
  obtain ⟨ts, e, hts, he, _⟩ := spelled_scan source
  obtain ⟨us, e', hus, he', _⟩ := spelled_scan other
  have htokens := h.unplaced
  rw [hts, hus] at htokens ⊢
  rw [← parse_respell limits he, ← parse_respell limits he', htokens]

theorem parseExpression? :
    (parseExpression? limits (scan source).tokens).map (Expr.respell .unplaced) =
      (Lox.parseExpression? limits (scan other).tokens).map (Expr.respell .unplaced) := by
  obtain ⟨ts, e, hts, he, _⟩ := spelled_scan source
  obtain ⟨us, e', hus, he', _⟩ := spelled_scan other
  have htokens := h.unplaced
  rw [hts, hus] at htokens ⊢
  rw [← parseExpression?_respell limits he, ← parseExpression?_respell limits he', htokens]

theorem stmts : bodyRespell .unplaced (Lox.parse limits (scan source).tokens).stmts =
    bodyRespell .unplaced (Lox.parse limits (scan other).tokens).stmts :=
  congrArg Parsed.stmts (h.parse limits)

theorem sayings : (Lox.parse limits (scan source).tokens).diagnostics.map Diagnostic.saying =
    (Lox.parse limits (scan other).tokens).diagnostics.map Diagnostic.saying := by
  have hmoved (ds : List Diagnostic) :
      (ds.map (Diagnostic.respell .unplaced)).map Diagnostic.saying = ds.map Diagnostic.saying :=
    List.map_map
  have hdiagnostics := congrArg (fun p => p.diagnostics.map Diagnostic.saying) (h.parse limits)
  exact (hmoved _).symm.trans (hdiagnostics.trans (hmoved _))

end SameWords

/-- What is reported of misuses, but for their places. -/
theorem sayings_of_misuses {errors errors' : List ScopeError}
    (h : errors.map ScopeError.misuse = errors'.map ScopeError.misuse) :
    (errors.map ScopeError.diagnostic).map Diagnostic.saying =
      (errors'.map ScopeError.diagnostic).map Diagnostic.saying := by
  have hsaying : Diagnostic.saying ∘ ScopeError.diagnostic =
      (fun misuse => (Phase.static, Misuse.message misuse)) ∘ ScopeError.misuse := rfl
  rw [List.map_map, List.map_map, hsaying, ← List.map_map, h, List.map_map]

/-- Of programs that are the same in one place the pass of names makes programs that are, with the
same records. -/
theorem resolve_alike (limits : Limits) {stmts stmts' : List Stmt}
    (h : bodyRespell unplaced stmts = bodyRespell unplaced stmts') :
    bodyRespell unplaced (resolve limits stmts).stmts =
        bodyRespell unplaced (resolve limits stmts').stmts ∧
      (resolve limits stmts).diagnostics.map Diagnostic.saying =
        (resolve limits stmts').diagnostics.map Diagnostic.saying := by
  obtain ⟨hstmts, herrors⟩ := resolve_moving (fun _ => 0) limits stmts
  obtain ⟨hstmts', herrors'⟩ := resolve_moving (fun _ => 0) limits stmts'
  rw [h] at hstmts herrors
  exact ⟨hstmts.symm.trans hstmts', sayings_of_misuses (herrors.symm.trans herrors')⟩

theorem resolveExpression_alike (limits : Limits) {e e' : Expr}
    (h : e.respell unplaced = e'.respell unplaced) :
    (resolveExpression limits e).1.respell unplaced =
        (resolveExpression limits e').1.respell unplaced ∧
      ((resolveExpression limits e).2.map ScopeError.diagnostic).map Diagnostic.saying =
        ((resolveExpression limits e').2.map ScopeError.diagnostic).map Diagnostic.saying := by
  obtain ⟨he, herrors⟩ := resolveExpression_moving (fun _ => 0) limits e
  obtain ⟨he', herrors'⟩ := resolveExpression_moving (fun _ => 0) limits e'
  rw [h] at he herrors
  exact ⟨he.symm.trans he', sayings_of_misuses (herrors.symm.trans herrors')⟩

/-! ### The same trees, the same runs -/

namespace Session

variable {a b : Session}

/-- Procedures that say and do the same in one place do so in sessions alike. -/
theorem execute_alike (h : a.Alike b) {p p' q : Run (List Diagnostic)}
    (hp : Run.Says (fun _ => 0) #[] p q) (hp' : Run.Says (fun _ => 0) #[] p' q) :
    (a.execute p).1.Alike (b.execute p').1 ∧ (a.execute p).2.Alike (b.execute p').2 := by
  obtain ⟨hsaid, hstore⟩ := hp a.opening
  obtain ⟨hsaid', hstore'⟩ := hp' b.opening
  cases hrun : p a.opening with
  | mk r s =>
    cases hrun' : p' b.opening with
    | mk r' s' =>
      rw [hrun, h.store] at hsaid hstore
      rw [hrun'] at hsaid' hstore'
      have hr := hsaid.symm.trans hsaid'
      have hs := hstore.symm.trans hstore'
      have houtput : s.output = s'.output := by
        simpa [Store.carry] using congrArg Store.output hs
      rw [execute_eq hrun, execute_eq hrun']
      refine ⟨?_, h.limits, congrArg (fun s : Store => { s with output := #[] ++ #[] }) hs⟩
      cases r with
      | ok ds =>
        cases r' with
        | ok ds' => exact ⟨rfl, Except.ok.inj hr, rfl, congrArg Array.toList houtput⟩
        | error fault' => cases hr
      | error fault =>
        cases r' with
        | ok ds' => cases hr
        | error fault' =>
          exact ⟨rfl, rfl, congrArg some (Except.error.inj hr), congrArg Array.toList houtput⟩

/-- Running programs that are the same in one place. -/
theorem interpret_alike (h : a.Alike b) (limits : Limits) {stmts stmts' : List Stmt}
    (hs : bodyRespell unplaced stmts = bodyRespell unplaced stmts') :
    (a.execute (interpret limits stmts)).1.Alike (b.execute (interpret limits stmts')).1 ∧
      (a.execute (interpret limits stmts)).2.Alike (b.execute (interpret limits stmts')).2 := by
  refine execute_alike h (says_interpretWith (Evaluator.moves_ofLimits limits) stmts) ?_
  rw [hs]
  exact says_interpretWith (Evaluator.moves_ofLimits limits) stmts'

/-- **Programs of the same words.** In sessions alike they report and print the same, and leave
sessions alike. -/
theorem run_alike (h : a.Alike b) {source other : String} (hw : SameWords source other) :
    (a.run source).1.Alike (b.run other).1 ∧ (a.run source).2.Alike (b.run other).2 := by
  have hsayings := hw.sayings a.limits
  obtain ⟨hstmts, hmisuses⟩ := resolve_alike a.limits (hw.stmts a.limits)
  unfold run
  dsimp only
  rw [hw.left, hw.right, ← h.limits]
  cases hd : (Lox.parse a.limits (scan source).tokens).diagnostics with
  | cons d ds =>
    cases hd' : (Lox.parse a.limits (scan other).tokens).diagnostics with
    | nil => simp [hd, hd'] at hsayings
    | cons d' ds' =>
      rw [hd, hd'] at hsayings
      exact ⟨⟨rfl, hsayings, rfl, rfl⟩, h⟩
  | nil =>
    cases hd' : (Lox.parse a.limits (scan other).tokens).diagnostics with
    | cons d' ds' => simp [hd, hd'] at hsayings
    | nil =>
      dsimp only [List.nil_append]
      cases hm : (resolve a.limits (Lox.parse a.limits (scan source).tokens).stmts).diagnostics with
      | cons d ds =>
        cases hm' : (resolve a.limits (Lox.parse a.limits (scan other).tokens).stmts).diagnostics with
        | nil => simp [hm, hm'] at hmisuses
        | cons d' ds' =>
          rw [hm, hm'] at hmisuses
          exact ⟨⟨rfl, hmisuses, rfl, rfl⟩, h⟩
      | nil =>
        cases hm' : (resolve a.limits (Lox.parse a.limits (scan other).tokens).stmts).diagnostics with
        | cons d' ds' => simp [hm, hm'] at hmisuses
        | nil => exact interpret_alike h a.limits hstmts

/-- Expressions that are the same in one place. -/
theorem runExpression_alike (h : a.Alike b) {e e' : Expr}
    (he : e.respell unplaced = e'.respell unplaced) :
    (a.runExpression e).1.Alike (b.runExpression e').1 ∧
      (a.runExpression e).2.Alike (b.runExpression e').2 := by
  obtain ⟨hresolved, hmisuses⟩ := resolveExpression_alike a.limits he
  unfold runExpression
  rw [← h.limits]
  cases hr : resolveExpression a.limits e with
  | mk resolved errors =>
    cases hr' : resolveExpression a.limits e' with
    | mk resolved' errors' =>
      rw [hr, hr'] at hresolved hmisuses
      match errors, errors' with
      | [], [] =>
        refine execute_alike h (says_interpretExprWith (Evaluator.moves_ofLimits _) resolved) ?_
        dsimp only at hresolved
        rw [hresolved]
        exact says_interpretExprWith (Evaluator.moves_ofLimits _) resolved'
      | _ :: _, _ :: _ => exact ⟨⟨rfl, hmisuses, rfl, rfl⟩, h⟩

/-- Interactive inputs of the same words. -/
theorem runLine_alike (h : a.Alike b) {source other : String} (hw : SameWords source other) :
    (a.runLine source).1.Alike (b.runLine other).1 ∧
      (a.runLine source).2.Alike (b.runLine other).2 := by
  have he := hw.parseExpression? a.limits
  unfold runLine
  dsimp only
  rw [hw.left, hw.right, ← h.limits]
  cases hp : Lox.parseExpression? a.limits (scan source).tokens with
  | none =>
    cases hp' : Lox.parseExpression? a.limits (scan other).tokens with
    | some e' => simp [hp, hp'] at he
    | none => exact run_alike h hw
  | some e =>
    cases hp' : Lox.parseExpression? a.limits (scan other).tokens with
    | none => simp [hp, hp'] at he
    | some e' =>
      rw [hp, hp'] at he
      exact runExpression_alike h (Option.some.inj he)

end Session

/-- The inputs are of the same sort and have the same words. -/
def Input.SameWords : Input → Input → Prop
  | .program source, .program other | .line source, .line other => Lox.SameWords source other
  | _, _ => False

namespace Session

theorem feed_alike {a b : Session} (h : a.Alike b) {input other : Input} (hw : input.SameWords other) :
    (a.feed input).1.Alike (b.feed other).1 ∧ (a.feed input).2.Alike (b.feed other).2 := by
  match input, other with
  | .program _, .program _ => exact run_alike h hw
  | .line _, .line _ => exact runLine_alike h hw

/-- A history of inputs laid out anew leaves a session alike. -/
theorem after_alike {inputs others : List Input} (hw : List.Forall₂ Input.SameWords inputs others) :
    ∀ {a b : Session}, a.Alike b → (a.after inputs).Alike (b.after others) := by
  induction hw with
  | nil => exact id
  | cons hw _ ih => exact fun h => ih (feed_alike h hw).2

end Session

/-- **Layout never matters.** Two texts of the same words are parsed to the same trees and bound with
the same records, but for offsets, with the same reports on the way, and running one of them in a session
is running the other. -/
theorem layout_never_matters (session : Session) {source other : String}
    (h : SameWords source other) :
    let limits := session.limits
    let parsed := parse limits (scan source).tokens
    let parsed' := parse limits (scan other).tokens
    bodyRespell unplaced parsed.stmts = bodyRespell unplaced parsed'.stmts ∧
      parsed.diagnostics.map Diagnostic.saying = parsed'.diagnostics.map Diagnostic.saying ∧
      bodyRespell unplaced (resolve limits parsed.stmts).stmts =
        bodyRespell unplaced (resolve limits parsed'.stmts).stmts ∧
      (resolve limits parsed.stmts).diagnostics.map Diagnostic.saying =
        (resolve limits parsed'.stmts).diagnostics.map Diagnostic.saying ∧
      (session.run source).1.Alike (session.run other).1 ∧
      (session.run source).2.Alike (session.run other).2 := by
  have hstmts := h.stmts session.limits
  obtain ⟨hresolved, hmisuses⟩ := resolve_alike session.limits hstmts
  exact ⟨hstmts, h.sayings session.limits, hresolved, hmisuses, Session.run_alike (.refl _) h⟩

/-- A block on one line, and on two with a comment behind it. -/
theorem layout_of_block :
    let session := Session.start ⟨40, 5⟩ (.still ⟨0⟩)
    (session.run "\x7bvar a;print a;\x7d").1.Alike (session.run "\x7b var a;\nprint a ; \x7d // nil").1 ∧
      (session.run "\x7b var a;\nprint a ; \x7d // nil").1.output = ["nil"] := by
  intro session
  have hwords : SameWords "\x7bvar a;print a;\x7d" "\x7b var a;\nprint a ; \x7d // nil" :=
    ⟨rfl, rfl, by decide +kernel⟩
  obtain ⟨_, _, _, _, hreport, _⟩ := layout_never_matters session hwords
  exact ⟨hreport, hreport.output.symm.trans rfl⟩

end Lox
