/-
# Two programs as one

Two accepted programs with a line feed between them are accepted as one. Its
statements are those of the first and behind them those of the second, moved
with their tokens: no statement takes in what follows it, and at the top level
no scope is open, so behind statements of which nothing is reported the pass
of names is where it began. Running them as one is running one after the other
in the same session, as long as the first one reports nothing; otherwise it is
running the first one alone.

Key theorems: `Lox.parse_join`, `Lox.resolve_join`, `Lox.interpretWith_append`,
`Lox.joined_runs_in_turn`.
-/
import Lox.Proofs.Binding.Gate
import Lox.Proofs.Grammar.Program
import Lox.Proofs.Scanner.Seam
import Lox.Proofs.Spelling.Layout

namespace Lox

open Procedure Respelling

/-! ### Parsing -/

/-- Statements in a row, and others behind them. -/
theorem Phrases.Row.append {phrase : Bool → List Token → Stmt → Prop} {ts us : List Token}
    {ss more : List Stmt} (h : Row phrase ts ss) (hmore : Row phrase us more) :
    Row phrase (ts ++ us) (ss ++ more) := by
  induction h with
  | nil => exact hmore
  | cons h _ ih =>
    rw [List.append_assoc]
    exact .cons h ih

/-- Only the last token of a text ends it. -/
theorem kind_ne_eof_of_scan {source : String} {ts : List Token} {e : Token}
    (h : (scan source).tokens = ts ++ [e]) : ∀ t ∈ ts, t.kind ≠ .eof := by
  obtain ⟨ts', e', heq, _, hts⟩ := spelled_scan source
  obtain ⟨rfl, _⟩ := List.append_inj' (h.symm.trans heq) rfl
  exact fun t ht => (hts t ht).2

/-- A program of which nothing is reported is one wherever it stands. -/
theorem program_respell {limits : Limits} {ts : List Token} {e : Token} (r : Respelling)
    (hts : ∀ t ∈ ts, t.kind ≠ .eof) (he : e.kind = .eof)
    (h : (parse limits (ts ++ [e])).diagnostics = []) :
    Phrases.Program (Phrases.within limits.steps 0) (ts.map (Token.respell r))
      (bodyRespell r (parse limits (ts ++ [e])).stmts) := by
  have hmoved : parse limits ((ts ++ [e]).map (Token.respell r)) = _ := parse_respell limits he
  rw [List.map_append, List.map_singleton] at hmoved
  have hnothing : (parse limits (ts.map (Token.respell r) ++ [e.respell r])).diagnostics = [] := by
    rw [hmoved, Parsed.respell, h]
    rfl
  have hprogram := program_of_parse (e := e.respell r) (by simpa using hts) he hnothing
  rwa [hmoved] at hprogram

/-- The trees of two texts with a line feed between them. -/
theorem parse_join {limits : Limits} {source more : String}
    (hs : (scan source).diagnostics = []) (hs' : (scan more).diagnostics = [])
    (hp : (parse limits (scan source).tokens).diagnostics = [])
    (hp' : (parse limits (scan more).tokens).diagnostics = []) :
    (scan (source ++ "\n" ++ more)).diagnostics = [] ∧
    parse limits (scan (source ++ "\n" ++ more)).tokens =
      ⟨(parse limits (scan source).tokens).stmts ++
        bodyRespell (moving (· + (source.toList.length + 1 : Nat)))
          (parse limits (scan more).tokens).stmts, []⟩ := by
  obtain ⟨ts, us, a, b, c, hscan, hscan', hboth⟩ := scan_join hs hs'
  have hts := kind_ne_eof_of_scan (congrArg Scanned.tokens hscan)
  have hus := kind_ne_eof_of_scan (congrArg Scanned.tokens hscan')
  rw [hscan] at hp ⊢
  rw [hscan'] at hp' ⊢
  rw [hboth]
  exact ⟨rfl, parse_of_program rfl
    ((program_of_parse hts rfl hp).append (program_respell _ hus rfl hp'))⟩

/-! ### Binding names -/

namespace Scoping

theorem boundBody_append (body more : List Stmt) : ∀ σ : Scoping,
    σ.boundBody (body ++ more) = σ.boundBody body ++ (σ.behindBody body).boundBody more := by
  induction body with
  | nil => exact fun _ => rfl
  | cons s body ih => exact fun σ => congrArg (σ.boundStmt s :: ·) (ih (σ.behindStmt s))

theorem behindBody_append (body more : List Stmt) : ∀ σ : Scoping,
    σ.behindBody (body ++ more) = (σ.behindBody body).behindBody more := by
  induction body with
  | nil => exact fun _ => rfl
  | cons s body ih => exact fun σ => ih (σ.behindStmt s)

/-- At the top level nothing is declared. -/
theorem behindAll_of_top (body : List Stmt) {σ : Scoping} (h : σ.scopes = []) :
    σ.behindAll body = σ := by
  induction body with
  | nil => rfl
  | cons s body ih =>
    have hs : σ.behind s = σ := by
      unfold behind
      split
      · exact define_of_nil h
      · rfl
    show (σ.behind s).behindAll body = σ
    rw [hs, ih]

/-- Behind a program without a report the pass is where it began. -/
theorem behindBody_of_top {body : List Stmt} (hr : bodyRegular body)
    (hs : (initial.behindBody body).Silent) : initial.behindBody body = initial := by
  rw [behindBody_of_silent hr rfl hs, behindAll_of_top body rfl]

theorem Alike.silent {σ τ : Scoping} (h : σ.Alike τ) (hs : σ.Silent) : τ.Silent := by
  have hlength := congrArg List.length h.misuses
  rw [List.length_map, List.length_map, Array.length_toList, Array.length_toList] at hlength
  exact hlength.trans hs

end Scoping

/-- The program of two others, the second one elsewhere in the text. -/
theorem resolve_join {limits : Limits} (place : Int → Int) {stmts more : List Stmt}
    (hr : bodyRegular stmts) (h : (resolve limits stmts).diagnostics = [])
    (h' : (resolve limits more).diagnostics = []) :
    (resolve limits (stmts ++ bodyRespell (moving place) more)).diagnostics = [] ∧
      (resolve limits (stmts ++ bodyRespell (moving place) more)).stmts =
        (resolve limits stmts).stmts ++ bodyRespell (moving place) (resolve limits more).stmts := by
  obtain ⟨hfits, hbound, hsilent⟩ := resolve_of_silent h
  obtain ⟨hfits', hbound', hsilent'⟩ := resolve_of_silent h'
  have hbehind := Scoping.behindBody_of_top hr hsilent
  have hmoves : Resolve.Moves (bodyRespell (moving place)) (resolveBody none more)
      (resolveBody none (bodyRespell (moving place) more)) := moves_resolveBody more none
  obtain ⟨hmoved, halike⟩ := hmoves .initial .initial (.refl _)
  have hfitsBoth : bodyFits (stmts ++ bodyRespell (moving place) more) limits.steps = true := by
    rw [bodyFits_append, bodyFits_respell, hfits, hfits']
    rfl
  have hsilentBoth : (Scoping.initial.behindBody (stmts ++ bodyRespell (moving place) more)).Silent := by
    rw [Scoping.behindBody_append, hbehind]
    exact halike.silent hsilent'
  obtain ⟨hd, hstmts⟩ := resolve_of_fits hfitsBoth hsilentBoth
  refine ⟨hd, ?_⟩
  rw [hstmts, Scoping.boundBody_append, hbehind, hbound, hbound']
  exact congrArg (Scoping.initial.boundBody stmts ++ ·) hmoved

/-! ### Running -/

theorem interpretWith_cons {evaluator : Evaluator} {stmt : Stmt} {s s' : Store}
    {r : Except Fault (List Diagnostic)}
    (h : reported (fun _ => stmt.offset?) (discard (evaluator.stmt stmt Store.globals)) s = (r, s'))
    (stmts : List Stmt) : interpretWith evaluator (stmt :: stmts) s =
      match r with
      | .ok [] => interpretWith evaluator stmts s'
      | stopped => (stopped, s') := by
  match r with
  | .error fault => exact bind_error h
  | .ok [] | .ok (_ :: _) => exact bind_ok h

/-- Statements run, and others behind them if nothing is reported and nothing escapes. -/
theorem interpretWith_append (evaluator : Evaluator) (more : List Stmt) :
    ∀ (stmts : List Stmt) (s : Store), interpretWith evaluator (stmts ++ more) s =
      match interpretWith evaluator stmts s with
      | (.ok [], s') => interpretWith evaluator more s'
      | stopped => stopped
  | [], _ => rfl
  | stmt :: stmts, s => by
    cases hrun : reported (fun _ => stmt.offset?) (discard (evaluator.stmt stmt Store.globals)) s with
    | mk r s' =>
      rw [List.cons_append, interpretWith_cons hrun, interpretWith_cons hrun]
      match r with
      | .error _ | .ok (_ :: _) => rfl
      | .ok [] => exact interpretWith_append evaluator more stmts s'

/-- A program elsewhere, behind another one, and the program in the session behind that one say and
do the same. -/
theorem says_behind {evaluator : Evaluator} (place : Int → Int) (stmts : List Stmt) (s : Store)
    (h : ∀ lines, evaluator.Moves (fun _ => 0) lines) :
    let moved := interpretWith evaluator (bodyRespell (moving place) stmts) s
    let alone := interpretWith evaluator stmts { s with output := #[] }
    moved.1.map (List.map Diagnostic.saying) = alone.1.map (List.map Diagnostic.saying) ∧
      moved.2.carry (fun _ => 0) #[] = alone.2.carry (fun _ => 0) s.output := by
  obtain ⟨hmoved, hmovedStore⟩ := says_interpretWith (h #[]) (bodyRespell (moving place) stmts) s
  obtain ⟨halone, haloneStore⟩ :=
    says_interpretWith (h s.output) stmts { s with output := #[] }
  have hstmts : bodyRespell unplaced (bodyRespell (moving place) stmts) = bodyRespell unplaced stmts := by
    rw [bodyRespell_bodyRespell, moving_andThen_moving]
    rfl
  have hstore : { s with output := #[] }.carry (fun _ => 0) s.output = s.carry (fun _ => 0) #[] := by
    simp [Store.carry]
  rw [hstmts] at hmoved hmovedStore
  rw [hstore] at halone haloneStore
  exact ⟨hmoved.symm.trans halone, hmovedStore.symm.trans haloneStore⟩

/-- Nothing was reported, and nothing escaped. -/
def Report.EndsWell (r : Report) : Prop := r.diagnostics = [] ∧ r.escaped = none

theorem Report.endsWell_ofResult (output : List String) (r : Except Fault (List Diagnostic)) :
    (ofResult output r).EndsWell ↔ r = .ok [] := by
  cases r <;> simp [ofResult, EndsWell]

/-- What came of the joined input is what came of the first one and then of the second. -/
structure Joins (first second joined : Report × Session) : Prop where
  output : joined.1.output = first.1.output ++ second.1.output
  sayings : joined.1.diagnostics.map Diagnostic.saying = second.1.diagnostics.map Diagnostic.saying
  escaped : joined.1.escaped = second.1.escaped
  globals : joined.2.store.frame Store.globals = second.2.store.frame Store.globals
  session : joined.2.Alike second.2

/-- Statements and others behind them run in turn. -/
theorem Session.execute_behind (session : Session) (place : Int → Int) (stmts more : List Stmt) :
    let first := session.execute (interpret session.limits stmts)
    let second := first.2.execute (interpret session.limits more)
    let joined := session.execute
      (interpret session.limits (stmts ++ bodyRespell (moving place) more))
    joined.1.executed = true ∧ (first.1.EndsWell → Joins first second joined) ∧
      (¬ first.1.EndsWell → joined = first) := by
  intro first second joined
  cases hrun : interpret session.limits stmts session.opening with
  | mk r s =>
    have hfirst : first = (.ofResult s.output.toList r, { session with store := s }) :=
      execute_eq hrun
    have happend := interpretWith_append (.ofLimits session.limits)
      (bodyRespell (moving place) more) stmts session.opening
    rw [show interpretWith (.ofLimits session.limits) stmts session.opening = (r, s) from hrun]
      at happend
    rcases r with _ | _ | _
    case error | ok.cons =>
      have hjoined : joined = first := (execute_eq happend).trans hfirst.symm
      refine ⟨by rw [hjoined, hfirst]; rfl, fun hwell => ?_, fun _ => hjoined⟩
      rw [hfirst] at hwell
      cases (Report.endsWell_ofResult ..).mp hwell
    case ok.nil =>
      cases hmoved : interpretWith (.ofLimits session.limits) (bodyRespell (moving place) more) s with
      | mk r' s' =>
        cases halone : interpretWith (.ofLimits session.limits) more { s with output := #[] } with
        | mk r'' s'' =>
          have hjoined : joined = (.ofResult s'.output.toList r', { session with store := s' }) :=
            execute_eq (happend.trans hmoved)
          have hsecond : second = (.ofResult s''.output.toList r'', { session with store := s'' }) := by
            show first.2.execute (interpret session.limits more) = _
            rw [hfirst]
            exact execute_eq halone
          obtain ⟨hsaid, hstore⟩ :=
            says_behind place more s fun _ => Evaluator.moves_ofLimits session.limits
          rw [hmoved, halone] at hsaid hstore
          dsimp only at hsaid hstore
          have hlines : s'.output.toList = s.output.toList ++ s''.output.toList := by
            simpa [Store.carry] using congrArg (·.output.toList) hstore
          have hglobals : s'.frame Store.globals = s''.frame Store.globals := by
            simpa using congrArg (·.frame Store.globals) hstore
          have halike : Session.Alike { session with store := s' } { session with store := s'' } :=
            ⟨rfl, congrArg (fun s : Store => { s with output := #[] ++ #[] }) hstore⟩
          rw [hjoined, hsecond, hfirst]
          refine ⟨by cases r' <;> rfl, fun _ => ?_, fun h => absurd ⟨rfl, rfl⟩ h⟩
          cases r' with
          | ok _ =>
            cases r'' with
            | ok _ => exact ⟨hlines, Except.ok.inj hsaid, rfl, hglobals, halike⟩
            | error _ => cases hsaid
          | error _ =>
            cases r'' with
            | ok _ => cases hsaid
            | error _ => exact ⟨hlines, rfl, congrArg some (Except.error.inj hsaid), hglobals, halike⟩

/-- **Splitting a program changes nothing.** Two accepted programs with a line feed between them are
accepted as one. If running the first one ends well, running both as one prints what they print in turn,
ends with the same report or none, and leaves the same globals, and a session alike. If it does not, then
running both is running the first one. -/
theorem joined_runs_in_turn (session : Session) {source more : String}
    (h : Accepts session.limits source) (h' : Accepts session.limits more) :
    let first := session.run source
    let second := first.2.run more
    let joined := session.run (source ++ "\n" ++ more)
    Accepts session.limits (source ++ "\n" ++ more) ∧ joined.1.executed = true ∧
      (first.1.EndsWell → Joins first second joined) ∧ (¬ first.1.EndsWell → joined = first) := by
  intro first second joined
  obtain ⟨hscans, hparse⟩ := parse_join h.scans h'.scans h.parses h'.parses
  obtain ⟨hbinds, hbound⟩ := resolve_join (· + (source.toList.length + 1 : Nat))
    (regular_of_parse h.parses) h.binds h'.binds
  have hstmts := congrArg Parsed.stmts hparse
  have hboth : Accepts session.limits (source ++ "\n" ++ more) :=
    ⟨hscans, congrArg Parsed.diagnostics hparse, by rw [hstmts]; exact hbinds⟩
  have hfirst : first = _ := session.run_of_accepts h
  have hlimits : first.2.limits = session.limits := session.feed_limits (.program source)
  have hsecond : second = _ := first.2.run_of_accepts (hlimits.symm ▸ h')
  have hjoined : joined = _ := session.run_of_accepts hboth
  rw [hstmts, hbound] at hjoined
  rw [hlimits] at hsecond
  rw [hjoined, hsecond, hfirst]
  exact ⟨hboth, session.execute_behind _ _ _⟩

/-- A declaration, and a statement that reads what it declares. -/
theorem joined_declaration_and_print :
    let session := Session.start ⟨40, 5⟩ (.still ⟨0⟩)
    (session.run ("var a;" ++ "\n" ++ "print a;")).1.output = ["nil"] := by
  intro session
  have hfirst : Accepts session.limits "var a;" := ⟨rfl, rfl, rfl⟩
  have hsecond : Accepts session.limits "print a;" := ⟨rfl, rfl, rfl⟩
  obtain ⟨_, _, hjoins, _⟩ := joined_runs_in_turn session hfirst hsecond
  exact (hjoins ⟨rfl, rfl⟩).output.trans rfl

end Lox
