/-
# Interactive inputs

An expression on its own prints its value, as the statement does that prints
it: the tokens between the keyword and the semicolon are read to the same
tree, its names are bound as they are there, and it runs to the same value,
only that the statement has fewer steps left. No text is an expression and a
program at once: a program that begins as an expression goes on behind it with
a semicolon.

Key theorems: `Lox.scan_printed`, `Lox.parse_printed`, `Lox.resolve_printed`,
`Lox.interpret_printed`, `Lox.line_agrees_with_program`.
-/
import Lox.Proofs.Grammar.Acceptance
import Lox.Proofs.Running.Lockstep
import Lox.Proofs.Spelling.Joining

namespace Lox

open Phrases Procedure Respelling Scanner

/-- The program that prints what a text is. -/
def printing (text : String) : String := "print " ++ text ++ "\n;"

/-! ### Scanning and parsing -/

theorem scans_semicolon (pos : Nat) : Scans pos [';'] [⟨.semicolon, ";", .nil, pos⟩] :=
  Scans.chunk (p := ⟨1, some (.semicolon, .nil)⟩) (List.cons_ne_nil _ _) rfl .done

/-- The keyword and a semicolon stand around the tokens, which begin behind the keyword. -/
theorem scan_printed {text : String} (h : (scan text).diagnostics = []) :
    ∃ ts a b c, scan text = ⟨ts ++ [.eof a], []⟩ ∧ scan (printing text) =
      ⟨⟨.kwPrint, "print", .nil, 0⟩ :: ts.map (Token.respell (moving (· + (6 : Nat)))) ++
        [⟨.semicolon, ";", .nil, b⟩] ++ [.eof c], []⟩ := by
  obtain ⟨ts, hts⟩ := scans_of_scan h
  have hstatement := (hts.shift 6).join (scans_semicolon _)
  have hgap : Scans 5 ([' '] ++ (text.toList ++ ['\n', ';'])) _ :=
    Scans.ahead_space (by simp [isSpace]) hstatement
  have hword : Scans 0 ('p' :: 'r' :: 'i' :: 'n' :: 't' :: ' ' :: (text.toList ++ ['\n', ';']))
      (⟨.kwPrint, "print", .nil, 0⟩ :: _) :=
    Scans.chunk (p := ⟨5, some (.kwPrint, .nil)⟩) (List.cons_ne_nil _ _) rfl hgap
  have htext : (printing text).toList =
      'p' :: 'r' :: 'i' :: 'n' :: 't' :: ' ' :: (text.toList ++ ['\n', ';']) := by
    simp [printing]
  rw [← htext] at hword
  exact ⟨ts, _, _, _, scan_of_scans hts, scan_of_scans hword⟩

/-- An expression on its own is read to the tree that the statement prints. -/
theorem parse_printed {limits : Limits} {text : String} {e : Expr}
    (h : (scan text).diagnostics = [])
    (he : parseExpression? limits (scan text).tokens = some e) :
    (scan (printing text)).diagnostics = [] ∧ parse limits (scan (printing text)).tokens =
      ⟨[.print (e.respell (moving (· + (6 : Nat))))], []⟩ := by
  obtain ⟨ts, a, b, c, hscan, hprinted⟩ := scan_printed h
  have hts := kind_ne_eof_of_scan (congrArg Scanned.tokens hscan)
  rw [hscan] at he
  have hmoved : parseExpression? limits
      ((ts ++ [Token.eof a]).map (Token.respell (moving (· + (6 : Nat))))) = _ :=
    parseExpression?_respell limits rfl
  rw [he, List.map_append] at hmoved
  have hphrase := assignment_of_parseExpression? (by simpa using hts) rfl hmoved
  have hstatement : Statement (Phrases.within limits.steps 0) false
      (⟨.kwPrint, "print", .nil, 0⟩ :: ts.map (Token.respell (moving (· + (6 : Nat)))) ++
        [⟨.semicolon, ";", .nil, b⟩]) (.print (e.respell (moving (· + (6 : Nat))))) :=
    .print rfl hphrase rfl
  rw [hprinted]
  refine ⟨rfl, parse_of_program rfl ?_⟩
  have hrow := Row.cons (Declaration.statement hstatement) Row.nil
  rwa [List.append_nil] at hrow

/-- A program is no expression. -/
theorem parseExpression?_of_parse {limits : Limits} {text : String}
    (h : (parse limits (scan text).tokens).diagnostics = []) :
    parseExpression? limits (scan text).tokens = none := by
  obtain ⟨ts, last, hscan, hlast, hts⟩ := spelled_scan text
  have hne : ∀ t ∈ ts, t.kind ≠ .eof := fun t ht => (hts t ht).2
  rw [hscan] at h ⊢
  by_contra hsome
  obtain ⟨e, he⟩ := Option.ne_none_iff_exists'.mp hsome
  have hexpr := assignment_of_parseExpression? hne hlast he
  have hprogram := program_of_parse hne hlast h
  obtain ⟨t, us, rfl, ht⟩ := hexpr.begins
  generalize (parse limits (t :: us ++ [last])).stmts = stmts at hprogram
  generalize hsplit : t :: us = ts at hprogram
  cases hprogram with
  | nil => cases hsplit
  | @cons isOpen first rest s ss hd hss =>
    obtain ⟨t', vs, rfl, -⟩ := hd.begins
    obtain rfl : t = t' := (List.cons.inj hsplit).1
    obtain ⟨ws, semi, e', ha, hsemi, hfirst⟩ := (hd.toExprStmt ht).split
    have heq : ws ++ semi :: (rest ++ [last]) = t :: us ++ last :: [] := by
      rw [hsplit, hfirst]
      simp
    have hsame := assignment_unique ha hexpr heq (by rw [hsemi]; rfl) (by rw [hlast]; rfl)
    rw [hsame] at heq
    have hkind := congrArg Token.kind (List.cons.inj (List.append_cancel_left heq)).1
    rw [hsemi, hlast] at hkind
    cases hkind

/-! ### Binding names -/

/-- The names of a printed expression are bound as those of the expression. -/
theorem run_resolveStmt_printed (room : Room) (e : Expr) (σ : Scoping) :
    ∃ e', (resolveStmt room (.expr e)).run σ = (.expr e', ((resolveStmt room (.expr e)).run σ).2) ∧
      (resolveStmt room (.print e)).run σ = (.print e', ((resolveStmt room (.expr e)).run σ).2) := by
  unfold resolveStmt
  rcases room with _ | _ | n
  · exact ⟨_, rfl, rfl⟩
  · exact ⟨e, rfl, rfl⟩
  · dsimp only [further]
    simp only [run_unlessStopped]
    cases σ.stopped with
    | true => exact ⟨e, rfl, rfl⟩
    | false => exact ⟨_, rfl, rfl⟩

theorem run_resolveTop_of_not_fits {steps : Nat} {s : Stmt} (h : s.fits steps ≠ true) (σ : Scoping) :
    (resolveTop steps s).run σ = (((resolveStmt (some steps) s).run σ).1,
      ((resolveStmt (some steps) s).run σ).2.restart (s.offset?.getD 0)) := by
  rw [resolveTop, if_neg h]
  rfl

/-- The same is found in a printed expression as in the expression. -/
theorem resolve_printed (limits : Limits) (e : Expr) :
    ∃ e', resolveExpression limits e = (e', (resolve limits [.print e]).errors) ∧
      (resolve limits [.print e]).stmts = [.print e'] := by
  have hfits : (Stmt.print e).fits limits.steps = (Stmt.expr e).fits limits.steps := by
    cases limits.steps <;> rfl
  have htop : ∃ e' τ, (resolveTop limits.steps (.expr e)).run .initial = (.expr e', τ) ∧
      (resolveTop limits.steps (.print e)).run .initial = (.print e', τ) := by
    by_cases h : (Stmt.expr e).fits limits.steps = true
    · obtain ⟨e', he, hp⟩ := run_resolveStmt_printed none e .initial
      refine ⟨e', _, (run_resolveTop_of_fits h _).trans he, ?_⟩
      exact (run_resolveTop_of_fits (hfits.trans h) _).trans hp
    · obtain ⟨e', he, hp⟩ := run_resolveStmt_printed (some limits.steps) e .initial
      refine ⟨e', _, run_resolveTop_of_not_fits h _ |>.trans (by rw [he]), ?_⟩
      rw [run_resolveTop_of_not_fits (by rwa [hfits]), hp]
      rfl
  obtain ⟨e', τ, he, hp⟩ := htop
  have hstmts (s : Stmt) : (resolve limits [s]).stmts =
      [((resolveTop limits.steps s).run .initial).1] := rfl
  have herrors (s : Stmt) : (resolve limits [s]).errors =
      ((resolveTop limits.steps s).run .initial).2.errors.toList := rfl
  refine ⟨e', ?_, by rw [hstmts, hp]⟩
  unfold resolveExpression
  dsimp only
  rw [hstmts, herrors, herrors, he, hp]

/-! ### Running -/

/-- A place given to the error of a procedure is all that differs. -/
theorem sayings_reported_placed (p : Run Unit) (start start' offset : Unit → Option Int) (s : Store) :
    (reported start (Run.placed offset p) s).1.map (List.map Diagnostic.saying) =
        (reported start' p s).1.map (List.map Diagnostic.saying) ∧
      (reported start (Run.placed offset p) s).2 = (reported start' p s).2 := by
  unfold reported Run.placed mapHalt
  obtain ⟨r, s'⟩ := p s
  cases r with
  | ok _ => exact ⟨rfl, rfl⟩
  | error fault =>
    cases fault with
    | error e => by_cases h : (Fault.error e).isUnplaced <;> simp [h] <;> exact ⟨rfl, rfl⟩
    | overflow | diverged _ | misplaced _ | exhausted => exact ⟨rfl, rfl⟩

theorem interpretWith_single (evaluator : Evaluator) (stmt : Stmt) (s : Store) :
    interpretWith evaluator [stmt] s =
      reported (fun _ => stmt.offset?) (discard (evaluator.stmt stmt Store.globals)) s := by
  cases hrun : reported (fun _ => stmt.offset?) (discard (evaluator.stmt stmt Store.globals)) s with
  | mk r s' =>
    rw [interpretWith_cons hrun]
    match r with
    | .error _ | .ok [] | .ok (_ :: _) => rfl

theorem map_mapHalt {σ ε α β : Type} (g : α → β) (f : ε → ε) (p : Procedure σ ε α) :
    g <$> mapHalt f p = mapHalt f (g <$> p) := by
  funext s
  rw [map_eq_pure_bind, map_eq_pure_bind]
  cases hp : p s with
  | mk r s' =>
    cases r with
    | ok a =>
      have hmapped : mapHalt f p s = (.ok a, s') := by rw [mapHalt, hp]
      rw [bind_ok hmapped, mapHalt, bind_ok hp]
      rfl
    | error e =>
      have hmapped : mapHalt f p s = (.error (f e), s') := by rw [mapHalt, hp]
      rw [bind_error hmapped, mapHalt, bind_error hp]

/-- The value is printed with two steps fewer left. -/
theorem discard_stmt_print (limits : Limits) (e : Expr) (f : FrameId) :
    discard ((Evaluator.ofLimits limits).stmt (.print e) f) =
      Run.placed (fun _ => (Stmt.print e).offset?)
        ((Evaluator.within .recorded limits.turns (limits.steps - 2) 0).expr e f >>= Run.print) := by
  unfold Evaluator.ofLimits
  cases hsteps : limits.steps with
  | zero =>
    unfold Evaluator.within
    rfl
  | succ steps =>
    have hstmt : (Evaluator.within .recorded limits.turns (steps + 1) 0).stmt (.print e) f =
        Run.placed (fun _ => (Stmt.print e).offset?)
          (execStmt (Evaluator.within .recorded limits.turns steps 1) (.print e) f) := rfl
    rw [hstmt, Evaluator.within_drop]
    show Functor.mapConst () _ = _
    rw [LawfulFunctor.map_const]
    show _ <$> _ = _
    rw [Run.placed, map_mapHalt]
    refine congrArg _ ?_
    unfold execStmt
    simp

/-- The statement that prints an expression prints its value, or reports that it has run out of
steps. -/
theorem interpret_printed (limits : Limits) (e : Expr) (s : Store) :
    let program := interpret limits [.print e] s
    let line := interpretExpr limits e s
    (∃ d, program.1 = .ok [d] ∧ d.saying = (.runtime, stackOverflowMessage)) ∨
      program.1.map (List.map Diagnostic.saying) = line.1.map (List.map Diagnostic.saying) ∧
        program.2 = line.2 := by
  obtain ⟨offset, start, hprogram⟩ : ∃ offset start, interpret limits [.print e] s =
      reported start (Run.placed offset
        ((Evaluator.within .recorded limits.turns (limits.steps - 2) 0).expr e Store.globals >>=
          Run.print)) s :=
    ⟨_, _, (interpretWith_single ..).trans (by rw [discard_stmt_print])⟩
  have hlock : Run.Lockstep (· = .overflow) none
      ((Evaluator.within .recorded limits.turns (limits.steps - 2) 0).expr e Store.globals >>= Run.print)
      ((Evaluator.ofLimits limits).expr e Store.globals >>= Run.print) s :=
    ((Evaluator.lockstep_within limits.turns (Nat.sub_le ..)).expr e _ s).bind fun v _ _ => .print v
  rw [hprogram]
  rcases hlock with ⟨_, s', hover, rfl⟩ | ⟨hsame, _⟩
  · refine .inl ⟨⟨.runtime, (start ()).getD 0, stackOverflowMessage⟩, ?_, rfl⟩
    unfold reported Run.placed mapHalt
    rw [hover]
    rfl
  · obtain ⟨hsaid, hstore⟩ := sayings_reported_placed
      ((Evaluator.within .recorded limits.turns (limits.steps - 2) 0).expr e Store.globals >>= Run.print)
      start (fun _ => e.offset?) offset s
    have hline : interpretExpr limits e s = reported (fun _ => e.offset?)
        ((Evaluator.within .recorded limits.turns (limits.steps - 2) 0).expr e Store.globals >>=
          Run.print) s := by
      unfold interpretExpr interpretExprWith reported
      rw [hsame]
    rw [hline]
    exact .inr ⟨hsaid, hstore⟩

/-- The run has come to the limit on steps. -/
def Report.RunsOut (r : Report) : Prop :=
  (Phase.runtime, stackOverflowMessage) ∈ r.diagnostics.map Diagnostic.saying

theorem Report.Alike.runsOut {a b : Report} (h : a.Alike b) (ha : a.RunsOut) : b.RunsOut := by
  unfold RunsOut
  rw [← h.sayings]
  exact ha

namespace Session

theorem execute_printed (session : Session) (e : Expr) :
    let program := session.execute (interpret session.limits [.print e])
    let line := session.execute (interpretExpr session.limits e)
    program.1.RunsOut ∨ line.1.Alike program.1 ∧ line.2 = program.2 := by
  intro program line
  cases hprogram : interpret session.limits [.print e] session.opening with
  | mk r s =>
    cases hline : interpretExpr session.limits e session.opening with
    | mk r' s' =>
      have hp : program = (.ofResult s.output.toList r, { session with store := s }) :=
        execute_eq hprogram
      have hl : line = (.ofResult s'.output.toList r', { session with store := s' }) :=
        execute_eq hline
      have hprinted := interpret_printed session.limits e session.opening
      rw [hprogram, hline] at hprinted
      rw [hp, hl]
      rcases hprinted with ⟨d, rfl, hd⟩ | ⟨hsaid, rfl⟩
      · exact .inl (List.mem_map.mpr ⟨d, List.mem_singleton_self d, hd⟩)
      · refine .inr ⟨?_, rfl⟩
        match r, r' with
        | .ok _, .ok _ => exact ⟨rfl, (Except.ok.inj hsaid).symm, rfl, rfl⟩
        | .error _, .error _ => exact ⟨rfl, rfl, congrArg some (Except.error.inj hsaid).symm, rfl⟩

/-- The statement may stand elsewhere. -/
theorem execute_alike_printed (session : Session) {e : Expr} {stmts : List Stmt}
    (h : bodyRespell unplaced [.print e] = bodyRespell unplaced stmts) :
    let program := session.execute (interpret session.limits stmts)
    let line := session.execute (interpretExpr session.limits e)
    program.1.RunsOut ∨ line.1.Alike program.1 ∧ line.2.Alike program.2 := by
  intro program line
  have hsaid (stmts : List Stmt) : Run.Says (fun _ => 0) #[] (interpret session.limits stmts)
      (interpret session.limits (bodyRespell unplaced stmts)) :=
    says_interpretWith (Evaluator.moves_ofLimits session.limits) stmts
  have hthere := hsaid stmts
  rw [← h] at hthere
  obtain ⟨hreport, hsession⟩ := execute_alike (.refl session) (hsaid [.print e]) hthere
  rcases session.execute_printed e with hout | ⟨hreport', hsession'⟩
  · exact .inl (hreport.runsOut hout)
  · rw [← hsession'] at hsession
    exact .inr ⟨hreport'.trans hreport, hsession⟩

/-- An expression as an interactive input, and the program that prints it. -/
theorem runLine_printed {session : Session} {text : String} {e : Expr}
    (h : (scan text).diagnostics = [])
    (he : parseExpression? session.limits (scan text).tokens = some e) :
    let program := session.run (printing text)
    let line := session.runLine text
    program.1.RunsOut ∨ line.1.Alike program.1 ∧ line.2.Alike program.2 := by
  intro program line
  obtain ⟨hscans, hparse⟩ := parse_printed h he
  obtain ⟨e', hresolved, hstmts⟩ := resolve_printed session.limits e
  have hmoved : bodyRespell unplaced [.print e] =
      bodyRespell unplaced [.print (e.respell (moving (· + (6 : Nat))))] := by
    show _ = bodyRespell unplaced (bodyRespell (moving (· + (6 : Nat))) [.print e])
    rw [bodyRespell_bodyRespell, moving_andThen_moving]
    rfl
  obtain ⟨halike, hmisuses⟩ := resolve_alike session.limits hmoved
  have hline : line = session.runExpression e := by
    show session.runLine text = _
    unfold runLine
    dsimp only
    rw [h, he]
  have hprogram : program = session.run (printing text) := rfl
  unfold runExpression at hline
  unfold run at hprogram
  dsimp only at hprogram
  rw [hresolved] at hline
  rw [hscans, hparse] at hprogram
  generalize resolve session.limits [.print (e.respell _)] = there at hprogram halike hmisuses
  generalize resolve session.limits [.print e] = here at hline hstmts halike hmisuses
  rw [hstmts] at halike
  rw [hline, hprogram]
  dsimp only [Resolution.diagnostics, List.nil_append] at hmisuses ⊢
  clear hline hprogram hscans hparse hresolved hmoved he h
  obtain ⟨_, errors, _, _⟩ := here
  obtain ⟨stmts, errors', _, _⟩ := there
  match errors, errors' with
  | _ :: _, _ :: _ => exact .inr ⟨⟨rfl, hmisuses, rfl, rfl⟩, .refl _⟩
  | [], [] => exact execute_alike_printed session halike

end Session

/-- **Interactive inputs agree with programs.** An expression does as an interactive input what the
program does that prints it, unless that runs out of steps: it prints and reports the same, and leaves the
same globals, and a session alike. A text that is a program is no expression, and runs as the program. -/
theorem line_agrees_with_program (session : Session) (text : String)
    (h : (scan text).diagnostics = []) :
    (∀ e, parseExpression? session.limits (scan text).tokens = some e →
      let program := session.run (printing text)
      let line := session.runLine text
      ¬ program.1.RunsOut → line.1.Alike program.1 ∧
        line.2.store.frame Store.globals = program.2.store.frame Store.globals ∧
        line.2.Alike program.2) ∧
    ((parse session.limits (scan text).tokens).diagnostics = [] →
      parseExpression? session.limits (scan text).tokens = none ∧
        session.runLine text = session.run text) := by
  constructor
  · intro e he program line hfits
    obtain hout | ⟨hreport, hsession⟩ := Session.runLine_printed h he
    · exact absurd hout hfits
    · exact ⟨hreport, hsession.globals, hsession⟩
  · intro hparse
    have hnone := parseExpression?_of_parse hparse
    refine ⟨hnone, ?_⟩
    unfold Session.runLine
    dsimp only
    rw [h, hnone]

/-- A text of one word. -/
theorem line_agrees_for_nil :
    let session := Session.start ⟨40, 5⟩ (.still ⟨0⟩)
    (session.runLine "nil").1.output = ["nil"] ∧ (session.runLine "nil;").1.output = [] := by
  intro session
  have hexpr := (line_agrees_with_program session "nil" rfl).1 (.literal .nil) rfl
  have hprogram := (line_agrees_with_program session "nil;" rfl).2 rfl
  refine ⟨(hexpr ?_).1.output.trans rfl, ?_⟩
  · unfold Report.RunsOut
    have : (session.run (printing "nil")).1.diagnostics = [] := rfl
    rw [this]
    exact List.not_mem_nil
  · rw [hprogram.2]
    rfl

end Lox
