/-
# Where reports point

What is reported of an input before it runs stands in its text. What is
reported of its run need not: a function stays in the session with the marks
of the text that it was written in, and a failure inside it is reported where
the failing mark stands there. Apart from the marks of functions that earlier
inputs left behind, reports of running point into the text of the input too.

Running a program commutes with moving marks (`Lox.Run.Moves`), so a program
and a store that a moving leaves as they are come to reports and to a store
that it leaves as they are. What is said of offsets follows from movings that
leave just the offsets in question. Each function of a session is one that the
pass of names came by in an input that ran, so its marks are marks of that
input (`Lox.Input.Writes`).

Key definitions: `Lox.Input.text`, `Lox.Store.Stays`, `Lox.Run.Points`, `Lox.moveUnless`,
`Lox.Input.Writes`.
Key theorems: `Lox.Session.feed_stays`, `Lox.refusals_extent`, `Lox.Session.functions_written`,
`Lox.Input.Writes.extent`, `Lox.Session.reports_point_into_texts`.
-/
import Lox.Proofs.Running.Refusals
import Lox.Proofs.Spelling.Offsets
import Lox.Proofs.Spelling.Running

namespace Lox

open Procedure

open Respelling

/-- The text of an input. -/
def Input.text : Input → String
  | .program text | .line text => text

variable {place : Int → Int}

/-! ### Runs -/

/-- The functions of the store have offsets that stay. -/
def Store.Stays (place : Int → Int) (s : Store) : Prop :=
  ∀ closure ∈ s.functions, ∀ p ∈ (functionNode closure.decl).offsets, place p = p

theorem Closure.respell_eq_self (closure : Closure) : closure.respell (moving place) = closure ↔
    ∀ p ∈ (functionNode closure.decl).offsets, place p = p := by
  rw [← functionRespell_eq_self]
  obtain ⟨decl, frame, isInitializer⟩ := closure
  simp [Closure.respell]

theorem Store.carry_eq_self (s : Store) : s.carry place #[] = s ↔ s.Stays place := by
  have hfunctions : s.functions.map (Closure.respell (moving place)) = s.functions ↔
      s.Stays place := by
    calc s.functions.map (Closure.respell (moving place)) = s.functions
        ↔ s.functions.map (Closure.respell (moving place)) = s.functions.map id := by
          rw [Array.map_id]
      _ ↔ ∀ closure ∈ s.functions, closure.respell (moving place) = closure := Array.map_inj_left
      _ ↔ s.Stays place := forall₂_congr fun closure _ => closure.respell_eq_self
  rw [← hfunctions]
  obtain ⟨frames, functions, methods, classes, instances, output, clock⟩ := s
  simp [Store.carry]

namespace Run

/-- It makes reports at offsets that stay, and leaves functions with such offsets. -/
def Points (place : Int → Int) (p : Run (List Diagnostic)) : Prop :=
  ∀ s : Store, s.Stays place →
    (p s).2.Stays place ∧ ∀ ds, (p s).1 = .ok ds → ∀ d ∈ ds, place d.offset = d.offset

/-- What commutes with a moving does not leave what the moving leaves. -/
theorem Moves.stays {α : Type} {p : Run α} (h : Moves place #[] p p) {s : Store}
    (hs : s.Stays place) :
    (p s).2.Stays place ∧ (p s).1.mapError (Fault.move place) = (p s).1 := by
  have hmoved := h s
  rw [s.carry_eq_self.mpr hs] at hmoved
  have hresult := congrArg Prod.fst hmoved
  have hstore := congrArg Prod.snd hmoved
  exact ⟨(Store.carry_eq_self _).mp hstore.symm, hresult.symm⟩

theorem offset_diagnostic? (h0 : place 0 = 0) {start : Option Int} (hstart : start.map place = start)
    {fault : Fault} (hfault : fault.move place = fault) {d : Diagnostic}
    (hd : fault.diagnostic? start = some d) : place d.offset = d.offset := by
  cases fault with
  | error e =>
    cases hd
    injection hfault with herror
    exact getD_stays h0 (congrArg RuntimeError.offset herror)
  | overflow =>
    cases hd
    exact getD_stays h0 hstart
  | diverged _ | misplaced _ | exhausted => cases hd

theorem Moves.points (h0 : place 0 = 0) {p : Run Unit} (h : Moves place #[] p p)
    {start : Unit → Option Int} (hstart : (start ()).map place = start ()) :
    Points place (Lox.reported start p) := by
  intro s hs
  obtain ⟨hstore, hresult⟩ := h.stays hs
  cases hrun : p s with
  | mk r s' =>
    rw [hrun] at hstore hresult
    cases r with
    | ok a =>
      rw [reported_ok hrun]
      refine ⟨hstore, fun ds hds d hd => ?_⟩
      cases hds
      cases hd
    | error fault =>
      rw [reported_error hrun]
      have hfault : fault.move place = fault := Except.error.inj hresult
      refine ⟨hstore, fun ds hds d hd => ?_⟩
      dsimp only at hds
      split at hds
      · rename_i d' hd'
        cases hds
        rw [List.mem_singleton.mp hd]
        exact offset_diagnostic? h0 hstart hfault hd'
      · cases hds

/-- The first report ends a program. -/
theorem Points.bind {p q : Run (List Diagnostic)} (hp : Points place p) (hq : Points place q) :
    Points place (do
      match ← p with
      | [] => q
      | ds => return ds) := by
  intro s hs
  obtain ⟨hstore, hoffsets⟩ := hp s hs
  cases hrun : p s with
  | mk r s' =>
    rw [hrun] at hstore hoffsets
    match r with
    | .error fault =>
      rw [bind_error hrun]
      exact ⟨hstore, fun ds hds => by cases hds⟩
    | .ok [] =>
      rw [bind_ok hrun]
      exact hq s' hstore
    | .ok (d :: ds) =>
      rw [bind_ok hrun]
      refine ⟨hstore, fun ds' hds => ?_⟩
      cases hds
      exact hoffsets _ rfl

end Run

variable {evaluator : Evaluator}

/-- A program that stays makes reports at offsets that stay. -/
theorem points_interpretWith (h0 : place 0 = 0) (h : evaluator.Moves place #[]) :
    ∀ stmts : List Stmt, bodyRespell (moving place) stmts = stmts →
      Run.Points place (interpretWith evaluator stmts)
  | [], _ => fun s hs => by
    refine ⟨hs, fun ds hds d hd => ?_⟩
    cases hds
    cases hd
  | stmt :: stmts, hstmts => by
    injection hstmts with hstmt hstmts
    have hmoves := h.stmt stmt Store.globals
    rw [hstmt] at hmoves
    exact .bind (hmoves.discard.points h0 (Stmt.offset?_stays hstmt))
      (points_interpretWith h0 h stmts hstmts)

theorem points_interpretExprWith (h0 : place 0 = 0) (h : evaluator.Moves place #[]) {e : Expr}
    (he : e.respell (moving place) = e) : Run.Points place (interpretExprWith evaluator e) := by
  have hmoves := h.expr e Store.globals
  rw [he] at hmoves
  have hprinted : Run.Moves place #[] (evaluator.expr e Store.globals >>= fun v => Run.print v)
      (evaluator.expr e Store.globals >>= fun v => Run.print v) := .bind hmoves fun v => .print v
  exact hprinted.points h0 (Expr.offset?_stays he)

/-! ### Inputs -/

/-- What runs has offsets that stay. -/
def Code.Stays (place : Int → Int) : Code → Prop
  | .program stmts => bodyRespell (moving place) stmts = stmts
  | .expression e => e.respell (moving place) = e

theorem Code.Stays.points (h0 : place 0 = 0) (limits : Limits) {code : Code} (h : code.Stays place) :
    Run.Points place (code.run (.ofLimits limits)) := by
  cases code with
  | program stmts => exact points_interpretWith h0 (Evaluator.moves_ofLimits limits) stmts h
  | expression e => exact points_interpretExprWith h0 (Evaluator.moves_ofLimits limits) h

section

variable {text : String} (h : ∀ p, Extent text.length p → place p = p)
include h

/-- The start of a text is one of its offsets. -/
theorem zero_stays : place 0 = 0 := h 0 (.zero _)

theorem tokens_stay : ∀ t ∈ (scan text).tokens, place t.offset = t.offset := by
  intro t ht
  have hextent := (scan_extent text).1 t ht
  rw [String.length_toList] at hextent
  exact h t.offset hextent

theorem reports_stay : ∀ d ∈ (scan text).diagnostics, place d.offset = d.offset := by
  intro d hd
  obtain ⟨_, hextent⟩ := (scan_extent text).2 d hd
  rw [String.length_toList] at hextent
  exact h d.offset hextent

theorem programRefusals_stay (limits : Limits) :
    ∀ d ∈ programRefusals limits text, place d.offset = d.offset := by
  obtain ⟨hstmts, hgrammar⟩ := parse_stays limits (tokens_stay h)
  unfold programRefusals
  dsimp only
  intro d hd
  split at hd
  · obtain ⟨e, he, rfl⟩ := List.mem_map.mp hd
    exact (resolve_stays (zero_stays h) limits hstmts).2 e he
  · rcases List.mem_append.mp hd with hd | hd
    · exact reports_stay h d hd
    · exact hgrammar d hd

theorem acceptedProgram_written_stays {limits : Limits} {a : Accepted}
    (ha : acceptedProgram? limits text = some a) :
    bodyRespell (moving place) a.written = a.written := by
  obtain ⟨hstmts, _⟩ := parse_stays limits (tokens_stay h)
  unfold acceptedProgram? at ha
  dsimp only at ha
  split at ha
  · cases ha
    exact hstmts
  · cases ha

theorem acceptedProgram_stays {limits : Limits} {a : Accepted}
    (ha : acceptedProgram? limits text = some a) : a.code.Stays place := by
  obtain ⟨hstmts, _⟩ := parse_stays limits (tokens_stay h)
  unfold acceptedProgram? at ha
  dsimp only at ha
  split at ha
  · cases ha
    exact (resolve_stays (zero_stays h) limits hstmts).1
  · cases ha

end

section

variable {input : Input} (h : ∀ p, Extent input.text.length p → place p = p)
include h

theorem refusals_stay (limits : Limits) :
    ∀ d ∈ input.refusals limits, place d.offset = d.offset := by
  cases input with
  | program text => exact programRefusals_stay h limits
  | line text =>
    unfold Input.refusals
    dsimp only
    intro d hd
    split at hd
    · rename_i e _ he
      obtain ⟨error, herror, rfl⟩ := List.mem_map.mp hd
      have hstays := parseExpression?_stays (tokens_stay h) he
      exact (resolveExpression_stays (zero_stays h) limits hstays).2 error herror
    · exact programRefusals_stay h limits d hd

theorem accepted_stays {limits : Limits} {a : Accepted} (ha : input.accepted? limits = some a) :
    a.code.Stays place := by
  cases input with
  | program text => exact acceptedProgram_stays h ha
  | line text =>
    unfold Input.accepted? at ha
    dsimp only at ha
    split at ha
    · rename_i e _ he
      have hstays := parseExpression?_stays (tokens_stay h) he
      have hresolved := (resolveExpression_stays (zero_stays h) limits hstays).1
      split at ha
      · rename_i resolved hr
        cases ha
        rw [hr] at hresolved
        exact hresolved
      · cases ha
    · exact acceptedProgram_stays h ha

/-- What was written in an input stays, too. -/
theorem written_stays {limits : Limits} {a : Accepted} (ha : input.accepted? limits = some a) :
    bodyRespell (moving place) a.written = a.written := by
  cases input with
  | program text => exact acceptedProgram_written_stays h ha
  | line text =>
    unfold Input.accepted? at ha
    dsimp only at ha
    split at ha
    · rename_i e _ he
      have hstays := parseExpression?_stays (tokens_stay h) he
      split at ha
      · cases ha
        simp [bodyRespell, Stmt.respell, hstays]
      · cases ha
    · exact acceptedProgram_written_stays h ha

end

/-! ### Parts of a program -/

/-- The offsets in the part stay. -/
def Construct.Stays (place : Int → Int) : Construct → Prop
  | .expr e => e.respell (moving place) = e
  | .args es => argsRespell (moving place) es = es
  | .stmt s => s.respell (moving place) = s
  | .body stmts => bodyRespell (moving place) stmts = stmts
  | .function _ decl => functionRespell (moving place) decl = decl
  | .methods ms => methodsRespell (moving place) ms = ms

/-- The parts of what stays stay. -/
theorem Construct.Stays.part : ∀ {v u : Visit}, v.construct.Stays place → u ∈ v.parts →
    u.construct.Stays place
  | ⟨.expr (.literal _), _, _⟩, _, _, h | ⟨.expr (.variable _), _, _⟩, _, _, h
  | ⟨.expr (.receiver _), _, _⟩, _, _, h | ⟨.expr (.superMethod _ _), _, _⟩, _, _, h
  | ⟨.expr (.stray _), _, _⟩, _, _, h | ⟨.args [], _, _⟩, _, _, h
  | ⟨.stmt (.var _ none), _, _⟩, _, _, h | ⟨.stmt (.giveBack _ none), _, _⟩, _, _, h
  | ⟨.stmt (.stray _), _, _⟩, _, _, h | ⟨.body [], _, _⟩, _, _, h
  | ⟨.methods [], _, _⟩, _, _, h => nomatch h
  | ⟨.expr (.grouping _), _, _⟩, _, hv, h | ⟨.expr (.get _ _), _, _⟩, _, hv, h
  | ⟨.stmt (.expr _), _, _⟩, _, hv, h | ⟨.stmt (.print _), _, _⟩, _, hv, h
  | ⟨.stmt (.block _), _, _⟩, _, hv, h | ⟨.stmt (.function _), _, _⟩, _, hv, h => by
    obtain rfl := List.mem_singleton.mp h
    injection hv
  | ⟨.expr (.unary _ _), _, _⟩, _, hv, h | ⟨.expr (.assign _ _), _, _⟩, _, hv, h => by
    obtain rfl := List.mem_singleton.mp h
    injection hv
  | ⟨.stmt (.var _ (some _)), _, _⟩, _, hv, h | ⟨.stmt (.giveBack _ (some _)), _, _⟩, _, hv, h => by
    obtain rfl := List.mem_singleton.mp h
    injection hv with _ hvalue
    exact Option.some.inj hvalue
  | ⟨.expr (.binary _ _ _), _, _⟩, _, hv, h | ⟨.expr (.logical _ _ _), _, _⟩, _, hv, h
  | ⟨.expr (.call _ _ _), _, _⟩, _, hv, h | ⟨.expr (.set _ _ _), _, _⟩, _, hv, h
  | ⟨.args (_ :: _), _, _⟩, _, hv, h | ⟨.stmt (.branch _ _ none), _, _⟩, _, hv, h
  | ⟨.stmt (.loop _ _), _, _⟩, _, hv, h | ⟨.body (_ :: _), _, _⟩, _, hv, h
  | ⟨.methods (_ :: _), _, _⟩, _, hv, h => by
    injection hv
    obtain rfl | rfl := Visit.of_mem_two h <;> assumption
  | ⟨.expr (.ternary _ _ _), _, _⟩, _, hv, h => by
    injection hv
    obtain rfl | h := List.mem_cons.mp h
    · assumption
    · obtain rfl | rfl := Visit.of_mem_two h <;> assumption
  | ⟨.stmt (.branch _ _ (some _)), _, _⟩, _, hv, h => by
    injection hv with hcond hyes hno
    obtain rfl | h := List.mem_cons.mp h
    · exact hcond
    · obtain rfl | rfl := Visit.of_mem_two h
      · exact hyes
      · exact Option.some.inj hno
  | ⟨.stmt (.classDecl _ none _), _, _⟩, _, hv, h => by
    obtain rfl := List.mem_singleton.mp h
    injection hv
  | ⟨.stmt (.classDecl _ (some use) _), _, _⟩, _, hv, h => by
    injection hv with _ huse hmethods
    obtain rfl | rfl := Visit.of_mem_two h
    · exact congrArg Expr.variable (Option.some.inj huse)
    · exact hmethods
  | ⟨.function _ ⟨_, _, _⟩, _, _⟩, _, hv, h => by
    obtain rfl := List.mem_singleton.mp h
    injection hv

theorem Visited.stays {program : List Stmt} (hp : bodyRespell (moving place) program = program)
    {v : Visit} (h : Visited program v) : v.construct.Stays place := by
  induction h with
  | program => exact hp
  | part _ hu ih => exact ih.part hu

/-- The pass of names makes functions with the same offsets. -/
theorem WrittenAt.stays {program : List Stmt} {decl : Fun} (h : WrittenAt (Visited program) decl)
    (hp : bodyRespell (moving place) program = program) :
    functionRespell (moving place) decl = decl := by
  obtain ⟨kind, written, σ, os, hv, rfl⟩ := h
  have hwritten : functionRespell (moving place) written = written := hv.stays hp
  have hmoves : Resolve.Moves (functionRespell (moving place)) _ _ :=
    moves_resolveFunction kind written none
  rw [hwritten] at hmoves
  exact (hmoves σ σ (.refl σ)).1.symm

/-! ### Sessions -/

namespace Session

variable {session : Session}

/-- If the offsets of a text and those of the functions of a session stay, so do the offsets of what is
reported of the text in this session, and those of the functions behind it. -/
theorem feed_stays {input : Input} (h : ∀ p, Extent input.text.length p → place p = p)
    (hs : session.store.Stays place) :
    (session.feed input).2.store.Stays place ∧
      ∀ d ∈ (session.feed input).1.diagnostics, place d.offset = d.offset := by
  rcases session.feed_refused_or_accepted input with ⟨_, hfeed⟩ | ⟨_, a, ha⟩
  · rw [hfeed]
    exact ⟨hs, refusals_stay h session.limits⟩
  obtain ⟨a', ha', hfeed⟩ | ⟨hnone, _⟩ := session.feed_eq input
  · have hstays := accepted_stays h ha'
    obtain ⟨hstore, hoffsets⟩ := hstays.points (h 0 (.zero _)) session.limits session.opening hs
    obtain ⟨r, s, hrun⟩ : ∃ r s, a'.code.run (.ofLimits session.limits) session.opening = (r, s) :=
      ⟨_, _, rfl⟩
    rw [hrun] at hstore hoffsets
    rw [hfeed, watched_quiet, execute_eq hrun]
    refine ⟨hstore, fun d hd => ?_⟩
    cases r with
    | ok ds => exact hoffsets ds rfl d hd
    | error fault => cases hd
  · rw [ha] at hnone
    cases hnone

end Session

/-! ### Movings that leave just some offsets -/

open Classical in
/-- An offset is moved unless it is one of these. -/
noncomputable def moveUnless (P : Int → Prop) (p : Int) : Int := if P p then p else p + 1

theorem moveUnless_eq {P : Int → Prop} {p : Int} : moveUnless P p = p ↔ P p := by
  unfold moveUnless
  by_cases hp : P p
  · simp [hp]
  · simp only [hp, if_false, iff_false]
    omega

/-- What is reported of an input before it runs stands in its text. -/
theorem refusals_extent (limits : Limits) (input : Input) :
    ∀ d ∈ input.refusals limits, Extent input.text.length d.offset := by
  intro d hd
  have hstays : moveUnless (Extent input.text.length) d.offset = d.offset :=
    refusals_stay (fun p hp => moveUnless_eq.mpr hp) limits d hd
  exact moveUnless_eq.mp hstays

/-! ### The functions of a session -/

/-- The function was written in the input: the pass of names came by it there, and made this of it. -/
def Input.Writes (limits : Limits) (input : Input) (decl : Fun) : Prop :=
  ∃ a, input.accepted? limits = some a ∧ WrittenAt (Visited a.written) decl

/-- A function has only offsets of the text that it was written in. -/
theorem Input.Writes.extent {limits : Limits} {input : Input} {decl : Fun}
    (h : input.Writes limits decl) :
    ∀ p ∈ (functionNode decl).offsets, Extent input.text.length p := by
  obtain ⟨a, ha, hwritten⟩ := h
  have hprogram := written_stays (fun p hp => moveUnless_eq.mpr hp) ha
  exact fun p hp => moveUnless_eq.mp ((functionRespell_eq_self decl).mp (hwritten.stays hprogram) p hp)

namespace Session

/-- Each function that a session holds was written in an input that ran. -/
theorem functions_written (limits : Limits) (clock : Clock) (inputs : List Input) :
    ∀ closure ∈ ((start limits clock).after inputs).store.functions,
      ∃ i ∈ (start limits clock).ran inputs, i.Writes limits closure.decl := by
  obtain ⟨w, hw, hs⟩ := sound_after limits clock inputs
  rw [← hw]
  intro closure hclosure
  obtain ⟨kind, written, σ, os, ⟨program, hprogram, hv⟩, hdecl⟩ := hs.functions closure hclosure
  obtain ⟨i, hi, haccepted⟩ := List.mem_filterMap.mp hprogram
  obtain ⟨a, ha, rfl⟩ := Option.map_eq_some_iff.mp haccepted
  exact ⟨i, mem_ran ha rfl hi, a, ha, kind, written, σ, os, hv, hdecl⟩

/-- **Where reports point.** A report of the words, the grammar or the names of a text stands in that
text. A report of running does too, or where a mark stands in a function that the session held before,
in the text of the earlier input which that function was written in. -/
theorem reports_point_into_texts (limits : Limits) (clock : Clock) (earlier : List Input)
    (input : Input) {d : Diagnostic}
    (hd : d ∈ (((start limits clock).after earlier).feed input).1.diagnostics) :
    (d.phase ≠ .runtime → Extent input.text.length d.offset) ∧
    (Extent input.text.length d.offset ∨
      ∃ closure ∈ ((start limits clock).after earlier).store.functions,
        d.offset ∈ (functionNode closure.decl).offsets ∧
        ∃ i ∈ (start limits clock).ran earlier, i.Writes limits closure.decl ∧
          Extent i.text.length d.offset) := by
  have hfunctions := functions_written limits clock earlier
  generalize (start limits clock).after earlier = session at hd hfunctions ⊢
  have hpoint : Extent input.text.length d.offset ∨ ∃ closure ∈ session.store.functions,
      d.offset ∈ (functionNode closure.decl).offsets := by
    have hstore : session.store.Stays (moveUnless fun p => Extent input.text.length p ∨
        ∃ closure ∈ session.store.functions, p ∈ (functionNode closure.decl).offsets) :=
      fun closure hclosure p hp => moveUnless_eq.mpr (.inr ⟨closure, hclosure, hp⟩)
    have hstays := (feed_stays (fun p hp => moveUnless_eq.mpr (.inl hp)) hstore).2 d hd
    exact moveUnless_eq.mp hstays
  constructor
  · intro hphase
    by_cases hrefused : input.refusals session.limits = []
    · rcases (feed_runs hrefused).2 with hnone | ⟨d', hone, hrun⟩
      · rw [hnone] at hd
        cases hd
      · rw [hone] at hd
        obtain rfl := List.mem_singleton.mp hd
        exact absurd hrun hphase
    · rw [feed_refused hrefused] at hd
      exact refusals_extent session.limits input d hd
  · rcases hpoint with hown | ⟨closure, hclosure, hmem⟩
    · exact .inl hown
    · obtain ⟨i, hi, hwrites⟩ := hfunctions closure hclosure
      exact .inr ⟨closure, hclosure, hmem, i, hi, hwrites, hwrites.extent d.offset hmem⟩

/-- A function fails in the input behind its own. -/
theorem mem_reports_of_failing_call : ⟨.runtime, 8, "Operand must be a number."⟩ ∈
    (((start ⟨60, 3⟩ (.still ⟨0⟩)).after [.program "fun f()\x7b-nil;\x7d"]).feed
      (.program "f();")).1.diagnostics := by
  decide +kernel

/-- The function was written in the first of the two texts. -/
theorem report_points_into_function :
    ∃ i ∈ (start ⟨60, 3⟩ (.still ⟨0⟩)).ran [.program "fun f()\x7b-nil;\x7d"],
      ∃ decl, i.Writes ⟨60, 3⟩ decl ∧ 8 ∈ (functionNode decl).offsets ∧ Extent i.text.length 8 := by
  rcases (reports_point_into_texts _ _ _ _ mem_reports_of_failing_call).2 with
    hown | ⟨closure, -, hmem, i, hi, hwrites, hextent⟩
  · have hbehind : (8 : Int) ≤ "f();".length := hown.2
    exact absurd hbehind (by decide)
  · exact ⟨i, hi, closure.decl, hwrites, hmem, hextent⟩

/-- Not every report points into the text of its input. -/
theorem report_behind_text : ¬ ∀ (limits : Limits) (clock : Clock) (earlier : List Input)
    (input : Input), ∀ d ∈ (((start limits clock).after earlier).feed input).1.diagnostics,
      Extent input.text.length d.offset := by
  intro hall
  have hextent := hall _ _ _ _ _ mem_reports_of_failing_call
  have hbehind : (8 : Int) ≤ "f();".length := hextent.2
  exact absurd hbehind (by decide)

end Session

end Lox
