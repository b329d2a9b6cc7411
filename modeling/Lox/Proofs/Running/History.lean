/-
# Whole sessions

Running an accepted input from a sound world leads to a sound world, ends with
at most one report, which is one of running, and comes only to moments that
are explained. So do all inputs of a session, one after the other, and one
world explains them all.

Key definitions: `Lox.Accounts`, `Lox.writtenPrograms`.
Key theorems: `Lox.Accounts.code`, `Lox.sound_initial`, `Lox.Session.feed_accepted`,
`Lox.Session.explained`, `Lox.Session.sound_after`.
-/
import Lox.Proofs.Running.Sessions

namespace Lox

open Procedure

variable {P : Visit → Prop} {w w' : World}

/-- Nothing is reported, and nothing escapes. -/
def endsWell : Except Fault (List Diagnostic) → Bool
  | .ok ds => ds.isEmpty
  | .error _ => false

/-- How an input may end: without a report or with one of running; or with a fault that no report is
made of, because a loop takes too many turns, or a variable is assigned in its own initializer. -/
def Settles (P : Visit → Prop) : Except Fault (List Diagnostic) → Prop
  | .ok ds => ds = [] ∨ ∃ d, ds = [d] ∧ d.phase = .runtime
  | .error fault =>
    fault = .exhausted ∨ ∃ name, fault = .diverged (.unbound name 0) ∧ AssignsItself P name

/-- From the world the run leads to a sound one, and ends as it may, and as it is foretold; and watches
that let explained moments pass make no difference. -/
def Accounts (P : Visit → Prop) (w : World) (run : Watch → Run (List Diagnostic)) : Prop :=
  ∃ w' r, w.Le (some Store.globals) w' ∧ Sound P w' ∧ Settles P r ∧ Foretold run w.store r ∧
    ∀ watch, Heeds P w' (endsWell r) watch → run watch w.store = (r, w'.store)

/-! ### Reports -/

theorem reported_ok {start : Unit → Option Int} {p : Run Unit} {s s' : Store}
    (h : p s = (.ok (), s')) : reported start p s = (.ok [], s') := by
  rw [reported, h]

theorem reported_error {start : Unit → Option Int} {p : Run Unit} {s s' : Store} {fault : Fault}
    (h : p s = (.error fault, s')) : reported start p s =
      (match fault.diagnostic? (start ()) with
        | some d => .ok [d]
        | none => .error fault, s') := by
  rw [reported, h]
  dsimp only
  cases fault.diagnostic? (start ()) <;> rfl

section

variable {evaluator : Evaluator} {stmt : Stmt} {stmts : List Stmt} {s s' : Store}

/-- A statement that nothing is reported of lets the program go on. -/
theorem interpretWith_next
    (h : reported (fun _ => stmt.offset?) (discard (evaluator.stmt stmt Store.globals)) s =
      (.ok [], s')) :
    interpretWith evaluator (stmt :: stmts) s = interpretWith evaluator stmts s' :=
  bind_ok h

/-- A report ends the program. -/
theorem interpretWith_reported {d : Diagnostic} {ds : List Diagnostic}
    (h : reported (fun _ => stmt.offset?) (discard (evaluator.stmt stmt Store.globals)) s =
      (.ok (d :: ds), s')) :
    interpretWith evaluator (stmt :: stmts) s = (.ok (d :: ds), s') :=
  bind_ok h

theorem interpretWith_escaped {fault : Fault}
    (h : reported (fun _ => stmt.offset?) (discard (evaluator.stmt stmt Store.globals)) s =
      (.error fault, s')) :
    interpretWith evaluator (stmt :: stmts) s = (.error fault, s') :=
  bind_error h

end

theorem settles_error {fault : Fault} (start : Option Int) (h : Fair P fault) :
    Settles P (match fault.diagnostic? start with
      | some d => .ok [d]
      | none => .error fault) ∧
    endsWell (match fault.diagnostic? start with
      | some d => .ok [d]
      | none => .error fault) = false := by
  cases fault with
  | error _ | overflow => exact ⟨.inr ⟨_, rfl, rfl⟩, rfl⟩
  | exhausted => exact ⟨.inl rfl, rfl⟩
  | diverged d =>
    obtain ⟨name, rfl, hself⟩ := h
    exact ⟨.inr ⟨name, rfl, hself⟩, rfl⟩
  | misplaced _ => exact h.elim

/-- What a run halts with is reported, or escapes. -/
theorem Holds.reported {free : Option FrameId} {run : Watch → Run Unit} {Q : World → Unit → Prop}
    (start : Unit → Option Int) (hfree : free = none ∨ free = some Store.globals)
    (h : Holds P free w run Q) :
    ∃ w' r, (w.Le (some Store.globals) w' ∧ Sound P w' ∧ Settles P r ∧ (r = .ok [] → Q w' ())) ∧
      Foretold (fun watch => reported start (run watch)) w.store r ∧
      ∀ watch, Heeds P w' (endsWell r) watch →
        reported start (run watch) w.store = (r, w'.store) := by
  obtain ⟨w', r, hle, hs, hr, hf, hrun⟩ := h
  have hle : w.Le (some Store.globals) w' := by
    obtain rfl | rfl := hfree
    · exact hle.loosen
    · exact hle
  cases r with
  | ok a =>
    exact ⟨w', .ok [], ⟨hle, hs, .inl rfl, fun _ => hr⟩, .ok [], fun watch hw =>
      reported_ok (hrun watch hw)⟩
  | error fault =>
    obtain ⟨hsettles, hwell⟩ := settles_error (start ()) hr
    refine ⟨w', _, ⟨hle, hs, hsettles, fun heq => ?_⟩, hf.mono (fun d heq => ?_)
      fun t ht m => reported_error (ht m), fun watch hw => reported_error (hrun watch ?_)⟩
    · rw [heq] at hwell
      cases hwell
    · split at heq <;> cases heq
      rfl
    · rwa [hwell] at hw

namespace Accounts

/-- The statements of the top level run among the globals. -/
theorem statements (hst : Stock P) {inner : Watch → Evaluator} (hk : Keeps P inner)
    {body : List Stmt} {w : World} {σ : Scoping} (hP : P ⟨.body body, σ, []⟩) (hs : Sound P w) :
    Accounts P w fun watch => interpretWith (inner watch) (σ.boundBody body) := by
  induction body generalizing w σ with
  | nil => exact ⟨w, .ok [], .refl _ w, hs, .inl rfl, .ok [], fun _ _ => rfl⟩
  | cons s body ih =>
    have hPs : P ⟨.stmt s, σ, []⟩ := hst.part hP (List.mem_cons_self ..)
    have hPbody : P ⟨.body body, σ.behindStmt s, []⟩ := hst.part hP (by simp [Visit.parts])
    have hscopes : σ.scopes = [] := (hst.standing hP).1.aligned.nil_iff.mpr rfl
    have hm : Matches w σ.scopes [] Store.globals := by
      rw [hscopes]
      exact ⟨.globals, fun _ h => by cases h⟩
    have hbound : σ.boundBody (s :: body) = σ.boundStmt s :: (σ.behindStmt s).boundBody body := rfl
    rw [hbound]
    obtain ⟨w1, r1, ⟨hle1, hs1, hr1, -⟩, hf1, hrun1⟩ :=
      Holds.reported (fun _ => (σ.boundStmt s).offset?) (.inr rfl) (hk.stmt hPs hs hm).discard
    cases r1 with
    | error fault =>
      refine ⟨w1, .error fault, hle1, hs1, hr1, hf1.mono (fun d heq => ?_) fun t ht m =>
        interpretWith_escaped (ht m), fun watch hw => interpretWith_escaped (hrun1 watch hw)⟩
      cases heq
      rfl
    | ok ds =>
      cases ds with
      | cons d ds =>
        exact ⟨w1, .ok (d :: ds), hle1, hs1, hr1, .ok _, fun watch hw =>
          interpretWith_reported (hrun1 watch hw)⟩
      | nil =>
        obtain ⟨w2, r2, hle2, hs2, hr2, hf2, hrun2⟩ := ih hPbody hs1
        refine ⟨w2, r2, hle1.trans hle2, hs2, hr2, fun name d heq => ?_, fun watch hw => ?_⟩
        · obtain ⟨t, ht, hcomes⟩ := hf2 name d heq
          exact ⟨t, ht, fun m =>
            (interpretWith_next (hrun1 _ (.stopAt_premature ht m))).trans (hcomes m)⟩
        · exact (interpretWith_next (hrun1 watch (hw.earlier hle2))).trans (hrun2 watch hw)

/-- What an accepted input runs. -/
theorem code (hst : Stock P) {inner : Watch → Evaluator} (hk : Keeps P inner) {a : Accepted}
    (hb : a.Bound) (hP : P (Visit.whole a.written)) (hs : Sound P w) :
    Accounts P w fun watch => a.code.run (inner watch) := by
  cases hb with
  | program written => exact statements hst hk hP hs
  | expression e =>
    have hPs : P ⟨.stmt (.expr e), .initial, []⟩ := hst.part hP (List.mem_cons_self ..)
    have hPe : P ⟨.expr e, .initial, []⟩ := hst.part hPs (List.mem_singleton_self _)
    have hm : Matches w Scoping.initial.scopes [] Store.globals :=
      ⟨.globals, fun _ h => nomatch h⟩
    have hprint : Holds P none w (fun watch => do
        let v ← (inner watch).expr (Scoping.initial.boundExpr e) Store.globals
        Run.print v) fun _ _ => True := by
      refine .bind (hk.expr hPe hs (.inside hm)) fun w1 v _ hs1 _ => ?_
      let s2 := { w1.store with output := w1.store.output.push (w1.store.display v) }
      have hle2 : w1.Le none (w1.set s2) :=
        World.le_of_frames rfl (Nat.le_refl _) (fun _ _ => rfl) (Nat.le_refl _) fun _ _ => rfl
      exact .step rfl hle2 (hs1.of_same hle2 rfl rfl rfl rfl) trivial
    obtain ⟨w1, r1, ⟨hle1, hs1, hr1, -⟩, hf1, hrun1⟩ :=
      Holds.reported (fun _ => (Scoping.initial.boundExpr e).offset?) (.inl rfl) hprint
    exact ⟨w1, r1, hle1, hs1, hr1, hf1, hrun1⟩

/-- Where an input leads, and what the moments are that it comes to on its way. -/
theorem explained {run : Watch → Run (List Diagnostic)} (h : Accounts P w run) :
    ∃ w' r, (run .quiet w.store = (r, w'.store) ∧ w.Le (some Store.globals) w' ∧ Sound P w' ∧
      Settles P r ∧ Foretold run w.store r) ∧
        ∀ t, Comes run w.store t →
          Explained P w' t ∧ (endsWell r = true → ∀ name, ¬ t.Premature name) := by
  obtain ⟨w', r, hle, hs, hr, hf, hrun⟩ := h
  refine ⟨w', r, ⟨hrun .quiet .quiet, hle, hs, hr, hf⟩, fun t ht =>
    Classical.byContradiction fun hn => ?_⟩
  -- a watch that stops at this moment only lets the explained ones pass
  have hend := (hrun _ (.stopAt hn (.expression ""))).symm.trans (ht (.expression ""))
  rw [(Prod.mk.inj hend).1] at hr
  obtain h | ⟨_, h, _⟩ := hr <;> cases h

end Accounts

/-! ### Places of more programs -/

section

variable {P' : Visit → Prop} (hP : ∀ {v}, P v → P' v)

include hP

theorem Callable.widen {id : FunctionId} {outer : FrameId} (h : Callable P w id outer) :
    Callable P' w id outer := by
  cases h with
  | of hid hv hdecl hkind hinit hm => exact .of hid (hP hv) hdecl hkind hinit hm

theorem Known.widen {v : Value} (h : Known P w v) : Known P' w v := by
  cases v with
  | const _ | native _ | classRef _ | instanceRef _ => trivial
  | function id => exact ⟨h.1.widen hP, h.2⟩
  | method id => exact ⟨h.1, h.2.widen hP⟩

theorem WrittenAt.widen {decl : Fun} (h : WrittenAt P decl) : WrittenAt P' decl := by
  obtain ⟨kind, written, σ, os, hv, hdecl⟩ := h
  exact ⟨kind, written, σ, os, hP hv, hdecl⟩

theorem Sound.widen (h : Sound P w) : Sound P' w where
  toFramed := h.toFramed
  functions closure hclosure := (h.functions closure hclosure).widen hP
  vars f name v hv := (h.vars f name v hv).widen hP
  fields i name v hv := (h.fields i name v hv).widen hP
  methods c name m hm := by
    cases h.methods c name m hm with
    | of hid hv hdecl hname hinit hm => exact .of hid (hP hv) hdecl hname hinit hm

end

/-! ### The start -/

/-- At the start there are the globals and no functions of a program. -/
theorem sound_initial (labels : FrameId → Opener) (clock : Clock) :
    Sound P ⟨labels, Store.initial clock⟩ := by
  have hframe : ∀ f, f ≠ 0 → (Store.initial clock).frame f = default := by
    intro f hf
    have hout : (Store.initial clock).frames.size ≤ f := Nat.one_le_iff_ne_zero.mpr hf
    simp [Store.frame, Array.getD_eq_getD_getElem?, Array.getElem?_eq_none hout]
  refine ⟨⟨Nat.one_pos, rfl, fun f hf hne => ?_⟩, fun closure hclosure => ?_, fun f name v hv => ?_,
    fun i name v hv => ?_, fun c name m hm => ?_⟩
  · exact absurd (Nat.lt_one_iff.mp hf) hne
  · cases Array.not_mem_empty closure hclosure
  · by_cases hf : f = 0
    · subst hf
      have hvars : ((Store.initial clock).frame 0).vars = Bindings.empty.bind "clock" (.native .clock) :=
        rfl
      rw [hvars, Bindings.get?_bind] at hv
      split at hv <;> cases hv
      trivial
    · rw [hframe f hf] at hv
      cases hv
  · cases hv
  · cases hm

/-! ### Sessions -/

/-- The programs that were accepted, as they are written. -/
def writtenPrograms (limits : Limits) (inputs : List Input) : List (List Stmt) :=
  inputs.filterMap fun input => (input.accepted? limits).map (·.written)

theorem stock_written (limits : Limits) (inputs : List Input) :
    Stock (VisitedIn (writtenPrograms limits inputs)) := by
  refine stock_visitedIn fun program hp => ?_
  obtain ⟨input, _, hwritten⟩ := List.mem_filterMap.mp hp
  obtain ⟨a, ha, heq⟩ := Option.map_eq_some_iff.mp hwritten
  rw [← heq]
  exact (accepted_spec ha).1

theorem writtenPrograms_append (limits : Limits) (inputs more : List Input) :
    writtenPrograms limits (inputs ++ more) =
      writtenPrograms limits inputs ++ writtenPrograms limits more :=
  List.filterMap_append ..

theorem VisitedIn.append_left {programs more : List (List Stmt)} {v : Visit}
    (h : VisitedIn programs v) : VisitedIn (programs ++ more) v := by
  obtain ⟨program, hp, hv⟩ := h
  exact ⟨program, List.mem_append_left more hp, hv⟩

namespace Session

/-- An accepted input leads from a sound world to a sound one. -/
theorem feed_accepted {session : Session} {input : Input} {inputs : List Input} {a : Accepted}
    (ha : input.accepted? session.limits = some a) {w : World} (hw : w.store = session.store)
    (hs : Sound (VisitedIn (writtenPrograms session.limits inputs)) w) :
    ∃ w' r, session.feed input =
        (Report.ofResult w'.store.output.toList r, { session with store := w'.store }) ∧
      w.Le (some Store.globals) w' ∧
      Sound (VisitedIn (writtenPrograms session.limits (inputs ++ [input]))) w' ∧
      Settles (VisitedIn (writtenPrograms session.limits (inputs ++ [input]))) r ∧
      (∀ name d, r = .error (.diverged (.unbound name d)) →
        ∃ t, session.Reaches input t ∧ t.Premature name) ∧
      ∀ t, session.Reaches input t →
        Explained (VisitedIn (writtenPrograms session.limits (inputs ++ [input]))) w' t ∧
          (endsWell r = true → ∀ name, ¬ t.Premature name) := by
  have hst := stock_written session.limits (inputs ++ [input])
  have hnew : a.written ∈ writtenPrograms session.limits (inputs ++ [input]) :=
    List.mem_filterMap.mpr ⟨input, by simp, by rw [ha]; rfl⟩
  have hwide : Sound (VisitedIn (writtenPrograms session.limits (inputs ++ [input]))) w := by
    refine hs.widen fun hv => ?_
    rw [writtenPrograms_append]
    exact hv.append_left
  have hle : w.Le none (w.set session.opening) :=
    World.le_of_frames (by rw [hw]; rfl) (by rw [hw]; exact Nat.le_refl _) (fun _ _ => by rw [hw]; rfl)
      (by rw [hw]; exact Nat.le_refl _) fun _ _ => by rw [hw]; rfl
  have hopen := hwide.of_same hle (by rw [hw]; rfl) (by rw [hw]; rfl) (by rw [hw]; rfl) (by rw [hw]; rfl)
  have haccounts := Accounts.code hst
    (keeps_watched hst session.limits.turns session.limits.steps 0) (accepted_spec ha).2
    ⟨a.written, hnew, .program⟩ hopen
  obtain ⟨w', r, ⟨hrun, hle', hs', hr, hf⟩, hmoments⟩ := haccounts.explained
  refine ⟨w', r, ?_, hle.loosen.trans hle', hs', hr, fun name d heq => ?_, fun t ht => ?_⟩
  · obtain ⟨a', ha', hfeed⟩ | ⟨hnone, _⟩ := session.feed_eq input
    · cases ha.symm.trans ha'
      rw [hfeed]
      exact execute_eq hrun
    · cases ha.symm.trans hnone
  · obtain ⟨t, ht, hcomes⟩ := hf name d heq
    exact ⟨t, ⟨a, ha, hcomes⟩, ht⟩
  · obtain ⟨a', ha', hcomes⟩ := ht
    cases ha.symm.trans ha'
    exact hmoments t hcomes

/-- One world explains all that a session comes to. -/
theorem explained (limits : Limits) : ∀ (later earlier : List Input) (session : Session) (w : World),
    session.limits = limits → w.store = session.store →
      Sound (VisitedIn (writtenPrograms limits earlier)) w →
        ∃ w', w'.store = (session.after later).store ∧ w.Le (some Store.globals) w' ∧
          Sound (VisitedIn (writtenPrograms limits (earlier ++ later))) w' ∧
          ∀ between input rest, later = between ++ input :: rest →
            ∀ t, (session.after between).Reaches input t →
              Explained (VisitedIn (writtenPrograms limits (earlier ++ between ++ [input]))) w' t
  | [], earlier, session, w, _, hw, hs => by
    refine ⟨w, hw, .refl _ w, by simpa using hs, fun between input rest heq => ?_⟩
    simp at heq
  | input :: later, earlier, session, w, hlimits, hw, hs => by
    -- the first input leads to a world, and the others on from there
    obtain ⟨w1, hw1, hle1, hs1, hmoments⟩ : ∃ w1 : World, w1.store = (session.feed input).2.store ∧
        w.Le (some Store.globals) w1 ∧
        Sound (VisitedIn (writtenPrograms limits (earlier ++ [input]))) w1 ∧
        ∀ t, session.Reaches input t →
          Explained (VisitedIn (writtenPrograms limits (earlier ++ [input]))) w1 t := by
      subst hlimits
      cases ha : input.accepted? session.limits with
      | some a =>
        obtain ⟨w1, r, hfeed, hle, hs1, _, _, hmoments⟩ := feed_accepted ha hw hs
        exact ⟨w1, by rw [hfeed], hle, hs1, fun t ht => (hmoments t ht).1⟩
      | none =>
        obtain ⟨a, ha', _⟩ | ⟨_, ds, hfeed⟩ := session.feed_eq input
        · cases ha.symm.trans ha'
        · refine ⟨w, by rw [hfeed, hw], .refl _ w, ?_, fun t ht => ?_⟩
          · rw [writtenPrograms_append]
            exact hs.widen fun hv => hv.append_left
          · obtain ⟨a, ha', _⟩ := ht
            cases ha.symm.trans ha'
    obtain ⟨w2, hw2, hle2, hs2, hrest⟩ := explained limits later (earlier ++ [input])
      (session.feed input).2 w1 ((session.feed_limits input).trans hlimits) hw1 hs1
    refine ⟨w2, hw2, hle1.trans hle2, by simpa using hs2, fun between input' rest heq t ht => ?_⟩
    cases between with
    | nil =>
      obtain ⟨rfl, rfl⟩ := List.cons.inj heq
      simpa using (hmoments t ht).mono hle2
    | cons first between =>
      obtain ⟨rfl, hlater⟩ := List.cons.inj heq
      simpa using hrest between input' rest hlater t ht

/-- The session behind some inputs is where a sound world is. -/
theorem sound_after (limits : Limits) (clock : Clock) (inputs : List Input) :
    ∃ w : World, w.store = ((start limits clock).after inputs).store ∧
      Sound (VisitedIn (writtenPrograms limits inputs)) w := by
  obtain ⟨w, hw, _, hs, _⟩ := explained limits inputs [] (start limits clock)
    ⟨fun _ => .block [], Store.initial clock⟩ rfl rfl (sound_initial _ clock)
  exact ⟨w, hw, hs⟩

/-- Every moment of a session is explained. -/
theorem explained_of_reaches {limits : Limits} {clock : Clock} {earlier : List Input} {input : Input}
    {t : Moment} (ht : ((Session.start limits clock).after earlier).Reaches input t) :
    ∃ w, Explained (VisitedIn (writtenPrograms limits (earlier ++ [input]))) w t := by
  obtain ⟨w, _, _, _, hmoments⟩ := explained limits (earlier ++ [input]) [] (Session.start limits clock)
    ⟨fun _ => .block [], Store.initial clock⟩ rfl rfl (sound_initial _ clock)
  exact ⟨w, hmoments earlier input [] rfl t ht⟩

end Session

end Lox
