/-
# What escapes from a session

Behind the gates a run ends without a report, or with one of running. Only one
fault escapes that is not for want of turns: a local variable is assigned in
its own initializer, where the pass of names records it in the innermost scope
while the frame does not bind it yet. A read is reported there; an assignment
is not.

Key theorems: `Lox.escapes_iff_assigned_early`.
-/
import Lox.Proofs.Running.History

namespace Lox

open Procedure

/-- **What escapes from a session.** An accepted input runs, and is reported at most once, at the phase
of running. A fault escapes instead only if a loop takes too many turns, or if the run comes to an
assignment of a local variable that is not bound yet, in its own initializer. If the run comes to such
an assignment, it does not end well: what the value ends with is reported or escapes, or the
assignment fails. -/
theorem escapes_iff_assigned_early (limits : Limits) (clock : Clock) (inputs : List Input)
    (input : Input) (a : Accepted) (ha : input.accepted? limits = some a) :
    let session := (Session.start limits clock).after inputs
    let report := (session.feed input).1
    report.executed = true ∧
    (report.diagnostics = [] ∨
      report.escaped = none ∧ ∃ d, report.diagnostics = [d] ∧ d.phase = .runtime) ∧
    (∀ fault, report.escaped = some fault → fault = .exhausted ∨ ∃ name,
      fault = .diverged (.unbound name 0) ∧
      AssignsItself (VisitedIn (writtenPrograms limits (inputs ++ [input]))) name ∧
      ∃ t, session.Reaches input t ∧ t.Premature name) ∧
    ((∃ d, report.escaped = some (.diverged d)) ↔
      (∃ t name, session.Reaches input t ∧ t.Premature name) ∧ report.diagnostics = [] ∧
        report.escaped ≠ some .exhausted) := by
  intro session report
  have hlimits : session.limits = limits := Session.after_limits inputs _
  obtain ⟨w, hw, hs⟩ := Session.sound_after limits clock inputs
  rw [← hlimits] at ha hs ⊢
  obtain ⟨w', r, hfeed, _, _, hr, hforetold, hmoments⟩ := session.feed_accepted ha hw hs
  have hreport : report = .ofResult w'.store.output.toList r := congrArg Prod.fst hfeed
  rw [hreport]
  cases r with
  | ok ds =>
    refine ⟨rfl, ?_, (fun _ h => nomatch h), (fun ⟨_, h⟩ => nomatch h), ?_⟩
    · obtain rfl | hd := hr
      · exact .inl rfl
      · exact .inr ⟨rfl, hd⟩
    · rintro ⟨⟨t, name, ht, hname⟩, hds, _⟩
      obtain rfl : ds = [] := hds
      exact absurd hname ((hmoments t ht).2 rfl name)
  | error fault =>
    refine ⟨rfl, .inl rfl, fun fault' heq => ?_, fun ⟨d, heq⟩ => ?_, fun ⟨_, _, hexhausted⟩ => ?_⟩
    · cases heq
      obtain rfl | ⟨name, rfl, hself⟩ := hr
      · exact .inl rfl
      · exact .inr ⟨name, rfl, hself, hforetold name 0 rfl⟩
    · cases heq
      obtain h | ⟨name, h, _⟩ := hr
      · cases h
      · cases h
        obtain ⟨t, ht⟩ := hforetold name 0 rfl
        exact ⟨⟨t, name, ht⟩, rfl, fun h => nomatch h⟩
    · obtain rfl | ⟨name, rfl, _⟩ := hr
      · exact absurd rfl hexhausted
      · exact ⟨_, rfl⟩

/-- A local variable that is assigned in its own initializer. -/
theorem escapes_of_own_initializer :
    let input : Input := .program "{ var a = a = nil; }"
    let session := Session.start ⟨40, 5⟩ (.still ⟨0⟩)
    (session.feed input).1.escaped = some (.diverged (.unbound "a" 0)) ∧
      ∃ t, session.Reaches input t ∧ t.Premature "a" := by
  intro input session
  have hescaped : (session.feed input).1.escaped = some (.diverged (.unbound "a" 0)) := rfl
  obtain ⟨_, _, hfaults, _⟩ := escapes_iff_assigned_early ⟨40, 5⟩ (.still ⟨0⟩) [] input _ rfl
  obtain h | ⟨name, h, _, ht⟩ := hfaults _ hescaped
  · cases h
  · cases h
    exact ⟨hescaped, ht⟩

end Lox
