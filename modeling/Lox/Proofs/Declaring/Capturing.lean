/-
# A later declaration captures nothing

In the text of an accepted program a name is declared in a local scope that
does not declare it, at a place behind which no use of it in the scope is bound
further out. Functions that stand before the place may say the name; their uses
are bound already when the declaration comes, and stay so. The text is a
program that is accepted again, each use has the record that it had, and running
either program in a session reports and prints the same
(`Lox.later_declaration_captures_nothing`).

The declaration may be the only statement of its scope. Then it is a step deeper
than what was there, and the limit on nesting may be met at it, before the
program runs (`Lox.Report.TooDeep`) or while it does.

Key definitions: `Lox.Report.TooDeep`, `Lox.Declarable`.
Key theorems: `Lox.Session.tooDeep_of_not_fits`, `Lox.Declarable.accepts_withDeclaration`,
`Lox.later_declaration_captures_nothing`.
-/
import Lox.Proofs.Binding.Misuses
import Lox.Proofs.Declaring.Slots
import Lox.Proofs.Declaring.Unseen
import Lox.Proofs.Scanner.Cutting

namespace Lox

open Phrases Respelling

/-! ### Programs that are too deep -/

theorem Scoping.meets_restart (offset : Int) (σ : Scoping) : Meets .outermost (σ.restart offset) where
  function := rfl
  cls := rfl
  unready name := ⟨fun hunready => by simp [Scoping.unready, restart, initial] at hunready,
    fun hsome => (by cases hsome)⟩
  globals _ := rfl
  locals _ hsome := by cases hsome
  idle := rfl
  settled := rfl

/-- What is reported of a statement that is too deep stays reported. -/
theorem tooDeep_stays {steps : Nat} : ∀ {stmts : List Stmt} (σ : Scoping),
    bodyFits stmts steps = false →
      ∃ e ∈ ((resolveTops steps stmts).run σ).2.errors.toList, e.misuse = .tooDeep
  | [], _, h => nomatch h
  | s :: stmts, σ, h => by
    rw [run_resolveTops_cons]
    by_cases hrest : bodyFits stmts steps = true
    · have hs : s.fits steps ≠ true := by
        intro hs
        rw [bodyFits, hs, hrest] at h
        cases h
      rw [run_resolveTop_of_not_fits hs, run_resolveTops_of_fits _ hrest]
      have hnoted := Scoping.noted_behindBody stmts (Scoping.meets_restart (s.offset?.getD 0)
        ((resolveStmt (some steps) s).run σ).2)
      refine ⟨⟨.tooDeep, some (s.offset?.getD 0)⟩, ?_, rfl⟩
      rw [hnoted.errors, Scoping.defineAll_errors]
      simp [Scoping.restart]
    · exact tooDeep_stays _ (Bool.eq_false_iff.mpr hrest)

/-- The program has come to the limit on nesting before it ran. -/
def Report.TooDeep (r : Report) : Prop :=
  (Phase.static, tooDeepMessage) ∈ r.diagnostics.map Diagnostic.saying

theorem Session.tooDeep_of_not_fits (session : Session) {source : String}
    (hs : (scan source).diagnostics = [])
    (hp : (parse session.limits (scan source).tokens).diagnostics = [])
    (h : bodyFits (parse session.limits (scan source).tokens).stmts session.limits.steps = false) :
    (session.run source).1.TooDeep := by
  obtain ⟨e, he, hdeep⟩ := tooDeep_stays .initial h
  have hmem : e.diagnostic ∈
      (resolve session.limits (parse session.limits (scan source).tokens).stmts).diagnostics :=
    List.mem_map_of_mem he
  unfold run
  dsimp only
  rw [hs, hp]
  dsimp only [List.nil_append]
  split
  · rename_i hnone
    rw [hnone] at hmem
    cases hmem
  · refine List.mem_map.mpr ⟨e.diagnostic, hmem, ?_⟩
    show (Phase.static, e.misuse.message) = _
    rw [hdeep]
    rfl

/-! ### The text with the declaration -/

/-- In the text of an accepted program, at this place among the statements of the scope of `o`, the name
may be declared: the scope does not declare it, and behind the place no use of it in the scope is bound
further out, or by no scope at all. -/
structure Declarable (limits : Limits) (source name : String) (o : Opener) (behind : List Stmt)
    (before : List Token) (next : Token) (rest : List Token) : Prop where
  accepts : Accepts limits source
  named : IsName name
  tokens : (scan source).tokens.dropLast = before ++ next :: rest
  slot : Slot limits o behind before (next :: rest) (parse limits (scan source).tokens).stmts
  undeclared : name ∉ o.names
  unseen : ∀ σ os, Visited (parse limits (scan source).tokens).stmts ⟨.body behind, σ, o :: os⟩ →
    ∀ u ∈ (bodyReaching (σ.boundBody behind)).filterMap Occurrence.outside?, u.use.name.text ≠ name

/-- The mark of the name in its declaration. -/
def declarationMark (name : String) : Mark := ⟨.identifier, name, some (-1)⟩

theorem declares_declarationTokens (name : String) :
    Declares (declarationMark name) (declarationTokens name) :=
  @Declares.mk ⟨.kwVar, "var", .nil, -2⟩ ⟨.identifier, name, .nil, -1⟩ ⟨.semicolon, ";", .nil, -3⟩
    rfl rfl rfl

/-- Tokens that say the same make the same trees and reports, but for offsets. -/
theorem parse_of_words (limits : Limits) {ts us : List Token} (a b : Int)
    (h : ts.map Token.word = us.map Token.word) :
    (parse limits (ts ++ [.eof a])).respell unplaced = (parse limits (us ++ [.eof b])).respell unplaced := by
  have htokens : (ts ++ [Token.eof a]).map (Token.respell unplaced) =
      (us ++ [Token.eof b]).map (Token.respell unplaced) :=
    unplaced_of_words (by rw [List.map_append, List.map_append, h]; rfl)
  have hparse : parse limits ((ts ++ [Token.eof a]).map (Token.respell unplaced)) =
      (parse limits (ts ++ [.eof a])).respell unplaced := parse_respell limits rfl
  rw [htokens] at hparse
  exact hparse.symm.trans (parse_respell limits rfl)

namespace Declarable

variable {limits : Limits} {source name : String} {o : Opener} {behind : List Stmt}
  {before rest : List Token} {next : Token}

theorem scans (h : Declarable limits source name o behind before next rest) :
    Scans 0 source.toList (before ++ next :: rest) := by
  obtain ⟨ts, hts⟩ := scans_of_scan h.accepts.scans
  have htokens := h.tokens
  rw [scan_of_scans hts, List.dropLast_concat] at htokens
  rwa [htokens] at hts

/-- The tree that has the declaration. -/
theorem unseen_grown (h : Declarable limits source name o behind before next rest) {stmts' : List Stmt}
    (hgrown : Grown (declarationMark name) o behind (.body (parse limits (scan source).tokens).stmts)
      (.body stmts')) :
    Unseen (declarationMark name) o behind (parse limits (scan source).tokens).stmts stmts' where
  clean := clean_of_resolve (regular_of_parse h.accepts.parses) h.accepts.binds
  spared := by
    refine ⟨h.undeclared, ?_⟩
    rintro σ os ⟨program, hp, hv⟩
    obtain rfl := List.mem_singleton.mp hp
    exact .of_outside (h.unseen σ os hv)
  grown := hgrown
  apart m hm heq := by
    obtain ⟨t, ht, rfl⟩ := mem_tokens_of_parse h.accepts.parses hm
    rw [h.tokens] at ht
    have hle := h.scans.increasing.1 t ht
    have hoffset : t.offset = -1 := Option.some.inj heq
    omega
  alone new := by
    have hkept : ∀ t : Token, 0 ≤ t.offset →
        t.respell (.replacing new [declarationMark name]) = t := by
      intro t ht
      have hne : t.offset ≠ -1 := by omega
      simp [Token.respell, Respelling.text_replacing, declarationMark, hne]
      rfl
    have htokens : (scan source).tokens.map (Token.respell (.replacing new [declarationMark name])) =
        (scan source).tokens := by
      rw [scan_of_scans h.scans]
      refine (List.map_congr_left fun t ht => hkept t ?_).trans (List.map_id _)
      obtain ht | ht := List.mem_append.mp ht
      · exact h.scans.increasing.1 t ht
      · obtain rfl := List.mem_singleton.mp ht
        exact Int.natCast_nonneg _
    obtain ⟨ts, e, hts, he, -⟩ := spelled_scan source
    have hparse : parse limits ((ts ++ [e]).map (Token.respell (.replacing new [declarationMark name]))) =
        (parse limits (ts ++ [e])).respell (.replacing new [declarationMark name]) := parse_respell limits he
    rw [← hts, htokens] at hparse
    exact (congrArg Parsed.stmts hparse).symm
  named := h.named

/-- The text with the declaration is a program again, unless it is too deep, and then the scope was empty.
What is recorded of its names is what was, with the declaration besides. -/
theorem accepts_withDeclaration (h : Declarable limits source name o behind before next rest) :
    let other := withDeclaration source next.offset.toNat name
    let stmts := (parse limits (scan source).tokens).stmts
    (scan other).diagnostics = [] ∧ (parse limits (scan other).tokens).diagnostics = [] ∧
      ((o.body = [] ∧ bodyFits (parse limits (scan other).tokens).stmts limits.steps = false) ∨
        ∃ stmts', Unseen (declarationMark name) o behind stmts stmts' ∧ Accepts limits other ∧
          bodyRespell unplaced (Scoping.initial.boundBody stmts') =
            bodyRespell unplaced (resolve limits (parse limits (scan other).tokens).stmts).stmts) := by
  intro other stmts
  obtain ⟨stmts', hprogram, hgrown⟩ := h.slot.grown (declares_declarationTokens name)
  have hunseen := h.unseen_grown hgrown
  obtain ⟨ts, e, hscan, hwords⟩ := h.scans.scan_withDeclaration h.named
  have hparse := parse_of_words limits e 0 hwords
  rw [parse_of_program (e := .eof 0) rfl hprogram] at hparse
  have hscan : scan other = ⟨ts ++ [.eof e], []⟩ := hscan
  have htokens : (scan other).tokens = ts ++ [.eof e] := by rw [hscan]
  rw [← htokens] at hparse
  have hscans : (scan other).diagnostics = [] := by rw [hscan]
  have hstmts : bodyRespell unplaced (parse limits (scan other).tokens).stmts =
      bodyRespell unplaced stmts' := congrArg Parsed.stmts hparse
  have hparses : (parse limits (scan other).tokens).diagnostics = [] :=
    List.map_eq_nil_iff.mp (congrArg Parsed.diagnostics hparse)
  refine ⟨hscans, hparses, ?_⟩
  obtain ⟨hbound, hsayings⟩ := resolve_alike limits hstmts
  obtain ⟨hfits, -, hsilent⟩ := resolve_of_silent h.accepts.binds
  by_cases hfits' : bodyFits stmts' limits.steps = true
  · have hbehind : Scoping.initial.behindBody stmts' = Scoping.initial.behindBody stmts :=
      hunseen.bindsAlike.behind
    obtain ⟨hnone, hbound'⟩ := resolve_of_fits hfits' (hbehind ▸ hsilent)
    have hbinds : (resolve limits (parse limits (scan other).tokens).stmts).diagnostics = [] := by
      rw [hnone] at hsayings
      exact List.map_eq_nil_iff.mp hsayings
    exact .inr ⟨stmts', hunseen, ⟨hscans, hparses, hbinds⟩, by rw [hbound, hbound']⟩
  · refine .inl ⟨?_, ?_⟩
    · by_contra hne
      exact hfits' (hgrown.fits hfits fun hempty => absurd hempty hne)
    · rw [← bodyFits_respell, hstmts, bodyFits_respell]
      exact Bool.eq_false_iff.mpr hfits'

end Declarable

/-- Programs of which the second has the trees of a declaration that is never seen. -/
theorem Session.run_agrees_of_unseen {limits : Limits} {source other : String} {d : Mark} {o : Opener}
    {behind stmts' : List Stmt}
    (h : Unseen d o behind (parse limits (scan source).tokens).stmts stmts')
    (hsource : Accepts limits source) (hother : Accepts limits other)
    (hbound : bodyRespell unplaced (Scoping.initial.boundBody stmts') =
      bodyRespell unplaced (resolve limits (parse limits (scan other).tokens).stmts).stmts)
    (clock : Clock) (inputs : List Input) :
    let session := (Session.start limits clock).after inputs
    (o.body = [] ∧ (session.run other).1.RunsOut) ∨
      (session.run source).1.Agrees (session.run other).1 := by
  intro session
  have hlimits : session.limits = limits := Session.after_limits inputs _
  have hsource' : Accepts session.limits source := by rwa [hlimits]
  have hother' : Accepts session.limits other := by rwa [hlimits]
  have halike := (Session.interpret_alike (.refl session) limits hbound).1
  rw [session.run_of_accepts hsource', session.run_of_accepts hother', hlimits,
    (resolve_of_silent hsource.binds).2.1]
  exact (h.run_agrees limits clock inputs).imp (fun ⟨hempty, hout⟩ => ⟨hempty, halike.runsOut hout⟩)
    fun hagrees => hagrees.trans_alike halike

/-- **A later declaration captures nothing.** In a local scope of an accepted program that does not
declare a name, declare it at a place behind which no use of the name in the scope is bound further out.
Functions before the place may say the name, and be called behind it. The program is accepted again, its
nodes have the records that they had, and to run it in a session is to run the program: both report and
print the same. Only where the scope was empty, so that the declaration is a step deeper than what was
there, the program may be too deep, or run out of steps. -/
theorem later_declaration_captures_nothing {limits : Limits} {source name : String} {o : Opener}
    {behind : List Stmt} {before rest : List Token} {next : Token}
    (h : Declarable limits source name o behind before next rest) (clock : Clock) (inputs : List Input) :
    let other := withDeclaration source next.offset.toNat name
    let bound := (resolve limits (parse limits (scan source).tokens).stmts).stmts
    let bound' := (resolve limits (parse limits (scan other).tokens).stmts).stmts
    let session := (Session.start limits clock).after inputs
    (o.body = [] → ¬ (session.run other).1.TooDeep) →
      Accepts limits other ∧
        (∃ o₁ behind₁ grown, Grown (declarationMark name) o₁ behind₁ (.body bound) (.body grown) ∧
          bodyRespell unplaced grown = bodyRespell unplaced bound') ∧
        ((o.body = [] → ¬ (session.run other).1.RunsOut) →
          (session.run source).1.Agrees (session.run other).1) := by
  intro other bound bound' session hfits
  have hlimits : session.limits = limits := Session.after_limits inputs _
  obtain ⟨hscans, hparses, ⟨hempty, hdeep⟩ | ⟨stmts', hunseen, haccepts, hbound⟩⟩ :=
    h.accepts_withDeclaration
  · refine absurd (session.tooDeep_of_not_fits hscans ?_ ?_) (hfits hempty)
    · rwa [hlimits]
    · rwa [hlimits]
  · refine ⟨haccepts, ?_, fun hout => ?_⟩
    · obtain ⟨o₁, behind₁, hgrown, -⟩ := hunseen.bindsAlike.grown
      refine ⟨o₁, behind₁, _, ?_, hbound⟩
      show Grown _ o₁ behind₁ (.body (resolve limits _).stmts) _
      rw [(resolve_of_silent h.accepts.binds).2.1]
      exact hgrown
    · have hrun := Session.run_agrees_of_unseen hunseen h.accepts haccepts hbound clock inputs
      exact hrun.resolve_left fun ⟨hempty, hrunsOut⟩ => hout hempty hrunsOut

/-! ### A function and a call of it -/

/-- A block that is a program, and a place between two of its statements. -/
theorem Slot.of_block {limits : Limits} {opening closing : Token} {ts ts' : List Token}
    {body behind : List Stmt} (hopening : opening.kind = .leftBrace)
    (hclosing : closing.kind = .rightBrace) (hroom : (Phrases.within limits.steps 0).Roomy)
    (hts : Row (Phrases.within limits.steps 0).declaration ts body)
    (hts' : Row (Phrases.within limits.steps 0).declaration ts' behind) :
    Program (Phrases.within limits.steps 0) (opening :: ts ++ (ts' ++ [closing])) [.block (body ++ behind)] ∧
      Slot limits (.block (body ++ behind)) behind (opening :: ts) (ts' ++ [closing])
        [.block (body ++ behind)] := by
  have hblock : Declaration (Phrases.within limits.steps 0) false (opening :: (ts ++ ts') ++ [closing]) _ :=
    .statement (.block hopening (hts.append hts') hclosing)
  have hplace : Slots.InDeclaration (.block (body ++ behind)) behind (Phrases.within limits.steps 0)
      (Slots.within (.block (body ++ behind)) behind limits.steps 0) false (opening :: ts)
        (ts' ++ [closing]) _ :=
    .statement (.block hopening (.here hts hts' hroom rfl) hclosing)
  have hnothing : Row (Declaration (Phrases.within limits.steps 0)) [] [] := .nil
  constructor
  · have hrow := Row.cons hblock .nil
    rw [List.append_nil, List.cons_append, List.append_assoc] at hrow
    exact hrow
  · have hslot := Slots.InRow.mk hnothing hplace hnothing
    rwa [List.append_nil] at hslot

/-- A function that reads a global variable, and a place before a call of it. -/
theorem declarable_before_call : ∃ o behind before next rest,
    Declarable ⟨60, 5⟩ "\x7bfun f()\x7bprint a;\x7df();\x7d" "a" o behind before next rest ∧
      next.offset = 18 ∧ o.body ≠ [] := by
  let word (kind : TokenKind) (text : String) (offset : Int) : Token := ⟨kind, text, .nil, offset⟩
  let opening := word .leftBrace "\x7b" 0
  let ts := [word .kwFun "fun" 1, word .identifier "f" 5, word .leftParen "(" 6, word .rightParen ")" 7,
    word .leftBrace "\x7b" 8, word .kwPrint "print" 9, word .identifier "a" 15, word .semicolon ";" 16,
    word .rightBrace "\x7d" 17]
  let next := word .identifier "f" 18
  let ts' := [word .leftParen "(" 19, word .rightParen ")" 20, word .semicolon ";" 21]
  let closing := word .rightBrace "\x7d" 22
  let body := (parse ⟨57, 5⟩ (ts ++ [.eof 0])).stmts
  let behind := (parse ⟨57, 5⟩ (next :: ts' ++ [.eof 0])).stmts
  have hrow : ∀ us : List Token, (∀ t ∈ us, t.kind ≠ .eof) →
      (parse ⟨57, 5⟩ (us ++ [.eof 0])).diagnostics = [] →
        Row (Phrases.within 60 0).declaration us (parse ⟨57, 5⟩ (us ++ [.eof 0])).stmts :=
    fun us hus h => program_of_parse hus rfl h
  have hroom : (Phrases.within 60 0).Roomy :=
    ⟨false, _, _, (declares_declarationTokens "a").declaration (Phrases.within 57 0)⟩
  obtain ⟨hprogram, hslot⟩ := @Slot.of_block ⟨60, 5⟩ opening closing ts (next :: ts') body behind rfl rfl
    hroom (hrow ts (by decide +kernel) (by decide +kernel)) (hrow _ (by decide +kernel) (by decide +kernel))
  have htokens : (scan "\x7bfun f()\x7bprint a;\x7df();\x7d").tokens =
      opening :: ts ++ (next :: ts' ++ [closing]) ++ [.eof 23] := by decide +kernel
  have hnames : "a" ∉ (Opener.block (body ++ behind)).names := by decide +kernel
  have hbehind : behind =
      [.expr (.call (.variable (.free ⟨.identifier, "f", some 18⟩)) ⟨.rightParen, ")", some 20⟩ [])] := by
    unfold behind next ts' word
    cbv
  clear_value body behind
  have haccepts : Accepts ⟨60, 5⟩ "\x7bfun f()\x7bprint a;\x7df();\x7d" :=
    ⟨by decide +kernel, by decide +kernel, by decide +kernel⟩
  have hname : IsName "a" := by decide +kernel
  refine ⟨.block (body ++ behind), behind, opening :: ts, next, ts' ++ [closing], ?_, rfl, ?_⟩
  · refine ⟨haccepts, hname, ?_, ?_, hnames, ?_⟩
    · rw [htokens]
      rfl
    · rw [htokens, parse_of_program rfl hprogram]
      exact hslot
    · subst hbehind
      intro σ os _ u hu ha
      obtain ⟨v, hv, hout⟩ := List.mem_filterMap.mp hu
      have huse : v ∈ (σ.boundExpr (.variable (.free ⟨.identifier, "f", some 18⟩))).occurrences ++ [] ++ [] :=
        hv
      rw [Scoping.boundExpr_variable, List.append_nil, List.append_nil] at huse
      obtain rfl := List.mem_singleton.mp huse
      rw [Occurrence.name_of_outside? hout] at ha
      have hne : "f" ≠ "a" := by decide
      exact hne ha
  · intro hempty
    cases hbehind.symm.trans (List.append_eq_nil_iff.mp hempty).2

/-- Another declaration between the function and the call. -/
theorem later_declaration_before_call :
    let limits : Limits := ⟨60, 5⟩
    let other := "\x7bfun f()\x7bprint a;\x7d\nvar a;\nf();\x7d"
    let session := (Session.start limits (.still ⟨0⟩)).after [.program "var a=true;"]
    withDeclaration "\x7bfun f()\x7bprint a;\x7df();\x7d" 18 "a" = other ∧ Accepts limits other ∧
      (session.run other).1.output = ["true"] := by
  intro limits other session
  obtain ⟨o, behind, before, next, rest, h, hplace, hbody⟩ := declarable_before_call
  have htext : withDeclaration "\x7bfun f()\x7bprint a;\x7df();\x7d" 18 "a" = other := by decide +kernel
  obtain ⟨haccepts, -, hagrees⟩ :=
    later_declaration_captures_nothing h (.still ⟨0⟩) [.program "var a=true;"] (absurd · hbody)
  have hsame := hagrees (absurd · hbody)
  have hother : withDeclaration _ (Int.toNat 18) "a" = other := htext
  rw [hplace, hother] at haccepts hsame
  exact ⟨htext, haccepts, hsame.output.symm.trans (by decide +kernel)⟩

end Lox
