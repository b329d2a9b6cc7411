/-
# What is reported of lists past their ceiling

A program may have calls with more arguments and functions with more parameters
than pass, and be in order otherwise. Then all its statements are parsed, with
all the elements of their lists, and nothing else is reported than one message
for each element past the ceiling: a list of `n` elements asks for
`n - maxArgs` reports, not for one. The reports are counted in the tree
(`Lox.Stmt.surplus`), production by production.

Key definitions: `Lox.Expr.surplus`, `Lox.Stmt.surplus`, `Lox.Tallies`, `Lox.Lenient.Counted`.
Key theorems: `Lox.Lenient.counted_within`, `Lox.parse_reports_past_ceilings`.
-/
import Lox.Proofs.Grammar.Program

namespace Lox

/-! ### Elements past the ceiling -/

mutual

/-- What the lists of an expression ask for: a message for each argument past the ceiling of a call. -/
def Expr.surplus : Expr → List String
  | .literal _ | .variable _ | .receiver _ | .superMethod .. | .stray _ => []
  | .grouping inner => inner.surplus
  | .unary _ operand => operand.surplus
  | .binary left _ right | .logical left _ right => left.surplus ++ right.surplus
  | .ternary cond yes no => cond.surplus ++ yes.surplus ++ no.surplus
  | .assign _ value => value.surplus
  | .call callee _ args =>
    callee.surplus ++ (List.replicate (args.length - maxArgs) tooManyArguments ++ argSurplus args)
  | .get object _ => object.surplus
  | .set object _ value => object.surplus ++ value.surplus

def argSurplus : List Expr → List String
  | [] => []
  | arg :: args => arg.surplus ++ argSurplus args

end

/-- What an expression asks for that may be absent. -/
@[simp] def optionSurplus : Option Expr → List String
  | none => []
  | some e => e.surplus

mutual

/-- What the lists of a statement ask for: a message for each argument and for each parameter past
the ceiling. -/
def Stmt.surplus : Stmt → List String
  | .expr value | .print value => value.surplus
  | .var _ initial => optionSurplus initial
  | .block body => bodySurplus body
  | .branch cond yes none => cond.surplus ++ yes.surplus
  | .branch cond yes (some no) => cond.surplus ++ yes.surplus ++ no.surplus
  | .loop cond body => cond.surplus ++ body.surplus
  | .function decl => functionSurplus decl
  | .giveBack _ value => optionSurplus value
  | .classDecl _ _ methods => methodSurplus methods
  | .stray _ => []

def bodySurplus : List Stmt → List String
  | [] => []
  | stmt :: body => stmt.surplus ++ bodySurplus body

def functionSurplus : Fun → List String
  | ⟨_, params, body⟩ =>
    List.replicate (params.length - maxArgs) tooManyParameters ++ bodySurplus body

def methodSurplus : List Fun → List String
  | [] => []
  | method :: methods => functionSurplus method ++ methodSurplus methods

end

section Surplus

variable (e : Expr) (s : Stmt)

@[simp] theorem surplus_literal (value : Literal) : (Expr.literal value).surplus = [] := rfl

@[simp] theorem argSurplus_nil : argSurplus [] = [] := rfl

@[simp] theorem argSurplus_cons (args : List Expr) :
    argSurplus (e :: args) = e.surplus ++ argSurplus args := rfl

@[simp] theorem surplus_expr : (Stmt.expr e).surplus = e.surplus := rfl

@[simp] theorem surplus_loop : (Stmt.loop e s).surplus = e.surplus ++ s.surplus := rfl

@[simp] theorem surplus_block (body : List Stmt) : (Stmt.block body).surplus = bodySurplus body := rfl

@[simp] theorem bodySurplus_nil : bodySurplus [] = [] := rfl

@[simp] theorem bodySurplus_cons (body : List Stmt) :
    bodySurplus (s :: body) = s.surplus ++ bodySurplus body := rfl

end Surplus

/-- The reports have these messages, in any order. -/
def Tallies (ds : List Diagnostic) (ms : List String) : Prop :=
  ∀ m, (ds.map Diagnostic.message).count m = ms.count m

theorem tallies_nil : Tallies [] [] := fun _ => rfl

theorem Tallies.append {ds es : List Diagnostic} {ms ns : List String} (h : Tallies ds ms)
    (h' : Tallies es ns) : Tallies (ds ++ es) (ms ++ ns) := by
  intro m
  rw [List.map_append, List.count_append, List.count_append, h m, h' m]

/-- How many of `n` elements are past the ceiling, behind so many others. -/
def pastCount (count n : Nat) : Nat := count + n - maxArgs - (count - maxArgs)

@[simp] theorem pastCount_zero_left (n : Nat) : pastCount 0 n = n - maxArgs := by
  simp [pastCount]

@[simp] theorem pastCount_zero_right (count : Nat) : pastCount count 0 = 0 := by
  simp [pastCount]

namespace Lenient

/-- A list asks for a report of its first element if that is past the ceiling. -/
theorem count_pastCeiling (message m : String) (count n : Nat) (t : Token) (ts : List Token) :
    ((pastCeiling message count (t :: ts)).map Diagnostic.message).count m +
      (List.replicate (pastCount (count + 1) n) message).count m =
      (List.replicate (pastCount count (n + 1)) message).count m := by
  rw [List.count_replicate, List.count_replicate]
  by_cases hcount : maxArgs ≤ count
  · have hpast : pastCount count (n + 1) = pastCount (count + 1) n + 1 := by
      unfold pastCount
      omega
    rw [pastCeiling_of_le hcount, hpast]
    by_cases hm : message = m <;> simp [hm]
    omega
  · have hpast : pastCount count (n + 1) = pastCount (count + 1) n := by
      unfold pastCount
      omega
    rw [pastCeiling_of_lt (Nat.lt_of_not_le hcount), hpast]
    simp

/-- What is reported of the phrases further in is what their trees ask for. -/
structure Counted (g : Lenient) : Prop where
  expr : ∀ {ts ds e}, g.expr ts ds e → Tallies ds e.surplus
  middle : ∀ {ts ds e}, g.middle ts ds e → Tallies ds e.surplus
  value : ∀ {ts ds e}, g.value ts ds e → Tallies ds e.surplus
  ternary : ∀ {ts ds e}, g.ternary ts ds e → Tallies ds e.surplus
  unary : ∀ {ts ds e}, g.unary ts ds e → Tallies ds e.surplus
  statement : ∀ {isOpen ts ds s}, g.statement isOpen ts ds s → Tallies ds s.surplus
  declaration : ∀ {isOpen ts ds s}, g.declaration isOpen ts ds s → Tallies ds s.surplus
  begins : ∀ {ts ds e}, g.expr ts ds e → Phrases.Begins Phrases.beginsExpr ts

variable {g : Lenient} {ts : List Token} {ds : List Diagnostic} {e : Expr} {s : Stmt}

/-! ### Expressions -/

theorem Primary.tallies (hg : g.Counted) (h : g.Primary ts ds e) : Tallies ds e.surplus := by
  cases h with
  | leaf h =>
    cases h with
    | grouping _ h => exact h.elim
    | _ => exact tallies_nil
  | grouping _ h _ =>
    have he := hg.expr h
    exact he

theorem Arguments.tallies (hg : g.Counted) {count : Nat} {args : List Expr}
    (h : g.Arguments count ts ds args) : Tallies ds
      (List.replicate (pastCount count args.length) tooManyArguments ++ argSurplus args) := by
  induction h with
  | @last count ts ds e h =>
    obtain ⟨t, us, rfl, -⟩ := hg.begins h
    intro m
    have hpast := count_pastCeiling tooManyArguments m count 0 t us
    have he := hg.expr h m
    simp only [Nat.zero_add, pastCount_zero_right, List.replicate_zero, List.count_nil] at hpast
    simp only [argSurplus_cons, argSurplus_nil, List.map_append, List.count_append,
      List.length_singleton, List.append_nil]
    omega
  | @more count ts us ds es e args comma h _ _ ih =>
    obtain ⟨t, us, rfl, -⟩ := hg.begins h
    intro m
    have hpast := count_pastCeiling tooManyArguments m count args.length t us
    have he := hg.expr h m
    have hargs := ih m
    simp only [argSurplus_cons, List.map_append, List.count_append, List.length_cons] at hargs ⊢
    omega

theorem ArgumentList.tallies (hg : g.Counted) {args : List Expr} (h : g.ArgumentList ts ds args) :
    Tallies ds (List.replicate (args.length - maxArgs) tooManyArguments ++ argSurplus args) := by
  cases h with
  | none => exact tallies_nil
  | some h => simpa using h.tallies hg

theorem Call.tallies (hg : g.Counted) (h : g.Call ts ds e) : Tallies ds e.surplus := by
  induction h with
  | primary h => exact h.tallies hg
  | call _ _ ha _ ih => exact ih.append (ha.tallies hg)
  | get _ _ _ ih => exact ih

theorem Unary.tallies (hg : g.Counted) (h : g.Unary ts ds e) : Tallies ds e.surplus := by
  cases h with
  | call h => exact h.tallies hg
  | operator _ h =>
    have he := hg.unary h
    exact he

theorem surplus_levels : ∀ level ∈ levels, ∀ l op r,
    (level.node l op r).surplus = l.surplus ++ r.surplus := by
  simp only [levels, List.forall_mem_cons]
  refine ⟨?_, ?_, ?_, ?_, ?_, ?_, by simp⟩ <;> exact fun _ _ _ => rfl

theorem Binary.tallies (hg : g.Counted) {ls : List Level}
    (hl : ∀ level ∈ ls, ∀ l op r, (level.node l op r).surplus = l.surplus ++ r.surplus)
    (h : g.Binary ls ts ds e) : Tallies ds e.surplus := by
  induction h with
  | unary h => exact h.tallies hg
  | operand _ ih => exact ih fun level hm => hl level (List.mem_cons_of_mem _ hm)
  | operator _ _ _ ihl ihr =>
    rw [hl _ List.mem_cons_self]
    exact (ihl hl).append (ihr fun level hm => hl level (List.mem_cons_of_mem _ hm))

theorem Ternary.tallies (hg : g.Counted) (h : g.Ternary ts ds e) : Tallies ds e.surplus := by
  cases h with
  | binary h => exact h.tallies hg surplus_levels
  | choice h _ hy _ hn =>
    exact ((h.tallies hg surplus_levels).append (hg.middle hy)).append (hg.ternary hn)

theorem Assignment.tallies (hg : g.Counted) (h : g.Assignment ts ds e) :
    Tallies ds e.surplus := by
  cases h with
  | ternary h => exact h.tallies hg
  | name _ _ hv =>
    have he := hg.value hv
    exact he
  | property ho _ _ _ hv => exact (ho.tallies hg).append (hg.value hv)

/-! ### Statements -/

theorem OptionalExpr.tallies (hg : g.Counted) {o : Option Expr} (h : g.OptionalExpr ts ds o) :
    Tallies ds (optionSurplus o) := by
  cases h with
  | none => exact tallies_nil
  | some h => exact h.tallies hg

theorem ExprStmt.tallies (hg : g.Counted) (h : g.ExprStmt ts ds s) : Tallies ds s.surplus := by
  cases h with
  | mk h => exact h.tallies hg

theorem VarDecl.tallies (hg : g.Counted) (h : g.VarDecl ts ds s) : Tallies ds s.surplus := by
  cases h with
  | bare => exact tallies_nil
  | initialized _ _ h => exact h.tallies hg

theorem Row.tallies {phrase : Bool → List Token → List Diagnostic → Stmt → Prop}
    (hp : ∀ {isOpen ts ds s}, phrase isOpen ts ds s → Tallies ds s.surplus) {ss : List Stmt}
    (h : Row phrase ts ds ss) : Tallies ds (bodySurplus ss) := by
  induction h with
  | nil => exact tallies_nil
  | cons h _ ih => exact (hp h).append ih

theorem Parameters.tallies {count : Nat} {ms : List Mark} (h : Parameters count ts ds ms) :
    Tallies ds (List.replicate (pastCount count ms.length) tooManyParameters) := by
  induction h with
  | @last count t =>
    intro m
    have hpast := count_pastCeiling tooManyParameters m count 0 t []
    simpa using hpast
  | @more count t comma ts ds ms _ _ _ ih =>
    intro m
    have hpast := count_pastCeiling tooManyParameters m count ms.length t []
    have hms := ih m
    simp only [List.map_append, List.count_append, List.length_cons] at hms ⊢
    omega

theorem ParameterList.tallies {ms : List Mark} (h : ParameterList ts ds ms) :
    Tallies ds (List.replicate (ms.length - maxArgs) tooManyParameters) := by
  cases h with
  | none => exact tallies_nil
  | some h => simpa using h.tallies

theorem Function.tallies (hg : g.Counted) {f : Fun} (h : g.Function ts ds f) :
    Tallies ds (functionSurplus f) := by
  cases h with
  | mk _ _ hps _ _ hb _ => exact hps.tallies.append (hb.tallies hg.declaration)

theorem Methods.tallies (hg : g.Counted) {ms : List Fun} (h : g.Methods ts ds ms) :
    Tallies ds (methodSurplus ms) := by
  induction h with
  | nil => exact tallies_nil
  | cons h _ ih => exact (h.tallies hg).append ih

theorem ClassDecl.tallies (hg : g.Counted) (h : g.ClassDecl ts ds s) : Tallies ds s.surplus := by
  cases h with
  | mk _ _ _ hms => exact hms.tallies hg

theorem ForInitializer.tallies (hg : g.Counted) {o : Option Stmt} (h : g.ForInitializer ts ds o) :
    Tallies ds (bodySurplus o.toList) := by
  cases h with
  | none => exact tallies_nil
  | var _ h => simpa using h.tallies hg
  | expr h => simpa using h.tallies hg

/-- A for-loop asks for what its parts ask for, in another order. -/
theorem count_surplus_forLoop (initializer : Option Stmt) (cond increment : Option Expr)
    (body : Stmt) (m : String) : (forLoop initializer cond increment body).surplus.count m =
      (bodySurplus initializer.toList).count m + (optionSurplus cond).count m +
        (optionSurplus increment).count m + body.surplus.count m := by
  unfold forLoop
  cases initializer <;> cases cond <;> cases increment <;> simp <;> omega

theorem Statement.tallies (hg : g.Counted) {isOpen : Bool} (h : g.Statement isOpen ts ds s) :
    Tallies ds s.surplus := by
  cases h with
  | expr h => exact h.tallies hg
  | print _ h => exact h.tallies hg
  | giveBack _ h => exact h.tallies hg
  | block _ h => exact h.tallies hg.declaration
  | loop _ _ h _ hb => exact (h.tallies hg).append (hg.statement hb)
  | branch _ _ h _ hy => exact (h.tallies hg).append (hg.statement hy)
  | branchElse _ _ h _ hy _ hn =>
    exact ((h.tallies hg).append (hg.statement hy)).append (hg.statement hn)
  | forLoop _ _ hi hc _ hn _ hb =>
    intro m
    have hparts := (((hi.tallies hg).append (hc.tallies hg)).append (hn.tallies hg)).append
      (hg.statement hb) m
    rw [hparts, count_surplus_forLoop]
    simp only [List.count_append]

theorem Declaration.tallies (hg : g.Counted) {isOpen : Bool} (h : g.Declaration isOpen ts ds s) :
    Tallies ds s.surplus := by
  cases h with
  | classDecl _ h => exact h.tallies hg
  | function _ h => exact h.tallies hg
  | var _ h => exact h.tallies hg
  | statement h => exact h.tallies hg

theorem counted_within : ∀ steps spent, (within steps spent).Counted
  | 0, _ => by
    rw [within]
    exact ⟨by rintro _ _ _ ⟨⟩, by rintro _ _ _ ⟨⟩, by rintro _ _ _ ⟨⟩, by rintro _ _ _ ⟨⟩,
      by rintro _ _ _ ⟨⟩, by rintro _ _ _ _ ⟨⟩, by rintro _ _ _ _ ⟨⟩, by rintro _ _ _ ⟨⟩⟩
  | steps + 1, spent + 1 => by
    rw [within]
    exact counted_within steps spent
  | steps + 1, 0 => by
    rw [within]
    have h (spent : Nat) := counted_within steps spent
    exact ⟨Assignment.tallies (h _), Assignment.tallies (h _), Assignment.tallies (h _),
      Ternary.tallies (h _), Unary.tallies (h _), Statement.tallies (h _),
      Declaration.tallies (h _), Assignment.begins⟩

end Lenient

/-! ### Calls with many arguments -/

/-- The argument `nil` of a call, with so many before it. -/
def nilAt (i : Nat) : Token := ⟨.kwNil, "nil", .nil, 2 + 4 * i⟩

/-- The comma behind it. -/
def commaAt (i : Nat) : Token := ⟨.comma, ",", .nil, 5 + 4 * i⟩

/-- Arguments that are each `nil`: the one with so many before it, and so many more. -/
def nils (i : Nat) : Nat → List Token
  | 0 => [nilAt i]
  | n + 1 => nilAt i :: commaAt i :: nils (i + 1) n

/-- The reports of so many arguments from the one with so many before it. -/
def nilReports (i n : Nat) : List Diagnostic :=
  ((List.range' i n).filter (maxArgs ≤ ·)).map fun j => ⟨.grammar, 2 + 4 * (j : Nat), tooManyArguments⟩

/-- The text `f(nil,…,nil);` with one argument and so many more. -/
def nilCall (n : Nat) : List Token :=
  [⟨.identifier, "f", .nil, 0⟩] ++ ⟨.leftParen, "(", .nil, 1⟩ :: nils 0 n ++
    [⟨.rightParen, ")", .nil, 5 + 4 * n⟩] ++ [⟨.semicolon, ";", .nil, 6 + 4 * n⟩]

/-- The tree of that text. -/
def nilCallTree (n : Nat) : Stmt :=
  .expr (.call (.variable (.free ⟨.identifier, "f", some 0⟩)) ⟨.rightParen, ")", some (5 + 4 * n)⟩
    (List.replicate (n + 1) (.literal .nil)))

namespace Lenient

theorem nilReports_succ (i n : Nat) : nilReports i (n + 1) =
    pastCeiling tooManyArguments i [nilAt i] ++ nilReports (i + 1) n := by
  unfold nilReports
  rw [List.range'_succ, List.filter_cons]
  by_cases hi : maxArgs ≤ i
  · rw [pastCeiling_of_le hi]
    simp [hi, nilAt]
  · rw [pastCeiling_of_lt (Nat.lt_of_not_le hi)]
    simp [hi]

theorem arguments_nils {g : Lenient}
    (hg : ∀ t, t.kind = .kwNil → g.expr [t] [] (.literal .nil)) : ∀ n i,
      g.Arguments i (nils i n) (nilReports i (n + 1)) (List.replicate (n + 1) (.literal .nil))
  | 0, i => by
    rw [nilReports_succ]
    exact .last (hg _ rfl)
  | n + 1, i => by
    rw [nilReports_succ]
    have hcomma : (commaAt i).kind = .comma := rfl
    simpa [nils, List.replicate_succ] using
      Arguments.more (hg (nilAt i) rfl) hcomma (arguments_nils hg n (i + 1))

theorem program_nilCall (steps n : Nat) :
    (within (steps + 1) 0).Program (nilCall n) (nilReports 0 (n + 1)) [nilCallTree n] := by
  have hnil (t : Token) (ht : t.kind = .kwNil) :
      (within (steps + 1) 0).expr [t] [] (.literal .nil) :=
    .ternary (.binary (.ofCall (.primary (.leaf (.nil ht))) _))
  have hcall : (within (steps + 1) 0).Call ([⟨.identifier, "f", .nil, 0⟩] ++
      ⟨.leftParen, "(", .nil, 1⟩ :: nils 0 n ++ [⟨.rightParen, ")", .nil, 5 + 4 * n⟩])
      ([] ++ nilReports 0 (n + 1)) (.call (.variable (.free ⟨.identifier, "f", some 0⟩))
        ⟨.rightParen, ")", some (5 + 4 * n)⟩ (List.replicate (n + 1) (.literal .nil))) :=
    .call (.primary (.leaf (.name rfl))) rfl (.some (arguments_nils hnil n 0)) rfl
  have hsentence : (within (steps + 1) 0).Statement false (nilCall n) (nilReports 0 (n + 1))
      (nilCallTree n) :=
    .expr (.mk (.ternary (.binary (.ofCall hcall _))) rfl)
  simpa [Program] using Row.cons (.statement hsentence) .nil

end Lenient

/-! ### Whole texts -/

/-- A text that is in order but for its lists past the ceiling parses to all its statements. What is
reported is one message for each element past the ceiling, at its first token. -/
theorem parse_reports_past_ceilings {limits : Limits} {ts : List Token} {ds : List Diagnostic}
    {ss : List Stmt} {e : Token} (he : e.kind = .eof)
    (h : (Lenient.within limits.steps 0).Program ts ds ss) :
    parse limits (ts ++ [e]) = ⟨ss, ds⟩ ∧ (ds.map Diagnostic.message).Perm (bodySurplus ss) :=
  ⟨parse_of_lenient he h, List.perm_iff_count.mpr
    (h.tallies (Lenient.Declaration.tallies (Lenient.counted_within _ _)))⟩

/-- A call with 257 arguments is reported twice: at the 256th and at the last. -/
theorem parse_reports_nilCall : parse .usual (nilCall 256 ++ [.eof 1031]) =
      ⟨[nilCallTree 256], [⟨.grammar, 1022, tooManyArguments⟩, ⟨.grammar, 1026, tooManyArguments⟩]⟩ ∧
    bodySurplus [nilCallTree 256] = [tooManyArguments, tooManyArguments] := by
  have hreports : nilReports 0 257 =
      [⟨.grammar, 1022, tooManyArguments⟩, ⟨.grammar, 1026, tooManyArguments⟩] := by decide +kernel
  have hprogram : (Lenient.within Limits.usual.steps 0).Program (nilCall 256) (nilReports 0 257)
      [nilCallTree 256] := Lenient.program_nilCall 5999 256
  have h := parse_reports_past_ceilings (show (Token.eof 1031).kind = .eof from rfl) hprogram
  rw [hreports] at h
  exact ⟨h.1, List.perm_replicate.mp (show List.Perm _ (List.replicate 2 _) from h.2.symm)⟩

end Lox
