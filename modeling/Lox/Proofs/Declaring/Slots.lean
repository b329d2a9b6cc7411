/-
# Places for a declaration in a text

Where a declaration may be put among the statements of a scope: behind the
brace that opens a block or the body of a function, before the one that closes
it, or between two of its statements. A place in a phrase is told by the
tokens before it and those behind it. Such places are given over the places
further in (`Lox.Slots`), as the productions are, so that they are counted off
step by step like these.

With the tokens of a declaration at its place the phrase is one again, and its
tree has that declaration more. That takes the steps for one: in an empty scope
this has to be said.

Key definitions: `Lox.Slots`, `Lox.Slots.InBraces`, `Lox.Slots.InStatement`,
`Lox.Slots.InDeclaration`, `Lox.Slots.within`, `Lox.Slot`.
Key theorems: `Lox.Slots.fills_within`, `Lox.Slot.grown`.
-/
import Lox.Proofs.Declaring.Insertion
import Lox.Proofs.Grammar.Nesting
import Lox.Proofs.Spelling.Joining

namespace Lox

open Phrases

/-- Places further in: the tokens before it and behind it, and the tree of both together. A
statement or declaration has the flag of its phrase. -/
structure Slots where
  statement : Bool → List Token → List Token → Stmt → Prop
  declaration : Bool → List Token → List Token → Stmt → Prop

/-- There are steps for a declaration further in. -/
def Phrases.Roomy (g : Phrases) : Prop := ∃ isOpen ts s, g.declaration isOpen ts s

namespace Slots

/-- In one of the statements of a row. -/
inductive InRow (phrase : Bool → List Token → Stmt → Prop)
    (slot : Bool → List Token → List Token → Stmt → Prop) : List Token → List Token → List Stmt → Prop
  | mk {isOpen : Bool} {us pre post vs : List Token} {before later : List Stmt} {s : Stmt} :
    Row phrase us before → slot isOpen pre post s → Row phrase vs later →
      InRow phrase slot (us ++ pre) (post ++ vs) (before ++ s :: later)

/-- No places. -/
def empty : Slots where
  statement _ _ _ _ := False
  declaration _ _ _ _ := False

section

variable (o : Opener) (behind : List Stmt) (g : Phrases) (p : Slots)

/-- Between the braces of a body: among its statements, if it is that of the scope, or inside one of
them. -/
inductive InBraces (opens : List Stmt → Opener) : List Token → List Token → List Stmt → Prop
  | here {us vs : List Token} {before : List Stmt} : Row g.declaration us before →
    Row g.declaration vs behind → g.Roomy → o = opens (before ++ behind) →
      InBraces opens us vs (before ++ behind)
  | inside {pre post : List Token} {body : List Stmt} :
    InRow g.declaration p.declaration pre post body → InBraces opens pre post body

inductive InFunction : List Token → List Token → Fun → Prop
  | mk {name l r opening closing : Token} {ts pre post : List Token} {params : List Mark}
      {body : List Stmt} : name.kind = .identifier → l.kind = .leftParen →
    ParameterList ts params → r.kind = .rightParen → opening.kind = .leftBrace →
      InBraces o behind g p (fun body => .call ⟨name.mark, params, body⟩) pre post body →
        closing.kind = .rightBrace →
          InFunction (name :: l :: ts ++ r :: opening :: pre) (post ++ [closing])
            ⟨name.mark, params, body⟩

inductive InMethods : List Token → List Token → List Fun → Prop
  | mk {us pre post vs : List Token} {before later : List Fun} {m : Fun} : Methods g us before →
    InFunction o behind g p pre post m → Methods g vs later →
      InMethods (us ++ pre) (post ++ vs) (before ++ m :: later)

inductive InStatement : Bool → List Token → List Token → Stmt → Prop
  | block {opening closing : Token} {pre post : List Token} {body : List Stmt} :
    opening.kind = .leftBrace → InBraces o behind g p .block pre post body →
      closing.kind = .rightBrace → InStatement false (opening :: pre) (post ++ [closing]) (.block body)
  | loop {isOpen : Bool} {t l r : Token} {ts pre post : List Token} {cond : Expr} {body : Stmt} :
    t.kind = .kwWhile → l.kind = .leftParen → Assignment g ts cond → r.kind = .rightParen →
      p.statement isOpen pre post body →
        InStatement isOpen (t :: l :: ts ++ r :: pre) post (.loop cond body)
  | branch {isOpen : Bool} {t l r : Token} {ts pre post : List Token} {cond : Expr} {yes : Stmt} :
    t.kind = .kwIf → l.kind = .leftParen → Assignment g ts cond → r.kind = .rightParen →
      p.statement isOpen pre post yes →
        InStatement true (t :: l :: ts ++ r :: pre) post (.branch cond yes none)
  | yes {isOpen : Bool} {t l r other : Token} {ts pre post vs : List Token} {cond : Expr}
      {yes no : Stmt} : t.kind = .kwIf → l.kind = .leftParen → Assignment g ts cond →
    r.kind = .rightParen → p.statement false pre post yes → other.kind = .kwElse →
      g.statement isOpen vs no →
        InStatement isOpen (t :: l :: ts ++ r :: pre) (post ++ other :: vs)
          (.branch cond yes (some no))
  | no {isOpen : Bool} {t l r other : Token} {ts us pre post : List Token} {cond : Expr}
      {yes no : Stmt} : t.kind = .kwIf → l.kind = .leftParen → Assignment g ts cond →
    r.kind = .rightParen → g.statement false us yes → other.kind = .kwElse →
      p.statement isOpen pre post no →
        InStatement isOpen (t :: l :: ts ++ r :: us ++ other :: pre) post (.branch cond yes (some no))
  | forLoop {isOpen : Bool} {t l semi r : Token} {ts us vs pre post : List Token}
      {initializer : Option Stmt} {cond increment : Option Expr} {body : Stmt} :
    t.kind = .kwFor → l.kind = .leftParen → ForInitializer g ts initializer →
      OptionalExpr g us cond → semi.kind = .semicolon → OptionalExpr g vs increment →
        r.kind = .rightParen → p.statement isOpen pre post body →
          InStatement isOpen (t :: l :: ts ++ us ++ semi :: vs ++ r :: pre) post
            (Lox.forLoop initializer cond increment body)

inductive InDeclaration : Bool → List Token → List Token → Stmt → Prop
  | classDecl {t name opening closing : Token} {ts pre post : List Token}
      {superclass : Option NameUse} {methods : List Fun} : t.kind = .kwClass →
    name.kind = .identifier → Superclass ts superclass → opening.kind = .leftBrace →
      InMethods o behind g p pre post methods → closing.kind = .rightBrace →
        InDeclaration false (t :: name :: ts ++ opening :: pre) (post ++ [closing])
          (.classDecl name.mark superclass methods)
  | function {t : Token} {pre post : List Token} {f : Fun} : t.kind = .kwFun →
    InFunction o behind g p pre post f → InDeclaration false (t :: pre) post (.function f)
  | statement {isOpen : Bool} {pre post : List Token} {s : Stmt} :
    InStatement o behind g p isOpen pre post s → InDeclaration isOpen pre post s

/-- The places with so many steps left, of which some are spent on the way in. -/
def within : Nat → Nat → Slots
  | 0, _ => empty
  | steps + 1, spent + 1 => within steps spent
  | steps + 1, 0 =>
    { statement := InStatement o behind (Phrases.within steps 1) (within steps 1)
      declaration := InDeclaration o behind (Phrases.within steps 2) (within steps 2) }

end

end Slots

/-- A place in the text of a program, among the statements of the scope of `o`, before the last ones
of them. -/
def Slot (limits : Limits) (o : Opener) (behind : List Stmt) : List Token → List Token → List Stmt → Prop :=
  Slots.InRow (Declaration (Phrases.within limits.steps 0))
    (Slots.InDeclaration o behind (Phrases.within limits.steps 0) (Slots.within o behind limits.steps 0))

/-! ### A declaration at its place -/

/-- The tokens of a declaration without an initializer. -/
inductive Declares : Mark → List Token → Prop
  | mk {keyword name semi : Token} : keyword.kind = .kwVar → name.kind = .identifier →
    semi.kind = .semicolon → Declares name.mark [keyword, name, semi]

variable {d : Mark} {o : Opener} {behind : List Stmt} {new : List Token}

theorem Declares.declaration (h : Declares d new) (g : Phrases) :
    Declaration g false new (.var d none) := by
  obtain ⟨hkeyword, hname, hsemi⟩ := h
  exact .var hkeyword (.bare hname hsemi)

/-- Where there are steps for some declaration there are for this one. -/
theorem Declares.of_roomy (h : Declares d new) {steps spent : Nat}
    (hg : (within steps spent).Roomy) : (within steps spent).declaration false new (.var d none) := by
  rw [within_drop] at hg ⊢
  cases hm : steps - spent with
  | zero =>
    rw [hm] at hg
    obtain ⟨_, _, _, hnone⟩ := hg
    exact hnone.elim
  | succ m => exact h.declaration _

namespace Slots

section

variable (d o behind new) (g : Phrases) (p : Slots)

/-- With the tokens of the declaration at one of these places the phrase is one again, with the
declaration in its tree. -/
structure Fills : Prop where
  declares : g.Roomy → g.declaration false new (.var d none)
  statement : ∀ {isOpen pre post s}, p.statement isOpen pre post s →
    ∃ s', g.statement isOpen (pre ++ new ++ post) s' ∧ Grown d o behind (.stmt s) (.stmt s')
  declaration : ∀ {isOpen pre post s}, p.declaration isOpen pre post s →
    ∃ s', g.declaration isOpen (pre ++ new ++ post) s' ∧ Grown d o behind (.stmt s) (.stmt s')

end

variable {g : Phrases} {p : Slots} {pre post : List Token} {isOpen : Bool} {s : Stmt}

theorem InRow.grown {phrase : Bool → List Token → Stmt → Prop}
    {slot : Bool → List Token → List Token → Stmt → Prop} {body : List Stmt}
    (hf : ∀ isOpen pre post s, slot isOpen pre post s →
      ∃ s', phrase isOpen (pre ++ new ++ post) s' ∧ Grown d o behind (.stmt s) (.stmt s'))
    (h : InRow phrase slot pre post body) :
    ∃ body', Row phrase (pre ++ new ++ post) body' ∧ Grown d o behind (.body body) (.body body') := by
  obtain ⟨hbefore, hs, hlater⟩ := h
  obtain ⟨s', hs', hgrown⟩ := hf _ _ _ _ hs
  refine ⟨_, ?_, .among hgrown⟩
  have hrow := hbefore.append (Row.cons hs' hlater)
  simpa only [List.append_assoc] using hrow

/-- The body with the declaration, whatever opens its scope. -/
theorem InBraces.row (hf : Fills d o behind new g p) {opens : List Stmt → Opener} {body : List Stmt}
    (h : InBraces o behind g p opens pre post body) :
    ∃ body', Row g.declaration (pre ++ new ++ post) body' ∧
      ((∃ before, body = before ++ behind ∧ body' = before ++ .var d none :: behind ∧
          o = opens (before ++ behind)) ∨ Grown d o behind (.body body) (.body body')) := by
  cases h with
  | here hbefore hbehind hroom ho =>
    have hrow := hbefore.append (Row.cons (hf.declares hroom) hbehind)
    exact ⟨_, by simpa only [List.append_assoc] using hrow, .inl ⟨_, rfl, rfl, ho⟩⟩
  | inside h =>
    obtain ⟨body', hrow, hgrown⟩ := h.grown fun _ _ _ _ hs => hf.declaration hs
    exact ⟨body', hrow, .inr hgrown⟩

theorem InFunction.grown (hf : Fills d o behind new g p) {f : Fun}
    (h : InFunction o behind g p pre post f) (kind : FunctionKind) :
    ∃ f', Function g (pre ++ new ++ post) f' ∧
      Grown d o behind (.function kind f) (.function kind f') := by
  obtain ⟨hname, hl, hparams, hr, hopening, hbody, hclosing⟩ := h
  obtain ⟨body', hrow, hgrown⟩ := hbody.row hf
  have hfunction := Function.mk hname hl hparams hr hopening hrow hclosing
  refine ⟨_, by simpa only [List.append_assoc, List.cons_append] using hfunction, ?_⟩
  obtain ⟨before, rfl, rfl, ho⟩ | hgrown := hgrown
  · exact .inCall ho
  · exact .call hgrown

theorem Methods.append {ts us : List Token} {ms more : List Fun} (h : Methods g ts ms)
    (hmore : Methods g us more) : Methods g (ts ++ us) (ms ++ more) := by
  induction h with
  | nil => exact hmore
  | cons hm _ ih =>
    rw [List.append_assoc]
    exact .cons hm ih

theorem InMethods.grown (hf : Fills d o behind new g p) {ms : List Fun}
    (h : InMethods o behind g p pre post ms) :
    ∃ ms', Methods g (pre ++ new ++ post) ms' ∧ Grown d o behind (.methods ms) (.methods ms') := by
  obtain ⟨hbefore, hm, hlater⟩ := h
  obtain ⟨m', hm', hgrown⟩ := hm.grown hf (methodKind _)
  have hmethods := Methods.append hbefore (.cons hm' hlater)
  exact ⟨_, by simpa only [List.append_assoc] using hmethods, .method hgrown⟩

theorem InStatement.grown (hf : Fills d o behind new g p)
    (h : InStatement o behind g p isOpen pre post s) :
    ∃ s', Statement g isOpen (pre ++ new ++ post) s' ∧ Grown d o behind (.stmt s) (.stmt s') := by
  cases h with
  | block hopening hbody hclosing =>
    obtain ⟨body', hrow, hgrown⟩ := hbody.row hf
    have hblock := Statement.block hopening hrow hclosing
    refine ⟨_, by simpa only [List.append_assoc, List.cons_append] using hblock, ?_⟩
    obtain ⟨before, rfl, rfl, ho⟩ | hgrown := hgrown
    · exact .inBlock ho
    · exact .block hgrown
  | loop ht hl hcond hr hs =>
    obtain ⟨body', hbody, hgrown⟩ := hf.statement hs
    have hloop := Statement.loop ht hl hcond hr hbody
    exact ⟨_, by simpa only [List.append_assoc, List.cons_append] using hloop, .loop hgrown⟩
  | branch ht hl hcond hr hs =>
    obtain ⟨yes', hyes, hgrown⟩ := hf.statement hs
    have hbranch := Statement.branch ht hl hcond hr hyes
    exact ⟨_, by simpa only [List.append_assoc, List.cons_append] using hbranch, .yes none hgrown⟩
  | yes ht hl hcond hr hs hother hno =>
    obtain ⟨yes', hyes, hgrown⟩ := hf.statement hs
    have hbranch := Statement.branchElse ht hl hcond hr hyes hother hno
    exact ⟨_, by simpa only [List.append_assoc, List.cons_append] using hbranch, .yes _ hgrown⟩
  | no ht hl hcond hr hyes hother hs =>
    obtain ⟨no', hno, hgrown⟩ := hf.statement hs
    have hbranch := Statement.branchElse ht hl hcond hr hyes hother hno
    exact ⟨_, by simpa only [List.append_assoc, List.cons_append] using hbranch, .no hgrown⟩
  | forLoop ht hl hinit hcond hsemi hincrement hr hs =>
    obtain ⟨body', hbody, hgrown⟩ := hf.statement hs
    have hloop := Statement.forLoop ht hl hinit hcond hsemi hincrement hr hbody
    exact ⟨_, by simpa only [List.append_assoc, List.cons_append] using hloop, hgrown.forLoop ..⟩

theorem InDeclaration.grown (hf : Fills d o behind new g p)
    (h : InDeclaration o behind g p isOpen pre post s) :
    ∃ s', Declaration g isOpen (pre ++ new ++ post) s' ∧ Grown d o behind (.stmt s) (.stmt s') := by
  cases h with
  | classDecl ht hname hsuper hopening hmethods hclosing =>
    obtain ⟨ms', hms, hgrown⟩ := hmethods.grown hf
    have hclass := Declaration.classDecl ht (ClassDecl.mk hname hsuper hopening hms hclosing)
    exact ⟨_, by simpa only [List.append_assoc, List.cons_append] using hclass, .classDecl _ hgrown⟩
  | function ht hfunction =>
    obtain ⟨f', hf', hgrown⟩ := hfunction.grown hf .function
    exact ⟨_, .function ht hf', .function hgrown⟩
  | statement hs =>
    obtain ⟨s', hs', hgrown⟩ := hs.grown hf
    exact ⟨s', .statement hs', hgrown⟩

/-- So it is at every depth of nesting. -/
theorem fills_within (hnew : Declares d new) : ∀ steps spent,
    Fills d o behind new (Phrases.within steps spent) (within o behind steps spent)
  | 0, spent => by
    refine ⟨hnew.of_roomy, ?_, ?_⟩ <;> (rw [within]; exact False.elim)
  | steps + 1, spent + 1 => by
    rw [Phrases.within, within]
    exact fills_within hnew steps spent
  | steps + 1, 0 => by
    refine ⟨hnew.of_roomy, ?_, ?_⟩
    · rw [Phrases.within, within]
      exact fun h => h.grown (fills_within hnew steps 1)
    · rw [Phrases.within, within]
      exact fun h => h.grown (fills_within hnew steps 2)

end Slots

/-- With the tokens of the declaration at its place the text is a program again, with the declaration
in its tree. -/
theorem Slot.grown {limits : Limits} {pre post : List Token} {stmts : List Stmt}
    (hnew : Declares d new) (h : Slot limits o behind pre post stmts) :
    ∃ stmts', Program (Phrases.within limits.steps 0) (pre ++ new ++ post) stmts' ∧
      Grown d o behind (.body stmts) (.body stmts') :=
  Slots.InRow.grown (fun _ _ _ _ hs => hs.grown (Slots.fills_within hnew limits.steps 0)) h

end Lox
