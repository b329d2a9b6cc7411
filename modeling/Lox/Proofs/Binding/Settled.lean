/-
# What is open at a place

At every place of a program without reports the open scopes and what opened
them agree, one for one: a scope binds only names that its opener declares,
and from the start those that the opener gives it. All names are ready, but
for one: inside the initializer of a local variable the innermost scope binds
that variable, and it is not. So a receiver stands inside a class, and a use
of the superclass in a class whose scope of the receiver lies directly inside
that of the superclass.

Key definitions: `Lox.Nested`, `Lox.Aligned`, `Lox.Scoping.Settled`,
`Lox.Scoping.Reading`, `Lox.Visit.Standing`.
Key theorems: `Lox.Nested.receiver_hops`, `Lox.Nested.superclass_hops`,
`Lox.stock_visitedIn`.
-/
import Lox.Ast.Occurrence
import Lox.Proofs.Binding.Clean

namespace Lox

/-! ### Openers and scopes -/

/-- The openers nest as classes do, and lie in such a kind of class; the names of the other ones
are no words of a class. -/
inductive Nested : ClassKind → List Opener → Prop
  | globals : Nested .none []
  | block {kind : ClassKind} {os : List Opener} {body : List Stmt} :
    (∀ name ∈ declaredNames body, isPlain name) → Nested kind os → Nested kind (.block body :: os)
  | call {kind : ClassKind} {os : List Opener} {decl : Fun} :
    (∀ name ∈ (Opener.call decl).names, isPlain name) → Nested kind os →
      Nested kind (.call decl :: os)
  | plain {kind : ClassKind} {os : List Opener} (cls : Mark) :
    Nested kind os → Nested .plain (.receiver cls :: os)
  | subclass {kind : ClassKind} {os : List Opener} (cls : Mark) :
    Nested kind os → Nested .subclass (.receiver cls :: .superclass cls :: os)

/-- The names that the scope binds from the start. -/
def Opener.given : Opener → List String
  | .block _ | .call _ => []
  | .receiver _ => ["this"]
  | .superclass _ => ["super"]

/-- The scopes are those of the openers: each binds names of its opener only, and all that it gives
are ready. -/
inductive Aligned : List (Bindings Bool) → List Opener → Prop
  | globals : Aligned [] []
  | inside {scope : Bindings Bool} {scopes : List (Bindings Bool)} {o : Opener} {os : List Opener} :
    (∀ name, scope.contains name = true → name ∈ o.names) →
      (∀ name ∈ o.given, scope.get? name = some true) → Aligned scopes os →
        Aligned (scope :: scopes) (o :: os)

/-- Every name that the scope binds is ready. -/
def AllReady (scope : Bindings Bool) : Prop := ∀ name, scope.get? name ≠ some false

namespace AllReady

variable {scope : Bindings Bool}

theorem bind (h : AllReady scope) (name : String) : AllReady (scope.bind name true) := by
  intro other
  rw [Bindings.get?_bind]
  split
  · simp
  · exact h other

end AllReady

namespace Aligned

variable {scope : Bindings Bool} {scopes : List (Bindings Bool)} {o : Opener} {os : List Opener}

theorem length_eq (h : Aligned scopes os) : scopes.length = os.length := by
  induction h with
  | globals => rfl
  | inside _ _ _ ih => exact congrArg (· + 1) ih

theorem nil_iff (h : Aligned scopes os) : scopes = [] ↔ os = [] := by
  cases h <;> simp

/-- A name of its opener may be bound in the innermost scope. -/
theorem bind {name : String} {ready : Bool} (h : Aligned (scope :: scopes) (o :: os))
    (hn : name ∈ o.names) (hg : ready = true ∨ name ∉ o.given) :
    Aligned (scope.bind name ready :: scopes) (o :: os) := by
  cases h with
  | inside hnames hgiven hs =>
    refine .inside ?_ ?_ hs
    · intro other hc
      unfold Bindings.contains at hc
      rw [Bindings.get?_bind] at hc
      split at hc
      · rename_i heq
        rwa [heq]
      · exact hnames other hc
    · intro other hother
      rw [Bindings.get?_bind]
      split
      · rename_i heq
        subst heq
        cases hg with
        | inl hr => rw [hr]
        | inr hng => exact absurd hother hng
      · exact hgiven other hother

theorem contains_this {cls : Mark} (h : Aligned (scope :: scopes) (.receiver cls :: os)) :
    scope.contains "this" = true ∧ scope.contains "super" = false := by
  cases h with
  | inside hnames hgiven _ =>
    refine ⟨by simp [Bindings.contains, hgiven "this" (by simp [Opener.given])], ?_⟩
    cases hc : scope.contains "super" with
    | false => rfl
    | true => exact absurd (hnames "super" hc) (by simp [Opener.names])

theorem contains_super {cls : Mark} (h : Aligned (scope :: scopes) (.superclass cls :: os)) :
    scope.contains "super" = true := by
  cases h with
  | inside _ hgiven _ =>
    simp [Bindings.contains, hgiven "super" (by simp [Opener.given])]

theorem not_contains (h : Aligned (scope :: scopes) (o :: os))
    (hp : ∀ name ∈ o.names, isPlain name) {name : String} (hn : ¬ isPlain name) :
    scope.contains name = false := by
  cases h with
  | inside hnames _ _ =>
    cases hc : scope.contains name with
    | false => rfl
    | true => exact absurd (hp name (hnames name hc)) hn

end Aligned

theorem not_isPlain_this : ¬ isPlain "this" := fun h => h.1 rfl

theorem not_isPlain_super : ¬ isPlain "super" := fun h => h.2 rfl

/-- The number of scopes out to the one that binds the name. -/
def hopsIn? (scopes : List (Bindings Bool)) (name : String) : Option Nat :=
  scopes.findIdx? (·.contains name)

theorem hopsIn?_cons (scope : Bindings Bool) (scopes : List (Bindings Bool)) (name : String) :
    hopsIn? (scope :: scopes) name =
      if scope.contains name then some 0 else (hopsIn? scopes name).map (· + 1) := by
  simp [hopsIn?, List.findIdx?_cons]

namespace Nested

variable {kind : ClassKind} {scopes : List (Bindings Bool)} {os : List Opener}

/-- In a class the receiver is bound, in the scope of a receiver. -/
theorem receiver_hops (h : Nested kind os) (ha : Aligned scopes os) (hk : kind ≠ .none) :
    ∃ d cls, hopsIn? scopes "this" = some d ∧ os[d]? = some (.receiver cls) := by
  induction h generalizing scopes with
  | globals => exact absurd rfl hk
  | block hplain _ ih | call hplain _ ih =>
    cases ha with
    | @inside scope rest _ _ hnames hgiven hrest =>
      have hhead := (Aligned.inside hnames hgiven hrest).not_contains hplain not_isPlain_this
      obtain ⟨d, cls, hd, hc⟩ := ih hrest hk
      exact ⟨d + 1, cls, by rw [hopsIn?_cons, hhead, hd]; rfl, hc⟩
  | plain cls _ | subclass cls _ =>
    cases ha with
    | @inside scope rest _ _ hnames hgiven hrest =>
      have hhead := (Aligned.inside hnames hgiven hrest).contains_this.1
      exact ⟨0, cls, by rw [hopsIn?_cons, hhead]; rfl, rfl⟩

/-- In a class with a superclass that is bound, one scope outside the receiver. -/
theorem superclass_hops (h : Nested kind os) (ha : Aligned scopes os) (hk : kind = .subclass) :
    ∃ d cls, hopsIn? scopes "this" = some d ∧ hopsIn? scopes "super" = some (d + 1) ∧
      os[d]? = some (.receiver cls) ∧ os[d + 1]? = some (.superclass cls) := by
  induction h generalizing scopes with
  | globals => cases hk
  | plain cls _ => cases hk
  | block hplain _ ih | call hplain _ ih =>
    cases ha with
    | @inside scope rest _ _ hnames hgiven hrest =>
      have hinside := Aligned.inside hnames hgiven hrest
      obtain ⟨d, cls, hd, hs, hc⟩ := ih hrest hk
      refine ⟨d + 1, cls, ?_, ?_, hc⟩
      · rw [hopsIn?_cons, hinside.not_contains hplain not_isPlain_this, hd]
        rfl
      · rw [hopsIn?_cons, hinside.not_contains hplain not_isPlain_super, hs]
        rfl
  | subclass cls _ =>
    cases ha with
    | inside hnames hgiven hrest =>
      obtain ⟨hthis, hnot⟩ := (Aligned.inside hnames hgiven hrest).contains_this
      cases hrest with
      | inside hnames hgiven hrest =>
        have hsuper := (Aligned.inside hnames hgiven hrest).contains_super
        refine ⟨0, cls, ?_, ?_, rfl, rfl⟩
        · rw [hopsIn?_cons, hthis]
          rfl
        · rw [hopsIn?_cons, hnot, hopsIn?_cons, hsuper]
          rfl

end Nested

/-! ### Places of statements -/

/-- The openers open these scopes, all names are ready, and no global variable is initialized. -/
structure Scoping.Settled (σ : Scoping) (os : List Opener) : Prop where
  nested : Nested σ.cls os
  aligned : Aligned σ.scopes os
  ready : ∀ scope ∈ σ.scopes, AllReady scope
  pending : σ.pending = []

theorem Opener.not_plain_given {o : Opener} {name : String} (h : name ∈ o.given) :
    ¬ isPlain name := by
  cases o with
  | block _ | call _ => cases h
  | receiver _ =>
    obtain rfl := List.mem_singleton.mp h
    exact not_isPlain_this
  | superclass _ =>
    obtain rfl := List.mem_singleton.mp h
    exact not_isPlain_super

namespace Scoping.Settled

variable {σ : Scoping} {os : List Opener}

theorem unready_eq (h : σ.Settled os) (name : String) : σ.unready name = false := by
  unfold unready
  cases hs : σ.scopes with
  | nil => simp [h.pending]
  | cons scope outer => simp [h.ready scope (by simp [hs]) name]

/-- A declaration of the innermost scope makes its name ready. -/
theorem define (h : σ.Settled os) {m : Mark} (hm : ∀ o ∈ os.head?, m.text ∈ o.names) :
    (σ.define m).Settled os := by
  cases hs : σ.scopes with
  | nil => rwa [define_of_nil hs]
  | cons scope outer =>
    rw [define_of_cons hs]
    have ha : Aligned (scope :: outer) os := hs ▸ h.aligned
    cases os with
    | nil => cases ha
    | cons o os =>
      refine ⟨h.nested, ha.bind (hm o rfl) (.inl rfl), ?_, h.pending⟩
      intro other hother
      obtain rfl | hother := List.mem_cons.mp hother
      · exact (h.ready scope (by simp [hs])).bind _
      · exact h.ready other (by simp [hs, hother])

/-- A scope of its own for an opener inside. -/
theorem enter {τ : Scoping} {o : Opener} (ha : Aligned τ.scopes os)
    (hr : ∀ scope ∈ τ.scopes, AllReady scope) (hp : τ.pending = []) (hn : Nested τ.cls (o :: os))
    (hgiven : ∀ name ∈ o.given, name ∈ o.names) : (τ.enter o.given).Settled (o :: os) := by
  have hfound : ∀ (names : List String) name,
      Bindings.find? name (names.map fun n => (n, true)) = if name ∈ names then some true else none := by
    intro names name
    induction names with
    | nil => rfl
    | cons n names ih => by_cases h : name = n <;> simp [Bindings.find?, h, ih]
  refine ⟨hn, .inside ?_ ?_ ha, ?_, hp⟩
  · intro name hc
    rw [Bindings.contains, Bindings.get?, hfound] at hc
    split at hc
    · exact hgiven name ‹_›
    · cases hc
  · intro name hname
    rw [Bindings.get?, hfound, if_pos hname]
  · intro scope hscope
    obtain rfl | hscope := List.mem_cons.mp hscope
    · intro name
      rw [Bindings.get?, hfound]
      split <;> simp
    · exact hr scope hscope

/-- Behind a statement. -/
theorem behind (h : σ.Settled os) {s : Stmt}
    (hs : ∀ m ∈ s.declared?, ∀ o ∈ os.head?, m.text ∈ o.names) : (σ.behind s).Settled os := by
  unfold Scoping.behind
  split
  · rename_i m hm
    exact h.define (hs m hm)
  · exact h

theorem defineAll : ∀ (params : List Mark) {σ : Scoping}, σ.Settled os →
    (∀ m ∈ params, ∀ o ∈ os.head?, m.text ∈ o.names) → (σ.defineAll params).Settled os
  | [], _, h, _ => h
  | m :: params, _, h, hm =>
    defineAll params (h.define (hm m (List.mem_cons_self ..)))
      fun m' hm' => hm m' (List.mem_cons_of_mem _ hm')

end Scoping.Settled

/-! ### Places of expressions -/

/-- The uses stand in the initializer of a variable of that name, among places that have these
openers. -/
def Initializing (P : Visit → Prop) (os : List Opener) (name : String)
    (uses : List Occurrence) : Prop :=
  ∃ σ m e, P ⟨.stmt (.var m (some e)), σ, os⟩ ∧ m.text = name ∧ uses ⊆ e.occurrences

/-- The openers open these scopes; where the uses are not only of variables they lie in that kind
of class; names of outer scopes are ready, and one of the innermost scope that is not is being
initialized. -/
structure Scoping.Reading (P : Visit → Prop) (σ : Scoping) (os : List Opener)
    (uses : List Occurrence) : Prop where
  nested : ∃ kind, Nested kind os ∧ (σ.cls = kind ∨ ∀ u ∈ uses, u.kind = .variable)
  aligned : Aligned σ.scopes os
  outer : ∀ scope ∈ σ.scopes.tail, AllReady scope
  unready : ∀ name, σ.unready name = true → Initializing P os name uses

namespace Scoping

variable {P : Visit → Prop} {σ : Scoping} {os : List Opener} {uses : List Occurrence}

theorem Reading.mono {fewer : List Occurrence} (h : σ.Reading P os uses) (hf : fewer ⊆ uses) :
    σ.Reading P os fewer where
  nested := by
    obtain ⟨kind, hn, hk⟩ := h.nested
    exact ⟨kind, hn, hk.imp_right fun hu u hm => hu u (hf hm)⟩
  aligned := h.aligned
  outer := h.outer
  unready name hu := by
    obtain ⟨τ, m, e, hP, hm, he⟩ := h.unready name hu
    exact ⟨τ, m, e, hP, hm, fun u hm => he (hf hm)⟩

/-- Among other uses than those of variables the class is known. -/
theorem Reading.nested_cls {u : Occurrence} (h : σ.Reading P os (u :: uses))
    (hu : u.kind ≠ .variable) : Nested σ.cls os := by
  obtain ⟨kind, hn, rfl | hall⟩ := h.nested
  · exact hn
  · exact absurd (hall u (List.mem_cons_self ..)) hu

theorem Settled.reading (h : σ.Settled os) : σ.Reading P os uses where
  nested := ⟨σ.cls, h.nested, .inl rfl⟩
  aligned := h.aligned
  outer scope hs := h.ready scope (List.mem_of_mem_tail hs)
  unready name hu := by
    rw [h.unready_eq name] at hu
    cases hu

/-- While a variable is initialized only its name is not ready. -/
theorem Settled.initializing (h : σ.Settled os) {m : Mark} {e : Expr}
    (hP : P ⟨.stmt (.var m (some e)), σ, os⟩) (hplain : isPlain m.text)
    (hm : ∀ o ∈ os.head?, m.text ∈ o.names) (hs : (σ.initializing m).Silent) :
    (σ.initializing m).Reading P os e.occurrences := by
  have own : ∀ name, m.text = name → Initializing P os name e.occurrences :=
    fun name hname => ⟨σ, m, e, hP, hname, fun u hu => hu⟩
  rw [(initializing_of_silent hs).1]
  cases hscopes : σ.scopes with
  | nil =>
    refine ⟨⟨σ.cls, h.nested, .inl rfl⟩, h.aligned, ?_, ?_⟩
    · exact fun scope hs => h.ready scope (List.mem_of_mem_tail hs)
    · exact fun name hu => own name ((unready_suspend hscopes h.pending).mp hu)
  | cons scope outer =>
    have ha : Aligned (scope :: outer) os := hscopes ▸ h.aligned
    cases os with
    | nil => cases ha
    | cons o os =>
      refine ⟨⟨σ.cls, h.nested, .inl rfl⟩, ?_, ?_, ?_⟩
      · exact ha.bind (hm o rfl) (.inr fun hg => Opener.not_plain_given hg hplain)
      · intro other hother
        exact h.ready other (by simp [hscopes, show other ∈ outer from hother])
      · intro name hu
        have hu : (scope.bind m.text false).get? name = some false := of_decide_eq_true hu
        rw [Bindings.get?_bind] at hu
        split at hu
        · rename_i heq
          exact own name heq.symm
        · exact absurd hu (h.ready scope (by simp [hscopes]) name)

end Scoping

/-! ### Every place -/

/-- The names that the part declares in the innermost scope. -/
def Construct.declares : Construct → List String
  | .stmt s => s.declared?.toList.map (·.text)
  | .body stmts => declaredNames stmts
  | .expr _ | .args _ | .function _ _ | .methods _ => []

/-- What is open at the place is as the pass of a program without reports has it. -/
def Visit.Standing (P : Visit → Prop) (v : Visit) : Prop :=
  match v.construct with
  | .expr e => v.scoping.Reading P v.openers e.occurrences
  | .args es => v.scoping.Reading P v.openers (argOccurrences es)
  | c => v.scoping.Settled v.openers ∧
    ∀ o ∈ v.openers.head?, ∀ name ∈ c.declares, name ∈ o.names

theorem declaredNames_cons (s : Stmt) (body : List Stmt) :
    declaredNames (s :: body) = s.declared?.toList.map (·.text) ++ declaredNames body := by
  unfold declaredNames
  rw [List.filterMap_cons]
  cases s.declared? <;> rfl

theorem isPlain_declared {s : Stmt} (h : s.Regular) : ∀ m ∈ s.declared?, isPlain m.text := by
  intro m hm
  cases s with
  | var name _ =>
    cases hm
    exact h.1
  | function decl =>
    obtain ⟨name, params, body⟩ := decl
    cases hm
    exact h.1
  | classDecl name superclass _ =>
    cases hm
    cases superclass with
    | none | some _ => exact h.1
  | _ => cases hm

theorem isPlain_declaredNames : ∀ {body : List Stmt}, bodyRegular body →
    ∀ name ∈ declaredNames body, isPlain name
  | [], _, _, h => nomatch h
  | s :: body, hr, name, h => by
    rw [declaredNames_cons] at h
    obtain h | h := List.mem_append.mp h
    · obtain ⟨m, hm, rfl⟩ := List.mem_map.mp h
      exact isPlain_declared hr.1 m (by simpa using hm)
    · exact isPlain_declaredNames hr.2 name h

namespace Visit

open Scoping

variable {P : Visit → Prop} {σ : Scoping} {os : List Opener}

theorem Clean.behindExpr_eq {e : Expr} (h : Clean ⟨.expr e, σ, os⟩) : σ.behindExpr e = σ :=
  behindExpr_of_silent h.regular h.silent

theorem Clean.behindStmt_eq {s : Stmt} (h : Clean ⟨.stmt s, σ, os⟩) (hp : σ.pending = []) :
    σ.behindStmt s = σ.behind s :=
  behindStmt_of_silent h.regular hp h.silent

theorem Clean.behindFunction_eq {kind : FunctionKind} {decl : Fun}
    (h : Clean ⟨.function kind decl, σ, os⟩) (hp : σ.pending = []) :
    σ.behindFunction kind decl = σ :=
  behindFunction_of_silent h.regular hp h.silent

/-- A part of an expression that the pass comes to by way of these parts. -/
theorem standing_expr {e e' : Expr} (h : Standing P ⟨.expr e, σ, os⟩) {τ : Scoping} (hτ : τ = σ)
    (hu : e'.occurrences ⊆ e.occurrences) : Standing P ⟨.expr e', τ, os⟩ := by
  subst hτ
  exact Reading.mono h hu

theorem standing_stmt {s s' : Stmt} (h : Standing P ⟨.stmt s, σ, os⟩) {τ : Scoping} (hτ : τ = σ)
    (hd : s'.declared? = none) : Standing P ⟨.stmt s', τ, os⟩ := by
  subst hτ
  exact ⟨h.1, fun o ho name hn => by simp [Construct.declares, hd] at hn⟩

/-- The parts of a class inside a scope for the receiver. -/
theorem settled_class {τ : Scoping} {name : Mark} (hs : σ.Settled os)
    (hn : ∀ o ∈ os.head?, name.text ∈ o.names) (hτ : τ = { σ.define name with cls := .plain }) :
    (τ.enter ["this"]).Settled (.receiver name :: os) := by
  have h := hs.define hn
  subst hτ
  exact Settled.enter (o := .receiver name) h.aligned h.ready h.pending (.plain name hs.nested)
    fun _ h => h

theorem settled_subclass {τ : Scoping} {name : Mark} (hs : σ.Settled os)
    (hn : ∀ o ∈ os.head?, name.text ∈ o.names) (hτ : τ = { σ.define name with cls := .subclass }) :
    ((τ.enter ["super"]).enter ["this"]).Settled (.receiver name :: .superclass name :: os) := by
  have h := hs.define hn
  subst hτ
  have hscopes : ∀ scope ∈ ((σ.define name).enter ["super"]).scopes, AllReady scope := by
    intro scope hscope
    obtain rfl | hscope := List.mem_cons.mp hscope
    · intro other
      by_cases ho : other = "super" <;> simp [Bindings.get?, Bindings.find?, ho]
    · exact h.ready scope hscope
  have ha : Aligned ((σ.define name).enter ["super"]).scopes (.superclass name :: os) := by
    refine .inside ?_ ?_ h.aligned
    · intro other hc
      by_cases ho : other = "super"
      · simp [ho, Opener.names]
      · simp [Bindings.contains, Bindings.get?, Bindings.find?, ho] at hc
    · intro other ho
      obtain rfl := List.mem_singleton.mp ho
      rfl
  exact Settled.enter (o := .receiver name) ha hscopes h.pending (.subclass name hs.nested)
    fun _ h => h

theorem declares_stmt {s : Stmt} (h : Standing P ⟨.stmt s, σ, os⟩) {m : Mark}
    (hm : s.declared? = some m) : ∀ o ∈ os.head?, m.text ∈ o.names :=
  fun o ho => h.2 o ho m.text (by simp [Construct.declares, hm])

/-- In a block the names are open that its statements declare. -/
theorem standing_block {body : List Stmt} (hr : bodyRegular body) (hs : σ.Settled os) :
    Standing P ⟨.body body, σ.enter [], .block body :: os⟩ := by
  have hn := Nested.block (isPlain_declaredNames hr) hs.nested
  refine ⟨Settled.enter (o := .block body) hs.aligned hs.ready hs.pending hn
    (fun _ h => nomatch h), ?_⟩
  intro o ho name hname
  cases ho
  exact hname

/-- Where the superclass is used, the name of the class is ready, but the class is not known. -/
theorem standing_superclass {name : Mark} {use : NameUse} {ms : List Fun}
    (hv : Standing P ⟨.stmt (.classDecl name (some use) ms), σ, os⟩)
    (hi : σ.inheriting name use = { σ.define name with cls := .subclass }) :
    Standing P ⟨.expr (.variable use), σ.inheriting name use, os⟩ := by
  have hd := hv.1.define (declares_stmt hv rfl)
  show (σ.inheriting name use).Reading P os [⟨.variable, use⟩]
  rw [hi]
  refine ⟨⟨σ.cls, hv.1.nested, .inr ?_⟩, hd.aligned, ?_, ?_⟩
  · intro u hu
    rw [List.mem_singleton.mp hu]
  · exact fun scope hs => hd.ready scope (List.mem_of_mem_tail hs)
  · intro other hu
    have hu : (σ.define name).unready other = true := hu
    rw [hd.unready_eq other] at hu
    cases hu

/-- Behind the first statement of a body its name is declared, and ready. -/
theorem standing_body {s : Stmt} {body : List Stmt} (hc : Clean ⟨.body (s :: body), σ, os⟩)
    (hv : Standing P ⟨.body (s :: body), σ, os⟩) :
    Standing P ⟨.stmt s, σ, os⟩ ∧ Standing P ⟨.body body, σ.behindStmt s, os⟩ := by
  have hs := (hc.part (w := ⟨.stmt s, σ, os⟩) (List.mem_cons_self ..)).behindStmt_eq hv.1.pending
  have hd : ∀ o ∈ os.head?, ∀ name ∈ s.declared?.toList.map (·.text) ++ declaredNames body,
      name ∈ o.names := by
    rw [← declaredNames_cons]
    exact hv.2
  refine ⟨⟨hv.1, fun o ho name hn => hd o ho name (List.mem_append_left _ hn)⟩, ?_,
    fun o ho name hn => hd o ho name (List.mem_append_right _ hn)⟩
  show (σ.behindStmt s).Settled os
  rw [hs]
  refine hv.1.behind fun m hm o ho => hd o ho m.text (List.mem_append_left _ ?_)
  simp [show s.declared? = some m from hm]

/-- In a function its parameters are ready, in one scope with what its body declares. -/
theorem standing_function {kind : FunctionKind} {name : Mark} {params : List Mark}
    {body : List Stmt} (hc : Clean ⟨.function kind ⟨name, params, body⟩, σ, os⟩)
    (hs : σ.Settled os) :
    Standing P ⟨.body body, σ.enteringFunction kind params, .call ⟨name, params, body⟩ :: os⟩ := by
  have he := enteringFunction_of_silent ((hc.part (List.mem_singleton_self _)).silent.of_le
    (le_behindBody body (σ.enteringFunction kind params)))
  have hplain : ∀ n ∈ (Opener.call ⟨name, params, body⟩).names, isPlain n := by
    intro n hn
    obtain hn | hn := List.mem_append.mp hn
    · obtain ⟨m, hm, rfl⟩ := List.mem_map.mp hn
      exact hc.regular.2.1 m hm
    · exact isPlain_declaredNames hc.regular.2.2 n hn
  have hinside : Settled { σ.enter [] with function := kind } (.call ⟨name, params, body⟩ :: os) :=
    Settled.enter (τ := { σ with function := kind }) (o := .call ⟨name, params, body⟩)
      hs.aligned hs.ready hs.pending (.call hplain hs.nested) (fun _ h => nomatch h)
  refine ⟨?_, ?_⟩
  · show (σ.enteringFunction kind params).Settled _
    rw [he]
    refine Settled.defineAll params hinside fun m hm o ho => ?_
    cases ho
    exact List.mem_append_left _ (List.mem_map_of_mem hm)
  · intro o ho n hn
    cases ho
    exact List.mem_append_right _ hn

/-- What is open at a part. -/
theorem Standing.part : ∀ {v w : Visit}, v.Clean → P v → v.Standing P → w ∈ v.parts → w.Standing P
  | ⟨.expr (.literal _), _, _⟩, _, _, _, _, h | ⟨.expr (.variable _), _, _⟩, _, _, _, _, h
  | ⟨.expr (.receiver _), _, _⟩, _, _, _, _, h | ⟨.expr (.superMethod _ _), _, _⟩, _, _, _, _, h
  | ⟨.expr (.stray _), _, _⟩, _, _, _, _, h | ⟨.args [], _, _⟩, _, _, _, _, h
  | ⟨.stmt (.var _ none), _, _⟩, _, _, _, _, h | ⟨.stmt (.giveBack _ none), _, _⟩, _, _, _, _, h
  | ⟨.stmt (.stray _), _, _⟩, _, _, _, _, h | ⟨.body [], _, _⟩, _, _, _, _, h
  | ⟨.methods [], _, _⟩, _, _, _, _, h => nomatch h
  | ⟨.expr (.grouping _), _, _⟩, _, _, _, hv, h | ⟨.expr (.unary _ _), _, _⟩, _, _, _, hv, h
  | ⟨.expr (.get _ _), _, _⟩, _, _, _, hv, h => by
    obtain rfl := List.mem_singleton.mp h
    exact hv
  | ⟨.expr (.assign _ _), _, _⟩, _, _, _, hv, h => by
    obtain rfl := List.mem_singleton.mp h
    exact standing_expr hv rfl (List.subset_cons_self _ _)
  | ⟨.expr (.binary l _ r), σ, os⟩, _, hc, _, hv, h
  | ⟨.expr (.logical l _ r), σ, os⟩, _, hc, _, hv, h => by
    have hl := (hc.part (w := ⟨.expr l, σ, os⟩) (List.mem_cons_self ..)).behindExpr_eq
    obtain rfl | rfl := of_mem_two h
    · exact standing_expr hv rfl (List.subset_append_left _ _)
    · exact standing_expr hv hl (List.subset_append_right _ _)
  | ⟨.expr (.ternary cond yes no), σ, os⟩, _, hc, _, hv, h => by
    have hcond := (hc.part (w := ⟨.expr cond, σ, os⟩) (List.mem_cons_self ..)).behindExpr_eq
    have hyes := hc.part (w := ⟨.expr yes, σ.behindExpr cond, os⟩) (by simp [parts])
    rw [hcond] at hyes
    obtain rfl | h := List.mem_cons.mp h
    · exact standing_expr hv rfl fun u hu => by simp [Expr.occurrences, hu]
    · obtain rfl | rfl := of_mem_two h
      · exact standing_expr hv hcond fun u hu => by simp [Expr.occurrences, hu]
      · refine standing_expr hv ?_ fun u hu => by simp [Expr.occurrences, hu]
        rw [hcond, hyes.behindExpr_eq]
  | ⟨.expr (.call callee paren args), σ, os⟩, _, hc, _, hv, h => by
    have hcallee := (hc.part (w := ⟨.expr callee, σ, os⟩) (List.mem_cons_self ..)).behindExpr_eq
    obtain rfl | rfl := of_mem_two h
    · exact standing_expr hv rfl (List.subset_append_left _ _)
    · show Reading P (σ.behindExpr callee) os (argOccurrences args)
      rw [hcallee]
      exact Reading.mono hv (List.subset_append_right _ _)
  | ⟨.expr (.set object _ value), σ, os⟩, _, hc, _, hv, h => by
    have hvalue := (hc.part (w := ⟨.expr value, σ, os⟩) (List.mem_cons_self ..)).behindExpr_eq
    obtain rfl | rfl := of_mem_two h
    · exact standing_expr hv rfl (List.subset_append_right _ _)
    · exact standing_expr hv hvalue (List.subset_append_left _ _)
  | ⟨.args (e :: es), σ, os⟩, _, hc, _, hv, h => by
    have he := (hc.part (w := ⟨.expr e, σ, os⟩) (List.mem_cons_self ..)).behindExpr_eq
    have hv : σ.Reading P os (e.occurrences ++ argOccurrences es) := hv
    obtain rfl | rfl := of_mem_two h
    · exact hv.mono (List.subset_append_left _ _)
    · show Reading P (σ.behindExpr e) os (argOccurrences es)
      rw [he]
      exact hv.mono (List.subset_append_right _ _)
  | ⟨.stmt (.expr _), _, _⟩, _, _, _, hv, h | ⟨.stmt (.print _), _, _⟩, _, _, _, hv, h => by
    obtain rfl := List.mem_singleton.mp h
    exact hv.1.reading
  | ⟨.stmt (.var name (some e)), σ, os⟩, _, hc, hP, hv, h => by
    obtain rfl := List.mem_singleton.mp h
    have hi : (σ.initializing name).Silent :=
      (hc.part (List.mem_singleton_self _)).silent.of_le (le_behindExpr e _)
    exact hv.1.initializing hP hc.regular.1 (declares_stmt hv rfl) hi
  | ⟨.stmt (.block body), σ, os⟩, _, hc, _, hv, h => by
    obtain rfl := List.mem_singleton.mp h
    exact standing_block hc.regular hv.1
  | ⟨.stmt (.branch cond yes none), σ, os⟩, _, hc, _, hv, h
  | ⟨.stmt (.loop cond yes), σ, os⟩, _, hc, _, hv, h => by
    have hcond := (hc.part (w := ⟨.expr cond, σ, os⟩) (List.mem_cons_self ..)).behindExpr_eq
    obtain rfl | rfl := of_mem_two h
    · exact hv.1.reading
    · exact standing_stmt hv hcond hc.regular.2.2
  | ⟨.stmt (.branch cond yes (some no)), σ, os⟩, _, hc, _, hv, h => by
    have hcond := (hc.part (w := ⟨.expr cond, σ, os⟩) (List.mem_cons_self ..)).behindExpr_eq
    have hyes := hc.part (w := ⟨.stmt yes, σ.behindExpr cond, os⟩) (by simp [parts])
    rw [hcond] at hyes
    obtain rfl | h := List.mem_cons.mp h
    · exact hv.1.reading
    · obtain rfl | rfl := of_mem_two h
      · exact standing_stmt hv hcond hc.regular.2.1.2
      · refine standing_stmt hv ?_ hc.regular.2.2.2
        rw [hcond, hyes.behindStmt_eq hv.1.pending, behind_of_declared hc.regular.2.1.2]
  | ⟨.stmt (.function decl), σ, os⟩, _, hc, _, hv, h => by
    obtain rfl := List.mem_singleton.mp h
    have hd : (σ.declare decl.name).Silent :=
      (hc.part (List.mem_singleton_self _)).silent.of_le
        ((le_define _ decl.name).trans (le_behindFunction .function decl _))
    refine ⟨?_, fun _ _ _ hn => nomatch hn⟩
    show ((σ.declare decl.name).define decl.name).Settled os
    rw [define_declare (fresh_of_silent hd)]
    exact hv.1.define (declares_stmt hv rfl)
  | ⟨.stmt (.giveBack keyword (some e)), σ, os⟩, _, hc, _, hv, h => by
    obtain rfl := List.mem_singleton.mp h
    have hg := givingBack_of_silent
      ((hc.part (List.mem_singleton_self _)).silent.of_le (le_behindExpr e (σ.givingBack keyword)))
    show (σ.givingBack keyword).Reading P os e.occurrences
    rw [hg]
    exact hv.1.reading
  | ⟨.stmt (.classDecl name none ms), σ, os⟩, _, hc, _, hv, h => by
    obtain rfl := List.mem_singleton.mp h
    have hd := declaringClass_of_silent
      ((hc.part (List.mem_singleton_self _)).silent.of_le
        (le_behindMethods ms ((σ.declaringClass name).enter ["this"])))
    exact ⟨settled_class hv.1 (declares_stmt hv rfl) hd, fun _ _ _ hn => nomatch hn⟩
  | ⟨.stmt (.classDecl name (some use) ms), σ, os⟩, _, hc, _, hv, h => by
    have huse := hc.part (w := ⟨.expr (.variable use), σ.inheriting name use, os⟩)
      (List.mem_cons_self ..)
    have hi := (inheriting_of_silent (huse.silent.of_le (le_behindExpr (.variable use) _))).1
    obtain rfl | rfl := of_mem_two h
    · exact standing_superclass hv hi
    · refine ⟨settled_subclass hv.1 (declares_stmt hv rfl) ?_, fun _ _ _ hn => nomatch hn⟩
      rw [huse.behindExpr_eq, hi]
  | ⟨.body (s :: body), σ, os⟩, _, hc, _, hv, h => by
    obtain ⟨hstmt, hbody⟩ := standing_body hc hv
    obtain rfl | rfl := of_mem_two h
    · exact hstmt
    · exact hbody
  | ⟨.function kind ⟨name, params, body⟩, σ, os⟩, _, hc, _, hv, h => by
    obtain rfl := List.mem_singleton.mp h
    exact standing_function hc hv.1
  | ⟨.methods (m :: ms), σ, os⟩, _, hc, _, hv, h => by
    have hm := (hc.part (w := ⟨.function (methodKind m.name) m, σ, os⟩)
      (List.mem_cons_self ..)).behindFunction_eq hv.1.pending
    obtain rfl | rfl := of_mem_two h
    · exact ⟨hv.1, fun _ _ _ hn => nomatch hn⟩
    · refine ⟨?_, fun _ _ _ hn => nomatch hn⟩
      show (σ.behindFunction (methodKind m.name) m).Settled os
      rw [hm]
      exact hv.1

end Visit

/-! ### Programs -/

/-- Places of programs without reports, with all their parts. -/
structure Stock (P : Visit → Prop) : Prop where
  clean : ∀ {v : Visit}, P v → v.Clean
  standing : ∀ {v : Visit}, P v → v.Standing P
  part : ∀ {v w : Visit}, P v → w ∈ v.parts → P w

/-- The whole of a program, at the top level. -/
def Visit.whole (program : List Stmt) : Visit := ⟨.body program, .initial, []⟩

/-- Binding the names of one of the programs comes by the place. -/
def VisitedIn (programs : List (List Stmt)) (v : Visit) : Prop :=
  ∃ program ∈ programs, Visited program v

theorem stock_visitedIn {programs : List (List Stmt)}
    (h : ∀ program ∈ programs, (Visit.whole program).Clean) : Stock (VisitedIn programs) := by
  have clean : ∀ {program v}, program ∈ programs → Visited program v → v.Clean := by
    intro program v hp hv
    induction hv with
    | program => exact h program hp
    | part _ hw ih => exact ih.part hw
  refine ⟨fun ⟨_, hp, hv⟩ => clean hp hv, ?_, fun ⟨p, hp, hv⟩ hw => ⟨p, hp, .part hv hw⟩⟩
  rintro v ⟨program, hp, hv⟩
  induction hv with
  | program =>
    refine ⟨⟨.globals, .globals, ?_, rfl⟩, ?_⟩
    · exact fun _ hs => nomatch hs
    · exact fun _ ho => nomatch ho
  | part hv hw ih => exact ih.part (clean hp hv) ⟨program, hp, hv⟩ hw

end Lox
