/-
# Returns stay inside their calls

No statement of the top level of an accepted program gives anything back. The
methods named `init`, and no other functions, are initializers at run time, as
they were when names were bound; their bodies give back no value. Whichever
way an initializer is called, it results in the instance that it is bound to:
by its class, which makes the instance, as a property of an instance, as one
of `super`, or as a bound method that was kept. A bound method is bound to one
instance for ever.

Each call that a session comes to is followed from the moment at which it
begins: the world is sound there and the store founded, and so they are when
the callee and the arguments are evaluated.

Key definitions: `Lox.CallYields`, `Lox.NewlyBound`.
Key theorems: `Lox.Yields.receiver`, `Lox.callYields_of_bound`, `Lox.next_of_accepted`,
`Lox.initializers_yield_receivers`.
-/
import Lox.Proofs.Dispatch.Receivers

namespace Lox

open Procedure

/-! ### Evaluations that end -/

section

variable {P : Visit → Prop} {w : World} {free : Option FrameId} {α : Type}

/-- Where a run leads to that is not watched. -/
theorem Holds.quiet {run : Watch → Run α} {Q : World → α → Prop} {a : α} {s' : Store}
    (h : Holds P free w run Q) (hrun : run .quiet w.store = (.ok a, s')) :
    ∃ w', w'.store = s' ∧ w.Le free w' ∧ Sound P w' ∧ Q w' a := by
  obtain ⟨w', r, hle, hs, hr, -, hruns⟩ := h
  obtain ⟨rfl, rfl⟩ := Prod.mk.inj (hrun.symm.trans (hruns .quiet .quiet))
  exact ⟨w', rfl, hle, hs, hr⟩

end

/-! ### Places -/

section

variable {P : Visit → Prop} (hst : Stock P) {e : Expr} {σ : Scoping} {os : List Opener}
  (hP : P ⟨.expr e, σ, os⟩)

include hst hP

/-- Only a call is bound to one; its callee and its arguments are read where it is. -/
theorem call_of_bound {callee : Expr} {paren : Mark} {args : List Expr}
    (h : σ.boundExpr e = .call callee paren args) :
    ∃ written arguments, P ⟨.expr written, σ, os⟩ ∧ P ⟨.args arguments, σ, os⟩ ∧
      callee = σ.boundExpr written ∧ args = σ.boundArgs arguments := by
  have hlabel := label_boundExpr hst hP
  rw [h] at hlabel
  cases e with
  | call written paren' arguments =>
    have hwritten : P ⟨.expr written, σ, os⟩ := hst.part hP (List.mem_cons_self ..)
    have harguments : P ⟨.args arguments, σ.behindExpr written, os⟩ :=
      hst.part hP (by simp [Visit.parts])
    have hbound : σ.boundExpr (.call written paren' arguments) =
        .call (σ.boundExpr written) paren' ((σ.behindExpr written).boundArgs arguments) := rfl
    rw [hst.behindExpr_eq hwritten] at harguments hbound
    cases hbound.symm.trans h
    exact ⟨written, arguments, hwritten, harguments, rfl, rfl⟩
  | stray node => exact (hst.clean hP).regular.elim
  | _ => simp [Expr.label] at hlabel

/-- Only a property is bound to one. -/
theorem get_of_bound {object : Expr} {name : Mark} (h : σ.boundExpr e = .get object name) :
    ∃ written, e = .get written name ∧ object = σ.boundExpr written := by
  have hlabel := label_boundExpr hst hP
  rw [h] at hlabel
  cases e with
  | get written name =>
    cases h
    exact ⟨written, rfl, rfl⟩
  | stray node => exact (hst.clean hP).regular.elim
  | _ => simp [Expr.label] at hlabel

end

/-! ### Calls -/

/-- What a completed call comes to. Its callee is evaluated first and then its arguments, while bound
methods stay bound to their instances; with what these are it yields the result. An initializer that
is called as a property of an instance results in this instance, and as one of `super` in what `this`
means there. -/
structure CallYields (P : Visit → Prop) (turns steps spent : Nat) (callee : Expr) (args : List Expr)
    (f : FrameId) (s : Store) (r : Value) (s' : Store) : Prop where
  parts : ∃ v s₁ vs s₂,
    (Evaluator.within .recorded turns steps spent).expr callee f s = (.ok v, s₁) ∧
    evalArgs (.within .recorded turns steps spent) args f s₁ = (.ok vs, s₂) ∧
    (∀ id i, s₁.BoundTo id i → s₂.BoundTo id i) ∧
    Yields P (.within .recorded turns steps spent) v vs s₂ r s'
  property : ∀ object name, callee = .get object name → name.text = Store.initName → ∃ n o s₀,
    (Evaluator.within .recorded turns n callee.stepsIn).expr object f s = (.ok o, s₀) ∧
    ∀ i, o = .instanceRef i → (s₀.instanceObject i).fields.get? Store.initName = none →
      r = .instanceRef i
  superclass : ∀ use name, callee = .superMethod use name → name.text = Store.initName →
    s.get? f "this" = some r

/-- Where there is no such field, a property is a method of the class. -/
theorem instanceProperty_eq {s : Store} {i : InstanceId} {name : Mark}
    (h : (s.instanceObject i).fields.get? name.text = none) :
    instanceProperty i name s = (match s.findMethod? (s.instanceObject i).cls name.text with
      | some m => bindMethod m (.instanceRef i)
      | none => Run.fail (.undefinedProperty name.text) name.offset) s := by
  have hfield : Procedure.read (ε := Fault)
      (fun s : Store => (s.instanceObject i).fields.get? name.text) s = (.ok none, s) := by
    rw [← h]
    rfl
  have hmethod : Procedure.read (ε := Fault)
      (fun s : Store => s.findMethod? (s.instanceObject i).cls name.text) s =
        (.ok (s.findMethod? (s.instanceObject i).cls name.text), s) := rfl
  refine (bind_ok hfield).trans ((bind_ok hmethod).trans ?_)
  cases s.findMethod? (s.instanceObject i).cls name.text <;> rfl

/-- The value is an initializer that was bound to the instance just now. -/
def NewlyBound (P : Visit → Prop) (i : InstanceId) (v : Value) (s : Store) : Prop :=
  ∃ w m, Bindable P w Store.initName m ∧ v = .method w.store.methods.size ∧
    s = w.store.withBound m (.instanceRef i)

section

variable {P : Visit → Prop} {i : InstanceId} {r v : Value} {s s' s₁ : Store}

/-- An initializer that was bound to an instance results in it when it is called later. -/
theorem Yields.receiver {inner : Evaluator} {vs : List Value} (hst : Stock P)
    (hb : NewlyBound P i v s₁) (hf : s₁.Founded fun _ => True) (hle : s₁.Grows s)
    (h : Yields P inner v vs s r s') : r = .instanceRef i := by
  obtain ⟨w, m, hm, rfl, rfl⟩ := hb
  obtain ⟨hbound, hfunction⟩ := w.store.boundTo_withBound m i
  have hlt : m < (w.store.withBound m (.instanceRef i)).functions.size := by
    cases hm with
    | of hid _ _ _ _ _ => exact hid
  have hinit : (s.function (s.method w.store.methods.size).function).isInitializer = true := by
    rw [hle.method _ hbound.1, hfunction, hle.function m hlt]
    exact (hm.keepsKind hst).2.mpr rfl
  obtain ⟨j, rfl, hj⟩ := (h.method _ rfl).2 hinit
  rw [hj.unique (hbound.mono hf hle)]

end

section

variable {P : Visit → Prop} (hst : Stock P) {w : World} {σ : Scoping} {os : List Opener} {f : FrameId}
  {turns steps spent : Nat} {name : Mark} {args : List Expr} {r v : Value} {s₁ s₃ : Store}
  (hs : Sound P w) (hm : Matches w σ.scopes os f)

include hst hs hm

/-- Where an initializer is found as a property of an instance that has no such field, it is bound to
the instance. -/
theorem newlyBound_of_property {object : Expr} (hP : P ⟨.expr object, σ, os⟩)
    (hname : name.text = Store.initName)
    (h : (Evaluator.within .recorded turns steps spent).expr (.get (σ.boundExpr object) name) f
      w.store = (.ok v, s₁)) :
    ∃ n o s₀, (Evaluator.within .recorded turns n
        (Expr.get (σ.boundExpr object) name).stepsIn).expr (σ.boundExpr object) f w.store =
          (.ok o, s₀) ∧
      ∀ i, o = .instanceRef i → (s₀.instanceObject i).fields.get? Store.initName = none →
        NewlyBound P i v s₁ := by
  obtain ⟨n, h⟩ := Evaluator.exists_of_expr steps spent h
  obtain ⟨o, s₀, ho, h⟩ := exists_of_bind h
  refine ⟨n, o, s₀, ho, ?_⟩
  rintro i rfl hfield
  rw [← Evaluator.watched_quiet] at ho
  obtain ⟨w₀, rfl, -, hs₀, -⟩ :=
    ((keeps_watched hst turns n _).expr hP hs (.inside hm)).quiet ho
  rw [getProperty, instanceProperty_eq (hname ▸ hfield), hname] at h
  cases hfound : w₀.store.findMethod? (w₀.store.instanceObject i).cls Store.initName with
  | none =>
    rw [hfound] at h
    cases h
  | some m =>
    rw [hfound] at h
    cases (bindMethod_eq ..).symm.trans h
    exact ⟨w₀, m, hs₀.findMethod? hfound, rfl, rfl⟩

/-- Where an initializer is found as one of `super`, it is bound to what `this` means. -/
theorem newlyBound_of_super {use : NameUse} (hP : P ⟨.expr (.superMethod use name), σ, os⟩)
    (hf : w.store.Founded fun _ => True)
    (hl : Lies (fun _ => True) w.store f (σ.boundExpr (.superMethod use name)).supers)
    (hname : name.text = Store.initName)
    (h : (Evaluator.within .recorded turns steps spent).expr (σ.boundExpr (.superMethod use name)) f
      w.store = (.ok v, s₁)) :
    ∃ i, w.store.get? f "this" = some (.instanceRef i) ∧ NewlyBound P i v s₁ := by
  obtain ⟨n, h⟩ := Evaluator.exists_of_expr steps spent h
  rw [Scoping.boundExpr_superMethod] at h
  obtain ⟨d, a, b, hd, ha, hb, hparent, hnearest, hholder, hbinds⟩ := superMethod_frames hst
    ⟨hf.root, hf.outermost⟩ hP (congrArg (some ∘ Site.expr) (Scoping.boundExpr_superMethod ..))
    (.inside hm)
  obtain ⟨_, c, methods, -, hfounds, -⟩ := hl.founded a hnearest
  obtain ⟨receiver, hthis⟩ := hbinds.get?
  obtain ⟨i, rfl⟩ := hf.receiver hthis
  have heq := superProperty_eq hd ha hb hfounds.superclass hthis name
  rw [hname] at heq
  have h := heq.symm.trans h
  refine ⟨i, ?_, ?_⟩
  · rw [Store.get?, hholder]
    exact hthis
  · cases hfound : w.store.findMethod? c Store.initName with
    | none =>
      rw [hfound] at h
      cases h
    | some m =>
      rw [hfound] at h
      cases (bindMethod_eq ..).symm.trans h
      exact ⟨w, m, hs.findMethod? hfound, rfl, rfl⟩

/-- A call that is completed at a place, in a frame that matches. -/
theorem callYields_of_bound {e callee : Expr} {paren : Mark} (hP : P ⟨.expr e, σ, os⟩)
    (hbound : σ.boundExpr e = .call callee paren args) (hf : w.store.Founded fun _ => True)
    (hl : Lies (fun _ => True) w.store f (Expr.call callee paren args).supers)
    (h : evalExpr (.within .recorded turns steps spent) (.call callee paren args) f w.store =
      (.ok r, s₃)) :
    CallYields P turns steps spent callee args f w.store r s₃ := by
  obtain ⟨written, arguments, hPcallee, hPargs, rfl, rfl⟩ := call_of_bound hst hP hbound
  have hregular := Expr.regular_bound (σ := σ) (hst.clean hP).regular
  rw [hbound] at hregular
  have hkeeps := keeps_watched hst turns steps spent
  have htraces := Evaluator.traces_watched (H := fun _ => True) turns steps spent
  rw [← Evaluator.watched_quiet] at h
  obtain ⟨v, s₁, hv, h⟩ := exists_of_bind h
  obtain ⟨vs, s₂, hvs, hcall⟩ := exists_of_bind h
  -- the callee
  obtain ⟨w₁, rfl, hle₁, hs₁, hknown⟩ := (hkeeps.expr hPcallee hs (.inside hm)).quiet hv
  obtain ⟨hgrows₁, hf₁⟩ := (htraces.expr hregular.1 hf hl.left).quiet (fun _ => trivial) hv
  -- the arguments
  have hm₁ := hm.mono hs.toFramed hs₁.toFramed hle₁
  obtain ⟨w₂, rfl, hle₂, hs₂, -⟩ := (Holds.evalArgs hst hkeeps hPargs hs₁ hm₁).quiet hvs
  obtain ⟨hgrows₂, hf₂⟩ := (Traced.evalArgs htraces hregular.2 hf₁ (hl.right.mono hf hgrows₁)).quiet
    (fun _ => trivial) hvs
  rw [Evaluator.watched_quiet] at hv hvs hcall
  have hyields :=
    yields_of_callWith hst hs₂ hf₂ (hknown.mono hs₁.toFramed hs₂.toFramed hle₂) hcall
  refine ⟨⟨v, _, vs, _, hv, hvs, fun id i => .mono hf₁ hgrows₂, hyields⟩, fun object name hget hname => ?_,
    fun use name hsuper hname => ?_⟩
  · obtain ⟨object, rfl, rfl⟩ := get_of_bound hst hPcallee hget
    obtain ⟨n, o, s₀, ho, hnew⟩ := newlyBound_of_property hst hs hm
      (hst.part hPcallee (List.mem_singleton_self _)) hname hv
    exact ⟨n, o, s₀, ho, fun i hi hfield => hyields.receiver hst (hnew i hi hfield) hf₁ hgrows₂⟩
  · obtain ⟨written, rfl, -⟩ := superMethod_of_bound hst hPcallee hsuper
    obtain ⟨i, hthis, hnew⟩ := newlyBound_of_super hst hs hm hPcallee hf hl.left hname hv
    rw [hthis, hyields.receiver hst hnew hf₁ hgrows₂]

end

/-! ### Sessions -/

namespace Session

/-- A session keeps its store founded and lets it grow. -/
theorem grows_after (inputs : List Input) : ∀ {session : Session},
    session.store.Founded (fun _ => True) → (session.after inputs).store.Founded (fun _ => True) ∧
      session.store.Grows (session.after inputs).store := by
  induction inputs with
  | nil => exact fun hs => ⟨hs, .refl _⟩
  | cons input inputs ih =>
    intro session hs
    obtain ⟨⟨hs', hle⟩, -⟩ := grows_feed hs
      fun t (_ : session.Reaches input t) => trivial
    obtain ⟨hs'', hle'⟩ := ih hs'
    exact ⟨hs'', hle.trans hle'⟩

/-- A moment of a session is followed by the rest of it. -/
theorem grows_of_reaches {limits : Limits} {clock : Clock} {earlier : List Input} {input : Input}
    {t : Moment} (ht : ((Session.start limits clock).after earlier).Reaches input t)
    (later : List Input) : t.Lies (fun _ => True) ∧
      t.store.Grows ((Session.start limits clock).after (earlier ++ input :: later)).store := by
  have hstart : (Session.start limits clock).store.Founded fun _ => True := .initial clock
  obtain ⟨⟨hfed, -⟩, hmoments⟩ := grows_feed (grows_after earlier hstart).1
    fun t (_ : ((Session.start limits clock).after earlier).Reaches input t) => trivial
  obtain ⟨hlies, hle⟩ := hmoments t ht
  refine ⟨hlies, ?_⟩
  rw [show earlier ++ input :: later = (earlier ++ [input]) ++ later by simp, after, List.foldl_append]
  show t.store.Grows ((((Session.start limits clock).after (earlier ++ [input])).after later).store)
  rw [after_append]
  exact hle.trans (grows_after later hfed).2

end Session

/-- The statements of the top level of an accepted program give nothing back, however far they are
followed, and wherever they start. -/
theorem next_of_accepted {limits : Limits} {input : Input} {a : Accepted} {stmts : List Stmt}
    (ha : input.accepted? limits = some a) (hcode : a.code = .program stmts) {stmt : Stmt}
    (hstmt : stmt ∈ stmts) (turns steps spent : Nat) (f : FrameId) :
    ((Evaluator.within .recorded turns steps spent).stmt stmt f).Results (· = .next) := by
  obtain ⟨hclean, hbound⟩ := accepted_spec ha
  cases hbound with
  | expression e => cases hcode
  | program written =>
    cases hcode
    have hst : Stock (VisitedIn [written]) := stock_visitedIn fun program hp => by
      cases List.mem_singleton.mp hp
      exact hclean
    have hreturns : bodyReturnsIn .none (Scoping.initial.boundBody written) :=
      bodyReturnsIn_boundBody hst ⟨written, List.mem_singleton_self _, .program⟩
    intro s flow s' hrun
    have hallows := (Evaluator.results_within .none .recorded turns steps spent).1 stmt f
      (returnsIn_of_mem hreturns hstmt) s flow s' hrun
    cases flow with
    | next => rfl
    | returning v => exact absurd rfl hallows.1

/-- **Returns stay inside their calls, and initializers yield their receivers.** The statements of the
top level of an accepted program give nothing back. At every moment of a session the methods named
`init`, and no others, are initializers, each read at a place of the programs so far as an initializer
if it is one, and then its body gives back no value. A bound method stays bound to its instance till
the end of the session, whatever follows. And wherever a call is evaluated, it comes to what it should
when it is completed: initializers result in the instances that they are bound to, and classes in new
instances of their own. -/
theorem initializers_yield_receivers (limits : Limits) (clock : Clock) (earlier : List Input)
    (input : Input) :
    (∀ a stmts, input.accepted? limits = some a → a.code = .program stmts → ∀ stmt ∈ stmts,
      ∀ turns steps spent f,
        ((Evaluator.within .recorded turns steps spent).stmt stmt f).Results (· = .next)) ∧
    ∀ t, ((Session.start limits clock).after earlier).Reaches input t →
      (∀ c name m, (t.store.classObject c).methods.get? name = some m →
        t.store.KeepsKind (VisitedIn (writtenPrograms limits (earlier ++ [input]))) m ∧
          ((t.store.function m).isInitializer = true ↔ name = Store.initName)) ∧
      (∀ id i, t.store.BoundTo id i → ∀ later,
        ((Session.start limits clock).after (earlier ++ input :: later)).store.BoundTo id i) ∧
      ∀ callee paren args, t.site = .expr (.call callee paren args) → ∀ turns steps spent r s,
        evalExpr (.within .recorded turns steps spent) (.call callee paren args) t.frame t.store =
            (.ok r, s) →
          CallYields (VisitedIn (writtenPrograms limits (earlier ++ [input]))) turns steps spent callee
            args t.frame t.store r s := by
  have hst := stock_written limits (earlier ++ [input])
  refine ⟨fun a stmts ha hcode stmt hstmt turns steps spent f =>
    next_of_accepted ha hcode hstmt turns steps spent f, fun t ht => ?_⟩
  obtain ⟨w, ⟨-, hs⟩, v, hP, hv, hruns⟩ := Session.explained_of_reaches ht
  obtain ⟨hfounded, hlies⟩ := (Session.grows_of_reaches ht []).1
  refine ⟨fun c name m hmethod => (hs.methods c name m hmethod).keepsKind hst,
    fun id i hbound later => hbound.mono hfounded (Session.grows_of_reaches ht later).2,
    fun callee paren args hsite turns steps spent r s hcall => ?_⟩
  rw [hsite] at hv hlies
  obtain ⟨c, σ, os⟩ := v
  cases c with
  | args _ | body _ | function _ _ | methods _ | stmt _ => cases hv
  | expr e =>
    have hbound := Site.expr.inj (Option.some.inj hv)
    refine callYields_of_bound hst hs (hruns.matches fun use he => ?_) hP hbound hfounded hlies hcall
    subst he
    cases (Scoping.boundExpr_variable use).symm.trans hbound

/-- The moment is that of a call of a property, which results in the first instance. -/
def Moment.callsProperty (limits : Limits) (t : Moment) : Bool :=
  match t.site with
  | .expr (.call (.get object name) paren args) =>
    (evalExpr (.ofLimits limits) (.call (.get object name) paren args) t.frame t.store).1 =
      .ok (.instanceRef 0)
  | _ => false

/-- An initializer that gives back nothing is called by its class, and once more by its name. -/
theorem initializer_yields_receiver_again :
    let input : Input := .program "class A \x7b init() \x7b return; \x7d \x7d A().init();"
    (∃ a stmts, input.accepted? ⟨60, 5⟩ = some a ∧ a.code = .program stmts ∧ ∀ stmt ∈ stmts,
      ((Evaluator.ofLimits ⟨60, 5⟩).stmt stmt Store.globals).Results (· = .next)) ∧
    ∃ t callee paren args s, (Session.start ⟨60, 5⟩ (.still ⟨0⟩)).Reaches input t ∧
      t.site = .expr (.call callee paren args) ∧
      evalExpr (.ofLimits ⟨60, 5⟩) (.call callee paren args) t.frame t.store =
        (.ok (.instanceRef 0), s) ∧
      CallYields (VisitedIn (writtenPrograms ⟨60, 5⟩ [input])) 5 60 0 callee args t.frame t.store
        (.instanceRef 0) s := by
  intro input
  obtain ⟨hreturns, hmoments⟩ := initializers_yield_receivers ⟨60, 5⟩ (.still ⟨0⟩) [] input
  have hpasses : (Session.start ⟨60, 5⟩ (.still ⟨0⟩)).passes input (Moment.callsProperty ⟨60, 5⟩) =
      true := by
    decide +kernel
  obtain ⟨t, ht, hcalls⟩ := Session.reaches_of_passes (.initial _) hpasses
  have haccepted : ((input.accepted? ⟨60, 5⟩).any fun a => a.code matches .program _) = true := by
    decide +kernel
  refine ⟨?_, ?_⟩
  · obtain ⟨a, ha, hprogram⟩ := (Option.any_eq_true _ _).mp haccepted
    cases hcode : a.code with
    | program stmts =>
      exact ⟨a, stmts, ha, hcode, fun stmt hstmt => hreturns a stmts ha hcode stmt hstmt 5 60 0 _⟩
    | expression e =>
      rw [hcode] at hprogram
      cases hprogram
  · unfold Moment.callsProperty at hcalls
    split at hcalls
    · rename_i object name paren args hsite
      have hcall : evalExpr (.ofLimits ⟨60, 5⟩) (.call (.get object name) paren args) t.frame t.store =
          (.ok (.instanceRef 0), _) :=
        Prod.ext (of_decide_eq_true hcalls) rfl
      exact ⟨t, _, paren, args, _, ht, hsite, hcall,
        (hmoments t ht).2.2 _ paren args hsite 5 60 0 _ _ hcall⟩
    · cases hcalls

end Lox
