/-
# What `super` means

A use of `super` asks for a method of the superclass of the class statement
around it, or rather of the execution of that statement which made the method
that runs. The frame in which this execution made its methods is as many
frames out as the use records; it binds the class that the superclass had been
when the execution began. One frame further in is the frame of the receiver,
which is what `this` means there. So the method that comes out is the nearest
one along the superclasses of that class, bound to that receiver, whatever the
class of the receiver is and whatever has become of the superclass's name.

The frames on the way are told from those that mirror the scopes of the place,
and who made them from the history of the session.

Key definitions: `Lox.Came`, `Lox.Store.withBound`.
Key theorems: `Lox.Session.founded_after`, `Lox.superMethod_frames`,
`Lox.super_dispatches_statically`.
-/
import Mathlib.Data.List.Induction
import Lox.Proofs.Dispatch.Superclasses
import Lox.Proofs.Dispatch.Tracing
import Lox.Proofs.Running.Walking

namespace Lox

open Procedure

/-! ### Sessions -/

/-- The run ends at moments of a sort, in its own way. -/
def Watch.stopIf (p : Moment → Bool) (m : Misplaced) : Watch := fun site f s =>
  if p ⟨site, f, s⟩ then (.error (.misplaced m), s) else (.ok (), s)

theorem Watch.lawful_stopIf (p : Moment → Bool) (m : Misplaced) : (Watch.stopIf p m).Lawful := by
  intro site f s
  unfold stopIf
  split
  · exact .inr ⟨m, rfl⟩
  · exact .inl rfl

theorem Watch.of_stopIf {p : Moment → Bool} {m m' : Misplaced} {t : Moment}
    (h : Watch.stopIf p m t.site t.frame t.store = (.error (.misplaced m'), t.store)) :
    p t = true := by
  unfold stopIf at h
  split at h
  · assumption
  · cases h

namespace Traced

variable {H : Moment → Prop} {s : Store}

/-- What a run halts with is reported, or escapes; where a watch ends it no report is made. -/
theorem reported {run : Watch → Run Unit} {Q : Store → Unit → Prop} (h : Traced H run s Q)
    (start : Unit → Option Int) :
    Traced H (fun W => reported start (run W)) s fun _ _ => True := by
  intro hH
  have hcomes : ∀ t, Comes run s t → Comes (fun W => Lox.reported start (run W)) s t :=
    fun t ht m => reported_error (ht m)
  obtain ⟨r, s', hle, hs, hr, hrun⟩ := h fun t ht => hH t (hcomes t ht)
  have hends : ∀ r', (∀ W, run W s = (r, s') → Lox.reported start (run W) s = (r', s')) →
      ∀ W : Watch, W.Lawful → Lox.reported start (run W) s = (r', s') ∨
        ∃ t m, Comes (fun W => Lox.reported start (run W)) s t ∧ t.Lies H ∧ t.store.Grows s' ∧
          W t.site t.frame t.store = (.error (.misplaced m), t.store) ∧
          Lox.reported start (run W) s = (.error (.misplaced m), t.store) := by
    intro r' hreport W hW
    obtain heq | ⟨t, m, ht, hlies, hgrows, hstop, heq⟩ := hrun W hW
    · exact .inl (hreport W heq)
    · exact .inr ⟨t, m, hcomes t ht, hlies, hgrows, hstop, reported_error heq⟩
  cases r with
  | ok a => exact ⟨.ok [], s', hle, hs, fun _ _ => trivial, hends _ fun W heq => reported_ok heq⟩
  | error fault =>
    exact ⟨_, s', hle, hs, fun _ _ => trivial, hends _ fun W heq => reported_error heq⟩

theorem interpretWith {inner : Watch → Evaluator} (h : Evaluator.Traces H inner) :
    ∀ {stmts : List Stmt} {s : Store}, bodyRegular stmts → s.Founded H →
      Traced H (fun W => interpretWith (inner W) stmts) s fun _ _ => True
  | [], _, _, hs => pure hs trivial
  | st :: stmts, s, hr, hs => by
    refine ((h.stmt hr.1 hs hs.lies_globals).discard.reported fun _ => st.offset?).bind
      fun s' ds _ hs' _ => ?_
    cases ds with
    | nil => exact interpretWith h hr.2 hs'
    | cons d ds => exact pure hs' trivial

/-- What runs of an accepted input keeps the store founded. -/
theorem code {inner : Watch → Evaluator} (h : Evaluator.Traces H inner) {a : Accepted}
    (hb : a.Bound) (hr : bodyRegular a.written) (hs : s.Founded H) :
    Traced H (fun W => a.code.run (inner W)) s fun _ _ => True := by
  cases hb with
  | program written => exact interpretWith h (bodyRegular_bound hr) hs
  | expression e =>
    have hprint : Traced H (fun W => do
        let v ← (inner W).expr (Scoping.initial.boundExpr e) Store.globals
        Run.print v) s fun _ _ => True :=
      (h.expr (Expr.regular_bound hr.1) hs hs.lies_globals).bind fun _ v _ hs' _ => print hs' v
    exact hprint.reported fun _ => (Scoping.initial.boundExpr e).offset?

end Traced

/-- One of the inputs comes to the moment. -/
def Came (limits : Limits) (clock : Clock) (inputs : List Input) (t : Moment) : Prop :=
  ∃ earlier input later, inputs = earlier ++ input :: later ∧
    ((Session.start limits clock).after earlier).Reaches input t

namespace Session

variable {H : Moment → Prop}

/-- An input keeps the store of a session founded and lets it grow; and at the moments that it comes
to the sites lie in their frames, and the store is yet to grow. -/
theorem grows_feed {session : Session} {input : Input} (hs : session.store.Founded H)
    (hH : ∀ t, session.Reaches input t → H t) :
    ((session.feed input).2.store.Founded H ∧ session.store.Grows (session.feed input).2.store) ∧
      ∀ t, session.Reaches input t → t.Lies H ∧ t.store.Grows (session.feed input).2.store := by
  obtain ⟨a, ha, hfeed⟩ | ⟨hnone, ds, hfeed⟩ := session.feed_eq input
  · have hopening := hs.of_same (t := session.opening) rfl rfl rfl rfl (.of_eq rfl rfl)
    obtain ⟨hclean, hbound⟩ := accepted_spec ha
    obtain ⟨r, s', hle, hs', _, hrun⟩ := Traced.code
      (Evaluator.traces_watched session.limits.turns session.limits.steps 0) hbound
      hclean.regular hopening.2 fun t ht => hH t ⟨a, ha, ht⟩
    have hstore : (session.feed input).2.store = s' := by
      rw [hfeed]
      obtain heq | ⟨t, m, _, _, _, hstop, _⟩ := hrun .quiet Watch.lawful_quiet
      · have heq : session.watched a.code .quiet session.opening = (r, s') := heq
        rw [execute_eq heq]
      · cases hstop
    rw [hstore]
    refine ⟨⟨hs', hopening.1.trans hle⟩, ?_⟩
    rintro t ⟨a', ha', hcomes⟩
    cases ha.symm.trans ha'
    refine of_ends_misplaced (r := r) fun m _ => ?_
    obtain heq | ⟨u, m', _, hlies, hgrows, hstop, _⟩ := hrun _ (Watch.lawful_stopAt t m)
    · exact .inl (Prod.mk.inj (heq.symm.trans (hcomes m))).1
    · obtain ⟨rfl, -⟩ := Watch.stopAt_eq hstop
      exact .inr ⟨hlies, hgrows⟩
  · rw [hfeed]
    refine ⟨⟨hs, .refl _⟩, fun t ⟨a, ha, _⟩ => ?_⟩
    cases hnone.symm.trans ha

/-- An input keeps the store of a session founded, and at the moments that it comes to the sites lie
in their frames. -/
theorem founded_feed {session : Session} {input : Input} (hs : session.store.Founded H)
    (hH : ∀ t, session.Reaches input t → H t) :
    (session.feed input).2.store.Founded H ∧ ∀ t, session.Reaches input t → t.Lies H :=
  ⟨(grows_feed hs hH).1.1, fun t ht => ((grows_feed hs hH).2 t ht).1⟩

/-- The input comes to a moment of the sort: two watches which stop there both say how it ends. -/
def passes (session : Session) (input : Input) (p : Moment → Bool) : Bool :=
  (input.accepted? session.limits).any fun a =>
    [Misplaced.expression "", .statement ""].all fun m =>
      (session.watched a.code (.stopIf p m) session.opening).1 = .error (.misplaced m)

theorem reaches_of_passes {session : Session} {input : Input} {p : Moment → Bool}
    (hs : session.store.Founded fun _ => True) (h : session.passes input p = true) :
    ∃ t, session.Reaches input t ∧ p t = true := by
  obtain ⟨a, ha, hstops⟩ := (Option.any_eq_true _ _).mp h
  have hopening := hs.of_same (t := session.opening) rfl rfl rfl rfl (.of_eq rfl rfl)
  obtain ⟨hclean, hbound⟩ := accepted_spec ha
  obtain ⟨r, s', _, _, _, hrun⟩ := Traced.code
    (Evaluator.traces_watched session.limits.turns session.limits.steps 0) hbound
    hclean.regular hopening.2 fun _ _ => trivial
  refine of_ends_misplaced (r := r) fun m hm => ?_
  obtain heq | ⟨t, m', hcomes, _, _, hstop, _⟩ := hrun _ (Watch.lawful_stopIf p m)
  · have heq : session.watched a.code (.stopIf p m) session.opening = (r, s') := heq
    have hstop := of_decide_eq_true (List.all_eq_true.mp hstops m hm)
    rw [heq] at hstop
    exact .inl hstop
  · exact .inr ⟨t, ⟨a, ha, hcomes⟩, Watch.of_stopIf hstop⟩

/-- The input comes to a site of the sort. -/
def comesTo (session : Session) (input : Input) (p : Site → Bool) : Bool :=
  session.passes input fun t => p t.site

theorem reaches_of_comesTo {session : Session} {input : Input} {p : Site → Bool}
    (hs : session.store.Founded fun _ => True) (h : session.comesTo input p = true) :
    ∃ t, session.Reaches input t ∧ p t.site = true :=
  reaches_of_passes hs h

theorem after_append (session : Session) (earlier : List Input) (input : Input) :
    session.after (earlier ++ [input]) = ((session.after earlier).feed input).2 :=
  List.foldl_append ..

/-- What a session has come to so far founds its store. -/
theorem founded_after (limits : Limits) (clock : Clock) : ∀ (inputs later : List Input),
    ((Session.start limits clock).after inputs).store.Founded (Came limits clock (inputs ++ later)) := by
  intro inputs
  induction inputs using List.reverseRecOn with
  | nil => exact fun _ => .initial clock
  | append_singleton earlier input ih =>
    intro later
    rw [after_append]
    have heq : earlier ++ [input] ++ later = earlier ++ (input :: later) := by simp
    rw [heq]
    exact (founded_feed (ih (input :: later)) fun t ht => ⟨earlier, input, later, rfl, ht⟩).1

end Session

/-- Every moment of a session is one at which a visited place runs. -/
theorem Session.visited_of_reaches {limits : Limits} {clock : Clock} {earlier : List Input}
    {input : Input} {t : Moment} (ht : ((Session.start limits clock).after earlier).Reaches input t) :
    ∃ labels v, VisitedIn (writtenPrograms limits (earlier ++ [input])) v ∧
      v.resolved? = some t.site ∧ Runs ⟨labels, t.store⟩ v t.frame := by
  obtain ⟨w, _, v, hP, hv, hruns⟩ := Session.explained_of_reaches ht
  exact ⟨w.labels, v, hP, hv, hruns⟩

/-! ### The frames around a use of `super` -/

section

variable {scopes : List (Bindings Bool)} {os : List Opener} {kind : ClassKind} {name : String}

/-- Scopes further in than the one that gives a word of a class do not give it. -/
theorem Aligned.not_mem_names_of_word (ha : Aligned scopes os) (hn : Nested kind os)
    (hw : ¬ isPlain name) {d : Nat} (hd : hopsIn? scopes name = some d) {i : Nat} (hi : i < d)
    {o : Opener} (ho : os[i]? = some o) : name ∉ o.names := by
  intro hname
  obtain hl | hg := Opener.mem_names hname
  · exact hw (hn.isPlain_locals o (List.mem_of_getElem? ho) name hl)
  · obtain ⟨d', hd', hle⟩ := ha.hops_le_of_given ho hg
    cases hd.symm.trans hd'
    exact Nat.not_lt.mpr hle hi

variable {w : World} {f : FrameId}

/-- The frame that binds a word of a class is the first on the way outward. -/
theorem Mirrors.first_of_word (hm : Mirrors w scopes os f) (ha : Aligned scopes os)
    (hn : Nested kind os) (hw : ¬ isPlain name) {d : Nat} (hd : hopsIn? scopes name = some d) :
    ∀ i < d, ∀ b, w.store.ancestor? i f = some b → ¬ w.store.Binds b name := by
  intro i hi b hb hbinds
  obtain ⟨_, hscope, _⟩ := hopsIn?_eq_some hd
  have hlt := (List.getElem?_eq_some_iff.mp hscope).1
  obtain ⟨o, ho, hname⟩ := hm.names (Nat.lt_trans hi hlt) hb hbinds
  exact ha.not_mem_names_of_word hn hw hd hi ho hname

end

section

variable {P : Visit → Prop} (hst : Stock P) {e : Expr} {σ : Scoping} {os : List Opener}
  (hP : P ⟨.expr e, σ, os⟩)

include hst hP

/-- The pass of names makes no other kind of expression of one. -/
theorem label_boundExpr : (σ.boundExpr e).label = e.label := by
  cases e with
  | «variable» use =>
    rw [Scoping.boundExpr_variable]
    rfl
  | receiver use =>
    rw [hst.boundExpr_receiver hP]
    rfl
  | assign use value =>
    rw [hst.boundExpr_assign hP]
    rfl
  | superMethod use method =>
    rw [Scoping.boundExpr_superMethod]
    rfl
  | _ => rfl

/-- Only a use of `super` is bound to one. -/
theorem superMethod_of_bound {use : NameUse} {method : Mark}
    (h : σ.boundExpr e = .superMethod use method) :
    ∃ written, e = .superMethod written method ∧ use = ⟨written.name, σ.hops? written.name.text⟩ := by
  have hlabel := label_boundExpr hst hP
  rw [h] at hlabel
  cases e with
  | superMethod written m =>
    cases (Scoping.boundExpr_superMethod ..).symm.trans h
    exact ⟨written, rfl, rfl⟩
  | stray node => exact (hst.clean hP).regular.elim
  | _ => simp [Expr.label] at hlabel

end

/-- Where `super` is used, the frame that it records is the first outward that binds `super`; and one
frame further in is the first outward that binds `this`. -/
theorem superMethod_frames {P : Visit → Prop} (hst : Stock P) {w : World} {f : FrameId}
    (hrooted : w.store.Rooted) {v : Visit} (hP : P v) {use : NameUse} {method : Mark}
    (hv : v.resolved? = some (.expr (.superMethod use method))) (hruns : Runs w v f) :
    ∃ d a b, use.hops = some (d + 1) ∧ w.store.ancestor? (d + 1) f = some a ∧
      w.store.ancestor? d f = some b ∧ (w.store.frame b).parent = some a ∧
      w.store.Nearest "super" f a ∧ w.store.holder? "this" f = some b ∧ w.store.Binds b "this" := by
  obtain ⟨c, σ, os⟩ := v
  cases c with
  | args _ | body _ | function _ _ | methods _ | stmt _ => cases hv
  | expr e =>
    obtain ⟨written, rfl, rfl⟩ := superMethod_of_bound hst hP (Site.expr.inj (Option.some.inj hv))
    have hm : Mirrors w σ.scopes os f := (hruns.matches fun _ h => nomatch h).mirrors
    have hname : written.name.text = "super" := (hst.clean hP).regular
    have hcls := Scoping.cls_of_silent_super (hst.clean hP).silent
    have hreading : σ.Reading P os [⟨.superMethod, written⟩] := hst.standing hP
    have ha := hreading.aligned
    have hn := hreading.nested_cls (show UseKind.superMethod ≠ .variable by decide)
    obtain ⟨d, cls, hthis, hsuper, ho, ho'⟩ := hn.superclass_hops ha hcls
    -- both scopes have their word ready from the start
    obtain ⟨inner, hinner, hready⟩ := ha.given_ready ho (List.mem_singleton.mpr rfl)
    obtain ⟨outer, houter, hready'⟩ := ha.given_ready ho' (List.mem_singleton.mpr rfl)
    obtain ⟨b, hb, hbinds⟩ := hm.binds hinner hready
    obtain ⟨a, ha', hbinds'⟩ := hm.binds houter hready'
    have hlt := Nat.lt_trans (List.getElem?_eq_some_iff.mp hinner).1 (hm.length_lt hrooted)
    refine ⟨d, a, b, ?_, ha', hb, Store.parent_of_ancestor hb ha', ?_, ?_, hbinds⟩
    · rw [hname]
      exact hsuper
    · exact .of_ancestor (hm.first_of_word ha hn not_isPlain_super hsuper) ha' hbinds'
    · exact Store.holder?_of_ancestor hlt (hm.first_of_word ha hn not_isPlain_this hthis) hb hbinds

/-! ### What is found -/

/-- The store with a method bound to a receiver: a new frame inside that of the function binds `this`,
and the new bound method keeps both. -/
def Store.withBound (s : Store) (m : FunctionId) (receiver : Value) : Store :=
  (s.binding (s.function m).frame "this" receiver).withMethod ⟨m, s.frames.size⟩

theorem bindMethod_eq (s : Store) (m : FunctionId) (receiver : Value) :
    bindMethod m receiver s = (.ok (.method s.methods.size), s.withBound m receiver) := rfl

theorem getAt_eq {s : Store} {f a : FrameId} {d : Nat} {name : String} {v : Value}
    (ha : s.ancestor? d f = some a) (hv : (s.frame a).vars.get? name = some v) :
    Run.getAt f d name s = (.ok v, s) := by
  have hb : s.Binds a name := by
    rw [Store.Binds, Bindings.contains, hv]
    rfl
  obtain ⟨u, hu, hvar⟩ := getAt_of_binds ha hb
  cases hv.symm.trans hvar
  exact hu

/-- The use of `super` comes to what finding the method comes to. -/
theorem superProperty_eq {s : Store} {f a b : FrameId} {use : NameUse} {d : Nat} {c : ClassId}
    {receiver : Value} (hd : use.hops = some (d + 1)) (ha : s.ancestor? (d + 1) f = some a)
    (hb : s.ancestor? d f = some b) (hsuper : (s.frame a).vars.get? "super" = some (.classRef c))
    (hthis : (s.frame b).vars.get? "this" = some receiver) (name : Mark) :
    superProperty use name f s = (match s.findMethod? c name.text with
      | some m => bindMethod m receiver
      | none => Run.fail (.undefinedProperty name.text) name.offset) s := by
  have hone : ((d + 1 : Nat) : Int) - 1 = d := by omega
  have hread : Procedure.read (ε := Fault) (fun s : Store => s.methodOf? (.classRef c) name.text) s =
      (.ok (s.findMethod? c name.text), s) := rfl
  unfold superProperty
  rw [hd]
  dsimp only
  rw [hone]
  refine (bind_ok (getAt_eq ha hsuper)).trans ((bind_ok (getAt_eq hb hthis)).trans
    ((bind_ok hread).trans ?_))
  cases s.findMethod? c name.text <;> rfl

/-- **Superclasses are dispatched statically.** Wherever an accepted input comes to a use of `super`,
an execution of the class statement whose methods the use is left open to has made the frame that the
use records, which lies in the one that the statement ran in. With the class that the superclass named
when this execution began, the use comes to the nearest definition of the method along its
superclasses, bound to the instance that `this` means there; and it fails, at the method's name, if
and only if no class on this chain defines the method. The frame one step further in than the recorded
one is there, lies in it, and binds `this`. -/
theorem super_dispatches_statically (limits : Limits) (clock : Clock) (earlier : List Input)
    (input : Input) {t : Moment} {use : NameUse} {name : Mark}
    (ht : ((Session.start limits clock).after earlier).Reaches input t)
    (hsite : t.site = .expr (.superMethod use name)) :
    ∃ execution c methods d a b i,
      Came limits clock (earlier ++ [input]) execution ∧ execution.Founds t.store a c methods ∧
      (use, name) ∈ methodSupers methods ∧
      use.hops = some (d + 1) ∧ t.store.ancestor? (d + 1) t.frame = some a ∧
      t.store.ancestor? d t.frame = some b ∧ (t.store.frame b).parent = some a ∧
      (t.store.frame b).vars.get? "this" = some (.instanceRef i) ∧
      t.store.get? t.frame "this" = some (.instanceRef i) ∧
      (∀ m, t.store.Provides name.text c m → superProperty use name t.frame t.store =
        (.ok (.method t.store.methods.size), t.store.withBound m (.instanceRef i))) ∧
      (superProperty use name t.frame t.store =
          (.error (.error ⟨.undefinedProperty name.text, name.offset⟩), t.store) ↔
        ∀ q, t.store.Inherits c q → (t.store.classObject q).methods.get? name.text = none) := by
  -- the history tells who made the frames, and the scopes where they are
  obtain ⟨hfounded, hlies⟩ := (Session.founded_feed
    (Session.founded_after limits clock earlier [input]) fun t ht => ⟨earlier, input, [], rfl, ht⟩).2 t ht
  obtain ⟨labels, v, hP, hv, hruns⟩ := Session.visited_of_reaches ht
  rw [hsite] at hv hlies
  obtain ⟨d, a, b, hd, ha, hb, hparent, hnearest, hholder, hbinds⟩ := superMethod_frames
    (w := ⟨labels, t.store⟩) (stock_written limits _) ⟨hfounded.root, hfounded.outermost⟩ hP hv hruns
  obtain ⟨execution, c, methods, hcame, hfounds, huses⟩ := hlies.founded a hnearest
  obtain ⟨receiver, hthis⟩ := hbinds.get?
  obtain ⟨i, rfl⟩ := hfounded.receiver hthis
  have heq := superProperty_eq hd ha hb hfounds.superclass hthis name
  refine ⟨execution, c, methods, d, a, b, i, hcame, hfounds, huses (List.mem_singleton_self _), hd, ha,
    hb, hparent, hthis, ?_, fun m hm => ?_, ?_⟩
  · rw [Store.get?, hholder]
    exact hthis
  · rw [heq, Store.findMethod?_eq_some_iff.mpr hm]
    rfl
  · rw [heq, ← Store.findMethod?_eq_none_iff]
    cases t.store.findMethod? c name.text with
    | none => exact iff_of_true rfl rfl
    | some m => exact iff_of_false (fun h => by cases h) (fun h => by cases h)

/-- The site is a use of `super`. -/
def Site.isSuperMethod : Site → Bool
  | .expr (.superMethod ..) => true
  | _ => false

/-- An initializer that uses `super`: its class is executed, and its receiver is an instance. -/
theorem super_dispatches_in_initializer :
    let input : Input := .program "class A \x7b \x7d class B < A \x7b init() \x7b super.m; \x7d \x7d B();"
    ∃ t use name, (Session.start ⟨60, 5⟩ (.still ⟨0⟩)).Reaches input t ∧
      t.site = .expr (.superMethod use name) ∧
      ∃ execution c methods a i, Came ⟨60, 5⟩ (.still ⟨0⟩) [input] execution ∧
        execution.Founds t.store a c methods ∧ (use, name) ∈ methodSupers methods ∧
        t.store.get? t.frame "this" = some (.instanceRef i) := by
  intro input
  have hcomes : (Session.start ⟨60, 5⟩ (.still ⟨0⟩)).comesTo input Site.isSuperMethod = true := by
    decide +kernel
  obtain ⟨t, ht, hsuper⟩ := Session.reaches_of_comesTo (.initial _) hcomes
  obtain ⟨use, name, hsite⟩ : ∃ use name, t.site = .expr (.superMethod use name) := by
    unfold Site.isSuperMethod at hsuper
    split at hsuper
    · rename_i use name hsite
      exact ⟨use, name, hsite⟩
    · cases hsuper
  obtain ⟨execution, c, methods, _, a, _, i, hcame, hfounds, huse, _, _, _, _, _, hthis, _⟩ :=
    super_dispatches_statically ⟨60, 5⟩ (.still ⟨0⟩) [] input ht hsite
  exact ⟨t, use, name, ht, hsite, execution, c, methods, a, i, hcame, hfounds, huse, hthis⟩

end Lox
