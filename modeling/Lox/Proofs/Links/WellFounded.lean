/-
# Links are well founded

The store of a session, from its start through all inputs, goes along one path
of single writes, on which the stores between the inputs lie, and all moments
that the inputs come to (`Lox.Session.WrittenAlong`). In each store of this
path a frame lies in an earlier one and a class is above an earlier one, and
these links are those of the last store: none ever changes
(`Lox.Store.LinkedAs`). So both relations are well founded. From each frame the
way outward ends in the globals, from each class the way through its
superclasses ends, and whatever searches along such a way finds what there is
on all of it. That classes and functions are declared again under the same
names does not matter: a link is to a class, not to its name.

Key definitions: `Lox.Session.WrittenAlong`, `Lox.Store.Outward`, `Lox.Store.Upward`,
`Lox.Store.LinkedAs`.
Key theorems: `Lox.Session.writes_feed`, `Lox.Session.writes_after`,
`Lox.Session.links_well_founded`.
-/
import Lox.Proofs.Dispatch.Initializers
import Lox.Proofs.Links.Writing

namespace Lox

open Procedure

/-! ### Sessions write -/

namespace Writing

variable {s : Store}

/-- What a run halts with is reported, or escapes; where a watch ends it no report is made. -/
theorem reported {run : Watch → Run Unit} {Q : Store → Unit → Prop} (h : Writing run s Q)
    (start : Unit → Option Int) :
    Writing (fun W => Lox.reported start (run W)) s fun _ _ => True := by
  refine h.seen
    (g := fun r => (r.map fun _ => []).tryCatch fun fault =>
      (fault.diagnostic? (start ())).elim (.error fault) fun d => .ok [d])
    (fun p t r hp => ?_) (fun _ => rfl) fun _ _ _ _ _ => trivial
  cases r with
  | ok _ => exact reported_ok hp
  | error fault =>
    refine (reported_error hp).trans ?_
    cases hd : fault.diagnostic? (start ()) <;> simp [Except.map, Except.tryCatch, hd]

variable {inner : Watch → Evaluator} (h : Evaluator.Writes inner)

include h

theorem interpretWith : ∀ (stmts : List Stmt) {s : Store}, s.Grounded →
    Writing (fun W => interpretWith (inner W) stmts) s fun _ _ => True
  | [], _, hs => pure hs trivial
  | st :: stmts, s, hs => by
    refine ((h.stmt st hs hs.root).discard.reported fun _ => st.offset?).bind fun s' ds _ hs' _ => ?_
    cases ds with
    | nil => exact interpretWith stmts hs'
    | cons d ds => exact pure hs' trivial

theorem code (code : Code) (hs : s.Grounded) :
    Writing (fun W => code.run (inner W)) s fun _ _ => True := by
  cases code with
  | program stmts => exact interpretWith h stmts hs
  | expression e =>
    have hprint : Writing (fun W => do
        let v ← (inner W).expr e Store.globals
        Run.print v) s fun _ _ => True :=
      (h.expr e hs hs.root).bind fun _ v _ hs' _ => print hs' v
    exact hprint.reported fun _ => e.offset?

end Writing

namespace Session

/-- Along these stores behind its first one the session writes: its store is among them between the
inputs, and at each moment that an input comes to. -/
structure WrittenAlong (session : Session) (inputs : List Input) (stores : List Store) : Prop where
  path : session.store.Path stores (session.after inputs).store
  rests : ∀ earlier later, inputs = earlier ++ later →
    (session.after earlier).store ∈ session.store :: stores
  moments : ∀ earlier input later, inputs = earlier ++ input :: later →
    ∀ t, (session.after earlier).Reaches input t → t.Passes (session.store :: stores)

/-- An input writes, and comes to moments on the way only. -/
theorem writes_feed {session : Session} (hs : session.store.Grounded) (input : Input) :
    ∃ ps, session.store.Path ps (session.feed input).2.store ∧
      ∀ t, session.Reaches input t → t.Passes (session.store :: ps) := by
  obtain ⟨a, ha, hfeed⟩ | ⟨hnone, ds, hfeed⟩ := session.feed_eq input
  · have hopening : session.store.Write session.opening := .output #[]
    obtain ⟨r, s', ps, hpath, -, -, hrun⟩ := Writing.code
      (Evaluator.writes_watched session.limits.turns session.limits.steps 0) a.code
      (hopening.grounded hs)
    have hstore : (session.feed input).2.store = s' := by
      rw [hfeed]
      obtain heq | ⟨t, m, _, hstop, _⟩ := hrun .quiet Watch.lawful_quiet
      · have heq : session.watched a.code .quiet session.opening = (r, s') := heq
        rw [execute_eq heq]
      · cases hstop
    rw [hstore]
    refine ⟨session.opening :: ps, .write hopening hpath, ?_⟩
    rintro t ⟨a', ha', hcomes⟩
    cases ha.symm.trans ha'
    refine of_ends_misplaced (r := r) fun m _ => ?_
    obtain heq | ⟨u, m', hu, hstop, _⟩ := hrun _ (Watch.lawful_stopAt t m)
    · exact .inl (Prod.mk.inj (heq.symm.trans (hcomes m))).1
    · obtain ⟨rfl, -⟩ := Watch.stopAt_eq hstop
      exact .inr ⟨hu.frame, List.mem_cons_of_mem _ hu.store⟩
  · rw [hfeed]
    refine ⟨[], .here _, fun t ⟨a, ha, _⟩ => ?_⟩
    cases hnone.symm.trans ha

/-- A session writes, input by input. -/
theorem writes_after (inputs : List Input) : ∀ {session : Session}, session.store.Grounded →
    ∃ stores, session.WrittenAlong inputs stores := by
  induction inputs with
  | nil =>
    intro session hs
    refine ⟨[], .here _, fun earlier later heq => ?_, fun earlier input later heq => ?_⟩
    · obtain ⟨rfl, -⟩ := List.append_eq_nil_iff.mp heq.symm
      exact List.mem_cons_self
    · cases (List.append_eq_nil_iff.mp heq.symm).2
  | cons first inputs ih =>
    intro session hs
    obtain ⟨ps, hpath, hmoments⟩ := writes_feed hs first
    obtain ⟨qs, hrest⟩ := ih (hpath.grounded hs _ hpath.last_mem)
    have hfirst : session.store :: ps ⊆ session.store :: (ps ++ qs) :=
      List.cons_subset_cons _ (List.subset_append_left ps qs)
    have hlater : (session.feed first).2.store :: qs ⊆ session.store :: (ps ++ qs) := by
      refine List.cons_subset.mpr ⟨hfirst hpath.last_mem, fun u hu => ?_⟩
      exact List.mem_cons_of_mem _ (List.mem_append_right _ hu)
    refine ⟨ps ++ qs, hpath.append hrest.path, fun earlier later heq => ?_,
      fun earlier input later heq t ht => ?_⟩
    · cases earlier with
      | nil => exact List.mem_cons_self
      | cons e earlier =>
        obtain ⟨rfl, hinputs⟩ := List.cons_eq_cons.mp heq
        exact hlater (hrest.rests earlier later hinputs)
    · cases earlier with
      | nil =>
        obtain ⟨rfl, -⟩ := List.cons_eq_cons.mp heq
        exact ⟨(hmoments t ht).frame, hfirst (hmoments t ht).store⟩
      | cons e earlier =>
        obtain ⟨rfl, hinputs⟩ := List.cons_eq_cons.mp heq
        have hpasses := hrest.moments earlier input later hinputs t ht
        exact ⟨hpasses.frame, hlater hpasses.store⟩

end Session

/-! ### What the links lead to -/

namespace Store

/-- The way outward from a frame ends in the globals, and all searches of frames look through it. -/
structure Outward (s : Store) (f : FrameId) (fs : List FrameId) : Prop where
  chain : Chain s.parent? f fs
  ends : fs.getLast? = some globals
  ancestor : ∀ d, s.ancestor? d f = fs[d]?
  holder : ∀ name, s.holder? name f = fs.find? fun g => (s.frame g).vars.contains name
  get : ∀ name, s.get? f name = fs.findSome? fun g => (s.frame g).vars.get? name

/-- The way through the superclasses of a class ends, and the search for a method looks through it. -/
structure Upward (s : Store) (c : ClassId) (cs : List ClassId) : Prop where
  chain : Chain s.superclass? c cs
  findMethod : ∀ name, s.findMethod? c name =
    cs.findSome? fun q => (s.classObject q).methods.get? name

/-- The frames and classes of the store have the links that they have in the final one, to what is
older; both relations are well founded; each frame has its way outward, those of functions and bound
methods among them, and each class its way through superclasses. -/
structure LinkedAs (s final : Store) : Prop where
  parent : ∀ f < s.frames.size, s.parent? f = final.parent? f
  parent_older : ∀ f p, s.parent? f = some p → p < f
  parents : WellFounded fun p f => s.parent? f = some p
  superclass : ∀ c < s.classes.size, s.superclass? c = final.superclass? c
  superclass_older : ∀ c p, s.superclass? c = some p → p < c
  superclasses : WellFounded fun p c => s.superclass? c = some p
  outward : ∀ f < s.frames.size, ∃ fs, s.Outward f fs
  function : ∀ id, (s.function id).frame < s.frames.size
  method : ∀ id, (s.method id).frame < s.frames.size
  upward : ∀ c, ∃ cs, s.Upward c cs

namespace Grounded

variable {s t : Store} (hs : s.Grounded)

include hs

theorem parent_lt {f p : FrameId} (hp : s.parent? f = some p) : p < f := by
  have hne : f ≠ globals := by
    rintro rfl
    cases hs.outermost.symm.trans hp
  obtain ⟨q, hq, hparent⟩ := hs.parent f (lt_of_parent? hp) hne
  cases hparent.symm.trans hp
  exact hq

/-- The way outward ends in the globals, as only they lie in no frame. -/
theorem getLast?_chain {f : FrameId} {fs : List FrameId} (hf : f < s.frames.size)
    (h : Chain s.parent? f fs) : fs.getLast? = some globals := by
  induction h with
  | @last f hnone =>
    refine congrArg some (Classical.byContradiction fun hne => ?_)
    obtain ⟨p, -, hp⟩ := hs.parent f hf hne
    cases hnone.symm.trans hp
  | link hp hrest ih =>
    have hends := ih (Nat.lt_trans (hs.parent_lt hp) hf)
    cases hrest <;> exact hends

theorem outward {f : FrameId} (hf : f < s.frames.size) : ∃ fs, s.Outward f fs := by
  have hwf := Chain.wellFounded_of_lt fun _ _ => hs.parent_lt
  obtain ⟨fs, hfs⟩ := Chain.exists_of_wellFounded hwf f
  exact ⟨fs, hfs, hs.getLast?_chain hf hfs, ancestor?_eq hfs, holder?_eq hfs, get?_eq hfs⟩

theorem upward (c : ClassId) : ∃ cs, s.Upward c cs := by
  obtain ⟨cs, hcs⟩ := Chain.exists_of_wellFounded (Chain.wellFounded_of_lt hs.superclass) c
  exact ⟨cs, hcs, findMethod?_eq hcs⟩

theorem linkedAs (h : s.Extends t) : s.LinkedAs t where
  parent f hf := (h.parent f hf).symm
  parent_older _ _ := hs.parent_lt
  parents := Chain.wellFounded_of_lt fun _ _ => hs.parent_lt
  superclass c hc := (h.superclass c hc).symm
  superclass_older := hs.superclass
  superclasses := Chain.wellFounded_of_lt hs.superclass
  outward _ := hs.outward
  function := hs.function
  method := hs.method
  upward := hs.upward

end Grounded

end Store

/-- **Links are well founded.** Through all inputs of a session its store goes along a path of single
writes, with the stores between the inputs and those of all moments that they come to on it; and at
these the frame that is evaluated in is there. In each store of the path every frame lies in an older
one and every class is above an older one, as in the last store; so both relations are well founded,
the way outward from every frame, also from that of a function, a bound method or a call, ends in the
globals, and reading, assigning and finding methods look through ways that end. -/
theorem Session.links_well_founded (limits : Limits) (clock : Clock) (inputs : List Input) :
    ∃ stores, (Session.start limits clock).WrittenAlong inputs stores ∧
      ∀ s ∈ Store.initial clock :: stores,
        s.LinkedAs ((Session.start limits clock).after inputs).store := by
  have hs : (Session.start limits clock).store.Grounded := .initial clock
  obtain ⟨stores, hwritten⟩ := Session.writes_after inputs hs
  refine ⟨stores, hwritten, fun s hmem => ?_⟩
  exact (hwritten.path.grounded hs s hmem).linkedAs (hwritten.path.extended s hmem).2

/-- The site is a variable. -/
def Site.isVariable : Site → Bool
  | .expr (.variable _) => true
  | _ => false

/-- A class is declared again as a subclass of its own subclass. By name this goes round; the new class
is above the old one's subclass, and that stays above the old one. -/
theorem Session.links_well_founded_redeclared :
    let inputs : List Input := [.program "class A \x7b\x7d class B < A \x7b\x7d",
      .program "class A < B \x7b\x7d", .line "A"]
    let final := ((Session.start ⟨60, 5⟩ (.still ⟨0⟩)).after inputs).store
    (∃ stores, (Session.start ⟨60, 5⟩ (.still ⟨0⟩)).WrittenAlong inputs stores ∧
      ∃ t : Moment, t.site.isVariable = true ∧ t.Passes (Store.initial (.still ⟨0⟩) :: stores) ∧
        t.store.LinkedAs final) ∧
      final.get? Store.globals "A" = some (.classRef 2) ∧ final.superclass? 2 = some 1 ∧
      final.superclass? 1 = some 0 ∧ final.superclass? 0 = none := by
  intro inputs final
  obtain ⟨stores, hwritten, hlinked⟩ := Session.links_well_founded ⟨60, 5⟩ (.still ⟨0⟩) inputs
  have hcomes : ((Session.start ⟨60, 5⟩ (.still ⟨0⟩)).after (inputs.take 2)).comesTo (.line "A")
      Site.isVariable = true := by
    decide +kernel
  obtain ⟨t, ht, hsite⟩ := Session.reaches_of_comesTo
    (Session.grows_after (inputs.take 2) (.initial _)).1 hcomes
  have hpasses := hwritten.moments (inputs.take 2) (.line "A") [] rfl t ht
  refine ⟨⟨stores, hwritten, t, hsite, hpasses, hlinked t.store hpasses.store⟩, ?_⟩
  decide +kernel

end Lox
