/-
# Walking instead of counting

A name that is reached by its record lies so many frames out. Walking outward
to the nearest frame that binds the name comes to the same frame, as long as
no two scopes of the program declare one name, no scope declares a name that
is used without a record, and no variable is assigned in its own initializer
(`Lox.Unambiguous`): the frames on the way are instances of the scopes around
the place, which declare other names, and behind them are the globals. The
words of a class may be bound by several frames on the way; their records say
the innermost.

So a run that walks is in lockstep with the one by records, watched so that it
gives up where both ways would come apart; and that it never does.

Key definitions: `Lox.Store.Finds`, `Lox.Unambiguous`, `Lox.Watch.agreeing`.
Key theorems: `Lox.Store.holder?_of_ancestor`, `Lox.Mirrors.length_lt`,
`Lox.Unambiguous.finds`, `Lox.walking_agrees`.
-/
import Lox.Proofs.Binding.Inside
import Lox.Proofs.Running.Distances
import Lox.Proofs.Running.Lockstep

namespace Lox

open Procedure

/-! ### Walking outward -/

namespace Store

variable {s : Store} {f a : FrameId} {name : String}

/-- The walk passes frames that do not bind the name. -/
theorem holderWithin?_ancestor (fuel : Nat) : ∀ {n : Nat} {f : FrameId},
    (∀ i < n, ∀ b, s.ancestor? i f = some b → ¬ s.Binds b name) → s.ancestor? n f = some a →
      s.holderWithin? name (fuel + n) f = s.holderWithin? name fuel a
  | 0, _, _, ha => by
    cases ha
    rfl
  | n + 1, f, hn, ha => by
    have hhere : ¬ (s.frame f).vars.contains name = true := hn 0 (Nat.succ_pos n) f rfl
    unfold ancestor? at ha
    rw [← Nat.add_assoc, holderWithin?, if_neg hhere]
    cases hp : (s.frame f).parent with
    | none =>
      rw [hp] at ha
      cases ha
    | some p =>
      rw [hp] at ha
      refine holderWithin?_ancestor fuel (fun i hi b hb => hn (i + 1) (Nat.succ_lt_succ hi) b ?_) ha
      rw [ancestor?, hp]
      exact hb

/-- The walk ends at the first frame that binds the name. -/
theorem holder?_of_ancestor {n : Nat} (hlt : n < s.frames.size)
    (hn : ∀ i < n, ∀ b, s.ancestor? i f = some b → ¬ s.Binds b name)
    (ha : s.ancestor? n f = some a) (hb : s.Binds a name) : s.holder? name f = some a := by
  obtain ⟨k, hk⟩ : ∃ k, s.frames.size = k + 1 + n := ⟨s.frames.size - n - 1, by omega⟩
  have hthere : (s.frame a).vars.contains name = true := hb
  rw [holder?, hk, holderWithin?_ancestor _ hn ha, holderWithin?, if_pos hthere]

/-- The walk ends at the globals, if no frame before them binds the name. -/
theorem holder?_of_globals {n : Nat} (hlt : n < s.frames.size)
    (hn : ∀ i < n, ∀ b, s.ancestor? i f = some b → ¬ s.Binds b name)
    (ha : s.ancestor? n f = some globals) (hroot : (s.frame globals).parent = none) :
    s.holder? name f = s.holder? name globals := by
  have hends : ∀ fuel, s.holderWithin? name (fuel + 1) globals =
      if (s.frame globals).vars.contains name then some globals else none := by
    intro fuel
    rw [holderWithin?, hroot]
  obtain ⟨k, hk⟩ : ∃ k, s.frames.size = k + 1 + n := ⟨s.frames.size - n - 1, by omega⟩
  rw [holder?, holder?, hk, holderWithin?_ancestor _ hn ha, hends, Nat.add_right_comm, hends]

/-- Walking comes to the frame that the record says, and finds the name bound there; without a record
it comes to where it would come from the globals. -/
def Finds (s : Store) (use : NameUse) (f : FrameId) : Prop :=
  match use.hops with
  | none => s.holder? use.name.text f = s.holder? use.name.text globals
  | some d => ∃ a, s.ancestor? d f = some a ∧ s.Binds a use.name.text ∧
      s.holder? use.name.text f = some a

variable {use : NameUse}

/-- Where the same value is found, the same is read. -/
theorem get_congr {g : FrameId} {name : Mark} (h : s.get? f name.text = s.get? g name.text) :
    Run.get f name s = Run.get g name s := by
  have hread (g : FrameId) : Procedure.read (ε := Fault) (fun s : Store => s.get? g name.text) s =
      (.ok (s.get? g name.text), s) := rfl
  rw [Run.get, Run.get, bind_ok (hread f), bind_ok (hread g), h]

theorem get_of_some {name : Mark} {v : Value} (h : s.get? f name.text = some v) :
    Run.get f name s = (.ok v, s) := by
  have hread : Procedure.read (ε := Fault) (fun s : Store => s.get? f name.text) s =
      (.ok (s.get? f name.text), s) := rfl
  rw [Run.get, bind_ok hread, h]
  rfl

/-- Where the same frame is found, the same is written. -/
theorem assign_congr {g : FrameId} {name : Mark} {v : Value}
    (h : s.holder? name.text f = s.holder? name.text g) :
    Run.assign f name v s = Run.assign g name v s := by
  have hread (g : FrameId) : Procedure.read (ε := Fault) (fun s : Store => s.holder? name.text g) s =
      (.ok (s.holder? name.text g), s) := rfl
  rw [Run.assign, Run.assign, bind_ok (hread f), bind_ok (hread g), h]

theorem assign_of_some {a : FrameId} {name : Mark} {v : Value}
    (h : s.holder? name.text f = some a) : Run.assign f name v s = Run.define a name.text v s := by
  have hread : Procedure.read (ε := Fault) (fun s : Store => s.holder? name.text f) s =
      (.ok (s.holder? name.text f), s) := rfl
  rw [Run.assign, bind_ok hread, h]

/-- What walking finds is what is read by the record. -/
theorem Finds.look (h : s.Finds use f) : Access.walking.look use f s = Access.recorded.look use f s := by
  show Run.get f use.name s = _
  unfold Access.recorded
  dsimp only
  unfold Finds at h
  cases hd : use.hops with
  | none =>
    rw [hd] at h
    have hget : s.get? f use.name.text = s.get? globals use.name.text := by rw [get?, get?, h]
    exact get_congr hget
  | some d =>
    rw [hd] at h
    obtain ⟨a, ha, hb, hholder⟩ := h
    obtain ⟨v, hv, hvar⟩ := getAt_of_binds ha hb
    have hget : s.get? f use.name.text = some v := by rw [get?, hholder, Option.bind_some, hvar]
    exact (get_of_some hget).trans hv.symm

theorem Finds.store (h : s.Finds use f) (v : Value) :
    Access.walking.store use v f s = Access.recorded.store use v f s := by
  show Run.assign f use.name v s = _
  unfold Access.recorded
  dsimp only
  unfold Finds at h
  cases hd : use.hops with
  | none =>
    rw [hd] at h
    exact assign_congr h
  | some d =>
    rw [hd] at h
    obtain ⟨a, ha, hb, hholder⟩ := h
    exact (assign_of_some hholder).trans ((assignAt_eq ha).trans (if_pos hb)).symm

end Store

/-! ### Frames around a frame -/

/-- The globals lie in no frame. -/
structure Store.Rooted (s : Store) : Prop where
  root : Store.globals < s.frames.size
  outermost : (s.frame Store.globals).parent = none

theorem Framed.rooted {w : World} (h : Framed w) : w.store.Rooted := ⟨h.root, h.outermost⟩

theorem Store.Rooted.keeps {free : Option FrameId} {s t : Store} (h : s.Rooted) (hk : s.Keeps free t) :
    t.Rooted :=
  ⟨Nat.lt_of_lt_of_le h.root hk.size, (hk.parent _ h.root).trans h.outermost⟩

section

variable {w : World} {scopes : List (Bindings Bool)} {os : List Opener} {f : FrameId}

/-- Behind the instances of the scopes lie the globals. -/
theorem Mirrors.outermost (h : Mirrors w scopes os f) :
    w.store.ancestor? scopes.length f = some Store.globals := by
  induction h with
  | globals => rfl
  | inside _ _ _ hp _ ih =>
    rw [List.length_cons, Store.ancestor?, hp]
    exact ih

/-- A frame lies so deep, and no deeper. -/
theorem Mirrors.length_unique (hs : w.store.Rooted) (h : Mirrors w scopes os f)
    {scopes' : List (Bindings Bool)} {os' : List Opener} (h' : Mirrors w scopes' os' f) :
    scopes.length = scopes'.length := by
  induction h generalizing scopes' os' with
  | globals =>
    cases h' with
    | globals => rfl
    | inside _ _ _ hp _ => cases hs.outermost.symm.trans hp
  | inside _ _ _ hp _ ih =>
    cases h' with
    | globals => cases hs.outermost.symm.trans hp
    | inside _ _ _ hp' hm' =>
      cases hp.symm.trans hp'
      exact congrArg (· + 1) (ih hm')

/-- There are more frames than lie around one: no two of these are the same. -/
theorem Mirrors.length_lt (hs : w.store.Rooted) (h : Mirrors w scopes os f) :
    scopes.length < w.store.frames.size := by
  have hchain : ∃ chain : List FrameId, chain.Nodup ∧ chain.length = scopes.length + 1 ∧
      ∀ g ∈ chain, g < w.store.frames.size ∧
        ∃ scopes' os', Mirrors w scopes' os' g ∧ scopes'.length ≤ scopes.length := by
    induction h with
    | globals =>
      refine ⟨[Store.globals], List.nodup_singleton _, rfl, fun g hg => ?_⟩
      obtain rfl := List.mem_singleton.mp hg
      exact ⟨hs.root, [], [], .globals, Nat.le_refl _⟩
    | @inside scope scopes os f p hf hready hnames hp hm ih =>
      obtain ⟨chain, hnodup, hlength, hall⟩ := ih
      have hinside := Mirrors.inside hf hready hnames hp hm
      refine ⟨f :: chain, List.nodup_cons.mpr ⟨fun hmem => ?_, hnodup⟩, congrArg (· + 1) hlength,
        fun g hg => ?_⟩
      · obtain ⟨_, scopes', os', hm', hle⟩ := hall f hmem
        have heq := hinside.length_unique hs hm'
        rw [List.length_cons] at heq
        omega
      · obtain rfl | hg := List.mem_cons.mp hg
        · exact ⟨hf, _, _, hinside, Nat.le_refl _⟩
        · obtain ⟨hg', scopes', os', hm', hle⟩ := hall g hg
          exact ⟨hg', scopes', os', hm', Nat.le_succ_of_le hle⟩
  obtain ⟨chain, hnodup, hlength, hall⟩ := hchain
  have hsubset : chain ⊆ List.range w.store.frames.size :=
    fun g hg => List.mem_range.mpr (hall g hg).1
  have hle := (hnodup.subperm hsubset).length_le
  rw [hlength, List.length_range] at hle
  exact hle

/-- An instance binds names of its opener only. -/
theorem Mirrors.names (h : Mirrors w scopes os f) {i : Nat} (hi : i < scopes.length) {b : FrameId}
    (hb : w.store.ancestor? i f = some b) {name : String} (hn : w.store.Binds b name) :
    ∃ o, os[i]? = some o ∧ name ∈ o.names := by
  obtain ⟨b', hb', ho, hm⟩ := h.ancestor hi
  cases hb.symm.trans hb'
  refine ⟨_, ho, ?_⟩
  rw [List.drop_eq_getElem_cons hi] at hm
  generalize os.drop i = rest at hm
  cases hm with
  | inside _ _ hnames _ _ => exact hnames _ hn

theorem Mirrors.ancestor_keeps (h : Mirrors w scopes os f) {t : Store} (hk : w.store.Keeps none t)
    {d : Nat} (hd : d ≤ scopes.length) : t.ancestor? d f = w.store.ancestor? d f := by
  induction h generalizing d with
  | globals =>
    obtain rfl := Nat.le_zero.mp hd
    rfl
  | inside hf _ _ hp _ ih =>
    cases d with
    | zero => rfl
    | succ d =>
      rw [Store.ancestor?, Store.ancestor?, hk.parent _ hf, hp]
      exact ih (Nat.le_of_succ_le_succ hd)

/-- Walking finds a bound name where its record says, if no scope on the way may bind it. -/
theorem Mirrors.finds (hs : w.store.Rooted) (h : Mirrors w scopes os f) {use : NameUse}
    (hbound : ∀ d, use.hops = some d →
      ∃ a, w.store.ancestor? d f = some a ∧ w.store.Binds a use.name.text ∧ d < scopes.length)
    (hinner : ∀ i o, (∀ d, use.hops = some d → i < d) → os[i]? = some o → use.name.text ∉ o.names) :
    w.store.Finds use f := by
  have hlength := h.length_lt hs
  have hpassed : ∀ i, (∀ d, use.hops = some d → i < d) → i < scopes.length →
      ∀ b, w.store.ancestor? i f = some b → ¬ w.store.Binds b use.name.text := by
    intro i hi hlt b hb hbinds
    obtain ⟨o, ho, hname⟩ := h.names hlt hb hbinds
    exact hinner i o hi ho hname
  unfold Store.Finds
  cases hd : use.hops with
  | none =>
    rw [hd] at hpassed
    exact Store.holder?_of_globals hlength (fun i => hpassed i fun _ h => nomatch h) h.outermost
      hs.outermost
  | some d =>
    obtain ⟨a, ha, hb, hlt⟩ := hbound d hd
    refine ⟨a, ha, hb, Store.holder?_of_ancestor (Nat.lt_trans hlt hlength) (fun i hi => ?_) ha hb⟩
    refine hpassed i (fun d' hd' => ?_) (Nat.lt_trans hi hlt)
    cases hd.symm.trans hd'
    exact hi

/-- A frame goes on mirroring scopes while no names are bound but in new frames. -/
theorem Mirrors.keeps (h : Mirrors w scopes os f) {t : Store} (hk : w.store.Keeps none t) :
    Mirrors ⟨w.labels, t⟩ scopes os f := by
  induction h with
  | globals => exact .globals
  | inside hf hready hnames hp _ ih =>
    have hbinds := hk.binds _ hf (by simp)
    exact .inside (w := ⟨w.labels, t⟩) (Nat.lt_of_lt_of_le hf hk.size)
      (fun name hn => (hbinds name).mpr (hready name hn))
      (fun name hn => hnames name ((hbinds name).mp hn)) ((hk.parent _ hf).trans hp) ih

end

/-! ### Scopes around a place -/

/-- The statement declares a variable that its initializer assigns. -/
def Stmt.assignsItself : Stmt → Bool
  | .var name (some e) => e.occurrences.any fun u => u.kind = .assign ∧ u.use.name.text = name.text
  | _ => false

/-- No two scopes of a program declare one name, none declares a name that is used without a record,
and no variable of a scope is assigned in its own initializer. Which names the globals bind matters only
where they are used without a record. -/
structure Unambiguous (written resolved : List Stmt) : Prop where
  nodup : (localNames written).Nodup
  unrecorded : ∀ u ∈ occurrences resolved, u.use.hops = none → u.use.name.text ∉ localNames written
  initialized : ∀ o ∈ bodyOpeners written, ∀ s ∈ o.body, s.assignsItself = false

instance (written resolved : List Stmt) : Decidable (Unambiguous written resolved) :=
  decidable_of_iff (_ ∧ _ ∧ _) ⟨fun ⟨h, h', h''⟩ => ⟨h, h', h''⟩, fun ⟨h, h', h''⟩ => ⟨h, h', h''⟩⟩

/-- The names that a scope may bind are declared in it or given to it. -/
theorem Opener.mem_names {o : Opener} {name : String} (h : name ∈ o.names) :
    name ∈ o.locals ∨ name ∈ o.given := by
  cases o with
  | block _ | call _ => exact .inl h
  | receiver _ | superclass _ => exact .inr h

/-- Names that are declared are no words of a class. -/
theorem Nested.isPlain_locals {kind : ClassKind} {os : List Opener} (h : Nested kind os) :
    ∀ o ∈ os, ∀ name ∈ o.locals, isPlain name := by
  induction h with
  | globals => exact fun _ ho => nomatch ho
  | block hplain _ ih | call hplain _ ih => exact List.forall_mem_cons.mpr ⟨hplain, ih⟩
  | plain cls _ ih =>
    have hreceiver : ∀ name ∈ (Opener.receiver cls).locals, isPlain name := List.forall_mem_nil _
    exact List.forall_mem_cons.mpr ⟨hreceiver, ih⟩
  | subclass cls _ ih =>
    have hreceiver : ∀ name ∈ (Opener.receiver cls).locals, isPlain name := List.forall_mem_nil _
    have hsuperclass : ∀ name ∈ (Opener.superclass cls).locals, isPlain name := List.forall_mem_nil _
    exact List.forall_mem_cons.mpr ⟨hreceiver, List.forall_mem_cons.mpr ⟨hsuperclass, ih⟩⟩

section

variable {kind : ClassKind} {scopes : List (Bindings Bool)} {os : List Opener} {name : String}

/-- What a scope is given is found in it, if not before. -/
theorem Aligned.hops_le_of_given (ha : Aligned scopes os) {i : Nat} {o : Opener} (ho : os[i]? = some o)
    (hg : name ∈ o.given) : ∃ d, hopsIn? scopes name = some d ∧ d ≤ i := by
  obtain ⟨scope, hscope, hready⟩ := ha.given_ready ho hg
  obtain ⟨hi, hscope⟩ := List.getElem?_eq_some_iff.mp hscope
  have hc : scopes[i].contains name = true := by
    rw [hscope, Bindings.contains, hready]
    rfl
  cases hd : hopsIn? scopes name with
  | none => exact absurd hc (by simp [contains_of_hopsIn?_eq_none hd scopes[i] (List.getElem_mem hi)])
  | some d =>
    refine ⟨d, rfl, Nat.le_of_not_lt fun hlt => ?_⟩
    obtain ⟨_, _, hfirst⟩ := List.findIdx?_eq_some_iff_getElem.mp hd
    exact hfirst i hlt hc

theorem Aligned.mem_names (ha : Aligned scopes os) {d : Nat} {scope : Bindings Bool}
    (hd : scopes[d]? = some scope) (hc : scope.contains name = true) :
    ∃ o, os[d]? = some o ∧ name ∈ o.names := by
  induction ha generalizing d with
  | globals => simp at hd
  | @inside first scopes o os hnames _ _ ih =>
    cases d with
    | zero =>
      obtain rfl : first = scope := by simpa using hd
      exact ⟨o, rfl, hnames name hc⟩
    | succ d => exact ih (by simpa using hd)

/-- Scopes further in than the one that binds a name do not declare it, if no two declare one. -/
theorem Aligned.not_mem_names_of_lt (ha : Aligned scopes os) (hn : Nested kind os)
    (hnodup : (os.flatMap Opener.locals).Nodup) {d : Nat} (hd : hopsIn? scopes name = some d) {i : Nat}
    (hi : i < d) {o : Opener} (ho : os[i]? = some o) : name ∉ o.names := by
  intro hname
  obtain hl | hg := Opener.mem_names hname
  · obtain ⟨o', ho', hname'⟩ : ∃ o', os[d]? = some o' ∧ name ∈ o'.names := by
      obtain ⟨scope, hscope, hc⟩ := hopsIn?_eq_some hd
      exact ha.mem_names hscope hc
    obtain hl' | hg' := Opener.mem_names hname'
    · -- both scopes declare the name
      obtain ⟨hd', rfl⟩ := List.getElem?_eq_some_iff.mp ho'
      obtain ⟨hi', rfl⟩ := List.getElem?_eq_some_iff.mp ho
      have hdisjoint := List.pairwise_iff_getElem.mp (List.nodup_flatMap.mp hnodup).2 i d hi' hd' hi
      exact hdisjoint hl hl'
    · exact Opener.not_plain_given hg' (hn.isPlain_locals o (List.mem_of_getElem? ho) name hl)
  · obtain ⟨d', hd', hle⟩ := ha.hops_le_of_given ho hg
    cases hd.symm.trans hd'
    exact Nat.not_lt.mpr hle hi

/-- No scope declares a name that none binds, if it does not do so later on. -/
theorem Aligned.not_mem_names_of_none (ha : Aligned scopes os)
    (hnone : ∀ o ∈ os, name ∉ o.locals) (hd : hopsIn? scopes name = none) {i : Nat} {o : Opener}
    (ho : os[i]? = some o) : name ∉ o.names := by
  intro hname
  obtain hl | hg := Opener.mem_names hname
  · exact hnone o (List.mem_of_getElem? ho) hl
  · obtain ⟨d, hsome, _⟩ := ha.hops_le_of_given ho hg
    cases hd.symm.trans hsome

end

/-! ### Where names are used -/

theorem Visit.Standing.nested {P : Visit → Prop} {v : Visit} (h : v.Standing P) :
    ∃ kind, Nested kind v.openers := by
  obtain ⟨c, σ, os⟩ := v
  cases c with
  | expr e =>
    obtain ⟨kind, hn, _⟩ := Scoping.Reading.nested h
    exact ⟨kind, hn⟩
  | args es =>
    obtain ⟨kind, hn, _⟩ := Scoping.Reading.nested h
    exact ⟨kind, hn⟩
  | stmt _ | body _ | function _ _ | methods _ => exact ⟨_, h.1.nested⟩

theorem Runs.mirrors {w : World} {v : Visit} {f : FrameId} (h : Runs w v f) :
    ∃ scopes, Mirrors w scopes v.openers f := by
  cases h with
  | inside hm => exact ⟨_, hm.mirrors⟩
  | superclass _ hm => exact ⟨_, hm.mirrors⟩

theorem Site.mem_occurrences {e : Expr} {u : Occurrence}
    (h : (Site.expr e).occurrence? = some u) : u ∈ e.occurrences := by
  cases e with
  | «variable» _ | receiver _ | superMethod _ _ | assign _ _ =>
    cases h
    exact List.mem_cons_self
  | _ => cases h

/-- Only an assignment is made to one. -/
theorem assign_of_occurrence? {P : Visit → Prop} (hst : Stock P) {e : Expr} {σ : Scoping}
    {os : List Opener} (hP : P ⟨.expr e, σ, os⟩) {u : Occurrence}
    (hu : (Site.expr (σ.boundExpr e)).occurrence? = some u) (hkind : u.kind = .assign) :
    ∃ use value, e = .assign use value ∧ use.name = u.use.name := by
  cases e with
  | assign use value =>
    rw [hst.boundExpr_assign hP] at hu
    cases hu
    exact ⟨use, value, rfl, rfl⟩
  | «variable» use =>
    rw [Scoping.boundExpr_variable] at hu
    cases hu
    cases hkind
  | receiver use =>
    rw [hst.boundExpr_receiver hP] at hu
    cases hu
    cases hkind
  | superMethod use method =>
    rw [Scoping.boundExpr_superMethod] at hu
    cases hu
    cases hkind
  | _ => cases hu

namespace Unambiguous

variable {written : List Stmt} {w : World} {v : Visit} {f : FrameId}

/-- A variable that is assigned is bound, as it is not in its own initializer. -/
theorem binds_assigned (hu : Unambiguous written (Scoping.initial.boundBody written))
    (hc : (Visit.whole written).Clean) {use : NameUse} {value : Expr} {σ : Scoping} {os : List Opener}
    (hv : Visited written ⟨.expr (.assign use value), σ, os⟩) (hm : Mirrors w σ.scopes os f) {d : Nat}
    (hd : σ.hops? use.name.text = some d) :
    ∃ a, w.store.ancestor? d f = some a ∧ w.store.Binds a use.name.text := by
  have hst : Stock (VisitedIn [written]) := stock_visitedIn (by simpa using hc)
  have hreading : σ.Reading (VisitedIn [written]) os _ := hst.standing ⟨_, List.mem_singleton_self _, hv⟩
  obtain ⟨scope, hscope, hready | ⟨_, hunready⟩⟩ := hreading.found hd
  · exact hm.binds hscope hready
  · obtain ⟨τ, m, e, ⟨program, hprogram, hvar⟩, hname, he⟩ := hreading.unready _ hunready
    obtain rfl := List.mem_singleton.mp hprogram
    cases os with
    | nil =>
      rw [hreading.aligned.nil_iff.mpr rfl] at hscope
      cases hscope
    | cons o os =>
      have hinside := hvar.inside hc o rfl (by simp [Stmt.declared?])
      have ho : o ∈ bodyOpeners program :=
        hvar.allOpeners.subset (List.mem_append_right _ List.mem_cons_self)
      have hassign : (⟨.assign, use⟩ : Occurrence) ∈ e.occurrences := he List.mem_cons_self
      have hself := List.any_eq_false.mp (hu.initialized o ho _ hinside) _ hassign
      simp [hname] at hself

/-- At a place where a name is used walking finds it where its record says, also when the value is
there that is assigned to it. -/
theorem finds (hu : Unambiguous written (Scoping.initial.boundBody written))
    (hc : (Visit.whole written).Clean) (hframed : Framed w) {e : Expr} {σ : Scoping} {os : List Opener}
    (hv : Visited written ⟨.expr e, σ, os⟩) (hruns : Runs w ⟨.expr e, σ, os⟩ f) {u : Occurrence}
    (hsite : (Site.expr (σ.boundExpr e)).occurrence? = some u) {t : Store}
    (hk : w.store.Keeps none t) : t.Finds u.use f := by
  have hst : Stock (VisitedIn [written]) := stock_visitedIn (by simpa using hc)
  have hP : VisitedIn [written] ⟨.expr e, σ, os⟩ := ⟨_, List.mem_singleton_self _, hv⟩
  have hstanding := hst.standing hP
  obtain ⟨kind, hn⟩ := hstanding.nested
  obtain ⟨haligned, hexact⟩ := exact_of_runs hst hP rfl hruns
  obtain ⟨hhops, hwhere⟩ := hexact u hsite
  have hhops : hopsIn? σ.scopes u.use.name.text = u.use.hops := hhops
  have hlocals := hv.locals
  have hnodup : (os.flatMap Opener.locals).Nodup := by
    obtain ⟨names, hperm, hsub⟩ := hlocals
    exact hperm.nodup_iff.mp (hu.nodup.sublist hsub)
  obtain ⟨scopes, hm⟩ := hruns.mirrors
  have hlength : scopes.length = σ.scopes.length := hm.length_eq.trans haligned.length_eq.symm
  refine (hm.keeps hk).finds (hframed.rooted.keeps hk) (fun d hd => ?_) fun i o hi ho => ?_
  · obtain ⟨_, hscope, _⟩ := hopsIn?_eq_some (hhops.trans hd)
    have hlt := (List.getElem?_eq_some_iff.mp hscope).1
    obtain ⟨a, ha, hb⟩ : ∃ a, w.store.ancestor? d f = some a ∧ w.store.Binds a u.use.name.text := by
      by_cases hkind : u.kind = .assign
      · obtain ⟨use, value, rfl, hname⟩ := assign_of_occurrence? hst hP hsite hkind
        rw [← hname] at hhops ⊢
        exact hu.binds_assigned hc hv (hruns.matches fun _ h => nomatch h).mirrors (hhops.trans hd)
      · rw [hd] at hwhere
        obtain ⟨a, ha, _, hbinds, _⟩ := hwhere
        exact ⟨a, ha, hbinds hkind⟩
    refine ⟨a, ?_, (hk.binds a hb.lt (by simp) _).mpr hb, hlength ▸ hlt⟩
    rw [hm.ancestor_keeps hk (hlength ▸ Nat.le_of_lt hlt)]
    exact ha
  · cases hd : u.use.hops with
    | some d =>
      exact haligned.not_mem_names_of_lt hn hnodup (hhops.trans hd) (hi d hd) ho
    | none =>
      have hmem : u ∈ occurrences (Scoping.initial.boundBody written) := by
        rw [← bodyOccurrences_eq]
        exact hv.uses (Site.mem_occurrences hsite)
      refine haligned.not_mem_names_of_none (fun o ho hl => ?_) (hhops.trans hd) ho
      exact hu.unrecorded u hmem hd (hlocals.subset (List.mem_flatMap_of_mem ho hl))

/-- Both ways of reaching names agree at every place. -/
theorem agree (hu : Unambiguous written (Scoping.initial.boundBody written))
    (hc : (Visit.whole written).Clean) (hframed : Framed w) (hv : Visited written v) {site : Site}
    (hsite : v.resolved? = some site) (hruns : Runs w v f) :
    Access.recorded.Agree Access.walking site f w.store := by
  obtain ⟨c, σ, os⟩ := v
  cases c with
  | args _ | body _ | function _ _ | methods _ => cases hsite
  | stmt s =>
    cases hsite
    trivial
  | expr e =>
    cases hsite
    have hfinds {u : Occurrence} {t : Store} := hu.finds (u := u) (t := t) hc hframed hv hruns
    cases hbound : σ.boundExpr e with
    | «variable» use | receiver use =>
      rw [hbound] at hfinds
      exact (hfinds rfl (.refl ..)).look
    | assign use value =>
      rw [hbound] at hfinds
      exact fun v s' hk => (hfinds rfl hk).store v
    | _ => trivial

end Unambiguous

/-! ### Watching the run by records -/

/-- What a run gives up with. -/
def apart : Misplaced := .expression "names"

open Classical in
/-- The run gives up where both ways of reaching names come apart. -/
noncomputable def Watch.agreeing : Watch := fun site f s =>
  if Access.recorded.Agree Access.walking site f s then (.ok (), s)
  else (.error (.misplaced apart), s)

namespace Run.Lockstep

variable {α : Type} {bad : Fault → Prop} {free : Option FrameId} {s : Store}

/-- A run that is watched, if the watch lets it pass unless it gives up. -/
theorem agreeing {p p' : Run α} {site : Site} {f : FrameId}
    (h : Access.recorded.Agree Access.walking site f s →
      Lockstep (· = .misplaced apart) free p p' s) :
    Lockstep (· = .misplaced apart) free (do Watch.agreeing site f; p) p' s := by
  by_cases hagree : Access.recorded.Agree Access.walking site f s
  · have hpass : Watch.agreeing site f s = (.ok (), s) := if_pos hagree
    unfold Lockstep
    rw [bind_ok hpass]
    exact h hagree
  · have hstop : Watch.agreeing site f s = (.error (.misplaced apart), s) := if_neg hagree
    exact .inl ⟨_, s, bind_error hstop, rfl⟩

/-- Faults to give up with that are not reported are not hidden by a report. -/
theorem reported (hbad : ∀ fault, bad fault → ∀ o, fault.diagnostic? o = none) {p p' : Run Unit}
    (h : Lockstep bad free p p' s) (start : Unit → Option Int) :
    Lockstep bad free (reported start p) (reported start p') s := by
  rcases h with ⟨fault, s', hp, hb⟩ | ⟨heq, hkeeps⟩
  · refine .inl ⟨fault, s', ?_, hb⟩
    rw [reported_error hp, hbad fault hb]
  · refine .inr ⟨by rw [Lox.reported, Lox.reported, heq], ?_⟩
    have hstore : (Lox.reported start p s).2 = (p s).2 := by
      unfold Lox.reported
      rcases p s with ⟨fault | _, _⟩
      · dsimp only
        split <;> rfl
      · rfl
    rwa [hstore]

theorem interpretWith (hbad : ∀ fault, bad fault → ∀ o, fault.diagnostic? o = none)
    {inner inner' : Evaluator} (h : inner.Lockstep bad inner') : ∀ (stmts : List Stmt) {s : Store},
      Lockstep bad (some Store.globals) (interpretWith inner stmts) (interpretWith inner' stmts) s
  | [], _ => pure _
  | stmt :: stmts, s => by
    have hstmt := ((h.stmt stmt Store.globals s).discard).reported hbad fun _ => stmt.offset?
    refine hstmt.bind fun ds _ _ => ?_
    cases ds with
    | nil => exact interpretWith hbad h stmts
    | cons d ds => exact pure _

end Run.Lockstep

/-- Watched so, a run by records is in lockstep with the one that walks. -/
theorem Evaluator.lockstep_walking (turns : Nat) : ∀ steps spent,
    (watched .agreeing .recorded turns steps spent).Lockstep (· = .misplaced apart)
      (within .walking turns steps spent)
  | 0, _ => by
    unfold watched within
    exact ⟨rfl, rfl, fun _ _ _ => .halt _, fun _ _ _ => .halt _, fun _ _ _ => .halt _⟩
  | steps + 1, spent + 1 => by
    unfold watched within
    exact lockstep_walking turns steps spent
  | steps + 1, 0 => by
    have hplaced : ∀ fault, fault = Fault.misplaced apart → fault.isUnplaced = false := by
      rintro _ rfl
      rfl
    have hinner := lockstep_walking turns steps
    unfold watched within
    refine ⟨rfl, rfl, fun e f s => ?_, fun st f s => ?_, fun st f s => ?_⟩ <;> dsimp only
    · refine .agreeing fun hagree => .placed hplaced (.evalExpr (hinner _) ?_) _
      rw [(hinner _).recorded, within_access]
      exact hagree
    · exact .agreeing fun _ => .placed hplaced (.execStmt (hinner _) st f) _
    · exact .agreeing fun _ => .placed hplaced (.execStmt (hinner _) st f) _

/-- **Walking agrees with counting.** An accepted program without ambiguous names, in which no local
variable is assigned in its own initializer, is run in the same way if its names are reached by walking
outward: with the same report, the same output and the same store. -/
theorem walking_agrees (limits : Limits) (clock : Clock) {source : String}
    (h : Accepts limits source) :
    let written := (parse limits (scan source).tokens).stmts
    let resolved := (resolve limits written).stmts
    let session := Session.start limits clock
    Unambiguous written resolved →
      session.execute (interpretWith (.within .walking limits.turns limits.steps 0) resolved) =
        session.run source := by
  intro written resolved session hu
  have hc : (Visit.whole written).Clean := clean_of_resolve (regular_of_parse h.parses) h.binds
  have hresolved : resolved = Scoping.initial.boundBody written := (resolve_of_silent h.binds).2.1
  have hst : Stock (VisitedIn [written]) := stock_visitedIn (by simpa using hc)
  obtain ⟨w', r, _, _, hr, _, hrun⟩ := Accounts.code hst
    (keeps_watched hst limits.turns limits.steps 0) (.program written)
    ⟨_, List.mem_singleton_self _, .program⟩ (sound_initial (fun _ => .block []) clock)
  rw [hresolved] at hu
  have hheeds : Heeds (VisitedIn [written]) w' (endsWell r) .agreeing := by
    rintro t ⟨⟨_, hsound⟩, v, ⟨program, hprogram, hv⟩, hsite, hruns⟩ _
    obtain rfl := List.mem_singleton.mp hprogram
    exact if_pos (hu.agree hc hsound.toFramed hv hsite hruns)
  have hagreeing : interpretWith (.watched .agreeing .recorded limits.turns limits.steps 0) resolved
      (Store.initial clock) = (r, w'.store) := by
    rw [hresolved]
    exact hrun _ hheeds
  have hcounting : interpret limits resolved (Store.initial clock) = (r, w'.store) := by
    rw [hresolved, interpret, Evaluator.ofLimits, ← Evaluator.watched_quiet]
    exact hrun _ .quiet
  have hbad : ∀ fault, fault = Fault.misplaced apart → ∀ o, fault.diagnostic? o = none := by
    rintro _ rfl _
    rfl
  have hlock := Run.Lockstep.interpretWith hbad
    (Evaluator.lockstep_walking limits.turns limits.steps 0) resolved (s := Store.initial clock)
  have hwalking : interpretWith (.within .walking limits.turns limits.steps 0) resolved
      (Store.initial clock) = (r, w'.store) := by
    rcases hlock with ⟨_, s', hgave, rfl⟩ | ⟨heq, _⟩
    · -- an accepted program does not end with a fault of that sort
      cases hagreeing.symm.trans hgave
      obtain h | ⟨_, h, _⟩ := hr <;> cases h
    · exact heq.trans hagreeing
  rw [session.run_of_accepts h, Session.execute_eq hwalking]
  exact (Session.execute_eq hcounting).symm

/-- A function that reads a variable of the block around it. -/
theorem walking_agrees_in_block :
    let limits : Limits := ⟨60, 5⟩
    let source := "\x7b var a; fun f(b) \x7b print a; print b; \x7d f(clock); \x7d"
    let resolved := (resolve limits (parse limits (scan source).tokens).stmts).stmts
    let session := Session.start limits (.still ⟨0⟩)
    (session.execute
      (interpretWith (.within .walking limits.turns limits.steps 0) resolved)).1.output =
      ["nil", "<native fn clock>"] := by
  intro limits source resolved session
  have haccepts : Accepts limits source := ⟨by decide +kernel, by decide +kernel, by decide +kernel⟩
  have hu : Unambiguous (parse limits (scan source).tokens).stmts resolved := by decide +kernel
  have hsame : session.execute (interpretWith (.within .walking limits.turns limits.steps 0) resolved) =
      session.run source := walking_agrees limits (.still ⟨0⟩) haccepts hu
  have houtput : (session.run source).1.output = ["nil", "<native fn clock>"] := by decide +kernel
  rw [hsame]
  exact houtput

end Lox
