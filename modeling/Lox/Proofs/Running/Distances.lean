/-
# Recorded distances are exact

The use of a name in the tree that runs carries the distance out to the scope
which the pass of names found it in. Where it is evaluated, the frame that
many frames out is the instance of that scope, for an input of a session as
for the functions that earlier inputs made.

Key definitions: `Lox.Site.occurrence?`, `Lox.Exact`.
Key theorems: `Lox.exact_of_runs`, `Lox.recorded_distances_exact`.
-/
import Lox.Proofs.Running.History

namespace Lox

open Procedure

/-- The use of a name that the site is. -/
def Site.occurrence? : Site → Option Occurrence
  | .expr (.variable use) => some ⟨.variable, use⟩
  | .expr (.assign use _) => some ⟨.assign, use⟩
  | .expr (.receiver use) => some ⟨.receiver, use⟩
  | .expr (.superMethod use _) => some ⟨.superMethod, use⟩
  | _ => none

/-- The record of a use at the place is exact in the frame. With a distance, the innermost scope that
binds the name is so many scopes out, and the frame so many frames out is the instance of that scope;
what is read is bound there, and beside a superclass the receiver one frame further in. Without a
distance no open scope binds the name. -/
def Exact (w : World) (v : Visit) (f : FrameId) (u : Occurrence) : Prop :=
  v.scoping.hops? u.use.name.text = u.use.hops ∧
  match u.use.hops with
  | none => ∀ scope ∈ v.scoping.scopes, scope.contains u.use.name.text = false
  | some d => ∃ a, w.store.ancestor? d f = some a ∧ v.openers[d]? = some (w.labels a) ∧
    (u.kind ≠ .assign → w.store.Binds a u.use.name.text) ∧
    (u.kind = .superMethod → ∃ i b, d = i + 1 ∧ w.store.ancestor? i f = some b ∧
      (w.store.frame b).parent = some a ∧ w.store.Binds b "this")

variable {P : Visit → Prop} {w : World} {σ : Scoping} {os : List Opener} {f : FrameId}
  {use : NameUse}

theorem contains_of_hopsIn?_eq_none {scopes : List (Bindings Bool)} {name : String}
    (h : hopsIn? scopes name = none) : ∀ scope ∈ scopes, scope.contains name = false := by
  simpa [hopsIn?, List.findIdx?_eq_none_iff] using h

/-- The frame out to which a name is found, and what it binds. -/
theorem exact_of_mirrors {scopes : List (Bindings Bool)} {u : Occurrence}
    (hu : u.use.hops = σ.hops? u.use.name.text) (hm : Mirrors w scopes os f)
    (hlength : scopes.length = σ.scopes.length)
    (hready : u.kind ≠ .assign → ∀ d, σ.hops? u.use.name.text = some d →
      ∃ scope, scopes[d]? = some scope ∧ scope.get? u.use.name.text = some true)
    (hsuper : u.kind = .superMethod → ∀ d a, σ.hops? u.use.name.text = some d →
      w.store.ancestor? d f = some a → ∃ i b, d = i + 1 ∧ w.store.ancestor? i f = some b ∧
        (w.store.frame b).parent = some a ∧ w.store.Binds b "this") (c : Construct) :
    Exact w ⟨c, σ, os⟩ f u := by
  unfold Exact
  rw [hu]
  refine ⟨rfl, ?_⟩
  cases hd : σ.hops? u.use.name.text with
  | none => exact contains_of_hopsIn?_eq_none hd
  | some d =>
    obtain ⟨_, hscope, _⟩ := hopsIn?_eq_some hd
    have hlt := (List.getElem?_eq_some_iff.mp hscope).1
    obtain ⟨a, ha, ho, _⟩ := hm.ancestor (hlength ▸ hlt)
    refine ⟨a, ha, ho, fun hkind => ?_, fun hkind => hsuper hkind d a hd ha⟩
    obtain ⟨scope, hscope, hr⟩ := hready hkind d hd
    obtain ⟨a', ha', hb⟩ := hm.binds hscope hr
    cases ha.symm.trans ha'
    exact hb

/-- One step further out lies the frame around. -/
theorem Store.parent_of_ancestor {s : Store} : ∀ {d : Nat} {f b a : FrameId},
    s.ancestor? d f = some b → s.ancestor? (d + 1) f = some a → (s.frame b).parent = some a
  | 0, f, b, a, hb, ha => by
    cases hb
    unfold ancestor? at ha
    split at ha
    · cases ha
    · rename_i hp
      cases ha
      exact hp
  | d + 1, f, b, a, hb, ha => by
    unfold ancestor? at hb ha
    split at hb
    · cases hb
    · rename_i hp
      rw [hp] at ha
      exact parent_of_ancestor hb ha

theorem Visit.Standing.aligned {v : Visit} (h : v.Standing P) :
    Aligned v.scoping.scopes v.openers := by
  obtain ⟨c, σ, os⟩ := v
  cases c with
  | expr e => exact Scoping.Reading.aligned h
  | args es => exact Scoping.Reading.aligned h
  | stmt _ | body _ | function _ _ | methods _ => exact h.1.aligned

theorem Runs.matches {e : Expr} (h : Runs w ⟨.expr e, σ, os⟩ f) (he : ∀ use, e ≠ .variable use) :
    Matches w σ.scopes os f := by
  cases h with
  | inside hm => exact hm
  | superclass _ _ => exact absurd rfl (he _)

/-- The frame of the receiver lies just inside that of the superclass. -/
theorem receiver_inside_superclass (hr : σ.Reading P os [⟨.superMethod, use⟩])
    (hcls : σ.cls = .subclass) (hm : Mirrors w σ.scopes os f) {d : Nat} {a : FrameId}
    (hd : σ.hops? "super" = some d) (ha : w.store.ancestor? d f = some a) :
    ∃ i b, d = i + 1 ∧ w.store.ancestor? i f = some b ∧ (w.store.frame b).parent = some a ∧
      w.store.Binds b "this" := by
  have hn := hr.nested_cls (show UseKind.superMethod ≠ .variable by decide)
  obtain ⟨i, cls, hthis, hsuper, ho, _⟩ := hn.superclass_hops hr.aligned hcls
  obtain rfl : i + 1 = d := Option.some.inj (hsuper.symm.trans hd)
  obtain ⟨scope, hscope, hready⟩ := hr.aligned.given_ready ho (List.mem_singleton.mpr rfl)
  obtain ⟨b, hb, hbinds⟩ := hm.binds hscope hready
  exact ⟨i, b, rfl, hb, Store.parent_of_ancestor hb ha, hbinds⟩

/-- At an explained moment the record of the use that is evaluated is exact. -/
theorem exact_of_runs (hst : Stock P) {v : Visit} {site : Site} (hP : P v)
    (hv : v.resolved? = some site) (hruns : Runs w v f) :
    Aligned v.scoping.scopes v.openers ∧ ∀ u, site.occurrence? = some u → Exact w v f u := by
  have hstanding := hst.standing hP
  have hclean := hst.clean hP
  refine ⟨hstanding.aligned, fun u hu => ?_⟩
  obtain ⟨c, σ, os⟩ := v
  cases c with
  | args _ | body _ | function _ _ | methods _ => cases hv
  | stmt s =>
    cases hv
    cases hu
  | expr e =>
    cases hv
    cases e with
    | «variable» use =>
      rw [Scoping.boundExpr_variable] at hu
      cases hu
      obtain ⟨scopes, hm, hready⟩ := Holds.ready_of_runs hst hP hruns
      have hlength : scopes.length = σ.scopes.length :=
        hm.length_eq.trans hstanding.aligned.length_eq.symm
      exact exact_of_mirrors rfl hm hlength (fun _ => hready) (fun h => by cases h) _
    | assign use value =>
      rw [hst.boundExpr_assign hP] at hu
      cases hu
      have hm := (hruns.matches fun _ h => nomatch h).mirrors
      exact exact_of_mirrors rfl hm rfl (fun h => absurd rfl h) (fun h => by cases h) _
    | receiver use =>
      have hcls := Scoping.cls_of_silent_receiver hclean.silent
      rw [hst.boundExpr_receiver hP] at hu
      cases hu
      have hm := (hruns.matches fun _ h => nomatch h).mirrors
      have hreading : σ.Reading P os [⟨.receiver, use⟩] := hstanding
      have hn := hreading.nested_cls (show UseKind.receiver ≠ .variable by decide)
      have hname : use.name.text = "this" := hclean.regular
      refine exact_of_mirrors rfl hm rfl (fun _ d hd => ?_) (fun h => by cases h) _
      rw [show (⟨.receiver, ⟨use.name, σ.hops? use.name.text⟩⟩ : Occurrence).use.name.text = _ from
        hname] at hd ⊢
      exact hn.receiver_ready hreading.aligned hcls hd
    | superMethod use method =>
      have hcls := Scoping.cls_of_silent_super hclean.silent
      rw [Scoping.boundExpr_superMethod] at hu
      cases hu
      have hm := (hruns.matches fun _ h => nomatch h).mirrors
      have hreading : σ.Reading P os [⟨.superMethod, use⟩] := hstanding
      have hname : use.name.text = "super" := hclean.regular
      have huse : (⟨.superMethod, ⟨use.name, σ.hops? use.name.text⟩⟩ : Occurrence).use.name.text =
          "super" := hname
      refine exact_of_mirrors rfl hm rfl (fun _ d hd => ?_) (fun _ d a hd ha => ?_) _
      · rw [huse] at hd ⊢
        have hn := hreading.nested_cls (show UseKind.superMethod ≠ .variable by decide)
        obtain ⟨i, cls, _, hsuper, _, ho⟩ := hn.superclass_hops hreading.aligned hcls
        cases hsuper.symm.trans hd
        exact hreading.aligned.given_ready ho (List.mem_singleton.mpr rfl)
      · rw [huse] at hd
        exact receiver_inside_superclass hreading hcls hm hd ha
    | literal _ | grouping _ | unary _ _ | binary _ _ _ | logical _ _ _ | ternary _ _ _
    | call _ _ _ | get _ _ | set _ _ _ | stray _ => cases hu

/-- **Recorded distances are exact.** For every session there is an opener for each of its frames such
that every evaluation that an accepted input comes to happens where a place of one of the programs so
far runs: the frame and those around it are instances of the scopes that are open there, one for one,
out to the globals; and the record of the use that is evaluated is exact. -/
theorem recorded_distances_exact (limits : Limits) (clock : Clock) (inputs : List Input) :
    ∃ labels : FrameId → Opener, ∀ earlier input later, inputs = earlier ++ input :: later →
      ∀ t, ((Session.start limits clock).after earlier).Reaches input t →
        ∃ v, VisitedIn (writtenPrograms limits (earlier ++ [input])) v ∧
          v.resolved? = some t.site ∧ Aligned v.scoping.scopes v.openers ∧
          Runs ⟨labels, t.store⟩ v t.frame ∧
          ∀ u, t.site.occurrence? = some u → Exact ⟨labels, t.store⟩ v t.frame u := by
  have hstart := sound_initial (P := VisitedIn (writtenPrograms limits []))
    (fun _ => .block []) clock
  obtain ⟨w, _, _, _, hmoments⟩ := Session.explained limits inputs [] (Session.start limits clock)
    ⟨fun _ => .block [], Store.initial clock⟩ rfl rfl hstart
  refine ⟨w.labels, fun earlier input later heq t ht => ?_⟩
  obtain ⟨_, v, hP, hv, hruns⟩ := hmoments earlier input later heq t ht
  obtain ⟨ha, hexact⟩ := exact_of_runs (stock_written limits _) hP hv hruns
  exact ⟨v, hP, hv, ha, hruns, hexact⟩

/-- A local variable that is read in its block. -/
theorem recorded_distance_exact_in_block :
    let input : Input := .program "{ var a; a; }"
    let use : NameUse := ⟨⟨.identifier, "a", some 9⟩, some 0⟩
    let s := ((Store.initial (.still ⟨0⟩)).withFrame (some 0)).define 1 "a" .nil
    (Session.start ⟨40, 5⟩ (.still ⟨0⟩)).Reaches input ⟨.expr (.variable use), 1, s⟩ ∧
      ∃ labels v, VisitedIn (writtenPrograms ⟨40, 5⟩ [input]) v ∧ Runs ⟨labels, s⟩ v 1 ∧
        Exact ⟨labels, s⟩ v 1 ⟨.variable, use⟩ := by
  intro input use s
  let t : Moment := ⟨.expr (.variable use), 1, s⟩
  have hreaches : (Session.start ⟨40, 5⟩ (.still ⟨0⟩)).Reaches input t := by
    refine ⟨⟨[.block [.var ⟨.identifier, "a", some 6⟩ none, .expr (.variable (.free use.name))]],
      .program [.block [.var ⟨.identifier, "a", some 6⟩ none, .expr (.variable use)]]⟩, rfl,
      fun m => ?_⟩
    let evaluator := Evaluator.watched (.stopAt t m) .recorded 5
    have hpass : ∀ stmt f s, Watch.stopAt t m (.stmt stmt) f s = (.ok (), s) :=
      fun _ _ _ => if_neg (by simp [t])
    have hstop : Watch.stopAt t m (.expr (.variable use)) 1 s = (.error (.misplaced m), s) :=
      if_pos rfl
    have hread : (evaluator 35 0).expr (.variable use) 1 s = (.error (.misplaced m), s) :=
      bind_error hstop
    have hexpr : (evaluator 37 0).stmt (.expr (.variable use)) 1 s = (.error (.misplaced m), s) :=
      (bind_ok (hpass ..)).trans (placed_misplaced (bind_error (bind_error hread)))
    have hvar : (evaluator 37 0).stmt (.var ⟨.identifier, "a", some 6⟩ none) 1
        ((Store.initial (.still ⟨0⟩)).withFrame (some 0)) = (.ok .next, s) := bind_ok (hpass ..)
    have hblock : (evaluator 40 0).stmt
        (.block [.var ⟨.identifier, "a", some 6⟩ none, .expr (.variable use)]) 0
        (Store.initial (.still ⟨0⟩)) = (.error (.misplaced m), s) :=
      (bind_ok (hpass ..)).trans (placed_misplaced ((bind_ok hvar).trans (bind_error hexpr)))
    exact bind_error (reported_error (bind_error hblock))
  obtain ⟨labels, hexact⟩ := recorded_distances_exact ⟨40, 5⟩ (.still ⟨0⟩) [input]
  obtain ⟨v, hP, _, _, hruns, huse⟩ := hexact [] input [] rfl t hreaches
  exact ⟨hreaches, labels, v, hP, hruns, huse _ rfl⟩

end Lox
