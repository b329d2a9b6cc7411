/-
# Calls in frames of their own

A call runs the body of a function in a new frame, an instance of the scope
for the parameters and the body; reading a method makes a frame for its
receiver. In both cases the new frame lies in one that mirrors the scopes
outside, so it matches the scopes at the body. A function that was made in one
input and is called in another brings these scopes along.

Key definitions: `Lox.Goes`, `Lox.Keeps`.
Key theorems: `Lox.Holds.receiverFrame`, `Lox.Holds.execBody`, `Lox.Holds.invoke`,
`Lox.Holds.callWith`.
-/
import Lox.Proofs.Dispatch.Superclasses
import Lox.Proofs.Running.Names

namespace Lox

open Procedure

variable {P : Visit → Prop} {w w' : World} {σ : Scoping} {os : List Opener} {f : FrameId}

/-- What a statement leaves: if it ends normally, its frame matches the scopes behind it; a value that
is given back is known. -/
def Goes (P : Visit → Prop) (scopes : List (Bindings Bool)) (os : List Opener) (f : FrameId)
    (w : World) : Flow → Prop
  | .next => Matches w scopes os f
  | .returning v => Known P w v

/-- In frames that match, the evaluations do as they are proved to. -/
structure Keeps (P : Visit → Prop) (inner : Watch → Evaluator) : Prop where
  access : ∀ watch, (inner watch).access = .recorded
  turns : ∀ watch, (inner watch).turns = (inner .quiet).turns
  expr : ∀ {w : World} {σ : Scoping} {os : List Opener} {e : Expr} {f : FrameId},
    P ⟨.expr e, σ, os⟩ → Sound P w → Runs w ⟨.expr e, σ, os⟩ f →
      Holds P none w (fun watch => (inner watch).expr (σ.boundExpr e) f) (Known P)
  stmt : ∀ {w : World} {σ : Scoping} {os : List Opener} {s : Stmt} {f : FrameId},
    P ⟨.stmt s, σ, os⟩ → Sound P w → Matches w σ.scopes os f →
      Holds P (some f) w (fun watch => (inner watch).stmt (σ.boundStmt s) f)
        (Goes P (σ.behindStmt s).scopes os f)
  called : ∀ {w : World} {σ : Scoping} {os : List Opener} {s : Stmt} {f : FrameId},
    P ⟨.stmt s, σ, os⟩ → Sound P w → Matches w σ.scopes os f →
      Holds P (some f) w (fun watch => (inner watch).called (σ.boundStmt s) f)
        (Goes P (σ.behindStmt s).scopes os f)

/-! ### New frames and names -/

theorem Known.all (hs : Framed w) (hs' : Framed w') {free : Option FrameId} (hle : w.Le free w')
    {vs : List Value} (h : ∀ v ∈ vs, Known P w v) : ∀ v ∈ vs, Known P w' v :=
  fun v hv => (h v hv).mono hs hs' hle

/-- A new frame for an opener that gives no names is the one that runs at its start. -/
theorem Matches.enter (hs : Framed w) (hm : Mirrors w σ.scopes os f) (o : Opener) :
    Matches (w.withFrame f o) (σ.enter []).scopes (o :: os) w.store.frames.size := by
  have hlabel : (w.withFrame f o).labels w.store.frames.size = o := if_pos rfl
  have hempty : ∀ name, ¬ (w.withFrame f o).store.Binds w.store.frames.size name :=
    fun name hb => (Store.binds_withFrame.mp hb).1 rfl
  refine ⟨?_, fun scope _ name hb => absurd hb (hempty name)⟩
  have hle : w.Le none (w.withFrame f o) := World.le_withFrame f o
  have hlt : w.store.frames.size < (w.withFrame f o).store.frames.size := by
    simp [World.withFrame, Store.withFrame]
  have hparent : ((w.withFrame f o).store.frame w.store.frames.size).parent = some f := by
    rw [show (w.withFrame f o).store.frame _ = _ from Store.frame_withFrame .., if_pos rfl]
  have hready : ∀ name, (⟨[]⟩ : Bindings Bool).get? name = some true →
      (w.withFrame f o).store.Binds w.store.frames.size name := fun _ h => by cases h
  have hinside := Mirrors.inside hlt hready (fun name hb => absurd hb (hempty name)) hparent
    (hm.mono (hs.withFrame f o) hle)
  rwa [hlabel] at hinside

/-- A name that its opener declares is bound in the frame, and ready in the scope. -/
theorem Matches.define (hs : Framed w) (hm : Matches w σ.scopes os f) {m : Mark} {v : Value}
    (hn : ∀ o ∈ os.head?, m.text ∈ o.names) :
    Matches (w.set (w.store.define f m.text v)) (σ.define m).scopes os f ∧
      (f ≠ Store.globals → m.text ∈ (w.labels f).names) := by
  have hf := hm.mirrors.lt hs
  obtain ⟨hmirrors, hexact⟩ := hm
  cases hscopes : σ.scopes with
  | nil =>
    rw [hscopes] at hmirrors
    rw [Scoping.define_of_nil hscopes, hscopes]
    cases hmirrors
    exact ⟨⟨.globals, fun _ h => nomatch h⟩, fun h => absurd rfl h⟩
  | cons scope outer =>
    rw [hscopes] at hmirrors hexact
    rw [Scoping.define_of_cons hscopes]
    cases hmirrors with
    | @inside _ _ os' _ p _ hready hnames hp hm =>
      have hname : m.text ∈ (w.labels f).names := hn _ rfl
      have hs' : Framed (w.set (w.store.define f m.text v)) := hs.define hf fun _ => hname
      have hle : w.Le (some f) (w.set (w.store.define f m.text v)) := World.le_define hf
      refine ⟨⟨?_, ?_⟩, fun _ => hname⟩
      · show Mirrors _ _ ((w.set (w.store.define f m.text v)).labels f :: _) _
        refine .inside ?_ ?_ ?_ ?_ (hm.mono hs' hle)
        · exact Nat.lt_of_lt_of_le hf hle.frames
        · intro name hr
          rw [Bindings.get?_bind] at hr
          refine (Store.binds_define hf).mpr ?_
          split at hr
          · rename_i heq
            exact .inl ⟨rfl, heq⟩
          · exact .inr (hready name hr)
        · intro name hb
          obtain ⟨_, rfl⟩ | hb := (Store.binds_define hf).mp hb
          · exact hname
          · exact hnames name hb
        · rw [hle.parent f hf]
          exact hp
      · intro first hfirst name hb
        cases hfirst
        rw [Bindings.get?_bind]
        obtain ⟨_, rfl⟩ | hb := (Store.binds_define hf).mp hb
        · rw [if_pos rfl]
        · rw [hexact scope rfl name hb]
          split <;> rfl

namespace Holds

/-- A name is bound in the frame that runs. -/
theorem define (hs : Sound P w) (hm : Matches w σ.scopes os f) {m : Mark} {v : Value}
    (hn : ∀ o ∈ os.head?, m.text ∈ o.names) (hv : Known P w v) :
    Holds P (some f) w (fun _ => Run.define f m.text v)
      fun w' _ => Matches w' (σ.define m).scopes os f := by
  obtain ⟨hm', hname⟩ := hm.define hs.toFramed hn
  have hf := hm.mirrors.lt hs.toFramed
  exact step rfl (World.le_define hf) (hs.define hf hname hv) hm'

end Holds

/-! ### Methods -/

theorem methodKind_eq_initializer {name : Mark} :
    methodKind name = .initializer ↔ name.text = Store.initName := by
  rw [methodKind, Store.initName]
  split <;> simp_all

theorem Sound.findMethod? (hs : Sound P w) {c : ClassId} {name : String} {m : FunctionId}
    (h : w.store.findMethod? c name = some m) : Bindable P w name m := by
  obtain ⟨q, hq⟩ := Store.defined_of_findMethod? h
  exact hs.methods q name m hq

namespace Holds

variable (hst : Stock P)

include hst

/-- The frame of a receiver mirrors the scopes at the method. -/
theorem receiverFrame {id : FunctionId} {name : String} {receiver : Value} (hs : Sound P w)
    (hb : Bindable P w name id) (hv : Known P w receiver) :
    Holds P none w (fun _ => receiverFrame id receiver) fun w' frame => Callable P w' id frame := by
  cases hb with
  | @of decl τ cls os hid hP hdecl hname hinit hm =>
    have ha : Aligned τ.scopes (.receiver cls :: os) := (hst.standing hP).1.aligned
    let made := w.binding (w.store.function id).frame (.receiver cls) "this" receiver
    have hrun : Lox.receiverFrame id receiver w.store = (.ok w.store.frames.size, made.store) := rfl
    have hle : w.Le none made := World.le_binding ..
    have hs' : Sound P made := hs.binding hv rfl
    have hkind : (w.store.function id).isInitializer = true ↔ methodKind decl.name = .initializer := by
      rw [hinit, methodKind_eq_initializer, hname, decide_eq_true_iff]
    refine step hrun hle hs'
      (.of hid hP hdecl hkind (fun _ => World.binds_binding.mpr (.inl ⟨rfl, rfl⟩)) ?_)
    cases hscopes : τ.scopes with
    | nil =>
      rw [hscopes] at ha
      cases ha
    | cons scope scopes =>
      rw [hscopes] at ha hm
      cases ha with
      | inside hnames _ _ =>
        refine hm.binding hs'.toFramed rfl fun name hr => ?_
        simpa [Opener.names] using hnames name (by simp [Bindings.contains, hr])

/-- A method bound to a receiver is known. -/
theorem bindMethod {id : FunctionId} {name : String} {receiver : Value} (hs : Sound P w)
    (hb : Bindable P w name id) (hv : Known P w receiver) :
    Holds P none w (fun _ => bindMethod id receiver) (Known P) := by
  refine bind (receiverFrame hst hs hb hv) fun w1 frame _ hs1 hc => ?_
  let made := w1.set (w1.store.withMethod ⟨id, frame⟩)
  have hs2 : Sound P made := hs1.withMethod ⟨id, frame⟩
  have hle : w1.Le none made := World.le_withMethod ⟨id, frame⟩
  have hmethod : made.store.method w1.store.methods.size = ⟨id, frame⟩ :=
    (Store.method_withMethod ..).trans (if_pos rfl)
  have hknown : Known P made (.method w1.store.methods.size) := by
    refine ⟨by simp [made, World.set, Store.withMethod], ?_⟩
    rw [hmethod]
    exact hc.mono hs2.toFramed hle (hc.lt hs1.toFramed)
  exact step rfl hle hs2 hknown

theorem getProperty {v : Value} (hs : Sound P w) (hv : Known P w v) (name : Mark) :
    Holds P none w (fun _ => getProperty v name) (Known P) := by
  cases v with
  | instanceRef id =>
    show Holds P none w (fun _ => instanceProperty id name) _
    unfold instanceProperty
    refine read ?_
    cases hf : (w.store.instanceObject id).fields.get? name.text with
    | some u => exact pure hs (hs.fields id name.text u hf)
    | none =>
      refine read ?_
      cases hm : w.store.findMethod? (w.store.instanceObject id).cls name.text with
      | some m => exact bindMethod hst hs (hs.findMethod? hm) hv
      | none => exact fail hs
  | const _ | native _ | function _ | method _ | classRef _ => exact fail hs

/-- The superclass and the receiver are found where they are recorded. -/
theorem superProperty {use : NameUse} (hs : Sound P w) (ha : Aligned σ.scopes os)
    (hn : Nested σ.cls os) (hm : Mirrors w σ.scopes os f) (hcls : σ.cls = .subclass)
    (hname : use.name.text = "super") (name : Mark) :
    Holds P none w (fun _ => superProperty ⟨use.name, σ.hops? use.name.text⟩ name f) (Known P) := by
  obtain ⟨d, cls, hthis, hsuper, ho, ho'⟩ := hn.superclass_hops ha hcls
  obtain ⟨scope, hscope, hr⟩ := ha.given_ready ho (List.mem_singleton.mpr rfl)
  obtain ⟨scope', hscope', hr'⟩ := ha.given_ready ho' (List.mem_singleton.mpr rfl)
  have hd : σ.hops? use.name.text = some (d + 1) := by
    rw [hname]
    exact hsuper
  rw [hd]
  unfold Lox.superProperty
  refine bind (getAt hs hm hscope' hr') fun w1 superclass hle1 hs1 _ => ?_
  have hone : ((d + 1 : Nat) : Int) - 1 = d := by omega
  simp only [hone]
  refine bind (getAt hs1 (hm.mono hs1.toFramed hle1) hscope hr) fun w2 receiver hle2 hs2 hv => ?_
  refine read ?_
  cases hmethod : w2.store.methodOf? superclass name.text with
  | none => exact fail hs2
  | some m =>
    cases superclass with
    | classRef c => exact bindMethod hst hs2 (hs2.findMethod? hmethod) hv
    | const _ | native _ | function _ | method _ | instanceRef _ => cases hmethod

end Holds

/-! ### Bodies and calls -/

namespace Holds

/-- Parameters are bound one after the other. -/
theorem bindParams {params : List Mark} {args : List Value} {w : World} {σ : Scoping}
    (hs : Sound P w) (hm : Matches w σ.scopes os f)
    (hn : ∀ m ∈ params, ∀ o ∈ os.head?, m.text ∈ o.names) (hv : ∀ v ∈ args, Known P w v)
    (hlen : args.length = params.length) :
    Holds P (some f) w (fun _ => bindParams f params args)
      fun w' _ => Matches w' (σ.defineAll params).scopes os f := by
  induction params generalizing args w σ with
  | nil => exact pure hs hm
  | cons m params ih =>
    cases args with
    | nil => cases hlen
    | cons v args =>
      refine bind (define hs hm (hn m (List.mem_cons_self ..)) (hv v (List.mem_cons_self ..)))
        fun w' _ hle hs' hm' => ?_
      exact ih hs' hm' (fun m' h => hn m' (List.mem_cons_of_mem _ h))
        (fun v' h => (hv v' (List.mem_cons_of_mem _ h)).mono hs.toFramed hs'.toFramed hle)
        (Nat.succ.inj hlen)

/-- The statements of a body run in the same frame, each where the one before has left it. -/
theorem execBody (hst : Stock P) {exec : Watch → Stmt → FrameId → Run Flow}
    (hexec : ∀ {w : World} {σ : Scoping} {s : Stmt}, P ⟨.stmt s, σ, os⟩ → Sound P w →
      Matches w σ.scopes os f → Holds P (some f) w (fun watch => exec watch (σ.boundStmt s) f)
        (Goes P (σ.behindStmt s).scopes os f)) :
    ∀ {body : List Stmt} {w : World} {σ : Scoping}, P ⟨.body body, σ, os⟩ → Sound P w →
      Matches w σ.scopes os f →
        Holds P (some f) w (fun watch => execBody (exec watch) (σ.boundBody body) f)
          fun w' flow => ∀ v, flow = .returning v → Known P w' v
  | [], w, σ, _, hs, _ => pure hs fun _ h => nomatch h
  | s :: body, w, σ, hP, hs, hm => by
    have hP' : P ⟨.stmt s, σ, os⟩ := hst.part hP (List.mem_cons_self ..)
    show Holds P (some f) w (fun watch => exec watch (σ.boundStmt s) f >>= fun flow =>
      match flow with
      | .next => Lox.execBody (exec watch) ((σ.behindStmt s).boundBody body) f
      | .returning v => Pure.pure (.returning v)) _
    refine bind (hexec hP' hs hm) fun w' flow _ hs' hgoes => ?_
    cases flow with
    | next => exact execBody hst hexec (hst.part hP (by simp [Visit.parts])) hs' hgoes
    | returning v =>
      refine pure hs' fun u hu => ?_
      cases hu
      exact hgoes

variable (hst : Stock P) {inner : Watch → Evaluator} (hk : Keeps P inner)

include hst hk

/-- A function runs in a frame of its own, where its parameters are bound. -/
theorem invoke {id : FunctionId} {outer : FrameId} {args : List Value} (hs : Sound P w)
    (hc : Callable P w id outer) (hargs : ∀ v ∈ args, Known P w v)
    (hlen : args.length = w.store.functionArity id) :
    Holds P none w (fun watch => invoke (inner watch) id outer args) (Known P) := by
  cases hc with
  | @of kind decl τ os hid hP hdecl _ hinit hmirrors =>
    obtain ⟨name, params, body⟩ := decl
    let opener : Opener := .call ⟨name, params, body⟩
    have hPbody : P ⟨.body body, τ.enteringFunction kind params, opener :: os⟩ :=
      hst.part hP (List.mem_singleton_self _)
    have hentering := Scoping.enteringFunction_of_silent
      ((hst.clean hPbody).silent.of_le (Scoping.le_behindBody body (τ.enteringFunction kind params)))
    have hbound : τ.boundFunction kind ⟨name, params, body⟩ =
        ⟨name, params, (τ.enteringFunction kind params).boundBody body⟩ := rfl
    unfold Lox.invoke
    refine read ?_
    rw [Store.functionArity, hdecl] at hlen
    rw [hdecl, hbound]
    -- the new frame, before the parameters are bound
    have hs1 : Sound P (w.withFrame outer opener) := hs.withFrame outer opener
    have hle1 : w.Le none (w.withFrame outer opener) := World.le_withFrame outer opener
    have hm1 := Matches.enter hs.toFramed hmirrors opener
    have hparams : ∀ m ∈ params, ∀ o ∈ (opener :: os).head?, m.text ∈ o.names := by
      intro m hm o ho
      cases ho
      exact List.mem_append_left _ (List.mem_map_of_mem hm)
    refine newFrame opener ?_
    refine bind (bindParams (σ := { τ.enter [] with function := kind }) hs1 hm1 hparams
      (Known.all hs.toFramed hs1.toFramed hle1 hargs) hlen) fun w2 _ hle2 hs2 hm2 => ?_
    rw [← hentering] at hm2
    refine bind (execBody hst (fun hP hs hm => hk.called hP hs hm) hPbody hs2 hm2)
      fun w3 flow hle3 hs3 hflow => ?_
    split
    · rename_i hi
      have ho := hmirrors.lt hs.toFramed
      have ho1 := Nat.lt_of_lt_of_le ho hle1.frames
      have hb1 := hle1.bound outer ho _ (hinit hi)
      have hb3 := hle3.bound outer (Nat.lt_of_lt_of_le ho1 hle2.frames) _
        (hle2.bound outer ho1 _ hb1)
      obtain ⟨v, hv, hvar⟩ := getAt_of_binds (d := 0) rfl hb3
      exact step hv (.refl _ w3) hs3 (hs3.vars outer _ v hvar)
    · cases flow with
      | next => exact pure hs3 trivial
      | returning v => exact pure hs3 (hflow v rfl)

/-- A value is called that takes so many arguments. -/
theorem apply {callee : Value} {args : List Value} (hs : Sound P w) (hc : Known P w callee)
    (hargs : ∀ v ∈ args, Known P w v) (hlen : w.store.arity? callee = some args.length) :
    Holds P none w (fun watch => apply (inner watch) callee args) (Known P) := by
  cases callee with
  | const _ | instanceRef _ => exact pure hs trivial
  | native function =>
    cases function
    have hle : w.Le none (w.set w.store.ticked) :=
      World.le_of_frames rfl (Nat.le_refl _) (fun _ _ => rfl) (Nat.le_refl _) fun _ _ => rfl
    exact bind (step rfl hle hs.ticked (Q := fun _ _ => True) trivial) fun _ _ _ hs₁ _ => pure hs₁ trivial
  | function id => exact read (invoke hst hk hs hc.1 hargs (Option.some.inj hlen).symm)
  | method id => exact read (invoke hst hk hs hc.2 hargs (Option.some.inj hlen).symm)
  | classRef c =>
    let made := w.set (w.store.withInstance c)
    have hs1 : Sound P made := hs.withInstance c
    have hle1 : w.Le none made :=
      World.le_of_frames rfl (Nat.le_refl _) (fun _ _ => rfl) (Nat.le_refl _) fun _ _ => rfl
    refine bind (step rfl hle1 hs1 (Q := fun w' _ => w' = made) rfl) fun _ object _ _ hw => ?_
    subst hw
    refine read ?_
    have harity := Option.some.inj hlen
    cases hm : made.store.findMethod? c Store.initName with
    | none => exact pure hs1 trivial
    | some m =>
      have hsame : made.store.findMethod? c Store.initName =
          w.store.findMethod? c Store.initName :=
        Store.findMethod?_congr (show made.store.classes = w.store.classes from rfl)
      rw [← hsame, hm] at harity
      have hargs1 := Known.all hs.toFramed hs1.toFramed hle1 hargs
      refine bind (receiverFrame hst hs1 (hs1.findMethod? hm) trivial) fun w2 frame hle2 hs2 hc => ?_
      have hid : m < made.store.functions.size := by
        cases hs1.findMethod? hm with
        | of hid _ _ _ _ _ => exact hid
      have harity2 : args.length = w2.store.functionArity m := by
        rw [Store.functionArity, hle2.function m hid]
        exact harity.symm
      have hargs2 := Known.all hs1.toFramed hs2.toFramed hle2 hargs1
      refine bind (discard (invoke hst hk hs2 hc hargs2 harity2)) fun w3 _ _ hs3 _ => ?_
      exact pure hs3 trivial

/-- A value is called if it can be, and takes so many arguments. -/
theorem callWith {callee : Value} {args : List Value} {place : Option Int} (hs : Sound P w)
    (hc : Known P w callee) (hargs : ∀ v ∈ args, Known P w v) :
    Holds P none w (fun watch => callWith (inner watch) callee args place) (Known P) := by
  unfold Lox.callWith
  refine read ?_
  cases harity : w.store.arity? callee with
  | none => exact fail hs
  | some expected =>
    dsimp only
    split
    · rename_i hlen
      exact apply hst hk hs hc hargs (harity.trans (congrArg some hlen.symm))
    · exact fail hs

end Holds

end Lox
