/-
# Binding names that stand elsewhere

The pass of names asks what a mark says and not where it stands. Of a tree
whose marks are only moved it makes the moved tree, with the same records, and
it notes the same misuses, whatever there is room for: each step of the pass
commutes with moving the marks (`Lox.Resolve.Moves`).

Key definitions: `Lox.Scoping.Alike`, `Lox.Resolve.Moves`.
Key theorems: `Lox.moves_resolveStmt`, `Lox.resolve_moving`, `Lox.resolveExpression_moving`.
-/
import Lox.Proofs.Spelling.Respelling
import Lox.Resolution

namespace Lox

open Respelling

namespace Scoping

/-- The same is known at both places, and the same misuses were noted, wherever they stand. -/
structure Alike (σ τ : Scoping) : Prop where
  scopes : τ.scopes = σ.scopes
  pending : τ.pending = σ.pending
  function : τ.function = σ.function
  cls : τ.cls = σ.cls
  misuses : τ.errors.toList.map ScopeError.misuse = σ.errors.toList.map ScopeError.misuse
  misplaced : τ.misplaced = σ.misplaced
  stopped : τ.stopped = σ.stopped

variable {σ τ : Scoping} {m m' : Mark}

theorem Alike.refl (σ : Scoping) : σ.Alike σ := ⟨rfl, rfl, rfl, rfl, rfl, rfl, rfl⟩

theorem Alike.note (h : σ.Alike τ) (misuse : Misuse) :
    (σ.note misuse m).Alike (τ.note misuse m') :=
  { h with misuses := by simpa [Scoping.note] using h.misuses }

theorem Alike.declare (h : σ.Alike τ) (hm : m'.text = m.text) :
    (σ.declare m).Alike (τ.declare m') := by
  unfold Scoping.declare
  rw [h.scopes, hm]
  cases σ.scopes with
  | nil => exact h
  | cons scope outer =>
    dsimp only
    split
    · have hnoted : (σ.note .declaredTwice m).Alike (τ.note .declaredTwice m') := h.note _
      exact { hnoted with scopes := rfl }
    · exact { h with scopes := rfl }

theorem Alike.define (h : σ.Alike τ) (hm : m'.text = m.text) :
    (σ.define m).Alike (τ.define m') := by
  unfold Scoping.define
  rw [h.scopes, hm]
  cases σ.scopes with
  | nil => exact h
  | cons scope outer => exact { h with scopes := rfl }

theorem Alike.hops? (h : σ.Alike τ) (name : String) : τ.hops? name = σ.hops? name := by
  rw [Scoping.hops?, h.scopes]
  rfl

theorem Alike.unready (h : σ.Alike τ) (name : String) : τ.unready name = σ.unready name := by
  unfold Scoping.unready
  rw [h.scopes, h.pending]

theorem Alike.enter (h : σ.Alike τ) (names : List String) :
    (σ.enter names).Alike (τ.enter names) :=
  { h with scopes := congrArg (_ :: ·) h.scopes }

theorem Alike.leave (h : σ.Alike τ) : σ.leave.Alike τ.leave :=
  { h with scopes := congrArg List.tail h.scopes }

theorem Alike.suspend (h : σ.Alike τ) (name : String) :
    (σ.suspend name).Alike (τ.suspend name) :=
  { h with pending := congrArg (List.insert name) h.pending }

theorem Alike.release (h : σ.Alike τ) (name : String) :
    (σ.release name).Alike (τ.release name) :=
  { h with pending := congrArg (List.filter (· ≠ name)) h.pending }

theorem Alike.within (h : σ.Alike τ) (cls : ClassKind) :
    ({ σ with cls := cls } : Scoping).Alike { τ with cls := cls } :=
  { h with cls := rfl }

end Scoping

/-! ### Steps of the pass -/

namespace Resolve

variable {α β γ : Type} {g : α → α} {k : β → β}

/-- From places alike the second step makes what the first one makes, with its marks moved. -/
def Moves (g : α → α) (p p' : Resolve α) : Prop :=
  ∀ σ τ : Scoping, σ.Alike τ → (p'.run τ).1 = g (p.run σ).1 ∧ (p.run σ).2.Alike (p'.run τ).2

namespace Moves

theorem pure {a a' : α} (ha : a' = g a) : Moves g (Pure.pure a) (Pure.pure a') :=
  fun _ _ h => ⟨ha, h⟩

theorem bind {p p' : Resolve α} {q q' : α → Resolve β} (hp : Moves g p p')
    (hq : ∀ a, Moves k (q a) (q' (g a))) : Moves k (p >>= q) (p' >>= q') := by
  intro σ τ h
  obtain ⟨hresult, hstate⟩ := hp σ τ h
  show ((q' (p'.run τ).1).run (p'.run τ).2).1 = k ((q (p.run σ).1).run (p.run σ).2).1 ∧
    ((q (p.run σ).1).run (p.run σ).2).2.Alike ((q' (p'.run τ).1).run (p'.run τ).2).2
  rw [hresult]
  exact hq _ _ _ hstate

/-- What is known may be asked for. -/
theorem bind_get {q q' : Scoping → Resolve β}
    (hq : ∀ σ τ : Scoping, σ.Alike τ → Moves k (q σ) (q' τ)) : Moves k (get >>= q) (get >>= q') :=
  fun σ τ h => hq σ τ h σ τ h

theorem modify {m m' : Scoping → Scoping} (hm : ∀ σ τ : Scoping, σ.Alike τ → (m σ).Alike (m' τ)) :
    Moves id (modify m) (modify m') :=
  fun σ τ h => ⟨rfl, hm σ τ h⟩

theorem ite {c : Prop} [Decidable c] {p p' q q' : Resolve α} (hp : Moves g p p')
    (hq : Moves g q q') : Moves g (if c then p else q) (if c then p' else q') := by
  split
  · exact hp
  · exact hq

theorem unlessStopped {room : Room} {a : α} {p p' : Resolve α} (hp : Moves g p p') :
    Moves g (unlessStopped room a p) (unlessStopped room (g a) p') := by
  cases room with
  | none => exact hp
  | some n =>
    intro σ τ h
    rw [run_unlessStopped, run_unlessStopped, h.stopped]
    cases σ.stopped with
    | true => exact ⟨rfl, h⟩
    | false => exact hp σ τ h

theorem further {a : α} {step step' : Room → Resolve α}
    (h : ∀ room, Moves g (step room) (step' room)) : ∀ room,
    Moves g (further room a step) (further room (g a) step')
  | none => h none
  | some 0 => fun _ _ hσ => ⟨rfl, { hσ with stopped := rfl }⟩
  | some (_ + 1) => unlessStopped (h _)

end Moves

end Resolve

open Resolve

variable {place : Int → Int}

theorem moves_resolveUse (use : NameUse) : Moves (NameUse.respell (moving place)) (resolveUse use)
    (resolveUse (use.respell (moving place))) := by
  refine .bind_get fun σ τ h => .pure ?_
  rw [h.hops?]
  rfl

theorem moves_resolveVariable (use : NameUse) : Moves (NameUse.respell (moving place))
    (resolveVariable use) (resolveVariable (use.respell (moving place))) := by
  refine .bind_get fun σ τ h => ?_
  have hunready : τ.unready (use.respell (moving place)).name.text = σ.unready use.name.text :=
    h.unready _
  rw [hunready]
  exact .ite (.bind (.modify fun _ _ h => h.note _) fun _ => moves_resolveUse use)
    (moves_resolveUse use)

/-- The first node out of place is noted, wherever it stands. -/
theorem moves_noteMisplaced (m : Misplaced) :
    Moves id (modify (·.noteMisplaced m)) (modify (·.noteMisplaced m)) :=
  .modify fun _ _ h => { h with misplaced := congrArg (·.or (some m)) h.misplaced }

mutual

/-- Of a moved expression the pass makes the moved expression. -/
theorem moves_resolveExpr : ∀ (e : Expr) (room : Room), Moves (Expr.respell (moving place))
    (resolveExpr room e) (resolveExpr room (e.respell (moving place)))
  | .literal _, room => by
    refine .further (fun room => ?_) room
    exact .pure rfl
  | .grouping e, room | .unary _ e, room | .get e _, room => by
    refine .further (fun room => ?_) room
    exact .bind (moves_resolveExpr e room) fun _ => .pure rfl
  | .binary l _ r, room | .logical l _ r, room => by
    refine .further (fun room => ?_) room
    exact .bind (moves_resolveExpr l room) fun _ => .bind (moves_resolveExpr r room) fun _ =>
      .pure rfl
  | .ternary cond yes no, room => by
    refine .further (fun room => ?_) room
    exact .bind (moves_resolveExpr cond room) fun _ => .bind (moves_resolveExpr yes room) fun _ =>
      .bind (moves_resolveExpr no room) fun _ => .pure rfl
  | .variable use, room => by
    refine .further (fun room => ?_) room
    exact .bind (moves_resolveVariable use) fun _ => .pure rfl
  | .assign use value, room => by
    refine .further (fun room => ?_) room
    exact .bind (moves_resolveExpr value room) fun _ =>
      .bind (.unlessStopped (moves_resolveUse use)) fun _ => .pure rfl
  | .call callee _ args, room => by
    refine .further (fun room => ?_) room
    exact .bind (moves_resolveExpr callee room) fun _ => .bind (moves_resolveArgs args room) fun _ =>
      .pure rfl
  | .set object _ value, room => by
    refine .further (fun room => ?_) room
    exact .bind (moves_resolveExpr value room) fun _ => .bind (moves_resolveExpr object room) fun _ =>
      .pure rfl
  | .receiver use, room => by
    refine .further (fun room => .bind_get fun σ τ h => ?_) room
    rw [h.cls]
    exact .ite (.bind (.modify fun _ _ h => h.note _) fun _ => .pure rfl)
      (.bind (moves_resolveUse use) fun _ => .pure rfl)
  | .superMethod use method, room => by
    have hused : Moves (Expr.respell (moving place))
        (do return .superMethod (← resolveUse use) method)
        (do return .superMethod (← resolveUse (use.respell (moving place)))
              (method.respell (moving place))) :=
      .bind (moves_resolveUse use) fun _ => .pure rfl
    refine .further (fun room => .bind_get fun σ τ h => ?_) room
    rw [h.cls]
    cases σ.cls with
    | none | plain => exact .bind (.modify fun _ _ h => h.note _) fun _ => hused
    | subclass => exact hused
  | .stray node, room => by
    refine .further (fun room => ?_) room
    exact .bind (moves_noteMisplaced _) fun _ => .pure rfl

theorem moves_resolveArgs : ∀ (es : List Expr) (room : Room), Moves (argsRespell (moving place))
    (resolveArgs room es) (resolveArgs room (argsRespell (moving place) es))
  | [], _ => .pure rfl
  | e :: es, room =>
    .bind (moves_resolveExpr e room) fun _ => .bind (moves_resolveArgs es room) fun _ => .pure rfl

end

theorem moves_resolveInitializer (room : Room) (name : Mark) : ∀ o : Option Expr,
    Moves (Option.map (Expr.respell (moving place))) (resolveInitializer room name o)
      (resolveInitializer room (name.respell (moving place)) (o.map (Expr.respell (moving place))))
  | none => .pure rfl
  | some e => by
    refine .bind_get fun σ τ h => ?_
    rw [h.scopes]
    exact .ite (.bind (.modify fun _ _ h => h.suspend name.text) fun _ =>
        .bind (moves_resolveExpr e room) fun _ =>
          .bind (.modify fun _ _ h => h.release name.text) fun _ => .pure rfl)
      (.bind (moves_resolveExpr e room) fun _ => .pure rfl)

theorem moves_declareParams : ∀ params : List Mark,
    Moves id (declareParams params) (declareParams (params.map (Mark.respell (moving place))))
  | [] => .pure rfl
  | m :: params =>
    have hm : (m.respell (moving place)).text = m.text := rfl
    .bind (.modify fun _ _ h => (h.declare hm).define hm) fun _ => moves_declareParams params

mutual

/-- Of a moved statement the pass makes the moved statement. -/
theorem moves_resolveStmt : ∀ (s : Stmt) (room : Room), Moves (Stmt.respell (moving place))
    (resolveStmt room s) (resolveStmt room (s.respell (moving place)))
  | .expr e, room | .print e, room => by
    refine .further (fun room => ?_) room
    exact .bind (moves_resolveExpr e room) fun _ => .pure rfl
  | .var name initial, room => by
    refine .further (fun room => ?_) room
    exact .bind (.modify fun _ _ h => h.declare rfl) fun _ =>
      .bind (moves_resolveInitializer room name initial) fun _ =>
        .bind (.modify fun _ _ h => h.define rfl) fun _ => .pure rfl
  | .block body, room => by
    refine .further (fun room => ?_) room
    exact .bind (.modify fun _ _ h => h.enter []) fun _ => .bind (moves_resolveBody body room) fun _ =>
      .bind (.modify fun _ _ h => h.leave) fun _ => .pure rfl
  | .branch cond yes none, room | .loop cond yes, room => by
    refine .further (fun room => ?_) room
    exact .bind (moves_resolveExpr cond room) fun _ => .bind (moves_resolveStmt yes room) fun _ =>
      .pure rfl
  | .branch cond yes (some no), room => by
    refine .further (fun room => ?_) room
    exact .bind (moves_resolveExpr cond room) fun _ => .bind (moves_resolveStmt yes room) fun _ =>
      .bind (moves_resolveStmt no room) fun _ => .pure rfl
  | .function ⟨name, params, body⟩, room => by
    have hname : (name.respell (moving place)).text = name.text := rfl
    refine .further (fun room => ?_) room
    exact .bind (.modify fun _ _ h => (h.declare hname).define hname) fun _ =>
      .bind (moves_resolveFunction .function ⟨name, params, body⟩ room) fun _ => .pure rfl
  | .giveBack keyword none, room => by
    refine .further (fun room => .bind_get fun σ τ h => ?_) room
    rw [h.function]
    exact .ite (.bind (.modify fun _ _ h => h.note _) fun _ => .pure rfl) (.pure rfl)
  | .giveBack keyword (some e), room => by
    refine .further (fun room => ?_) room
    have value : Moves (Stmt.respell (moving place))
        (do return .giveBack keyword (some (← resolveExpr room e)))
        (do return .giveBack (keyword.respell (moving place))
              (some (← resolveExpr room (e.respell (moving place))))) :=
      .bind (moves_resolveExpr e room) fun _ => .pure rfl
    have inside : Moves (Stmt.respell (moving place))
        (do
          if (← get).function = .initializer then
            modify (·.note .valueFromInitializer keyword)
          return .giveBack keyword (some (← resolveExpr room e)))
        (do
          if (← get).function = .initializer then
            modify (·.note .valueFromInitializer (keyword.respell (moving place)))
          return .giveBack (keyword.respell (moving place))
            (some (← resolveExpr room (e.respell (moving place))))) := by
      refine .bind_get fun σ τ h => ?_
      rw [h.function]
      exact .ite (.bind (.modify fun _ _ h => h.note _) fun _ => value) value
    refine .bind_get fun σ τ h => ?_
    rw [h.function]
    exact .ite (.bind (.modify fun _ _ h => h.note _) fun _ => inside) inside
  | .classDecl name none ms, room => by
    have hname : (name.respell (moving place)).text = name.text := rfl
    refine .further (fun room => .bind_get fun σ τ h => .bind (.modify fun _ _ h =>
      ((h.within .plain).declare hname).define hname) fun _ => ?_) room
    exact .bind (.modify fun _ _ h => h.enter ["this"]) fun _ =>
      .bind (moves_resolveMethods ms room) fun _ =>
        .bind (.modify fun _ _ h' => { h'.leave with cls := h.cls }) fun _ => .pure rfl
  | .classDecl name (some use) ms, room => by
    have hname : (name.respell (moving place)).text = name.text := rfl
    refine .further (fun room => .bind_get fun σ τ h => .bind (.modify fun _ _ h =>
      ((h.within .plain).declare hname).define hname) fun _ => ?_) room
    have inside : Moves (Stmt.respell (moving place))
        (do
          modify fun s => { s with cls := .subclass }
          let use ← resolveVariable use
          modify fun s => (s.enter ["super"]).enter ["this"]
          let methods ← resolveMethods room ms
          modify fun s => { s.leave.leave with cls := σ.cls }
          return .classDecl name (some use) methods)
        (do
          modify fun s => { s with cls := .subclass }
          let use ← resolveVariable (use.respell (moving place))
          modify fun s => (s.enter ["super"]).enter ["this"]
          let methods ← resolveMethods room (methodsRespell (moving place) ms)
          modify fun s => { s.leave.leave with cls := τ.cls }
          return .classDecl (name.respell (moving place)) (some use) methods) :=
      .bind (.modify fun _ _ h => { h with cls := rfl }) fun _ =>
        .bind (moves_resolveVariable use) fun _ =>
          .bind (.modify fun _ _ h => (h.enter ["super"]).enter ["this"]) fun _ =>
            .bind (moves_resolveMethods ms room) fun _ =>
              .bind (.modify fun _ _ h' => { h'.leave.leave with cls := h.cls }) fun _ => .pure rfl
    exact .ite (.bind (.modify fun _ _ h => h.note _) fun _ => inside) inside
  | .stray node, room => by
    refine .further (fun room => ?_) room
    exact .bind (moves_noteMisplaced _) fun _ => .pure rfl

theorem moves_resolveBody : ∀ (body : List Stmt) (room : Room), Moves (bodyRespell (moving place))
    (resolveBody room body) (resolveBody room (bodyRespell (moving place) body))
  | [], _ => .pure rfl
  | s :: body, room =>
    .bind (moves_resolveStmt s room) fun _ => .bind (moves_resolveBody body room) fun _ => .pure rfl

theorem moves_resolveFunction (kind : FunctionKind) : ∀ (decl : Fun) (room : Room),
    Moves (functionRespell (moving place)) (resolveFunction room kind decl)
      (resolveFunction room kind (functionRespell (moving place) decl))
  | ⟨name, params, body⟩, room => by
    refine .unlessStopped (.bind_get fun σ τ h => ?_)
    exact .bind (.modify fun _ _ h => { h.enter [] with function := rfl }) fun _ =>
      .bind (moves_declareParams params) fun _ => .bind (moves_resolveBody body room) fun _ =>
        .bind (.modify fun _ _ h' => { h'.leave with function := h.function }) fun _ => .pure rfl

theorem moves_resolveMethods : ∀ (ms : List Fun) (room : Room),
    Moves (methodsRespell (moving place)) (resolveMethods room ms)
      (resolveMethods room (methodsRespell (moving place) ms))
  | [], _ => .pure rfl
  | m :: ms, room => by
    have hkind : methodKind (functionRespell (moving place) m).name = methodKind m.name := by
      simp [methodKind, moving]
    show Moves _ _ (resolveFunction room (methodKind (functionRespell (moving place) m).name)
      (functionRespell (moving place) m) >>= fun m' =>
        resolveMethods room (methodsRespell (moving place) ms) >>= fun ms' => Pure.pure (m' :: ms'))
    rw [hkind]
    exact .bind (moves_resolveFunction (methodKind m.name) m room) fun _ =>
      .bind (moves_resolveMethods ms room) fun _ => .pure rfl

end

/-! ### Programs -/

theorem moves_resolveTop (depth : Nat) (s : Stmt) : Moves (Stmt.respell (moving place))
    (resolveTop depth s) (resolveTop depth (s.respell (moving place))) := by
  unfold resolveTop
  rw [Stmt.fits_respell]
  refine .ite (moves_resolveStmt s none) (.bind (moves_resolveStmt s (some depth)) fun _ =>
    .bind (.modify fun σ τ h => ?_) fun _ => .pure rfl)
  exact ⟨rfl, rfl, rfl, rfl, by simpa [Scoping.restart] using h.misuses, h.misplaced, rfl⟩

theorem moves_resolveTops (depth : Nat) : ∀ stmts : List Stmt, Moves (bodyRespell (moving place))
    (stmts.mapM (resolveTop depth)) ((bodyRespell (moving place) stmts).mapM (resolveTop depth)) := by
  intro stmts
  induction stmts with
  | nil => exact .pure rfl
  | cons s stmts ih =>
    unfold bodyRespell
    rw [List.mapM_cons, List.mapM_cons]
    exact .bind (moves_resolveTop depth s) fun _ => .bind ih fun _ => .pure rfl

/-- Of a moved program the pass makes the moved program, with the same records, and it reports the same
messages. -/
theorem resolve_moving (place : Int → Int) (limits : Limits) (stmts : List Stmt) :
    (resolve limits (bodyRespell (moving place) stmts)).stmts =
        bodyRespell (moving place) (resolve limits stmts).stmts ∧
      (resolve limits (bodyRespell (moving place) stmts)).errors.map ScopeError.misuse =
        (resolve limits stmts).errors.map ScopeError.misuse := by
  obtain ⟨hstmts, halike⟩ := moves_resolveTops limits.steps stmts .initial .initial (.refl _)
  exact ⟨hstmts, halike.misuses⟩

/-- Of a moved expression the pass makes the moved expression. -/
theorem resolveExpression_moving (place : Int → Int) (limits : Limits) (e : Expr) :
    (resolveExpression limits (e.respell (moving place))).1 =
        (resolveExpression limits e).1.respell (moving place) ∧
      (resolveExpression limits (e.respell (moving place))).2.map ScopeError.misuse =
        (resolveExpression limits e).2.map ScopeError.misuse := by
  obtain ⟨hstmts, herrors⟩ := resolve_moving place limits [.expr e]
  change (resolve limits [.expr (e.respell (moving place))]).stmts = _ at hstmts
  change (resolve limits [.expr (e.respell (moving place))]).errors.map _ = _ at herrors
  unfold resolveExpression
  dsimp only
  rw [hstmts]
  generalize (resolve limits [.expr e]).stmts = stmts
  cases stmts with
  | nil => exact ⟨rfl, herrors⟩
  | cons s more =>
    cases s with
    | branch _ _ no => cases no <;> exact ⟨rfl, herrors⟩
    | _ => cases more <;> exact ⟨rfl, herrors⟩

end Lox
