/-
# What the pass of names records

The pass makes a record of each use whose name a scope binds, and the records
are kept in a table beside the tree, with an entry for each node
(`Lox.Distances`). A node is known by its place in the layout of the tree,
whatever its name, so no two uses share an entry. The pass makes its records in
an order of its own: an assigned value comes before the variable, and before the
object, that it is assigned to. In that order or another, they are the distances
that the bound tree carries, one for each node (`Lox.Told`). So no record of a
part is made over another of it; an entry that the table had before gives way if
there is a record of its node, and stays if there is none (`Lox.Recording`).

Key definitions: `Lox.Entry`, `Lox.Distances`, `Lox.Scoping.loggedExpr`,
`Lox.Scoping.loggedStmt`, `Lox.Told`, `Lox.Recording`.
Key theorems: `Lox.told_expr`, `Lox.told_stmt`, `Lox.Told.exists_recording`,
`Lox.pass_restores_state`.
-/
import Lox.Ast.Occurrence
import Lox.Proofs.Binding.Restoring
import Lox.Proofs.Wellformed.Resolving
import Lox.Proofs.Wellformed.Yielding

namespace Lox

/-! ### The table -/

/-- An entry in the table: a node, and the record that is made of it. -/
structure Entry where
  node : Nat
  record : Record
  deriving DecidableEq, Repr

/-- Recorded distances, by node. -/
abbrev Distances : Type := Nat → Option Nat

namespace Distances

variable {t : Distances}

/-- An entry takes the place of any other of its node. -/
def enter (t : Distances) (e : Entry) : Distances :=
  fun n => if n = e.node then some e.record.hops else t n

/-- The entries are made one after the other. -/
def enterAll (t : Distances) (es : List Entry) : Distances := es.foldl enter t

theorem enterAll_append (t : Distances) (es es' : List Entry) :
    t.enterAll (es ++ es') = (t.enterAll es).enterAll es' :=
  List.foldl_append

theorem enterAll_of_forall_ne : ∀ {es : List Entry} {t : Distances} {n : Nat},
    (∀ e ∈ es, e.node ≠ n) → t.enterAll es n = t n
  | [], _, _, _ => rfl
  | e :: es, t, n, h => by
    obtain ⟨he, hes⟩ := List.forall_mem_cons.mp h
    calc (t.enter e).enterAll es n = t.enter e n := enterAll_of_forall_ne hes
      _ = t n := if_neg he.symm

/-- Where no two entries are of one node, each of them stands. -/
theorem enterAll_of_mem {es : List Entry} {e : Entry} (hes : (es.map Entry.node).Nodup)
    (he : e ∈ es) : t.enterAll es e.node = some e.record.hops := by
  obtain ⟨earlier, later, rfl⟩ := List.append_of_mem he
  rw [List.map_append, List.map_cons] at hes
  have hlater : ∀ e' ∈ later, e'.node ≠ e.node := fun e' he' heq =>
    (List.nodup_cons.mp (List.nodup_append.mp hes).2.1).1 (heq ▸ List.mem_map_of_mem he')
  rw [enterAll_append]
  calc (t.enterAll earlier).enterAll (e :: later) e.node
      = (t.enterAll earlier).enter e e.node := enterAll_of_forall_ne hlater
    _ = some e.record.hops := if_pos rfl

end Distances

/-! ### The records of the pass -/

namespace Scoping

variable (σ : Scoping)

def loggedExpr (e : Expr) : List Record := (resolveExpr none e).log σ

def loggedArgs (es : List Expr) : List Record := (resolveArgs none es).log σ

def loggedStmt (s : Stmt) : List Record := (resolveStmt none s).log σ

def loggedBody (body : List Stmt) : List Record := (resolveBody none body).log σ

def loggedFunction (kind : FunctionKind) (decl : Fun) : List Record :=
  (resolveFunction none kind decl).log σ

def loggedMethods (methods : List Fun) : List Record := (resolveMethods none methods).log σ

theorem log_variable (use : NameUse) :
    (resolveVariable use).log σ = (resolveUse use).log σ := by
  by_cases h : σ.unready use.name.text
  · simp [resolveVariable, resolveUse, h]
  · simp [resolveVariable, resolveUse, h]

theorem log_declareParams : ∀ (params : List Mark) (σ : Scoping), (declareParams params).log σ = []
  | [], _ => rfl
  | _ :: params, _ => log_declareParams params _

variable {σ}

theorem loggedExpr_receiver (use : NameUse) : σ.loggedExpr (.receiver use) =
    if σ.cls = .none then [] else (resolveUse use).log σ := by
  by_cases h : σ.cls = .none
  · simp [loggedExpr, resolveExpr, further, h]
  · simp [loggedExpr, resolveExpr, further, h]

theorem loggedExpr_superMethod (use : NameUse) (m : Mark) :
    σ.loggedExpr (.superMethod use m) = (resolveUse use).log σ := by
  cases h : σ.cls with
  | none | plain | subclass => simp [loggedExpr, resolveExpr, further, resolveUse, h]

theorem loggedStmt_var (name : Mark) (e : Expr) :
    σ.loggedStmt (.var name (some e)) = (σ.initializing name).loggedExpr e := by
  by_cases h : (σ.declare name).scopes.isEmpty
  · simp [loggedStmt, loggedExpr, resolveStmt, further, resolveInitializer, initializing, h,
      -List.isEmpty_iff]
  · simp [loggedStmt, loggedExpr, resolveStmt, further, resolveInitializer, initializing, h,
      -List.isEmpty_iff]

theorem loggedStmt_giveBack_none (keyword : Mark) : σ.loggedStmt (.giveBack keyword none) = [] := by
  by_cases h : σ.function = .none
  · simp [loggedStmt, resolveStmt, further, h]
  · simp [loggedStmt, resolveStmt, further, h]

theorem loggedStmt_giveBack (keyword : Mark) (e : Expr) :
    σ.loggedStmt (.giveBack keyword (some e)) = (σ.givingBack keyword).loggedExpr e := by
  by_cases h : σ.function = .none
  · have h' : (σ.note .returnOutside keyword).function = .none := h
    simp [loggedStmt, loggedExpr, resolveStmt, further, givingBack, h, h']
  · by_cases h' : σ.function = .initializer
    · simp [loggedStmt, loggedExpr, resolveStmt, further, givingBack, h']
    · simp [loggedStmt, loggedExpr, resolveStmt, further, givingBack, h, h']

theorem loggedStmt_subclass (name : Mark) (use : NameUse) (ms : List Fun) :
    σ.loggedStmt (.classDecl name (some use) ms) =
      (resolveUse use).log (σ.inheriting name use) ++
        ((((σ.inheriting name use).behindExpr (.variable use)).enter ["super"]).enter
          ["this"]).loggedMethods ms := by
  rw [← log_variable]
  by_cases h : use.name.text = name.text
  · simp only [loggedStmt, resolveStmt, further, h, ↓reduceIte, Resolve.log_bind, Resolve.log_get,
      Resolve.log_modify, Resolve.log_pure, List.nil_append, List.append_nil, inheriting,
      declaringClass]
    rfl
  · simp only [loggedStmt, resolveStmt, further, h, ↓reduceIte, Resolve.log_bind, Resolve.log_get,
      Resolve.log_modify, Resolve.log_pure, List.nil_append, List.append_nil, inheriting,
      declaringClass]
    rfl

theorem loggedFunction_eq (kind : FunctionKind) (name : Mark) (params : List Mark)
    (body : List Stmt) : σ.loggedFunction kind ⟨name, params, body⟩ =
      (σ.enteringFunction kind params).loggedBody body := by
  simp [loggedFunction, loggedBody, resolveFunction, unlessStopped, enteringFunction,
    log_declareParams]

end Scoping

/-! ### They are the distances in the bound tree -/

/-- The entries for bound uses which are the nodes from `k` on. -/
def entries (k : Nat) (us : List Occurrence) : List Entry :=
  (us.zipIdx k).filterMap fun (u, n) => u.use.record?.map (Entry.mk n)

theorem entries_append (k : Nat) (us us' : List Occurrence) :
    entries k (us ++ us') = entries k us ++ entries (k + us.length) us' := by
  rw [entries, List.zipIdx_append, List.filterMap_append]
  rfl

theorem mem_entries {k : Nat} {us : List Occurrence} {e : Entry} :
    e ∈ entries k us ↔ ∃ i, e.node = k + i ∧ ∃ u ∈ us[i]?, u.use.record? = some e.record := by
  simp only [entries, List.mem_filterMap, List.mem_zipIdx_iff_le_and_getElem?_sub,
    Option.map_eq_some_iff, Prod.exists]
  constructor
  · rintro ⟨u, n, ⟨hn, hu⟩, r, hr, rfl⟩
    exact ⟨n - k, (Nat.add_sub_cancel' hn).symm, u, hu, hr⟩
  · rintro ⟨i, hnode, u, hu, hr⟩
    refine ⟨u, k + i, ⟨Nat.le_add_right k i, by rwa [Nat.add_sub_cancel_left]⟩, e.record, hr, ?_⟩
    rw [← hnode]

theorem entries_nodup (k : Nat) (us : List Occurrence) : ((entries k us).map Entry.node).Nodup := by
  have hnodes : ((us.zipIdx k).map Prod.snd).Pairwise (· ≠ ·) := by
    rw [List.zipIdx_map_snd]
    exact List.nodup_range'
  rw [List.Nodup, List.pairwise_map]
  refine List.pairwise_filterMap.mpr ((List.pairwise_map.mp hnodes).imp ?_)
  rintro ⟨u, n⟩ ⟨u', n'⟩ hne e he e' he'
  obtain ⟨r, -, rfl⟩ := Option.map_eq_some_iff.mp he
  obtain ⟨r', -, rfl⟩ := Option.map_eq_some_iff.mp he'
  exact hne

/-- The records of a part whose uses are the nodes from `k` on: those that its uses make when they are
bound, in some order. -/
structure Told (k : Nat) (written bound : List Occurrence) (log : List Record) : Prop where
  length : bound.length = written.length
  made : ∃ es : List Entry, es.map Entry.record = log ∧ es.Perm (entries k bound)

namespace Told

variable {k : Nat} {written written' bound bound' : List Occurrence} {log log' rest : List Record}

theorem nil (k : Nat) : Told k [] [] [] := ⟨rfl, [], rfl, .nil⟩

/-- A step that gives a result back makes no record. -/
theorem append_nil (h : Told k written bound log) : Told k written bound (log ++ []) := by
  rwa [List.append_nil]

theorem append (h : Told k written bound log) (g : Told (k + written.length) written' bound' log') :
    Told k (written ++ written') (bound ++ bound') (log ++ log') where
  length := by rw [List.length_append, List.length_append, h.length, g.length]
  made := by
    obtain ⟨es, hlog, hperm⟩ := h.made
    obtain ⟨es', hlog', hperm'⟩ := g.made
    refine ⟨es ++ es', by rw [List.map_append, hlog, hlog'], ?_⟩
    rw [entries_append, h.length]
    exact hperm.append hperm'

/-- What is written first may be recorded last. -/
theorem append_comm (h : Told k written bound log)
    (g : Told (k + written.length) written' bound' log') :
    Told k (written ++ written') (bound ++ bound') (log' ++ log) where
  length := (h.append g).length
  made := by
    obtain ⟨es, hlog, hperm⟩ := h.made
    obtain ⟨es', hlog', hperm'⟩ := g.made
    refine ⟨es' ++ es, by rw [List.map_append, hlog, hlog'], ?_⟩
    rw [entries_append, h.length]
    exact List.perm_append_comm.trans (hperm.append hperm')

/-- A third part behind two. -/
theorem append_third (h : Told k written bound (log ++ log'))
    (g : Told (k + written.length) written' bound' rest) :
    Told k (written ++ written') (bound ++ bound') (log ++ (log' ++ rest)) := by
  rw [← List.append_assoc]
  exact h.append g

/-- A use that is bound. -/
theorem use (kind : UseKind) (σ : Scoping) (k : Nat) (use : NameUse) :
    Told k [⟨kind, use⟩] [⟨kind, ⟨use.name, σ.hops? use.name.text⟩⟩] ((resolveUse use).log σ) := by
  refine ⟨rfl, (NameUse.record? ⟨use.name, σ.hops? use.name.text⟩).toList.map (Entry.mk k), ?_, ?_⟩
  · simp [resolveUse, Function.comp_def]
  · refine .of_eq ?_
    rw [entries]
    cases hr : NameUse.record? ⟨use.name, σ.hops? use.name.text⟩ with
    | none | some r => simp [hr]

/-- A use that is not bound. -/
theorem unbound (kind : UseKind) {use : NameUse} (huse : use.hops = none) (k : Nat) :
    Told k [⟨kind, use⟩] [⟨kind, use⟩] [] := by
  refine ⟨rfl, [], rfl, .of_eq ?_⟩
  simp [entries, NameUse.record?, huse]

end Told

section

variable {T : Token → Prop}

theorem told_args {es : List Expr}
    (h : ∀ e ∈ es, ∀ (σ : Scoping) k,
      Told k e.occurrences (σ.boundExpr e).occurrences (σ.loggedExpr e)) :
    ∀ (σ : Scoping) k,
      Told k (argOccurrences es) (argOccurrences (σ.boundArgs es)) (σ.loggedArgs es) := by
  induction es with
  | nil => exact fun _ k => .nil k
  | cons e es ih =>
    obtain ⟨he, hes⟩ := List.forall_mem_cons.mp h
    exact fun σ k => (he σ k).append (ih hes (σ.behindExpr e) _).append_nil

/-- Expressions: where no use was bound before, the records are those of the bound expression. -/
theorem told_expr {e : Expr} (he : e.Over (.ofTokens T)) : ∀ (σ : Scoping) k,
    Told k e.occurrences (σ.boundExpr e).occurrences (σ.loggedExpr e) := by
  induction he with
  | literal => exact fun _ k => .nil k
  | grouping _ ih | unary _ _ ih | get _ _ ih => exact fun σ k => (ih σ k).append_nil
  | @binary left right op _ _ _ ihl ihr | @logical left right op _ _ _ ihl ihr =>
    exact fun σ k => (ihl σ k).append (ihr (σ.behindExpr left) _).append_nil
  | @ternary cond yes no _ _ _ ihc ihy ihn =>
    exact fun σ k => ((ihc σ k).append (ihy (σ.behindExpr cond) _)).append_third
      (ihn ((σ.behindExpr cond).behindExpr yes) _).append_nil
  | @«variable» use =>
    intro σ k
    rw [Scoping.boundExpr_variable]
    show Told k _ _ ((resolveVariable use).log σ ++ [])
    rw [Scoping.log_variable]
    exact (Told.use .variable σ k use).append_nil
  | @assign use value _ _ ih =>
    exact fun σ k => (Told.use .assign (σ.behindExpr value) k use).append_nil.append_comm
      (ih σ (k + 1))
  | @call callee paren args _ _ _ ih iha =>
    exact fun σ k => (ih σ k).append (told_args iha (σ.behindExpr callee) _).append_nil
  | @set object value name _ _ _ iho ihv =>
    exact fun σ k => (iho (σ.behindExpr value) k).append_nil.append_comm (ihv σ _)
  | @receiver use hu =>
    intro σ k
    rw [Scoping.boundExpr, Scoping.run_receiver, Scoping.loggedExpr_receiver]
    split
    · exact .unbound .receiver hu.hops k
    · exact .use .receiver σ k use
  | @superMethod use method =>
    intro σ k
    rw [Scoping.boundExpr_superMethod, Scoping.loggedExpr_superMethod]
    exact .use .superMethod σ k use

theorem told_body {body : List Stmt}
    (h : ∀ s ∈ body, ∀ (σ : Scoping) k,
      Told k s.occurrences (σ.boundStmt s).occurrences (σ.loggedStmt s)) :
    ∀ (σ : Scoping) k,
      Told k (bodyOccurrences body) (bodyOccurrences (σ.boundBody body)) (σ.loggedBody body) := by
  induction body with
  | nil => exact fun _ k => .nil k
  | cons s body ih =>
    obtain ⟨hs, hbody⟩ := List.forall_mem_cons.mp h
    exact fun σ k => (hs σ k).append (ih hbody (σ.behindStmt s) _).append_nil

theorem told_function {decl : Fun}
    (h : ∀ s ∈ decl.body, ∀ (σ : Scoping) k,
      Told k s.occurrences (σ.boundStmt s).occurrences (σ.loggedStmt s))
    (kind : FunctionKind) (σ : Scoping) (k : Nat) :
    Told k (functionOccurrences decl) (functionOccurrences (σ.boundFunction kind decl))
      (σ.loggedFunction kind decl) := by
  obtain ⟨name, params, body⟩ := decl
  rw [Scoping.loggedFunction_eq]
  exact told_body h (σ.enteringFunction kind params) k

theorem told_methods {ms : List Fun}
    (h : ∀ m ∈ ms, ∀ s ∈ m.body, ∀ (σ : Scoping) k,
      Told k s.occurrences (σ.boundStmt s).occurrences (σ.loggedStmt s)) :
    ∀ (σ : Scoping) k,
      Told k (methodOccurrences ms) (methodOccurrences (σ.boundMethods ms)) (σ.loggedMethods ms) := by
  induction ms with
  | nil => exact fun _ k => .nil k
  | cons m ms ih =>
    obtain ⟨hm, hms⟩ := List.forall_mem_cons.mp h
    exact fun σ k => (told_function hm (methodKind m.name) σ k).append
      (ih hms (σ.behindFunction (methodKind m.name) m) _).append_nil

/-- Statements: where no use was bound before, the records are those of the bound statement. -/
theorem told_stmt {s : Stmt} (hs : s.Over (.ofTokens T)) : ∀ (σ : Scoping) k,
    Told k s.occurrences (σ.boundStmt s).occurrences (σ.loggedStmt s) := by
  induction hs with
  | expr he | print he => exact fun σ k => (told_expr he σ k).append_nil
  | @var name initial _ he =>
    intro σ k
    cases initial with
    | none => exact .nil k
    | some e =>
      rw [Scoping.boundStmt_var, Scoping.loggedStmt_var]
      exact told_expr (he e rfl) (σ.initializing name) k
  | block _ ih => exact fun σ k => (told_body ih (σ.enter []) k).append_nil
  | @branch cond yes no hc _ _ ihy ihn =>
    intro σ k
    cases no with
    | none => exact (told_expr hc σ k).append (ihy (σ.behindExpr cond) _).append_nil
    | some no =>
      exact ((told_expr hc σ k).append (ihy (σ.behindExpr cond) _)).append_third
        (ihn no rfl ((σ.behindExpr cond).behindStmt yes) _).append_nil
  | @loop cond body hc _ ih =>
    exact fun σ k => (told_expr hc σ k).append (ih (σ.behindExpr cond) _).append_nil
  | @function decl _ _ ih =>
    exact fun σ k =>
      (told_function ih .function ((σ.declare decl.name).define decl.name) k).append_nil
  | @giveBack keyword value _ he =>
    intro σ k
    cases value with
    | none =>
      rw [Scoping.boundStmt_giveBack_none, Scoping.loggedStmt_giveBack_none]
      exact .nil k
    | some e =>
      rw [Scoping.boundStmt_giveBack, Scoping.loggedStmt_giveBack]
      exact told_expr (he e rfl) (σ.givingBack keyword) k
  | @classDecl name superclass ms _ _ _ _ ih =>
    intro σ k
    cases superclass with
    | none => exact (told_methods ih ((σ.declaringClass name).enter ["this"]) k).append_nil
    | some use =>
      rw [Scoping.boundStmt_subclass, Scoping.loggedStmt_subclass]
      exact (Told.use .variable (σ.inheriting name use) k use).append (told_methods ih _ (k + 1))

end

/-! ### What becomes of the table -/

/-- What becomes of a table when these entries are made, of a part with the nodes from `k` on. Each is
of a node of the part, with the distance that its bound use carries, and no two are of one node. So
what all other nodes have stays; an entry that is made stands from then on; and behind the part a node
has the distance that its bound use carries, or if that carries none what it had before. -/
structure Recording (k : Nat) (written bound : List Occurrence) (es : List Entry) : Prop where
  length : bound.length = written.length
  of_node : ∀ e ∈ es, ∃ i, e.node = k + i ∧ ∃ u ∈ bound[i]?, u.use.record? = some e.record
  once : (es.map Entry.node).Nodup
  others : ∀ (t : Distances) n, n < k ∨ k + written.length ≤ n → t.enterAll es n = t n
  stands : ∀ (t : Distances) earlier e later, earlier ++ e :: later <+: es →
    t.enterAll (earlier ++ e :: later) e.node = some e.record.hops
  behind : ∀ (t : Distances) i, ∀ u ∈ bound[i]?,
    t.enterAll es (k + i) = u.use.hops.or (t (k + i))

/-- The entries that the pass makes, in its order. -/
theorem Told.exists_recording {k : Nat} {written bound : List Occurrence} {log : List Record}
    (h : Told k written bound log) :
    ∃ es : List Entry, es.map Entry.record = log ∧ Recording k written bound es := by
  obtain ⟨es, hlog, hperm⟩ := h.made
  have hmem : ∀ {e}, e ∈ es ↔ ∃ i, e.node = k + i ∧ ∃ u ∈ bound[i]?, u.use.record? = some e.record :=
    hperm.mem_iff.trans mem_entries
  have honce : (es.map Entry.node).Nodup :=
    (hperm.map Entry.node).nodup_iff.mpr (entries_nodup k bound)
  refine ⟨es, hlog, h.length, fun e he => hmem.mp he, honce, fun t n hn => ?_,
    fun t earlier e later hes => ?_, fun t i u hu => ?_⟩
  · refine Distances.enterAll_of_forall_ne fun e he => ?_
    obtain ⟨i, hnode, u, hu, -⟩ := hmem.mp he
    obtain ⟨hi, -⟩ := List.getElem?_eq_some_iff.mp hu
    rw [h.length] at hi
    omega
  · have hfirst : ((earlier ++ e :: later).map Entry.node).Nodup :=
      honce.sublist (hes.map Entry.node).sublist
    exact Distances.enterAll_of_mem hfirst (by simp)
  · cases hhops : u.use.hops with
    | some d =>
      have he : Entry.mk (k + i) ⟨u.use.name, d⟩ ∈ es :=
        hmem.mpr ⟨i, rfl, u, hu, by simp [NameUse.record?, hhops]⟩
      exact Distances.enterAll_of_mem honce he
    | none =>
      refine Distances.enterAll_of_forall_ne fun e he hnode => ?_
      obtain ⟨j, hj, u', hu', hrecord⟩ := hmem.mp he
      obtain rfl : i = j := by omega
      obtain rfl : u = u' := Option.mem_unique hu hu'
      simp [NameUse.record?, hhops] at hrecord

/-! ### Whole programs -/

theorem log_resolveTops_of_fits {steps : Nat} : ∀ {stmts : List Stmt} (σ : Scoping),
    bodyFits stmts steps = true → (resolveTops steps stmts).log σ = σ.loggedBody stmts
  | [], _, _ => rfl
  | s :: stmts, σ, h => by
    unfold bodyFits at h
    obtain ⟨hs, hstmts⟩ := Bool.and_eq_true_iff.mp h
    have htop : resolveTop steps s = resolveStmt none s := by
      rw [resolveTop, if_pos hs]
    have hrest := log_resolveTops_of_fits (σ.behindStmt s) hstmts
    simp only [resolveTops, List.mapM_cons, htop, Resolve.log_bind, Resolve.log_pure] at hrest ⊢
    show _ ++ ((stmts.mapM (resolveTop steps)).log (σ.behindStmt s) ++ []) = _
    rw [hrest]
    rfl

/-- The table that the pass makes of a program that fits the limit has the distances that the bound
program carries. -/
theorem records_of_resolve (limits : Limits) (tokens : List Token)
    (h : bodyFits (parse limits tokens).stmts limits.steps = true) :
    let program := (parse limits tokens).stmts
    ∃ es : List Entry, es.map Entry.record = (resolve limits program).records ∧
      Recording 0 (bodyOccurrences program) (bodyOccurrences (resolve limits program).stmts) es := by
  intro program
  have htold := told_body (fun s hs => told_stmt (over_of_parse limits tokens s hs)) .initial 0
  have hlog : (resolve limits program).records = Scoping.initial.loggedBody program :=
    log_resolveTops_of_fits .initial h
  have hrun : (resolve limits program).stmts = Scoping.initial.boundBody program :=
    congrArg Prod.fst (run_resolveTops_of_fits .initial h)
  rw [hlog, hrun]
  exact htold.exists_recording

/-! ### Statements and expressions of the parser -/

/-- **The pass of names restores its state.** The trees that the parser gives are trees over its tokens,
and so are the trees within them. From any place, with whatever scopes open, the pass comes through
such a statement without a node out of place, and then the scopes are those before it, but that the
innermost one has gained the names which the statement itself declares in it, all of them ready.
Behind an expression the scopes are those before it. The kinds of the enclosing function and class
are what they were. So are the pending globals, but that at the top level a variable with an
initializer is pending no more behind its statement; in a program none is pending at any statement of
the top level.

Of the distances in the table those of other nodes stay. Of each node of the tree at most one record
is made, it stands from then on, and the records are the distances that the bound tree carries. -/
theorem pass_restores_state (limits : Limits) (tokens : List Token) :
    let words := Vocabulary.ofTokens (· ∈ closed tokens)
    (∀ s ∈ (parse limits tokens).stmts, s.Over words) ∧
    (∀ e ∈ parseExpression? limits tokens, e.Over words) ∧
    (∀ s : Stmt, s.Over words → ∀ σ : Scoping,
      (σ.misplaced = none → (σ.behindStmt s).misplaced = none) ∧
      σ.Restored s.declarations s.initialized (σ.behindStmt s) ∧
      ∀ k, ∃ es : List Entry, es.map Entry.record = σ.loggedStmt s ∧
        Recording k s.occurrences (σ.boundStmt s).occurrences es) ∧
    (∀ e : Expr, e.Over words → ∀ σ : Scoping,
      (σ.misplaced = none → (σ.behindExpr e).misplaced = none) ∧
      σ.SamePlace (σ.behindExpr e) ∧
      ∀ k, ∃ es : List Entry, es.map Entry.record = σ.loggedExpr e ∧
        Recording k e.occurrences (σ.boundExpr e).occurrences es) ∧
    ∀ s σ os, Visited (parse limits tokens).stmts ⟨.stmt s, σ, os⟩ → σ.Calm := by
  intro words
  have hknown : words.Le .known := Vocabulary.ofTokens_le_known _
  refine ⟨over_of_parse limits tokens, over_of_parseExpression? limits tokens,
    fun s hs σ => ⟨fun hσ => ?_, ?_, fun k => ?_⟩, fun e he σ => ⟨fun hσ => ?_, ?_, fun k => ?_⟩,
    fun s σ os h => h.calm⟩
  · exact (keeps_resolveStmt (hs.mono hknown) none σ hσ).1
  · exact (Scoping.gained_behindStmt s σ).restored
  · exact (told_stmt hs σ k).exists_recording
  · exact (keeps_resolveExpr (he.mono hknown) none σ hσ).1
  · exact Scoping.samePlace_behindExpr e σ
  · exact (told_expr he σ k).exists_recording

/-- A function in a block that binds a variable, to which it assigns its parameter: the parameter is
recorded first. -/
theorem pass_restores_state_behind_function :
    let tokens := (scan "fun f(x)\x7ba = x;\x7d").tokens
    let σ : Scoping := Scoping.initial.enter ["a"]
    ∃ s ∈ (parse ⟨60, 5⟩ tokens).stmts, σ.Restored [⟨.identifier, "f", some 4⟩] [] (σ.behindStmt s) ∧
      ∃ es : List Entry, es.map Entry.record = [⟨⟨.identifier, "x", some 13⟩, 0⟩, ⟨⟨.identifier, "a", some 9⟩, 1⟩] ∧
        Recording 0 s.occurrences (σ.boundStmt s).occurrences es := by
  intro tokens σ
  have hread : (parse ⟨60, 5⟩ tokens).stmts.map (fun s =>
      (s.declarations, s.initialized, σ.loggedStmt s)) =
      [([⟨.identifier, "f", some 4⟩], [], [⟨⟨.identifier, "x", some 13⟩, 0⟩, ⟨⟨.identifier, "a", some 9⟩, 1⟩])] := by decide +kernel
  obtain ⟨s, hs, heq⟩ := List.mem_map.mp (hread ▸ List.mem_singleton_self _)
  obtain ⟨hdeclared, hrest⟩ := Prod.mk.inj heq
  obtain ⟨hinitialized, hlog⟩ := Prod.mk.inj hrest
  obtain ⟨hover, -, hpass, -⟩ := pass_restores_state ⟨60, 5⟩ tokens
  obtain ⟨-, hrestored, hrecording⟩ := hpass s (hover s hs) σ
  rw [hdeclared, hinitialized] at hrestored
  rw [hlog] at hrecording
  exact ⟨s, hs, hrestored, hrecording 0⟩

/-- Not everything stays as it was: a global that is pending already is so no more behind its own
statement, and where a tree is read again, with other scopes open, its distances are other ones. -/
theorem pass_alters_pending_and_recorded :
    (¬ ∀ limits tokens, ∀ s ∈ (parse limits tokens).stmts, ∀ σ : Scoping,
      (σ.behindStmt s).pending = σ.pending) ∧
    ¬ ∀ limits tokens, ∀ s ∈ (parse limits tokens).stmts, ∀ (σ : Scoping) (es : List Entry),
      es.map Entry.record = σ.loggedStmt s →
      Recording 0 s.occurrences (σ.boundStmt s).occurrences es →
      ∀ (t : Distances) n d, t n = some d → t.enterAll es n = some d := by
  constructor
  · intro h
    let tokens := (scan "var a = nil;").tokens
    let σ : Scoping := { Scoping.initial with pending := ["a"] }
    have hpass : ∃ s ∈ (parse ⟨60, 5⟩ tokens).stmts, (σ.behindStmt s).pending = [] := by
      decide +kernel
    obtain ⟨s, hs, hpending⟩ := hpass
    exact List.cons_ne_nil "a" [] ((h ⟨60, 5⟩ tokens s hs σ).symm.trans hpending)
  · intro h
    let tokens := (scan "print a;").tokens
    let σ : Scoping := Scoping.initial.enter ["a"]
    have hpass : ∃ s ∈ (parse ⟨60, 5⟩ tokens).stmts,
        (σ.boundStmt s).occurrences[0]? = some ⟨.variable, ⟨⟨.identifier, "a", some 6⟩, some 0⟩⟩ := by
      decide +kernel
    obtain ⟨s, hs, hbound⟩ := hpass
    obtain ⟨es, hlog, hrecording⟩ :=
      (told_stmt (over_of_parse ⟨60, 5⟩ tokens s hs) σ 0).exists_recording
    -- the table of an earlier pass, in which the variable was one scope further out
    let t : Distances := fun _ => some 1
    have hkept : t.enterAll es 0 = some 1 := h ⟨60, 5⟩ tokens s hs σ es hlog hrecording t 0 1 rfl
    have hmade : t.enterAll es 0 = some 0 := hrecording.behind t 0 _ hbound
    exact absurd (hkept.symm.trans hmade) (by decide)

end Lox
