/-
# Whole stores, and places of accepted programs

A sound store stands beside itself, with no frame idle, if each of its frames
lies in one that is there (`Lox.Sound.pared`): what a function was made of
sheds no scope, and its marks come from the text, where all have offsets
(`Lox.tidy_written`). So evaluations can be followed from any sound store.

A place that stands like one of a program may be taken among the places of
programs, with all that lies below it (`Lox.Stock.extend`).

Key definitions: `Lox.Store.Closed`, `Lox.Paring.whole`, `Lox.Visit.Below`.
Key theorems: `Lox.tidy_written`, `Lox.Sound.pared`, `Lox.Stock.extend`.
-/
import Lox.Proofs.Idle.Binding
import Lox.Proofs.Idle.Running
import Lox.Proofs.Running.History

namespace Lox

/-! ### The marks of accepted programs -/

section

variable {limits : Limits} {source : String}

theorem placed_of_parse (h : (parse limits (scan source).tokens).diagnostics = []) {m : Mark}
    (hm : m ∈ bodyMarks (parse limits (scan source).tokens).stmts) : m.Placed := by
  obtain ⟨t, _, rfl⟩ := mem_tokens_of_parse h hm
  rfl

theorem placed_of_parseExpression? {e : Expr}
    (h : parseExpression? limits (scan source).tokens = some e) {m : Mark} (hm : m ∈ e.marks) :
    m.Placed := by
  obtain ⟨ts, last, heq, he, hts⟩ := spelled_scan source
  rw [heq] at h
  have howns := (assignment_of_parseExpression? (fun t ht => (hts t ht).2) he h).owns
    (Phrases.owners_within _ _) m
  obtain ⟨t, _, rfl⟩ := List.mem_map.mp
    (List.count_pos_iff.mp (Nat.lt_of_lt_of_le (List.count_pos_iff.mpr hm) howns))
  rfl

theorem placed_of_acceptedProgram {text : String} {a : Accepted}
    (h : acceptedProgram? limits text = some a) : ∀ m ∈ bodyMarks a.written, m.Placed := by
  unfold acceptedProgram? at h
  dsimp only at h
  split at h
  · rename_i hd _
    cases h
    exact fun m hm => placed_of_parse (List.append_eq_nil_iff.mp hd).2 hm
  · cases h

/-- Every mark of an accepted input has an offset. -/
theorem placed_of_accepted {input : Input} {a : Accepted} (h : input.accepted? limits = some a) :
    ∀ m ∈ bodyMarks a.written, m.Placed := by
  cases input with
  | program text => exact placed_of_acceptedProgram h
  | line text =>
    unfold Input.accepted? at h
    dsimp only at h
    split at h
    · rename_i e _ he
      split at h
      · cases h
        intro m hm
        exact placed_of_parseExpression? he (by simpa using hm)
      · cases h
    · exact placed_of_acceptedProgram h

end

/-- Every place of accepted programs is tidy. -/
theorem tidy_written {limits : Limits} {inputs : List Input} {v : Visit}
    (h : VisitedIn (writtenPrograms limits inputs) v) : v.Tidy := by
  refine ⟨(stock_written limits inputs).clean h, ?_⟩
  obtain ⟨program, hp, hv⟩ := h
  induction hv with
  | program =>
    obtain ⟨input, _, hwritten⟩ := List.mem_filterMap.mp hp
    obtain ⟨a, ha, rfl⟩ := Option.map_eq_some_iff.mp hwritten
    exact placed_of_accepted ha
  | part _ hw ih => exact fun m hm => ih m (Visit.marks_part hw hm)

/-! ### A store beside itself -/

/-- Each frame lies in one that is there. -/
def Store.Closed (s : Store) : Prop :=
  ∀ f < s.frames.size, ∀ p, (s.frame f).parent = some p → p < s.frames.size

theorem busy_replicate (n d : Nat) : Busy (List.replicate n false) d := by
  rw [Busy, List.getD_eq_getElem?_getD, List.getElem?_replicate]
  split <;> rfl

namespace Paring

/-- The store beside itself, with no frame idle. -/
def whole (s : Store) : Paring := ⟨fun _ => false, id, s, s⟩

variable {P : Visit → Prop} {w : World} {scopes : List (Bindings Bool)} {os : List Opener}
  {f outer : FrameId} {id : FunctionId}

theorem folds_whole (hs : Framed w) (hc : w.store.Closed) : (whole w.store).Folds where
  root := hs.root
  outermost := hs.outermost
  busy := rfl
  fixed := rfl
  below _ hf := hf
  parents := hc
  skipped _ _ hi := nomatch hi
  kept f _ _ := by
    show w.store.frame f = ⟨(w.store.frame f).parent.map (fun g => g), _⟩
    rw [Option.map_id']
    rfl
  injective _ _ _ _ _ _ heq := heq
  onto g hg := ⟨g, hg, rfl, rfl⟩

theorem fits_whole (hs : Framed w) (h : Mirrors w scopes os f) :
    (whole w.store).Fits (List.replicate scopes.length false) f := by
  induction h with
  | globals => exact .globals hs.root
  | inside hf _ _ hp _ ih => exact .inside hf rfl hp ih

variable (htidy : ∀ {v}, P v → v.Tidy)
include htidy

theorem spells_whole {kind : FunctionKind} {decl : Fun} {σ : Scoping}
    (hid : id < w.store.functions.size) (hP : P ⟨.function kind decl, σ, os⟩)
    (hdecl : (w.store.function id).decl = σ.boundFunction kind decl) :
    (whole w.store).Spells (List.replicate σ.scopes.length false) id := by
  refine ⟨hid, rfl, fun _ => busy_replicate _ 0, ?_⟩
  show FunctionSheds _ (w.store.function id).decl (w.store.function id).decl
  rw [hdecl]
  exact functionSheds_bound (htidy hP) (.refl σ)

theorem calls_whole (hs : Framed w) (h : Callable P w id outer) : (whole w.store).Calls id outer := by
  cases h with
  | of hid hP hdecl _ _ hm => exact ⟨_, spells_whole htidy hid hP hdecl, fits_whole hs hm⟩

theorem offers_whole (hst : Stock P) (hs : Framed w) {name : String} (h : Bindable P w name id) :
    (whole w.store).Offers id := by
  cases h with
  | @of decl σ cls os hid hP hdecl _ _ hm =>
    have hspells := spells_whole htidy hid hP hdecl
    have hlength : σ.scopes.length = σ.scopes.tail.length + 1 := by
      rw [(hst.standing hP).1.aligned.length_eq, hm.length_eq]
      rfl
    rw [hlength, List.replicate_succ] at hspells
    exact ⟨rfl, _, hspells, fits_whole hs hm⟩

theorem known_whole (hs : Framed w) {v : Value} (h : Lox.Known P w v) :
    (whole w.store).Known v := by
  cases v with
  | const _ | native _ | classRef _ | instanceRef _ => trivial
  | function id => exact ⟨rfl, calls_whole htidy hs h.1⟩
  | method id => exact ⟨h.1, rfl, calls_whole htidy hs h.2⟩

end Paring

/-- A sound store whose frames lie in frames that are there stands beside itself. -/
theorem Sound.pared {P : Visit → Prop} {w : World} (hst : Stock P) (htidy : ∀ {v}, P v → v.Tidy)
    (hs : Sound P w) (hc : w.store.Closed) : Pared (.whole w.store) where
  toFolds := Paring.folds_whole hs.toFramed hc
  functions := rfl
  methods := rfl
  rest := rfl
  knownVars f name v hv := Paring.known_whole htidy hs.toFramed (hs.vars f name v hv)
  knownFields i name v hv := Paring.known_whole htidy hs.toFramed (hs.fields i name v hv)
  offers c name m hm := Paring.offers_whole htidy hst hs.toFramed (hs.methods c name m hm)

/-! ### More places -/

/-- The place itself, and those that the pass comes to within it. -/
inductive Visit.Below (v : Visit) : Visit → Prop
  | here : Below v v
  | part {u u' : Visit} : Below v u → u' ∈ u.parts → Below v u'

theorem Visit.Below.tidy {v u : Visit} (h : v.Below u) (hv : v.Tidy) : u.Tidy := by
  induction h with
  | here => exact hv
  | part _ hw ih => exact ih.part hw

section

variable {P P' : Visit → Prop} {v : Visit}

theorem Scoping.Reading.widen (hP : ∀ {v}, P v → P' v) {σ : Scoping} {os : List Opener}
    {uses : List Occurrence} (h : σ.Reading P os uses) : σ.Reading P' os uses where
  nested := h.nested
  aligned := h.aligned
  outer := h.outer
  unready name hu := by
    obtain ⟨τ, m, e, hv, hm⟩ := h.unready name hu
    exact ⟨τ, m, e, hP hv, hm⟩

theorem Visit.Standing.widen (hP : ∀ {v}, P v → P' v) (h : v.Standing P) : v.Standing P' := by
  obtain ⟨construct, σ, os⟩ := v
  cases construct with
  | expr _ | args _ => exact Scoping.Reading.widen hP h
  | stmt _ | body _ | function _ _ | methods _ => exact h

/-- A clean place that stands so may be one of the places, with all within it. -/
theorem Stock.extend (hst : Stock P) (hc : v.Clean) (hs : v.Standing P) :
    Stock fun u => P u ∨ v.Below u := by
  have clean : ∀ {u}, v.Below u → u.Clean := fun hu => by
    induction hu with
    | here => exact hc
    | part _ hw ih => exact ih.part hw
  refine ⟨fun hu => hu.elim hst.clean clean, fun hu => ?_, fun hu hw => ?_⟩
  · obtain hu | hu := hu
    · exact (hst.standing hu).widen .inl
    · induction hu with
      | here => exact hs.widen .inl
      | part hu hw ih => exact ih.part (clean hu) (.inr hu) hw
  · exact hu.imp (hst.part · hw) (.part · hw)

end

end Lox
