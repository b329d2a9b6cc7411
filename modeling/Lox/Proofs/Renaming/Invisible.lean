/-
# Local variables may be renamed

In the text of an accepted program a variable or parameter of a local scope is
given a new name, where it is declared and wherever a use is bound to its
scope. The text is a program that is accepted again, each use has the record
that it had, and running either program in a session reports and prints the
same (`Lox.rename_invisible`).

The new text has the tokens of the program but for those names, and marks are
told apart by their offsets, so its trees follow the exchange of both names in
the scope of the variable. The pass of names makes of them what it made, with
the names exchanged. The store of a session is its own twin, with no names
exchanged in the frames that are there, and from twins both programs run alike.

Key definitions: `Lox.mentionsIn`, `Lox.Renamable`, `Lox.renamedText`, `Lox.Report.Agrees`.
Key theorems: `Lox.Renamable.scan_renamedText`, `Lox.Renamable.follows`,
`Lox.Renamable.resolve_respell`, `Lox.Sound.twins`, `Lox.rename_invisible`.
-/
import Lox.Proofs.Binding.Named
import Lox.Proofs.Renaming.Following
import Lox.Proofs.Renaming.Running
import Lox.Proofs.Renaming.Scoping
import Lox.Proofs.Running.History
import Lox.Proofs.Scanner.Replacing
import Lox.Proofs.Spelling.Layout

namespace Lox

open Respelling

/-- The mentions of a variable in the program that a text is: its declaration, and all uses that are
bound to its scope. -/
def mentionsIn (limits : Limits) (source : String) (d : Mark) : List Mark :=
  bodyMentions d [] (resolve limits (parse limits (scan source).tokens).stmts).stmts

/-- The text is an accepted program with this local variable, and the new name is none of its words. -/
structure Renamable (limits : Limits) (source : String) (d : Mark) (new : String) : Prop where
  accepts : Accepts limits source
  declared : ∃ o ∈ bodyOpeners (parse limits (scan source).tokens).stmts, d ∈ o.vars
  name : IsName new
  unused : ∀ t ∈ (scan source).tokens, t.lexeme ≠ new

/-- The text of the program with the new name wherever the variable is mentioned. -/
def renamedText (limits : Limits) (source : String) (d : Mark) (new : String) : String :=
  let picked (offset : Int) : Bool := some offset ∈ (mentionsIn limits source d).map Mark.offset
  String.ofList (replaceWords new.toList picked 0 0 source.toList)

/-- The reports say the same, but for the name that a divergence tells. -/
structure Report.Agrees (a b : Report) : Prop where
  executed : a.executed = b.executed
  sayings : a.diagnostics.map Diagnostic.saying = b.diagnostics.map Diagnostic.saying
  escaped : a.escaped.map Fault.nameless = b.escaped.map Fault.nameless
  output : a.output = b.output

theorem Report.Agrees.trans_alike {a b c : Report} (h : a.Agrees b) (g : b.Alike c) : a.Agrees c :=
  ⟨h.executed.trans g.executed, h.sayings.trans g.sayings,
    h.escaped.trans (congrArg (Option.map Fault.nameless) g.escaped), h.output.trans g.output⟩

/-! ### The renamed text -/

namespace Renamable

variable {limits : Limits} {source new : String} {d : Mark}

/-- The variable is mentioned where it is declared. -/
theorem mem_mentions (h : Renamable limits source d new) : d ∈ mentionsIn limits source d := by
  obtain ⟨o, ho, hd⟩ := h.declared
  rw [mentionsIn, (resolve_of_silent h.accepts.binds).2.1]
  exact mem_bodyMentions hd ho

theorem mentions_subset (h : Renamable limits source d new) :
    mentionsIn limits source d ⊆ bodyMarks (parse limits (scan source).tokens).stmts := by
  rw [mentionsIn, (resolve_of_silent h.accepts.binds).2.1]
  exact (bodyMentions_sublist ..).subset

/-- Each mention is the mark of a name. -/
theorem names_of_mentions (h : Renamable limits source d new) {ts : List Token}
    (hts : Scans 0 source.toList ts) : ∀ m ∈ mentionsIn limits source d,
      ∃ t ∈ ts, t.mark = m ∧ t.kind = .identifier := by
  have htoken : ∀ m ∈ mentionsIn limits source d, ∃ t ∈ ts, t.mark = m := by
    intro m hm
    have hmark := mem_tokens_of_parse h.accepts.parses (h.mentions_subset hm)
    rw [scan_of_scans hts] at hmark
    rwa [List.dropLast_concat] at hmark
  obtain ⟨o, ho, hd⟩ := h.declared
  have hkind : d.kind = .identifier := named_of_parse h.accepts.parses o ho d hd
  obtain ⟨t, ht, rfl⟩ := htoken d h.mem_mentions
  have hname : IsName t.lexeme := (hts.identifier_iff t ht).mp hkind
  intro m hm
  obtain ⟨u, hu, rfl⟩ := htoken m hm
  have htext : u.lexeme = t.lexeme := text_of_bodyMentions _ hm
  refine ⟨u, hu, rfl, (hts.identifier_iff u hu).mpr ?_⟩
  rwa [htext]

theorem isPlain_text (h : Renamable limits source d new) : isPlain d.text := by
  obtain ⟨ts, hts⟩ := scans_of_scan h.accepts.scans
  obtain ⟨t, ht, rfl, hkind⟩ := h.names_of_mentions hts d h.mem_mentions
  exact ((hts.identifier_iff t ht).mp hkind).isPlain

/-- Nothing is reported of the renamed text, and its tokens are those of the program, with the new name
where the variable is mentioned. -/
theorem scan_renamedText (h : Renamable limits source d new) :
    (scan (renamedText limits source d new)).diagnostics = [] ∧
      (scan (renamedText limits source d new)).tokens.map Token.word =
        ((scan source).tokens.map
          (Token.respell (.replacing new (mentionsIn limits source d)))).map Token.word := by
  obtain ⟨ts, hts⟩ := scans_of_scan h.accepts.scans
  let picked (offset : Int) : Bool := some offset ∈ (mentionsIn limits source d).map Mark.offset
  have hpicked : ∀ q : Int, picked q = true → ∃ t ∈ ts, t.offset = q ∧ t.kind = .identifier := by
    intro q hq
    obtain ⟨m, hm, hoffset⟩ := List.mem_map.mp (of_decide_eq_true hq)
    obtain ⟨t, ht, rfl, hkind⟩ := h.names_of_mentions hts m hm
    exact ⟨t, ht, Option.some.inj hoffset, hkind⟩
  have hend : picked source.toList.length = false := by
    refine Bool.eq_false_iff.mpr fun hq => ?_
    obtain ⟨t, ht, hoffset, -⟩ := hpicked _ hq
    have hlt := hts.offset_lt t ht
    omega
  obtain ⟨us, hus, hwords⟩ := (hts.replace h.name fun q hq _ _ => hpicked q hq).2 0
  have hscan : scan (renamedText limits source d new) = ⟨us ++ [.eof _], []⟩ :=
    scan_of_scans (by rwa [renamedText, String.toList_ofList])
  have hword : ∀ t : Token, ((t.respell (.replacing new (mentionsIn limits source d))).word =
      (t.kind, if picked t.offset then new else t.lexeme, t.literal)) := by
    intro t
    simp [Token.word, Token.respell, Respelling.text_replacing, picked]
  refine ⟨by rw [hscan], ?_⟩
  rw [hscan, scan_of_scans hts, List.map_map, List.map_append, List.map_append, hwords]
  congr 1
  · exact List.map_congr_left fun t _ => (hword t).symm
  · rw [List.map_singleton, List.map_singleton, Function.comp_apply, hword]
    simp [Token.eof, hend, Token.word]

end Renamable

/-! ### Trees with the variable renamed -/

/-- Marks at different offsets, without the new name, are renamed where they are mentioned. -/
theorem Renames.of_nodup {new : String} {ms mentions : List Mark} (hn : (ms.map Mark.offset).Nodup)
    (hu : ∀ m ∈ ms, m.text ≠ new) (hs : mentions ⊆ ms) : Renames new mentions ms mentions where
  nodup := hn.of_map
  unused := hu
  exact m hm := by
    refine ⟨fun h => ?_, List.mem_map_of_mem⟩
    obtain ⟨m', hm', heq⟩ := List.mem_map.mp h
    rwa [← List.inj_on_of_nodup_map hn (hs hm') hm heq]

/-- What was reported is not more if as much is. -/
theorem Scoping.Silent.of_errors {σ τ : Scoping} (h : σ.Silent) (he : τ.errors = σ.errors) : τ.Silent := by
  unfold Silent at h ⊢
  rwa [he]

namespace Renamable

variable {limits : Limits} {source new : String} {d : Mark}

theorem unused_marks (h : Renamable limits source d new) :
    ∀ m ∈ bodyMarks (parse limits (scan source).tokens).stmts, m.text ≠ new := by
  intro m hm
  obtain ⟨t, ht, rfl⟩ := mem_tokens_of_parse h.accepts.parses hm
  exact h.unused t ((List.dropLast_sublist _).subset ht)

/-- The bound program with the variable renamed follows the exchange of both names. -/
theorem follows (h : Renamable limits source d new) : ∃ c : Exchange, c.new = new ∧
    bodyFollows c (.replacing new (mentionsIn limits source d)) []
      (Scoping.initial.boundBody (parse limits (scan source).tokens).stmts) := by
  have hbound := (resolve_of_silent h.accepts.binds).2.1
  have hclean := clean_of_resolve (regular_of_parse h.accepts.parses) h.accepts.binds
  have hst : Stock (VisitedIn [(parse limits (scan source).tokens).stmts]) :=
    stock_visitedIn (List.forall_mem_singleton.mpr hclean)
  let c : Exchange := ⟨d.text, new, h.isPlain_text, h.name.isPlain⟩
  have horderly : (Visit.whole (parse limits (scan source).tokens).stmts).Orderly
      (VisitedIn [(parse limits (scan source).tokens).stmts]) :=
    ⟨⟨_, List.mem_singleton_self _, .program⟩, fun _ h => (nomatch h), fun _ h => (nomatch h)⟩
  refine ⟨c, rfl, bodyFollows_bound (c := c) rfl hst horderly ?_⟩
  rw [mentionsIn, hbound]
  exact .of_nodup (nodup_offsets_of_parse h.accepts.scans h.accepts.parses) h.unused_marks
    (bodyMentions_sublist ..).subset

/-- Of the program with the variable renamed the pass of names makes the bound program with the
variable renamed. -/
theorem resolve_respell (h : Renamable limits source d new) :
    let r := Respelling.replacing new (mentionsIn limits source d)
    let stmts := (parse limits (scan source).tokens).stmts
    (resolve limits (bodyRespell r stmts)).diagnostics = [] ∧
      (resolve limits (bodyRespell r stmts)).stmts = bodyRespell r (resolve limits stmts).stmts := by
  intro r stmts
  obtain ⟨c, rfl, hfollows⟩ := h.follows
  obtain ⟨hfits, hbound, hsilent⟩ := resolve_of_silent h.accepts.binds
  obtain ⟨hstmts, herrors⟩ := boundBody_exchanged (still_replacing c.new _) h.unused_marks hfollows
  have hfits' : bodyFits (bodyRespell r stmts) limits.steps = true := by
    rwa [bodyFits_respell]
  obtain ⟨hnone, hbound'⟩ := resolve_of_fits hfits' (hsilent.of_errors herrors)
  exact ⟨hnone, by rw [hbound', hbound, hstmts]⟩

end Renamable

/-! ### A store is its own twin -/

section

variable {P : Visit → Prop} {w : World} {c : Exchange}

/-- The store beside itself, with no names exchanged. -/
def World.beside (w : World) : Pair := ⟨fun _ => false, w.store, w.store⟩

theorem Mirrors.fits (hs : Framed w) {scopes : List (Bindings Bool)} {os : List Opener} {f : FrameId}
    (h : Mirrors w scopes os f) : w.beside.Fits [] f := by
  induction h with
  | globals =>
    intro d a ha
    cases d with
    | zero =>
      cases ha
      exact ⟨hs.root, rfl⟩
    | succ d =>
      rw [Store.ancestor?, show (w.beside.left.frame Store.globals).parent = none from hs.outermost] at ha
      cases ha
  | inside hf _ _ hp _ ih =>
    intro d a ha
    cases d with
    | zero =>
      cases ha
      exact ⟨hf, rfl⟩
    | succ d =>
      rw [Store.ancestor?, show (w.beside.left.frame _).parent = some _ from hp] at ha
      exact ⟨(ih d a ha).1, rfl⟩

theorem Closure.respell_same (closure : Closure) : closure.respell same = closure := by
  simp [Closure.respell, functionRespell_same]

theorem World.spells_beside {id : FunctionId} (hid : id < w.store.functions.size) {ls : List Bool}
    (hls : ∀ b ∈ ls, b = false) : w.beside.Spells c ls id :=
  ⟨hid, same, still_same, (Closure.respell_same _).symm, functionFollows_same _ hls⟩

theorem Callable.calls (hs : Framed w) {id : FunctionId} {outer : FrameId} (h : Callable P w id outer) :
    w.beside.Calls c id outer := by
  cases h with
  | of hid _ _ _ _ hm => exact ⟨[], w.spells_beside hid (List.forall_mem_nil _), hm.fits hs⟩

theorem Bindable.offers (hs : Framed w) {name : String} {id : FunctionId} (h : Bindable P w name id) :
    w.beside.Offers c id := by
  cases h with
  | of hid _ _ _ _ hm => exact ⟨[], w.spells_beside hid (none_cons (List.forall_mem_nil _)), hm.fits hs⟩

theorem Known.beside (hs : Framed w) {v : Value} (h : Known P w v) : w.beside.Known c v := by
  cases v with
  | const _ | native _ | classRef _ | instanceRef _ => trivial
  | function id => exact h.1.calls hs
  | method id => exact ⟨h.1, Callable.calls hs h.2⟩

/-- The store of a sound world is its own twin. -/
theorem Sound.twins (hs : Sound P w) (c : Exchange) : Twins c w.beside where
  frames := rfl
  parent _ := rfl
  vars _ _ := rfl
  functions := rfl
  rest := rfl
  root := hs.root
  outermost := hs.outermost
  layer := rfl
  knownVars f name v hv := (hs.vars f name v hv).beside hs.toFramed
  knownFields i name v hv := (hs.fields i name v hv).beside hs.toFramed
  offers cls name m hm := (hs.methods cls name m hm).offers hs.toFramed

end

namespace Session

/-- The store that an input finds is its own twin, whatever inputs there were. -/
theorem twins_opening (limits : Limits) (clock : Clock) (inputs : List Input) (c : Exchange) :
    Twins c ⟨fun _ => false, ((start limits clock).after inputs).opening,
      ((start limits clock).after inputs).opening⟩ := by
  obtain ⟨w, hw, hs⟩ := sound_after limits clock inputs
  generalize (start limits clock).after inputs = session at hw
  have hle : w.Le none (w.set session.opening) :=
    World.le_of_frames (by rw [hw]; rfl) (by rw [hw]; exact Nat.le_refl _) (fun _ _ => by rw [hw]; rfl)
      (by rw [hw]; exact Nat.le_refl _) fun _ _ => by rw [hw]; rfl
  exact (hs.of_same hle (by rw [hw]; rfl) (by rw [hw]; rfl) (by rw [hw]; rfl) (by rw [hw]; rfl)).twins c

variable {session : Session} {c : Exchange} {p p' : Run (List Diagnostic)}

/-- Procedures that lead from a store to twins agree in what they report and print. -/
theorem execute_agrees
    (h : Run.Mimics c ⟨fun _ => false, session.opening, session.opening⟩ p p' Run.Whatever) :
    (session.execute p).1.Agrees (session.execute p').1 := by
  obtain ⟨w, _, hw, hleft, hright, hout⟩ := h
  have houtput : w.left.output = w.right.output := by rw [hw.rest]
  cases hp : p session.opening with
  | mk result s =>
    cases hp' : p' session.opening with
    | mk result' s' =>
      dsimp only at hleft hright hout
      rw [hp] at hleft hout
      rw [hp'] at hright hout
      obtain rfl : s = w.left := hleft
      obtain rfl : s' = w.right := hright
      rw [execute_eq hp, execute_eq hp', ← houtput]
      match result, result' with
      | .ok ds, .ok ds' =>
        obtain ⟨rfl, -⟩ := hout
        exact ⟨rfl, rfl, rfl, rfl⟩
      | .error fault, .error fault' => exact ⟨rfl, rfl, congrArg some (Eq.symm hout), rfl⟩

end Session

/-! ### The renamed program -/

namespace Renamable

variable {limits : Limits} {source new : String} {d : Mark}

/-- The trees of the renamed text are those of the program with the variable renamed, but for
offsets. -/
theorem parse_renamedText (h : Renamable limits source d new) :
    (parse limits (scan (renamedText limits source d new)).tokens).respell unplaced =
      ((parse limits (scan source).tokens).respell
        (.replacing new (mentionsIn limits source d))).respell unplaced := by
  have htokens := unplaced_of_words h.scan_renamedText.2
  generalize renamedText limits source d new = other at htokens
  generalize Respelling.replacing new (mentionsIn limits source d) = r at htokens
  obtain ⟨ts, e, hts, he, _⟩ := spelled_scan source
  obtain ⟨us, e', hus, he', _⟩ := spelled_scan other
  have hmap : (ts ++ [e]).map (Token.respell r) = ts.map (Token.respell r) ++ [e.respell r] :=
    List.map_append
  rw [hts, hus] at htokens ⊢
  rw [← parse_respell limits he', htokens, hmap, parse_respell limits (e := e.respell r) he, ← hmap,
    parse_respell limits he]

/-- The renamed program is accepted, with the records that the program has. -/
theorem accepts_renamedText (h : Renamable limits source d new) :
    Accepts limits (renamedText limits source d new) ∧
      bodyRespell unplaced
          (resolve limits (parse limits (scan (renamedText limits source d new)).tokens).stmts).stmts =
        bodyRespell unplaced (bodyRespell (.replacing new (mentionsIn limits source d))
          (resolve limits (parse limits (scan source).tokens).stmts).stmts) := by
  obtain ⟨hnone, hresolved⟩ := h.resolve_respell
  have hparse := h.parse_renamedText
  have hscans := h.scan_renamedText.1
  generalize renamedText limits source d new = other at hparse hscans
  obtain ⟨hstmts, hsayings⟩ := resolve_alike limits (congrArg Parsed.stmts hparse)
  have hparses : (parse limits (scan other).tokens).diagnostics = [] := by
    have hdiagnostics := congrArg Parsed.diagnostics hparse
    simpa [Parsed.respell, h.accepts.parses] using hdiagnostics
  have hbinds : (resolve limits (parse limits (scan other).tokens).stmts).diagnostics = [] := by
    refine List.map_eq_nil_iff.mp (hsayings.trans ?_)
    exact List.map_eq_nil_iff.mpr hnone
  exact ⟨⟨hscans, hparses, hbinds⟩, hstmts.trans (congrArg (bodyRespell unplaced) hresolved)⟩

/-- Running the program and the renamed one in a session agrees. -/
theorem run_agrees (h : Renamable limits source d new) (clock : Clock) (inputs : List Input) :
    let session := (Session.start limits clock).after inputs
    (session.run source).1.Agrees (session.run (renamedText limits source d new)).1 := by
  intro session
  obtain ⟨haccepts, hresolved⟩ := h.accepts_renamedText
  generalize renamedText limits source d new = other at haccepts hresolved
  obtain ⟨c, rfl, hfollows⟩ := h.follows
  rw [← (resolve_of_silent h.accepts.binds).2.1] at hfollows
  have hlimits : session.limits = limits := Session.after_limits inputs _
  have hsource : Accepts session.limits source := by rw [hlimits]; exact h.accepts
  have hother : Accepts session.limits other := by rwa [hlimits]
  rw [session.run_of_accepts hsource, session.run_of_accepts hother, hlimits]
  have hmimics := Run.Mimics.interpretWith (Evaluator.mimics_within c limits.turns limits.steps 0)
    (still_replacing c.new _) (Session.twins_opening limits clock inputs c) hfollows
  have halike := Session.interpret_alike (.refl session) limits hresolved.symm
  exact (Session.execute_agrees hmimics).trans_alike halike.1

end Renamable

/-- **Local variables may be renamed.** In the text of an accepted program give a variable or parameter
of a local scope a new name, where it is declared and wherever a use is bound to its scope. The program
is accepted again, its nodes have the records that they had, and to run it in a session is to run the
program: both report and print the same. -/
theorem rename_invisible {limits : Limits} {source new : String} {d : Mark}
    (h : Renamable limits source d new) (clock : Clock) (inputs : List Input) :
    let renamed := mentionsIn limits source d
    let other := renamedText limits source d new
    let session := (Session.start limits clock).after inputs
    d ∈ renamed ∧ Accepts limits other ∧
      bodyRespell unplaced (resolve limits (parse limits (scan other).tokens).stmts).stmts =
        bodyRespell unplaced (bodyRespell (.replacing new renamed)
          (resolve limits (parse limits (scan source).tokens).stmts).stmts) ∧
      (session.run source).1.Agrees (session.run other).1 :=
  ⟨h.mem_mentions, h.accepts_renamedText.1, h.accepts_renamedText.2, h.run_agrees clock inputs⟩

/-- The outer of two variables of one name. -/
theorem rename_invisible_outside :
    let limits : Limits := ⟨60, 5⟩
    let source := "\x7bvar a=nil;\x7bvar a=true;print a;\x7dprint a;\x7d"
    let other := "\x7bvar b=nil;\x7bvar a=true;print a;\x7dprint b;\x7d"
    let d : Mark := ⟨.identifier, "a", some 5⟩
    Renamable limits source d "b" ∧ renamedText limits source d "b" = other ∧
      Accepts limits other ∧
        ((Session.start limits (.still ⟨0⟩)).run other).1.output = ["true", "nil"] := by
  intro limits source other d
  have h : Renamable limits source d "b" :=
    ⟨⟨by decide +kernel, by decide +kernel, by decide +kernel⟩, by decide +kernel, by decide +kernel,
      by decide +kernel⟩
  have htext : renamedText limits source d "b" = other := by decide +kernel
  obtain ⟨_, haccepts, _, hagrees⟩ := rename_invisible h (.still ⟨0⟩) []
  rw [htext] at haccepts hagrees
  refine ⟨h, htext, haccepts, hagrees.output.symm.trans ?_⟩
  decide +kernel

end Lox
