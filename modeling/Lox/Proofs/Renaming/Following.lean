/-
# Renaming a variable

A respelling that gives the mentions of a variable a new name, and no other
mark, spells a bound tree as the exchange of both names in the scope of the
variable does (`Lox.bodyFollows_bound`). For that the marks of the tree are
told apart by their offsets, none of them has the new name, and the scope
declares the old one once. So a mark is renamed exactly if its name is the old
one and stands for what the scope binds.

Key definitions: `Lox.Respelling.replacing`, `Lox.Renames`.
Key theorems: `Lox.Renames.append`, `Lox.bodyFollows_bound`.
-/
import Lox.Proofs.Renaming.Exchange
import Lox.Proofs.Renaming.Mentions

namespace Lox

open Scoping

/-- The tokens where these marks stand get a new text. -/
def Respelling.replacing (new : String) (renamed : List Mark) : Respelling where
  text offset text := if (renamed.map Mark.offset).contains offset then new else text
  place := id
  offset := id
  offset_some _ := rfl

theorem Respelling.text_replacing (new : String) (renamed : List Mark) (offset : Option Int)
    (text : String) : (replacing new renamed).text offset text =
      if offset ∈ renamed.map Mark.offset then new else text := by
  simp only [replacing, List.contains_iff_mem]

theorem Respelling.still_replacing (new : String) (renamed : List Mark) : (replacing new renamed).Still :=
  fun _ => rfl

/-- Of these marks exactly those of the second list are renamed, and none has the new name. -/
structure Renames (new : String) (renamed ms mentions : List Mark) : Prop where
  nodup : ms.Nodup
  unused : ∀ m ∈ ms, m.text ≠ new
  exact : ∀ m ∈ ms, m.offset ∈ renamed.map Mark.offset ↔ m ∈ mentions

theorem Mark.keeps_replacing {new : String} {renamed : List Mark} {m : Mark}
    (h : m.offset ∉ renamed.map Mark.offset) : m.Keeps (.replacing new renamed) := by
  rw [Mark.Keeps, Mark.respell_text, Respelling.text_replacing, if_neg h]

namespace Renames

variable {new : String} {renamed ms ms' mentions mentions' : List Mark} {m : Mark}

/-- Two parts that mention the variable each among its own marks. -/
theorem append (h : Renames new renamed (ms ++ ms') (mentions ++ mentions'))
    (hs : mentions.Sublist ms) (hs' : mentions'.Sublist ms') :
    Renames new renamed ms mentions ∧ Renames new renamed ms' mentions' := by
  obtain ⟨hnodup, hnodup', hdisjoint⟩ := List.nodup_append.mp h.nodup
  refine ⟨⟨hnodup, fun m hm => h.unused m (List.mem_append_left _ hm), fun m hm => ?_⟩,
    ⟨hnodup', fun m hm => h.unused m (List.mem_append_right _ hm), fun m hm => ?_⟩⟩
  · rw [h.exact m (List.mem_append_left _ hm), List.mem_append]
    exact or_iff_left fun hm' => hdisjoint m hm m (hs'.subset hm') rfl
  · rw [h.exact m (List.mem_append_right _ hm), List.mem_append]
    exact or_iff_right fun hm' => hdisjoint m (hs.subset hm') m hm rfl

/-- A mark before the others, and the mentions in it before theirs. -/
theorem split (h : Renames new renamed (m :: ms) (mentions ++ mentions'))
    (hs : mentions.Sublist [m]) (hs' : mentions'.Sublist ms) :
    Renames new renamed [m] mentions ∧ Renames new renamed ms mentions' :=
  have h : Renames new renamed ([m] ++ ms) (mentions ++ mentions') := h
  h.append hs hs'

/-- A mark that is not mentioned, before the others. -/
theorem cons (h : Renames new renamed (m :: ms) mentions) (hs : mentions.Sublist ms) :
    m.Keeps (.replacing new renamed) ∧ Renames new renamed ms mentions := by
  rw [← List.nil_append mentions] at h
  obtain ⟨hfirst, hrest⟩ := h.split (List.nil_sublist _) hs
  refine ⟨Mark.keeps_replacing ?_, hrest⟩
  rw [hfirst.exact m (List.mem_singleton_self m)]
  exact List.not_mem_nil

/-- A mark that is not mentioned, behind the others. -/
theorem concat (h : Renames new renamed (ms ++ [m]) mentions) (hs : mentions.Sublist ms) :
    Renames new renamed ms mentions ∧ m.Keeps (.replacing new renamed) := by
  rw [← List.append_nil mentions] at h
  obtain ⟨hrest, hlast⟩ := append h hs (List.nil_sublist _)
  refine ⟨hrest, Mark.keeps_replacing ?_⟩
  rw [hlast.exact m (List.mem_singleton_self m)]
  exact List.not_mem_nil

end Renames

variable {c : Exchange} {d : Mark} {renamed : List Mark}

/-- A mark that is renamed exactly where its name is exchanged. -/
theorem text_of_renamed (hd : c.old = d.text) {m : Mark} {b : Bool} (hm : m.text ≠ c.new)
    (h : m.offset ∈ renamed.map Mark.offset ↔ b = true ∧ m.text = d.text) :
    (m.respell (.replacing c.new renamed)).text = c.name b m.text := by
  rw [Mark.respell_text, Respelling.text_replacing]
  rw [← hd] at h
  split
  · rename_i hr
    obtain ⟨rfl, ht⟩ := h.mp hr
    rw [ht, c.name_old]
  · rename_i hr
    cases b with
    | false => rfl
    | true => exact (c.name_of_ne (fun ht => hr (h.mpr ⟨rfl, ht⟩)) hm true).symm

/-- A mark that keeps its name, in a scope where it is not exchanged. -/
theorem Mark.Keeps.name {r : Respelling} {m : Mark} (h : m.Keeps r) (hm : m.text ≠ c.new) {b : Bool}
    (hb : b = true → m.text ≠ c.old) : (m.respell r).text = c.name b m.text := by
  rw [h]
  cases b with
  | false => rfl
  | true => exact (c.name_of_ne (hb rfl) hm true).symm

/-- The use of a variable is renamed if it is one of the variable. -/
theorem NameUse.follows_mentions (hd : c.old = d.text) {ls : List Bool} {use : NameUse}
    (h : Renames c.new renamed [use.name] (use.mentions d ls)) :
    use.Follows c (.replacing c.new renamed) ls := by
  have hm := h.unused use.name (List.mem_singleton_self _)
  have hr := h.exact use.name (List.mem_singleton_self _)
  have hmentioned : use.name ∈ use.mentions d ls ↔ use.IsOf d ls := by
    unfold NameUse.mentions
    split
    · exact iff_of_true (List.mem_singleton_self _) ‹_›
    · exact iff_of_false List.not_mem_nil ‹_›
  rw [hmentioned] at hr
  unfold NameUse.Follows Exchange.nameAt
  cases hhops : use.hops with
  | none =>
    refine Mark.keeps_replacing fun ho => ?_
    obtain ⟨-, _, hmem, -⟩ := hr.mp ho
    rw [hhops] at hmem
    cases hmem
  | some hops =>
    refine text_of_renamed hd hm (hr.trans ?_)
    simp [NameUse.IsOf, hhops, and_comm]

/-- The receiver and the superclass are called the same everywhere. -/
theorem NameUse.follows_word {ls : List Bool} (use : NameUse) {r : Respelling}
    (hk : use.name.Keeps r) (hw : ∀ b, c.name b use.name.text = use.name.text) :
    use.Follows c r ls := by
  rw [NameUse.Follows, hk]
  cases use.hops with
  | none => rfl
  | some _ => exact (hw _).symm

mutual

theorem Expr.follows_bound (hd : c.old = d.text) : ∀ {e : Expr} {σ : Scoping} {ls : List Bool}, e.Regular →
    Renames c.new renamed e.marks ((σ.boundExpr e).mentions d ls) →
      (σ.boundExpr e).Follows c (.replacing c.new renamed) ls
  | .literal _, _, _, _, _ => trivial
  | .stray _, _, _, hr, _ => hr.elim
  | .grouping e, σ, ls, hr, h => Expr.follows_bound (e := e) hd hr h
  | .unary _ e, σ, ls, hr, h => by
    obtain ⟨hop, he⟩ := h.cons (e.mentions_sublist σ ls)
    exact ⟨hop, Expr.follows_bound hd hr he⟩
  | .get e _, σ, ls, hr, h => by
    obtain ⟨he, hname⟩ := h.concat (e.mentions_sublist σ ls)
    exact ⟨Expr.follows_bound hd hr he, hname⟩
  | .binary l _ r, σ, ls, hr, h | .logical l _ r, σ, ls, hr, h => by
    have hright := r.mentions_sublist (d := d) (σ.behindExpr l) ls
    obtain ⟨hl, h⟩ := h.append (l.mentions_sublist σ ls) (hright.cons _)
    obtain ⟨hop, hr'⟩ := h.cons hright
    exact ⟨Expr.follows_bound hd hr.1 hl, hop, Expr.follows_bound hd hr.2 hr'⟩
  | .ternary cond yes no, σ, ls, hr, h => by
    have hcond := cond.mentions_sublist (d := d) σ ls
    have hyes := yes.mentions_sublist (d := d) (σ.behindExpr cond) ls
    obtain ⟨h, hno⟩ := h.append (hcond.append hyes) (no.mentions_sublist _ ls)
    obtain ⟨hcond, hyes⟩ := h.append hcond hyes
    exact ⟨Expr.follows_bound hd hr.1 hcond, Expr.follows_bound hd hr.2.1 hyes,
      Expr.follows_bound hd hr.2.2 hno⟩
  | .variable use, σ, ls, _, h => by
    have hname : ((resolveVariable use).run σ).1.name = use.name := by rw [run_variable]
    have hfollows : ((resolveVariable use).run σ).1.Follows c (.replacing c.new renamed) ls :=
      NameUse.follows_mentions hd (by rwa [hname])
    exact hfollows
  | .assign use value, σ, ls, hr, h => by
    obtain ⟨huse, hvalue⟩ := Renames.split h (NameUse.mentions_sublist ls _)
      (value.mentions_sublist σ ls)
    exact ⟨NameUse.follows_mentions hd huse, Expr.follows_bound hd hr.2 hvalue⟩
  | .call callee _ args, σ, ls, hr, h => by
    have hargs := argMentions_sublist (d := d) args (σ.behindExpr callee) ls
    obtain ⟨hcallee, h⟩ := h.append (callee.mentions_sublist σ ls) (hargs.cons _)
    exact ⟨Expr.follows_bound hd hr.1 hcallee, argsFollow_bound hd hr.2 (h.cons hargs).2⟩
  | .set object _ value, σ, ls, hr, h => by
    have hvalue := value.mentions_sublist (d := d) σ ls
    obtain ⟨hobject, h⟩ := h.append (object.mentions_sublist (σ.behindExpr value) ls) (hvalue.cons _)
    obtain ⟨hname, hvalue⟩ := h.cons hvalue
    exact ⟨Expr.follows_bound hd hr.1 hobject, hname, Expr.follows_bound hd hr.2 hvalue⟩
  | .receiver use, σ, ls, hr, h => by
    have hword : ∀ b, c.name b use.name.text = use.name.text := by
      rw [show use.name.text = "this" from hr]
      exact c.name_this
    rw [boundExpr, run_receiver] at h ⊢
    split at h
    · rename_i hnone
      rw [if_pos hnone]
      exact NameUse.follows_word use (h.cons (List.nil_sublist _)).1 hword
    · rename_i hnone
      rw [if_neg hnone]
      exact NameUse.follows_word ⟨use.name, _⟩ (h.cons (List.nil_sublist _)).1 hword
  | .superMethod use m, σ, ls, hr, h => by
    have hword : ∀ b, c.name b use.name.text = use.name.text := by
      rw [show use.name.text = "super" from hr]
      exact c.name_super
    rw [boundExpr, run_superMethod] at h ⊢
    obtain ⟨huse, h⟩ := h.cons (List.nil_sublist _)
    exact ⟨NameUse.follows_word ⟨use.name, _⟩ huse hword, (h.cons (List.nil_sublist _)).1⟩

theorem argsFollow_bound (hd : c.old = d.text) : ∀ {es : List Expr} {σ : Scoping} {ls : List Bool}, argsRegular es →
    Renames c.new renamed (argMarks es) (argMentions d ls (σ.boundArgs es)) →
      argsFollow c (.replacing c.new renamed) ls (σ.boundArgs es)
  | [], _, _, _, _ => trivial
  | e :: es, σ, ls, hr, h => by
    obtain ⟨he, hes⟩ := h.append (e.mentions_sublist σ ls) (argMentions_sublist es _ ls)
    exact ⟨Expr.follows_bound hd hr.1 he, argsFollow_bound hd hr.2 hes⟩

end

/-! ### Declarations -/

/-- The statement of a variable renames it if it is the one whose mentions are. -/
theorem Mark.declares_mentions (hd : c.old = d.text) {m : Mark} {ls : List Bool}
    (h : Renames c.new renamed [m] (if ls.headD false = true ∧ m = d then [m] else []))
    (hm : ls.headD false = true → m.text = d.text → m = d) :
    m.Declares c (.replacing c.new renamed) ls := by
  refine text_of_renamed hd (h.unused m (List.mem_singleton_self m)) ?_
  rw [h.exact m (List.mem_singleton_self m)]
  split
  · rename_i hb
    exact iff_of_true (List.mem_singleton_self m) ⟨hb.1, congrArg Mark.text hb.2⟩
  · rename_i hb
    exact iff_of_false List.not_mem_nil fun ⟨hl, ht⟩ => hb ⟨hl, hm hl ht⟩

/-- The parameters of a function rename the variable if it is one of them. -/
theorem params_declare (hd : c.old = d.text) {decl : Fun} (hn : (Opener.call decl).locals.Nodup)
    (h : Renames c.new renamed decl.params (decl.params.filter (· = d))) (ls : List Bool) :
    ∀ m ∈ decl.params,
      m.Declares c (.replacing c.new renamed) ((Opener.call decl).declares d :: ls) := by
  intro m hm
  refine text_of_renamed hd (h.unused m hm) ?_
  rw [h.exact m hm, List.mem_filter, decide_eq_true_iff]
  constructor
  · rintro ⟨hm, rfl⟩
    exact ⟨decide_eq_true (List.mem_append_left _ hm), rfl⟩
  · rintro ⟨hb, ht⟩
    exact ⟨hm, Opener.eq_of_param hn (of_decide_eq_true hb) hm ht⟩

/-! ### Statements -/

/-- A place of a program without reports, where the names of the innermost scope are different. -/
structure Visit.Orderly (P : Visit → Prop) (v : Visit) : Prop where
  visited : P v
  inside : v.Inside
  distinct : ∀ o ∈ v.openers.head?, o.locals.Nodup

namespace Visit.Orderly

variable {P : Visit → Prop} {v w : Visit}

theorem part (hst : Stock P) (h : v.Orderly P) (hw : w ∈ v.parts)
    (hn : ∀ o ∈ w.openers.head?, o.locals.Nodup) : w.Orderly P :=
  ⟨hst.part h.visited hw, h.inside.part (hst.clean h.visited) hw, hn⟩

/-- In the scope of the variable a statement that declares its name is the one of it. -/
theorem var?_eq {s : Stmt} {σ : Scoping} {os : List Opener} (h : Orderly P ⟨.stmt s, σ, os⟩)
    {m : Mark} (hm : s.declared? = some m) (hb : (os.map (Opener.declares d)).headD false = true)
    (ht : m.text = d.text) : s.var? = some d := by
  cases os with
  | nil => cases hb
  | cons o os =>
    refine Opener.eq_of_declared (h.distinct o rfl) (of_decide_eq_true hb) ?_ hm ht
    refine h.inside o rfl ?_
    rw [hm]
    exact Option.some_ne_none m

/-- The name of a function or class is none of a variable. -/
theorem declares {s : Stmt} {σ : Scoping} {os : List Opener} (h : Orderly P ⟨.stmt s, σ, os⟩)
    (hd : c.old = d.text) {m : Mark} (hm : s.declared? = some m) (hs : s.var? = none)
    (hk : m.Keeps (.replacing c.new renamed)) (hu : m.text ≠ c.new) :
    m.Declares c (.replacing c.new renamed) (os.map (Opener.declares d)) := by
  refine hk.name hu fun hb ht => ?_
  have hvar := h.var?_eq hm hb (ht.trans hd)
  rw [hs] at hvar
  cases hvar

end Visit.Orderly

open Visit

variable {P : Visit → Prop}

mutual

/-- What the pass of names makes of a statement is spelled by the respelling as the exchange in the
scope of the variable spells it. -/
theorem Stmt.follows_bound (hd : c.old = d.text) (hst : Stock P) : ∀ {s : Stmt} {σ : Scoping}
    {os : List Opener}, Orderly P ⟨.stmt s, σ, os⟩ →
      Renames c.new renamed s.marks ((σ.boundStmt s).mentions d (os.map (Opener.declares d))) →
        (σ.boundStmt s).Follows c (.replacing c.new renamed) (os.map (Opener.declares d))
  | .expr e, σ, os, hv, h | .print e, σ, os, hv, h =>
    Expr.follows_bound hd (hst.clean hv.visited).regular h
  | .var name none, σ, os, hv, h => by
    obtain ⟨hname, -⟩ := Renames.split h (declaration_sublist _ name) (.refl _)
    refine ⟨Mark.declares_mentions hd hname fun hb ht => ?_, trivial⟩
    exact Option.some.inj (hv.var?_eq rfl hb ht)
  | .var name (some e), σ, os, hv, h => by
    rw [boundStmt_var] at h ⊢
    obtain ⟨hname, he⟩ := Renames.split h (declaration_sublist _ name)
      (e.mentions_sublist (σ.initializing name) _)
    refine ⟨Mark.declares_mentions hd hname fun hb ht => ?_, ?_⟩
    · exact Option.some.inj (hv.var?_eq rfl hb ht)
    · exact Expr.follows_bound hd (hst.clean hv.visited).regular.2 he
  | .block body, σ, os, hv, h => by
    have hdistinct := (hst.clean hv.visited).distinct_block (hst.standing hv.visited).1.pending
    have hbody : Orderly P ⟨.body body, σ.enter [], .block body :: os⟩ :=
      hv.part hst (List.mem_singleton_self _) fun o ho => by
        cases ho
        exact hdistinct
    refine ⟨(Opener.block body).declares d, bodyFollows_bound hd hst hbody ?_⟩
    have h : Renames c.new renamed (bodyMarks body)
        (bodyMentions d ((Opener.block ((σ.enter []).boundBody body)).declares d ::
          os.map (Opener.declares d)) ((σ.enter []).boundBody body)) := h
    rwa [declares_block] at h
  | .branch cond yes none, σ, os, hv, h | .loop cond yes, σ, os, hv, h => by
    have hr := (hst.clean hv.visited).regular
    have hyes : Orderly P ⟨.stmt yes, σ.behindExpr cond, os⟩ :=
      hv.part hst (List.mem_cons_of_mem _ (List.mem_singleton_self _)) hv.distinct
    obtain ⟨hcond, h⟩ := h.append (cond.mentions_sublist σ _) (yes.mentions_sublist _ _)
    exact ⟨Expr.follows_bound hd hr.1 hcond, Stmt.follows_bound hd hst hyes h⟩
  | .branch cond yes (some no), σ, os, hv, h => by
    have hr := (hst.clean hv.visited).regular
    have hyes : Orderly P ⟨.stmt yes, σ.behindExpr cond, os⟩ :=
      hv.part hst (List.mem_cons_of_mem _ (List.mem_cons_self ..)) hv.distinct
    have hno : Orderly P ⟨.stmt no, (σ.behindExpr cond).behindStmt yes, os⟩ :=
      hv.part hst (List.mem_cons_of_mem _ (List.mem_cons_of_mem _ (List.mem_singleton_self _)))
        hv.distinct
    have hsub := yes.mentions_sublist (d := d) (σ.behindExpr cond) (os.map (Opener.declares d))
    have hsub' := cond.mentions_sublist (d := d) σ (os.map (Opener.declares d))
    obtain ⟨h, hsecond⟩ := h.append (hsub'.append hsub) (no.mentions_sublist _ _)
    obtain ⟨hcond, hfirst⟩ := h.append hsub' hsub
    exact ⟨Expr.follows_bound hd hr.1 hcond, Stmt.follows_bound hd hst hyes hfirst,
      Stmt.follows_bound hd hst hno hsecond⟩
  | .function decl, σ, os, hv, h => by
    have hfunction : Orderly P ⟨.function .function decl, (σ.declare decl.name).define decl.name, os⟩ :=
      hv.part hst (List.mem_singleton_self _) hv.distinct
    have hfollows := functionFollows_bound hd hst hfunction h
    obtain ⟨name, params, body⟩ := decl
    exact ⟨hv.declares hd rfl rfl hfollows.1 (h.unused name (List.mem_cons_self ..)), hfollows⟩
  | .giveBack keyword none, σ, os, hv, h => by
    rw [boundStmt_giveBack_none]
    exact trivial
  | .giveBack keyword (some e), σ, os, hv, h => by
    rw [boundStmt_giveBack] at h ⊢
    exact Expr.follows_bound hd (hst.clean hv.visited).regular
      (h.cons (e.mentions_sublist (σ.givingBack keyword) _)).2
  | .classDecl name none ms, σ, os, hv, h => by
    have hms : Orderly P ⟨.methods ms, (σ.declaringClass name).enter ["this"], .receiver name :: os⟩ :=
      hv.part hst (List.mem_singleton_self _) fun o ho => by
        cases ho
        exact .nil
    have hunused := h.unused name (List.mem_cons_self ..)
    obtain ⟨hname, h⟩ := h.cons (methodMentions_sublist ms ((σ.declaringClass name).enter ["this"]) _)
    exact ⟨hname, hv.declares hd rfl rfl hname hunused, methodsFollow_bound hd hst hms h⟩
  | .classDecl name (some use) ms, σ, os, hv, h => by
    have hms : Orderly P ⟨.methods ms,
        (((σ.inheriting name use).behindExpr (.variable use)).enter ["super"]).enter ["this"],
        .receiver name :: .superclass name :: os⟩ :=
      hv.part hst (List.mem_cons_of_mem _ (List.mem_singleton_self _)) fun o ho => by
        cases ho
        exact .nil
    have hunused := h.unused name (List.mem_cons_self ..)
    rw [boundStmt_subclass] at h ⊢
    have hsub := NameUse.mentions_sublist (d := d) (os.map (Opener.declares d))
      ⟨use.name, (σ.inheriting name use).hops? use.name.text⟩
    have hsub' := methodMentions_sublist (d := d) ms
      ((((σ.inheriting name use).behindExpr (.variable use)).enter ["super"]).enter ["this"])
      (false :: false :: os.map (Opener.declares d))
    obtain ⟨hname, h⟩ := h.cons (hsub.append hsub')
    obtain ⟨hsuper, h⟩ := Renames.split h hsub hsub'
    exact ⟨hname, hv.declares hd rfl rfl hname hunused, NameUse.follows_mentions hd hsuper,
      methodsFollow_bound hd hst hms h⟩
  | .stray _, _, _, hv, _ => (hst.clean hv.visited).regular.elim

theorem bodyFollows_bound (hd : c.old = d.text) (hst : Stock P) : ∀ {body : List Stmt} {σ : Scoping}
    {os : List Opener}, Orderly P ⟨.body body, σ, os⟩ →
      Renames c.new renamed (bodyMarks body)
        (bodyMentions d (os.map (Opener.declares d)) (σ.boundBody body)) →
        bodyFollows c (.replacing c.new renamed) (os.map (Opener.declares d)) (σ.boundBody body)
  | [], _, _, _, _ => trivial
  | s :: body, σ, os, hv, h => by
    have hs : Orderly P ⟨.stmt s, σ, os⟩ := hv.part hst (List.mem_cons_self ..) hv.distinct
    have hbody : Orderly P ⟨.body body, σ.behindStmt s, os⟩ :=
      hv.part hst (List.mem_cons_of_mem _ (List.mem_singleton_self _)) hv.distinct
    obtain ⟨hfirst, hrest⟩ := h.append (s.mentions_sublist σ _) (bodyMentions_sublist body _ _)
    exact ⟨Stmt.follows_bound hd hst hs hfirst, bodyFollows_bound hd hst hbody hrest⟩

theorem functionFollows_bound (hd : c.old = d.text) (hst : Stock P) : ∀ {kind : FunctionKind}
    {decl : Fun} {σ : Scoping} {os : List Opener}, Orderly P ⟨.function kind decl, σ, os⟩ →
      Renames c.new renamed (functionMarks decl)
        (functionMentions d (os.map (Opener.declares d)) (σ.boundFunction kind decl)) →
        functionFollows c (.replacing c.new renamed) (os.map (Opener.declares d))
          (σ.boundFunction kind decl)
  | kind, ⟨name, params, body⟩, σ, os, hv, h => by
    have hdistinct := (hst.clean hv.visited).distinct_call (hst.standing hv.visited).1.pending
    have hbody : Orderly P ⟨.body body, σ.enteringFunction kind params,
        .call ⟨name, params, body⟩ :: os⟩ :=
      hv.part hst (List.mem_singleton_self _) fun o ho => by
        cases ho
        exact hdistinct
    have h : Renames c.new renamed (name :: (params ++ bodyMarks body))
        (params.filter (· = d) ++
          bodyMentions d ((Opener.call ⟨name, params, (σ.enteringFunction kind params).boundBody body⟩).declares
            d :: os.map (Opener.declares d)) ((σ.enteringFunction kind params).boundBody body)) := h
    rw [declares_call] at h
    have hsub : (params.filter (· = d)).Sublist params := List.filter_sublist
    have hsub' := bodyMentions_sublist (d := d) body (σ.enteringFunction kind params)
      ((Opener.call ⟨name, params, body⟩).declares d :: os.map (Opener.declares d))
    obtain ⟨hname, h⟩ := h.cons (hsub.append hsub')
    obtain ⟨hparams, h⟩ := h.append hsub hsub'
    exact ⟨hname, _, params_declare hd hdistinct hparams _, bodyFollows_bound hd hst hbody h⟩

theorem methodsFollow_bound (hd : c.old = d.text) (hst : Stock P) : ∀ {ms : List Fun} {σ : Scoping}
    {os : List Opener}, Orderly P ⟨.methods ms, σ, os⟩ →
      Renames c.new renamed (methodMarks ms)
        (methodMentions d (os.map (Opener.declares d)) (σ.boundMethods ms)) →
        methodsFollow c (.replacing c.new renamed) (os.map (Opener.declares d)) (σ.boundMethods ms)
  | [], _, _, _, _ => trivial
  | m :: ms, σ, os, hv, h => by
    have hm : Orderly P ⟨.function (methodKind m.name) m, σ, os⟩ :=
      hv.part hst (List.mem_cons_self ..) hv.distinct
    have hms : Orderly P ⟨.methods ms, σ.behindFunction (methodKind m.name) m, os⟩ :=
      hv.part hst (List.mem_cons_of_mem _ (List.mem_singleton_self _)) hv.distinct
    obtain ⟨hfirst, hrest⟩ := h.append (functionMentions_sublist (methodKind m.name) m σ _)
      (methodMentions_sublist ms _ _)
    exact ⟨functionFollows_bound hd hst hm hfirst, methodsFollow_bound hd hst hms hrest⟩

end

end Lox
