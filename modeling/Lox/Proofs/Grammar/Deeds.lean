/-
# What a production does before a stop

What a production does is settled by the tokens up to the first one that it
never reads: an end token for all of them, a semicolon or an end token for
those of expressions. Neither the tokens behind that one nor what was read and
reported before make a difference (`Lox.Parse.Confined`). A refusal is of the
token ahead, and is reported last; what was reported before it, and all that is
reported without a refusal, is mild: the production went on behind it.

After a refusal tokens are dropped (`Lox.dropped`), and nothing is reported.

Key definitions: `Lox.dropped`, `Lox.Deed`, `Lox.Confines`, `Lox.Parse.Confined`.
Key theorems: `Lox.Cursor.moves_synchronized`, `Lox.Parse.Confined.bind`,
`Lox.Parse.Confined.recovering`.
-/
import Lox.Proofs.Grammar.Totality

namespace Lox

/-! ### Moving over tokens -/

namespace Cursor

variable {c c' c'' : Cursor} {ts us : List Token} {ds es : List Diagnostic}

/-- Some tokens are ahead of the first end token. -/
theorem Ended.split (h : c.Ended) : ∃ ts t later, c.ahead = ts ++ t :: later ∧
    (∀ u ∈ ts, u.kind ≠ .eof) ∧ t.kind = .eof := by
  obtain ⟨e, he, hk⟩ := h
  revert he
  generalize c.ahead = us
  intro he
  induction us with
  | nil => cases he
  | cons u us ih =>
    by_cases hu : u.kind = .eof
    · exact ⟨[], u, us, rfl, by simp, hu⟩
    · have hne : e ≠ u := fun h => hu (by rw [← h, hk])
      obtain ⟨ts, t, later, rfl, hts, ht⟩ := ih (List.mem_of_ne_of_mem hne he)
      exact ⟨u :: ts, t, later, rfl, List.forall_mem_cons.mpr ⟨hu, hts⟩, ht⟩

theorem Moves.ahead_eq {t : Token} {later : List Token} (h : c.Moves ts ds c')
    (hc : c.ahead = ts ++ us ++ t :: later) : c'.ahead = us ++ t :: later := by
  rw [h.ahead, List.append_assoc] at hc
  exact List.append_cancel_left hc

theorem here_eq {t : Token} {later : List Token} (hc : c.ahead = ts ++ t :: later) :
    c.here = ts.headD t := by
  cases ts with
  | nil => exact (List.cons.inj hc).1
  | cons u us => exact (List.cons.inj hc).1

/-- A token that does not end the text is read by one step. -/
theorem passes_advance_of_cons {t : Token} (ht : t.kind ≠ .eof) (hc : c.ahead = t :: us)
    (hus : us ≠ []) : c.Passes [t] c.advance := by
  obtain ⟨u, us, rfl⟩ := List.exists_cons_of_ne_nil hus
  have h : c.Passes [t] ⟨t :: c.done, u, us, c.diagnostics⟩ := ⟨hc, rfl, rfl⟩
  rw [h.advance ht]
  exact h

end Cursor

/-! ### What is dropped after a refusal -/

/-- The tokens up to the end, the next token that begins a statement or behind the next
semicolon. -/
def toResume : List Token → List Token
  | [] => []
  | t :: ts =>
    if t.kind = .eof || Cursor.startsStatement t.kind then []
    else if t.kind = .semicolon then [t]
    else t :: toResume ts

/-- The tokens that are dropped where the first one is refused. -/
def dropped : List Token → List Token
  | [] => []
  | t :: ts =>
    if t.kind = .eof then []
    else if t.kind = .semicolon then [t]
    else t :: toResume ts

section Dropped

variable {t : Token}

theorem toResume_append (ht : t.kind = .eof) (ts later : List Token) :
    ∃ us, ts = toResume (ts ++ t :: later) ++ us ∧
      toResume (ts ++ t :: later) = toResume (ts ++ [t]) := by
  induction ts with
  | nil => exact ⟨[], by simp [toResume, ht], by simp [toResume, ht]⟩
  | cons x ts ih =>
    obtain ⟨us, hus, heq⟩ := ih
    simp only [List.cons_append, toResume]
    split
    · exact ⟨_, rfl, rfl⟩
    · split
      · exact ⟨_, rfl, rfl⟩
      · exact ⟨us, by rw [List.cons_append, ← hus], by rw [heq]⟩

/-- No token at or behind an end token is dropped, and none matters. -/
theorem dropped_append (ht : t.kind = .eof) (ts later : List Token) :
    ∃ us, ts = dropped (ts ++ t :: later) ++ us ∧
      dropped (ts ++ t :: later) = dropped (ts ++ [t]) := by
  cases ts with
  | nil => exact ⟨[], by simp [dropped, ht], by simp [dropped, ht]⟩
  | cons x ts =>
    obtain ⟨us, hus, heq⟩ := toResume_append ht ts later
    simp only [List.cons_append, dropped]
    split
    · exact ⟨_, rfl, rfl⟩
    · split
      · exact ⟨_, rfl, rfl⟩
      · exact ⟨us, by rw [List.cons_append, ← hus], by rw [heq]⟩

end Dropped

namespace Cursor

variable {c : Cursor} {ts later : List Token} {t : Token}

/-- Where a skip may stop at once, it does. -/
theorem skip_eq_self (h : c.atEnd = true ∨ c.previous.kind = .semicolon) :
    ∀ fuel, skip fuel c = c
  | 0 => rfl
  | fuel + 1 => by
    rw [skip, if_pos]
    rcases h with h | h <;> simp [h]

theorem atEnd_of_ahead (ht : t.kind = .eof) (hc : c.ahead = t :: later) : c.atEnd = true := by
  have hhere : c.here = t := (List.cons.inj hc).1
  rw [atEnd, hhere]
  simpa using ht

theorem moves_skip (ht : t.kind = .eof) (fuel : Nat) (ts : List Token) (c : Cursor)
    (hl : ts.length ≤ fuel) (hc : c.ahead = ts ++ t :: later) (hp : c.previous.kind ≠ .semicolon) :
    c.Moves (toResume (ts ++ [t])) [] (skip fuel c) := by
  induction ts generalizing fuel c with
  | nil =>
    rw [skip_eq_self (.inl (atEnd_of_ahead ht hc)), List.nil_append, toResume, if_pos (by simp [ht])]
    exact .refl c
  | cons x ts ih =>
    obtain ⟨fuel, rfl⟩ : ∃ n, fuel = n + 1 := ⟨fuel - 1, by simp at hl; omega⟩
    have hx : c.here = x := here_eq hc
    rw [List.cons_append, toResume, skip, atEnd, hx]
    by_cases hstop : (x.kind = .eof || startsStatement x.kind) = true
    · rw [if_pos hstop, if_pos (by simpa [hp] using hstop)]
      exact .refl c
    · have hk : x.kind ≠ .eof := by
        intro h
        simp [h] at hstop
      have hstep := passes_advance_of_cons hk hc (by simp)
      have hgo : ¬ (decide (x.kind = .eof) || decide (c.previous.kind = .semicolon) ||
          startsStatement x.kind) = true := by simpa [hp] using hstop
      rw [if_neg hstop, if_neg hgo]
      by_cases hs : x.kind = .semicolon
      · rw [if_pos hs, skip_eq_self (.inr (by rw [hstep.previous]; exact hs))]
        exact hstep.moves
      · rw [if_neg hs]
        have hahead : c.advance.ahead = ts ++ t :: later := hstep.moves.ahead_eq (by simpa using hc)
        have hskip := ih fuel c.advance (by simpa using hl) hahead (by rw [hstep.previous]; exact hs)
        exact hstep.moves.trans hskip

/-- After a refusal tokens are dropped, and nothing is reported. -/
theorem moves_synchronized (ht : t.kind = .eof) (hc : c.ahead = ts ++ t :: later) :
    c.Moves (dropped (ts ++ [t])) [] c.synchronized := by
  have atEnd (h : c.atEnd = true) : c.Moves [] [] c.synchronized := by
    rw [synchronized, advance_of_atEnd h, skip_eq_self (.inl h)]
    exact .refl c
  cases ts with
  | nil =>
    rw [List.nil_append, dropped, if_pos ht]
    exact atEnd (atEnd_of_ahead ht hc)
  | cons x ts =>
    have hlater : c.later = ts ++ t :: later := (List.cons.inj hc).2
    rw [List.cons_append, dropped]
    split
    · rename_i hk
      exact atEnd (atEnd_of_ahead hk hc)
    · rename_i hk
      have hstep := passes_advance_of_cons hk hc (by simp)
      rw [synchronized]
      split
      · rename_i hs
        rw [skip_eq_self (.inr (by rw [hstep.previous]; exact hs))]
        exact hstep.moves
      · rename_i hs
        have hahead : c.advance.ahead = ts ++ t :: later := hstep.moves.ahead_eq (by simpa using hc)
        have hskip := moves_skip ht c.later.length ts c.advance (by simp [hlater]) hahead
          (by rw [hstep.previous]; exact hs)
        exact hstep.moves.trans hskip

end Cursor

/-! ### Deeds -/

/-- What a production does before a token that it does not read: its result, the tokens that it reads
and those that it leaves, and what it reports. -/
structure Deed (α : Type) where
  result : Except Halt α
  read : List Token
  left : List Token
  reports : List Diagnostic

/-- The kinds of tokens that are not read, and the messages behind which a production goes on. -/
structure Confines where
  stops : TokenKind → Prop
  mild : String → Prop
  eof : stops .eof
  only : ∀ k, stops k → k = .semicolon ∨ k = .eof
  target : mild invalidTarget
  arguments : mild tooManyArguments

namespace Confines

/-- An expression reads no semicolon, and goes on behind a wrong target or too many arguments. -/
def phrase : Confines where
  stops k := k = .semicolon ∨ k = .eof
  mild m := m = invalidTarget ∨ m = tooManyArguments
  eof := .inr rfl
  only _ h := h
  target := .inl rfl
  arguments := .inr rfl

/-- All but the end may be read, and anything may be reported on the way. -/
def text : Confines where
  stops k := k = .eof
  mild _ := True
  eof := rfl
  only _ h := .inr h
  target := trivial
  arguments := trivial

end Confines

namespace Parse

open Procedure

variable {α β γ : Type} {F : Confines} {ts us : List Token} {t x : Token}

theorem discard_error {p : Parse α} {c c' : Cursor} {e : Halt} (h : p c = (.error e, c')) :
    discard p c = (.error e, c') := by
  show (Functor.mapConst () p) c = _
  rw [map_const, Function.comp, map_eq_pure_bind, bind_error h]

/-- A token of another kind is refused. -/
theorem expect_refused {c : Cursor} {kind : TokenKind} (h : c.here.kind ≠ kind) (message : String) :
    expect kind message c =
      (.error (.refused ⟨message, some c.here.offset⟩), c.report c.here.offset message) := by
  unfold expect
  rw [bind_ok (check_eq _ c), if_neg (by simpa using h)]
  rfl

/-- A refusal is of the token ahead and is reported last. All other reports are mild. -/
structure Blames (F : Confines) (t : Token) (d : Deed α) : Prop where
  refused : ∀ e, d.result = .error (.refused e) → ∃ ds,
    d.reports = ds ++ [⟨.grammar, (d.left.headD t).offset, e.message⟩] ∧
      e.offset = some (d.left.headD t).offset ∧ ∀ r ∈ ds, F.mild r.message
  mild : (∀ e, d.result ≠ .error (.refused e)) → ∀ r ∈ d.reports, F.mild r.message

/-- Before tokens and a stop the production does the same whatever was read before, and whatever
follows. -/
def ConfinedAt (F : Confines) (p : Parse α) (ts : List Token) (t : Token) : Prop :=
  ∃ d : Deed α, ts = d.read ++ d.left ∧ Blames F t d ∧
    ∀ c later, c.ahead = ts ++ t :: later → ∃ c', p c = (d.result, c') ∧ c.Moves d.read d.reports c'

/-- The production is confined to the tokens before the first stop. -/
def Confined (F : Confines) (p : Parse α) : Prop :=
  ∀ ts t, (∀ u ∈ ts, ¬ F.stops u.kind) → F.stops t.kind → ConfinedAt F p ts t

namespace ConfinedAt

variable {p : Parse α} {f : α → Parse β}

/-- Nothing is read and nothing is reported. -/
theorem still {p : Parse α} {r : Except Halt α} (hr : ∀ e, r ≠ .error (.refused e))
    (h : ∀ c, p c = (r, c)) : ConfinedAt F p ts t :=
  ⟨⟨r, [], ts, []⟩, rfl, ⟨fun e he => absurd he (hr e), fun _ _ h => by cases h⟩,
    fun c _ _ => ⟨c, h c, .refl c⟩⟩

theorem pure (a : α) : ConfinedAt F (Pure.pure a : Parse α) ts t :=
  still (fun _ h => by cases h) fun _ => rfl

theorem tooDeep : ConfinedAt F (halt .tooDeep : Parse α) ts t :=
  still (fun _ h => by cases h) fun _ => rfl

theorem report (u : Token) {message : String} (hm : F.mild message) :
    ConfinedAt F (Parse.report u message) ts t := by
  refine ⟨⟨.ok (), [], ts, [⟨.grammar, u.offset, message⟩]⟩, rfl,
    ⟨fun _ h => (by cases h), fun _ r hr => ?_⟩, fun c _ _ => ⟨_, rfl, c.moves_report u.offset message⟩⟩
  obtain rfl := List.mem_singleton.mp hr
  exact hm

/-- The token ahead is refused. -/
theorem refuse (message : String) :
    ConfinedAt F (Parse.refuse (ts.headD t) message : Parse α) ts t := by
  refine ⟨⟨.error (.refused ⟨message, some (ts.headD t).offset⟩), [], ts,
    [⟨.grammar, (ts.headD t).offset, message⟩]⟩, rfl, ⟨fun e he => ?_, fun h => absurd rfl (h _)⟩,
    fun c _ _ => ⟨_, rfl, c.moves_report (ts.headD t).offset message⟩⟩
  cases he
  exact ⟨[], rfl, rfl, fun _ h => by cases h⟩

/-- A token that does not end the text is read. -/
theorem next (hx : x.kind ≠ .eof) : ConfinedAt F Parse.next (x :: ts) t := by
  refine ⟨⟨.ok x, [x], ts, []⟩, rfl, ⟨fun _ h => (by cases h), fun _ _ h => by cases h⟩,
    fun c later hc => ?_⟩
  have hstep := Cursor.passes_advance_of_cons hx hc (by simp)
  exact ⟨_, next_eq hstep hx, hstep.moves⟩

/-- What the token ahead tells. -/
theorem look (k : Token → γ) {f : γ → Parse β} (h : ConfinedAt F (f (k (ts.headD t))) ts t) :
    ConfinedAt F (Procedure.read (fun c => k c.here) >>= f) ts t := by
  obtain ⟨d, hd, hb, hdo⟩ := h
  refine ⟨d, hd, hb, fun c later hc => ?_⟩
  obtain ⟨c', hrun, hm⟩ := hdo c later hc
  refine ⟨c', ?_, hm⟩
  rw [← Cursor.here_eq hc] at hrun
  exact hrun

theorem bind (h : ConfinedAt F p ts t) (hf : ∀ a us, (∃ vs, ts = vs ++ us) → ConfinedAt F (f a) us t) :
    ConfinedAt F (p >>= f) ts t := by
  obtain ⟨⟨r, read, left, ds⟩, rfl, hb, hdo⟩ := h
  cases r with
  | error e =>
    refine ⟨⟨.error e, read, left, ds⟩, rfl, ⟨fun e' he => ?_, fun hn => ?_⟩, fun c later hc => ?_⟩
    · cases he
      exact hb.refused e' rfl
    · exact hb.mild fun e' he => by
        cases he
        exact hn e' rfl
    · obtain ⟨c', hrun, hm⟩ := hdo c later hc
      exact ⟨c', bind_error hrun, hm⟩
  | ok a =>
    obtain ⟨⟨r', read', left', es⟩, hleft, hb', hdo'⟩ := hf a left ⟨read, rfl⟩
    subst hleft
    have hds : ∀ r ∈ ds, F.mild r.message := hb.mild fun _ h => by cases h
    refine ⟨⟨r', read ++ read', left', ds ++ es⟩, by simp, ⟨fun e he => ?_, fun hn r hr => ?_⟩,
      fun c later hc => ?_⟩
    · obtain ⟨es', hes, ho, hmild⟩ := hb'.refused e he
      exact ⟨ds ++ es', by simp_all, ho, fun r hr => (List.mem_append.mp hr).elim (hds r) (hmild r)⟩
    · exact (List.mem_append.mp hr).elim (hds r) (hb'.mild hn r)
    · obtain ⟨c₁, hrun, hm⟩ := hdo c later hc
      obtain ⟨c₂, hrun', hm'⟩ := hdo' c₁ later (hm.ahead_eq hc)
      exact ⟨c₂, (bind_ok hrun).trans hrun', hm.trans hm'⟩

end ConfinedAt

namespace Confined

variable {p q : Parse α} {f : α → Parse β} {kinds : List TokenKind} {kind : TokenKind}

theorem pure (a : α) : Confined F (Pure.pure a : Parse α) := fun _ _ _ _ => .pure a

theorem tooDeep : Confined F (halt .tooDeep : Parse α) := fun _ _ _ _ => .tooDeep

theorem report (u : Token) {message : String} (hm : F.mild message) :
    Confined F (Parse.report u message) := fun _ _ _ _ => .report u hm

theorem bind (h : Confined F p) (hf : ∀ a, Confined F (f a)) : Confined F (p >>= f) :=
  fun ts t hts ht => (h ts t hts ht).bind fun a us ⟨_, hus⟩ =>
    hf a us t (fun u hu => hts u (hus ▸ List.mem_append_right _ hu)) ht

theorem look (k : Token → γ) {f : γ → Parse β} (hf : ∀ x, Confined F (f x)) :
    Confined F (Procedure.read (fun c => k c.here) >>= f) :=
  fun ts t hts ht => .look k (hf _ ts t hts ht)

theorem check {f : Bool → Parse β} (hf : ∀ b, Confined F (f b)) :
    Confined F (Parse.check kinds >>= f) :=
  look (fun x => kinds.contains x.kind) hf

theorem map (h : Confined F p) (g : α → β) : Confined F (g <$> p) := by
  rw [map_eq_pure_bind]
  exact h.bind fun _ => .pure _

theorem discard (h : Confined F p) : Confined F (discard p) := h.map fun _ => ()

theorem ne_eof (h : ¬ F.stops x.kind) : x.kind ≠ .eof := fun he => h (he ▸ F.eof)

/-- An optional token of kinds that are no stops. -/
theorem accept? (hk : ∀ k ∈ kinds, ¬ F.stops k) {f : Option Token → Parse β}
    (hf : ∀ o, Confined F (f o)) : Confined F (Parse.accept? kinds >>= f) := by
  intro ts t hts ht
  unfold Parse.accept?
  rw [bind_assoc]
  refine .look (fun x => kinds.contains x.kind) ?_
  cases h : kinds.contains (ts.headD t).kind with
  | false => exact hf none ts t hts ht
  | true =>
    have hmem : (ts.headD t).kind ∈ kinds := by simpa using h
    cases ts with
    | nil => exact absurd ht (hk _ hmem)
    | cons x ts =>
      simp only [if_true, bind_assoc, pure_bind]
      refine (ConfinedAt.next (ne_eof (hts x List.mem_cons_self))).bind fun a us ⟨vs, hus⟩ => ?_
      exact hf (some a) us t (fun u hu => hts u (hus ▸ List.mem_append_right _ hu)) ht

theorem accept (hk : ∀ k ∈ kinds, ¬ F.stops k) {f : Bool → Parse β} (hf : ∀ b, Confined F (f b)) :
    Confined F (Parse.accept kinds >>= f) := by
  unfold Parse.accept
  simp only [bind_assoc, pure_bind]
  exact accept? hk fun o => hf o.isSome

/-- A token of a kind that is no stop. -/
theorem expect (hk : ¬ F.stops kind) (message : String) : Confined F (Parse.expect kind message) := by
  intro ts t hts ht
  refine .look (fun x => [kind].contains x.kind) ?_
  cases h : [kind].contains (ts.headD t).kind with
  | false => exact .look (fun x => x) (.refuse message)
  | true =>
    have hkind : (ts.headD t).kind = kind := by simpa using h
    cases ts with
    | nil => exact absurd (hkind ▸ ht) hk
    | cons x ts => exact .next (ne_eof (hts x List.mem_cons_self))

/-- A halt as a result. -/
theorem attempt (h : Confined .text p) : Confined .text (attempt p) := by
  intro ts t hts ht
  obtain ⟨⟨r, read, left, ds⟩, hd, -, hdo⟩ := h ts t hts ht
  refine ⟨⟨.ok r, read, left, ds⟩, hd, ⟨fun _ h => (by cases h), fun _ _ _ => trivial⟩,
    fun c later hc => ?_⟩
  obtain ⟨c', hrun, hm⟩ := hdo c later hc
  exact ⟨c', by rw [Procedure.attempt, hrun], hm⟩

theorem synchronized : Confined .text (change Cursor.synchronized) := by
  intro ts t _ ht
  obtain ⟨us, hus, -⟩ := dropped_append ht ts []
  exact ⟨⟨.ok (), dropped (ts ++ [t]), us, []⟩, hus,
    ⟨fun _ h => (by cases h), fun _ _ h => by cases h⟩,
    fun _ _ hc => ⟨_, rfl, Cursor.moves_synchronized ht hc⟩⟩

/-- A refusal is no result, and tokens are dropped behind it. -/
theorem recovering (h : Confined .text p) : Confined .text (Parse.recovering p) := by
  intro ts t hts ht
  obtain ⟨⟨r, read, left, ds⟩, rfl, hb, hdo⟩ := h ts t hts ht
  rcases r with (e | _) | a
  · obtain ⟨us, hus, -⟩ := dropped_append ht left []
    refine ⟨⟨.ok none, read ++ dropped (left ++ [t]), us, ds⟩, ?_,
      ⟨fun _ h => (by cases h), fun _ _ _ => trivial⟩, fun c later hc => ?_⟩
    · rw [List.append_assoc, ← hus]
    · obtain ⟨c', hrun, hm⟩ := hdo c later hc
      have hdrop := hm.trans (Cursor.moves_synchronized ht (hm.ahead_eq hc))
      rw [List.append_nil] at hdrop
      exact ⟨_, by rw [Parse.recovering, hrun], hdrop⟩
  · refine ⟨⟨.error .tooDeep, read, left, ds⟩, rfl,
      ⟨fun _ h => (by cases h), fun _ _ _ => trivial⟩, fun c later hc => ?_⟩
    obtain ⟨c', hrun, hm⟩ := hdo c later hc
    exact ⟨c', by rw [Parse.recovering, hrun], hm⟩
  · refine ⟨⟨.ok (some a), read, left, ds⟩, rfl,
      ⟨fun _ h => (by cases h), fun _ _ _ => trivial⟩, fun c later hc => ?_⟩
    obtain ⟨c', hrun, hm⟩ := hdo c later hc
    exact ⟨c', recovering_eq hrun, hm⟩

end Confined

end Parse

end Lox
