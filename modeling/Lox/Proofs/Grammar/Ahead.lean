/-
# What lies ahead of a cursor

A production reads tokens up to the first end token, and never passes it. So
the tokens behind that one make no difference, and the number of tokens before
it says how often a loop can go on and how deep a production can be nested.

A place is reached from another one over tokens that do not end the text, with
reports of the grammar on the way (`Lox.Cursor.Reaches`). Two productions
agree at a place if the first one only reaches on from there, and the second
one does the same where the tokens behind the end are cut off
(`Lox.Parse.AgreeAt`). They may differ in the bounds of their loops and in the
steps that are left; it is also said whether nesting too deep is met, and
whether a result takes at least one token.

Key definitions: `Lox.Cursor.left`, `Lox.Cursor.cut`, `Lox.Cursor.Reaches`,
`Lox.Parse.AgreeAt`, `Lox.Parse.Agree`.
Key theorems: `Lox.Cursor.Reaches.pos_add_left`, `Lox.Parse.AgreeAt.bind`,
`Lox.Parse.AgreeAt.recovering`.
-/
import Mathlib.Data.List.TakeWhile
import Lox.Proofs.Grammar.Passage

namespace Lox

/-- The tokens through the first end token. -/
def upToEnd : List Token → List Token
  | [] => []
  | t :: ts => if t.kind = .eof then [t] else t :: upToEnd ts

/-- The tokens before the first end token. -/
def beforeEnd (ts : List Token) : List Token := ts.takeWhile fun t => t.kind ≠ .eof

theorem beforeEnd_append {ts us : List Token} (h : ∀ t ∈ ts, t.kind ≠ .eof) :
    beforeEnd (ts ++ us) = ts ++ beforeEnd us := by
  unfold beforeEnd
  exact List.takeWhile_append_of_pos (by simpa using h)

namespace Cursor

/-- An end token is ahead. -/
def Ended (c : Cursor) : Prop := ∃ t ∈ c.ahead, t.kind = .eof

/-- How many tokens are left before the first end token. -/
def left (c : Cursor) : Nat := (beforeEnd c.ahead).length

/-- Without the tokens behind the first end token. -/
def cut (c : Cursor) : Cursor :=
  { c with later := if c.atEnd then [] else upToEnd c.later }

/-- From one place on to another, over tokens that do not end the text and with reports of the
grammar. -/
structure Reaches (c c' : Cursor) : Prop where
  passes : ∃ ts, c.ahead = ts ++ c'.ahead ∧ c'.done = ts.reverse ++ c.done ∧ ∀ t ∈ ts, t.kind ≠ .eof
  reports : ∃ ds, c'.diagnostics = c.diagnostics ++ ds ∧ ∀ d ∈ ds, d.phase = .grammar

variable {c c' c'' : Cursor}

theorem Reaches.refl (c : Cursor) : c.Reaches c :=
  ⟨⟨[], rfl, rfl, by simp⟩, ⟨#[], by simp, by simp⟩⟩

theorem Reaches.trans (h : c.Reaches c') (g : c'.Reaches c'') : c.Reaches c'' := by
  obtain ⟨ts, hahead, hdone, hts⟩ := h.passes
  obtain ⟨us, hahead', hdone', hus⟩ := g.passes
  obtain ⟨ds, hds, hphase⟩ := h.reports
  obtain ⟨es, hes, hphase'⟩ := g.reports
  refine ⟨⟨ts ++ us, ?_, ?_, ?_⟩, ⟨ds ++ es, ?_, ?_⟩⟩
  · rw [hahead, hahead', List.append_assoc]
  · rw [hdone', hdone, List.reverse_append, List.append_assoc]
  · intro t ht
    rcases List.mem_append.mp ht with ht | ht
    · exact hts t ht
    · exact hus t ht
  · rw [hes, hds, Array.append_assoc]
  · intro d hd
    rcases Array.mem_append.mp hd with hd | hd
    · exact hphase d hd
    · exact hphase' d hd

/-- The tokens read and the tokens left to read are together always as many. -/
theorem Reaches.pos_add_left (h : c.Reaches c') : c'.pos + c'.left = c.pos + c.left := by
  obtain ⟨ts, hahead, hdone, hts⟩ := h.passes
  have hleft : c.left = ts.length + c'.left := by
    unfold left
    rw [hahead, beforeEnd_append hts, List.length_append]
  have hpos : c'.pos = ts.length + c.pos := by
    unfold pos
    rw [hdone, List.length_append, List.length_reverse]
  omega

theorem Reaches.pos_le (h : c.Reaches c') : c.pos ≤ c'.pos := by
  obtain ⟨ts, _, hdone, _⟩ := h.passes
  unfold pos
  rw [hdone, List.length_append]
  exact Nat.le_add_left ..

theorem Reaches.left_le (h : c.Reaches c') : c'.left ≤ c.left := by
  have hsum := h.pos_add_left
  have hpos := h.pos_le
  omega

theorem Reaches.ended (h : c.Reaches c') (hc : c.Ended) : c'.Ended := by
  obtain ⟨ts, hahead, _, hts⟩ := h.passes
  obtain ⟨t, ht, hk⟩ := hc
  rw [hahead] at ht
  rcases List.mem_append.mp ht with ht | ht
  · exact absurd hk (hts t ht)
  · exact ⟨t, ht, hk⟩

/-- Where tokens were read, there is one that was read last. -/
theorem Reaches.done_ne_nil (h : c.Reaches c') (hl : c'.left < c.left) : c'.done ≠ [] := by
  have hsum := h.pos_add_left
  intro hnil
  have hpos : c'.pos = 0 := by rw [pos, hnil, List.length_nil]
  omega

theorem atEnd_iff : c.atEnd = true ↔ c.here.kind = .eof := by
  simp [atEnd]

theorem left_of_atEnd (h : c.atEnd = true) : c.left = 0 := by
  have hk := atEnd_iff.mp h
  simp [left, beforeEnd, ahead, hk]

theorem left_pos (h : c.atEnd = false) : 0 < c.left := by
  have hk : c.here.kind ≠ .eof := by simpa [atEnd] using h
  simp [left, beforeEnd, ahead, hk]

/-! ### Single steps -/

/-- A token that does not end the text is read by one step. -/
theorem advance_of_ended (hc : c.Ended) (h : c.atEnd = false) :
    ∃ t ts, c.later = t :: ts ∧ c.advance = ⟨c.here :: c.done, t, ts, c.diagnostics⟩ := by
  have hk : c.here.kind ≠ .eof := by simpa [atEnd] using h
  obtain ⟨t, ht, hend⟩ := hc
  cases hl : c.later with
  | nil =>
    rw [ahead, hl, List.mem_singleton] at ht
    subst ht
    exact absurd hend hk
  | cons u us =>
    refine ⟨u, us, rfl, ?_⟩
    rw [advance, if_neg (by simp [h]), hl]

theorem advance_of_atEnd (h : c.atEnd = true) : c.advance = c := by
  rw [advance, if_pos h]

theorem reaches_advance (hc : c.Ended) : c.Reaches c.advance := by
  cases h : c.atEnd with
  | true =>
    rw [advance_of_atEnd h]
    exact .refl c
  | false =>
    have hk : c.here.kind ≠ .eof := by simpa [atEnd] using h
    obtain ⟨t, ts, hl, hadvance⟩ := advance_of_ended hc h
    rw [hadvance]
    refine ⟨⟨[c.here], ?_, rfl, by simpa using hk⟩, ⟨#[], by simp, by simp⟩⟩
    rw [ahead, hl]
    rfl

theorem left_advance (hc : c.Ended) (h : c.atEnd = false) : c.advance.left + 1 = c.left := by
  obtain ⟨t, ts, hl, hadvance⟩ := advance_of_ended hc h
  have hsum := (reaches_advance hc).pos_add_left
  have hpos : c.advance.pos = c.pos + 1 := by
    rw [hadvance]
    rfl
  omega

theorem reaches_report (offset : Int) (message : String) (c : Cursor) :
    c.Reaches (c.report offset message) := by
  refine ⟨⟨[], rfl, rfl, by simp⟩, ⟨#[⟨.grammar, offset, message⟩], ?_, by simp⟩⟩
  rw [report, Array.push_eq_append]

theorem reaches_skip : ∀ (fuel : Nat) {c : Cursor}, c.Ended → c.Reaches (skip fuel c)
  | 0, c, _ => .refl c
  | fuel + 1, c, hc => by
    rw [skip]
    split
    · exact .refl c
    · have hstep := reaches_advance hc
      exact hstep.trans (reaches_skip fuel (hstep.ended hc))

theorem reaches_synchronized (hc : c.Ended) : c.Reaches c.synchronized :=
  have hstep := reaches_advance hc
  hstep.trans (reaches_skip _ (hstep.ended hc))

/-- After a refusal at least one token is dropped, if there is one. -/
theorem left_synchronized (hc : c.Ended) (h : c.atEnd = false) : c.synchronized.left < c.left := by
  have hstep := reaches_advance hc
  have hskip := (reaches_skip c.later.length (hstep.ended hc)).left_le
  have hadvance := left_advance hc h
  have hle : c.synchronized.left ≤ c.advance.left := hskip
  omega

/-! ### Without the tokens behind the end -/

@[simp] theorem cut_here : c.cut.here = c.here := rfl

@[simp] theorem cut_done : c.cut.done = c.done := rfl

@[simp] theorem cut_diagnostics : c.cut.diagnostics = c.diagnostics := rfl

@[simp] theorem cut_atEnd : c.cut.atEnd = c.atEnd := rfl

theorem ahead_cut (c : Cursor) : c.cut.ahead = upToEnd c.ahead := by
  by_cases h : c.here.kind = .eof
  · simp [ahead, cut, atEnd, h, upToEnd]
  · simp [ahead, cut, atEnd, h, upToEnd]

/-- Places are the same without the tokens behind the end if they are up to it. -/
theorem cut_eq_cut (hahead : upToEnd c.ahead = upToEnd c'.ahead) (hdone : c.done = c'.done)
    (hreports : c.diagnostics = c'.diagnostics) : c.cut = c'.cut :=
  ext_ahead (by rw [ahead_cut, ahead_cut, hahead]) hdone hreports

theorem cut_previous (h : c.done ≠ []) : c.cut.previous = c.previous := by
  unfold previous
  cases hd : c.done with
  | nil => exact absurd hd h
  | cons t ts => simp [hd]

theorem cut_advance (hc : c.Ended) : c.cut.advance = c.advance.cut := by
  cases h : c.atEnd with
  | true => rw [advance_of_atEnd (by simpa using h), advance_of_atEnd h]
  | false =>
    obtain ⟨t, ts, hl, hadvance⟩ := advance_of_ended hc h
    rw [hadvance, advance, if_neg (by simp [h])]
    have hlater : c.cut.later = upToEnd (t :: ts) := by simp [cut, h, hl]
    by_cases ht : t.kind = .eof
    · rw [hlater, upToEnd, if_pos ht]
      simp [cut, atEnd, ht]
    · rw [hlater, upToEnd, if_neg ht]
      simp [cut, atEnd, ht]

theorem cut_report (offset : Int) (message : String) (c : Cursor) :
    c.cut.report offset message = (c.report offset message).cut := rfl

/-- A skip goes on to where it stops by itself, if it may go far enough. -/
theorem cut_skip : ∀ (fuel fuel' : Nat) {c : Cursor}, c.Ended → (c.atEnd = false → c.done ≠ []) →
    c.left ≤ fuel → c.left ≤ fuel' → skip fuel' c.cut = (skip fuel c).cut
  | 0, 0, _, _, _, _, _ => rfl
  | fuel, fuel', c, hc, hdone, hl, hl' => by
    cases h : c.atEnd with
    | true =>
      have hstop : ∀ n (d : Cursor), d.atEnd = true → skip n d = d := by
        intro n d hd
        cases n with
        | zero => rfl
        | succ n => rw [skip, if_pos (by simp [hd])]
      rw [hstop fuel c h, hstop fuel' c.cut (by simpa using h)]
    | false =>
      have hpos := left_pos h
      obtain ⟨n, rfl⟩ : ∃ n, fuel = n + 1 := ⟨fuel - 1, by omega⟩
      obtain ⟨n', rfl⟩ : ∃ n', fuel' = n' + 1 := ⟨fuel' - 1, by omega⟩
      have hadvance := left_advance hc h
      have hnext : c.advance.done ≠ [] := by
        obtain ⟨t, ts, _, heq⟩ := advance_of_ended hc h
        rw [heq]
        exact List.cons_ne_nil _ _
      have ih := cut_skip n n' ((reaches_advance hc).ended hc) (fun _ => hnext) (by omega) (by omega)
      rw [skip, skip, cut_atEnd, cut_here, cut_previous (hdone h), cut_advance hc, ih]
      split
      · rfl
      · rfl

theorem left_cut (c : Cursor) : c.cut.left = c.left := by
  have hcut : ∀ ts : List Token, beforeEnd (upToEnd ts) = beforeEnd ts := by
    intro ts
    induction ts with
    | nil => rfl
    | cons t ts ih =>
      unfold beforeEnd at ih ⊢
      by_cases ht : t.kind = .eof
      · simp [upToEnd, ht]
      · simp only [upToEnd, ht, if_false, List.takeWhile_cons, ne_eq, not_false_eq_true, decide_true,
          if_true, ih]
  rw [left, left, ahead_cut, hcut]

theorem left_le_later (hc : c.Ended) : c.left ≤ c.later.length := by
  obtain ⟨t, ht, hk⟩ := hc
  have hlt : (beforeEnd c.ahead).length < c.ahead.length := by
    refine Nat.lt_of_le_of_ne (List.takeWhile_prefix _).length_le fun heq => ?_
    have hall : beforeEnd c.ahead = c.ahead := (List.takeWhile_prefix _).eq_of_length heq
    have hp := List.takeWhile_eq_self_iff.mp hall t ht
    simp [hk] at hp
  have hlength : c.ahead.length = c.later.length + 1 := rfl
  unfold left
  omega

theorem cut_synchronized (hc : c.Ended) : c.cut.synchronized = c.synchronized.cut := by
  have hstep := reaches_advance hc
  have hcut : c.cut.Ended := by
    obtain ⟨t, ht, hk⟩ := hc
    have hmem : ∀ ts : List Token, t ∈ ts → ∃ u ∈ upToEnd ts, u.kind = .eof := by
      intro ts
      induction ts with
      | nil => intro h; cases h
      | cons u ts ih =>
        intro h
        by_cases hu : u.kind = .eof
        · exact ⟨u, by simp [upToEnd, hu], hu⟩
        · rcases List.mem_cons.mp h with rfl | h
          · exact absurd hk hu
          · obtain ⟨v, hv, hvk⟩ := ih h
            exact ⟨v, by simp [upToEnd, hu, hv], hvk⟩
    obtain ⟨u, hu, huk⟩ := hmem c.ahead ht
    exact ⟨u, by rw [ahead_cut]; exact hu, huk⟩
  have hleft := hstep.left_le
  have hlater := left_le_later hc
  have hlater' := left_le_later hcut
  rw [left_cut] at hlater'
  unfold synchronized
  rw [cut_advance hc]
  refine cut_skip _ _ (hstep.ended hc) (fun h => ?_) (by omega) (by omega)
  cases hend : c.atEnd with
  | true =>
    rw [advance_of_atEnd hend, hend] at h
    cases h
  | false =>
    obtain ⟨t, ts, _, heq⟩ := advance_of_ended hc hend
    rw [heq]
    exact List.cons_ne_nil _ _

end Cursor

namespace Parse

open Procedure

variable {α β : Type} {deep : Prop} {strict strict' : Bool} {c : Cursor} {k j : Nat}

/-! ### Productions that agree -/

/-- From the place the first production only reaches on, and the second one does the same without the
tokens behind the end. Nesting too deep is met only if that is allowed, and if the production is
strict, a result takes at least one token. -/
structure AgreeAt (deep : Prop) (strict : Bool) (p p' : Parse α) (c : Cursor) : Prop where
  reaches : c.Reaches (p c).2
  same : p' c.cut = ((p c).1, (p c).2.cut)
  deep : (p c).1 = .error .tooDeep → deep
  strict : strict = true → ∀ a, (p c).1 = .ok a → (p c).2.left < c.left

/-- The productions agree wherever fewer than `k` tokens are left before the end. -/
def Agree (deep : Prop) (strict : Bool) (k : Nat) (p p' : Parse α) : Prop :=
  ∀ c, c.Ended → c.left < k → AgreeAt deep strict p p' c

namespace AgreeAt

variable {p p' : Parse α} {f f' : α → Parse β}

theorem loosen (h : AgreeAt deep strict p p' c) : AgreeAt deep false p p' c :=
  { h with strict := fun hs => by cases hs }

/-- A result that takes no token. -/
theorem pure (a : α) : AgreeAt deep false (Pure.pure a : Parse α) (Pure.pure a) c :=
  { reaches := .refl c
    same := rfl
    deep := fun h => by cases h
    strict := fun h => by cases h }

/-- One production after the other. Both together take a token if one of them does. -/
theorem bind (h : AgreeAt deep strict p p' c)
    (hf : ∀ a c', p c = (.ok a, c') → c.Reaches c' → (strict = true → c'.left < c.left) →
      AgreeAt deep strict' (f a) (f' a) c') :
    AgreeAt deep (strict || strict') (p >>= f) (p' >>= f') c := by
  obtain ⟨r, c', hp⟩ : ∃ r c', p c = (r, c') := ⟨_, _, rfl⟩
  obtain ⟨hreaches, hsame, hdeep, hstrict⟩ := h
  rw [hp] at hreaches hsame hdeep hstrict
  cases r with
  | error halt =>
    have hbind : (p >>= f) c = (.error halt, c') := bind_error hp
    have hbind' : (p' >>= f') c.cut = (.error halt, c'.cut) := bind_error hsame
    refine ⟨by rw [hbind]; exact hreaches, by rw [hbind, hbind'], fun heq => hdeep ?_, fun _ a heq => ?_⟩
    · rw [hbind] at heq
      cases heq
      rfl
    · rw [hbind] at heq
      cases heq
  | ok a =>
    have hnext := hf a c' hp hreaches fun hs => hstrict hs a rfl
    have hbind : (p >>= f) c = f a c' := bind_ok hp
    have hbind' : (p' >>= f') c.cut = f' a c'.cut := bind_ok hsame
    refine ⟨?_, ?_, fun heq => hnext.deep ?_, fun hs b heq => ?_⟩
    · rw [hbind]
      exact hreaches.trans hnext.reaches
    · rw [hbind, hbind']
      exact hnext.same
    · rwa [hbind] at heq
    · rw [hbind] at heq ⊢
      have hle := hnext.reaches.left_le
      rcases Bool.or_eq_true_iff.mp hs with hs | hs
      · exact Nat.lt_of_le_of_lt hle (hstrict hs a rfl)
      · exact Nat.lt_of_lt_of_le (hnext.strict hs b heq) hreaches.left_le

/-- A production that takes a token, and what follows it behind that token. -/
theorem behind (h : AgreeAt deep true p p' c) (hc : c.Ended)
    (hf : ∀ a c', c'.Ended → c'.left < c.left → AgreeAt deep false (f a) (f' a) c') :
    AgreeAt deep strict (p >>= f) (p' >>= f') c := by
  have hbind := h.bind fun a c' _ hreaches hleft => hf a c' (hreaches.ended hc) (hleft rfl)
  exact { hbind with strict := fun _ => hbind.strict rfl }

/-- A production that may take no token, and what follows it. -/
theorem andThen (h : AgreeAt deep strict' p p' c) (hc : c.Ended)
    (hf : ∀ a c', c'.Ended → c'.left ≤ c.left → AgreeAt deep strict (f a) (f' a) c') :
    AgreeAt deep strict (p >>= f) (p' >>= f') c := by
  have hbind := h.loosen.bind fun a c' _ hreaches _ => hf a c' (hreaches.ended hc) hreaches.left_le
  rwa [Bool.false_or] at hbind

/-- What the place tells. -/
theorem read {g : Cursor → α} (hg : g c.cut = g c) (hf : AgreeAt deep strict (f (g c)) (f' (g c)) c) :
    AgreeAt deep strict (Procedure.read g >>= f) (Procedure.read g >>= f') c := by
  have hsame : (Procedure.read g >>= f') c.cut = f' (g c) c.cut := by
    show f' (g c.cut) c.cut = _
    rw [hg]
  refine ⟨hf.reaches, ?_, hf.deep, hf.strict⟩
  rw [hsame]
  exact hf.same

/-- A change of the place that only reaches on. -/
theorem change {g : Cursor → Cursor} (hreaches : c.Reaches (g c)) (hcut : g c.cut = (g c).cut) :
    AgreeAt deep false (Procedure.change g) (Procedure.change g) c where
  reaches := hreaches
  same := by
    show (Except.ok (), g c.cut) = _
    rw [hcut]
    rfl
  deep := fun h => by cases h
  strict := fun h => by cases h

theorem report (t : Token) (message : String) :
    AgreeAt deep false (Parse.report t message) (Parse.report t message) c :=
  change (Cursor.reaches_report t.offset message c) (Cursor.cut_report t.offset message c)

/-- A refusal has no result, so it may be said to be strict. -/
theorem refuse (t : Token) (message : String) :
    AgreeAt deep strict (Parse.refuse t message : Parse α) (Parse.refuse t message) c where
  reaches := Cursor.reaches_report t.offset message c
  same := rfl
  deep := fun h => by cases h
  strict := fun _ _ h => by cases h

theorem tooDeep (h : deep) :
    AgreeAt deep strict (halt .tooDeep : Parse α) (halt .tooDeep) c where
  reaches := .refl c
  same := rfl
  deep := fun _ => h
  strict := fun _ _ h => by cases h

/-- A token that does not end the text is read. -/
theorem next (hc : c.Ended) (h : c.atEnd = false) : AgreeAt deep true Parse.next Parse.next c where
  reaches := Cursor.reaches_advance hc
  same := by
    obtain ⟨t, ts, _, hadvance⟩ := Cursor.advance_of_ended hc h
    have hdone : c.advance.done ≠ [] := by
      rw [hadvance]
      exact List.cons_ne_nil _ _
    show (Except.ok c.cut.advance.previous, c.cut.advance) = (Except.ok c.advance.previous, _)
    rw [Cursor.cut_advance hc, Cursor.cut_previous hdone]
    rfl
  deep := fun h => by cases h
  strict := fun _ _ _ => by
    have hleft := Cursor.left_advance hc h
    show c.advance.left < c.left
    omega

theorem map (h : AgreeAt deep strict p p' c) (g : α → β) :
    AgreeAt deep strict (g <$> p) (g <$> p') c := by
  rw [map_eq_pure_bind, map_eq_pure_bind]
  have hbind : AgreeAt deep (strict || false) (p >>= fun a => Pure.pure (g a))
      (p' >>= fun a => Pure.pure (g a)) c := h.bind fun _ _ _ _ _ => .pure _
  rwa [Bool.or_false] at hbind

theorem discard (h : AgreeAt deep strict p p' c) : AgreeAt deep strict (discard p) (discard p') c :=
  h.map fun _ => ()

/-- The kind of the token ahead tells how to go on. -/
theorem check {kinds : List TokenKind} {f f' : Bool → Parse β}
    (hf : AgreeAt deep strict (f (kinds.contains c.here.kind)) (f' (kinds.contains c.here.kind)) c) :
    AgreeAt deep strict (Parse.check kinds >>= f) (Parse.check kinds >>= f') c :=
  read (g := fun c => kinds.contains c.here.kind) rfl hf

theorem here {f f' : Token → Parse β} (hf : AgreeAt deep strict (f c.here) (f' c.here) c) :
    AgreeAt deep strict (Parse.here >>= f) (Parse.here >>= f') c :=
  read (g := Cursor.here) rfl hf

theorem atEnd_eq_false {kinds : List TokenKind} (hk : .eof ∉ kinds)
    (h : kinds.contains c.here.kind = true) : c.atEnd = false :=
  Cursor.atEnd_eq_false fun hend => hk (by simpa [hend] using h)

/-- An optional token: behind it a token has been read, and without it nothing has happened. -/
theorem accept? {kinds : List TokenKind} {f f' : Option Token → Parse β} (hk : .eof ∉ kinds)
    (hc : c.Ended)
    (hsome : ∀ t c', c.Reaches c' → c'.left < c.left →
      AgreeAt deep false (f (some t)) (f' (some t)) c')
    (hnone : AgreeAt deep strict (f none) (f' none) c) :
    AgreeAt deep strict (Parse.accept? kinds >>= f) (Parse.accept? kinds >>= f') c := by
  unfold Parse.accept?
  rw [bind_assoc, bind_assoc]
  refine check ?_
  cases h : kinds.contains c.here.kind with
  | false => exact hnone
  | true =>
    have hread : AgreeAt deep true Parse.next Parse.next c := next hc (atEnd_eq_false hk h)
    have hbind := hread.bind fun t c' _ hreaches hleft => hsome t c' hreaches (hleft rfl)
    simp only [if_true, bind_assoc, pure_bind]
    exact { hbind with strict := fun _ => hbind.strict rfl }

theorem accept {kinds : List TokenKind} {f f' : Bool → Parse β} (hk : .eof ∉ kinds) (hc : c.Ended)
    (htrue : ∀ c', c.Reaches c' → c'.left < c.left → AgreeAt deep false (f true) (f' true) c')
    (hfalse : AgreeAt deep strict (f false) (f' false) c) :
    AgreeAt deep strict (Parse.accept kinds >>= f) (Parse.accept kinds >>= f') c := by
  unfold Parse.accept
  simp only [bind_assoc, pure_bind]
  exact accept? hk hc (fun _ c' hreaches hleft => htrue c' hreaches hleft) hfalse

theorem expect {kind : TokenKind} (hk : kind ≠ .eof) (hc : c.Ended) (message : String) :
    AgreeAt deep true (Parse.expect kind message) (Parse.expect kind message) c := by
  unfold Parse.expect
  refine check ?_
  cases h : [kind].contains c.here.kind with
  | false => exact here (refuse c.here message)
  | true => exact next hc (atEnd_eq_false (by simpa using hk.symm) h)

/-- After a refusal at least one token is dropped too, if there is one. -/
theorem recovering (hc : c.Ended) (h : AgreeAt deep true p p' c) :
    AgreeAt deep (!c.atEnd) (Parse.recovering p) (Parse.recovering p') c := by
  obtain ⟨r, c', hp⟩ : ∃ r c', p c = (r, c') := ⟨_, _, rfl⟩
  obtain ⟨hreaches, hsame, hdeep, hstrict⟩ := h
  rw [hp] at hreaches hsame hdeep hstrict
  have hc' := hreaches.ended hc
  cases r with
  | ok a =>
    have heq : Parse.recovering p c = (.ok (some a), c') := by rw [Parse.recovering, hp]
    refine ⟨by rwa [heq], ?_, fun hd => ?_, fun _ b _ => ?_⟩
    · rw [heq, Parse.recovering, hsame]
    · rw [heq] at hd
      cases hd
    · rw [heq]
      exact hstrict rfl a rfl
  | error halt =>
    cases halt with
    | refused e =>
      have heq : Parse.recovering p c = (.ok none, c'.synchronized) := by rw [Parse.recovering, hp]
      refine ⟨?_, ?_, fun hd => ?_, fun hs b _ => ?_⟩
      · rw [heq]
        exact hreaches.trans (Cursor.reaches_synchronized hc')
      · rw [heq, Parse.recovering, hsame]
        show (_, c'.cut.synchronized) = _
        rw [Cursor.cut_synchronized hc']
      · rw [heq] at hd
        cases hd
      · rw [heq]
        have hpos : 0 < c.left := Cursor.left_pos (by simpa using hs)
        have hle : c'.left ≤ c.left := hreaches.left_le
        have hdrop : c'.synchronized.left ≤ c'.left := (Cursor.reaches_synchronized hc').left_le
        show c'.synchronized.left < c.left
        cases hend : c'.atEnd with
        | true =>
          have hzero := Cursor.left_of_atEnd hend
          omega
        | false =>
          have hlt := Cursor.left_synchronized hc' hend
          exact Nat.lt_of_lt_of_le hlt hle
    | tooDeep =>
      have heq : Parse.recovering p c = (.error .tooDeep, c') := by rw [Parse.recovering, hp]
      refine ⟨by rwa [heq], ?_, fun _ => hdeep rfl, fun _ b hb => ?_⟩
      · rw [heq, Parse.recovering, hsame]
      · rw [heq] at hb
        cases hb

end AgreeAt

end Parse

/-! ### Productions further in that agree -/

/-- What is further in agrees wherever fewer than `k` tokens are left, and a loop may go on as often
as that. A declaration may be nothing, but only at the end it is so without a token. -/
structure Inner.Agree (deep : Prop) (k : Nat) (inner inner' : Inner) : Prop where
  bound : k ≤ inner.bound
  bound' : k ≤ inner'.bound
  expr : Parse.Agree deep true k inner.expr inner'.expr
  middle : Parse.Agree deep true k inner.middle inner'.middle
  value : Parse.Agree deep true k inner.value inner'.value
  ternary : Parse.Agree deep true k inner.ternary inner'.ternary
  unary : Parse.Agree deep true k inner.unary inner'.unary
  statement : Parse.Agree deep true k inner.statement inner'.statement
  declaration : ∀ c, c.Ended → c.left < k →
    Parse.AgreeAt deep (!c.atEnd) inner.declaration inner'.declaration c

end Lox
