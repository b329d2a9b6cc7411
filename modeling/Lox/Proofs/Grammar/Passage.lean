/-
# What a production reads

A production that stops without a report has read some tokens and left the
rest alone (`Lox.Cursor.Passes`). Two things are said of a production and a
relation between tokens and results. It is sound (`Lox.Parse.Sound`): started
anywhere, it reads tokens that are related to its result, or it reports;
and a refusal is always reported. It is complete (`Lox.Parse.Complete`): where
related tokens are ahead, and the token behind them cannot go on with them,
it reads just these without a report. Soundness is put together by
`Lox.Parse.Sound.bind`, completeness by running the steps one after the other.

Some reports are made on the way and no token is refused for them
(`Lox.Cursor.Moves`). Where the relation says which, a production follows it
(`Lox.Parse.Follows`), and completeness is the case without any.

Key definitions: `Lox.Cursor.Passes`, `Lox.Cursor.Moves`, `Lox.Parse.Sound`,
`Lox.Parse.Complete`, `Lox.Parse.Follows`.
Key theorems: `Lox.Parse.Sound.bind`, `Lox.Parse.Sound.mono`, `Lox.Cursor.Passes.split`,
`Lox.Cursor.Moves.split`, `Lox.Parse.Follows.complete`.
-/
import Lox.Grammar.Program

namespace Lox

namespace Cursor

/-- The token that is read next and those behind it. -/
def ahead (c : Cursor) : List Token := c.here :: c.later

/-- The last token is an end token. -/
def Closed (c : Cursor) : Prop := ∃ ts e, c.ahead = ts ++ [e] ∧ e.kind = .eof

/-- The last token is an end token, and there are fewer tokens than the bound. -/
structure Fits (bound : Nat) (c : Cursor) : Prop where
  closed : c.Closed
  bound_le : c.bound ≤ bound

/-- The number of reports. -/
def reports (c : Cursor) : Nat := c.diagnostics.size

/-- From one place to another over some tokens, without a report. -/
structure Passes (c : Cursor) (ts : List Token) (c' : Cursor) : Prop where
  ahead : c.ahead = ts ++ c'.ahead
  done : c'.done = ts.reverse ++ c.done
  diagnostics : c'.diagnostics = c.diagnostics

variable {c c' c'' : Cursor} {ts us : List Token} {t : Token}

theorem Passes.refl (c : Cursor) : c.Passes [] c := ⟨rfl, rfl, rfl⟩

theorem Passes.trans (h : c.Passes ts c') (g : c'.Passes us c'') : c.Passes (ts ++ us) c'' where
  ahead := by rw [h.ahead, g.ahead, List.append_assoc]
  done := by rw [g.done, h.done, List.reverse_append, List.append_assoc]
  diagnostics := g.diagnostics.trans h.diagnostics

/-- A way over more tokens has a place behind the first of them. -/
theorem Passes.split (h : c.Passes (ts ++ us) c'') : ∃ c', c.Passes ts c' ∧ c'.Passes us c'' := by
  obtain ⟨t, later, hl⟩ : ∃ t later, us ++ c''.ahead = t :: later := by
    cases us with
    | nil => exact ⟨_, _, rfl⟩
    | cons u us => exact ⟨_, _, rfl⟩
  refine ⟨⟨ts.reverse ++ c.done, t, later, c.diagnostics⟩, ⟨?_, rfl, rfl⟩, ⟨?_, ?_, h.diagnostics⟩⟩
  · rw [h.ahead, List.append_assoc, hl]
    rfl
  · exact hl.symm
  · rw [h.done, List.reverse_append, List.append_assoc]

theorem Passes.uncons (h : c.Passes (t :: us) c'') :
    ∃ c', c.Passes [t] c' ∧ c'.Passes us c'' :=
  Passes.split h

theorem ext_ahead {c c' : Cursor} (ha : c.ahead = c'.ahead) (hd : c.done = c'.done)
    (hr : c.diagnostics = c'.diagnostics) : c = c' := by
  obtain ⟨done, here, later, ds⟩ := c
  obtain ⟨done', here', later', ds'⟩ := c'
  simp only [ahead, List.cons.injEq] at ha
  simp_all

theorem Passes.unique (h : c.Passes ts c') (g : c.Passes ts c'') : c' = c'' :=
  ext_ahead (List.append_cancel_left (h.ahead.symm.trans g.ahead)) (h.done.trans g.done.symm)
    (h.diagnostics.trans g.diagnostics.symm)

theorem Passes.eq_of_nil (h : c.Passes [] c') : c' = c := h.unique (.refl c)

theorem Passes.closed (h : c.Passes ts c') (hc : c.Closed) : c'.Closed := by
  obtain ⟨us, e, ha, he⟩ := hc
  rw [h.ahead] at ha
  rcases List.append_eq_append_iff.mp ha with ⟨vs, -, hv⟩ | ⟨vs, -, hv⟩
  · exact ⟨vs, e, hv, he⟩
  · have : vs = [] := by
      cases vs with
      | nil => rfl
      | cons v vs => simp [Cursor.ahead] at hv
    subst this
    exact ⟨[], e, hv.symm, he⟩

theorem Passes.reports (h : c.Passes ts c') : c'.reports = c.reports := by
  rw [Cursor.reports, Cursor.reports, h.diagnostics]

theorem Passes.here (h : c.Passes (t :: ts) c') : c.here = t := (List.cons.inj h.ahead).1

theorem Passes.previous (h : c.Passes [t] c') : c'.previous = t := by
  rw [Cursor.previous, h.done]
  rfl

theorem Passes.bound (h : c.Passes ts c') : c'.bound = c.bound := by
  have ha := congrArg List.length h.ahead
  have hd := congrArg List.length h.done
  simp only [Cursor.ahead, List.length_cons, List.length_append, List.length_reverse] at ha hd
  unfold Cursor.bound
  omega

theorem Passes.fits {bound : Nat} (h : c.Passes ts c') (hc : c.Fits bound) : c'.Fits bound :=
  ⟨h.closed hc.closed, h.bound ▸ hc.bound_le⟩

theorem ahead_length_le {bound : Nat} (hc : c.Fits bound) : c.ahead.length ≤ bound := by
  have := hc.bound_le
  unfold Cursor.bound at this
  simp only [ahead, List.length_cons]
  omega

theorem Passes.length_le (h : c.Passes ts c') : ts.length < c.bound := by
  have ha := congrArg List.length h.ahead
  simp only [Cursor.ahead, List.length_cons, List.length_append] at ha
  unfold Cursor.bound
  omega

theorem atEnd_eq_false (h : c.here.kind ≠ .eof) : c.atEnd = false := by
  simp [atEnd, h]

/-- A token that does not end the text is passed by one step. -/
theorem passes_advance (hc : c.Closed) (h : c.here.kind ≠ .eof) : c.Passes [c.here] c.advance := by
  obtain ⟨done, here, later, ds⟩ := c
  obtain ⟨ts, e, ha, he⟩ := hc
  cases later with
  | nil =>
    obtain ⟨rfl, rfl⟩ : ts = [] ∧ e = here := by
      cases ts with
      | nil => simp_all [ahead]
      | cons t ts => simp [ahead] at ha
    exact absurd he h
  | cons t later =>
    simp only [advance, atEnd_eq_false (c := ⟨done, here, t :: later, ds⟩) h]
    exact ⟨rfl, rfl, rfl⟩

theorem Passes.advance (h : c.Passes [t] c') (ht : t.kind ≠ .eof) : c.advance = c' := by
  obtain ⟨done, here, later, ds⟩ := c
  obtain rfl : here = t := h.here
  obtain rfl : later = c'.ahead := (List.cons.inj h.ahead).2
  simp only [Cursor.advance, atEnd_eq_false (c := ⟨done, here, c'.ahead, ds⟩) ht]
  exact ext_ahead rfl h.done.symm h.diagnostics.symm

theorem reports_report (offset : Int) (message : String) (c : Cursor) :
    (c.report offset message).reports = c.reports + 1 := by
  simp [reports, report]

theorem exists_passes_advance (hc : c.Closed) : ∃ ts, c.Passes ts c.advance := by
  by_cases h : c.here.kind = .eof
  · rw [advance, atEnd, if_pos (by simpa using h)]
    exact ⟨[], .refl c⟩
  · exact ⟨_, passes_advance hc h⟩

theorem exists_passes_skip : ∀ (fuel : Nat) (c : Cursor), c.Closed → ∃ ts, c.Passes ts (skip fuel c)
  | 0, c, _ => ⟨[], .refl c⟩
  | fuel + 1, c, hc => by
    rw [skip]
    split
    · exact ⟨[], .refl c⟩
    · obtain ⟨ts, h⟩ := exists_passes_advance hc
      obtain ⟨us, g⟩ := exists_passes_skip fuel c.advance (h.closed hc)
      exact ⟨ts ++ us, h.trans g⟩

/-- After a refusal tokens are passed, and nothing is reported. -/
theorem exists_passes_synchronized (hc : c.Closed) : ∃ ts, c.Passes ts c.synchronized := by
  obtain ⟨ts, h⟩ := exists_passes_advance hc
  obtain ⟨us, g⟩ := exists_passes_skip c.later.length c.advance (h.closed hc)
  exact ⟨ts ++ us, h.trans g⟩

/-! ### Moving with reports -/

/-- From one place to another over some tokens, with some reports. -/
structure Moves (c : Cursor) (ts : List Token) (ds : List Diagnostic) (c' : Cursor) : Prop where
  ahead : c.ahead = ts ++ c'.ahead
  done : c'.done = ts.reverse ++ c.done
  diagnostics : c'.diagnostics.toList = c.diagnostics.toList ++ ds

section Moves

variable {ds es : List Diagnostic}

theorem Moves.refl (c : Cursor) : c.Moves [] [] c := ⟨rfl, rfl, by simp⟩

theorem Moves.trans (h : c.Moves ts ds c') (g : c'.Moves us es c'') :
    c.Moves (ts ++ us) (ds ++ es) c'' where
  ahead := by rw [h.ahead, g.ahead, List.append_assoc]
  done := by rw [g.done, h.done, List.reverse_append, List.append_assoc]
  diagnostics := by rw [g.diagnostics, h.diagnostics, List.append_assoc]

theorem Passes.moves (h : c.Passes ts c') : c.Moves ts [] c' :=
  ⟨h.ahead, h.done, by rw [h.diagnostics, List.append_nil]⟩

theorem Moves.passes (h : c.Moves ts [] c') : c.Passes ts c' :=
  ⟨h.ahead, h.done, Array.toList_inj.mp (by rw [h.diagnostics, List.append_nil])⟩

theorem moves_report (offset : Int) (message : String) (c : Cursor) :
    c.Moves [] [⟨.grammar, offset, message⟩] (c.report offset message) :=
  ⟨rfl, rfl, by simp [report]⟩

/-- A way over more tokens with more reports has a place behind the first of both. -/
theorem Moves.split (h : c.Moves (ts ++ us) (ds ++ es) c'') :
    ∃ c', c.Moves ts ds c' ∧ c'.Moves us es c'' := by
  -- only the tokens and the places matter to the one way, only the reports to the other
  have hpass : c.Passes (ts ++ us) { c'' with diagnostics := c.diagnostics } :=
    ⟨h.ahead, h.done, rfl⟩
  obtain ⟨c', h₁, h₂⟩ := hpass.split
  refine ⟨{ c' with diagnostics := c.diagnostics ++ ds.toArray }, ⟨h₁.ahead, h₁.done, by simp⟩,
    ⟨h₂.ahead, h₂.done, ?_⟩⟩
  rw [h.diagnostics, Array.toList_append, List.append_assoc]

/-- Behind the first token, before anything is reported. -/
theorem Moves.uncons (h : c.Moves (t :: us) es c'') : ∃ c', c.Passes [t] c' ∧ c'.Moves us es c'' := by
  obtain ⟨c', h₁, h₂⟩ := Moves.split (show c.Moves ([t] ++ us) ([] ++ es) c'' from h)
  exact ⟨c', h₁.passes, h₂⟩

/-- Before the last tokens, behind all that is reported. -/
theorem Moves.unsnoc (h : c.Moves (ts ++ us) ds c'') : ∃ c', c.Moves ts ds c' ∧ c'.Passes us c'' := by
  rw [← List.append_nil ds] at h
  obtain ⟨c', h₁, h₂⟩ := h.split
  exact ⟨c', h₁, h₂.passes⟩

/-- Where something is reported, nothing was read yet. -/
theorem Moves.report {offset : Int} {message : String}
    (h : c.Moves ts (⟨.grammar, offset, message⟩ :: ds) c') : (c.report offset message).Moves ts ds c' :=
  ⟨h.ahead, h.done, by rw [h.diagnostics]; simp [Cursor.report]⟩

theorem Moves.eq_of_nil (h : c.Moves [] [] c') : c' = c := h.passes.eq_of_nil

theorem Moves.here (h : c.Moves (t :: ts) ds c') : c.here = t := (List.cons.inj h.ahead).1

theorem Moves.bound (h : c.Moves ts ds c') : c'.bound = c.bound := by
  have hpass : c.Passes ts { c' with diagnostics := c.diagnostics } := ⟨h.ahead, h.done, rfl⟩
  exact hpass.bound

theorem Moves.length_le (h : c.Moves ts ds c') : ts.length < c.bound := by
  have hpass : c.Passes ts { c' with diagnostics := c.diagnostics } := ⟨h.ahead, h.done, rfl⟩
  exact hpass.length_le

end Moves

end Cursor

namespace Parse

open Procedure

variable {α β : Type}

/-! ### Soundness -/

/-- How a production may end that was started at `c`: with a result for the tokens it passed and no
report, with more reports, or too deep. -/
inductive Read (bound : Nat) (G : Cursor → List Token → α → Prop) (c : Cursor) :
    Except Halt α × Cursor → Prop
  | silent {a : α} {ts : List Token} {c' : Cursor} : c.Passes ts c' → G c ts a →
      Read bound G c (.ok a, c')
  | reported {r : Except Halt α} {c' : Cursor} : c'.Fits bound → c.reports < c'.reports →
      Read bound G c (r, c')
  | tooDeep {c' : Cursor} : c'.Fits bound → c.reports ≤ c'.reports →
      Read bound G c (.error .tooDeep, c')

/-- Started anywhere, the production reads tokens that are related to its result, or it reports. The
relation may depend on where it starts. -/
def Sound (bound : Nat) (p : Parse α) (G : Cursor → List Token → α → Prop) : Prop :=
  ∀ c, c.Fits bound → Read bound G c (p c)

variable {bound : Nat} {p : Parse α} {f : α → Parse β} {G H : Cursor → List Token → α → Prop}
  {K : Cursor → List Token → β → Prop}

theorem Sound.mono (h : Sound bound p G) (hG : ∀ c ts a, G c ts a → H c ts a) : Sound bound p H := by
  intro c hc
  have hr := h c hc
  revert hr
  generalize p c = r
  intro hr
  cases hr with
  | silent hp ha => exact .silent hp (hG _ _ _ ha)
  | reported hc' hn => exact .reported hc' hn
  | tooDeep hc' hn => exact .tooDeep hc' hn

/-- A loop that is followed as often as there are tokens is followed to its end. -/
theorem Sound.enough (h : Sound bound p fun c ts a => c.ahead.length ≤ bound → G c ts a) :
    Sound bound p G := by
  intro c hc
  have hr := h c hc
  revert hr
  generalize p c = r
  intro hr
  cases hr with
  | silent hp ha => exact .silent hp (ha (Cursor.ahead_length_le hc))
  | reported hc' hn => exact .reported hc' hn
  | tooDeep hc' hn => exact .tooDeep hc' hn

theorem Sound.pure {a : α} (h : ∀ c, G c [] a) : Sound bound (Pure.pure a) G :=
  fun c _ => .silent (.refl c) (h c)

/-- What follows a production is to be sound for what its tokens still lack. -/
theorem Sound.bind (hp : Sound bound p G) (hf : ∀ a, Sound bound (f a) fun c' us b =>
    ∀ c ts, c.Passes ts c' → G c ts a → K c (ts ++ us) b) : Sound bound (p >>= f) K := by
  intro c hc
  have hr := hp c hc
  obtain ⟨r, c', hpc⟩ : ∃ r c', p c = (r, c') := ⟨_, _, rfl⟩
  rw [hpc] at hr
  cases r with
  | error halt =>
    rw [bind_error hpc]
    cases hr with
    | reported hc' hn => exact .reported hc' hn
    | tooDeep hc' hn => exact .tooDeep hc' hn
  | ok a =>
    rw [bind_ok hpc]
    cases hr with
    | silent hpass ha =>
      have hs := hf a c' (hpass.fits hc)
      revert hs
      generalize f a c' = s
      intro hs
      cases hs with
      | silent hpass' hb => exact .silent (hpass.trans hpass') (hb _ _ hpass ha)
      | reported hc'' hn => exact .reported hc'' (hpass.reports ▸ hn)
      | tooDeep hc'' hn => exact .tooDeep hc'' (hpass.reports ▸ hn)
    | reported hc' hn =>
      have hs := hf a c' hc'
      revert hs
      generalize f a c' = s
      intro hs
      cases hs with
      | silent hpass' _ => exact .reported (hpass'.fits hc') (hpass'.reports ▸ hn)
      | reported hc'' hn' => exact .reported hc'' (Nat.lt_trans hn hn')
      | tooDeep hc'' hn' => exact .reported hc'' (Nat.lt_of_lt_of_le hn hn')

theorem Sound.map {g : α → β} (hp : Sound bound p G) (h : ∀ c ts a, G c ts a → K c ts (g a)) :
    Sound bound (g <$> p) K := by
  rw [map_eq_pure_bind]
  refine hp.bind fun a => .pure fun c' c ts _ ha => ?_
  rw [List.append_nil]
  exact h c ts a ha

theorem Sound.discard {K : Cursor → List Token → Unit → Prop} (hp : Sound bound p G)
    (h : ∀ c ts a, G c ts a → K c ts ()) : Sound bound (discard p) K :=
  hp.map (g := fun _ => ()) h

theorem sound_read (f : Cursor → α) : Sound bound (read f) fun c ts a => ts = [] ∧ a = f c :=
  fun c _ => .silent (.refl c) ⟨rfl, rfl⟩

theorem sound_halt_tooDeep : Sound bound (halt .tooDeep : Parse α) G :=
  fun _ hc => .tooDeep hc (Nat.le_refl _)

theorem sound_report (t : Token) (message : String) : Sound bound (report t message) fun _ _ _ => False :=
  fun c hc => by
    refine .reported ?_ ?_
    · exact ⟨hc.closed, hc.bound_le⟩
    · exact (Cursor.reports_report t.offset message c).symm ▸ Nat.lt_succ_self _

theorem sound_refuse (t : Token) (message : String) : Sound bound (refuse t message : Parse α) G :=
  fun c hc => by
    refine .reported ?_ ?_
    · exact ⟨hc.closed, hc.bound_le⟩
    · exact (Cursor.reports_report t.offset message c).symm ▸ Nat.lt_succ_self _

theorem sound_next : Sound bound next fun c ts t => c.here.kind ≠ .eof → ts = [t] ∧ t = c.here := by
  intro c hc
  by_cases h : c.here.kind = .eof
  · have ha : c.advance = c := by rw [Cursor.advance, Cursor.atEnd, if_pos (by simpa using h)]
    show Read bound _ c (.ok c.advance.previous, c.advance)
    rw [ha]
    exact .silent (.refl c) fun hn => absurd h hn
  · have hp := Cursor.passes_advance hc.closed h
    exact .silent hp fun _ => ⟨by rw [hp.previous], hp.previous⟩

theorem sound_take : Sound bound (discard next) fun c ts _ => c.here.kind ≠ .eof → ts = [c.here] :=
  sound_next.discard fun _ _ _ h hn => by rw [(h hn).1, (h hn).2]

/-- An optional token: one of the kinds, or nothing. -/
theorem sound_accept? {kinds : List TokenKind} (hk : .eof ∉ kinds) :
    Sound bound (accept? kinds) fun _ ts o =>
      (∃ t, o = some t ∧ ts = [t] ∧ t.kind ∈ kinds) ∨ (o = none ∧ ts = []) := by
  refine (sound_read _).bind fun b => ?_
  cases b with
  | false =>
    refine .pure fun c' c ts _ ht => ?_
    exact .inr ⟨rfl, by simp [ht.1]⟩
  | true =>
    refine sound_next.bind fun t => .pure fun _ c' us _ ht c ts hts hb => ?_
    obtain ⟨rfl, hb⟩ := hb
    obtain rfl := hts.eq_of_nil
    have hm : c'.here.kind ∈ kinds := by simpa using hb.symm
    obtain ⟨rfl, rfl⟩ := ht fun h => hk (h ▸ hm)
    exact .inl ⟨_, rfl, rfl, hm⟩

theorem sound_accept {kinds : List TokenKind} (hk : .eof ∉ kinds) :
    Sound bound (accept kinds) fun _ ts b =>
      (b = true ∧ ∃ t, ts = [t] ∧ t.kind ∈ kinds) ∨ (b = false ∧ ts = []) := by
  refine (sound_accept? hk).bind fun o => .pure fun c' c ts _ ho => ?_
  rcases ho with ⟨t, rfl, rfl, ht⟩ | ⟨rfl, rfl⟩
  · exact .inl ⟨rfl, t, rfl, ht⟩
  · exact .inr ⟨rfl, rfl⟩

theorem sound_expect {kind : TokenKind} (hk : kind ≠ .eof) (message : String) :
    Sound bound (expect kind message) fun _ ts t => ts = [t] ∧ t.kind = kind := by
  refine (sound_read _).bind fun b => ?_
  cases b with
  | false => exact (sound_read _).bind fun t => sound_refuse t message
  | true =>
    refine sound_next.mono fun c' us t ht c ts hts hb => ?_
    obtain ⟨rfl, hb⟩ := hb
    obtain rfl := hts.eq_of_nil
    have hm : c'.here.kind = kind := by simpa using hb.symm
    obtain ⟨rfl, rfl⟩ := ht fun h => hk (hm ▸ h)
    exact ⟨rfl, hm⟩

theorem sound_skip {kind : TokenKind} (hk : kind ≠ .eof) (message : String) :
    Sound bound (discard (expect kind message)) fun _ ts _ => ∃ t, ts = [t] ∧ t.kind = kind :=
  (sound_expect hk message).discard fun _ _ t h => ⟨t, h⟩

/-- A refusal was reported, so nothing is claimed of what comes of it. -/
theorem Sound.recovering (hp : Sound bound p G) :
    Sound bound (recovering p) fun c ts o => ∃ a, o = some a ∧ G c ts a := by
  intro c hc
  have hr := hp c hc
  unfold Parse.recovering
  obtain ⟨r, c', hpc⟩ : ∃ r c', p c = (r, c') := ⟨_, _, rfl⟩
  rw [hpc] at hr ⊢
  cases hr with
  | silent hpass ha => exact .silent hpass ⟨_, rfl, ha⟩
  | tooDeep hc' hn => exact .tooDeep hc' hn
  | reported hc' hn =>
    rcases r with (_ | _) | a
    · obtain ⟨ts, hs⟩ := Cursor.exists_passes_synchronized hc'.closed
      exact .reported (hs.fits hc') (hs.reports ▸ hn)
    · exact .reported hc' hn
    · exact .reported hc' hn

theorem sound_synchronized : Sound bound (change Cursor.synchronized) fun _ _ _ => True :=
  fun _ hc => by
    obtain ⟨ts, h⟩ := Cursor.exists_passes_synchronized hc.closed
    exact .silent h trivial

/-- A halt is met by a report. -/
theorem Sound.attempt {k : Except Halt α → Parse β} (hp : Sound bound p G)
    (hf : ∀ a, Sound bound (k (.ok a)) fun c' us b =>
      ∀ c ts, c.Passes ts c' → G c ts a → K c (ts ++ us) b)
    (hk : ∀ h, Sound bound (k (.error h)) fun _ _ _ => False) :
    Sound bound (attempt p >>= k) K := by
  intro c hc
  have hr := hp c hc
  obtain ⟨r, c', hpc⟩ : ∃ r c', p c = (r, c') := ⟨_, _, rfl⟩
  have ha : Procedure.attempt p c = (.ok r, c') := by rw [Procedure.attempt, hpc]
  have hb := (hp.bind hf) c hc
  rw [hpc] at hr
  rw [bind_ok ha]
  cases r with
  | ok a =>
    rw [bind_ok hpc] at hb
    exact hb
  | error h =>
    have hle : c'.Fits bound ∧ c.reports ≤ c'.reports := by
      cases hr with
      | reported hc' hn => exact ⟨hc', Nat.le_of_lt hn⟩
      | tooDeep hc' hn => exact ⟨hc', hn⟩
    have hs := hk h c' hle.1
    revert hs
    generalize k (.error h) c' = s
    intro hs
    cases hs with
    | silent _ hf => exact hf.elim
    | reported hc'' hn => exact .reported hc'' (Nat.lt_of_le_of_lt hle.2 hn)
    | tooDeep hc'' hn => exact .tooDeep hc'' (Nat.le_trans hle.2 hn)

/-! ### Completeness -/

/-- Where related tokens are ahead of the rest, and the rest does not begin with a token that goes on
with them, the production passes them without a report. Loops are followed to the bound. -/
def Complete (bound : Nat) (p : Parse α) (G : List Token → α → Prop)
    (goesOn : TokenKind → Bool) : Prop :=
  ∀ c ts a c', c.bound ≤ bound → c.Passes ts c' → G ts a → goesOn c'.here.kind = false →
    p c = (.ok a, c')

/-- The same with reports: where tokens are ahead that are related to a result and to reports, the
production passes them and makes these reports. -/
def Follows (bound : Nat) (p : Parse α) (G : List Token → List Diagnostic → α → Prop)
    (goesOn : TokenKind → Bool) : Prop :=
  ∀ c ts ds a c', c.bound ≤ bound → c.Moves ts ds c' → G ts ds a → goesOn c'.here.kind = false →
    p c = (.ok a, c')

theorem Follows.complete {p : Parse α} {G : List Token → List Diagnostic → α → Prop}
    {K : List Token → α → Prop} {goesOn : TokenKind → Bool} (h : Follows bound p G goesOn)
    (hK : ∀ ts a, K ts a → G ts [] a) : Complete bound p K goesOn :=
  fun c ts a c' hb hp ha => h c ts [] a c' hb hp.moves (hK ts a ha)

/-- What is read without a report makes no reports. -/
theorem Complete.follows {p : Parse α} {K : List Token → α → Prop} {goesOn : TokenKind → Bool}
    (h : Complete bound p K goesOn) : Follows bound p (fun ts ds a => ds = [] ∧ K ts a) goesOn := by
  rintro c ts _ a c' hb hp ⟨rfl, ha⟩
  exact h c ts a c' hb hp.passes ha

variable {c c' : Cursor} {t : Token} {kinds : List TokenKind}

theorem next_eq (h : c.Passes [t] c') (ht : t.kind ≠ .eof) : next c = (.ok t, c') := by
  show (Except.ok c.advance.previous, c.advance) = _
  rw [h.advance ht, h.previous]

theorem check_eq (kinds : List TokenKind) (c : Cursor) :
    check kinds c = (.ok (kinds.contains c.here.kind), c) := rfl

theorem accept?_some (h : c.Passes [t] c') (ht : t.kind ∈ kinds) (hk : .eof ∉ kinds) :
    accept? kinds c = (.ok (some t), c') := by
  unfold accept?
  rw [bind_ok (check_eq kinds c), h.here, if_pos (by simpa using ht),
    bind_ok (next_eq h fun he => hk (he ▸ ht))]
  rfl

theorem accept?_none (h : c.here.kind ∉ kinds) : accept? kinds c = (.ok none, c) := by
  unfold accept?
  rw [bind_ok (check_eq kinds c), if_neg (by simpa using h)]
  rfl

theorem accept_true (h : c.Passes [t] c') (ht : t.kind ∈ kinds) (hk : .eof ∉ kinds) :
    accept kinds c = (.ok true, c') := by
  unfold accept
  rw [bind_ok (accept?_some h ht hk)]
  rfl

theorem accept_false (h : c.here.kind ∉ kinds) : accept kinds c = (.ok false, c) := by
  unfold accept
  rw [bind_ok (accept?_none h)]
  rfl

theorem expect_eq {kind : TokenKind} (h : c.Passes [t] c') (ht : t.kind = kind) (hk : kind ≠ .eof)
    (message : String) : expect kind message c = (.ok t, c') := by
  unfold expect
  rw [bind_ok (check_eq [kind] c), h.here, if_pos (by simp [ht])]
  exact next_eq h (ht ▸ hk)

theorem discard_eq {p : Parse α} {a : α} (h : p c = (.ok a, c')) : discard p c = (.ok (), c') := by
  show (Functor.mapConst () p) c = _
  rw [map_const, Function.comp, map_eq_pure_bind, bind_ok h]
  rfl

theorem map_eq {p : Parse α} {g : α → β} {a : α} (h : p c = (.ok a, c')) :
    (g <$> p) c = (.ok (g a), c') := by
  rw [map_eq_pure_bind, bind_ok h]
  rfl

end Parse

end Lox
