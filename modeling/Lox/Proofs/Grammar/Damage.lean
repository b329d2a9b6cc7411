/-
# What is behind a damage is read as without it

Two readings that stand before the same tokens go on in the same way, if one
of them has reported something more before (`Lox.Parse.Same`). A production
that reads some tokens without a report and then comes to another one
(`Lox.Parse.Enters`) carries the sameness of that one over to its own
(`Lox.Parse.Carries`): whatever is read in the place of a declaration, in
however many blocks, all reports behind it are the same if the tokens are.

Key definitions: `Lox.Cursor.Over`, `Lox.Parse.Same`, `Lox.Parse.Parallel`,
`Lox.Parse.Enters`, `Lox.Parse.Carries`.
Key theorems: `Lox.Parse.Same.bind`, `Lox.Parse.Parallel.of_confined`,
`Lox.Parse.Carries.trans`, `Lox.Parse.Carries.of_enters`.
-/
import Lox.Proofs.Grammar.Confinement

namespace Lox

open Procedure

/-- Two places before the same tokens; the first one has some reports more. -/
structure Cursor.Over (ds : List Diagnostic) (c c' : Cursor) : Prop where
  ended : c'.Ended
  ahead : c.ahead = c'.ahead
  diagnostics : c.diagnostics.toList = ds ++ c'.diagnostics.toList

namespace Parse

variable {α β γ δ : Type} {R : α → β → Prop} {S : γ → δ → Prop} {ds : List Diagnostic}
  {c c' : Cursor}

/-- Two outcomes that are results in some relation or the same halt, at places before the same
tokens. -/
structure Same (ds : List Diagnostic) (R : α → β → Prop) (x : Except Halt α × Cursor)
    (y : Except Halt β × Cursor) : Prop where
  result : (∃ a b, x.1 = .ok a ∧ y.1 = .ok b ∧ R a b) ∨ ∃ e, x.1 = .error e ∧ y.1 = .error e
  places : x.2.Over ds y.2

/-- From two places before the same tokens the productions have the same outcomes. -/
def Parallel (R : α → β → Prop) (p : Parse α) (q : Parse β) : Prop :=
  ∀ ds c c', Cursor.Over ds c c' → Same ds R (p c) (q c')

/-- Any two results. -/
def Any (_ : α) (_ : β) : Prop := True

theorem Same.bind {p : Parse α} {q : Parse β} {f : α → Parse γ} {g : β → Parse δ}
    (h : Same ds R (p c) (q c')) (hf : ∀ a b, R a b → Parallel S (f a) (g b)) :
    Same ds S ((p >>= f) c) ((q >>= g) c') := by
  obtain ⟨x, c₁, hp⟩ : ∃ x c₁, p c = (x, c₁) := ⟨_, _, rfl⟩
  obtain ⟨y, c₂, hq⟩ : ∃ y c₂, q c' = (y, c₂) := ⟨_, _, rfl⟩
  rw [hp, hq] at h
  rcases h.result with ⟨a, b, hx, hy, hab⟩ | ⟨e, hx, hy⟩
  · obtain rfl : x = .ok a := hx
    obtain rfl : y = .ok b := hy
    rw [bind_ok hp, bind_ok hq]
    exact hf a b hab ds c₁ c₂ h.places
  · obtain rfl : x = .error e := hx
    obtain rfl : y = .error e := hy
    rw [bind_error hp, bind_error hq]
    exact ⟨.inr ⟨e, rfl, rfl⟩, h.places⟩

namespace Parallel

variable {p : Parse α} {q : Parse β} {f : α → Parse γ} {g : β → Parse δ}

theorem bind (h : Parallel R p q) (hf : ∀ a b, R a b → Parallel S (f a) (g b)) :
    Parallel S (p >>= f) (q >>= g) :=
  fun ds c c' hc => (h ds c c' hc).bind hf

theorem pure {a : α} {b : β} (h : R a b) :
    Parallel R (Pure.pure a : Parse α) (Pure.pure b : Parse β) :=
  fun _ _ _ hc => ⟨.inl ⟨a, b, rfl, rfl, h⟩, hc⟩

/-- What is confined by the end depends on nothing but the tokens ahead. -/
theorem of_confined (h : Confined .text p) : Parallel Eq p p := by
  intro ds c c' hc
  obtain ⟨ts, t, later, hahead, hts, ht⟩ := hc.ended.split
  obtain ⟨⟨r, read, left, es⟩, rfl, -, hdo⟩ := h ts t hts ht
  obtain ⟨c₁, hrun, hm⟩ := hdo c later (hc.ahead.trans hahead)
  obtain ⟨c₂, hrun', hm'⟩ := hdo c' later hahead
  have hleft : c₁.ahead = left ++ t :: later := hm.ahead_eq (hc.ahead.trans hahead)
  have hleft' : c₂.ahead = left ++ t :: later := hm'.ahead_eq hahead
  rw [hrun, hrun']
  refine ⟨?_, ⟨t, by rw [hleft']; simp, ht⟩, hleft.trans hleft'.symm, ?_⟩
  · cases r with
    | ok a => exact .inl ⟨a, a, rfl, rfl, rfl⟩
    | error e => exact .inr ⟨e, rfl, rfl⟩
  · rw [hm.diagnostics, hm'.diagnostics, hc.diagnostics, List.append_assoc]

/-- Before what depends on nothing else, a confined production does not matter. -/
theorem bind_same {p : Parse α} {f : α → Parse γ} {g : α → Parse δ} (h : Confined .text p)
    (hf : ∀ a, Parallel S (f a) (g a)) : Parallel S (p >>= f) (p >>= g) :=
  (of_confined h).bind fun a _ hab => hab ▸ hf a

end Parallel

/-- Behind the same refusal the same tokens are dropped. -/
theorem Same.recovering {p : Parse α} {q : Parse β} (h : Same ds R (p c) (q c')) :
    Same ds Any (recovering p c) (recovering q c') := by
  obtain ⟨x, c₁, hp⟩ : ∃ x c₁, p c = (x, c₁) := ⟨_, _, rfl⟩
  obtain ⟨y, c₂, hq⟩ : ∃ y c₂, q c' = (y, c₂) := ⟨_, _, rfl⟩
  rw [hp, hq] at h
  rcases h.result with ⟨a, b, hx, hy, hab⟩ | ⟨e, hx, hy⟩
  · obtain rfl : x = .ok a := hx
    obtain rfl : y = .ok b := hy
    rw [recovering_eq hp, recovering_eq hq]
    exact ⟨.inl ⟨_, _, rfl, rfl, trivial⟩, h.places⟩
  · obtain rfl : x = .error e := hx
    obtain rfl : y = .error e := hy
    rw [Parse.recovering, Parse.recovering, hp, hq]
    cases e with
    | refused e =>
      have hsync := Parallel.of_confined Confined.synchronized ds c₁ c₂ h.places
      exact ⟨.inl ⟨_, _, rfl, rfl, trivial⟩, hsync.places⟩
    | tooDeep => exact ⟨.inr ⟨_, rfl, rfl⟩, h.places⟩

theorem Same.turn {inner : Inner} (h : Same ds Any (declaration inner c) (declaration inner c')) :
    Same ds Any (turn inner c) (turn inner c') := by
  obtain ⟨x, c₁, hp⟩ : ∃ x c₁, declaration inner c = (x, c₁) := ⟨_, _, rfl⟩
  obtain ⟨y, c₂, hq⟩ : ∃ y c₂, declaration inner c' = (y, c₂) := ⟨_, _, rfl⟩
  rw [hp, hq] at h
  rcases h.result with ⟨a, b, hx, hy, hab⟩ | ⟨e, hx, hy⟩
  · obtain rfl : x = .ok a := hx
    obtain rfl : y = .ok b := hy
    rw [turn_ok hp, turn_ok hq]
    exact ⟨.inl ⟨_, _, rfl, rfl, trivial⟩, h.places⟩
  · obtain rfl : x = .error e := hx
    obtain rfl : y = .error e := hy
    rw [turn_error hp, turn_error hq]
    have hreport : Parallel Eq
        (Parse.here >>= fun t => Parse.report t tooDeepMessage >>= fun _ => change Cursor.synchronized)
        (Parse.here >>= fun t => Parse.report t tooDeepMessage >>= fun _ => change Cursor.synchronized) :=
      .of_confined <| .look (fun t => t) fun t => (Confined.report t trivial).bind fun _ =>
        .synchronized
    exact ⟨.inl ⟨_, _, rfl, rfl, trivial⟩, (hreport ds c₁ c₂ h.places).places⟩

/-! ### Coming to a production further in -/

/-- Over some tokens, and before one of some kinds, the production reads them without a report, and
goes on with another one. -/
def Enters (bound : Nat) (starts : TokenKind → Bool) (p : Parse α) (ts : List Token) (q : Parse β)
    (f : β → Parse α) : Prop :=
  ∀ c c', c.bound ≤ bound → c.Passes ts c' → starts c'.here.kind = true → p c = (q >>= f) c'

/-- Where two readings of the one production further in are the same, so are those of the production
that comes to it over some tokens. -/
def Carries (bound : Nat) (starts : TokenKind → Bool) (p : Parse α) (ts : List Token) (q : Parse β) :
    Prop :=
  ∀ ds c c₁ d d₁, c.bound ≤ bound → d.bound ≤ bound → c.Passes ts c₁ → d.Passes ts d₁ →
    starts c₁.here.kind = true → starts d₁.here.kind = true → Same ds Any (q c₁) (q d₁) →
      Same ds Any (p c) (p d)

/-- Before any token. -/
def anyKind (_ : TokenKind) : Bool := true

namespace Carries

variable {bound : Nat} {starts starts' : TokenKind → Bool} {p : Parse α} {q : Parse β} {r : Parse γ}
  {ts us : List Token} {f : β → Parse α}

theorem of_enters (h : Enters bound starts p ts q f) (hf : ∀ a b, Parallel Any (f a) (f b)) :
    Carries bound starts p ts q := by
  intro ds c c₁ d d₁ hb hb' hc hd hs hs' hsame
  rw [h c c₁ hb hc hs, h d d₁ hb' hd hs']
  exact hsame.bind fun a b _ => hf a b

/-- What is behind the first tokens begins as the second ones do, if there are any. -/
theorem trans (h : Carries bound starts p ts q) (g : Carries bound starts' q us r)
    (hs : us = [] ∧ (∀ k, starts' k = true → starts k = true) ∨ Phrases.Begins starts us) :
    Carries bound starts' p (ts ++ us) r := by
  intro ds c c₂ d d₂ hb hb' hc hd hk hk' hsame
  obtain ⟨c₁, hc₁, hc₂⟩ := hc.split
  obtain ⟨d₁, hd₁, hd₂⟩ := hd.split
  have here {e e' : Cursor} (he : e.Passes us e') (hk : starts' e'.here.kind = true) :
      starts e.here.kind = true := by
    rcases hs with ⟨rfl, hs⟩ | ⟨u, us, rfl, hu⟩
    · rw [← he.eq_of_nil]
      exact hs _ hk
    · rw [he.here]
      exact hu
  exact h ds c c₁ d d₁ hb hb' hc₁ hd₁ (here hc₂ hk) (here hd₂ hk') (g ds c₁ c₂ d₁ d₂
    (hc₁.bound ▸ hb) (hd₁.bound ▸ hb') hc₂ hd₂ hk hk' hsame)

theorem mono (h : Carries bound starts p ts q) (hs : ∀ k, starts' k = true → starts k = true) :
    Carries bound starts' p ts q :=
  fun ds c c₁ d d₁ hb hb' hc hd hk hk' => h ds c c₁ d d₁ hb hb' hc hd (hs _ hk) (hs _ hk')

theorem recovering (h : Carries bound starts p ts q) : Carries bound starts (recovering p) ts q :=
  fun ds c c₁ d d₁ hb hb' hc hd hs hs' hsame =>
    (h ds c c₁ d d₁ hb hb' hc hd hs hs' hsame).recovering

end Carries

end Parse

end Lox
