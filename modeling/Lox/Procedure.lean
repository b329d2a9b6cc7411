/-
# Procedures on a state

A procedure starts in a state and gives a result or halts; in both cases it
leaves a state, so nothing that was done before a halt is undone. Procedures
form a lawful monad: one that halts ends what would follow it.

Key definitions: `Lox.Procedure`, `Lox.Procedure.read`, `Lox.Procedure.change`,
`Lox.Procedure.halt`, `Lox.Procedure.attempt`.
Key theorems: `Lox.Procedure.bind_ok`, `Lox.Procedure.bind_error`,
`Lox.Procedure.exists_of_bind`.
-/

namespace Lox

/-- From a state to a result or a halt, and the state then. -/
def Procedure (σ ε α : Type) : Type := σ → Except ε α × σ

namespace Procedure

variable {σ ε α β : Type}

/-- A result at once. -/
@[always_inline, inline]
protected def pure (a : α) : Procedure σ ε α := fun s => (.ok a, s)

/-- One procedure after the other; a halt ends both. -/
@[always_inline, inline]
protected def bind (p : Procedure σ ε α) (f : α → Procedure σ ε β) : Procedure σ ε β := fun s =>
  match p s with
  | (.ok a, s') => f a s'
  | (.error e, s') => (.error e, s')

@[always_inline]
instance : Monad (Procedure σ ε) where
  pure := Procedure.pure
  bind := Procedure.bind

/-- Something that the state tells. -/
@[always_inline, inline]
def read (f : σ → α) : Procedure σ ε α := fun s => (.ok (f s), s)

/-- Change the state. -/
@[always_inline, inline]
def change (f : σ → σ) : Procedure σ ε Unit := fun s => (.ok (), f s)

/-- Halt. -/
@[always_inline, inline]
def halt (e : ε) : Procedure σ ε α := fun s => (.error e, s)

/-- A halt as a result. -/
def attempt (p : Procedure σ ε α) : Procedure σ ε (Except ε α) := fun s =>
  match p s with
  | (r, s') => (.ok r, s')

/-- The same procedure with its halt seen otherwise. -/
def mapHalt (f : ε → ε) (p : Procedure σ ε α) : Procedure σ ε α := fun s =>
  match p s with
  | (.ok a, s') => (.ok a, s')
  | (.error e, s') => (.error (f e), s')

theorem bind_ok {p : Procedure σ ε α} {f : α → Procedure σ ε β} {s s' : σ} {a : α}
    (h : p s = (.ok a, s')) : (p >>= f) s = f a s' := by
  show Procedure.bind p f s = _
  rw [Procedure.bind, h]

theorem bind_error {p : Procedure σ ε α} {f : α → Procedure σ ε β} {s s' : σ} {e : ε}
    (h : p s = (.error e, s')) : (p >>= f) s = (.error e, s') := by
  show Procedure.bind p f s = _
  rw [Procedure.bind, h]

/-- What comes to a result did so in both steps. -/
theorem exists_of_bind {p : Procedure σ ε α} {f : α → Procedure σ ε β} {s s' : σ} {b : β}
    (h : (p >>= f) s = (.ok b, s')) : ∃ a s₁, p s = (.ok a, s₁) ∧ f a s₁ = (.ok b, s') := by
  rcases hp : p s with ⟨e | a, s₁⟩
  · rw [bind_error hp] at h
    cases h
  · rw [bind_ok hp] at h
    exact ⟨a, s₁, rfl, h⟩

instance : LawfulMonad (Procedure σ ε) :=
  LawfulMonad.mk' (Procedure σ ε)
    (fun p => by
      funext s
      show Procedure.bind p (fun a => Procedure.pure (id a)) s = p s
      rw [Procedure.bind]
      split <;> simp_all [Procedure.pure])
    (fun _ _ => rfl)
    (fun p f g => by
      funext s
      show Procedure.bind (Procedure.bind p f) g s = Procedure.bind p (fun a => Procedure.bind (f a) g) s
      simp only [Procedure.bind]
      rcases p s with ⟨_ | _, _⟩ <;> rfl)

end Procedure

end Lox
