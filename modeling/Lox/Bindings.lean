/-
# Names bound to things

A finite map from names, in the order in which they were first bound. Binding
a name again keeps its place. What is seen of the bindings is `get?`, and
binding a name changes it at that name only.

Key definitions: `Lox.Bindings`, `Lox.Bindings.get?`, `Lox.Bindings.bind`, `Lox.Bindings.names`.
Key theorems: `Lox.Bindings.get?_bind`, `Lox.Bindings.names_bind_of_mem`,
`Lox.Bindings.names_bind_of_not_mem`.
-/

namespace Lox

/-- Names with what they are bound to, the one bound first in front. -/
structure Bindings (α : Type) where
  entries : List (String × α)
  deriving DecidableEq, Repr, Inhabited

namespace Bindings

variable {α : Type}

/-- No names. -/
def empty : Bindings α := ⟨[]⟩

/-- What entries bind a name to. -/
def find? (name : String) : List (String × α) → Option α
  | [] => none
  | (other, a) :: rest => if name = other then some a else find? name rest

/-- What a name is bound to. -/
def get? (b : Bindings α) (name : String) : Option α :=
  find? name b.entries

/-- The name is bound. -/
def contains (b : Bindings α) (name : String) : Bool :=
  (b.get? name).isSome

/-- The names in the order in which they were first bound. -/
def names (b : Bindings α) : List String :=
  b.entries.map (·.1)

/-- Entries with a name bound: in its place if it is there, else at the end. -/
def put (name : String) (a : α) : List (String × α) → List (String × α)
  | [] => [(name, a)]
  | (other, b) :: rest => if name = other then (other, a) :: rest else (other, b) :: put name a rest

/-- Bind a name. -/
def bind (b : Bindings α) (name : String) (a : α) : Bindings α :=
  ⟨put name a b.entries⟩

theorem find?_put (name other : String) (a : α) : ∀ entries : List (String × α),
    find? other (put name a entries) = if other = name then some a else find? other entries
  | [] => rfl
  | (first, b) :: rest => by
    by_cases hn : name = first
    · by_cases ho : other = first <;> simp [put, find?, hn, ho]
    · by_cases ho : other = first
      · simp [put, find?, hn, ho, Ne.symm hn]
      · simp [put, find?, hn, ho, find?_put name other a rest]

/-- Binding a name changes what is seen at that name only. -/
@[simp] theorem get?_bind (b : Bindings α) (name other : String) (a : α) :
    (b.bind name a).get? other = if other = name then some a else b.get? other :=
  find?_put name other a b.entries

@[simp] theorem get?_empty (name : String) : (empty : Bindings α).get? name = none := rfl

theorem names_put (name : String) (a : α) : ∀ entries : List (String × α),
    (put name a entries).map (·.1) =
      if name ∈ entries.map (·.1) then entries.map (·.1) else entries.map (·.1) ++ [name]
  | [] => by simp [put]
  | (first, b) :: rest => by
    by_cases hn : name = first
    · simp [put, hn]
    · have ih := names_put name a rest
      by_cases hm : name ∈ rest.map (·.1)
      · simp [put, hn, hm, ih]
      · simp [put, hn, hm, ih]

/-- A name that is bound keeps its place. -/
theorem names_bind_of_mem {b : Bindings α} {name : String} (a : α) (h : name ∈ b.names) :
    (b.bind name a).names = b.names :=
  (names_put name a b.entries).trans (if_pos h)

/-- A new name comes last. -/
theorem names_bind_of_not_mem {b : Bindings α} {name : String} (a : α) (h : name ∉ b.names) :
    (b.bind name a).names = b.names ++ [name] :=
  (names_put name a b.entries).trans (if_neg h)

end Bindings

end Lox
