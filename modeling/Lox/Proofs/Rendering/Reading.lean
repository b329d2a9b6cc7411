/-
# Reading written forms

A written form is read back from its pieces, one after the other. The first
piece, or the one behind a parenthesis, tells which form it is of; only an
operator leaves open whether one operand follows or two, and the piece behind
the first one tells that. The marks of the tree that is read all stand at the
start of a text. Reading takes as many steps as the tree is deep, so it is
told how many to take.

A reader finds something in some pieces if it reads just these, whatever stands
behind them, given steps enough (`Lox.Finds`).

Key definitions: `Lox.Reader`, `Lox.readExpr`, `Lox.readStmt`, `Lox.Finds`, `Lox.BeginsBeside`.
Key theorems: `Lox.Finds.bind`, `Lox.Finds.all`.
-/
import Lox.Ast.Basic
import Lox.Proofs.Double.Rereading
import Lox.Proofs.Scanner.Chunks

namespace Lox

open Scanner Text

/-- Takes pieces from the front, or fails. -/
abbrev Reader (α : Type) := StateT (List String) Option α

namespace Reader

/-- The next piece. -/
def next : Reader String
  | [] => none
  | w :: ws => some (w, ws)

/-- The next piece, which has to be this one. -/
def expect (w : String) : Reader Unit
  | [] => none
  | v :: ws => if v = w then some ((), ws) else none

/-- Take the next piece if it is this one. -/
def accept (w : String) : Reader Bool
  | [] => some (false, [])
  | v :: ws => if v = w then some (true, ws) else some (false, v :: ws)

/-- Read again and again, up to a piece that ends the list. -/
def all {α : Type} (p : Reader α) (stop : String) : Nat → Reader (List α)
  | 0 => failure
  | n + 1 => do
    if ← accept stop then return []
    else
      let a ← p
      let as ← all p stop n
      return a :: as

end Reader

open Reader

/-- The kind of a word that is a token. -/
def kindOf (w : String) : TokenKind :=
  match chunk? w.toList with
  | some ⟨_, some (kind, _)⟩ => kind
  | _ => .eof

/-- The mark of a word, at the start of a text. -/
def markOf (w : String) : Mark := ⟨kindOf w, w, some 0⟩

/-- A word that is an expression. -/
def readLeaf (w : String) : Expr :=
  if w = "nil" then .literal .nil
  else if w = "true" then .literal (.bool true)
  else if w = "false" then .literal (.bool false)
  else if w = "this" then .receiver (.free (markOf w))
  else if w.toList.head?.any isAsciiDigit then .literal (.number (reread w.toList))
  else .variable (.free (markOf w))

/-- The operands of an operator, one or two, and the parenthesis behind them. -/
def readOperands (expr : Reader Expr) (op : Mark) : Reader Expr := do
  let left ← expr
  if ← accept ")" then return .unary op left
  else
    let right ← expr
    expect ")"
    if op.kind = .kwOr ∨ op.kind = .kwAnd then return .logical left op right
    else return .binary left op right

/-- What is assigned to: a name, or the property of an object behind a point. -/
def readAssignment (expr : Reader Expr) (target : String) : Reader Expr := do
  match target.toList with
  | '.' :: name => do
    let object ← expr
    let value ← expr
    expect ")"
    return .set object (markOf (String.ofList name)) value
  | _ => do
    let value ← expr
    expect ")"
    return .assign (.free (markOf target)) value

/-- An expression behind its parenthesis and the piece that tells its form. -/
def readForm (expr : Reader Expr) (steps : Nat) (head : String) : Reader Expr :=
  match head with
  | "grouping" => do
    let inner ← expr
    expect ")"
    return .grouping inner
  | "?:" => do
    let cond ← expr
    let yes ← expr
    let no ← expr
    expect ")"
    return .ternary cond yes no
  | "=" => do
    readAssignment expr (← next)
  | "call" => do
    let callee ← expr
    let args ← all expr ")" steps
    return .call callee (markOf ")") args
  | "." => do
    let object ← expr
    let name ← next
    expect ")"
    return .get object (markOf name)
  | "super" => do
    let method ← next
    expect ")"
    return .superMethod (.free (markOf "super")) (markOf method)
  | _ => readOperands expr (markOf head)

/-- An expression. -/
def readExpr : Nat → Reader Expr
  | 0 => failure
  | steps + 1 => do
    let w ← next
    if w = "(" then readForm (readExpr steps) steps (← next) else return readLeaf w

/-- A function behind its keyword, and the parenthesis behind it. -/
def readFunction (stmt : Reader Stmt) (steps : Nat) : Reader Fun := do
  let name ← next
  expect "("
  let params ← all next ")" steps
  expect "\x7b"
  let body ← all stmt "\x7d" steps
  expect ")"
  return ⟨markOf name, params.map markOf, body⟩

/-- A method: a function in parentheses. -/
def readMethod (stmt : Reader Stmt) (steps : Nat) : Reader Fun := do
  expect "("
  expect "fun"
  readFunction stmt steps

/-- The words that tell statements in parentheses. -/
def statementHeads : List String := ["if", "while", "fun", "return", "class"]

/-- A statement behind its parenthesis and the word that tells its form. -/
def readCompound (expr : Reader Expr) (stmt : Reader Stmt) (steps : Nat) (head : String) :
    Reader Stmt :=
  match head with
  | "if" => do
    let cond ← expr
    let yes ← stmt
    if ← accept ")" then return .branch cond yes none
    else
      let no ← stmt
      expect ")"
      return .branch cond yes (some no)
  | "while" => do
    let cond ← expr
    let body ← stmt
    expect ")"
    return .loop cond body
  | "fun" => return .function (← readFunction stmt steps)
  | "return" => do
    if ← accept ")" then return .giveBack (markOf "return") none
    else
      let value ← expr
      expect ")"
      return .giveBack (markOf "return") (some value)
  | _ => do
    let name ← next
    if ← accept "<" then
      let superclass ← next
      let methods ← all (readMethod stmt steps) ")" steps
      return .classDecl (markOf name) (some (.free (markOf superclass))) methods
    else
      let methods ← all (readMethod stmt steps) ")" steps
      return .classDecl (markOf name) none methods

/-- A statement behind its first piece. -/
def readRest (expr : Reader Expr) (stmt : Reader Stmt) (steps : Nat) (first : String) :
    Reader Stmt :=
  match first with
  | "print" => do
    let value ← expr
    expect ";"
    return .print value
  | "var" => do
    let name ← next
    if ← accept ";" then return .var (markOf name) none
    else
      expect "="
      let initial ← expr
      expect ";"
      return .var (markOf name) (some initial)
  | "\x7b" => return .block (← all stmt "\x7d" steps)
  | "(" => do
    let head ← next
    if head ∈ statementHeads then readCompound expr stmt steps head
    else
      let value ← readForm expr steps head
      expect ";"
      return .expr value
  | w => do
    expect ";"
    return .expr (readLeaf w)

/-- A statement. -/
def readStmt : Nat → Reader Stmt
  | 0 => failure
  | steps + 1 => do readRest (readExpr steps) (readStmt steps) steps (← next)

/-! ### What readers find -/

/-- With steps enough the reader finds the result in the pieces, whatever stands behind them. -/
def Finds {α : Type} (p : Nat → Reader α) (ps : List String) (a : α) : Prop :=
  ∃ n, ∀ m, n ≤ m → ∀ rest, (p m).run (ps ++ rest) = some (a, rest)

/-- The pieces begin with another one. -/
def BeginsBeside (w : String) (ps : List String) : Prop := ∃ v vs, ps = v :: vs ∧ v ≠ w

theorem BeginsBeside.append {w : String} {ps : List String} (h : BeginsBeside w ps)
    (qs : List String) : BeginsBeside w (ps ++ qs) := by
  obtain ⟨v, vs, rfl, hne⟩ := h
  exact ⟨v, vs ++ qs, rfl, hne⟩

namespace Finds

variable {α β : Type} {p : Nat → Reader α} {ps qs : List String} {a : α} {b : β} {w : String}

theorem pure (a : α) : Finds (fun _ => Pure.pure a) [] a := ⟨0, fun _ _ _ => rfl⟩

/-- One reading behind the other. -/
theorem bind {q : Nat → α → Reader β} (hp : Finds p ps a) (hq : Finds (q · a) qs b) :
    Finds (fun n => p n >>= q n) (ps ++ qs) b := by
  obtain ⟨n, hn⟩ := hp
  obtain ⟨k, hk⟩ := hq
  refine ⟨max n k, fun m hm rest => ?_⟩
  rw [List.append_assoc]
  show ((p m).run (ps ++ (qs ++ rest))).bind (fun r => (q m r.1).run r.2) = _
  rw [hn m (by omega)]
  exact hk m (by omega) rest

theorem map {g : α → β} (hp : Finds p ps a) :
    Finds (fun n => p n >>= fun x => Pure.pure (g x)) ps (g a) := by
  obtain ⟨n, hn⟩ := hp
  refine ⟨n, fun m hm rest => ?_⟩
  show ((p m).run (ps ++ rest)).bind (fun r => some (g r.1, r.2)) = _
  rw [hn m hm]
  rfl

theorem ofTrue {c : Prop} [Decidable c] {q : Nat → Reader α} (hc : c) (hp : Finds p ps a) :
    Finds (fun n => if c then p n else q n) ps a := by
  simpa only [if_pos hc] using hp

theorem ofFalse {c : Prop} [Decidable c] {q : Nat → Reader α} (hc : ¬ c) (hp : Finds p ps a) :
    Finds (fun n => if c then q n else p n) ps a := by
  simpa only [if_neg hc] using hp

theorem next {q : Nat → String → Reader β} (hq : Finds (q · w) qs b) :
    Finds (fun n => Reader.next >>= q n) (w :: qs) b := by
  obtain ⟨n, hn⟩ := hq
  exact ⟨n, hn⟩

theorem expect {q : Nat → Reader β} (hq : Finds q qs b) :
    Finds (fun n => Reader.expect w >>= fun _ => q n) (w :: qs) b := by
  have hw : Finds (fun _ => Reader.expect w) [w] () :=
    ⟨0, fun _ _ _ => if_pos rfl⟩
  exact hw.bind hq

theorem accept {q : Nat → Bool → Reader β} (hq : Finds (q · true) qs b) :
    Finds (fun n => Reader.accept w >>= q n) (w :: qs) b := by
  have hw : Finds (fun _ => Reader.accept w) [w] true :=
    ⟨0, fun _ _ _ => if_pos rfl⟩
  exact hw.bind hq

/-- Another piece stays where it is. -/
theorem refuse {q : Nat → Bool → Reader β} (hw : BeginsBeside w qs)
    (hq : Finds (q · false) qs b) : Finds (fun n => Reader.accept w >>= q n) qs b := by
  obtain ⟨v, vs, rfl, hne⟩ := hw
  obtain ⟨n, hn⟩ := hq
  refine ⟨n, fun m hm rest => ?_⟩
  show ((Reader.accept w) (v :: (vs ++ rest))).bind (fun r => (q m r.1).run r.2) = _
  rw [show Reader.accept w (v :: (vs ++ rest)) = some (false, v :: (vs ++ rest)) from if_neg hne]
  exact hn m hm rest

/-- One step more. -/
theorem succ {q : Nat → Reader α} (hq : ∀ n, q (n + 1) = p n) (h : Finds p ps a) :
    Finds q ps a := by
  obtain ⟨n, hn⟩ := h
  refine ⟨n + 1, fun m hm rest => ?_⟩
  obtain ⟨m, rfl⟩ := Nat.exists_eq_add_of_le' (Nat.le_of_add_left_le hm)
  rw [hq]
  exact hn m (by omega) rest

section

variable {ι : Type} {stop : String} {xs : List ι} {f : ι → List String} {g : ι → α}

/-- Things that are found are found with one number of steps. -/
theorem exists_steps (h : ∀ x ∈ xs, Finds p (f x) (g x)) :
    ∃ n, ∀ m, n ≤ m → ∀ x ∈ xs, ∀ rest, (p m).run (f x ++ rest) = some (g x, rest) := by
  induction xs with
  | nil => exact ⟨0, fun _ _ _ h => nomatch h⟩
  | cons x xs ih =>
    obtain ⟨⟨n, hn⟩, hxs⟩ := List.forall_mem_cons.mp h
    obtain ⟨k, hk⟩ := ih hxs
    exact ⟨max n k, fun m hm => List.forall_mem_cons.mpr ⟨hn m (by omega), hk m (by omega)⟩⟩

/-- A list is read to its end, with a step for each of its things and one for the end. -/
theorem run_all {p : Reader α}
    (h : ∀ x ∈ xs, (∀ rest, p.run (f x ++ rest) = some (g x, rest)) ∧ BeginsBeside stop (f x))
    {steps : Nat} (hsteps : xs.length < steps) (rest : List String) :
    (Reader.all p stop steps).run (xs.foldr (f · ++ ·) [stop] ++ rest) = some (xs.map g, rest) := by
  obtain ⟨k, rfl⟩ := Nat.exists_eq_add_of_lt hsteps
  induction xs generalizing k with
  | nil =>
    show (Reader.accept stop (stop :: rest)).bind _ = _
    rw [show Reader.accept stop (stop :: rest) = some (true, rest) from if_pos rfl]
    rfl
  | cons x xs ih =>
    obtain ⟨⟨hx, v, vs, hv, hne⟩, hxs⟩ := List.forall_mem_cons.mp h
    rw [List.foldr_cons, List.append_assoc, hv]
    show (Reader.accept stop (v :: (vs ++ (xs.foldr (f · ++ ·) [stop] ++ rest)))).bind _ = _
    rw [show Reader.accept stop (v :: _) = some (false, v :: _) from if_neg hne]
    show ((p.run (v :: vs ++ (xs.foldr (f · ++ ·) [stop] ++ rest)))).bind _ = _
    rw [← hv, hx]
    show ((Reader.all p stop (xs.length + 1 + k)).run
      (xs.foldr (f · ++ ·) [stop] ++ rest)).bind _ = _
    rw [Nat.add_right_comm, ih hxs k (by omega)]
    rfl

/-- A list of things that are found, none of which begins with the piece that ends the list. -/
theorem all (h : ∀ x ∈ xs, Finds p (f x) (g x) ∧ BeginsBeside stop (f x)) :
    Finds (fun n => Reader.all (p n) stop n) (xs.foldr (f · ++ ·) [stop]) (xs.map g) := by
  obtain ⟨n, hn⟩ := exists_steps fun x hx => (h x hx).1
  refine ⟨max n (xs.length + 1), fun m hm rest => ?_⟩
  apply run_all
  · exact fun x hx => ⟨hn m (by omega) x hx, (h x hx).2⟩
  · omega

end

end Finds

end Lox
