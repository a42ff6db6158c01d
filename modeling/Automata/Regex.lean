/-
# Regular expressions over string symbols

The tree of a regular expression.  A symbol is a whole string: `"digit"` is one symbol, and so is the
empty string, which is not the empty word.  Concatenation and alternation take any number of operands
from two on; the lower bound is part of the type, since `Operands` has no shorter value, so nothing that
walks a tree needs a case for an operator without operands.  A list of the wrong length is refused where
the tree is put together, by `Operator.apply`, with an `ArityError`.

Nothing is flattened or simplified: a concatenation inside a concatenation stays one.
-/

namespace Automata

mutual

/-- A regular expression over string symbols. -/
inductive Regex where
  /-- Exactly one occurrence of the symbol. -/
  | lit (symbol : String)
  | epsilon
  /-- The operands one after the other. -/
  | cat (operands : Operands)
  /-- Any one of the operands. -/
  | alt (operands : Operands)
  | star (operand : Regex)

/-- The operands of a concatenation or an alternation: two or more expressions, in order. -/
inductive Operands where
  /-- The shortest list there is. -/
  | pair (first second : Regex)
  /-- One operand more, in front. -/
  | cons (first : Regex) (rest : Operands)

end

deriving instance DecidableEq for Regex, Operands

instance : Inhabited Regex := ⟨.epsilon⟩

/-! ## Operand lists -/

namespace Operands

def toList : Operands → List Regex
  | .pair a b => [a, b]
  | .cons a rest => a :: rest.toList

def length : Operands → Nat
  | .pair _ _ => 2
  | .cons _ rest => rest.length + 1

/-- The operand list with these members. -/
def of (first second : Regex) : List Regex → Operands
  | [] => .pair first second
  | third :: rest => .cons first (of second third rest)

/-- The operand list with these members, if there are at least two. -/
def ofList? : List Regex → Option Operands
  | a :: b :: rest => some (of a b rest)
  | _ => none

@[simp] theorem length_toList : ∀ os : Operands, os.toList.length = os.length
  | .pair _ _ => rfl
  | .cons _ rest => by simp [toList, length, length_toList rest]

theorem two_le_length : ∀ os : Operands, 2 ≤ os.length
  | .pair _ _ => Nat.le_refl 2
  | .cons _ rest => Nat.le_succ_of_le (two_le_length rest)

@[simp] theorem toList_of : ∀ (a b : Regex) (rest : List Regex),
    (of a b rest).toList = a :: b :: rest
  | _, _, [] => rfl
  | a, b, c :: rest => by simp [of, toList, toList_of b c rest]

theorem eq_of : ∀ os : Operands, ∃ a b rest, os = of a b rest
  | .pair a b => ⟨a, b, [], rfl⟩
  | .cons a rest => by
      obtain ⟨b, c, more, rfl⟩ := eq_of rest
      exact ⟨a, b, c :: more, rfl⟩

@[simp] theorem ofList?_toList (os : Operands) : ofList? os.toList = some os := by
  obtain ⟨a, b, rest, rfl⟩ := eq_of os
  rw [toList_of]
  rfl

theorem ofList?_eq_some_iff {rs : List Regex} {os : Operands} :
    ofList? rs = some os ↔ os.toList = rs := by
  constructor
  · intro h
    match rs, h with
    | a :: b :: rest, h =>
        obtain rfl : of a b rest = os := Option.some.inj h
        exact toList_of a b rest
  · rintro rfl
    exact ofList?_toList os

theorem ofList?_eq_none_iff {rs : List Regex} : ofList? rs = none ↔ rs.length < 2 := by
  match rs with
  | [] => simp [ofList?]
  | [_] => simp [ofList?]
  | _ :: _ :: _ => simp [ofList?]

end Operands

/-! ## Putting trees together -/

/-- The two operators that take a list of operands. -/
inductive Operator where
  | cat
  | alt
  deriving DecidableEq

/-- What an operator is called in messages. -/
def Operator.name : Operator → String
  | .cat => "Concatenation"
  | .alt => "Alternation"

/-- An operator was given fewer than two operands. -/
structure ArityError where
  operator : Operator
  /-- How many operands it was given. -/
  got : Nat
  deriving DecidableEq

def ArityError.message (e : ArityError) : String :=
  e.operator.name ++ " needs at least 2 operands, got " ++ toString e.got

namespace Operator

/-- The tree with this operator at the top. -/
def node : Operator → Operands → Regex
  | .cat => .cat
  | .alt => .alt

/-- Puts the operator over a list of operands, if there are enough of them. -/
def apply (op : Operator) (rs : List Regex) : Except ArityError Regex :=
  match Operands.ofList? rs with
  | some os => .ok (op.node os)
  | none => .error ⟨op, rs.length⟩

@[simp] theorem apply_toList (op : Operator) (os : Operands) :
    op.apply os.toList = .ok (op.node os) := by
  simp [apply]

end Operator

namespace Regex

/-- The expression or the empty word. -/
def opt (r : Regex) : Regex := .alt (.pair r .epsilon)

/-- One or more repetitions. -/
def plus (r : Regex) : Regex := .cat (.pair r (.star r))

/-- The operands of the operator at the top, if that is a concatenation or an alternation. -/
def operands? : Regex → Option Operands
  | .cat os => some os
  | .alt os => some os
  | _ => none

end Regex

end Automata
