/-
# The language of an expression

The words an expression stands for, by recursion on the tree: a symbol stands for the word of just that symbol,
a concatenation for the words of its operands one after the other, an alternation for the words of any of
them, a repetition for any number of words of its operand one after the other.  A word is a list of symbols.

Nothing here knows of automata; this is what they are measured against.
-/
import Automata.Regex

namespace Automata

/-- Any number of words of `L`, one after the other. -/
inductive Repeated (L : List String → Prop) : List String → Prop where
  | nil : Repeated L []
  | append {u v : List String} : L u → Repeated L v → Repeated L (u ++ v)

mutual

/-- The expression stands for the word. -/
def Regex.Denotes : Regex → List String → Prop
  | .lit s => fun w => w = [s]
  | .epsilon => fun w => w = []
  | .cat os => os.DenotesCat
  | .alt os => os.DenotesAlt
  | .star r => Repeated r.Denotes

/-- The word falls into one word of each operand, in their order. -/
def Operands.DenotesCat : Operands → List String → Prop
  | .pair a b => fun w => ∃ u v, w = u ++ v ∧ a.Denotes u ∧ b.Denotes v
  | .cons a rest => fun w => ∃ u v, w = u ++ v ∧ a.Denotes u ∧ rest.DenotesCat v

/-- Some operand stands for the word. -/
def Operands.DenotesAlt : Operands → List String → Prop
  | .pair a b => fun w => a.Denotes w ∨ b.Denotes w
  | .cons a rest => fun w => a.Denotes w ∨ rest.DenotesAlt w

end

theorem Operands.denotesAlt_iff : ∀ {os : Operands} {w : List String},
    os.DenotesAlt w ↔ ∃ r ∈ os.toList, r.Denotes w
  | .pair a b, w => by simp [DenotesAlt, toList]
  | .cons a rest, w => by simp [DenotesAlt, toList, denotesAlt_iff]

end Automata
