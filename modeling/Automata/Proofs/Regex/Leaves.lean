/-
# The leaves at which words end

Reading a word along an expression ends at a leaf, the one whose symbol was read last; since a word can be divided
among operands in several ways, it may end at several leaves at once.  Which leaves these are is never said here.
What is said is when the words of two sets end at the same ones (`Regex.SameLeaves`), by recursion on the tree: an
operand that comes behind others sees what is left of the words behind what the others stand for (`After`), and at a
leaf it only matters whether the word of just its symbol is among the words.

Two expressions are *alike* when they stand for the same words and tell the same words apart in this way
(`Regex.Alike`).  This is more than having the same language: `a a*` and `a* a` have the same, but in the first the
word `a` ends at the first leaf only and in the second at both.

The operators are also described over plain lists of operands (`Operator.Denotes`, `Operator.SameLeaves`), which can be
put together and taken apart without a bound on their length.
-/
import Automata.Regex.Language

namespace Automata

variable {L X Y : List String → Prop}

/-- What is left of the words of `X` behind words of `L`. -/
def After (L X : List String → Prop) (v : List String) : Prop := ∃ u, L u ∧ X (u ++ v)

theorem after_nil (X : List String → Prop) : After (· = []) X = X := by
  funext v
  simp [After]

mutual

/-- The words of `X` end at the same leaves of the expression as those of `Y`. -/
def Regex.SameLeaves : Regex → (X Y : List String → Prop) → Prop
  | .lit s, X, Y => X [s] ↔ Y [s]
  | .epsilon, _, _ => True
  | .cat os, X, Y => os.SameLeavesCat X Y
  | .alt os, X, Y => os.SameLeavesAlt X Y
  | .star r, X, Y => r.SameLeaves (After (Repeated r.Denotes) X) (After (Repeated r.Denotes) Y)

/-- The same for operands one after the other. -/
def Operands.SameLeavesCat : Operands → (X Y : List String → Prop) → Prop
  | .pair a b, X, Y => a.SameLeaves X Y ∧ b.SameLeaves (After a.Denotes X) (After a.Denotes Y)
  | .cons a rest, X, Y => a.SameLeaves X Y ∧ rest.SameLeavesCat (After a.Denotes X) (After a.Denotes Y)

/-- The same for operands side by side. -/
def Operands.SameLeavesAlt : Operands → (X Y : List String → Prop) → Prop
  | .pair a b, X, Y => a.SameLeaves X Y ∧ b.SameLeaves X Y
  | .cons a rest, X, Y => a.SameLeaves X Y ∧ rest.SameLeavesAlt X Y

end

/-- Both expressions stand for the same words, and the same words end at the same leaves in both. -/
structure Regex.Alike (r s : Regex) : Prop where
  denotes : r.Denotes = s.Denotes
  sameLeaves : r.SameLeaves = s.SameLeaves

/-! ## Lists of operands -/

namespace Operator

/-- What an operator over a list of operands stands for. -/
def Denotes : Operator → List Regex → List String → Prop
  | .cat, [] => fun w => w = []
  | .cat, r :: rs => fun w => ∃ u v, w = u ++ v ∧ r.Denotes u ∧ Operator.cat.Denotes rs v
  | .alt, rs => fun w => ∃ r ∈ rs, r.Denotes w

/-- The words of `X` end at the same leaves of the operands as those of `Y`. -/
def SameLeaves : Operator → List Regex → (X Y : List String → Prop) → Prop
  | .cat, [], _, _ => True
  | .cat, r :: rs, X, Y =>
      r.SameLeaves X Y ∧ Operator.cat.SameLeaves rs (After r.Denotes X) (After r.Denotes Y)
  | .alt, rs, X, Y => ∀ r ∈ rs, r.SameLeaves X Y

/-- The same for two lists of operands. -/
structure Alike (op : Operator) (rs ss : List Regex) : Prop where
  denotes : op.Denotes rs = op.Denotes ss
  sameLeaves : op.SameLeaves rs = op.SameLeaves ss

theorem denotes_singleton (op : Operator) (r : Regex) : op.Denotes [r] = r.Denotes := by
  funext w
  cases op <;> simp [Denotes]

theorem sameLeaves_singleton (op : Operator) (r : Regex) : op.SameLeaves [r] = r.SameLeaves := by
  funext X Y
  cases op <;> simp [SameLeaves]

end Operator

theorem Operands.denotesCat_eq : ∀ os : Operands, os.DenotesCat = Operator.cat.Denotes os.toList
  | .pair a b => by
      funext w
      rw [toList, Operator.Denotes, Operator.denotes_singleton, DenotesCat]
  | .cons a rest => by
      funext w
      rw [toList, Operator.Denotes, DenotesCat, denotesCat_eq rest]

theorem Operands.sameLeavesCat_eq : ∀ os : Operands, os.SameLeavesCat = Operator.cat.SameLeaves os.toList
  | .pair a b => by
      funext X Y
      rw [toList, Operator.SameLeaves, Operator.sameLeaves_singleton, SameLeavesCat]
  | .cons a rest => by
      funext X Y
      rw [toList, Operator.SameLeaves, SameLeavesCat, sameLeavesCat_eq rest]

theorem Operands.sameLeavesAlt_iff : ∀ {os : Operands}, os.SameLeavesAlt X Y ↔ ∀ r ∈ os.toList, r.SameLeaves X Y
  | .pair a b => by simp [SameLeavesAlt, toList]
  | .cons a rest => by simp [SameLeavesAlt, toList, sameLeavesAlt_iff]

namespace Operator

theorem denotes_node (op : Operator) (os : Operands) : (op.node os).Denotes = op.Denotes os.toList := by
  cases op with
  | cat => exact os.denotesCat_eq
  | alt =>
      funext w
      rw [node, Regex.Denotes, Denotes]
      exact propext Operands.denotesAlt_iff

theorem sameLeaves_node (op : Operator) (os : Operands) : (op.node os).SameLeaves = op.SameLeaves os.toList := by
  cases op with
  | cat => exact os.sameLeavesCat_eq
  | alt =>
      funext X Y
      rw [node, Regex.SameLeaves, SameLeaves]
      exact propext Operands.sameLeavesAlt_iff

variable {op : Operator} {rs ss before after : List Regex} {r s : Regex} {os os' : Operands}

theorem Alike.node (h : op.Alike os.toList os'.toList) : (op.node os).Alike (op.node os') where
  denotes := by rw [denotes_node, denotes_node, h.denotes]
  sameLeaves := by rw [sameLeaves_node, sameLeaves_node, h.sameLeaves]

theorem alike_cat_cons (r : Regex) (h : Operator.cat.Alike rs ss) : Operator.cat.Alike (r :: rs) (r :: ss) where
  denotes := by
    funext w
    rw [Denotes, Denotes, h.denotes]
  sameLeaves := by
    funext X Y
    rw [SameLeaves, SameLeaves, h.sameLeaves]

theorem alike_cat_append (before : List Regex) (h : Operator.cat.Alike rs ss) :
    Operator.cat.Alike (before ++ rs) (before ++ ss) := by
  induction before with
  | nil => exact h
  | cons r before ih => exact alike_cat_cons r ih

theorem Alike.operand (op : Operator) (before after : List Regex) (h : r.Alike s) :
    op.Alike (before ++ r :: after) (before ++ s :: after) := by
  cases op with
  | cat =>
      refine alike_cat_append before ⟨?_, ?_⟩
      · funext w
        rw [Denotes, Denotes, h.denotes]
      · funext X Y
        rw [SameLeaves, SameLeaves, h.denotes, h.sameLeaves]
  | alt =>
      constructor
      · funext w
        simp [Denotes, or_and_right, exists_or, h.denotes]
      · funext X Y
        simp [SameLeaves, or_imp, forall_and, h.sameLeaves]

end Operator

theorem Regex.Alike.star {r s : Regex} (h : r.Alike s) : (Regex.star r).Alike (.star s) where
  denotes := by rw [Denotes, Denotes, h.denotes]
  sameLeaves := by
    funext X Y
    rw [SameLeaves, SameLeaves, h.denotes, h.sameLeaves]

end Automata
