/-
# Flat expressions

The operands of an operator that stands directly inside the same operator can be put in its place.  `Regex.flat` does
so everywhere in an expression, and keeps the operators at the top of each part apart from that (`Regex.flat_node`).
-/
import Automata.Proofs.Regex.Rewriting

namespace Automata

/-- The operands of an expression with this operator at the top; any other expression is its own only operand. -/
def Operator.parts : Operator → Regex → List Regex
  | .cat, .cat os => os.toList
  | .alt, .alt os => os.toList
  | _, r => [r]

mutual

/-- The expression with the operands of every concatenation directly inside a concatenation, and of every alternation
directly inside an alternation, in its place. -/
def Regex.flat : Regex → Regex
  | .lit s => .lit s
  | .epsilon => .epsilon
  | .cat os => Operator.cat.join (os.flatten .cat)
  | .alt os => Operator.alt.join (os.flatten .alt)
  | .star r => .star r.flat

/-- The operands made flat, with the operands of those that have the operator at the top in their place. -/
def Operands.flatten (op : Operator) : Operands → List Regex
  | .pair a b => op.parts a.flat ++ op.parts b.flat
  | .cons a os => op.parts a.flat ++ os.flatten op

end

namespace Operator

variable {op : Operator}

@[simp] theorem parts_node (op : Operator) (os : Operands) : op.parts (op.node os) = os.toList := by
  cases op <;> rfl

theorem parts_cases (op : Operator) (r : Regex) : (∃ os, r = op.node os) ∨ op.parts r = [r] := by
  cases op with
  | cat =>
      cases r with
      | cat os => exact .inl ⟨os, rfl⟩
      | _ => exact .inr rfl
  | alt =>
      cases r with
      | alt os => exact .inl ⟨os, rfl⟩
      | _ => exact .inr rfl

theorem parts_ne_nil (op : Operator) (r : Regex) : op.parts r ≠ [] := by
  obtain ⟨os, rfl⟩ | h := op.parts_cases r
  · rw [parts_node, ← List.length_pos_iff, Operands.length_toList]
    exact Nat.lt_of_lt_of_le Nat.zero_lt_two os.two_le_length
  · rw [h]
    exact List.cons_ne_nil r []

@[simp] theorem join_parts (op : Operator) (r : Regex) : op.join (op.parts r) = r := by
  obtain ⟨os, rfl⟩ | h := op.parts_cases r
  · rw [parts_node, join_toList]
  · rw [h, join_singleton]

end Operator

namespace Operands

theorem two_le_length_flatten (op : Operator) (os : Operands) : 2 ≤ (os.flatten op).length := by
  cases os with
  | pair a b =>
      have hpos (r : Regex) : 0 < (op.parts r).length := List.length_pos_iff.2 (op.parts_ne_nil r)
      rw [flatten, List.length_append]
      exact Nat.add_le_add (hpos a.flat) (hpos b.flat)
  | cons a os =>
      rw [flatten, List.length_append]
      exact Nat.le_trans (two_le_length_flatten op os) (Nat.le_add_left _ _)

end Operands

namespace Regex

/-- A node made flat is a node again, over the operands made flat. -/
theorem flat_node (op : Operator) (os : Operands) :
    ∃ os' : Operands, (op.node os).flat = op.node os' ∧ os'.toList = os.flatten op := by
  have hflat : (op.node os).flat = op.join (os.flatten op) := by
    cases op <;> rw [Operator.node, Regex.flat]
  cases h : Operands.ofList? (os.flatten op) with
  | none => exact absurd (Operands.ofList?_eq_none_iff.1 h) (Nat.not_lt.2 (os.two_le_length_flatten op))
  | some os' =>
      have hos' : os'.toList = os.flatten op := Operands.ofList?_eq_some_iff.1 h
      exact ⟨os', by rw [hflat, ← hos', Operator.join_toList], hos'⟩

theorem parts_flat_node (op : Operator) (os : Operands) : op.parts (op.node os).flat = os.flatten op := by
  obtain ⟨os', hflat, hos'⟩ := flat_node op os
  rw [hflat, Operator.parts_node, hos']

theorem parts_alt_flat_cat (os : Operands) : Operator.alt.parts (cat os).flat = [(cat os).flat] := by
  obtain ⟨os', hflat, -⟩ := flat_node .cat os
  exact hflat ▸ rfl

theorem parts_cat_flat_alt (os : Operands) : Operator.cat.parts (alt os).flat = [(alt os).flat] := by
  obtain ⟨os', hflat, -⟩ := flat_node .alt os
  exact hflat ▸ rfl

end Regex

end Automata
