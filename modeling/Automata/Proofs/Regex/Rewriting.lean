/-
# Changing an expression in one place

A relation between expressions is carried to larger ones by changing a single subexpression, at any depth, and
nothing else (`Regex.Rewrites`).  A relation between alike expressions stays one that way (`Rewrites.alike`), so for a
law of expressions it is enough to look at the place where it is applied.

Laws that take operands away may leave a single one, which then stands in the place of the operator
(`Operator.join`).
-/
import Automata.Proofs.Regex.Leaves

namespace Automata

namespace Operator

/-- The operator over a list of operands: a single one stands for itself, and none at all for the empty word. -/
def join (op : Operator) : List Regex → Regex
  | [] => .epsilon
  | [r] => r
  | a :: b :: rest => op.node (.of a b rest)

@[simp] theorem join_singleton (op : Operator) (r : Regex) : op.join [r] = r := rfl

@[simp] theorem join_toList (op : Operator) (os : Operands) : op.join os.toList = op.node os := by
  obtain ⟨a, b, rest, rfl⟩ := os.eq_of
  rw [Operands.toList_of, join]

variable {op : Operator} {os : Operands} {rs : List Regex}

theorem denotes_join (op : Operator) (h : rs ≠ []) : (op.join rs).Denotes = op.Denotes rs := by
  match rs, h with
  | [r], _ => rw [join, denotes_singleton]
  | a :: b :: rest, _ => rw [join, denotes_node, Operands.toList_of]

theorem sameLeaves_join (op : Operator) (h : rs ≠ []) : (op.join rs).SameLeaves = op.SameLeaves rs := by
  match rs, h with
  | [r], _ => rw [join, sameLeaves_singleton]
  | a :: b :: rest, _ => rw [join, sameLeaves_node, Operands.toList_of]

theorem Alike.join (h : op.Alike os.toList rs) (hne : rs ≠ []) : (op.node os).Alike (op.join rs) where
  denotes := by rw [denotes_node, denotes_join op hne, h.denotes]
  sameLeaves := by rw [sameLeaves_node, sameLeaves_join op hne, h.sameLeaves]

end Operator

theorem Operands.others_ne_nil {os : Operands} {before after : List Regex} {r : Regex}
    (h : os.toList = before ++ r :: after) : before ++ after ≠ [] := by
  intro hnil
  have hlength := os.two_le_length
  obtain ⟨rfl, rfl⟩ := List.append_eq_nil_iff.1 hnil
  rw [← length_toList, h] at hlength
  exact absurd hlength (by simp)

namespace Regex

variable {R : Regex → Regex → Prop} {r s : Regex}

/-- The second expression is the first with one subexpression replaced by one that the relation allows. -/
inductive Rewrites (R : Regex → Regex → Prop) : Regex → Regex → Prop where
  | here {r s : Regex} : R r s → Rewrites R r s
  | operand (op : Operator) (before after : List Regex) {os os' : Operands} {r s : Regex} :
      os.toList = before ++ r :: after → os'.toList = before ++ s :: after → Rewrites R r s →
      Rewrites R (op.node os) (op.node os')
  | star {r s : Regex} : Rewrites R r s → Rewrites R (.star r) (.star s)

/-- What is alike in its place is alike in the whole. -/
theorem Rewrites.alike (hR : ∀ r s, R r s → r.Alike s) (h : Rewrites R r s) : r.Alike s := by
  induction h with
  | here h => exact hR _ _ h
  | operand op before after hos hos' _ ih =>
      refine Operator.Alike.node ?_
      rw [hos, hos']
      exact Operator.Alike.operand op before after ih
  | star _ ih => exact ih.star

end Regex

end Automata
