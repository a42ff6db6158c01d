/-
# Rearranging alternations

Which operands an alternation has is all that matters to it: their order does not, nor how often one is given, nor
whether some of them are put together in an alternation of their own.  For the language this is plain, and it is as
plain for the leaves at which words end (`Operator.alike_alt_of_mem_iff`, `Operator.alike_alt_splice`).  So the
deterministic automaton stays the same, with the same numbers for its states, although the automata it is made from
have different states and edges (`Regex.determinize_rearranged`).
-/
import Automata.Proofs.Regex.Rewriting
import Automata.Proofs.Thompson.Leaves

namespace Automata

namespace Operator

theorem alike_alt_of_mem_iff {rs ss : List Regex} (h : ∀ r, r ∈ rs ↔ r ∈ ss) : Operator.alt.Alike rs ss where
  denotes := by
    funext w
    simp only [Denotes, h]
  sameLeaves := by
    funext X Y
    simp only [SameLeaves, h]

theorem alike_alt_splice (before after : List Regex) (inner : Operands) :
    Operator.alt.Alike (before ++ .alt inner :: after) (before ++ inner.toList ++ after) where
  denotes := by
    have hinner : (Regex.alt inner).Denotes = Operator.alt.Denotes inner.toList := denotes_node .alt inner
    funext w
    simp [Denotes, or_and_right, exists_or, hinner]
  sameLeaves := by
    have hinner : (Regex.alt inner).SameLeaves = Operator.alt.SameLeaves inner.toList := sameLeaves_node .alt inner
    funext X Y
    simp [SameLeaves, or_imp, forall_and, hinner]

end Operator

namespace Regex

/-- An alternation with its operands permuted, with the operands of an inner alternation in place of that one, or
without an operand that it has twice. -/
inductive Rearranged : Regex → Regex → Prop where
  | permute {os os' : Operands} : os.toList.Perm os'.toList → Rearranged (.alt os) (.alt os')
  | splice (before after : List Regex) {os inner os' : Operands} :
      os.toList = before ++ .alt inner :: after → os'.toList = before ++ inner.toList ++ after →
      Rearranged (.alt os) (.alt os')
  | drop (before after : List Regex) {os : Operands} {r : Regex} :
      os.toList = before ++ r :: after → r ∈ before ++ after →
      Rearranged (.alt os) (Operator.alt.join (before ++ after))

variable {r s : Regex}

theorem Rearranged.alike (h : Rearranged r s) : r.Alike s := by
  cases h with
  | permute hperm => exact Operator.Alike.node (Operator.alike_alt_of_mem_iff fun _ => hperm.mem_iff)
  | @splice before after os inner os' hos hos' =>
      have halike : Operator.alt.Alike os.toList os'.toList := by
        rw [hos, hos']
        exact Operator.alike_alt_splice before after inner
      exact halike.node
  | @drop before after os r hos hmem =>
      have halike : Operator.alt.Alike os.toList (before ++ after) := by
        refine Operator.alike_alt_of_mem_iff fun s => ?_
        rw [hos, List.perm_middle.mem_iff, List.mem_cons]
        exact or_iff_right_of_imp fun hs => hs ▸ hmem
      exact halike.join (Operands.others_ne_nil hos)

/-- Rearranging one alternation anywhere in an expression does not change the deterministic automaton that the
expression is compiled to. -/
theorem determinize_rearranged (r s : Regex) (h : Rewrites Rearranged r s)
    (hr : ∀ e, r.compile ≠ .error (.exhausted e)) (hs : ∀ e, s.compile ≠ .error (.exhausted e)) :
    ∃ A B dA dB, r.compile = .ok A ∧ s.compile = .ok B ∧ A.determinize = .ok dA ∧ B.determinize = .ok dB ∧
      dA.dfa = dB.dfa :=
  (h.alike fun _ _ => Rearranged.alike).compile_eq hr hs

/-- A symbol given twice, inside a repetition, beside a nullable operand and before the same symbol once more. -/
theorem determinize_rearranged_duplicate :
    let others : List Regex := [.star (.lit "b"), .cat (.pair (.lit "") .epsilon), .lit "a"]
    let r : Regex := .star (.cat (.pair (Operator.alt.join (.lit "a" :: others)) (.lit "a")))
    let s : Regex := .star (.cat (.pair (Operator.alt.join others) (.lit "a")))
    Rewrites Rearranged r s ∧ (∀ e, r.compile ≠ .error (.exhausted e)) ∧ (∀ e, s.compile ≠ .error (.exhausted e)) ∧
      ∃ A B dA dB, r.compile = .ok A ∧ s.compile = .ok B ∧ A.determinize = .ok dA ∧ B.determinize = .ok dB ∧
        dA.dfa = dB.dfa := by
  intro others r s
  have hdrop : Rearranged (Operator.alt.join (.lit "a" :: others)) (Operator.alt.join others) :=
    .drop [] others rfl (by decide)
  have h : Rewrites Rearranged r s := .star (.operand .cat [] [.lit "a"] rfl rfl (.here hdrop))
  have hr : ∀ e, r.compile ≠ .error (.exhausted e) := compile_ne_exhausted (by decide)
  have hs : ∀ e, s.compile ≠ .error (.exhausted e) := compile_ne_exhausted (by decide)
  exact ⟨h, hr, hs, determinize_rearranged r s h hr hs⟩

end Regex

end Automata
