/-
# Leaving out redundant parts

The empty word as an operand, and a repetition of a repetition, add states and epsilon edges to the automaton of an
expression.  Where the language does not need them, the leaves at which words end do not either, for no word ends at
the empty word: a concatenation is alike to the one without it (`Operator.alike_cat_dropEpsilon`), an alternation to
the one without it when another operand stands for the empty word or when the alternation is repeated, and a
repetition to the repetition of itself.  The extra states come into some of the sets that stand behind the states of
the deterministic automaton and not into others, but they never tell two sets apart or make two sets one
(`Regex.determinize_simplified`).
-/
import Automata.Proofs.Regex.Rewriting
import Automata.Proofs.Thompson.Leaves

namespace Automata

/-! ## Repetitions -/

section Repeated

variable {L M X : List String → Prop} {u v w : List String}

theorem Repeated.single (h : L w) : Repeated L w := List.append_nil w ▸ .append h .nil

theorem Repeated.trans (hu : Repeated L u) (hv : Repeated L v) : Repeated L (u ++ v) := by
  induction hu with
  | nil => exact hv
  | append h _ ih =>
      rw [List.append_assoc]
      exact .append h ih

theorem Repeated.flatten (hL : ∀ u, L u → Repeated M u) (h : Repeated L w) : Repeated M w := by
  induction h with
  | nil => exact .nil
  | append h _ ih => exact (hL _ h).trans ih

theorem repeated_eq (hL : ∀ u, L u → Repeated M u) (hM : ∀ u, M u → Repeated L u) : Repeated L = Repeated M :=
  funext fun _ => propext ⟨Repeated.flatten hL, Repeated.flatten hM⟩

theorem repeated_repeated (L : List String → Prop) : Repeated (Repeated L) = Repeated L :=
  repeated_eq (fun _ h => h) fun _ h => .single (.single h)

theorem after_after_repeated (L X : List String → Prop) :
    After (Repeated L) (After (Repeated L) X) = After (Repeated L) X := by
  funext v
  refine propext ⟨?_, ?_⟩
  · rintro ⟨u, hu, u', hu', hX⟩
    exact ⟨u' ++ u, hu'.trans hu, by rwa [List.append_assoc]⟩
  · rintro ⟨u, hu, hX⟩
    exact ⟨[], .nil, u, hu, hX⟩

end Repeated

/-! ## Operands that can be left out -/

namespace Operator

theorem alike_cat_dropEpsilon (before after : List Regex) :
    Operator.cat.Alike (before ++ .epsilon :: after) (before ++ after) := by
  refine alike_cat_append before ⟨?_, ?_⟩
  · funext w
    simp [Denotes, Regex.Denotes]
  · funext X Y
    simp only [SameLeaves, Regex.SameLeaves, Regex.Denotes, after_nil, true_and]

theorem sameLeaves_alt_dropEpsilon (before after : List Regex) :
    Operator.alt.SameLeaves (before ++ .epsilon :: after) = Operator.alt.SameLeaves (before ++ after) := by
  funext X Y
  simp [SameLeaves, or_imp, forall_and, Regex.SameLeaves]

theorem denotes_alt_epsilon_iff {before after : List Regex} {w : List String} :
    Operator.alt.Denotes (before ++ .epsilon :: after) w ↔ w = [] ∨ Operator.alt.Denotes (before ++ after) w := by
  simp [Denotes, or_and_right, exists_or, Regex.Denotes, or_left_comm]

theorem alike_alt_dropEpsilon {before after : List Regex} {r : Regex} (hr : r ∈ before ++ after) (h : r.Denotes []) :
    Operator.alt.Alike (before ++ .epsilon :: after) (before ++ after) where
  denotes := by
    funext w
    rw [denotes_alt_epsilon_iff]
    refine propext (or_iff_right_of_imp ?_)
    rintro rfl
    rw [Denotes]
    exact ⟨r, hr, h⟩
  sameLeaves := sameLeaves_alt_dropEpsilon before after

end Operator

namespace Regex

theorem alike_star_star (r : Regex) : (Regex.star (.star r)).Alike (.star r) where
  denotes := by rw [Denotes, Denotes, repeated_repeated]
  sameLeaves := by
    funext X Y
    simp only [SameLeaves, Denotes, repeated_repeated, after_after_repeated]

/-- Repetitions are alike if their operands have the same leaves and each word of the one is a repetition of words of
the other. -/
theorem alike_star {r s : Regex} (hrs : ∀ w, r.Denotes w → Repeated s.Denotes w)
    (hsr : ∀ w, s.Denotes w → Repeated r.Denotes w) (hleaves : r.SameLeaves = s.SameLeaves) :
    (Regex.star r).Alike (.star s) where
  denotes := by rw [Denotes, Denotes, repeated_eq hrs hsr]
  sameLeaves := by
    funext X Y
    rw [SameLeaves, SameLeaves, repeated_eq hrs hsr, hleaves]

/-- A concatenation without an operand that is the empty word, a repetition for a repetition of it, a repetition of an
alternation without the empty word for one with it, and an alternation without the empty word if another operand stands
for it too. -/
inductive Simplified : Regex → Regex → Prop where
  | cat (before after : List Regex) {os : Operands} : os.toList = before ++ .epsilon :: after →
      Simplified (.cat os) (Operator.cat.join (before ++ after))
  | star (r : Regex) : Simplified (.star (.star r)) (.star r)
  | starAlt (before after : List Regex) {os : Operands} : os.toList = before ++ .epsilon :: after →
      Simplified (.star (.alt os)) (.star (Operator.alt.join (before ++ after)))
  | alt (before after : List Regex) {os : Operands} {r : Regex} : os.toList = before ++ .epsilon :: after →
      r ∈ before ++ after → r.Denotes [] → Simplified (.alt os) (Operator.alt.join (before ++ after))

variable {r s : Regex}

theorem Simplified.alike (h : Simplified r s) : r.Alike s := by
  cases h with
  | @cat before after os hos =>
      have halike : Operator.cat.Alike os.toList (before ++ after) :=
        hos ▸ Operator.alike_cat_dropEpsilon before after
      exact halike.join (Operands.others_ne_nil hos)
  | star r => exact alike_star_star r
  | @starAlt before after os hos =>
      have hne := Operands.others_ne_nil hos
      have hos' : (Regex.alt os).Denotes = Operator.alt.Denotes (before ++ .epsilon :: after) :=
        hos ▸ Operator.denotes_node .alt os
      have hleaves : (Regex.alt os).SameLeaves = Operator.alt.SameLeaves (before ++ .epsilon :: after) :=
        hos ▸ Operator.sameLeaves_node .alt os
      refine alike_star ?_ ?_ ?_
      · intro w hw
        rw [hos', Operator.denotes_alt_epsilon_iff] at hw
        rw [Operator.denotes_join .alt hne]
        rcases hw with rfl | hw
        · exact .nil
        · exact .single hw
      · intro w hw
        rw [Operator.denotes_join .alt hne] at hw
        exact .single (hos' ▸ Operator.denotes_alt_epsilon_iff.2 (Or.inr hw))
      · rw [hleaves, Operator.sameLeaves_join .alt hne, Operator.sameLeaves_alt_dropEpsilon]
  | @alt before after os r hos hr h =>
      have halike : Operator.alt.Alike os.toList (before ++ after) :=
        hos ▸ Operator.alike_alt_dropEpsilon hr h
      exact halike.join (Operands.others_ne_nil hos)

/-- Leaving out a redundant part anywhere in an expression does not change the deterministic automaton that the
expression is compiled to. -/
theorem determinize_simplified (r s : Regex) (h : Rewrites Simplified r s)
    (hr : ∀ e, r.compile ≠ .error (.exhausted e)) (hs : ∀ e, s.compile ≠ .error (.exhausted e)) :
    ∃ A B dA dB, r.compile = .ok A ∧ s.compile = .ok B ∧ A.determinize = .ok dA ∧ B.determinize = .ok dB ∧
      dA.dfa = dB.dfa :=
  (h.alike fun _ _ => Simplified.alike).compile_eq hr hs

/-- The empty word beside a repetition, in front of the symbol that is repeated and in a repetition of both. -/
theorem determinize_simplified_nullable :
    let others : List Regex := [.cat (.pair (.lit "a") (.lit "")), .star (.lit "a")]
    let r : Regex := .star (.cat (.pair (Operator.alt.join (.epsilon :: others)) (.lit "a")))
    let s : Regex := .star (.cat (.pair (Operator.alt.join others) (.lit "a")))
    Rewrites Simplified r s ∧ (∀ e, r.compile ≠ .error (.exhausted e)) ∧ (∀ e, s.compile ≠ .error (.exhausted e)) ∧
      ∃ A B dA dB, r.compile = .ok A ∧ s.compile = .ok B ∧ A.determinize = .ok dA ∧ B.determinize = .ok dB ∧
        dA.dfa = dB.dfa := by
  intro others r s
  have hdrop : Simplified (Operator.alt.join (.epsilon :: others)) (Operator.alt.join others) :=
    .alt [] others (r := .star (.lit "a")) rfl (by decide) .nil
  have h : Rewrites Simplified r s := .star (.operand .cat [] [.lit "a"] rfl rfl (.here hdrop))
  have hr : ∀ e, r.compile ≠ .error (.exhausted e) := compile_ne_exhausted (by decide)
  have hs : ∀ e, s.compile ≠ .error (.exhausted e) := compile_ne_exhausted (by decide)
  exact ⟨h, hr, hs, determinize_simplified r s h hr hs⟩

end Regex

end Automata
