/-
# Batches of pairs

Whether the pairs of a list can be added one after the other to the empty correspondence is a question about the set of
pairs alone: no left name may come with two right names and no right name with two left names (`Bijection.Matching`).
In which order the pairs come, and how often, does not matter, neither for the answer nor for the correspondence that they
lead to (`Bijection.insertAll_permuted`).

For what has been added so far is all that a pair is checked against.  Where no pair was refused, the correspondence
pairs what has been added and nothing else (`OneToOne.insertAll`), and it is one-to-one, so a clash with it is a clash
between two pairs of the list.
-/
import Automata.Proofs.Bijection.Runs
import Mathlib.Data.List.Dedup

namespace Automata.Bijection

section

variable {α β : Type} {ps qs : List (α × β)}

/-- No left name has two right names, and no right name has two left names. -/
def Matching (ps : List (α × β)) : Prop := ∀ p ∈ ps, ∀ q ∈ ps, p.1 = q.1 ↔ p.2 = q.2

instance [DecidableEq α] [DecidableEq β] (ps : List (α × β)) : Decidable (Matching ps) :=
  inferInstanceAs (Decidable (∀ p ∈ ps, ∀ q ∈ ps, p.1 = q.1 ↔ p.2 = q.2))

theorem Matching.mono (h : Matching qs) (hsub : ∀ p ∈ ps, p ∈ qs) : Matching ps :=
  fun p hp q hq => h p (hsub p hp) q (hsub q hq)

end

/-! ## The pairs of a correspondence -/

section

variable {α β : Type} [Ord α] [Ord β] [Std.TransOrd α] {b b' : Bijection α β} {l : α} {r : β} {ps : List (α × β)}

theorem pairs_empty : (empty : Bijection α β).pairs = [] := by
  simp [pairs, empty]

theorem size_eq_length_dedup [DecidableEq α] [DecidableEq β] (hpairs : ∀ p, p ∈ b.pairs ↔ p ∈ ps) :
    b.size = ps.dedup.length := by
  rw [← b.length_pairs]
  refine List.Perm.length_eq ((List.perm_ext_iff_of_nodup b.nodup_pairs ps.nodup_dedup).2 ?_)
  intro p
  rw [hpairs, List.mem_dedup]

variable [Std.TransOrd β] [Std.LawfulEqOrd α]

theorem OneToOne.mem_pairs_iff_preimage (h : b.OneToOne) : (l, r) ∈ b.pairs ↔ b.preimage r = some l :=
  mem_pairs_iff.trans (h l r)

theorem OneToOne.matching (h : b.OneToOne) : Matching b.pairs := by
  rintro ⟨l, r⟩ hp ⟨l', r'⟩ hq
  constructor
  · rintro (rfl : l = l')
    exact Option.some.inj ((mem_pairs_iff.1 hp).symm.trans (mem_pairs_iff.1 hq))
  · rintro (rfl : r = r')
    exact Option.some.inj ((h.mem_pairs_iff_preimage.1 hp).symm.trans (h.mem_pairs_iff_preimage.1 hq))

theorem OneToOne.answers_eq (h : b.OneToOne) (h' : b'.OneToOne) (hpairs : ∀ p, p ∈ b.pairs ↔ p ∈ b'.pairs) :
    (∀ l, b.image l = b'.image l) ∧ ∀ r, b.preimage r = b'.preimage r := by
  constructor
  · intro l
    refine Option.ext fun r => ?_
    rw [← mem_pairs_iff, ← mem_pairs_iff, hpairs]
  · intro r
    refine Option.ext fun l => ?_
    rw [← h.mem_pairs_iff_preimage, ← h'.mem_pairs_iff_preimage, hpairs]

end

variable {α β : Type} [Ord α] [Ord β] [Std.TransOrd α] [Std.TransOrd β] [DecidableEq α] [DecidableEq β]
  {b b' : Bijection α β} {l : α} {r : β} {ps : List (α × β)}

/-! ## Inverting a run -/

theorem insertAll_cons_eq_ok_iff {news : List Bool} : b.insertAll ((l, r) :: ps) = .ok (news, b') ↔
    ∃ isNew b₁ rest, b.insert l r = .ok (isNew, b₁) ∧ b₁.insertAll ps = .ok (rest, b') ∧ isNew :: rest = news := by
  rw [insertAll]
  cases b.insert l r with
  | error e => simp
  | ok answer =>
      obtain ⟨isNew, b₁⟩ := answer
      cases hrest : b₁.insertAll ps with
      | error e => simp [hrest]
      | ok answers => simp [hrest, Prod.ext_iff, and_comm]

variable [Std.LawfulEqOrd α] [Std.LawfulEqOrd β]

/-! ## One pair -/

theorem OneToOne.insert (h : b.OneToOne) {isNew : Bool} (hok : b.insert l r = .ok (isNew, b')) :
    b'.OneToOne ∧ ∀ p, p ∈ b'.pairs ↔ p = (l, r) ∨ p ∈ b.pairs := by
  rw [insert_eq_ok_iff] at hok
  have hone : b'.OneToOne := by
    have hattempt := h.attempt l r
    rwa [hok] at hattempt
  refine ⟨hone, ?_⟩
  rintro ⟨l', r'⟩
  rw [mem_pairs_iff, mem_pairs_iff, Prod.mk.injEq]
  obtain ⟨-, -, b₁, he, himage, -⟩ | ⟨hl, -, he⟩ | ⟨old, -, -, he⟩ | ⟨old, -, -, -, he⟩ := attempt_cases h l r
  · obtain rfl : b₁ = b' := congrArg Prod.snd (he.symm.trans hok)
    exact himage l' r'
  · obtain rfl : b = b' := congrArg Prod.snd (he.symm.trans hok)
    refine ⟨Or.inr, ?_⟩
    rintro (⟨rfl, rfl⟩ | h)
    · exact hl
    · exact h
  · cases he.symm.trans hok
  · cases he.symm.trans hok

theorem OneToOne.exists_insert (h : b.OneToOne) (hmatch : Matching ((l, r) :: b.pairs)) :
    ∃ isNew b', b.insert l r = .ok (isNew, b') := by
  obtain ⟨-, -, b', he, -⟩ | ⟨-, -, he⟩ | ⟨old, hl, hne, -⟩ | ⟨old, -, hr, hne, -⟩ := attempt_cases h l r
  · exact ⟨true, b', insert_eq_ok_iff.2 he⟩
  · exact ⟨false, b, insert_eq_ok_iff.2 he⟩
  · have hold : (l, old) ∈ b.pairs := mem_pairs_iff.2 hl
    exact absurd ((hmatch _ (List.mem_cons_of_mem _ hold) _ List.mem_cons_self).1 rfl) hne
  · have hold : (old, r) ∈ b.pairs := h.mem_pairs_iff_preimage.2 hr
    exact absurd ((hmatch _ (List.mem_cons_of_mem _ hold) _ List.mem_cons_self).2 rfl) hne

/-! ## One pair after the other -/

/-- Where no pair is refused, the pairs of the list join those there are. -/
theorem OneToOne.insertAll (h : b.OneToOne) {news : List Bool} (hok : b.insertAll ps = .ok (news, b')) :
    b'.OneToOne ∧ ∀ p, p ∈ b'.pairs ↔ p ∈ ps ∨ p ∈ b.pairs := by
  induction ps generalizing b news with
  | nil =>
      cases hok
      exact ⟨h, fun p => by simp⟩
  | cons p ps ih =>
      obtain ⟨isNew, b₁, rest, hfirst, hrest, -⟩ := insertAll_cons_eq_ok_iff.1 hok
      obtain ⟨h₁, hpairs₁⟩ := h.insert hfirst
      obtain ⟨h', hpairs'⟩ := ih h₁ hrest
      refine ⟨h', fun q => ?_⟩
      rw [hpairs', hpairs₁, List.mem_cons, or_left_comm, or_assoc]

/-- No pair is refused if all of them match one another and the pairs there are. -/
theorem OneToOne.exists_insertAll (h : b.OneToOne) (hmatch : Matching (ps ++ b.pairs)) :
    ∃ news b', b.insertAll ps = .ok (news, b') := by
  induction ps generalizing b with
  | nil => exact ⟨[], b, rfl⟩
  | cons p ps ih =>
      obtain ⟨l, r⟩ := p
      have hsub : ∀ q ∈ (l, r) :: b.pairs, q ∈ (l, r) :: ps ++ b.pairs := by
        intro q hq
        rcases List.mem_cons.1 hq with rfl | hq
        · exact List.mem_cons_self
        · exact List.mem_append_right _ hq
      obtain ⟨isNew, b₁, hfirst⟩ := h.exists_insert (hmatch.mono hsub)
      obtain ⟨h₁, hpairs₁⟩ := h.insert hfirst
      have hsub₁ : ∀ q ∈ ps ++ b₁.pairs, q ∈ (l, r) :: ps ++ b.pairs := by
        intro q hq
        rw [List.mem_append, hpairs₁] at hq
        rw [List.cons_append, List.mem_cons, List.mem_append]
        exact or_left_comm.1 hq
      obtain ⟨news, b', hrest⟩ := ih h₁ (hmatch.mono hsub₁)
      exact ⟨isNew :: news, b', insertAll_cons_eq_ok_iff.2 ⟨isNew, b₁, news, hfirst, hrest, rfl⟩⟩

/-! ## Batches -/

theorem insertAll_empty {news : List Bool} (hok : empty.insertAll ps = .ok (news, b)) :
    b.OneToOne ∧ Matching ps ∧ ∀ p, p ∈ b.pairs ↔ p ∈ ps := by
  obtain ⟨h, hpairs⟩ := oneToOne_empty.insertAll hok
  have hpairs : ∀ p, p ∈ b.pairs ↔ p ∈ ps := fun p => by
    rw [hpairs, pairs_empty, or_iff_left List.not_mem_nil]
  exact ⟨h, h.matching.mono fun p hp => (hpairs p).2 hp, hpairs⟩

theorem exists_insertAll_empty (hmatch : Matching ps) :
    ∃ news b, (empty : Bijection α β).insertAll ps = .ok (news, b) := by
  refine oneToOne_empty.exists_insertAll ?_
  rwa [pairs_empty, List.append_nil]

/-- The pairs of a list can all be added to the empty correspondence if and only if no left name has two right names
among them and no right name two left names.  The correspondence then has the size of the list without repeats, and the
same pairs in any other order can all be added too and lead to a correspondence with the same right name for each left
name, the same left name for each right name and the same size. -/
theorem insertAll_permuted (ps : List (α × β)) :
    ((∃ news b, (empty : Bijection α β).insertAll ps = .ok (news, b)) ↔ Matching ps) ∧
      ∀ news b, (empty : Bijection α β).insertAll ps = .ok (news, b) → b.size = ps.dedup.length ∧
        ∀ qs : List (α × β), qs.Perm ps → ∃ news' b', (empty : Bijection α β).insertAll qs = .ok (news', b') ∧
          (∀ l, b'.image l = b.image l) ∧ (∀ r, b'.preimage r = b.preimage r) ∧ b'.size = b.size := by
  refine ⟨⟨?_, exists_insertAll_empty⟩, ?_⟩
  · rintro ⟨news, b, hok⟩
    exact (insertAll_empty hok).2.1
  · intro news b hok
    obtain ⟨h, hmatch, hpairs⟩ := insertAll_empty hok
    have hsize := size_eq_length_dedup hpairs
    refine ⟨hsize, fun qs hperm => ?_⟩
    obtain ⟨news', b', hok'⟩ := exists_insertAll_empty (hmatch.mono fun p => hperm.mem_iff.1)
    obtain ⟨h', -, hpairs'⟩ := insertAll_empty hok'
    have hpairs' : ∀ p, p ∈ b'.pairs ↔ p ∈ ps := fun p => (hpairs' p).trans hperm.mem_iff
    obtain ⟨himage, hpreimage⟩ := h'.answers_eq h fun p => (hpairs' p).trans (hpairs p).symm
    exact ⟨news', b', hok', himage, hpreimage, (size_eq_length_dedup hpairs').trans hsize.symm⟩

/-- A pair that comes twice, beside a number and a text that looks like it: all can be added from last to first, but not
with one more left name for a right name that is taken. -/
theorem insertAll_permuted_reverse :
    let ps : List (Name × Name) :=
      [(.text "a", .number 1), (.text "1", .text "a"), (.text "a", .number 1), (.number 1, .text "1")]
    (¬ ∃ news b, (empty : Bijection Name Name).insertAll (ps ++ [(.text "b", .number 1)]) = .ok (news, b)) ∧
      ∃ news b news' b', (empty : Bijection Name Name).insertAll ps = .ok (news, b) ∧
        (empty : Bijection Name Name).insertAll ps.reverse = .ok (news', b') ∧ b'.size = 3 ∧
          ∀ l, b'.image l = b.image l := by
  intro ps
  obtain ⟨hiff, horder⟩ := insertAll_permuted ps
  obtain ⟨news, b, hok⟩ := hiff.2 (by decide)
  obtain ⟨hsize, hreverse⟩ := horder news b hok
  obtain ⟨news', b', hok', himage, -, hsize'⟩ := hreverse ps.reverse ps.reverse_perm
  refine ⟨mt (insertAll_permuted _).1.1 (by decide), news, b, news', b', hok, hok', ?_, himage⟩
  rw [hsize', hsize]
  decide

end Automata.Bijection
