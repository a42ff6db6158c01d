/-
# Runs of insertions

A correspondence that is filled by one insertion after the other, some of which are refused, stays one-to-one
(`Bijection.OneToOne`): a name is the right name of another if and only if that is its left name.  What an insertion
answers can then be told from the pairs there are (`Bijection.Lawful`).

That a clash reports another partner than the one asked for rests on the two dictionaries being inverse to each
other.  Were a left name paired with a right name, and that one with a third name, then asking for the first two again
would be refused in favour of the very pair that was asked for.
-/
import Automata.Proofs.Bijection
import Automata.Bijection.Name
import Mathlib.Data.List.Nodup

namespace Automata.Bijection

/-! ## The pairs of a correspondence -/

section

variable {α β : Type} [Ord α] [Ord β] [Std.TransOrd α] {b : Bijection α β} {l : α} {r : β}

theorem mem_pairs_iff [Std.LawfulEqOrd α] : (l, r) ∈ b.pairs ↔ b.image l = some r :=
  Std.ExtTreeMap.mem_toList_iff_getElem?_eq_some

theorem nodup_map_fst_pairs (b : Bijection α β) : (b.pairs.map Prod.fst).Nodup := by
  rw [pairs, Std.ExtTreeMap.map_fst_toList_eq_keys]
  exact Std.ExtTreeMap.nodup_keys

theorem nodup_pairs (b : Bijection α β) : b.pairs.Nodup :=
  List.Nodup.of_map _ b.nodup_map_fst_pairs

theorem length_pairs (b : Bijection α β) : b.pairs.length = b.size :=
  Std.ExtTreeMap.length_toList

variable [Std.TransOrd β]

/-- The two dictionaries are inverse to each other. -/
def OneToOne (b : Bijection α β) : Prop :=
  ∀ l r, b.image l = some r ↔ b.preimage r = some l

/-- What can be asked of a correspondence describes the same pairs from every side. -/
structure Consistent (b : Bijection α β) : Prop where
  image_iff (l : α) (r : β) : b.image l = some r ↔ b.preimage r = some l
  /-- Exactly the pairs are listed. -/
  mem_pairs (l : α) (r : β) : (l, r) ∈ b.pairs ↔ b.image l = some r
  /-- No pair is listed twice. -/
  nodup : b.pairs.Nodup
  /-- The size is the number of pairs. -/
  size_eq : b.size = b.pairs.length

theorem OneToOne.consistent [Std.LawfulEqOrd α] (h : b.OneToOne) : b.Consistent where
  image_iff := h
  mem_pairs _ _ := mem_pairs_iff
  nodup := b.nodup_pairs
  size_eq := b.length_pairs.symm

theorem oneToOne_empty : (empty : Bijection α β).OneToOne := by
  intro l r
  simp [image, preimage, empty]

end

variable {α β : Type} [Ord α] [Ord β] [Std.TransOrd α] [Std.TransOrd β] [DecidableEq α] [DecidableEq β]

/-! ## One insertion -/

/-- What the insertion of `l` and `r` answers and leaves behind, told from the pairs there are before. -/
structure Lawful (b : Bijection α β) (l : α) (r : β) (answer : Except (Clash α β) Bool) (after : Bijection α β) :
    Prop where
  /-- The pair is new if and only if both of its names are. -/
  new_iff : answer = .ok true ↔ b.image l = none ∧ b.preimage r = none
  /-- A new pair joins the pairs there are. -/
  pairs_of_new : answer = .ok true → after.pairs.Perm ((l, r) :: b.pairs)
  /-- The pair is known if and only if it is one of the pairs there are. -/
  known_iff : answer = .ok false ↔ b.image l = some r
  /-- Nothing but a new pair changes the correspondence. -/
  unchanged : answer ≠ .ok true → after = b
  /-- The left name clashes if and only if it has another right name, whatever the right name given belongs to. -/
  right_iff (l' : α) (old new : β) :
    answer = .error (.right l' old new) ↔ l' = l ∧ new = r ∧ b.image l = some old ∧ old ≠ new
  /-- The right name clashes if and only if it has a left name and the left name given has no right name. -/
  left_iff (old new : α) (r' : β) :
    answer = .error (.left old new r') ↔ new = l ∧ r' = r ∧ b.image l = none ∧ b.preimage r = some old
  /-- The left name reported is another one than the left name given. -/
  left_ne (old new : α) (r' : β) : answer = .error (.left old new r') → old ≠ new

section

variable [Std.LawfulEqOrd α] [Std.LawfulEqOrd β] {b : Bijection α β}

/-- Everything an insertion can come to. -/
theorem attempt_cases (h : b.OneToOne) (l : α) (r : β) :
    (b.image l = none ∧ b.preimage r = none ∧ ∃ b', b.attempt l r = (.ok true, b') ∧
      (∀ l' r', b'.image l' = some r' ↔ l' = l ∧ r' = r ∨ b.image l' = some r') ∧
      (∀ l' r', b'.preimage r' = some l' ↔ l' = l ∧ r' = r ∨ b.preimage r' = some l')) ∨
    (b.image l = some r ∧ b.preimage r = some l ∧ b.attempt l r = (.ok false, b)) ∨
    (∃ old, b.image l = some old ∧ old ≠ r ∧ b.attempt l r = (.error (.right l old r), b)) ∨
    (∃ old, b.image l = none ∧ b.preimage r = some old ∧ old ≠ l ∧
      b.attempt l r = (.error (.left old l r), b)) := by
  cases hl : b.image l with
  | none =>
      cases hr : b.preimage r with
      | none =>
          obtain ⟨b', hinsert, hpairs⟩ := insert_of_fresh hl hr
          exact .inl ⟨rfl, rfl, b', insert_eq_ok_iff.1 hinsert, hpairs⟩
      | some old =>
          -- Were the left name the one that is reported, it would have a right name.
          have hne : old ≠ l := by
            rintro rfl
            rw [(h old r).2 hr] at hl
            cases hl
          exact .inr (.inr (.inr ⟨old, rfl, rfl, hne, attempt_of_right_taken hl hr⟩))
  | some old =>
      -- With the right name found, the other dictionary can only hold the left name.
      by_cases hold : old = r
      · subst hold
        have hr : b.preimage old = some l := (h l old).1 hl
        exact .inr (.inl ⟨rfl, hr, attempt_of_known hl hr⟩)
      · exact .inr (.inr (.inl ⟨old, rfl, hold, attempt_of_left_taken hl hold⟩))

theorem OneToOne.attempt (h : b.OneToOne) (l : α) (r : β) : (b.attempt l r).2.OneToOne := by
  obtain ⟨-, -, b', he, himage, hpreimage⟩ | ⟨-, -, he⟩ | ⟨old, -, -, he⟩ | ⟨old, -, -, -, he⟩ :=
    attempt_cases h l r
  · intro l' r'
    rw [he, himage, hpreimage, h l' r']
  all_goals
    rw [he]
    exact h

theorem OneToOne.lawful (h : b.OneToOne) (l : α) (r : β) :
    Lawful b l r (b.attempt l r).1 (b.attempt l r).2 := by
  obtain ⟨hl, hr, b', he, himage, -⟩ | ⟨hl, hr, he⟩ | ⟨old, hl, hne, he⟩ | ⟨old, hl, hr, hne, he⟩ :=
    attempt_cases h l r
  · have hfresh : (l, r) ∉ b.pairs := by
      rw [mem_pairs_iff, hl]
      exact Option.some_ne_none r |>.symm
    have hperm : b'.pairs.Perm ((l, r) :: b.pairs) := by
      refine (List.perm_ext_iff_of_nodup b'.nodup_pairs (List.nodup_cons.2 ⟨hfresh, b.nodup_pairs⟩)).2 ?_
      intro p
      rw [List.mem_cons, Prod.ext_iff, mem_pairs_iff, mem_pairs_iff, himage]
    simp only [he]
    constructor <;> simp [hl, hr, hperm]
  · simp only [he]
    constructor <;> simp [hl, hr]
  · simp only [he]
    constructor
    case known_iff => simp [hl, hne]
    case right_iff =>
        intro l' old' new
        simp only [hl, Except.error.injEq, Clash.right.injEq, Option.some.injEq]
        constructor
        · rintro ⟨rfl, rfl, rfl⟩
          exact ⟨rfl, rfl, rfl, hne⟩
        · rintro ⟨rfl, rfl, rfl, -⟩
          exact ⟨rfl, rfl, rfl⟩
    all_goals simp [hl]
  · simp only [he]
    constructor
    case left_iff =>
        intro old' new r'
        simp only [hl, hr, Except.error.injEq, Clash.left.injEq, Option.some.injEq, true_and]
        constructor
        · rintro ⟨rfl, rfl, rfl⟩
          exact ⟨rfl, rfl, rfl⟩
        · rintro ⟨rfl, rfl, rfl⟩
          exact ⟨rfl, rfl, rfl⟩
    case left_ne =>
        intro old' new r' heq
        cases heq
        exact hne
    all_goals simp [hl, hr]

/-! ## Runs -/

theorem OneToOne.attemptAll (h : b.OneToOne) (ps : List (α × β)) : (b.attemptAll ps).OneToOne := by
  induction ps generalizing b with
  | nil => exact h
  | cons p ps ih => exact ih (h.attempt p.1 p.2)

/-- However a correspondence has been filled from the empty one, all that can be asked of it agrees, and the next
insertion answers what its pairs demand and changes them only by a new pair. -/
theorem lawful_attemptAll (ps : List (α × β)) :
    (empty.attemptAll ps).Consistent ∧
      ∀ l r, Lawful (empty.attemptAll ps) l r ((empty.attemptAll ps).attempt l r).1
        ((empty.attemptAll ps).attempt l r).2 := by
  have h : (empty.attemptAll ps).OneToOne := oneToOne_empty.attemptAll ps
  exact ⟨h.consistent, h.lawful⟩

/-- Two pairs have been added and two have been refused; a third that takes a name from each of the first two is
refused for its left name. -/
theorem lawful_attemptAll_clashes :
    let b := (empty : Bijection Name Name).attemptAll
      [(.text "a", .number 1), (.text "b", .number 2), (.text "a", .number 3), (.text "c", .number 1)]
    b.pairs = [(.text "a", .number 1), (.text "b", .number 2)] ∧
      (b.attempt (.text "a") (.number 2)).1 = .error (.right (.text "a") (.number 1) (.number 2)) ∧
      (b.attempt (.text "a") (.number 2)).2 = b := by
  intro b
  obtain ⟨-, h⟩ := lawful_attemptAll
    [(Name.text "a", Name.number 1), (.text "b", .number 2), (.text "a", .number 3), (.text "c", .number 1)]
  have hclash : (b.attempt (.text "a") (.number 2)).1 = .error (.right (.text "a") (.number 1) (.number 2)) :=
    ((h (.text "a") (.number 2)).right_iff _ _ _).2 ⟨rfl, rfl, by decide, by decide⟩
  refine ⟨by decide, hclash, (h (.text "a") (.number 2)).unchanged ?_⟩
  rw [hclash]
  nofun

end

end Automata.Bijection
