/-
# Filling a correspondence

What adding a pair comes to depends on what its two names are found to be paired with; one lemma for each case
follows `Bijection.record` through.  A pair that is not new leaves the correspondence as it was.

Pairs whose names are all new, and of which no two share a name, can be added one after the other, and the
correspondence then pairs what it paired before and these (`Bijection.insertAll_of_fresh`).
-/
import Automata.Bijection

namespace Automata.Bijection

variable {α β : Type} [Ord α] [Ord β] [Std.TransOrd α] [Std.TransOrd β] [DecidableEq α] [DecidableEq β]
  {b b' : Bijection α β} {l : α} {r : β}

/-! ## One pair -/

theorem attempt_of_new (hl : b.image l = none) (hr : b.preimage r = none) :
    b.attempt l r = (.ok true, ⟨b.forward.insert l r, b.backward.insert r l⟩) := by
  simp only [attempt, record, EStateM.run_bind, EStateM.run_get, hl, hr]
  rfl

theorem attempt_of_known (hl : b.image l = some r) (hr : b.preimage r = some l) :
    b.attempt l r = (.ok false, b) := by
  simp only [attempt, record, EStateM.run_bind, EStateM.run_get, hl, hr, and_self, if_true]
  rfl

theorem attempt_of_left_taken {old : β} (hl : b.image l = some old) (hne : old ≠ r) :
    b.attempt l r = (.error (.right l old r), b) := by
  simp only [attempt, record, EStateM.run_bind, EStateM.run_get, hl]
  cases hr : b.preimage r with
  | none => rfl
  | some oldLeft =>
      simp only [hne, false_and, if_false]
      rfl

theorem attempt_of_right_taken {old : α} (hl : b.image l = none) (hr : b.preimage r = some old) :
    b.attempt l r = (.error (.left old l r), b) := by
  simp only [attempt, record, EStateM.run_bind, EStateM.run_get, hl, hr]
  rfl

theorem insert_eq_ok_iff {isNew : Bool} : b.insert l r = .ok (isNew, b') ↔ b.attempt l r = (.ok isNew, b') := by
  rw [insert]
  obtain ⟨answer, after⟩ := b.attempt l r
  cases answer <;> simp [Prod.ext_iff]

variable [Std.LawfulEqOrd α] [Std.LawfulEqOrd β]

theorem insert_of_fresh (hl : b.image l = none) (hr : b.preimage r = none) :
    ∃ b', b.insert l r = .ok (true, b') ∧
      (∀ l' r', b'.image l' = some r' ↔ l' = l ∧ r' = r ∨ b.image l' = some r') ∧
      (∀ l' r', b'.preimage r' = some l' ↔ l' = l ∧ r' = r ∨ b.preimage r' = some l') := by
  refine ⟨⟨b.forward.insert l r, b.backward.insert r l⟩, insert_eq_ok_iff.2 (attempt_of_new hl hr), ?_, ?_⟩
  · intro l' r'
    simp only [image] at hl ⊢
    rw [Std.ExtTreeMap.getElem?_insert]
    by_cases h : l = l'
    · subst h
      simp [hl, eq_comm]
    · simp [h, Ne.symm h]
  · intro l' r'
    simp only [preimage] at hr ⊢
    rw [Std.ExtTreeMap.getElem?_insert]
    by_cases h : r = r'
    · subst h
      simp [hr, eq_comm]
    · simp [h, Ne.symm h]

/-! ## One pair after the other -/

/-- Pairs of new names, no two of which share a name, can all be added. -/
theorem insertAll_of_fresh {ps : List (α × β)} (hfst : (ps.map Prod.fst).Nodup)
    (hsnd : (ps.map Prod.snd).Nodup) (hfresh : ∀ p ∈ ps, b.image p.1 = none ∧ b.preimage p.2 = none) :
    ∃ b', b.insertAll ps = .ok (ps.map fun _ => true, b') ∧
      (∀ l r, b'.image l = some r ↔ (l, r) ∈ ps ∨ b.image l = some r) ∧
      (∀ l r, b'.preimage r = some l ↔ (l, r) ∈ ps ∨ b.preimage r = some l) := by
  induction ps generalizing b with
  | nil => exact ⟨b, rfl, by simp, by simp⟩
  | cons p ps ih =>
      obtain ⟨l, r⟩ := p
      rw [List.map_cons, List.nodup_cons] at hfst hsnd
      obtain ⟨hl, hr⟩ := hfresh (l, r) List.mem_cons_self
      obtain ⟨b₁, hinsert, himage, hpreimage⟩ := insert_of_fresh hl hr
      have hfresh₁ : ∀ p ∈ ps, b₁.image p.1 = none ∧ b₁.preimage p.2 = none := by
        intro p hp
        obtain ⟨hl', hr'⟩ := hfresh p (List.mem_cons_of_mem _ hp)
        have hlne : p.1 ≠ l := fun h => hfst.1 (List.mem_map.2 ⟨p, hp, h⟩)
        have hrne : p.2 ≠ r := fun h => hsnd.1 (List.mem_map.2 ⟨p, hp, h⟩)
        constructor
        · refine Option.eq_none_iff_forall_ne_some.2 ?_
          intro r' h
          rcases (himage _ _).1 h with h | h
          · exact hlne h.1
          · rw [hl'] at h
            cases h
        · refine Option.eq_none_iff_forall_ne_some.2 ?_
          intro l' h
          rcases (hpreimage _ _).1 h with h | h
          · exact hrne h.2
          · rw [hr'] at h
            cases h
      obtain ⟨b', hall, himage', hpreimage'⟩ := ih hfst.2 hsnd.2 hfresh₁
      refine ⟨b', by simp only [insertAll, hinsert, hall, List.map_cons], ?_, ?_⟩
      · intro l' r'
        rw [himage', himage, List.mem_cons, Prod.mk.injEq, or_left_comm, or_assoc]
      · intro l' r'
        rw [hpreimage', hpreimage, List.mem_cons, Prod.mk.injEq, or_left_comm, or_assoc]

end Automata.Bijection
