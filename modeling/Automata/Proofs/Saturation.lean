/-
# What a saturation has seen

An element is *reached* from a queue past a set of known elements when some sequence of successor steps leads to it
from the queue without touching what is known, at its ends or in between (`Worklist.Reached`).  Whatever a
saturation was given to start with, once its queue is used up it has seen just what it started with and what is
reached from its queue past that (`Worklist.mem_seen_run`).

The invariant is `Worklist.Continues`: what the run has seen or queued was there before or is reached, and nothing
is lost, since an element that was expanded has all its successors among those seen or queued.  That the queue is
used up is a matter of counting.  If all that is reached comes from a finite list, each round takes one element of the
list from those not yet seen (`Worklist.run_eq_ok_of_reached`), and so it is where the queue lies in a list that the
successors do not leave (`Worklist.run_eq_ok`).  By the same count, an element in the queue that has no successors ends
the run when all that stands before it lies in such a list (`Worklist.run_eq_error`).
-/
import Automata.Worklist
import Mathlib.Data.List.TakeWhile

namespace Automata.Worklist

variable {α ε : Type} {cmp : α → α → Ordering} [Std.TransCmp cmp]
  {succ : α → Except ε (List α)} {known : α → Prop} {queue : List α} {w w' : Worklist α cmp} {a : α}

/-- Some sequence of successor steps leads from the queue to the element, past everything known. -/
inductive Reached (succ : α → Except ε (List α)) (known : α → Prop) (queue : List α) : α → Prop where
  | queued {a : α} : a ∈ queue → ¬ known a → Reached succ known queue a
  | successor {a b : α} {next : List α} : Reached succ known queue a → succ a = .ok next → b ∈ next →
      ¬ known b → Reached succ known queue b

theorem Reached.not_known (h : Reached succ known queue a) : ¬ known a := by
  cases h with
  | queued _ h => exact h
  | successor _ _ _ h => exact h

/-- The worklist `w'` comes from `w` by some rounds: it has lost nothing and holds nothing that `w` does not lead
to. -/
structure Continues (succ : α → Except ε (List α)) (w w' : Worklist α cmp) : Prop where
  seen : ∀ a ∈ w.seen, a ∈ w'.seen
  queued : ∀ a ∈ w.queue, a ∈ w'.seen ∨ a ∈ w'.queue
  expanded : ∀ a ∈ w'.seen, a ∈ w.seen ∨ ∃ next, succ a = .ok next ∧ ∀ b ∈ next, b ∈ w'.seen ∨ b ∈ w'.queue
  sound : ∀ a, a ∈ w'.seen ∨ a ∈ w'.queue → a ∈ w.seen ∨ Reached succ (· ∈ w.seen) w.queue a

/-! ## One round -/

theorem mem_unseen_or (w : Worklist α cmp) (h : a ∈ w.queue) : a ∈ w.seen ∨ a ∈ w.unseen := by
  rw [← List.takeWhile_append_dropWhile (p := w.seen.contains) (l := w.queue), List.mem_append] at h
  rcases h with h | h
  · exact Or.inl (Std.ExtTreeSet.contains_iff_mem.1 (List.mem_takeWhile_imp h))
  · exact Or.inr h

theorem mem_of_mem_unseen (h : a ∈ w.unseen) : a ∈ w.queue :=
  (List.dropWhile_sublist _).subset h

theorem not_mem_seen_of_unseen (h : w.unseen = a :: queue) : a ∉ w.seen := by
  have hne : w.unseen ≠ [] := h ▸ List.cons_ne_nil a queue
  have hhead := List.head_dropWhile_not w.seen.contains hne
  change w.seen.contains (w.unseen.head hne) = false at hhead
  simpa [h, ← Std.ExtTreeSet.contains_iff_mem] using hhead

theorem Continues.refl (w : Worklist α cmp) : Continues succ w w where
  seen := fun _ h => h
  queued := fun _ h => Or.inr h
  expanded := fun _ h => Or.inl h
  sound := by
    intro a h
    by_cases ha : a ∈ w.seen
    · exact Or.inl ha
    · exact Or.inr (.queued (h.resolve_left ha) ha)

theorem Continues.drop (h : Continues succ w w') : Continues succ w ⟨w'.seen, w'.unseen⟩ where
  seen := h.seen
  queued := by
    intro a ha
    rcases h.queued a ha with hs | hq
    · exact Or.inl hs
    · exact w'.mem_unseen_or hq
  expanded := by
    intro a ha
    rcases h.expanded a ha with hw | ⟨next, hnext, hall⟩
    · exact Or.inl hw
    · refine Or.inr ⟨next, hnext, ?_⟩
      intro b hb
      rcases hall b hb with hs | hq
      · exact Or.inl hs
      · exact w'.mem_unseen_or hq
  sound := by
    intro a ha
    exact h.sound a (ha.imp_right mem_of_mem_unseen)

variable [Std.LawfulEqCmp cmp]

theorem mem_insert_iff {set : Std.ExtTreeSet α cmp} {b : α} : b ∈ set.insert a ↔ a = b ∨ b ∈ set := by
  simp [Std.ExtTreeSet.mem_insert]

theorem seen_or_queued_expand {seen : Std.ExtTreeSet α cmp} {next : List α} {b : α}
    (h : b ∈ seen ∨ b ∈ a :: queue) : b ∈ seen.insert a ∨ b ∈ queue ++ next := by
  rcases h with hs | hq
  · exact Or.inl (mem_insert_iff.2 (Or.inr hs))
  · rcases List.mem_cons.1 hq with rfl | hq
    · exact Or.inl (mem_insert_iff.2 (Or.inl rfl))
    · exact Or.inr (List.mem_append_left _ hq)

theorem Continues.expand {seen : Std.ExtTreeSet α cmp} {next : List α}
    (h : Continues succ w ⟨seen, a :: queue⟩) (ha : a ∉ seen) (hnext : succ a = .ok next) :
    Continues succ w ⟨seen.insert a, queue ++ next⟩ where
  seen := by
    intro b hb
    exact mem_insert_iff.2 (Or.inr (h.seen b hb))
  queued := by
    intro b hb
    exact seen_or_queued_expand (h.queued b hb)
  expanded := by
    intro b hb
    rcases mem_insert_iff.1 hb with rfl | hb
    · refine Or.inr ⟨next, hnext, ?_⟩
      intro c hc
      exact Or.inr (List.mem_append_right _ hc)
    · rcases h.expanded b hb with hw | ⟨others, hothers, hall⟩
      · exact Or.inl hw
      · refine Or.inr ⟨others, hothers, ?_⟩
        intro c hc
        exact seen_or_queued_expand (hall c hc)
  sound := by
    intro b hb
    by_cases hbw : b ∈ w.seen
    · exact Or.inl hbw
    · have hreached : Reached succ (· ∈ w.seen) w.queue a :=
        (h.sound a (Or.inr List.mem_cons_self)).resolve_left fun haw => ha (h.seen a haw)
      rcases hb with hb | hb
      · rcases mem_insert_iff.1 hb with rfl | hb
        · exact Or.inr hreached
        · exact h.sound b (Or.inl hb)
      · rcases List.mem_append.1 hb with hb | hb
        · exact h.sound b (Or.inr (List.mem_cons_of_mem _ hb))
        · exact Or.inr (.successor hreached hnext hb hbw)

/-! ## Whole runs -/

theorem Continues.run {start : Worklist α cmp} {rounds : Nat} (h : Continues succ start w)
    (hrun : run succ rounds w = .ok w') : Continues succ start w' := by
  induction rounds generalizing w with
  | zero =>
      obtain rfl := Except.ok.inj hrun
      exact h.drop
  | succ rounds ih =>
      have hdrop := h.drop
      unfold Worklist.run at hrun
      split at hrun
      · next hnil =>
          obtain rfl := Except.ok.inj hrun
          exact hnil ▸ hdrop
      · next a queue hcons =>
          split at hrun
          · next next hnext =>
              rw [hcons] at hdrop
              exact ih (hdrop.expand (not_mem_seen_of_unseen hcons) hnext) hrun
          · cases hrun

/-- A run that uses up its queue has seen what it started with and what is reached from the queue past that. -/
theorem mem_seen_run {rounds : Nat} (hrun : run succ rounds w = .ok w') (hq : w'.queue = []) :
    a ∈ w'.seen ↔ a ∈ w.seen ∨ Reached succ (· ∈ w.seen) w.queue a := by
  have h := (Continues.refl w).run hrun
  have hseen : ∀ {b : α}, b ∈ w'.seen ∨ b ∈ w'.queue → b ∈ w'.seen := by
    intro b hb
    exact hb.resolve_right (hq ▸ List.not_mem_nil)
  constructor
  · intro ha
    exact h.sound a (Or.inl ha)
  · rintro (ha | ha)
    · exact h.seen a ha
    · induction ha with
      | queued ha _ => exact hseen (h.queued _ ha)
      | successor hb hnext hmem _ ih =>
          rcases h.expanded _ ih with hw | ⟨next, hnext', hall⟩
          · exact absurd hw hb.not_known
          · obtain rfl := Except.ok.inj (hnext.symm.trans hnext')
            exact hseen (hall _ hmem)

/-! ## Enough rounds -/

/-- Every element of the list has successors, and these lie in the list. -/
def Confines (succ : α → Except ε (List α)) (elems : List α) : Prop :=
  ∀ a ∈ elems, ∃ next, succ a = .ok next ∧ ∀ b ∈ next, b ∈ elems

/-- The elements of the list that have not been seen. -/
def remaining (elems : List α) (seen : Std.ExtTreeSet α cmp) : List α :=
  elems.filter fun a => !seen.contains a

omit [Std.LawfulEqCmp cmp] in
theorem mem_remaining_iff {elems : List α} {seen : Std.ExtTreeSet α cmp} :
    a ∈ remaining elems seen ↔ a ∈ elems ∧ a ∉ seen := by
  simp [remaining, ← Std.ExtTreeSet.contains_iff_mem]

theorem length_remaining_insert_lt {elems : List α} {seen : Std.ExtTreeSet α cmp} (ha : a ∈ elems)
    (hnew : a ∉ seen) :
    (remaining elems (seen.insert a)).length < (remaining elems seen).length := by
  have hfilter : remaining elems (seen.insert a)
      = (remaining elems seen).filter fun b => !(cmp a b == .eq) := by
    simp [remaining, List.filter_filter, Std.ExtTreeSet.contains_insert]
  rw [hfilter, List.length_filter_lt_length_iff_exists]
  exact ⟨a, mem_remaining_iff.2 ⟨ha, hnew⟩, by simp⟩

omit [Std.LawfulEqCmp cmp] in
theorem Reached.mem {elems : List α} (h : Reached succ known queue a) (hsucc : Confines succ elems)
    (hqueue : ∀ a ∈ queue, a ∈ elems) : a ∈ elems := by
  induction h with
  | queued ha _ => exact hqueue _ ha
  | successor _ hnext hmem _ ih =>
      obtain ⟨next, hnext', hall⟩ := hsucc _ ih
      obtain rfl := Except.ok.inj (hnext.symm.trans hnext')
      exact hall _ hmem

omit [Std.LawfulEqCmp cmp] in
theorem Reached.of_unseen (hunseen : w.unseen = a :: queue) : Reached succ (· ∈ w.seen) w.queue a :=
  .queued (mem_of_mem_unseen (hunseen ▸ List.mem_cons_self)) (not_mem_seen_of_unseen hunseen)

theorem Reached.of_expand {next : List α} {b : α} (hunseen : w.unseen = a :: queue) (hnext : succ a = .ok next)
    (h : Reached succ (· ∈ w.seen.insert a) (queue ++ next) b) : Reached succ (· ∈ w.seen) w.queue b := by
  have hnew : ∀ {c : α}, c ∉ w.seen.insert a → c ∉ w.seen := fun hc hseen => hc (mem_insert_iff.2 (Or.inr hseen))
  induction h with
  | queued hb hknown =>
      rcases List.mem_append.1 hb with hb | hb
      · have hmem : _ ∈ w.unseen := hunseen ▸ List.mem_cons_of_mem a hb
        exact .queued (mem_of_mem_unseen hmem) (hnew hknown)
      · exact .successor (.of_unseen hunseen) hnext hb (hnew hknown)
  | successor _ hsucc hb hknown ih => exact .successor ih hsucc hb (hnew hknown)

/-- Where all that is reached has successors and lies in the list, no run fails, and a run with a round for each of the
list's elements not yet seen uses up the queue. -/
theorem run_eq_ok_of_reached {elems : List α}
    (hreached : ∀ a, Reached succ (· ∈ w.seen) w.queue a → a ∈ elems ∧ ∃ next, succ a = .ok next) (rounds : Nat) :
    ∃ w', run succ rounds w = .ok w' ∧ ((remaining elems w.seen).length ≤ rounds → w'.queue = []) := by
  induction rounds generalizing w with
  | zero =>
      refine ⟨_, rfl, ?_⟩
      intro hrounds
      have hnone : remaining elems w.seen = [] := List.eq_nil_of_length_eq_zero (Nat.le_zero.1 hrounds)
      cases hw : w.unseen with
      | nil => rfl
      | cons a queue =>
          have ha := mem_remaining_iff.2 ⟨(hreached a (.of_unseen hw)).1, not_mem_seen_of_unseen hw⟩
          exact absurd (hnone ▸ ha) List.not_mem_nil
  | succ rounds ih =>
      cases hw : w.unseen with
      | nil => exact ⟨⟨w.seen, []⟩, by simp only [run, hw], fun _ => rfl⟩
      | cons a queue =>
          obtain ⟨ha, next, hnext⟩ := hreached a (.of_unseen hw)
          have hlt := length_remaining_insert_lt ha (not_mem_seen_of_unseen hw)
          obtain ⟨w', hrun, hnil⟩ := ih (w := ⟨w.seen.insert a, queue ++ next⟩)
            fun b hb => hreached b (hb.of_expand hw hnext)
          refine ⟨w', by simp only [run, hw, hnext, hrun], ?_⟩
          intro hrounds
          exact hnil (Nat.le_of_lt_succ (Nat.lt_of_lt_of_le hlt hrounds))

theorem run_eq_ok {elems : List α} (hsucc : Confines succ elems) (hqueue : ∀ a ∈ w.queue, a ∈ elems)
    (rounds : Nat) :
    ∃ w', run succ rounds w = .ok w' ∧ ((remaining elems w.seen).length ≤ rounds → w'.queue = []) := by
  refine run_eq_ok_of_reached ?_ rounds
  intro a ha
  have hmem := ha.mem hsucc hqueue
  obtain ⟨next, hnext, -⟩ := hsucc a hmem
  exact ⟨hmem, next, hnext⟩

/-! ## Meeting a failure -/

omit [Std.LawfulEqCmp cmp] in
theorem unseen_append_cons {seen : Std.ExtTreeSet α cmp} (before after : List α) (ha : a ∉ seen) :
    unseen ⟨seen, before ++ a :: after⟩ = unseen ⟨seen, before⟩ ++ a :: after := by
  have hfalse : seen.contains a = false :=
    Bool.eq_false_iff.2 fun h => ha (Std.ExtTreeSet.contains_iff_mem.1 h)
  show (before ++ a :: after).dropWhile seen.contains = before.dropWhile seen.contains ++ a :: after
  rw [List.dropWhile_append]
  split
  · next hempty =>
      rw [List.isEmpty_iff.1 hempty, List.nil_append, List.dropWhile_cons_of_neg (by simp [hfalse])]
  · rfl

/-- An element without successors in the queue is met as soon as all those before it are used up.  If the list confines
the successors and holds all that stand before it, a run with more rounds than there are elements of the list left ends
with its failure, whatever stands behind it. -/
theorem run_eq_error {elems : List α} (hsucc : Confines succ elems) {err : ε} (ha : succ a = .error err)
    {seen : Std.ExtTreeSet α cmp} {before after : List α} (hbefore : ∀ b ∈ before, b ∈ elems) (hnew : a ∉ seen)
    {rounds : Nat} (hrounds : (remaining elems seen).length < rounds) :
    run succ rounds ⟨seen, before ++ a :: after⟩ = .error err := by
  induction rounds generalizing seen before after with
  | zero => exact absurd hrounds (Nat.not_lt_zero _)
  | succ rounds ih =>
      have hunseen := unseen_append_cons before after hnew
      cases hw : unseen ⟨seen, before⟩ with
      | nil =>
          rw [hw, List.nil_append] at hunseen
          simp only [run, hunseen, ha]
      | cons b queue =>
          rw [hw, List.cons_append] at hunseen
          -- One of those before is expanded, which lowers the count and leaves `a` unseen.
          have hmem : ∀ c ∈ b :: queue, c ∈ elems := by
            intro c hc
            exact hbefore c (mem_of_mem_unseen (hw ▸ hc))
          have hb := hmem b List.mem_cons_self
          obtain ⟨next, hnext, -⟩ := hsucc b hb
          have hlt : (remaining elems (seen.insert b)).length < (remaining elems seen).length :=
            length_remaining_insert_lt hb (not_mem_seen_of_unseen hw)
          have hnew' : a ∉ seen.insert b := by
            intro hmem
            rcases mem_insert_iff.1 hmem with rfl | hmem
            · cases ha.symm.trans hnext
            · exact hnew hmem
          have hrun : run succ rounds ⟨seen.insert b, queue ++ a :: (after ++ next)⟩ = .error err :=
            ih (fun c hc => hmem c (List.mem_cons_of_mem b hc)) hnew' (by omega)
          simp only [run, hunseen, hnext, List.append_assoc, List.cons_append]
          exact hrun

end Automata.Worklist
