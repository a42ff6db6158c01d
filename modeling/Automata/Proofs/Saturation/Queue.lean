/-
# Taking elements from the queue

A round of a saturation drops seen elements and expands the first unseen one.  Taken one at a time, the elements of the
queue are each either dropped or expanded (`Pops`).  What comes first in the queue decides what is done, so there is one
way to go on only, and the elements taken up to some point are the first of those taken until the queue is used up
(`Pops.rest`).  Rounds and single elements lead to the same (`exists_run_iff_exists_pops`).

A trail is a sequence of successor steps that begins in the queue.  What has been seen at the start cuts off every trail
that touches it.  The queue is used up at some point just if the other trails lead to finitely many elements
(`exists_pops_iff_finite`), and what has been seen by then is what had been seen at the start and what these trails lead
to (`saturation_exact`).
-/
import Automata.Proofs.Saturation
import Mathlib.Data.List.Chain
import Mathlib.Data.Set.Card

namespace Automata.Worklist

variable {α ε : Type} {cmp : α → α → Ordering} [Std.TransCmp cmp]

/-- Taking these elements from the queue, one after the other, leads from the one worklist to the other.  An element that
has been seen is dropped; any other is seen from then on, and its successors are put at the end of the queue. -/
inductive Pops (succ : α → Except ε (List α)) : Worklist α cmp → List α → Worklist α cmp → Prop where
  | nil (w : Worklist α cmp) : Pops succ w [] w
  | drop {seen : Std.ExtTreeSet α cmp} {a : α} {queue taken : List α} {w : Worklist α cmp} : a ∈ seen →
      Pops succ ⟨seen, queue⟩ taken w → Pops succ ⟨seen, a :: queue⟩ (a :: taken) w
  | expand {seen : Std.ExtTreeSet α cmp} {a : α} {queue next taken : List α} {w : Worklist α cmp} : a ∉ seen →
      succ a = .ok next → Pops succ ⟨seen.insert a, queue ++ next⟩ taken w →
      Pops succ ⟨seen, a :: queue⟩ (a :: taken) w

/-- The list begins in the queue, each element after the first is a successor of the one before it, and it ends with the
given element. -/
structure Trail (succ : α → List α) (queue path : List α) (b : α) : Prop where
  head : ∃ a ∈ queue, path.head? = some a
  steps : path.IsChain fun a c => c ∈ succ a
  last : path.getLast? = some b

/-- A successor function that gives every element its successors. -/
abbrev total (ε : Type) (succ : α → List α) : α → Except ε (List α) := fun a => .ok (succ a)

/-! ## Single elements and rounds -/

variable {succ : α → Except ε (List α)} {seen T : Std.ExtTreeSet α cmp} {a : α}
  {queue before after taken next : List α} {w w₁ w' : Worklist α cmp} {rounds : Nat}

theorem Pops.append (h : Pops succ w before w₁) (h' : Pops succ w₁ after w') :
    Pops succ w (before ++ after) w' := by
  induction h with
  | nil _ => exact h'
  | drop ha _ ih => exact .drop ha (ih h')
  | expand ha hnext _ ih => exact .expand ha hnext (ih h')

/-- There is one way to go on: what was taken up to some point comes first in what is taken until the queue is used up,
and the rest is taken from there. -/
theorem Pops.rest (h : Pops succ w before w₁) (h' : Pops succ w taken w') (hw' : w'.queue = []) :
    ∃ after, before ++ after = taken ∧ Pops succ w₁ after w' := by
  induction h generalizing taken with
  | nil _ => exact ⟨taken, rfl, h'⟩
  | drop ha _ ih =>
      cases h' with
      | nil _ => cases hw'
      | drop _ h' =>
          obtain ⟨after, rfl, hafter⟩ := ih h'
          exact ⟨after, rfl, hafter⟩
      | expand hnew _ _ => exact absurd ha hnew
  | expand hnew hnext _ ih =>
      cases h' with
      | nil _ => cases hw'
      | drop ha _ => exact absurd ha hnew
      | expand _ hnext' h' =>
          obtain rfl := Except.ok.inj (hnext.symm.trans hnext')
          obtain ⟨after, rfl, hafter⟩ := ih h'
          exact ⟨after, rfl, hafter⟩

theorem pops_unseen (succ : α → Except ε (List α)) (seen : Std.ExtTreeSet α cmp) (queue : List α) :
    Pops succ ⟨seen, queue⟩ (queue.takeWhile seen.contains) ⟨seen, unseen ⟨seen, queue⟩⟩ := by
  induction queue with
  | nil => exact .nil _
  | cons a queue ih =>
      by_cases ha : seen.contains a
      · rw [List.takeWhile_cons_of_pos ha, unseen, List.dropWhile_cons_of_pos ha]
        exact .drop (Std.ExtTreeSet.contains_iff_mem.1 ha) ih
      · rw [List.takeWhile_cons_of_neg ha, unseen, List.dropWhile_cons_of_neg ha]
        exact .nil _

theorem exists_pops_of_run (h : run succ rounds w = .ok w') : ∃ taken, Pops succ w taken w' := by
  induction rounds generalizing w with
  | zero =>
      obtain rfl := Except.ok.inj h
      exact ⟨_, pops_unseen succ w.seen w.queue⟩
  | succ rounds ih =>
      have hdrop := pops_unseen succ w.seen w.queue
      unfold run at h
      split at h
      · next hnil =>
          obtain rfl := Except.ok.inj h
          exact ⟨_, hnil ▸ hdrop⟩
      · next a queue hcons =>
          split at h
          · next next hnext =>
              obtain ⟨taken, htaken⟩ := ih h
              have hexpand : Pops succ ⟨w.seen, w.unseen⟩ (a :: taken) w' :=
                hcons ▸ .expand (not_mem_seen_of_unseen hcons) hnext htaken
              exact ⟨_, hdrop.append hexpand⟩
          · cases h

theorem run_cons_of_mem (ha : a ∈ seen) (rounds : Nat) :
    run succ rounds ⟨seen, a :: queue⟩ = run succ rounds ⟨seen, queue⟩ := by
  have hunseen : unseen ⟨seen, a :: queue⟩ = unseen ⟨seen, queue⟩ :=
    List.dropWhile_cons_of_pos (Std.ExtTreeSet.contains_iff_mem.2 ha)
  cases rounds with
  | zero => simp only [run, hunseen]
  | succ rounds => simp only [run, hunseen]

theorem run_cons_of_not_mem (ha : a ∉ seen) (hnext : succ a = .ok next) (rounds : Nat) :
    run succ (rounds + 1) ⟨seen, a :: queue⟩ = run succ rounds ⟨seen.insert a, queue ++ next⟩ := by
  have hunseen : unseen ⟨seen, a :: queue⟩ = a :: queue := unseen_append_cons [] queue ha
  simp only [run, hunseen, hnext]

theorem Pops.exists_run (h : Pops succ w taken w') (hw' : w'.queue = []) :
    ∃ rounds, run succ rounds w = .ok w' := by
  induction h with
  | nil w =>
      obtain ⟨seen, queue⟩ := w
      obtain rfl : queue = [] := hw'
      exact ⟨0, rfl⟩
  | drop ha _ ih =>
      obtain ⟨rounds, hrun⟩ := ih hw'
      exact ⟨rounds, (run_cons_of_mem ha rounds).trans hrun⟩
  | expand ha hnext _ ih =>
      obtain ⟨rounds, hrun⟩ := ih hw'
      exact ⟨rounds + 1, (run_cons_of_not_mem ha hnext rounds).trans hrun⟩

/-- Some number of rounds uses up the queue just if it is used up by taking elements, and the same has been seen then. -/
theorem exists_run_iff_exists_pops :
    (∃ rounds, run succ rounds w = .ok ⟨T, []⟩) ↔ ∃ taken, Pops succ w taken ⟨T, []⟩ := by
  constructor
  · rintro ⟨rounds, h⟩
    exact exists_pops_of_run h
  · rintro ⟨taken, h⟩
    exact h.exists_run rfl

/-! ## Trails -/

section Trails

variable {succ : α → List α} {path : List α} {b : α} {known P : α → Prop}

theorem Trail.forall_mem (h : Trail succ queue path b) (hqueue : ∀ a ∈ queue, a ∈ path → P a)
    (hsucc : ∀ a c, P a → c ∈ succ a → c ∈ path → P c) : ∀ a ∈ path, P a := by
  obtain ⟨a, ha, hhead⟩ := h.head
  refine (List.IsChain.iff_mem.1 h.steps).induction P path ?_ ?_
  · rintro c d ⟨-, hd, hstep⟩ hc
    exact hsucc c d hc hstep hd
  · intro hne
    obtain rfl : path.head hne = a := Option.some.inj ((List.head?_eq_some_head hne).symm.trans hhead)
    exact hqueue _ ha (List.head_mem hne)

theorem Trail.mem (h : Trail succ queue path b) : b ∈ path := List.mem_of_getLast? h.last

theorem Trail.concat {c : α} (h : Trail succ queue path b) (hc : c ∈ succ b) :
    Trail succ queue (path ++ [c]) c where
  head := by
    obtain ⟨a, ha, hhead⟩ := h.head
    exact ⟨a, ha, by rw [List.head?_append, hhead, Option.some_or]⟩
  steps := by
    refine h.steps.append (.singleton c) ?_
    intro d hd e he
    obtain rfl := Option.some.inj (h.last.symm.trans hd)
    obtain rfl := Option.some.inj he
    exact hc
  last := List.getLast?_concat

theorem reached_iff_exists_trail :
    Reached (total ε succ) known queue b ↔ ∃ path, Trail succ queue path b ∧ ∀ a ∈ path, ¬ known a := by
  constructor
  · intro h
    induction h with
    | @queued a ha hknown =>
        refine ⟨[a], ⟨⟨a, ha, rfl⟩, .singleton a, rfl⟩, ?_⟩
        intro c hc
        exact List.mem_singleton.1 hc ▸ hknown
    | @successor a b next _ hnext hmem hknown ih =>
        obtain ⟨path, hpath, hclear⟩ := ih
        obtain rfl := Except.ok.inj hnext
        refine ⟨path ++ [b], hpath.concat hmem, ?_⟩
        intro c hc
        rcases List.mem_append.1 hc with hc | hc
        · exact hclear c hc
        · exact List.mem_singleton.1 hc ▸ hknown
  · rintro ⟨path, hpath, hclear⟩
    refine hpath.forall_mem ?_ ?_ b hpath.mem
    · intro a ha hmem
      exact .queued ha (hclear a hmem)
    · intro a c ha hc hmem
      exact .successor ha rfl hc (hclear c hmem)

/-- Where successors of known elements are known, a trail leads to known elements or can be had without any. -/
theorem Trail.known_or_reached (h : Trail succ queue path b) (hclosed : ∀ a, known a → ∀ c ∈ succ a, known c) :
    known b ∨ Reached (total ε succ) known queue b := by
  refine h.forall_mem (P := fun c => known c ∨ Reached (total ε succ) known queue c) ?_ ?_ b h.mem
  · intro a ha _
    by_cases hknown : known a
    · exact Or.inl hknown
    · exact Or.inr (.queued ha hknown)
  · intro a c ha hc _
    by_cases hknown : known c
    · exact Or.inl hknown
    · rcases ha with ha | ha
      · exact absurd (hclosed a ha c hc) hknown
      · exact Or.inr (.successor ha rfl hc hknown)

end Trails

/-! ## Where a saturation ends -/

variable [Std.LawfulEqCmp cmp] {f : α → List α}

theorem run_total_eq_ok (ε : Type) (hfinite : {b | Reached (total ε f) (· ∈ w.seen) w.queue b}.Finite)
    (hrounds : {b | Reached (total ε f) (· ∈ w.seen) w.queue b}.ncard ≤ rounds) :
    ∃ T, run (total ε f) rounds w = .ok ⟨T, []⟩ := by
  have hreached : ∀ a, Reached (total ε f) (· ∈ w.seen) w.queue a →
      a ∈ hfinite.toFinset.toList ∧ ∃ next, total ε f a = .ok next :=
    fun a ha => ⟨Finset.mem_toList.2 (hfinite.mem_toFinset.2 ha), f a, rfl⟩
  obtain ⟨⟨T, queue⟩, hrun, hqueue⟩ := run_eq_ok_of_reached hreached rounds
  refine ⟨T, ?_⟩
  have hlength : hfinite.toFinset.toList.length ≤ rounds := by
    rwa [Finset.length_toList, ← Set.ncard_eq_toFinset_card _ hfinite]
  obtain rfl : queue = [] := hqueue ((List.length_filter_le _ _).trans hlength)
  exact hrun

theorem exists_pops_iff_finite (ε : Type) :
    (∃ T taken, Pops (total ε f) w taken ⟨T, []⟩) ↔ {b | Reached (total ε f) (· ∈ w.seen) w.queue b}.Finite := by
  constructor
  · rintro ⟨T, taken, hpops⟩
    obtain ⟨rounds, hrun⟩ := exists_run_iff_exists_pops.2 ⟨taken, hpops⟩
    refine T.toList.finite_toSet.subset ?_
    intro b hb
    exact Std.ExtTreeSet.mem_toList.2 ((mem_seen_run hrun rfl).2 (Or.inr hb))
  · intro hfinite
    obtain ⟨T, hrun⟩ := run_total_eq_ok ε hfinite (Nat.le_refl _)
    exact ⟨T, exists_run_iff_exists_pops.1 ⟨_, hrun⟩⟩

/-- If the trails from the queue lead to finitely many elements, taking elements uses up the queue, whatever had been seen
before: however far it has come, it goes on in one way only and ends at one point.  As many rounds as there are elements
to be met, or more, end there too.  What has been seen then is what had been seen before and the ends of the trails that
do not touch it anywhere.  Where the successors of all that had been seen had been seen as well, this is what had been
seen before and the ends of all trails. -/
theorem saturation_exact (ε : Type) (f : α → List α) (w : Worklist α cmp)
    (hfinite : {b | ∃ path, Trail f w.queue path b}.Finite) : ∃ (T : Std.ExtTreeSet α cmp) (taken : List α),
    Pops (total ε f) w taken ⟨T, []⟩ ∧
    (∀ before w₁, Pops (total ε f) w before w₁ →
      ∃ after, before ++ after = taken ∧ Pops (total ε f) w₁ after ⟨T, []⟩) ∧
    (∀ rounds, {b | ∃ path, Trail f w.queue path b ∧ ∀ a ∈ path, a ∉ w.seen}.ncard ≤ rounds →
      run (total ε f) rounds w = .ok ⟨T, []⟩) ∧
    (∀ b, b ∈ T ↔ b ∈ w.seen ∨ ∃ path, Trail f w.queue path b ∧ ∀ a ∈ path, a ∉ w.seen) ∧
    ((∀ a ∈ w.seen, ∀ b ∈ f a, b ∈ w.seen) → ∀ b, b ∈ T ↔ b ∈ w.seen ∨ ∃ path, Trail f w.queue path b) := by
  have htrail : ∀ b, Reached (total ε f) (· ∈ w.seen) w.queue b ↔
      ∃ path, Trail f w.queue path b ∧ ∀ a ∈ path, a ∉ w.seen := fun b => reached_iff_exists_trail
  simp only [← htrail]
  have hreached : {b | Reached (total ε f) (· ∈ w.seen) w.queue b}.Finite := by
    refine hfinite.subset ?_
    intro b hb
    obtain ⟨path, hpath, -⟩ := (htrail b).1 hb
    exact ⟨path, hpath⟩
  obtain ⟨T, taken, hpops⟩ := (exists_pops_iff_finite ε).2 hreached
  obtain ⟨rounds, hrun⟩ := exists_run_iff_exists_pops.2 ⟨taken, hpops⟩
  have hseen : ∀ b, b ∈ T ↔ b ∈ w.seen ∨ Reached (total ε f) (· ∈ w.seen) w.queue b :=
    fun b => mem_seen_run hrun rfl
  refine ⟨T, taken, hpops, fun before w₁ h => h.rest hpops rfl, ?_, hseen, ?_⟩
  · intro rounds hrounds
    obtain ⟨T', hrun'⟩ := run_total_eq_ok ε hreached hrounds
    obtain rfl : T' = T := Std.ExtTreeSet.ext_mem fun b => (mem_seen_run hrun' rfl).trans (hseen b).symm
    exact hrun'
  · intro hclosed b
    rw [hseen b]
    constructor
    · exact Or.imp_right fun hb => ((htrail b).1 hb).imp fun _ h => h.1
    · rintro (hb | ⟨path, hpath⟩)
      · exact Or.inl hb
      · exact hpath.known_or_reached hclosed

/-- Last digits of doubled numbers, from a queue with a repeat.  Where 4 has been seen 8 is not met, although a trail leads
to it through 4, and where 2, 4, 6 and 8 have been seen nothing is cut off. -/
theorem saturation_exact_digits :
    let f : Nat → List Nat := fun n => [2 * n % 10]
    let queue : List Nat := [1, 4, 3, 1]
    {b | ∃ path, Trail f queue path b}.Finite ∧
      (∃ (T : Std.ExtTreeSet Nat) (taken : List Nat), Pops (total Empty f) ⟨.ofList [4], queue⟩ taken ⟨T, []⟩ ∧
        Trail f queue [1, 2, 4, 8] 8 ∧ 8 ∉ T) ∧
      (∀ a ∈ Std.ExtTreeSet.ofList [2, 4, 6, 8], ∀ b ∈ f a, b ∈ Std.ExtTreeSet.ofList [2, 4, 6, 8]) ∧
      ∃ (T : Std.ExtTreeSet Nat) (taken : List Nat), Pops (total Empty f) ⟨.ofList [2, 4, 6, 8], queue⟩ taken ⟨T, []⟩ ∧
        ∀ b, b ∈ T ↔ b ∈ Std.ExtTreeSet.ofList [2, 4, 6, 8] ∨ ∃ path, Trail f queue path b := by
  intro f queue
  have hdigits : {b | ∃ path, Trail f queue path b}.Finite := by
    have hqueue : ∀ a ∈ queue, a < 10 := by decide
    refine (Set.finite_lt_nat 10).subset ?_
    rintro b ⟨path, hpath⟩
    refine hpath.forall_mem (P := (· < 10)) (fun a ha _ => hqueue a ha) ?_ b hpath.mem
    intro a c _ hc _
    exact List.mem_singleton.1 hc ▸ Nat.mod_lt _ (by decide)
  have hclosed : ∀ a ∈ Std.ExtTreeSet.ofList [2, 4, 6, 8], ∀ b ∈ f a, b ∈ Std.ExtTreeSet.ofList [2, 4, 6, 8] := by
    have hall : ∀ a ∈ [2, 4, 6, 8], ∀ b ∈ f a, b ∈ Std.ExtTreeSet.ofList [2, 4, 6, 8] := by decide
    intro a ha
    exact hall a (List.contains_iff_mem.1 (Std.ExtTreeSet.mem_ofList.1 ha))
  have hclear : ∀ path b, Trail f queue path b → (∀ a ∈ path, a ∉ Std.ExtTreeSet.ofList [4]) → b ∈ [1, 2, 3, 6] := by
    have hqueue : ∀ a ∈ queue, a ∉ Std.ExtTreeSet.ofList [4] → a ∈ [1, 2, 3, 6] := by decide
    have hstep : ∀ a ∈ [1, 2, 3, 6], ∀ c ∈ f a, c ∉ Std.ExtTreeSet.ofList [4] → c ∈ [1, 2, 3, 6] := by decide
    intro path b hpath hclear
    refine hpath.forall_mem (P := (· ∈ [1, 2, 3, 6])) ?_ ?_ b hpath.mem
    · intro a ha hmem
      exact hqueue a ha (hclear a hmem)
    · intro a c ha hc hmem
      exact hstep a ha c hc (hclear c hmem)
  obtain ⟨T, taken, hpops, -, -, hseen, -⟩ := saturation_exact Empty f ⟨.ofList [4], queue⟩ hdigits
  obtain ⟨T', taken', hpops', -, -, -, hseen'⟩ := saturation_exact Empty f ⟨.ofList [2, 4, 6, 8], queue⟩ hdigits
  refine ⟨hdigits, ⟨T, taken, hpops, ⟨⟨1, by decide, rfl⟩, by decide, rfl⟩, ?_⟩, hclosed, T', taken', hpops',
    hseen' hclosed⟩
  intro h
  rcases (hseen 8).1 h with h | ⟨path, hpath, havoid⟩
  · exact absurd h (by decide)
  · exact absurd (hclear path 8 hpath havoid) (by decide)

end Automata.Worklist
