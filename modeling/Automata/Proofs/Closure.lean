/-
# Epsilon closures are epsilon reachability

A set is the closure of some states when its members are the ends of the paths from these states that spell nothing
(`Nfa.IsClosure`).  Since sets with equal members are equal, there is one such set at most, and it is the least that
holds the states and that no epsilon edge leaves.  What a saturation along epsilon transitions reaches is just that,
epsilon cycles included, and on an automaton whose edges lead to states of its own a saturation from such states always
comes to its end.

States from elsewhere can come into such a saturation as seeds only.  So the first of them in the queue is met when all
seeds before it are used up, and it is the one that the error names (`Nfa.epsilonClosure_exact`).
-/
import Automata.Nfa.EpsilonClosure
import Automata.Proofs.Paths
import Automata.Proofs.Saturation

namespace Automata.Nfa

variable {nfa : Nfa} {s t : StateName} {seeds : List StateName} {P : StateName → Prop} {T U : StateSet}

/-- The set holds the states with the property and what epsilon edges lead to from them, and nothing else. -/
def IsClosure (nfa : Nfa) (P : StateName → Prop) (T : StateSet) : Prop :=
  ∀ t, t ∈ T ↔ ∃ s, P s ∧ nfa.Path s [] t

theorem IsClosure.unique (hT : nfa.IsClosure P T) (hU : nfa.IsClosure P U) : T = U :=
  Std.ExtTreeSet.ext_mem fun t => (hT t).trans (hU t).symm

theorem IsClosure.congr {Q : StateName → Prop} (hT : nfa.IsClosure P T) (h : ∀ s, P s ↔ Q s) :
    nfa.IsClosure Q T :=
  fun t => (hT t).trans (exists_congr fun s => and_congr_left' (h s))

theorem IsClosure.mem_of_path (hT : nfa.IsClosure P T) (hs : s ∈ T) (hp : nfa.Path s [] t) : t ∈ T := by
  obtain ⟨r, hr, hrs⟩ := (hT s).1 hs
  exact (hT t).2 ⟨r, hr, hrs.append hp⟩

/-- No epsilon edge leads from a state with the property to one without it. -/
def EpsilonClosed (nfa : Nfa) (P : StateName → Prop) : Prop := ∀ s t, P s → ⟨s, none, t⟩ ∈ nfa.edges → P t

theorem EpsilonClosed.of_path (hP : nfa.EpsilonClosed P) (hs : P s) (hp : nfa.Path s [] t) : P t := by
  generalize hw : [] = w at hp
  induction hp with
  | nil _ => exact hs
  | epsilon he _ ih => exact ih (hP _ _ hs he) hw
  | symbol _ _ _ => exact absurd hw (List.cons_ne_nil _ _).symm

theorem IsClosure.mem (hT : nfa.IsClosure P T) (hs : P s) : s ∈ T := (hT s).2 ⟨s, hs, .nil s⟩

theorem IsClosure.epsilonClosed (hT : nfa.IsClosure P T) : nfa.EpsilonClosed (· ∈ T) := by
  intro s t hs he
  exact hT.mem_of_path hs (.edge he)

theorem IsClosure.least (hT : nfa.IsClosure P T) {Q : StateName → Prop} (hPQ : ∀ s, P s → Q s)
    (hQ : nfa.EpsilonClosed Q) (ht : t ∈ T) : Q t := by
  obtain ⟨s, hs, hp⟩ := (hT t).1 ht
  exact hQ.of_path (hPQ s hs) hp

/-! ## Saturating along epsilon transitions -/

theorem mem_epsilonTargets_iff {next : List StateName} (h : nfa.epsilonTargets s = .ok next) :
    t ∈ next ↔ ⟨s, none, t⟩ ∈ nfa.edges := by
  rw [mem_edges_iff]
  unfold epsilonTargets at h
  split at h
  · next ts hts =>
      obtain rfl := Except.ok.inj h
      simp only [List.mem_map, List.mem_filter, hts, Option.some.injEq, exists_eq_left']
      constructor
      · rintro ⟨⟨l, t⟩, ⟨hmem, hl⟩, rfl⟩
        obtain rfl : l = none := Option.isNone_iff_eq_none.1 hl
        exact hmem
      · intro hmem
        exact ⟨_, ⟨hmem, rfl⟩, rfl⟩
  · cases h

theorem epsilonTargets_eq_ok (hs : s ∈ nfa.relation) : ∃ next, nfa.epsilonTargets s = .ok next := by
  obtain ⟨ts, hts⟩ := Option.isSome_iff_exists.1 (Std.ExtTreeMap.mem_iff_isSome_getElem?.1 hs)
  exact ⟨_, by rw [epsilonTargets, transitions?, hts]⟩

/-- From the empty set, epsilon transitions reach the ends of the paths from the queue that spell nothing. -/
theorem reached_iff_path :
    Worklist.Reached nfa.epsilonTargets (· ∈ (∅ : StateSet)) seeds t ↔ ∃ s ∈ seeds, nfa.Path s [] t := by
  constructor
  · intro h
    induction h with
    | queued hs _ => exact ⟨_, hs, .nil _⟩
    | successor _ hnext hmem _ ih =>
        obtain ⟨s, hs, hp⟩ := ih
        exact ⟨s, hs, hp.append (.edge ((mem_epsilonTargets_iff hnext).1 hmem))⟩
  · rintro ⟨s, hs, hp⟩
    have hclosed : nfa.EpsilonClosed (Worklist.Reached nfa.epsilonTargets (· ∈ (∅ : StateSet)) seeds) := by
      intro x y hx he
      obtain ⟨ts, hts, -⟩ := mem_edges_iff.1 he
      obtain ⟨next, hnext⟩ : ∃ next, nfa.epsilonTargets x = .ok next := ⟨_, by rw [epsilonTargets, hts]⟩
      exact .successor hx hnext ((mem_epsilonTargets_iff hnext).2 he) Std.ExtTreeSet.not_mem_empty
    exact hclosed.of_path (.queued hs Std.ExtTreeSet.not_mem_empty) hp

theorem confines_epsilonTargets (hclosed : ∀ e ∈ nfa.edges, e.target ∈ nfa.relation) :
    Worklist.Confines nfa.epsilonTargets nfa.states := by
  intro s hs
  obtain ⟨next, hnext⟩ := epsilonTargets_eq_ok (Std.ExtTreeMap.mem_keys.1 hs)
  refine ⟨next, hnext, ?_⟩
  intro t ht
  exact Std.ExtTreeMap.mem_keys.2 (hclosed _ ((mem_epsilonTargets_iff hnext).1 ht))

theorem run_epsilonTargets_eq_ok (hclosed : ∀ e ∈ nfa.edges, e.target ∈ nfa.relation)
    (hseeds : ∀ s ∈ seeds, s ∈ nfa.relation) (rounds : Nat) :
    ∃ w : Worklist StateName compare, Worklist.run nfa.epsilonTargets rounds ⟨∅, seeds⟩ = .ok w ∧
      ∀ s, s ∈ w.seen ∨ s ∈ w.queue → s ∈ nfa.relation := by
  have hconfines := confines_epsilonTargets hclosed
  have hqueue : ∀ s ∈ seeds, s ∈ nfa.states := fun s hs => Std.ExtTreeMap.mem_keys.2 (hseeds s hs)
  obtain ⟨w, hrun, -⟩ := Worklist.run_eq_ok (w := ⟨(∅ : StateSet), seeds⟩) hconfines hqueue rounds
  refine ⟨w, hrun, ?_⟩
  intro s hs
  rcases ((Worklist.Continues.refl _).run hrun).sound s hs with hs | hs
  · exact absurd hs Std.ExtTreeSet.not_mem_empty
  · exact Std.ExtTreeMap.mem_keys.1 (hs.mem hconfines hqueue)

theorem length_remaining_states_le (nfa : Nfa) :
    (Worklist.remaining nfa.states (∅ : StateSet)).length ≤ nfa.size := by
  refine (List.length_filter_le _ _).trans ?_
  rw [states, Std.ExtTreeMap.length_keys]
  exact Nat.le_refl _

/-- On an automaton whose edges lead to its own states, a saturation from its own states that has a round for each state
ends with the queue used up, and it has seen their closure. -/
theorem run_epsilonTargets_isClosure (hclosed : ∀ e ∈ nfa.edges, e.target ∈ nfa.relation)
    (hseeds : ∀ s ∈ seeds, s ∈ nfa.relation) {rounds : Nat} (hrounds : nfa.size ≤ rounds) :
    ∃ T : StateSet, Worklist.run nfa.epsilonTargets rounds ⟨∅, seeds⟩ = .ok ⟨T, []⟩ ∧ nfa.IsClosure (· ∈ seeds) T := by
  obtain ⟨w, hrun, hq⟩ := Worklist.run_eq_ok (w := ⟨(∅ : StateSet), seeds⟩) (confines_epsilonTargets hclosed)
    (fun s hs => Std.ExtTreeMap.mem_keys.2 (hseeds s hs)) rounds
  obtain ⟨T, queue⟩ := w
  obtain rfl : queue = [] := hq (nfa.length_remaining_states_le.trans hrounds)
  refine ⟨T, hrun, ?_⟩
  intro t
  rw [Worklist.mem_seen_run hrun rfl, reached_iff_path]
  exact or_iff_right Std.ExtTreeSet.not_mem_empty

theorem saturate_eq_ok (hclosed : ∀ e ∈ nfa.edges, e.target ∈ nfa.relation)
    (hseeds : ∀ s ∈ seeds, s ∈ nfa.relation) :
    ∃ T, nfa.saturate seeds = .ok ⟨T, []⟩ ∧ nfa.IsClosure (· ∈ seeds) T :=
  run_epsilonTargets_isClosure hclosed hseeds (Nat.le_succ nfa.size)

theorem epsilonTargets_eq_error (hs : s ∉ nfa.relation) : nfa.epsilonTargets s = .error ⟨s⟩ := by
  have hnone : nfa.transitions? s = none := Std.ExtTreeMap.getElem?_eq_none hs
  rw [epsilonTargets, hnone]

/-- A saturation from seeds that are not all states of the automaton ends at the first that is not. -/
theorem run_epsilonTargets_eq_error (hclosed : ∀ e ∈ nfa.edges, e.target ∈ nfa.relation)
    {before after : List StateName} (hbefore : ∀ t ∈ before, t ∈ nfa.relation) (hs : s ∉ nfa.relation) {rounds : Nat}
    (hrounds : nfa.size < rounds) :
    Worklist.run nfa.epsilonTargets rounds ⟨(∅ : StateSet), before ++ s :: after⟩ = .error ⟨s⟩ := by
  refine Worklist.run_eq_error (confines_epsilonTargets hclosed) (epsilonTargets_eq_error hs) ?_
    Std.ExtTreeSet.not_mem_empty (nfa.length_remaining_states_le.trans_lt hrounds)
  intro t ht
  exact Std.ExtTreeMap.mem_keys.2 (hbefore t ht)

theorem exists_isClosure (hclosed : ∀ e ∈ nfa.edges, e.target ∈ nfa.relation)
    (hP : ∀ s, P s → s ∈ nfa.relation) : ∃ T, nfa.IsClosure P T := by
  classical
  have hseeds : ∀ s, s ∈ nfa.states.filter P ↔ P s := by
    intro s
    simp only [List.mem_filter, states, Std.ExtTreeMap.mem_keys, decide_eq_true_eq]
    exact and_iff_right_of_imp (hP s)
  obtain ⟨T, -, hT⟩ := saturate_eq_ok hclosed fun s hs => hP s ((hseeds s).1 hs)
  exact ⟨T, hT.congr hseeds⟩

/-! ## The closure of a list of seeds -/

/-- On an automaton whose edges lead to its own states the closure of a list of its states is found.  It consists of the
states that epsilon edges lead to from one of them, so it is the least set that holds them and that no epsilon edge
leaves; the order of the list and repeats in it have no part in this; and the queue is used up when there is a round for
each state, however many more there are.  Where the list has other states than those of the automaton, the first of them
is named. -/
theorem epsilonClosure_exact (nfa : Nfa) (hclosed : ∀ e ∈ nfa.edges, e.target ∈ nfa.relation)
    (seeds : List StateName) :
    ((∀ s ∈ seeds, s ∈ nfa.relation) → ∃ T, nfa.epsilonClosure seeds = .ok T ∧
      (∀ t, t ∈ T ↔ ∃ s ∈ seeds, nfa.Path s [] t) ∧
      (∀ s ∈ seeds, s ∈ T) ∧ nfa.EpsilonClosed (· ∈ T) ∧
      (∀ P : StateName → Prop, (∀ s ∈ seeds, P s) → nfa.EpsilonClosed P → ∀ t ∈ T, P t) ∧
      (∀ seeds', (∀ s, s ∈ seeds' ↔ s ∈ seeds) → nfa.epsilonClosure seeds' = .ok T) ∧
      ∀ rounds, nfa.size ≤ rounds → Worklist.run nfa.epsilonTargets rounds ⟨∅, seeds⟩ = .ok ⟨T, []⟩) ∧
    ∀ before s after, seeds = before ++ s :: after → (∀ t ∈ before, t ∈ nfa.relation) → s ∉ nfa.relation →
      nfa.epsilonClosure seeds = .error ⟨s⟩ := by
  constructor
  · intro hseeds
    obtain ⟨T, hrun, hT⟩ := saturate_eq_ok hclosed hseeds
    refine ⟨T, by rw [epsilonClosure, hrun]; rfl, hT, fun s hs => hT.mem hs, hT.epsilonClosed, ?_, ?_, ?_⟩
    · intro P hP hclosedP t ht
      exact hT.least hP hclosedP ht
    · intro seeds' hsame
      obtain ⟨T', hrun', hT'⟩ := saturate_eq_ok hclosed fun s hs => hseeds s ((hsame s).1 hs)
      obtain rfl : T' = T := (hT'.congr hsame).unique hT
      rw [epsilonClosure, hrun']
      rfl
    · intro rounds hrounds
      obtain ⟨T', hrun', hT'⟩ := run_epsilonTargets_isClosure hclosed hseeds hrounds
      rw [hrun', hT'.unique hT]
  · rintro before s after rfl hbefore hs
    rw [epsilonClosure, saturate, run_epsilonTargets_eq_error hclosed hbefore hs (Nat.lt_succ_self nfa.size)]
    rfl

/-- Two epsilon cycles with a state in common, seeds given twice, and two seeds that are not there. -/
theorem epsilonClosure_exact_cycles :
    let lists : List (StateName × List Transition) :=
      [(2, [⟨none, 5⟩, ⟨some "a", 9⟩]), (5, [⟨none, 7⟩, ⟨none, 2⟩]), (7, [⟨none, 5⟩, ⟨none, 5⟩]), (9, [⟨none, 2⟩])]
    let nfa : Nfa := ⟨9, 2, .ofList lists⟩
    (∀ e ∈ nfa.edges, e.target ∈ nfa.relation) ∧ (∀ s ∈ [7, 2, 7], s ∈ nfa.relation) ∧
      (∃ T, nfa.epsilonClosure [7, 2, 7] = .ok T ∧ nfa.epsilonClosure [2, 7] = .ok T ∧
        ∀ t, t ∈ T ↔ ∃ s ∈ [7, 2, 7], nfa.Path s [] t) ∧
      (∀ t ∈ [7, 7], t ∈ nfa.relation) ∧ 4 ∉ nfa.relation ∧ nfa.epsilonClosure [7, 7, 4, 2, 3] = .error ⟨4⟩ := by
  intro lists nfa
  have hclosed : ∀ e ∈ nfa.edges, e.target ∈ nfa.relation := by decide
  have hseeds : ∀ s ∈ [7, 2, 7], s ∈ nfa.relation := by decide
  have hbefore : ∀ t ∈ [7, 7], t ∈ nfa.relation := by decide
  have hs : 4 ∉ nfa.relation := by decide
  obtain ⟨T, hT, hpath, -, -, -, hsame, -⟩ := (epsilonClosure_exact nfa hclosed [7, 2, 7]).1 hseeds
  exact ⟨hclosed, hseeds, ⟨T, hT, hsame [2, 7] (by simp [or_comm]), hpath⟩, hbefore, hs,
    (epsilonClosure_exact nfa hclosed _).2 [7, 7] 4 [2, 3] rfl hbefore hs⟩

end Automata.Nfa
