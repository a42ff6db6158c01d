/-
# Renaming the states of an automaton

An automaton comes from another by renaming when its states are the images of the other's under a function that keeps
different states apart, and each image has just the images of the edges (`Nfa.Renames`).  In which order the edges of a
state are listed, and how often one is, plays no part in this.

A renaming carries paths to paths, in both directions (`Renames.path_iff`).  So the same words meet in both automata,
and the deterministic automaton is the same: neither the names of the states nor the order or number of the edges show
in it.  The sets behind its states are renamed as the states are.
-/
import Automata.Proofs.Subset.Alike

namespace Automata

/-- The image of a set of states. -/
def StateSet.image (f : StateName → StateName) (S : StateSet) : StateSet := .ofList (S.toList.map f)

theorem StateSet.mem_image_iff {f : StateName → StateName} {S : StateSet} {t : StateName} :
    t ∈ S.image f ↔ ∃ s ∈ S, f s = t := by
  simp [StateSet.image, Std.ExtTreeSet.mem_ofList]

/-- The edge between the images of its states. -/
def Edge.image (f : StateName → StateName) (e : Edge) : Edge := ⟨f e.source, e.label, f e.target⟩

namespace Nfa

/-- The second automaton is the first with its states renamed, its edges in any order and number. -/
structure Renames (f : StateName → StateName) (A B : Nfa) : Prop where
  injective : ∀ s ∈ A.relation, ∀ t ∈ A.relation, f s = f t → s = t
  start : B.start = f A.start
  exit : B.exit = f A.exit
  states : ∀ t, t ∈ B.relation ↔ ∃ s ∈ A.relation, f s = t
  edges : ∀ s ∈ A.relation, ∀ l t, ⟨f s, l, t⟩ ∈ B.edges ↔ ∃ u, ⟨s, l, u⟩ ∈ A.edges ∧ f u = t

variable {f : StateName → StateName} {A B : Nfa} {s t x y : StateName} {v w : List String}

theorem source_mem_relation {e : Edge} (he : e ∈ A.edges) : e.source ∈ A.relation := by
  obtain ⟨ts, hs, -⟩ := mem_edges_iff.1 he
  exact Std.ExtTreeMap.mem_iff_isSome_getElem?.2 (Option.isSome_of_mem hs)

/-- Finitely many states and edges tell whether one automaton is the other renamed. -/
theorem renames_iff : Renames f A B ↔ (∀ s ∈ A.states, ∀ t ∈ A.states, f s = f t → s = t) ∧
    B.start = f A.start ∧ B.exit = f A.exit ∧ (∀ t ∈ B.states, t ∈ A.states.map f) ∧ (∀ s ∈ A.states, f s ∈ B.states) ∧
    (∀ e ∈ B.edges, e ∈ A.edges.map (Edge.image f)) ∧ ∀ e ∈ A.edges, e.image f ∈ B.edges := by
  simp only [states, Std.ExtTreeMap.mem_keys, List.mem_map]
  constructor
  · intro h
    refine ⟨h.injective, h.start, h.exit, fun t => (h.states t).1, ?_, ?_, ?_⟩
    · intro s hs
      exact (h.states _).2 ⟨s, hs, rfl⟩
    · intro e he
      obtain ⟨s, hs, hsource⟩ := (h.states _).1 (source_mem_relation he)
      obtain ⟨u, hu, htarget⟩ := (h.edges s hs e.label e.target).1 (hsource ▸ he)
      exact ⟨⟨s, e.label, u⟩, hu, by rw [Edge.image, hsource, htarget]⟩
    · intro e he
      exact (h.edges _ (source_mem_relation he) _ _).2 ⟨e.target, he, rfl⟩
  · rintro ⟨hinj, hstart, hexit, hstates, hstates', hedges, hedges'⟩
    refine ⟨hinj, hstart, hexit, fun t => ⟨hstates t, ?_⟩, fun s hs l t => ⟨?_, ?_⟩⟩
    · rintro ⟨s, hs, rfl⟩
      exact hstates' s hs
    · intro he
      obtain ⟨⟨s', l', u⟩, he', heq⟩ := hedges _ he
      obtain ⟨hs', rfl, hu⟩ := Edge.mk.inj heq
      obtain rfl := hinj _ (source_mem_relation he') s hs hs'
      exact ⟨u, he', hu⟩
    · rintro ⟨u, he, rfl⟩
      exact hedges' _ he

instance : Decidable (Renames f A B) := decidable_of_iff _ renames_iff.symm

namespace Renames

theorem path (h : Renames f A B) (hA : A.WellFormed) (hp : A.Path s w t) (hs : s ∈ A.relation) :
    B.Path (f s) w (f t) := by
  induction hp with
  | nil _ => exact .nil _
  | epsilon he _ ih => exact .epsilon ((h.edges _ hs _ _).2 ⟨_, he, rfl⟩) (ih (hA.2.2 _ he))
  | symbol he _ ih => exact .symbol ((h.edges _ hs _ _).2 ⟨_, he, rfl⟩) (ih (hA.2.2 _ he))

theorem exists_path (h : Renames f A B) (hA : A.WellFormed) (hp : B.Path x w y) (hs : s ∈ A.relation)
    (hx : f s = x) : ∃ t, A.Path s w t ∧ f t = y := by
  induction hp generalizing s with
  | nil _ => exact ⟨s, .nil s, hx⟩
  | epsilon he _ ih =>
      subst hx
      obtain ⟨u, he, hu⟩ := (h.edges s hs _ _).1 he
      obtain ⟨t, hp, ht⟩ := ih (hA.2.2 _ he) hu
      exact ⟨t, .epsilon he hp, ht⟩
  | symbol he _ ih =>
      subst hx
      obtain ⟨u, he, hu⟩ := (h.edges s hs _ _).1 he
      obtain ⟨t, hp, ht⟩ := ih (hA.2.2 _ he) hu
      exact ⟨t, .symbol he hp, ht⟩

theorem path_iff (h : Renames f A B) (hA : A.WellFormed) :
    B.Path B.start w y ↔ ∃ t, A.Path A.start w t ∧ f t = y := by
  rw [h.start]
  constructor
  · intro hp
    exact h.exists_path hA hp hA.1 rfl
  · rintro ⟨t, hp, rfl⟩
    exact h.path hA hp hA.1

theorem path_image_iff (h : Renames f A B) (hA : A.WellFormed) (ht : t ∈ A.relation) :
    B.Path B.start w (f t) ↔ A.Path A.start w t := by
  rw [h.path_iff hA]
  constructor
  · rintro ⟨u, hp, hu⟩
    exact h.injective u (path_mem_relation hA.2.2 hp hA.1) t ht hu ▸ hp
  · intro hp
    exact ⟨t, hp, rfl⟩

theorem meets_iff (h : Renames f A B) (hA : A.WellFormed) : A.Meets v w ↔ B.Meets v w := by
  constructor
  · rintro ⟨⟨t, ht⟩, hsame⟩
    refine ⟨⟨f t, (h.path_iff hA).2 ⟨t, ht, rfl⟩⟩, ?_⟩
    intro y
    simp only [h.path_iff hA, hsame]
  · rintro ⟨⟨y, hy⟩, hsame⟩
    obtain ⟨t, ht, rfl⟩ := (h.path_iff hA).1 hy
    refine ⟨⟨t, ht⟩, ?_⟩
    intro t
    constructor
    · intro hv
      have hmem := path_mem_relation hA.2.2 hv hA.1
      exact (h.path_image_iff hA hmem).1 ((hsame _).1 ((h.path_image_iff hA hmem).2 hv))
    · intro hw
      have hmem := path_mem_relation hA.2.2 hw hA.1
      exact (h.path_image_iff hA hmem).1 ((hsame _).2 ((h.path_image_iff hA hmem).2 hw))

theorem accepts_iff (h : Renames f A B) (hA : A.WellFormed) : A.Accepts w ↔ B.Accepts w := by
  rw [Accepts, Accepts, h.exit, h.path_image_iff hA hA.2.1]

end Renames

/-- Renaming the states of an automaton, and listing its edges in another order or more or less often, does not change
its deterministic automaton, and renames the members of the set behind each state. -/
theorem determinize_renames (f : StateName → StateName) (A B : Nfa) (hA : A.WellFormed) (hB : B.WellFormed)
    (h : Renames f A B) : ∃ dA dB, A.determinize = .ok dA ∧ B.determinize = .ok dB ∧ dA.dfa = dB.dfa ∧
      ∀ id, dB.composite? id = (dA.composite? id).map (StateSet.image f) := by
  obtain ⟨dA, dB, hdA, hdB, hrepA, hrepB, hbf, heq⟩ := determinize_eq_of_meets hA hB
    (fun _ _ => h.meets_iff hA) fun _ => h.accepts_iff hA
  refine ⟨dA, dB, hdA, hdB, heq, ?_⟩
  intro id
  by_cases hid : id < dA.dfa.size
  · obtain ⟨w, hw, -⟩ := hbf.exists_access hid
    obtain ⟨S, hS, hmemS⟩ := (hrepA.endsAt_iff hA).1 hw
    obtain ⟨T, hT, hmemT⟩ := (hrepB.endsAt_iff hB).1 (heq ▸ hw)
    rw [hS, hT]
    refine congrArg some (Std.ExtTreeSet.ext_mem fun t => ?_)
    rw [hmemT, h.path_iff hA, StateSet.mem_image_iff]
    exact exists_congr fun s => by rw [hmemS]
  · have hnoneA := Option.eq_none_iff_forall_ne_some.2 fun S hS => hid ((hrepA.numbered id).2 ⟨S, hS⟩)
    have hnoneB := Option.eq_none_iff_forall_ne_some.2 fun T hT => hid (heq ▸ (hrepB.numbered id).2 ⟨T, hT⟩)
    rw [hnoneA, hnoneB, Option.map_none]

/-- The order of the states turned round, the edges of a state in another order, and edges given twice in one of the two
automata and once in the other. -/
theorem determinize_renames_reversed :
    let lists : List (StateName × List Transition) :=
      [(1, [⟨some "b", 4⟩, ⟨some "a", 9⟩, ⟨none, 1⟩]), (4, [⟨none, 9⟩, ⟨none, 9⟩]), (9, [⟨none, 4⟩, ⟨some "", 1⟩])]
    let lists' : List (StateName × List Transition) :=
      [(0, [⟨some "", 8⟩, ⟨none, 5⟩]), (5, [⟨none, 0⟩]), (8, [⟨none, 8⟩, ⟨some "a", 0⟩, ⟨some "b", 5⟩, ⟨some "a", 0⟩])]
    let A : Nfa := ⟨1, 9, .ofList lists⟩
    let B : Nfa := ⟨8, 0, .ofList lists'⟩
    let f : StateName → StateName := fun s => 9 - s
    A.WellFormed ∧ B.WellFormed ∧ Renames f A B ∧ ∃ dA dB, A.determinize = .ok dA ∧ B.determinize = .ok dB ∧
      dA.dfa = dB.dfa ∧ ∀ id, dB.composite? id = (dA.composite? id).map (StateSet.image f) := by
  intro lists lists' A B f
  have hA : A.WellFormed := by decide
  have hB : B.WellFormed := by decide
  have h : Renames f A B := by decide
  exact ⟨hA, hB, h, determinize_renames f A B hA hB h⟩

end Nfa

end Automata
