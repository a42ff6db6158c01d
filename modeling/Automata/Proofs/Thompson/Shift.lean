/-
# Building with other names

The names that a construction takes are all counted from where the supply stands.  So an expression built with the
names from `p + k` on gives the automaton that it gives with the names from `p` on, with `k` added to every state
(`Regex.edgesAt_add`, `Regex.toList_relation_nfaAt_add`): the edges come in the same order, and those of a state in
the same order too.

The one automaton is the other renamed, therefore both have the same deterministic automaton, and the members of the
set behind each of its states differ by `k` as well.  What is built on a supply in use is what is built on a fresh one.
-/
import Automata.Proofs.Subset.Renaming
import Automata.Proofs.Thompson.Drawing

namespace Automata

open Thompson

variable {f : StateName → StateName}

/-! ## Images of edges -/

/-- The fragment between the images of its ends. -/
def Thompson.Fragment.image (f : StateName → StateName) (part : Fragment) : Fragment := ⟨f part.start, f part.exit⟩

/-- The transition to the image of its target. -/
def Transition.image (f : StateName → StateName) (t : Transition) : Transition := ⟨t.label, f t.target⟩

theorem joins_image (f : StateName → StateName) : ∀ parts : List Fragment,
    joins (parts.map (Fragment.image f)) = (joins parts).map (Edge.image f)
  | [] => rfl
  | [_] => rfl
  | _ :: b :: rest => congrArg (_ :: ·) (joins_image f (b :: rest))

theorem forks_image (f : StateName → StateName) (ends : Fragment) : ∀ parts : List Fragment,
    forks (ends.image f) (parts.map (Fragment.image f)) = (forks ends parts).map (Edge.image f)
  | [] => rfl
  | _ :: rest => congrArg (_ :: _ :: ·) (forks_image f ends rest)

theorem outgoing_image (hf : Function.Injective f) (E : List Edge) (s : StateName) :
    outgoing (E.map (Edge.image f)) (f s) = (outgoing E s).map (Transition.image f) := by
  rw [outgoing, List.filterMap_map, outgoing, List.map_filterMap]
  refine List.filterMap_congr fun e _ => ?_
  simp only [Function.comp_apply, Edge.image, hf.eq_iff]
  split
  · rfl
  · rfl

/-! ## The blueprint -/

mutual

theorem Regex.fragmentAt_add : ∀ (r : Regex) (p k : Nat),
    r.fragmentAt (p + k) = (r.fragmentAt p).image (· + k)
  | .lit _, p, k => by simp only [Regex.fragmentAt, Fragment.image, Nat.add_right_comm]
  | .epsilon, p, k => by simp only [Regex.fragmentAt, Fragment.image, Nat.add_right_comm]
  | .cat os, p, k => os.spanAt_add p k
  | .alt _, p, k => by simp only [Regex.fragmentAt, Fragment.image, Nat.add_right_comm]
  | .star r, p, k => by simp only [Regex.fragmentAt, Fragment.image, Nat.add_right_comm]

theorem Operands.spanAt_add : ∀ (os : Operands) (p k : Nat), os.spanAt (p + k) = (os.spanAt p).image (· + k)
  | .pair a b, p, k => by
      simp only [Operands.spanAt, Nat.add_right_comm p k, a.fragmentAt_add, b.fragmentAt_add, Fragment.image]
  | .cons a rest, p, k => by
      simp only [Operands.spanAt, Nat.add_right_comm p k, a.fragmentAt_add, rest.spanAt_add, Fragment.image]

end

theorem Operands.fragmentsAt_add : ∀ (os : Operands) (p k : Nat),
    os.fragmentsAt (p + k) = (os.fragmentsAt p).map (Fragment.image (· + k))
  | .pair a b, p, k => by
      simp only [Operands.fragmentsAt, Nat.add_right_comm p k, a.fragmentAt_add, b.fragmentAt_add, List.map_cons,
        List.map_nil]
  | .cons a rest, p, k => by
      simp only [Operands.fragmentsAt, Nat.add_right_comm p k, a.fragmentAt_add, rest.fragmentsAt_add, List.map_cons]

mutual

theorem Regex.edgesAt_add : ∀ (r : Regex) (p k : Nat),
    r.edgesAt (p + k) = (r.edgesAt p).map (Edge.image (· + k))
  | .lit _, p, k => by simp only [Regex.edgesAt, Edge.image, Nat.add_right_comm, List.map_cons, List.map_nil]
  | .epsilon, p, k => by simp only [Regex.edgesAt, Edge.image, Nat.add_right_comm, List.map_cons, List.map_nil]
  | .cat os, p, k => by
      rw [Regex.edgesAt, os.edgesAt_add, os.fragmentsAt_add, joins_image, ← List.map_append, Regex.edgesAt]
  | .alt os, p, k => by
      have hends : (⟨p + k, p + k + 1⟩ : Fragment) = Fragment.image (· + k) ⟨p, p + 1⟩ := by
        rw [Nat.add_right_comm]
        rfl
      rw [Regex.edgesAt, Nat.add_right_comm, os.edgesAt_add, os.fragmentsAt_add, hends, forks_image, ← List.map_append,
        Regex.edgesAt]
  | .star r, p, k => by
      simp only [Regex.edgesAt, Nat.add_right_comm p k, r.edgesAt_add, r.fragmentAt_add, Fragment.image,
        List.map_append, List.map_cons, List.map_nil, Edge.image]

theorem Operands.edgesAt_add : ∀ (os : Operands) (p k : Nat),
    os.edgesAt (p + k) = (os.edgesAt p).map (Edge.image (· + k))
  | .pair a b, p, k => by
      simp only [Operands.edgesAt, Nat.add_right_comm p k, a.edgesAt_add, b.edgesAt_add, List.map_append]
  | .cons a rest, p, k => by
      simp only [Operands.edgesAt, Nat.add_right_comm p k, a.edgesAt_add, rest.edgesAt_add, List.map_append]

end

namespace Regex

/-- With the names moved by `k`, every state and every target moves by `k`, and nothing else changes. -/
theorem toList_relation_nfaAt_add (r : Regex) (p k : Nat) : (r.nfaAt (p + k)).relation.toList
    = (r.nfaAt p).relation.toList.map fun (s, ts) => (s + k, ts.map (Transition.image (· + k))) := by
  have hnames : List.range' (p + k) r.stateCount = (List.range' p r.stateCount).map (· + k) := by
    rw [Nat.add_comm, ← List.map_add_range']
    exact List.map_congr_left fun s _ => Nat.add_comm k s
  rw [toList_relation_nfaAt, toList_relation_nfaAt, hnames, List.map_map, List.map_map, r.edgesAt_add]
  refine List.map_congr_left fun s _ => ?_
  simp only [Function.comp_apply, outgoing_image (add_left_injective k)]

theorem renames_nfaAt_add (r : Regex) (p k : Nat) : Nfa.Renames (· + k) (r.nfaAt p) (r.nfaAt (p + k)) where
  injective _ _ _ _ h := Nat.add_right_cancel h
  start := congrArg Fragment.start (r.fragmentAt_add p k)
  exit := congrArg Fragment.exit (r.fragmentAt_add p k)
  states := by
    intro t
    simp only [mem_relation_nfaAt, Names]
    constructor
    · rintro ⟨hp, hq⟩
      exact ⟨t - k, by omega, Nat.sub_add_cancel (by omega)⟩
    · rintro ⟨s, hs, rfl⟩
      omega
  edges := by
    intro s _ l t
    simp only [mem_edges_nfaAt, r.edgesAt_add, List.mem_map, Edge.image, Edge.mk.injEq]
    constructor
    · rintro ⟨⟨s', l', u⟩, he, hs, rfl, rfl⟩
      obtain rfl := Nat.add_right_cancel hs
      exact ⟨u, he, rfl⟩
    · rintro ⟨u, he, rfl⟩
      exact ⟨⟨s, l, u⟩, he, rfl, rfl, rfl⟩

/-! ## Supplies in use and fresh ones -/

/-- Where the construction from a supply in use does not run out of names, the one from a fresh supply does not either.
The first automaton is the second with all states moved to where the supply stood.  Both have the same deterministic
automaton, and the members of the sets behind its states are moved likewise. -/
theorem toNfa_shifted (r : Regex) (supply : StateSupply) (h : ∀ e, (r.toNfa supply).1 ≠ .error (.exhausted e)) :
    ∃ A B, (r.toNfa supply).1 = .ok A ∧ r.compile = .ok B ∧
      A.start = B.start + supply.next ∧ A.exit = B.exit + supply.next ∧
      A.relation.toList = B.relation.toList.map (fun (s, ts) =>
        (s + supply.next, ts.map fun t => ⟨t.label, t.target + supply.next⟩)) ∧
      ∃ dA dB, A.determinize = .ok dA ∧ B.determinize = .ok dB ∧ dA.dfa = dB.dfa ∧
        ∀ id, dA.composite? id = (dB.composite? id).map (StateSet.image (· + supply.next)) := by
  have hren : Nfa.Renames (· + supply.next) (r.nfaAt 0) (r.nfaAt supply.next) := by
    simpa only [Nat.zero_add] using r.renames_nfaAt_add 0 supply.next
  have hrelation := r.toList_relation_nfaAt_add 0 supply.next
  rw [Nat.zero_add] at hrelation
  have hB := r.wellFormed_nfaAt 0
  have hA := r.wellFormed_nfaAt supply.next
  obtain ⟨dB, dA, hdB, hdA, hrepB, hrepA, hbf, heq⟩ := Nfa.determinize_eq_of_meets hB hA
    (fun _ _ => hren.meets_iff hB) fun _ => hren.accepts_iff hB
  have hcompile : ∀ e, r.compile ≠ .error (.exhausted e) :=
    compile_ne_exhausted (Nat.le_of_add_left_le (fits_of_not_exhausted h))
  refine ⟨_, _, toNfa_of_not_exhausted h, toNfa_of_not_exhausted hcompile, hren.start, hren.exit, hrelation,
    dA, dB, hdA, hdB, heq.symm, ?_⟩
  refine hrepB.composite?_map hB hA hrepA hbf heq fun w S T hS hT => Std.ExtTreeSet.ext_mem fun t => ?_
  rw [hT, hren.path_iff hB, StateSet.mem_image_iff]
  exact exists_congr fun s => by rw [hS]

/-- A repetition around two operands, built with the last names there are. -/
theorem toNfa_shifted_last_names :
    let r : Regex := .star (.alt (.pair (.lit "a") (.cat (.pair (.lit "") .epsilon))))
    let supply : StateSupply := ⟨lastState - 9, by decide⟩
    (∀ e, (r.toNfa supply).1 ≠ .error (.exhausted e)) ∧
      ∃ A B, (r.toNfa supply).1 = .ok A ∧ r.compile = .ok B ∧ A.start = B.start + (2 ^ 64 - 10) ∧
        ∃ dA dB, A.determinize = .ok dA ∧ B.determinize = .ok dB ∧ dA.dfa = dB.dfa := by
  intro r supply
  have h : ∀ e, (r.toNfa supply).1 ≠ .error (.exhausted e) := by
    rw [toNfa_of_fits (by decide)]
    exact fun _ => nofun
  obtain ⟨A, B, hA, hB, hstart, -, -, dA, dB, hdA, hdB, heq, -⟩ := toNfa_shifted r supply h
  exact ⟨h, A, B, hA, hB, hstart, dA, dB, hdA, hdB, heq⟩

end Regex

end Automata
