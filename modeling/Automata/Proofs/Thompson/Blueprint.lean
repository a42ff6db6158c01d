/-
# The automaton of an expression, written down at once

What the construction makes of an expression depends on the name it starts from and on nothing else: an expression
with `n = stateCount` states takes the names `p, …, p + n - 1`, its start and exit lie at fixed places among them,
and its edges come in a fixed order.  All of this is written down here by recursion on the tree, without a supply, a
relation or a stack.

A part keeps to its own names (`inside_edgesAt`, `fragmentAt_within`), and the names of the operands follow each
other, so different operands have no state in common.
-/
import Automata.Proofs.Listing
import Automata.Proofs.Paths
import Automata.Thompson.Fragment

namespace Automata

open Thompson

mutual

/-- The number of states of the automaton. -/
def Regex.stateCount : Regex → Nat
  | .lit _ => 2
  | .epsilon => 2
  | .cat os => os.stateCount
  | .alt os => os.stateCount + 2
  | .star r => r.stateCount + 1

/-- The number of states of all operands. -/
def Operands.stateCount : Operands → Nat
  | .pair a b => a.stateCount + b.stateCount
  | .cons a rest => a.stateCount + rest.stateCount

end

mutual

/-- The start and the exit of an expression that is built with the names from `p` on. -/
def Regex.fragmentAt : Regex → Nat → Fragment
  | .lit _, p => ⟨p, p + 1⟩
  | .epsilon, p => ⟨p, p + 1⟩
  | .cat os, p => os.spanAt p
  | .alt _, p => ⟨p, p + 1⟩
  | .star r, p => ⟨p + r.stateCount, p + r.stateCount⟩

/-- The start of the first operand and the exit of the last one. -/
def Operands.spanAt : Operands → Nat → Fragment
  | .pair a b, p => ⟨(a.fragmentAt p).start, (b.fragmentAt (p + a.stateCount)).exit⟩
  | .cons a rest, p => ⟨(a.fragmentAt p).start, (rest.spanAt (p + a.stateCount)).exit⟩

end

/-- The fragments of the operands. -/
def Operands.fragmentsAt : Operands → Nat → List Fragment
  | .pair a b, p => [a.fragmentAt p, b.fragmentAt (p + a.stateCount)]
  | .cons a rest, p => a.fragmentAt p :: rest.fragmentsAt (p + a.stateCount)

/-! ## Edges -/

/-- The edges from each part to its right neighbour. -/
def Thompson.joins : List Fragment → List Edge
  | a :: b :: rest => ⟨a.exit, none, b.start⟩ :: joins (b :: rest)
  | _ => []

/-- The edges that put the parts side by side between `ends`. -/
def Thompson.forks (ends : Fragment) : List Fragment → List Edge
  | [] => []
  | part :: rest => ⟨ends.start, none, part.start⟩ :: ⟨part.exit, none, ends.exit⟩ :: forks ends rest

mutual

/-- The edges of an expression that is built with the names from `p` on, in the order in which they are added. -/
def Regex.edgesAt : Regex → Nat → List Edge
  | .lit s, p => [⟨p, some s, p + 1⟩]
  | .epsilon, p => [⟨p, none, p + 1⟩]
  | .cat os, p => os.edgesAt p ++ joins (os.fragmentsAt p)
  | .alt os, p => os.edgesAt (p + 2) ++ forks ⟨p, p + 1⟩ (os.fragmentsAt (p + 2))
  | .star r, p =>
      let hub := p + r.stateCount
      r.edgesAt p ++ [⟨hub, none, (r.fragmentAt p).start⟩, ⟨(r.fragmentAt p).exit, none, hub⟩]

/-- The edges of all operands, without those that join them. -/
def Operands.edgesAt : Operands → Nat → List Edge
  | .pair a b, p => a.edgesAt p ++ b.edgesAt (p + a.stateCount)
  | .cons a rest, p => a.edgesAt p ++ rest.edgesAt (p + a.stateCount)

end

/-- The transitions that the edges give to a state, in order. -/
def outgoing (E : List Edge) (s : StateName) : List Transition :=
  E.filterMap fun e => if e.source = s then some ⟨e.label, e.target⟩ else none

/-- The automaton of an expression that is built with the names from `p` on. -/
def Regex.nfaAt (r : Regex) (p : Nat) : Nfa where
  start := (r.fragmentAt p).start
  exit := (r.fragmentAt p).exit
  relation := .ofList ((List.range' p r.stateCount).map fun s => (s, outgoing (r.edgesAt p) s))

/-! ## Names in use -/

/-- The names from `p` on up to `q`, which is not one of them. -/
def Names (p q s : Nat) : Prop := p ≤ s ∧ s < q

theorem Names.mono {p q p' q' s : Nat} (h : Names p q s) (hp : p' ≤ p) (hq : q ≤ q') :
    Names p' q' s :=
  ⟨Nat.le_trans hp h.1, Nat.lt_of_lt_of_le h.2 hq⟩

/-- Both ends of a fragment lie among the names. -/
def Thompson.Fragment.Within (part : Fragment) (p q : Nat) : Prop :=
  Names p q part.start ∧ Names p q part.exit

theorem Thompson.Fragment.Within.mono {part : Fragment} {p q p' q' : Nat} (h : part.Within p q)
    (hp : p' ≤ p) (hq : q ≤ q') : part.Within p' q' :=
  ⟨h.1.mono hp hq, h.2.mono hp hq⟩

mutual

theorem Regex.fragmentAt_within : ∀ (r : Regex) (p : Nat),
    (r.fragmentAt p).Within p (p + r.stateCount)
  | .lit _, p => by
      simp only [Regex.fragmentAt, Regex.stateCount, Fragment.Within, Names]
      omega
  | .epsilon, p => by
      simp only [Regex.fragmentAt, Regex.stateCount, Fragment.Within, Names]
      omega
  | .cat os, p => Operands.spanAt_within os p
  | .alt _, p => by
      simp only [Regex.fragmentAt, Regex.stateCount, Fragment.Within, Names]
      omega
  | .star _, p => by
      simp only [Regex.fragmentAt, Regex.stateCount, Fragment.Within, Names]
      omega

theorem Operands.spanAt_within : ∀ (os : Operands) (p : Nat),
    (os.spanAt p).Within p (p + os.stateCount)
  | .pair a b, p => by
      have ha := Regex.fragmentAt_within a p
      have hb := Regex.fragmentAt_within b (p + a.stateCount)
      simp only [Operands.spanAt, Operands.stateCount, Fragment.Within, Names] at *
      omega
  | .cons a rest, p => by
      have ha := Regex.fragmentAt_within a p
      have hrest := Operands.spanAt_within rest (p + a.stateCount)
      simp only [Operands.spanAt, Operands.stateCount, Fragment.Within, Names] at *
      omega

end

theorem Operands.fragmentsAt_within : ∀ (os : Operands) (p : Nat),
    ∀ part ∈ os.fragmentsAt p, part.Within p (p + os.stateCount)
  | .pair a b, p, part, h => by
      simp only [Operands.fragmentsAt, List.mem_cons, List.not_mem_nil, or_false] at h
      rcases h with rfl | rfl
      · exact (a.fragmentAt_within p).mono (by omega) (by simp only [Operands.stateCount]; omega)
      · exact (b.fragmentAt_within _).mono (by omega) (by simp only [Operands.stateCount]; omega)
  | .cons a rest, p, part, h => by
      rcases List.mem_cons.1 h with rfl | h
      · exact (a.fragmentAt_within p).mono (by omega) (by simp only [Operands.stateCount]; omega)
      · exact (Operands.fragmentsAt_within rest _ part h).mono (by omega)
          (by simp only [Operands.stateCount]; omega)

theorem Operands.ends_fragmentsAt : ∀ (os : Operands) (p : Nat), ∃ first last,
    (os.fragmentsAt p).head? = some first ∧ (os.fragmentsAt p).getLast? = some last ∧
      os.spanAt p = ⟨first.start, last.exit⟩
  | .pair a b, p => ⟨_, _, rfl, rfl, rfl⟩
  | .cons a rest, p => by
      obtain ⟨_, last, -, hlast, hspan⟩ := Operands.ends_fragmentsAt rest (p + a.stateCount)
      refine ⟨_, last, rfl, ?_, by rw [Operands.spanAt, hspan]⟩
      rw [Operands.fragmentsAt, List.getLast?_cons, hlast]
      rfl

/-! ## Edges keep to the names -/

theorem Inside.mono {E : List Edge} {I I' : StateName → Prop} (h : Inside I E)
    (hI : ∀ s, I s → I' s) : Inside I' E :=
  fun e he => ⟨hI _ (h e he).1, hI _ (h e he).2⟩

theorem Inside.append {E E' : List Edge} {I : StateName → Prop} (h : Inside I E)
    (h' : Inside I E') : Inside I (E ++ E') := by
  intro e he
  rcases List.mem_append.1 he with he | he
  · exact h e he
  · exact h' e he

theorem inside_names_mono {E : List Edge} {p q p' q' : Nat} (h : Inside (Names p q) E)
    (hp : p' ≤ p) (hq : q ≤ q') : Inside (Names p' q') E :=
  h.mono fun _ hs => hs.mono hp hq

theorem inside_joins {p q : Nat} : ∀ {parts : List Fragment},
    (∀ part ∈ parts, part.Within p q) → Inside (Names p q) (joins parts)
  | [], _ => fun _ he => absurd he List.not_mem_nil
  | [_], _ => fun _ he => absurd he List.not_mem_nil
  | a :: b :: rest, h => by
      intro e he
      rcases List.mem_cons.1 he with rfl | he
      · exact ⟨(h a List.mem_cons_self).2, (h b (List.mem_cons_of_mem _ List.mem_cons_self)).1⟩
      · exact inside_joins (fun part hp => h part (List.mem_cons_of_mem _ hp)) e he

theorem mem_forks_iff {ends : Fragment} {e : Edge} {parts : List Fragment} : e ∈ forks ends parts ↔
    ∃ part ∈ parts, e = ⟨ends.start, none, part.start⟩ ∨ e = ⟨part.exit, none, ends.exit⟩ := by
  induction parts with
  | nil => simp [forks]
  | cons part rest ih => simp [forks, ih, or_assoc]

mutual

theorem Regex.inside_edgesAt : ∀ (r : Regex) (p : Nat),
    Inside (Names p (p + r.stateCount)) (r.edgesAt p)
  | .lit _, p => by
      intro e he
      obtain rfl := List.mem_singleton.1 he
      simp only [Regex.stateCount, Names]
      omega
  | .epsilon, p => by
      intro e he
      obtain rfl := List.mem_singleton.1 he
      simp only [Regex.stateCount, Names]
      omega
  | .cat os, p => (Operands.inside_edgesAt os p).append (inside_joins (os.fragmentsAt_within p))
  | .alt os, p => by
      have hos := Operands.inside_edgesAt os (p + 2)
      refine (inside_names_mono hos (by omega) (by simp only [Regex.stateCount]; omega)).append ?_
      intro e he
      obtain ⟨part, hpart, he⟩ := mem_forks_iff.1 he
      have hw := os.fragmentsAt_within (p + 2) part hpart
      rcases he with rfl | rfl <;> simp only [Regex.stateCount, Fragment.Within, Names] at * <;> omega
  | .star r, p => by
      have hr := Regex.inside_edgesAt r p
      have hw := r.fragmentAt_within p
      refine (inside_names_mono hr (by omega) (by simp only [Regex.stateCount]; omega)).append ?_
      intro e he
      simp only [List.mem_cons, List.not_mem_nil, or_false] at he
      rcases he with rfl | rfl <;> simp only [Regex.stateCount, Fragment.Within, Names] at * <;> omega

theorem Operands.inside_edgesAt : ∀ (os : Operands) (p : Nat),
    Inside (Names p (p + os.stateCount)) (os.edgesAt p)
  | .pair a b, p => by
      have ha := Regex.inside_edgesAt a p
      have hb := Regex.inside_edgesAt b (p + a.stateCount)
      exact (inside_names_mono ha (by omega) (by simp only [Operands.stateCount]; omega)).append
        (inside_names_mono hb (by omega) (by simp only [Operands.stateCount]; omega))
  | .cons a rest, p => by
      have ha := Regex.inside_edgesAt a p
      have hrest := Operands.inside_edgesAt rest (p + a.stateCount)
      exact (inside_names_mono ha (by omega) (by simp only [Operands.stateCount]; omega)).append
        (inside_names_mono hrest (by omega) (by simp only [Operands.stateCount]; omega))

end

/-! ## The automaton -/

theorem mem_outgoing_iff {E : List Edge} {s : StateName} {t : Transition} :
    t ∈ outgoing E s ↔ ⟨s, t.label, t.target⟩ ∈ E := by
  simp only [outgoing, List.mem_filterMap, Option.ite_none_right_eq_some, Option.some.injEq]
  constructor
  · rintro ⟨e, he, rfl, rfl⟩
    exact he
  · intro h
    exact ⟨_, h, rfl, rfl⟩

theorem outgoing_append {E E' : List Edge} {s : StateName} :
    outgoing (E ++ E') s = outgoing E s ++ outgoing E' s :=
  List.filterMap_append

theorem outgoing_eq_nil {E : List Edge} {s : StateName} (h : ∀ e ∈ E, e.source ≠ s) : outgoing E s = [] := by
  refine List.filterMap_eq_nil_iff.2 ?_
  intro e he
  exact if_neg (h e he)

namespace Regex

variable {r : Regex} {p : Nat}

/-- The states of the automaton are the names taken, each with the transitions its edges give it. -/
theorem transitions?_nfaAt (s : StateName) : (r.nfaAt p).transitions? s
    = if p ≤ s ∧ s < p + r.stateCount then some (outgoing (r.edgesAt p) s) else none := by
  simp only [Nfa.transitions?, nfaAt]
  split
  · next h =>
      refine Std.ExtTreeMap.getElem?_ofList_of_mem (k := s) (by simp) ?_ ?_
      · rw [List.pairwise_map]
        exact (List.nodup_range' 1).imp fun h => by simpa using h
      · simp only [List.mem_map, List.mem_range'_1, Prod.mk.injEq]
        exact ⟨s, h, rfl, rfl⟩
  · next h =>
      refine Std.ExtTreeMap.getElem?_ofList_of_contains_eq_false ?_
      simp only [List.map_map, List.contains_eq_mem, decide_eq_false_iff_not]
      simpa [List.mem_range'_1] using h

theorem toList_relation_nfaAt : (r.nfaAt p).relation.toList
    = (List.range' p r.stateCount).map fun s => (s, outgoing (r.edgesAt p) s) := by
  have hascending : ((List.range' p r.stateCount).map fun s => (s, outgoing (r.edgesAt p) s)).Pairwise
      fun x y => compare x.1 y.1 = .lt :=
    List.pairwise_map.2 ((List.pairwise_lt_range').imp Nat.compare_eq_lt.2)
  refine eq_of_ascending Prod.fst Std.ExtTreeMap.ordered_keys_toList hascending ?_
  rintro ⟨s, ts⟩
  rw [Std.ExtTreeMap.mem_toList_iff_getElem?_eq_some, ← Nfa.transitions?, transitions?_nfaAt]
  simp only [Option.ite_none_right_eq_some, Option.some.injEq, List.mem_map, List.mem_range'_1, Prod.mk.injEq]
  constructor
  · rintro ⟨hs, hts⟩
    exact ⟨s, hs, rfl, hts⟩
  · rintro ⟨s, hs, rfl, hts⟩
    exact ⟨hs, hts⟩

theorem mem_relation_nfaAt {s : StateName} :
    s ∈ (r.nfaAt p).relation ↔ Names p (p + r.stateCount) s := by
  rw [Std.ExtTreeMap.mem_iff_isSome_getElem?, ← Nfa.transitions?, transitions?_nfaAt]
  unfold Names
  split <;> simp_all

theorem mem_edges_nfaAt {e : Edge} : e ∈ (r.nfaAt p).edges ↔ e ∈ r.edgesAt p := by
  obtain ⟨s, l, t⟩ := e
  rw [Nfa.mem_edges_iff, transitions?_nfaAt]
  constructor
  · rintro ⟨ts, hts, ht⟩
    rw [Option.ite_none_right_eq_some] at hts
    rw [← Option.some.inj hts.2] at ht
    exact mem_outgoing_iff.1 ht
  · intro h
    exact ⟨_, if_pos (r.inside_edgesAt p _ h).1, mem_outgoing_iff.2 h⟩

theorem wellFormed_nfaAt (r : Regex) (p : Nat) : (r.nfaAt p).WellFormed := by
  refine ⟨mem_relation_nfaAt.2 (r.fragmentAt_within p).1, mem_relation_nfaAt.2 (r.fragmentAt_within p).2,
    fun e he => mem_relation_nfaAt.2 ?_⟩
  exact (r.inside_edgesAt p e (mem_edges_nfaAt.1 he)).2

end Regex

end Automata
