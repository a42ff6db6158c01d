/-
# Where the symbols of an expression lie

Each leaf with a symbol becomes one edge, and these are all labelled edges (`Regex.filter_edgesAt`): whatever operators
stand around a leaf, they add epsilon edges only.  Built with given names, the leaves lie at fixed places in the order
in which they are read (`Regex.literalsAt`), two names for each, so no two of their edges start or end at one state.
-/
import Automata.Proofs.Thompson.Leaves

namespace Automata

open Thompson

mutual

/-- The symbols of the leaves, from left to right. -/
def Regex.literals : Regex → List String
  | .lit s => [s]
  | .epsilon => []
  | .cat os => os.literals
  | .alt os => os.literals
  | .star r => r.literals

/-- The symbols of the leaves of all operands. -/
def Operands.literals : Operands → List String
  | .pair a b => a.literals ++ b.literals
  | .cons a rest => a.literals ++ rest.literals

end

mutual

/-- The leaves with symbols, each with the state that its edge starts from, for names from `p` on. -/
def Regex.literalsAt : Regex → Nat → List (StateName × String)
  | .lit s, p => [(p, s)]
  | .epsilon, _ => []
  | .cat os, p => os.literalsAt p
  | .alt os, p => os.literalsAt (p + 2)
  | .star r, p => r.literalsAt p

/-- The leaves of all operands. -/
def Operands.literalsAt : Operands → Nat → List (StateName × String)
  | .pair a b, p => a.literalsAt p ++ b.literalsAt (p + a.stateCount)
  | .cons a rest, p => a.literalsAt p ++ rest.literalsAt (p + a.stateCount)

end

/-- The edge of a leaf. -/
def literalEdge (l : StateName × String) : Edge := ⟨l.1, some l.2, l.1 + 1⟩

mutual

theorem Regex.map_snd_literalsAt : ∀ (r : Regex) (p : Nat), (r.literalsAt p).map Prod.snd = r.literals
  | .lit _, _ => rfl
  | .epsilon, _ => rfl
  | .cat os, p => os.map_snd_literalsAt p
  | .alt os, p => os.map_snd_literalsAt (p + 2)
  | .star r, p => r.map_snd_literalsAt p

theorem Operands.map_snd_literalsAt : ∀ (os : Operands) (p : Nat), (os.literalsAt p).map Prod.snd = os.literals
  | .pair a b, p => by
      rw [Operands.literalsAt, List.map_append, a.map_snd_literalsAt, b.map_snd_literalsAt, Operands.literals]
  | .cons a rest, p => by
      rw [Operands.literalsAt, List.map_append, a.map_snd_literalsAt, rest.map_snd_literalsAt, Operands.literals]

end

/-! ## Labelled edges -/

mutual

/-- The labelled edges are those of the leaves, in their order. -/
theorem Regex.filter_edgesAt : ∀ (r : Regex) (p : Nat),
    (r.edgesAt p).filter (·.label.isSome) = (r.literalsAt p).map literalEdge
  | .lit _, _ => rfl
  | .epsilon, _ => rfl
  | .cat os, p => by
      have hjoins : (joins (os.fragmentsAt p)).filter (·.label.isSome) = [] :=
        List.filter_eq_nil_iff.2 fun e he => by simp [label_joins e he]
      rw [Regex.edgesAt, List.filter_append, os.filter_edgesAt, hjoins, List.append_nil, Regex.literalsAt]
  | .alt os, p => by
      have hforks : (forks ⟨p, p + 1⟩ (os.fragmentsAt (p + 2))).filter (·.label.isSome) = [] :=
        List.filter_eq_nil_iff.2 fun e he => by simp [label_forks e he]
      rw [Regex.edgesAt, List.filter_append, os.filter_edgesAt, hforks, List.append_nil, Regex.literalsAt]
  | .star r, p => by
      rw [Regex.edgesAt, List.filter_append, r.filter_edgesAt, Regex.literalsAt]
      exact List.append_nil _

theorem Operands.filter_edgesAt : ∀ (os : Operands) (p : Nat),
    (os.edgesAt p).filter (·.label.isSome) = (os.literalsAt p).map literalEdge
  | .pair a b, p => by
      rw [Operands.edgesAt, List.filter_append, a.filter_edgesAt, b.filter_edgesAt, ← List.map_append,
        Operands.literalsAt]
  | .cons a rest, p => by
      rw [Operands.edgesAt, List.filter_append, a.filter_edgesAt, rest.filter_edgesAt, ← List.map_append,
        Operands.literalsAt]

end

theorem Regex.mem_edgesAt_iff {r : Regex} {p : Nat} {s t : StateName} {a : String} :
    ⟨s, some a, t⟩ ∈ r.edgesAt p ↔ (s, a) ∈ r.literalsAt p ∧ t = s + 1 := by
  have hfilter : ⟨s, some a, t⟩ ∈ r.edgesAt p ↔ ⟨s, some a, t⟩ ∈ (r.edgesAt p).filter (·.label.isSome) := by
    simp [List.mem_filter]
  rw [hfilter, r.filter_edgesAt, List.mem_map]
  constructor
  · rintro ⟨l, hl, he⟩
    obtain ⟨rfl, ha, rfl⟩ := Edge.mk.inj he
    obtain rfl := Option.some.inj ha
    exact ⟨hl, rfl⟩
  · rintro ⟨hl, rfl⟩
    exact ⟨(s, a), hl, rfl⟩

/-! ## Places -/

theorem Regex.literalsAt_within {r : Regex} {p : Nat} : ∀ l ∈ r.literalsAt p,
    p ≤ l.1 ∧ l.1 + 1 < p + r.stateCount := by
  intro l hl
  have hinside := r.inside_edgesAt p (literalEdge l) (mem_edgesAt_iff.2 ⟨hl, rfl⟩)
  exact ⟨hinside.1.1, hinside.2.2⟩

theorem pairwise_literals_append {L L' : List (StateName × String)} {m : Nat}
    (h : L.Pairwise fun x y => x.1 + 1 < y.1) (h' : L'.Pairwise fun x y => x.1 + 1 < y.1)
    (hbefore : ∀ l ∈ L, l.1 + 1 < m) (hbehind : ∀ l ∈ L', m ≤ l.1) :
    (L ++ L').Pairwise fun x y => x.1 + 1 < y.1 := by
  refine List.pairwise_append.2 ⟨h, h', ?_⟩
  intro x hx y hy
  exact Nat.lt_of_lt_of_le (hbefore x hx) (hbehind y hy)

mutual

/-- No state belongs to the edges of two leaves, and the leaves come in the order of their states. -/
theorem Regex.pairwise_literalsAt : ∀ (r : Regex) (p : Nat),
    (r.literalsAt p).Pairwise fun x y => x.1 + 1 < y.1
  | .lit _, _ => List.pairwise_singleton _ _
  | .epsilon, _ => .nil
  | .cat os, p => os.pairwise_literalsAt p
  | .alt os, p => os.pairwise_literalsAt (p + 2)
  | .star r, p => r.pairwise_literalsAt p

theorem Operands.pairwise_literalsAt : ∀ (os : Operands) (p : Nat),
    (os.literalsAt p).Pairwise fun x y => x.1 + 1 < y.1
  | .pair a b, p =>
      pairwise_literals_append (a.pairwise_literalsAt p) (b.pairwise_literalsAt _)
        (fun l hl => (Regex.literalsAt_within l hl).2) fun l hl => (Regex.literalsAt_within l hl).1
  | .cons a rest, p =>
      pairwise_literals_append (a.pairwise_literalsAt p) (rest.pairwise_literalsAt _)
        (fun l hl => (Regex.literalsAt_within l hl).2)
        fun l hl => (Regex.literalsAt_within (r := .cat rest) l hl).1

end

theorem Regex.symbol_unique {r : Regex} {p : Nat} {s : StateName} {a b : String} (ha : (s, a) ∈ r.literalsAt p)
    (hb : (s, b) ∈ r.literalsAt p) : a = b := by
  have hsources : ((r.literalsAt p).map Prod.fst).Nodup :=
    List.pairwise_map.2 ((r.pairwise_literalsAt p).imp fun h => Nat.ne_of_lt (Nat.lt_of_succ_lt h))
  exact congrArg Prod.snd (List.inj_on_of_nodup_map hsources ha hb rfl)

end Automata
