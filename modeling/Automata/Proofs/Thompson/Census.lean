/-
# The edges of the automaton, counted

An automaton lists its edges by ascending source.  The list has the edges of the blueprint in another order, none lost
and none twice (`Regex.perm_edges_nfaAt`), and the labelled ones stay in the order of the leaves, because the leaves lie
in the order of their names (`Regex.labels_nfaAt`).

An operator adds edges from the exits of its operands and from states of its own, to their starts and to states of its
own.  A state that is, or may become, the source of an epsilon edge in this way is called silent, and the edge of a leaf
never starts from one (`Regex.not_silent`).  So this edge is alone at its source, and it is alone at its target, where
no epsilon edge arrives (`Regex.not_entered`).  How many epsilon edges there are follows from the number of operands at
each operator (`Regex.length_filter_edgesAt`).
-/
import Automata.Proofs.Thompson.Literals

namespace Automata

open Thompson

/-! ## The listing by sources -/

theorem Nfa.edges_ascending (nfa : Nfa) : nfa.edges.Pairwise fun e f => e.source ≤ f.source := by
  refine List.pairwise_flatMap.2 ⟨?_, ?_⟩
  · rintro ⟨s, ts⟩ -
    exact List.pairwise_map.2 (List.pairwise_of_forall fun _ _ => Nat.le_refl s)
  · refine Std.ExtTreeMap.ordered_keys_toList.imp ?_
    rintro ⟨s, ts⟩ ⟨s', ts'⟩ hlt e he f hf
    obtain ⟨_, -, rfl⟩ := List.mem_map.1 he
    obtain ⟨_, -, rfl⟩ := List.mem_map.1 hf
    exact Nat.le_of_lt (Nat.compare_eq_lt.1 hlt)

theorem map_outgoing (E : List Edge) (s : StateName) :
    ((outgoing E s).map fun t => ⟨s, t.label, t.target⟩) = E.filter (·.source = s) := by
  induction E with
  | nil => rfl
  | cons e E ih =>
      by_cases h : e.source = s
      · obtain rfl := h
        simpa [outgoing] using ih
      · simpa [outgoing, h] using ih

namespace Regex

variable {r : Regex} {p : Nat}

theorem edges_nfaAt : (r.nfaAt p).edges
    = (List.range' p r.stateCount).flatMap fun s => (r.edgesAt p).filter (·.source = s) := by
  rw [Nfa.edges, toList_relation_nfaAt, List.flatMap_map]
  exact List.flatMap_congr fun s _ => map_outgoing _ s

theorem perm_edges_nfaAt : (r.nfaAt p).edges.Perm (r.edgesAt p) := by
  rw [edges_nfaAt]
  refine flatMap_filter_perm (List.nodup_range' 1) fun e he => ?_
  exact List.mem_range'_1.2 (r.inside_edgesAt p e he).1

/-! ## Labels -/

/-- The labelled edges keep the order of the leaves when all edges are listed by their sources. -/
theorem filter_edges_nfaAt :
    (r.nfaAt p).edges.filter (·.label.isSome) = (r.literalsAt p).map literalEdge := by
  have hleaves : ((r.literalsAt p).map literalEdge).Pairwise fun e f => e.source < f.source :=
    List.pairwise_map.2 ((r.pairwise_literalsAt p).imp Nat.lt_of_succ_lt)
  have hperm : ((r.nfaAt p).edges.filter (·.label.isSome)).Perm ((r.literalsAt p).map literalEdge) := by
    rw [← r.filter_edgesAt]
    exact perm_edges_nfaAt.filter _
  refine hperm.eq_of_pairwise ?_ ((r.nfaAt p).edges_ascending.filter _) (hleaves.imp Nat.le_of_lt)
  -- two edges of leaves that start from one state are one edge
  intro e f he hf hef hfe
  have hinj := List.inj_on_of_nodup_map (f := Edge.source) (List.pairwise_map.2 (hleaves.imp Nat.ne_of_lt))
  exact hinj (hperm.mem_iff.1 he) hf (Nat.le_antisymm hef hfe)

theorem labels_nfaAt : (r.nfaAt p).edges.filterMap (·.label) = r.literals := by
  have hlabelled : (r.nfaAt p).edges.filterMap (·.label)
      = ((r.nfaAt p).edges.filter (·.label.isSome)).filterMap (·.label) := by
    rw [List.filterMap_filter]
    refine List.filterMap_congr fun e _ => ?_
    cases e.label <;> rfl
  rw [hlabelled, filter_edges_nfaAt, List.filterMap_map, ← r.map_snd_literalsAt p]
  exact congrFun List.filterMap_eq_map' _

end Regex

/-! ## Sources of epsilon edges -/

theorem Thompson.source_joins : ∀ {parts : List Fragment}, ∀ e ∈ joins parts, ∃ part ∈ parts, e.source = part.exit
  | [], _, he => absurd he List.not_mem_nil
  | [_], _, he => absurd he List.not_mem_nil
  | a :: _ :: _, e, he => by
      rcases List.mem_cons.1 he with rfl | he
      · exact ⟨a, List.mem_cons_self, rfl⟩
      · obtain ⟨part, hpart, hsource⟩ := source_joins e he
        exact ⟨part, List.mem_cons_of_mem _ hpart, hsource⟩

/-- An epsilon edge starts from the state, or an operator around may add one because it is the exit. -/
def Regex.Silent (r : Regex) (p : Nat) (s : StateName) : Prop :=
  (∃ t, ⟨s, none, t⟩ ∈ r.edgesAt p) ∨ (r.fragmentAt p).exit = s

/-- The same for operands, which have an exit each. -/
def Operands.Silent (os : Operands) (p : Nat) (s : StateName) : Prop :=
  (∃ t, ⟨s, none, t⟩ ∈ os.edgesAt p) ∨ ∃ part ∈ os.fragmentsAt p, part.exit = s

theorem Regex.Silent.names {r : Regex} {p : Nat} {s : StateName} (h : r.Silent p s) :
    Names p (p + r.stateCount) s := by
  rcases h with ⟨t, ht⟩ | rfl
  · exact (r.inside_edgesAt p _ ht).1
  · exact (r.fragmentAt_within p).2

theorem Operands.Silent.names {os : Operands} {p : Nat} {s : StateName} (h : os.Silent p s) :
    Names p (p + os.stateCount) s := by
  rcases h with ⟨t, ht⟩ | ⟨part, hpart, rfl⟩
  · exact (os.inside_edgesAt p _ ht).1
  · exact (os.fragmentsAt_within p part hpart).2

theorem Operands.silent_pair_iff {a b : Regex} {p : Nat} {s : StateName} :
    (Operands.pair a b).Silent p s ↔ a.Silent p s ∨ b.Silent (p + a.stateCount) s := by
  simp [Operands.Silent, Regex.Silent, Operands.edgesAt, Operands.fragmentsAt, exists_or, or_or_or_comm]

theorem Operands.silent_cons_iff {a : Regex} {rest : Operands} {p : Nat} {s : StateName} :
    (Operands.cons a rest).Silent p s ↔ a.Silent p s ∨ rest.Silent (p + a.stateCount) s := by
  simp [Operands.Silent, Regex.Silent, Operands.edgesAt, Operands.fragmentsAt, exists_or, or_or_or_comm]

theorem Regex.Silent.operands {os : Operands} {p : Nat} {s : StateName} (h : (Regex.cat os).Silent p s) :
    os.Silent p s := by
  rcases h with ⟨t, ht⟩ | hexit
  · rcases List.mem_append.1 ht with ht | ht
    · exact Or.inl ⟨t, ht⟩
    · obtain ⟨part, hpart, hs⟩ := source_joins _ ht
      exact Or.inr ⟨part, hpart, hs.symm⟩
  · obtain ⟨_, last, -, hlast, hspan⟩ := os.ends_fragmentsAt p
    rw [Regex.fragmentAt, hspan] at hexit
    exact Or.inr ⟨last, List.mem_of_getLast? hlast, hexit⟩

theorem Regex.Silent.branches {os : Operands} {p : Nat} {s : StateName} (h : (Regex.alt os).Silent p s) :
    s < p + 2 ∨ os.Silent (p + 2) s := by
  rcases h with ⟨t, ht⟩ | rfl
  · rcases List.mem_append.1 ht with ht | ht
    · exact Or.inr (Or.inl ⟨t, ht⟩)
    · obtain ⟨part, hpart, he | he⟩ := mem_forks_iff.1 ht
      · obtain rfl : s = p := congrArg Edge.source he
        exact Or.inl (Nat.lt_add_of_pos_right Nat.two_pos)
      · exact Or.inr (Or.inr ⟨part, hpart, (congrArg Edge.source he).symm⟩)
  · exact Or.inl (Nat.lt_succ_self _)

theorem Regex.Silent.body {r : Regex} {p : Nat} {s : StateName} (h : (Regex.star r).Silent p s) :
    s = p + r.stateCount ∨ r.Silent p s := by
  rcases h with ⟨t, ht⟩ | rfl
  · rcases List.mem_append.1 ht with ht | ht
    · exact Or.inr (Or.inl ⟨t, ht⟩)
    · rcases List.mem_cons.1 ht with he | ht
      · exact Or.inl (congrArg Edge.source he)
      · have he := List.mem_singleton.1 ht
        exact Or.inr (Or.inr (congrArg Edge.source he).symm)
  · exact Or.inl rfl

mutual

/-- The edge of a leaf never starts from a silent state. -/
theorem Regex.not_silent : ∀ (r : Regex) (p : Nat), ∀ l ∈ r.literalsAt p, ¬ r.Silent p l.1
  | .lit _, p, l, hl => by
      obtain rfl := List.mem_singleton.1 hl
      simp [Regex.Silent, Regex.edgesAt, Regex.fragmentAt]
  | .epsilon, _, _, hl => absurd hl List.not_mem_nil
  | .cat os, p, l, hl => fun h => Operands.not_silent os p l hl h.operands
  | .alt os, p, l, hl => by
      intro h
      rcases h.branches with hlt | h
      · exact Nat.not_le.2 hlt (Regex.literalsAt_within (r := .cat os) l hl).1
      · exact Operands.not_silent os (p + 2) l hl h
  | .star r, p, l, hl => by
      intro h
      rcases h.body with heq | h
      · exact Nat.ne_of_lt (Nat.lt_of_succ_lt (Regex.literalsAt_within (r := r) l hl).2) heq
      · exact Regex.not_silent r p l hl h

theorem Operands.not_silent : ∀ (os : Operands) (p : Nat), ∀ l ∈ os.literalsAt p, ¬ os.Silent p l.1
  | .pair a b, p, l, hl => by
      rw [Operands.silent_pair_iff, not_or]
      rcases List.mem_append.1 hl with hl | hl
      · have hwithin := Regex.literalsAt_within l hl
        exact ⟨Regex.not_silent a p l hl, fun h => Nat.not_le.2 (Nat.lt_of_succ_lt hwithin.2) h.names.1⟩
      · have hwithin := Regex.literalsAt_within l hl
        exact ⟨fun h => Nat.not_le.2 h.names.2 hwithin.1, Regex.not_silent b _ l hl⟩
  | .cons a rest, p, l, hl => by
      rw [Operands.silent_cons_iff, not_or]
      rcases List.mem_append.1 hl with hl | hl
      · have hwithin := Regex.literalsAt_within l hl
        exact ⟨Regex.not_silent a p l hl, fun h => Nat.not_le.2 (Nat.lt_of_succ_lt hwithin.2) h.names.1⟩
      · have hwithin := Regex.literalsAt_within (r := .cat rest) l hl
        exact ⟨fun h => Nat.not_le.2 h.names.2 hwithin.1, Operands.not_silent rest _ l hl⟩

end

/-! ## Edges of leaves -/

namespace Regex

variable {r : Regex} {p : Nat}

/-- The edge of a leaf is alone at one of its ends if no other leaf has an edge there and no epsilon edge does. -/
theorem filter_end_eq (side : Edge → StateName) {l : StateName × String} (hl : l ∈ r.literalsAt p)
    (hleaves : ((r.literalsAt p).map literalEdge).Pairwise fun e f => side e ≠ side f)
    (hepsilon : ∀ e ∈ r.edgesAt p, e.label = none → side e ≠ side (literalEdge l)) :
    (r.nfaAt p).edges.filter (side · = side (literalEdge l)) = [literalEdge l] := by
  have hlabelled : (r.edgesAt p).filter (side · = side (literalEdge l))
      = ((r.literalsAt p).map literalEdge).filter (side · = side (literalEdge l)) := by
    rw [← r.filter_edgesAt, List.filter_filter]
    refine List.filter_congr fun e he => ?_
    cases hlabel : e.label with
    | none => simp [hepsilon e he hlabel]
    | some a => simp
  have hnodup : ((r.literalsAt p).map literalEdge).Nodup := hleaves.imp fun h h' => h (congrArg side h')
  have hmem : ∀ e, e ∈ ((r.literalsAt p).map literalEdge).filter (side · = side (literalEdge l)) ↔
      e ∈ [literalEdge l] := by
    intro e
    rw [List.mem_filter, List.mem_singleton, decide_eq_true_eq]
    constructor
    · rintro ⟨he, hside⟩
      exact List.inj_on_of_nodup_map (List.pairwise_map.2 hleaves) he (List.mem_map_of_mem hl) hside
    · rintro rfl
      exact ⟨List.mem_map_of_mem hl, rfl⟩
  refine List.perm_singleton.1 ((perm_edges_nfaAt.filter _).trans ?_)
  rw [hlabelled]
  exact (List.perm_ext_iff_of_nodup (hnodup.filter _) (List.nodup_singleton _)).2 hmem

theorem filter_source_eq {l : StateName × String} (hl : l ∈ r.literalsAt p) :
    (r.nfaAt p).edges.filter (·.source = l.1) = [literalEdge l] := by
  refine filter_end_eq Edge.source hl ?_ ?_
  · exact List.pairwise_map.2 ((r.pairwise_literalsAt p).imp fun h => Nat.ne_of_lt (Nat.lt_of_succ_lt h))
  · rintro ⟨s, _, t⟩ he rfl hs
    obtain rfl : s = l.1 := hs
    exact r.not_silent p l hl (Or.inl ⟨t, he⟩)

theorem filter_target_eq {l : StateName × String} (hl : l ∈ r.literalsAt p) :
    (r.nfaAt p).edges.filter (·.target = l.1 + 1) = [literalEdge l] := by
  refine filter_end_eq Edge.target hl ?_ ?_
  · exact List.pairwise_map.2 ((r.pairwise_literalsAt p).imp fun h =>
      Nat.ne_of_lt (Nat.succ_lt_succ (Nat.lt_of_succ_lt h)))
  · rintro ⟨s, _, t⟩ he rfl ht
    obtain rfl : t = l.1 + 1 := ht
    exact (r.not_entered p).1 s _ he ⟨l.1, l.2, mem_edgesAt_iff.2 ⟨hl, rfl⟩⟩

end Regex

/-! ## How many epsilon edges there are -/

mutual

/-- The number of leaves without a symbol, and for each operator the number of edges that it adds. -/
def Regex.epsilonEdges : Regex → Nat
  | .lit _ => 0
  | .epsilon => 1
  | .cat os => os.epsilonEdges + (os.length - 1)
  | .alt os => os.epsilonEdges + 2 * os.length
  | .star r => r.epsilonEdges + 2

/-- The same over all operands. -/
def Operands.epsilonEdges : Operands → Nat
  | .pair a b => a.epsilonEdges + b.epsilonEdges
  | .cons a rest => a.epsilonEdges + rest.epsilonEdges

end

theorem Operands.length_fragmentsAt (os : Operands) (p : Nat) : (os.fragmentsAt p).length = os.length := by
  cases os with
  | pair a b => rfl
  | cons a rest =>
      have hrest := length_fragmentsAt rest (p + a.stateCount)
      exact congrArg (· + 1) hrest

theorem Thompson.length_joins : ∀ parts : List Fragment, (joins parts).length = parts.length - 1
  | [] => rfl
  | [_] => rfl
  | _ :: b :: rest => congrArg (· + 1) (length_joins (b :: rest))

theorem Thompson.length_forks (ends : Fragment) (parts : List Fragment) :
    (forks ends parts).length = 2 * parts.length := by
  induction parts with
  | nil => rfl
  | cons part rest ih => simp only [forks, List.length_cons, ih]; omega

theorem length_filter_append {E F : List Edge} (hF : ∀ e ∈ F, e.label = none) :
    ((E ++ F).filter (·.label.isNone)).length = (E.filter (·.label.isNone)).length + F.length := by
  have hall : F.filter (·.label.isNone) = F := List.filter_eq_self.2 fun e he => by simp [hF e he]
  rw [List.filter_append, List.length_append, hall]

mutual

/-- The epsilon edges are those of the leaves without a symbol and those that the operators add. -/
theorem Regex.length_filter_edgesAt : ∀ (r : Regex) (p : Nat),
    ((r.edgesAt p).filter (·.label.isNone)).length = r.epsilonEdges
  | .lit _, _ => rfl
  | .epsilon, _ => rfl
  | .cat os, p => by
      rw [Regex.edgesAt, length_filter_append label_joins, Operands.length_filter_edgesAt os, length_joins,
        Operands.length_fragmentsAt, Regex.epsilonEdges]
  | .alt os, p => by
      rw [Regex.edgesAt, length_filter_append label_forks, Operands.length_filter_edgesAt os, length_forks,
        Operands.length_fragmentsAt, Regex.epsilonEdges]
  | .star r, p => by
      rw [Regex.edgesAt, length_filter_append (by simp), Regex.length_filter_edgesAt r, Regex.epsilonEdges]
      rfl

theorem Operands.length_filter_edgesAt : ∀ (os : Operands) (p : Nat),
    ((os.edgesAt p).filter (·.label.isNone)).length = os.epsilonEdges
  | .pair a b, p => by
      rw [Operands.edgesAt, List.filter_append, List.length_append, Regex.length_filter_edgesAt a,
        Regex.length_filter_edgesAt b, Operands.epsilonEdges]
  | .cons a rest, p => by
      rw [Operands.edgesAt, List.filter_append, List.length_append, Regex.length_filter_edgesAt a,
        Operands.length_filter_edgesAt rest, Operands.epsilonEdges]

end

namespace Regex

/-- The automaton built for an expression has one labelled edge for each leaf with a symbol, listed in their order.
Such an edge leads to the next state, alone at both ends.  All other edges are those of the leaves without a symbol and
of the operators. -/
theorem toNfa_census (r : Regex) (supply : StateSupply) (h : ∀ e, (r.toNfa supply).1 ≠ .error (.exhausted e)) :
    ∃ nfa, (r.toNfa supply).1 = .ok nfa ∧ nfa.edges.filterMap (·.label) = r.literals ∧
      (∀ s a t, ⟨s, some a, t⟩ ∈ nfa.edges → t = s + 1 ∧ nfa.edges.filter (·.source = s) = [⟨s, some a, t⟩] ∧
        nfa.edges.filter (·.target = t) = [⟨s, some a, t⟩]) ∧
      (nfa.edges.filter (·.label.isNone)).length = r.epsilonEdges := by
  refine ⟨_, toNfa_of_not_exhausted h, labels_nfaAt, ?_, ?_⟩
  · intro s a t he
    obtain ⟨hl, rfl⟩ := mem_edgesAt_iff.1 (mem_edges_nfaAt.1 he)
    exact ⟨rfl, filter_source_eq hl, filter_target_eq hl⟩
  · rw [(perm_edges_nfaAt.filter _).length_eq, r.length_filter_edgesAt]

/-- A repetition of an alternation of three operands, one of them empty, built with the last names there are. -/
theorem toNfa_census_last_names :
    let r : Regex := .star (.alt (.cons (.lit "a") (.pair .epsilon (.cat (.pair (.lit "b") (.star (.lit "a")))))))
    let supply : StateSupply := ⟨lastState - 12, by decide⟩
    ∃ nfa, (r.toNfa supply).1 = .ok nfa ∧ nfa.edges.filterMap (·.label) = ["a", "b", "a"] ∧
      (∀ s a t, ⟨s, some a, t⟩ ∈ nfa.edges → t = s + 1 ∧ nfa.edges.filter (·.source = s) = [⟨s, some a, t⟩] ∧
        nfa.edges.filter (·.target = t) = [⟨s, some a, t⟩]) ∧
      (nfa.edges.filter (·.label.isNone)).length = 12 := by
  intro r supply
  have h : ∀ e, (r.toNfa supply).1 ≠ .error (.exhausted e) := by
    rw [toNfa_of_fits (by decide)]
    exact fun _ => nofun
  exact toNfa_census r supply h

end Regex

end Automata
