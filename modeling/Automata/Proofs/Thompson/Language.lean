/-
# The automaton of an expression accepts its language

The words read from the start to the exit of a part are the words its expression stands for, whatever names the
part is built with.  The induction follows the tree; an operator's edges are those of its operands, each inside
names of their own, and a few epsilon edges at their ends, which is what the facts on paths through graphs put
together of parts are about (`inRow_joined`, `Regex.around_star`, `beside_forked`).  Operand lists are taken from the
front: the first operand is one part, all others together are the rest of the graph.
-/
import Automata.Proofs.Thompson.Drawing

namespace Automata

open Thompson

theorem Thompson.joins_cons_fragmentsAt (part : Fragment) (os : Operands) (p : Nat) :
    joins (part :: os.fragmentsAt p)
      = ⟨part.exit, none, (os.spanAt p).start⟩ :: joins (os.fragmentsAt p) := by
  cases os with
  | pair _ _ => rfl
  | cons _ _ => rfl

theorem names_disjoint {p m q x : Nat} (h : Names p m x) : ¬ Names m q x := fun h' => Nat.not_le.2 h.2 h'.1

/-! ## The parts of an expression -/

section Parts

variable {a : Regex} {p q p' q' : Nat} {rest ends : Fragment} {E : List Edge} {parts : List Fragment}

theorem inRow_joined (hE : Inside (Names (p + a.stateCount) q) E) (hrest : rest.Within (p + a.stateCount) q) :
    InRow (a.edgesAt p ++ ⟨(a.fragmentAt p).exit, none, rest.start⟩ :: E) (a.edgesAt p) E
      (Names p (p + a.stateCount)) (Names (p + a.stateCount) q) (a.fragmentAt p).exit rest.start where
  first := a.inside_edgesAt p
  second := hE
  disjoint _ := names_disjoint
  exit := (a.fragmentAt_within p).2
  start := hrest.1
  edges e := by
    simp only [List.mem_append, List.mem_cons]
    exact or_congr_right or_comm

theorem Regex.around_star (r : Regex) (p : Nat) : Around ((Regex.star r).edgesAt p) (r.edgesAt p)
    (Names p (p + r.stateCount)) (p + r.stateCount) (r.fragmentAt p).start (r.fragmentAt p).exit where
  part := r.inside_edgesAt p
  centre h := Nat.lt_irrefl _ h.2
  start := (r.fragmentAt_within p).1
  exit := (r.fragmentAt_within p).2
  edges e := by simp [Regex.edgesAt]

/-- Two different states that are none of the names. -/
structure Thompson.Fragment.Outside (ends : Fragment) (p q : Nat) : Prop where
  start : ¬ Names p q ends.start
  exit : ¬ Names p q ends.exit
  ne : ends.start ≠ ends.exit

theorem Thompson.Fragment.Outside.mono (h : ends.Outside p q) (hp : p ≤ p') (hq : q' ≤ q) : ends.Outside p' q' :=
  ⟨fun hs => h.start (hs.mono hp hq), fun hx => h.exit (hx.mono hp hq), h.ne⟩

theorem outside_alt (p q : Nat) : (⟨p, p + 1⟩ : Fragment).Outside (p + 2) q where
  start h := absurd h.1 (by simp only; omega)
  exit h := absurd h.1 (by simp only; omega)
  ne := Nat.ne_of_lt (Nat.lt_succ_self p)

theorem Thompson.mem_forked (ends : Fragment) (hE : Inside (Names p q) E) (hparts : ∀ part ∈ parts, part.Within p q) :
    ∀ e ∈ E ++ forks ends parts, (Names p q e.source ∨ e.source = ends.start) ∧
      (Names p q e.target ∨ e.target = ends.exit) := by
  intro e he
  rcases List.mem_append.1 he with he | he
  · exact ⟨Or.inl (hE e he).1, Or.inl (hE e he).2⟩
  · obtain ⟨part, hpart, rfl | rfl⟩ := mem_forks_iff.1 he
    · exact ⟨Or.inr rfl, Or.inl (hparts part hpart).1⟩
    · exact ⟨Or.inl (hparts part hpart).2, Or.inr rfl⟩

theorem beside_forked (hE : Inside (Names (p + a.stateCount) q) E)
    (hparts : ∀ part ∈ parts, part.Within (p + a.stateCount) q) (hle : p + a.stateCount ≤ q)
    (hends : ends.Outside p q) :
    Beside ((a.edgesAt p ++ E) ++ forks ends (a.fragmentAt p :: parts)) (a.edgesAt p) (E ++ forks ends parts)
      (Names p (p + a.stateCount)) ends.start ends.exit (a.fragmentAt p).start (a.fragmentAt p).exit := by
  have ha := a.fragmentAt_within p
  have hother := mem_forked ends hE hparts
  have hin := hends.mono (Nat.le_refl p) hle
  have hlater := hends.mono (Nat.le_add_right p a.stateCount) (Nat.le_refl q)
  refine ⟨a.inside_edgesAt p, ?_, hin.start, hin.exit, hends.ne, ha.1, ha.2, ?_, ?_, ?_⟩
  · intro e he
    constructor
    · rcases (hother e he).1 with h | h
      · exact fun hx => names_disjoint hx h
      · exact fun hx => hin.start (h ▸ hx)
    · rcases (hother e he).2 with h | h
      · exact fun hx => names_disjoint hx h
      · exact fun hx => hin.exit (h ▸ hx)
  · intro e he h
    rcases (hother e he).2 with ht | ht
    · exact hlater.start (h ▸ ht)
    · exact hends.ne (h.symm.trans ht)
  · intro e he h
    rcases (hother e he).1 with hs | hs
    · exact hlater.exit (h ▸ hs)
    · exact hends.ne (hs.symm.trans h)
  · intro e
    simp only [forks, List.mem_append, List.mem_cons]
    constructor
    · rintro ((h | h) | h | h | h)
      · exact Or.inl h
      · exact Or.inr (Or.inl (Or.inl h))
      · exact Or.inr (Or.inr (Or.inl h))
      · exact Or.inr (Or.inr (Or.inr h))
      · exact Or.inr (Or.inl (Or.inr h))
    · rintro (h | (h | h) | h | h)
      · exact Or.inl (Or.inl h)
      · exact Or.inl (Or.inr h)
      · exact Or.inr (Or.inr (Or.inr h))
      · exact Or.inr (Or.inl h)
      · exact Or.inr (Or.inr (Or.inl h))

theorem beside_last (hends : ends.Outside p (p + a.stateCount)) :
    Beside (a.edgesAt p ++ forks ends [a.fragmentAt p]) (a.edgesAt p) [] (Names p (p + a.stateCount)) ends.start
      ends.exit (a.fragmentAt p).start (a.fragmentAt p).exit := by
  have hnone : ∀ part ∈ ([] : List Fragment), part.Within (p + a.stateCount) (p + a.stateCount) :=
    fun _ hp => absurd hp List.not_mem_nil
  have h := beside_forked (a := a) (E := []) (fun _ he => absurd he List.not_mem_nil) hnone (Nat.le_refl _) hends
  rwa [List.append_nil] at h

theorem Operands.beside_pair (a b : Regex) (p : Nat) (hends : ends.Outside p (p + (Operands.pair a b).stateCount)) :
    Beside ((Operands.pair a b).edgesAt p ++ forks ends ((Operands.pair a b).fragmentsAt p)) (a.edgesAt p)
      (b.edgesAt (p + a.stateCount) ++ forks ends [b.fragmentAt (p + a.stateCount)]) (Names p (p + a.stateCount))
      ends.start ends.exit (a.fragmentAt p).start (a.fragmentAt p).exit := by
  rw [Operands.stateCount, ← Nat.add_assoc] at hends
  refine beside_forked (b.inside_edgesAt _) ?_ (Nat.le_add_right _ _) hends
  exact fun _ hp => List.mem_singleton.1 hp ▸ b.fragmentAt_within (p + a.stateCount)

theorem Operands.beside_cons (a : Regex) (os : Operands) (p : Nat)
    (hends : ends.Outside p (p + (Operands.cons a os).stateCount)) :
    Beside ((Operands.cons a os).edgesAt p ++ forks ends ((Operands.cons a os).fragmentsAt p)) (a.edgesAt p)
      (os.edgesAt (p + a.stateCount) ++ forks ends (os.fragmentsAt (p + a.stateCount)))
      (Names p (p + a.stateCount)) ends.start ends.exit (a.fragmentAt p).start (a.fragmentAt p).exit := by
  rw [Operands.stateCount, ← Nat.add_assoc] at hends
  exact beside_forked (os.inside_edgesAt _) (os.fragmentsAt_within _) (Nat.le_add_right _ _) hends

theorem Thompson.Fragment.Outside.tail {os : Operands} (h : ends.Outside p (p + (Operands.cons a os).stateCount)) :
    ends.Outside (p + a.stateCount) (p + a.stateCount + os.stateCount) :=
  h.mono (Nat.le_add_right _ _) (by simp only [Operands.stateCount]; omega)

theorem Thompson.Fragment.Outside.last {b : Regex} (h : ends.Outside p (p + (Operands.pair a b).stateCount)) :
    ends.Outside (p + a.stateCount) (p + a.stateCount + b.stateCount) :=
  h.mono (Nat.le_add_right _ _) (by simp only [Operands.stateCount]; omega)

end Parts

/-! ## Expressions -/

mutual

/-- What is read from the start to the exit of a part is what its expression stands for. -/
theorem Regex.path_edgesAt_iff : ∀ (r : Regex) (p : Nat) {w : List String},
    Path (r.edgesAt p) (r.fragmentAt p).start w (r.fragmentAt p).exit ↔ r.Denotes w
  | .lit _, p, _ => path_single_iff (Nat.ne_of_lt (Nat.lt_succ_self p))
  | .epsilon, p, _ => path_single_iff (Nat.ne_of_lt (Nat.lt_succ_self p))
  | .cat os, p, w => Operands.path_joined_iff os p
  | .alt os, p, w => Operands.path_forked_iff os (p + 2) ⟨p, p + 1⟩ (outside_alt p _)
  | .star r, p, w => by
      rw [Regex.Denotes, ← funext fun u => propext (Regex.path_edgesAt_iff r p (w := u))]
      exact path_loop_iff (r.around_star p)

/-- What is read through the operands joined in a row. -/
theorem Operands.path_joined_iff : ∀ (os : Operands) (p : Nat) {w : List String},
    Path (os.edgesAt p ++ joins (os.fragmentsAt p)) (os.spanAt p).start w (os.spanAt p).exit ↔
      os.DenotesCat w
  | .pair a b, p, w => by
      have hb := b.fragmentAt_within (p + a.stateCount)
      have hstep := path_chain_iff (w := w) (inRow_joined (a := a) (b.inside_edgesAt _) hb)
        (a.fragmentAt_within p).1 hb.2
      simp only [Regex.path_edgesAt_iff a, Regex.path_edgesAt_iff b] at hstep
      simp only [Operands.DenotesCat, ← hstep]
      exact path_congr fun e => by simp [Operands.edgesAt, Operands.fragmentsAt, joins, or_comm]
  | .cons a rest, p, w => by
      have hrest := rest.spanAt_within (p + a.stateCount)
      have hstep := path_chain_iff (w := w) (inRow_joined (a := a) ((Regex.cat rest).inside_edgesAt _) hrest)
        (a.fragmentAt_within p).1 hrest.2
      simp only [Regex.edgesAt, Regex.path_edgesAt_iff a, Operands.path_joined_iff rest] at hstep
      simp only [Operands.DenotesCat, ← hstep, Operands.fragmentsAt, joins_cons_fragmentsAt]
      exact path_congr fun e => by simp [Operands.edgesAt, or_left_comm]

/-- What is read through the operands side by side between two states that are none of theirs. -/
theorem Operands.path_forked_iff : ∀ (os : Operands) (p : Nat) (ends : Fragment) {w : List String},
    ends.Outside p (p + os.stateCount) →
      (Path (os.edgesAt p ++ forks ends (os.fragmentsAt p)) ends.start w ends.exit ↔ os.DenotesAlt w)
  | .pair a b, p, ends, w, hends => by
      have hapart : ¬ Path [] ends.start w ends.exit := fun hp => hends.ne (path_nil_edges_iff.1 hp).1
      rw [path_fork_iff (Operands.beside_pair a b p hends), path_fork_iff (beside_last hends.last),
        Operands.DenotesAlt, Regex.path_edgesAt_iff a, Regex.path_edgesAt_iff b, or_iff_left hapart]
  | .cons a rest, p, ends, w, hends => by
      rw [path_fork_iff (Operands.beside_cons a rest p hends), Operands.path_forked_iff rest _ ends hends.tail,
        Operands.DenotesAlt, Regex.path_edgesAt_iff a]

end

namespace Regex

theorem accepts_nfaAt_iff {r : Regex} {p : Nat} {w : List String} :
    (r.nfaAt p).Accepts w ↔ r.Denotes w :=
  (path_congr fun _ => mem_edges_nfaAt).trans (r.path_edgesAt_iff p)

/-- From every supply that the construction does not exhaust it gives an automaton, and that automaton accepts
the words the expression stands for and no others. -/
theorem toNfa_accepts_iff_denotes (r : Regex) (supply : StateSupply)
    (h : ∀ e, (r.toNfa supply).1 ≠ .error (.exhausted e)) :
    ∃ nfa, (r.toNfa supply).1 = .ok nfa ∧ ∀ w, nfa.Accepts w ↔ r.Denotes w :=
  ⟨r.nfaAt supply.next, toNfa_of_not_exhausted h, fun _ => accepts_nfaAt_iff⟩

/-- A repetition of a repetition beside a symbol, built with the last names there are. -/
theorem toNfa_accepts_nested_star :
    let r : Regex := .star (.alt (.cons (.star (.lit "a")) (.pair (.lit "") (.cat (.pair .epsilon (.lit "b"))))))
    let supply : StateSupply := ⟨lastState - 12, by decide⟩
    (∀ e, (r.toNfa supply).1 ≠ .error (.exhausted e)) ∧
      ∃ nfa, (r.toNfa supply).1 = .ok nfa ∧ ∀ w, nfa.Accepts w ↔ r.Denotes w := by
  intro r supply
  have h : ∀ e, (r.toNfa supply).1 ≠ .error (.exhausted e) := by
    rw [toNfa_of_fits (by decide)]
    exact fun _ => nofun
  exact ⟨h, toNfa_accepts_iff_denotes r supply h⟩

end Regex

end Automata
