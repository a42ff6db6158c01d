/-
# Every state of a part is passed through

Edges *traverse* some names between two states when each of the names lies on a way from the one state to the other
(`Traverses`).  The edges of an expression traverse its names from its start to its exit (`Regex.traverses`), so no
state of its automaton is unreachable or a dead end (`Regex.toNfa_trim`), and what is read on the way to any state can
be completed to a word of the language.
-/
import Automata.Proofs.Thompson.Language

namespace Automata

open Thompson

/-- Each of the names from `p` up to `q` can be reached from `s`, and from each of them `x` can be reached. -/
def Traverses (E : List Edge) (s x : StateName) (p q : Nat) : Prop :=
  ∀ t, Names p q t → (∃ u, Path E s u t) ∧ ∃ v, Path E t v x

section

variable {E E₁ E₂ : List Edge} {s x s₁ x₁ s₂ x₂ : StateName} {p m q : Nat}

theorem Traverses.append (h : Traverses E s x p m) (h' : Traverses E s x m q) : Traverses E s x p q := by
  intro t ht
  by_cases htm : t < m
  · exact h t ⟨ht.1, htm⟩
  · exact h' t ⟨Nat.not_lt.1 htm, ht.2⟩

theorem Traverses.between (h : Traverses E₁ s₁ x₁ p q) (hsub : ∀ e ∈ E₁, e ∈ E)
    (hs : ∃ u, Path E s u s₁) (hx : ∃ v, Path E x₁ v x) : Traverses E s x p q := by
  intro t ht
  obtain ⟨⟨u, hu⟩, v, hv⟩ := h t ht
  obtain ⟨u', hu'⟩ := hs
  obtain ⟨v', hv'⟩ := hx
  exact ⟨⟨_, hu'.append (hu.mono hsub)⟩, _, (hv.mono hsub).append hv'⟩

theorem Traverses.beside (h : Traverses E₁ s₁ x₁ p q) (hsub : ∀ e ∈ E₁, e ∈ E) (hin : ⟨s, none, s₁⟩ ∈ E)
    (hout : ⟨x₁, none, x⟩ ∈ E) : Traverses E s x p q :=
  h.between hsub ⟨[], .edge hin⟩ ⟨[], .edge hout⟩

theorem Traverses.chain (h₁ : Traverses E₁ s₁ x₁ p m) (h₂ : Traverses E₂ s₂ x₂ m q) (hx₁ : Names p m x₁)
    (hs₂ : Names m q s₂) (hsub₁ : ∀ e ∈ E₁, e ∈ E) (hsub₂ : ∀ e ∈ E₂, e ∈ E) (hjoin : ⟨x₁, none, s₂⟩ ∈ E) :
    Traverses E s₁ x₂ p q := by
  obtain ⟨⟨u, hu⟩, -⟩ := h₁ x₁ hx₁
  obtain ⟨-, v, hv⟩ := h₂ s₂ hs₂
  have hjoin : Path E x₁ [] s₂ := .edge hjoin
  refine Traverses.append (m := m) ?_ ?_
  · exact h₁.between hsub₁ ⟨[], .nil _⟩ ⟨_, hjoin.append (hv.mono hsub₂)⟩
  · exact h₂.between hsub₂ ⟨_, (hu.mono hsub₁).append hjoin⟩ ⟨[], .nil _⟩

theorem traverses_single {l : Option String} : Traverses [⟨p, l, p + 1⟩] p (p + 1) p (p + 2) := by
  have hedge : Path [⟨p, l, p + 1⟩] p l.toList (p + 1) :=
    (path_single_iff (Nat.ne_of_lt (Nat.lt_succ_self p))).2 rfl
  rintro t ⟨hp, hq⟩
  obtain rfl | rfl : t = p ∨ t = p + 1 := by omega
  · exact ⟨⟨[], .nil _⟩, _, hedge⟩
  · exact ⟨⟨_, hedge⟩, [], .nil _⟩

end

mutual

/-- The edges of an expression traverse its names. -/
theorem Regex.traverses : ∀ (r : Regex) (p : Nat),
    Traverses (r.edgesAt p) (r.fragmentAt p).start (r.fragmentAt p).exit p (p + r.stateCount)
  | .lit _, _ => traverses_single
  | .epsilon, _ => traverses_single
  | .cat os, p => Operands.traverses_joined os p
  | .alt os, p => by
      have hos := Operands.traverses_forked os (p + 2) ⟨p, p + 1⟩
      -- The two ends lead through the first operand's start.
      obtain ⟨first, _, hfirst, -⟩ := os.ends_fragmentsAt (p + 2)
      have hwithin := os.fragmentsAt_within (p + 2) first (List.mem_of_head? hfirst)
      obtain ⟨⟨u, hu⟩, v, hv⟩ := hos first.start hwithin.1
      have hends : Traverses ((Regex.alt os).edgesAt p) p (p + 1) p (p + 2) := by
        rintro t ⟨hp, hq⟩
        obtain rfl | rfl : t = p ∨ t = p + 1 := by omega
        · exact ⟨⟨[], .nil _⟩, _, hu.append hv⟩
        · exact ⟨⟨_, hu.append hv⟩, [], .nil _⟩
      rw [Regex.stateCount, Nat.add_comm os.stateCount, ← Nat.add_assoc]
      exact hends.append hos
  | .star r, p => by
      have hhub : Traverses ((Regex.star r).edgesAt p) (p + r.stateCount) (p + r.stateCount)
          (p + r.stateCount) (p + (r.stateCount + 1)) := by
        rintro t ⟨hp, hq⟩
        obtain rfl : t = p + r.stateCount := by omega
        exact ⟨⟨[], .nil _⟩, [], .nil _⟩
      refine Traverses.append (m := p + r.stateCount) ?_ hhub
      refine (Regex.traverses r p).beside (fun e he => List.mem_append_left _ he) ?_ ?_
      · exact List.mem_append_right _ List.mem_cons_self
      · exact List.mem_append_right _ (List.mem_cons_of_mem _ List.mem_cons_self)

theorem Operands.traverses_joined : ∀ (os : Operands) (p : Nat),
    Traverses (os.edgesAt p ++ joins (os.fragmentsAt p)) (os.spanAt p).start (os.spanAt p).exit p
      (p + os.stateCount)
  | .pair a b, p => by
      rw [Operands.stateCount, ← Nat.add_assoc]
      refine (Regex.traverses a p).chain (Regex.traverses b (p + a.stateCount)) (a.fragmentAt_within p).2
        (b.fragmentAt_within _).1 ?_ ?_ ?_
      · intro e he
        exact List.mem_append_left _ (List.mem_append_left _ he)
      · intro e he
        exact List.mem_append_left _ (List.mem_append_right _ he)
      · exact List.mem_append_right _ List.mem_cons_self
  | .cons a rest, p => by
      rw [Operands.stateCount, ← Nat.add_assoc, Operands.fragmentsAt, joins_cons_fragmentsAt]
      refine (Regex.traverses a p).chain (Operands.traverses_joined rest (p + a.stateCount))
        (a.fragmentAt_within p).2 (rest.spanAt_within _).1 ?_ ?_ ?_
      · intro e he
        exact List.mem_append_left _ (List.mem_append_left _ he)
      · intro e he
        rcases List.mem_append.1 he with he | he
        · exact List.mem_append_left _ (List.mem_append_right _ he)
        · exact List.mem_append_right _ (List.mem_cons_of_mem _ he)
      · exact List.mem_append_right _ List.mem_cons_self

theorem Operands.traverses_forked : ∀ (os : Operands) (p : Nat) (ends : Fragment),
    Traverses (os.edgesAt p ++ forks ends (os.fragmentsAt p)) ends.start ends.exit p (p + os.stateCount)
  | .pair a b, p, ends => by
      rw [Operands.stateCount, ← Nat.add_assoc]
      refine Traverses.append (m := p + a.stateCount) ?_ ?_
      · refine (Regex.traverses a p).beside (fun e he => ?_) ?_ ?_
        · exact List.mem_append_left _ (List.mem_append_left _ he)
        all_goals simp [Operands.fragmentsAt, forks]
      · refine (Regex.traverses b (p + a.stateCount)).beside (fun e he => ?_) ?_ ?_
        · exact List.mem_append_left _ (List.mem_append_right _ he)
        all_goals simp [Operands.fragmentsAt, forks]
  | .cons a rest, p, ends => by
      rw [Operands.stateCount, ← Nat.add_assoc]
      refine Traverses.append (m := p + a.stateCount) ?_ ?_
      · refine (Regex.traverses a p).beside (fun e he => ?_) ?_ ?_
        · exact List.mem_append_left _ (List.mem_append_left _ he)
        all_goals simp [Operands.fragmentsAt, forks]
      · refine (Operands.traverses_forked rest (p + a.stateCount) ends).between (fun e he => ?_)
          ⟨[], .nil _⟩ ⟨[], .nil _⟩
        rcases List.mem_append.1 he with he | he
        · exact List.mem_append_left _ (List.mem_append_right _ he)
        · exact List.mem_append_right _ (List.mem_cons_of_mem _ (List.mem_cons_of_mem _ he))

end

namespace Regex

theorem mem_states_nfaAt_trim {r : Regex} {p : Nat} {s : StateName} (hs : s ∈ (r.nfaAt p).states) :
    (∃ u, (r.nfaAt p).Path (r.nfaAt p).start u s) ∧ ∃ v, (r.nfaAt p).Path s v (r.nfaAt p).exit := by
  have hname : Names p (p + r.stateCount) s := mem_relation_nfaAt.1 (Std.ExtTreeMap.mem_keys.1 hs)
  obtain ⟨⟨u, hu⟩, v, hv⟩ := r.traverses p s hname
  have hsub : ∀ e ∈ r.edgesAt p, e ∈ (r.nfaAt p).edges := fun e he => mem_edges_nfaAt.2 he
  exact ⟨⟨u, hu.mono hsub⟩, v, hv.mono hsub⟩

/-- From every supply that the construction does not exhaust it gives an automaton without a state that cannot be
reached from the start and without one that the exit cannot be reached from. -/
theorem toNfa_trim (r : Regex) (supply : StateSupply) (h : ∀ e, (r.toNfa supply).1 ≠ .error (.exhausted e)) :
    ∃ nfa, (r.toNfa supply).1 = .ok nfa ∧
      ∀ s ∈ nfa.states, (∃ u, nfa.Path nfa.start u s) ∧ ∃ v, nfa.Path s v nfa.exit :=
  ⟨r.nfaAt supply.next, toNfa_of_not_exhausted h, fun _ hs => mem_states_nfaAt_trim hs⟩

/-- Repetitions inside an alternation inside a repetition, built with the last names there are. -/
theorem toNfa_trim_loops :
    let r : Regex := .star (.alt (.pair (.cat (.pair (.star (.lit "a")) (.lit "b"))) (.star (.star .epsilon))))
    let supply : StateSupply := ⟨lastState - 12, by decide⟩
    (∀ e, (r.toNfa supply).1 ≠ .error (.exhausted e)) ∧ ∃ nfa, (r.toNfa supply).1 = .ok nfa ∧
      ∀ s ∈ nfa.states, (∃ u, nfa.Path nfa.start u s) ∧ ∃ v, nfa.Path s v nfa.exit := by
  intro r supply
  have h : ∀ e, (r.toNfa supply).1 ≠ .error (.exhausted e) := by
    rw [toNfa_of_fits (by decide)]
    exact fun _ => nofun
  exact ⟨h, toNfa_trim r supply h⟩

end Regex

end Automata
