/-
# Paths through parts of a graph

Two kinds of facts about paths through a list of edges.

The first take a path apart at its word: a path that spells `u ++ v` passes through a state between the two, and a
path that spells one more symbol crosses one edge with that symbol and goes on by epsilon edges only.

The second compare paths through a graph with paths through a part of it.  A part is a list of edges that lie
*inside* a region of states.  The graphs considered are put together from parts with disjoint regions and a few
epsilon edges between them: two parts in a row (`InRow`, `path_chain_iff`), a part around a state of its own
(`Around`, `path_loop_iff`), a part beside others between two common states (`Beside`, `path_fork_iff`).  Each time the paths
through the whole are determined by those through the parts.  What the three have in common is `Path.stay` and
`Path.escape`: a region that no edge leaves keeps its paths, and a region left by epsilon edges from one state
only cuts a path in two at that state.
-/
import Automata.Nfa.Path
import Automata.Regex.Language

namespace Automata

variable {E E₁ E₂ : List Edge} {s t u : StateName} {v w : List String}

/-! ## Paths and words -/

theorem Path.mono (h : ∀ e ∈ E₁, e ∈ E) (hp : Path E₁ s w t) : Path E s w t := by
  induction hp with
  | nil _ => exact .nil _
  | epsilon he _ ih => exact .epsilon (h _ he) ih
  | symbol he _ ih => exact .symbol (h _ he) ih

theorem path_congr (h : ∀ e, e ∈ E ↔ e ∈ E₁) : Path E s w t ↔ Path E₁ s w t :=
  ⟨fun hp => hp.mono fun e he => (h e).1 he, fun hp => hp.mono fun e he => (h e).2 he⟩

theorem Path.edge (he : ⟨s, none, t⟩ ∈ E) : Path E s [] t := .epsilon he (.nil t)

theorem path_nil_edges_iff : Path [] s w t ↔ s = t ∧ w = [] := by
  constructor
  · intro hp
    cases hp with
    | nil => exact ⟨rfl, rfl⟩
    | epsilon he _ => exact absurd he List.not_mem_nil
    | symbol he _ => exact absurd he List.not_mem_nil
  · rintro ⟨rfl, rfl⟩
    exact .nil s

theorem path_single_iff {l : Option String} (hst : s ≠ t) :
    Path [⟨s, l, t⟩] s w t ↔ w = l.toList := by
  have hend : ∀ {v : List String}, Path [⟨s, l, t⟩] t v t → v = [] := by
    intro v hv
    cases hv with
    | nil => rfl
    | epsilon he _ => exact absurd (congrArg Edge.source (List.mem_singleton.1 he)).symm hst
    | symbol he _ => exact absurd (congrArg Edge.source (List.mem_singleton.1 he)).symm hst
  constructor
  · intro hp
    cases hp with
    | nil => exact absurd rfl hst
    | epsilon he hp =>
        obtain ⟨-, rfl, rfl⟩ := Edge.mk.inj (List.mem_singleton.1 he)
        exact hend hp
    | symbol he hp =>
        obtain ⟨-, rfl, rfl⟩ := Edge.mk.inj (List.mem_singleton.1 he)
        rw [hend hp]
        rfl
  · rintro rfl
    cases l with
    | none => exact .edge List.mem_cons_self
    | some a => exact .symbol List.mem_cons_self (.nil t)

theorem Path.cons_inv {a : String} (hp : Path E s (a :: w) t) :
    ∃ x y, Path E s [] x ∧ ⟨x, some a, y⟩ ∈ E ∧ Path E y w t := by
  generalize hz : a :: w = z at hp
  induction hp with
  | nil _ => exact absurd hz (List.cons_ne_nil _ _)
  | epsilon he _ ih =>
      obtain ⟨x, y, hx, hxy, hy⟩ := ih hz
      exact ⟨x, y, .epsilon he hx, hxy, hy⟩
  | symbol he hp _ =>
      obtain ⟨rfl, rfl⟩ := List.cons.inj hz
      exact ⟨_, _, .nil _, he, hp⟩

theorem path_append_iff : Path E s (v ++ w) t ↔ ∃ m, Path E s v m ∧ Path E m w t := by
  constructor
  · intro hp
    induction v generalizing s with
    | nil => exact ⟨s, .nil s, hp⟩
    | cons a v ih =>
        obtain ⟨x, y, hx, hxy, hy⟩ := hp.cons_inv
        obtain ⟨m, hv, hw⟩ := ih hy
        exact ⟨m, hx.append (.symbol hxy hv), hw⟩
  · rintro ⟨m, hv, hw⟩
    exact hv.append hw

/-! ## Regions -/

/-- All edges start and end in the region. -/
def Inside (I : StateName → Prop) (E : List Edge) : Prop := ∀ e ∈ E, I e.source ∧ I e.target

theorem Path.stay {I : StateName → Prop} (h : ∀ e ∈ E, I e.source → e ∈ E₁ ∧ I e.target)
    (hp : Path E s w t) (hs : I s) : Path E₁ s w t := by
  induction hp with
  | nil _ => exact .nil _
  | epsilon he _ ih =>
      obtain ⟨he₁, ht⟩ := h _ he hs
      exact .epsilon he₁ (ih ht)
  | symbol he _ ih =>
      obtain ⟨he₁, ht⟩ := h _ he hs
      exact .symbol he₁ (ih ht)

/-- Where a region is left from the state `x` only, and by epsilon edges, a path that begins in it and ends
outside comes apart at `x`. -/
theorem Path.escape {I : StateName → Prop} {x : StateName} (h₁ : Inside I E₁)
    (h : ∀ e ∈ E, I e.source → e ∈ E₁ ∨ e.source = x ∧ e.label = none ∧ ¬ I e.target)
    (hp : Path E s w t) (hs : I s) (ht : ¬ I t) :
    ∃ u v y, w = u ++ v ∧ Path E₁ s u x ∧ ⟨x, none, y⟩ ∈ E ∧ ¬ I y ∧ Path E y v t := by
  induction hp with
  | nil _ => exact absurd hs ht
  | @epsilon s y t w he hp ih =>
      rcases h _ he hs with he₁ | ⟨rfl, -, hy⟩
      · obtain ⟨u, v, z, rfl, hu, hz⟩ := ih (h₁ _ he₁).2 ht
        exact ⟨u, v, z, rfl, .epsilon he₁ hu, hz⟩
      · exact ⟨[], w, y, rfl, .nil _, he, hy, hp⟩
  | @symbol s y t a w he hp ih =>
      rcases h _ he hs with he₁ | ⟨-, hl, -⟩
      · obtain ⟨u, v, z, rfl, hu, hz⟩ := ih (h₁ _ he₁).2 ht
        exact ⟨a :: u, v, z, rfl, .symbol he₁ hu, hz⟩
      · exact absurd hl (Option.some_ne_none a)

/-! ## Parts put together -/

/-- Two parts in a row, joined by one epsilon edge from `x₁` to `s₂`. -/
structure InRow (E E₁ E₂ : List Edge) (I I₂ : StateName → Prop) (x₁ s₂ : StateName) : Prop where
  first : Inside I E₁
  second : Inside I₂ E₂
  disjoint : ∀ x, I x → ¬ I₂ x
  exit : I x₁
  start : I₂ s₂
  edges : ∀ e, e ∈ E ↔ e ∈ E₁ ∨ e ∈ E₂ ∨ e = ⟨x₁, none, s₂⟩

/-- A part around a state of its own, with an epsilon edge to `s₁` and one back from `x₁`. -/
structure Around (E E₁ : List Edge) (I : StateName → Prop) (hub s₁ x₁ : StateName) : Prop where
  part : Inside I E₁
  centre : ¬ I hub
  start : I s₁
  exit : I x₁
  edges : ∀ e, e ∈ E ↔ e ∈ E₁ ∨ e = ⟨hub, none, s₁⟩ ∨ e = ⟨x₁, none, hub⟩

/-- A part beside other edges, between two states `a` and `b` outside it.  The other edges do not touch the part, come
back to `a` or go on from `b`. -/
structure Beside (E E₁ E₂ : List Edge) (I : StateName → Prop) (a b s₁ x₁ : StateName) : Prop where
  part : Inside I E₁
  other : Inside (fun x => ¬ I x) E₂
  source : ¬ I a
  target : ¬ I b
  ne : a ≠ b
  start : I s₁
  exit : I x₁
  back : ∀ e ∈ E₂, e.target ≠ a
  final : ∀ e ∈ E₂, e.source ≠ b
  edges : ∀ e, e ∈ E ↔ e ∈ E₁ ∨ e ∈ E₂ ∨ e = ⟨a, none, s₁⟩ ∨ e = ⟨x₁, none, b⟩

section Parts

variable {I I₂ : StateName → Prop} {s₁ x₁ s₂ hub : StateName}

/-- Through two parts in a row the words of the one are read before those of the other. -/
theorem path_chain_iff (h : InRow E E₁ E₂ I I₂ x₁ s₂) (hs : I s) (ht : I₂ t) :
    Path E s w t ↔ ∃ u v, w = u ++ v ∧ Path E₁ s u x₁ ∧ Path E₂ s₂ v t := by
  obtain ⟨h₁, h₂, hdisj, hx₁, hs₂, hE⟩ := h
  constructor
  · intro hp
    have hleave : ∀ e ∈ E, I e.source → e ∈ E₁ ∨ e.source = x₁ ∧ e.label = none ∧ ¬ I e.target := by
      intro e he hes
      rcases (hE e).1 he with he₁ | he₂ | rfl
      · exact Or.inl he₁
      · exact absurd (h₂ e he₂).1 (hdisj _ hes)
      · exact Or.inr ⟨rfl, rfl, fun h => hdisj _ h hs₂⟩
    have hkeep : ∀ e ∈ E, I₂ e.source → e ∈ E₂ ∧ I₂ e.target := by
      intro e he hes
      rcases (hE e).1 he with he₁ | he₂ | rfl
      · exact absurd hes (hdisj _ (h₁ e he₁).1)
      · exact ⟨he₂, (h₂ e he₂).2⟩
      · exact absurd hes (hdisj _ hx₁)
    obtain ⟨u, v, y, rfl, hu, hy, hyI, hv⟩ := hp.escape h₁ hleave hs fun h => hdisj _ h ht
    refine ⟨u, v, rfl, hu, ?_⟩
    rcases (hE _).1 hy with hy₁ | hy₂ | hy
    · exact absurd (h₁ _ hy₁).2 hyI
    · exact absurd (h₂ _ hy₂).1 (hdisj _ hx₁)
    · obtain rfl : y = s₂ := congrArg Edge.target hy
      exact hv.stay hkeep hs₂
  · rintro ⟨u, v, rfl, hu, hv⟩
    have hjoin : (⟨x₁, none, s₂⟩ : Edge) ∈ E := (hE _).2 (Or.inr (Or.inr rfl))
    exact (hu.mono fun e he => (hE e).2 (Or.inl he)).append
      (.epsilon hjoin (hv.mono fun e he => (hE e).2 (Or.inr (Or.inl he))))

/-- From the state that a part is around back to it the words of the part are read, any number of them. -/
theorem path_loop_iff (h : Around E E₁ I hub s₁ x₁) :
    Path E hub w hub ↔ Repeated (fun u => Path E₁ s₁ u x₁) w := by
  obtain ⟨h₁, hhub, hs₁, hx₁, hE⟩ := h
  constructor
  · -- A path may end at the hub from the hub or from the part; in the part it first finishes a round.
    have key : ∀ {s t : StateName} {w : List String}, Path E s w t → t = hub →
        (s = hub → Repeated (fun u => Path E₁ s₁ u x₁) w) ∧
        (I s → ∃ u v, w = u ++ v ∧ Path E₁ s u x₁ ∧ Repeated (fun u => Path E₁ s₁ u x₁) v) := by
      intro s t w hp
      induction hp with
      | nil _ =>
          rintro rfl
          exact ⟨fun _ => .nil, fun h => absurd h hhub⟩
      | @epsilon s y t w he _ ih =>
          intro ht
          obtain ⟨ihhub, ihpart⟩ := ih ht
          rcases (hE _).1 he with he₁ | he | he
          · refine ⟨fun h => absurd (h ▸ (h₁ _ he₁).1) hhub, fun _ => ?_⟩
            obtain ⟨u, v, rfl, hu, hv⟩ := ihpart (h₁ _ he₁).2
            exact ⟨u, v, rfl, .epsilon he₁ hu, hv⟩
          · obtain ⟨rfl, -, rfl⟩ := Edge.mk.inj he
            refine ⟨fun _ => ?_, fun h => absurd h hhub⟩
            obtain ⟨u, v, rfl, hu, hv⟩ := ihpart hs₁
            exact .append hu hv
          · obtain ⟨rfl, -, rfl⟩ := Edge.mk.inj he
            exact ⟨fun h => absurd (h ▸ hx₁) hhub, fun _ => ⟨[], w, rfl, .nil _, ihhub rfl⟩⟩
      | @symbol s y t a w he _ ih =>
          intro ht
          rcases (hE _).1 he with he₁ | he | he
          · refine ⟨fun h => absurd (h ▸ (h₁ _ he₁).1) hhub, fun _ => ?_⟩
            obtain ⟨u, v, rfl, hu, hv⟩ := (ih ht).2 (h₁ _ he₁).2
            exact ⟨a :: u, v, rfl, .symbol he₁ hu, hv⟩
          · exact absurd (congrArg Edge.label he) (Option.some_ne_none a)
          · exact absurd (congrArg Edge.label he) (Option.some_ne_none a)
    exact fun hp => (key hp rfl).1 rfl
  · intro hw
    induction hw with
    | nil => exact .nil hub
    | append hu _ ih =>
        have hback : Path E x₁ [] hub := .edge ((hE _).2 (Or.inr (Or.inr rfl)))
        have hround := (hu.mono fun e he => (hE e).2 (Or.inl he)).append hback
        rw [List.append_nil] at hround
        exact .append (.epsilon ((hE _).2 (Or.inr (Or.inl rfl))) hround) ih

namespace Beside

variable {a b : StateName} {e : Edge}

theorem of_part (h : Beside E E₁ E₂ I a b s₁ x₁) (he : e ∈ E) (hes : I e.source) :
    e ∈ E₁ ∨ e = ⟨x₁, none, b⟩ := by
  rcases (h.edges e).1 he with he₁ | he₂ | rfl | rfl
  · exact Or.inl he₁
  · exact absurd hes (h.other e he₂).1
  · exact absurd hes h.source
  · exact Or.inr rfl

theorem of_outside (h : Beside E E₁ E₂ I a b s₁ x₁) (he : e ∈ E) (hes : ¬ I e.source) :
    e ∈ E₂ ∨ e = ⟨a, none, s₁⟩ := by
  rcases (h.edges e).1 he with he₁ | he₂ | rfl | rfl
  · exact absurd (h.part e he₁).1 hes
  · exact Or.inl he₂
  · exact Or.inr rfl
  · exact absurd h.exit hes

theorem source_ne (h : Beside E E₁ E₂ I a b s₁ x₁) (he : e ∈ E) : e.source ≠ b := by
  intro heb
  rcases h.of_outside he (heb ▸ h.target) with he₂ | rfl
  · exact h.final e he₂ heb
  · exact h.ne heb

/-- A path from the beginning of the part goes through it and ends behind it. -/
theorem path_part (h : Beside E E₁ E₂ I a b s₁ x₁) (hp : Path E s₁ w b) : Path E₁ s₁ w x₁ := by
  have hleave : ∀ e ∈ E, I e.source → e ∈ E₁ ∨ e.source = x₁ ∧ e.label = none ∧ ¬ I e.target := by
    intro e he hes
    rcases h.of_part he hes with he₁ | rfl
    · exact Or.inl he₁
    · exact Or.inr ⟨rfl, rfl, h.target⟩
  obtain ⟨u, v, y, rfl, hu, hy, hyI, hv⟩ := hp.escape h.part hleave h.start h.target
  rcases h.of_part hy h.exit with hy₁ | hy
  · exact absurd (h.part _ hy₁).2 hyI
  · obtain rfl : y = b := congrArg Edge.target hy
    -- No edge leaves `b`, so nothing is read there.
    cases hv with
    | nil => rwa [List.append_nil]
    | epsilon he _ => exact absurd rfl (h.source_ne he)
    | symbol he _ => exact absurd rfl (h.source_ne he)

theorem path_other (h : Beside E E₁ E₂ I a b s₁ x₁) (hp : Path E s w t) (hs : ¬ I s) (hne : s ≠ a) :
    Path E₂ s w t := by
  refine hp.stay (I := fun x => ¬ I x ∧ x ≠ a) ?_ ⟨hs, hne⟩
  rintro e he ⟨hes, hea⟩
  rcases h.of_outside he hes with he₂ | rfl
  · exact ⟨he₂, (h.other e he₂).2, h.back e he₂⟩
  · exact absurd rfl hea

end Beside

theorem path_fork_iff {a b : StateName} (h : Beside E E₁ E₂ I a b s₁ x₁) :
    Path E a w b ↔ Path E₁ s₁ w x₁ ∨ Path E₂ a w b := by
  constructor
  · intro hp
    -- The first edge decides, since no edge leads back to `a`.
    cases hp with
    | nil => exact absurd rfl h.ne
    | epsilon he hp =>
        rcases h.of_outside he h.source with he₂ | he
        · exact Or.inr (.epsilon he₂ (h.path_other hp (h.other _ he₂).2 (h.back _ he₂)))
        · obtain ⟨-, -, rfl⟩ := Edge.mk.inj he
          exact Or.inl (h.path_part hp)
    | @symbol _ _ _ l _ he hp =>
        rcases h.of_outside he h.source with he₂ | he
        · exact Or.inr (.symbol he₂ (h.path_other hp (h.other _ he₂).2 (h.back _ he₂)))
        · exact absurd (congrArg Edge.label he) (Option.some_ne_none l)
  · rintro (hp | hp)
    · have hout : Path E x₁ [] b := .edge ((h.edges _).2 (Or.inr (Or.inr (Or.inr rfl))))
      have hround := (hp.mono fun e he => (h.edges e).2 (Or.inl he)).append hout
      rw [List.append_nil] at hround
      exact .epsilon ((h.edges _).2 (Or.inr (Or.inr (Or.inl rfl)))) hround
    · exact hp.mono fun e he => (h.edges e).2 (Or.inr (Or.inl he))

end Parts

end Automata
