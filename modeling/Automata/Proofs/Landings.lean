/-
# Where the last symbol leads

A path that reads at least one symbol crosses a last edge with a symbol and goes on by epsilon edges only.  The state
behind that edge is where the word *lands* (`Lands`); whatever else the path reaches is reached from there without
reading.  So a word is told from another, as far as states go, by where the two land (`path_iff_of_lands`), provided
no epsilon edge enters such a state (`Path.lands_of_entered`).

What is landed on is followed here through graphs that are put together of parts with epsilon edges: two parts in a
row, a part around a state of its own, a part beside others.  A word that lands in a part further behind has been
read up to the part by a beginning of it, so the part sees what is left of the word (`After`).  Words are taken by
sets, since one word can be divided in several ways.
-/
import Mathlib.Data.List.Basic
import Automata.Proofs.Paths
import Automata.Proofs.Regex.Leaves

namespace Automata

variable {E E₁ E₂ : List Edge} {s t y : StateName} {v w : List String} {X Y : List String → Prop}

/-- Some word of `X` is read up to its last symbol, and an edge with that symbol leads to `y`. -/
def Lands (E : List Edge) (s : StateName) (X : List String → Prop) (y : StateName) : Prop :=
  ∃ u a x, X (u ++ [a]) ∧ Path E s u x ∧ ⟨x, some a, y⟩ ∈ E

/-- The words of `X` land where those of `Y` do. -/
def LandAlike (E : List Edge) (s : StateName) (X Y : List String → Prop) : Prop :=
  ∀ y, Lands E s X y ↔ Lands E s Y y

/-- Some edge with a symbol enters the state. -/
def Entered (E : List Edge) (t : StateName) : Prop := ∃ s a, ⟨s, some a, t⟩ ∈ E

/-! ## Words and where they land -/

theorem Lands.entered (h : Lands E s X y) : Entered E y := by
  obtain ⟨-, a, x, -, -, he⟩ := h
  exact ⟨x, a, he⟩

theorem Lands.path (h : Lands E s (· = w) y) : Path E s w y := by
  obtain ⟨u, a, x, rfl, hp, he⟩ := h
  exact hp.append (.symbol he (.nil y))

theorem Lands.mono (h : ∀ e ∈ E₁, e ∈ E) (hl : Lands E₁ s X y) : Lands E s X y := by
  obtain ⟨u, a, x, hX, hp, he⟩ := hl
  exact ⟨u, a, x, hX, hp.mono h, h _ he⟩

theorem landAlike_congr (h : ∀ e, e ∈ E ↔ e ∈ E₁) : LandAlike E s X Y ↔ LandAlike E₁ s X Y := by
  have hlands : ∀ Z y, Lands E s Z y ↔ Lands E₁ s Z y := fun Z y =>
    ⟨fun hl => hl.mono fun e he => (h e).1 he, fun hl => hl.mono fun e he => (h e).2 he⟩
  exact forall_congr' fun y => by rw [hlands, hlands]

theorem lands_inside {I : StateName → Prop} (h : Inside I E) (hl : Lands E s X y) : I y := by
  obtain ⟨u, a, x, -, -, he⟩ := hl
  exact (h _ he).2

theorem path_iff_of_lands (hw : w ≠ []) :
    Path E s w t ↔ ∃ y, Lands E s (· = w) y ∧ Path E y [] t := by
  constructor
  · intro hp
    obtain ⟨u, a, rfl⟩ := (List.eq_nil_or_concat' w).resolve_left hw
    obtain ⟨m, hu, ha⟩ := path_append_iff.1 hp
    obtain ⟨x, y, hx, hxy, hy⟩ := ha.cons_inv
    exact ⟨y, ⟨u, a, x, rfl, by simpa using hu.append hx, hxy⟩, hy⟩
  · rintro ⟨y, ⟨u, a, x, rfl, hx, hxy⟩, hy⟩
    exact hx.append (.symbol hxy hy)

theorem Path.lands_of_entered (hy : ∀ x, ⟨x, none, y⟩ ∉ E) (hp : Path E s w y) :
    w = [] ∧ s = y ∨ Lands E s (· = w) y := by
  induction hp with
  | nil _ => exact Or.inl ⟨rfl, rfl⟩
  | epsilon he _ ih =>
      rcases ih hy with ⟨-, rfl⟩ | ⟨u, a, x, rfl, hx, hxy⟩
      · exact absurd he (hy _)
      · exact Or.inr ⟨u, a, x, rfl, .epsilon he hx, hxy⟩
  | @symbol s _ _ b _ he _ ih =>
      rcases ih hy with ⟨rfl, rfl⟩ | ⟨u, a, x, rfl, hx, hxy⟩
      · exact Or.inr ⟨[], b, s, rfl, .nil s, he⟩
      · exact Or.inr ⟨b :: u, a, x, rfl, .symbol he hx, hxy⟩

theorem lands_single_iff {l : Option String} (hst : s ≠ t) :
    Lands [⟨s, l, t⟩] s X y ↔ (∃ a, l = some a ∧ X [a]) ∧ y = t := by
  constructor
  · rintro ⟨u, a, x, hX, hp, he⟩
    obtain ⟨rfl, rfl, rfl⟩ := Edge.mk.inj (List.mem_singleton.1 he)
    -- The edge leads away from its source, so nothing was read before it.
    cases hp with
    | nil => exact ⟨⟨a, rfl, hX⟩, rfl⟩
    | symbol he hp =>
        obtain ⟨-, -, rfl⟩ := Edge.mk.inj (List.mem_singleton.1 he)
        cases hp with
        | nil => exact absurd rfl hst
        | symbol he _ => exact absurd (congrArg Edge.source (List.mem_singleton.1 he)).symm hst
        | epsilon he _ => exact absurd (congrArg Edge.source (List.mem_singleton.1 he)).symm hst
    | epsilon he _ => exact absurd (congrArg Edge.label (List.mem_singleton.1 he)) nofun
  · rintro ⟨⟨a, rfl, hX⟩, rfl⟩
    exact ⟨[], a, s, hX, .nil s, List.mem_singleton.2 rfl⟩

/-! ## Regions that are not left, states that are passed -/

theorem Path.closed {J : StateName → Prop} (hJ : ∀ e ∈ E, J e.source → J e.target) (hp : Path E s w t)
    (hs : J s) : J t := by
  induction hp with
  | nil _ => exact hs
  | epsilon he _ ih => exact ih (hJ _ he hs)
  | symbol he _ ih => exact ih (hJ _ he hs)

theorem Path.avoid {J : StateName → Prop} (hJ : ∀ e ∈ E, J e.source → J e.target)
    (hout : ∀ e ∈ E, ¬ J e.source → ¬ J e.target → e ∈ E₁) (hp : Path E s w t) (ht : ¬ J t) :
    Path E₁ s w t := by
  induction hp with
  | nil _ => exact .nil _
  | epsilon he hp ih =>
      have hy := fun h => ht (hp.closed hJ h)
      exact .epsilon (hout _ he (fun h => hy (hJ _ he h)) hy) (ih ht)
  | symbol he hp ih =>
      have hy := fun h => ht (hp.closed hJ h)
      exact .symbol (hout _ he (fun h => hy (hJ _ he h)) hy) (ih ht)

/-- A path comes apart where it is at a state for the last time, if it comes there at all. -/
theorem Path.cut_last {hub : StateName} (h : ∀ e ∈ E, e.target ≠ hub → e ∈ E₁) (hp : Path E s w t) :
    Path E₁ s w t ∨ ∃ u v, w = u ++ v ∧ Path E s u hub ∧ Path E₁ hub v t := by
  induction hp with
  | nil _ => exact Or.inl (.nil _)
  | @epsilon s y t w he _ ih =>
      rcases ih with hp | ⟨u, v, rfl, hu, hv⟩
      · by_cases hy : y = hub
        · exact Or.inr ⟨[], w, rfl, .edge (hy ▸ he), hy ▸ hp⟩
        · exact Or.inl (.epsilon (h _ he hy) hp)
      · exact Or.inr ⟨u, v, rfl, .epsilon he hu, hv⟩
  | @symbol s y t a w he _ ih =>
      rcases ih with hp | ⟨u, v, rfl, hu, hv⟩
      · by_cases hy : y = hub
        · exact Or.inr ⟨[a], w, rfl, .symbol (hy ▸ he) (.nil _), hy ▸ hp⟩
        · exact Or.inl (.symbol (h _ he hy) hp)
      · exact Or.inr ⟨a :: u, v, rfl, .symbol he hu, hv⟩

/-! ## Parts put together

The same three ways in which paths are followed through parts. -/

section Parts

variable {I I₂ : StateName → Prop} {s₁ x₁ s₂ hub : StateName}

/-- Two parts in a row: the second sees what is left of the words behind the first. -/
theorem lands_chain_iff (h : InRow E E₁ E₂ I I₂ x₁ s₂) (hs : I s) :
    Lands E s X y ↔ Lands E₁ s X y ∨ Lands E₂ s₂ (After (Path E₁ s · x₁) X) y := by
  have hchain := fun {u x} => path_chain_iff (w := u) (t := x) h hs
  obtain ⟨h₁, h₂, hdisj, hx₁, hs₂, hE⟩ := h
  constructor
  · rintro ⟨u, a, x, hX, hp, he⟩
    rcases (hE _).1 he with he₁ | he₂ | he
    · have hstay : ∀ e ∈ E, I₂ e.source → I₂ e.target := by
        intro e he hes
        rcases (hE e).1 he with he₁ | he₂ | rfl
        · exact absurd hes (hdisj _ (h₁ e he₁).1)
        · exact (h₂ e he₂).2
        · exact hs₂
      have hfirst : ∀ e ∈ E, ¬ I₂ e.source → ¬ I₂ e.target → e ∈ E₁ := by
        intro e he hes het
        rcases (hE e).1 he with he₁ | he₂ | rfl
        · exact he₁
        · exact absurd (h₂ e he₂).1 hes
        · exact absurd hs₂ het
      exact Or.inl ⟨u, a, x, hX, hp.avoid hstay hfirst (hdisj _ (h₁ _ he₁).1), he₁⟩
    · obtain ⟨u, v, rfl, hu, hv⟩ := (hchain (h₂ _ he₂).1).1 hp
      exact Or.inr ⟨v, a, x, ⟨u, hu, by rwa [← List.append_assoc]⟩, hv, he₂⟩
    · exact absurd (congrArg Edge.label he) (Option.some_ne_none a)
  · rintro (hl | ⟨v, a, x, ⟨u, hu, hX⟩, hv, he⟩)
    · exact hl.mono fun e he => (hE e).2 (Or.inl he)
    · have hp := (hchain (h₂ _ he).1).2 ⟨u, v, rfl, hu, hv⟩
      exact ⟨u ++ v, a, x, by rwa [List.append_assoc], hp, (hE _).2 (Or.inr (Or.inl he))⟩

theorem Path.enter (h₁ : Inside I E₁) (hhub : ¬ I hub) (hs₁ : I s₁) (ht : I t)
    (hp : Path (⟨hub, none, s₁⟩ :: E₁) hub w t) : Path E₁ s₁ w t := by
  have hkeep : ∀ e ∈ (⟨hub, none, s₁⟩ :: E₁ : List Edge), I e.source → e ∈ E₁ ∧ I e.target := by
    intro e he hes
    rcases List.mem_cons.1 he with rfl | he
    · exact absurd hes hhub
    · exact ⟨he, (h₁ e he).2⟩
  cases hp with
  | nil => exact absurd ht hhub
  | epsilon he hp =>
      rcases List.mem_cons.1 he with he | he
      · obtain ⟨-, -, rfl⟩ := Edge.mk.inj he
        exact hp.stay hkeep hs₁
      · exact absurd (h₁ _ he).1 hhub
  | symbol he _ =>
      rcases List.mem_cons.1 he with he | he
      · exact absurd (congrArg Edge.label he) nofun
      · exact absurd (h₁ _ he).1 hhub

/-- A part around a state of its own: it sees what is left of the words behind any number of rounds. -/
theorem lands_loop_iff (h : Around E E₁ I hub s₁ x₁) :
    Lands E hub X y ↔ Lands E₁ s₁ (After (Repeated fun u => Path E₁ s₁ u x₁) X) y := by
  have hloop := fun {u} => path_loop_iff (w := u) h
  obtain ⟨h₁, hhub, hs₁, hx₁, hE⟩ := h
  constructor
  · rintro ⟨w, a, x, hX, hp, he⟩
    have he₁ : (⟨x, some a, y⟩ : Edge) ∈ E₁ := by
      rcases (hE _).1 he with he₁ | he | he
      · exact he₁
      · exact absurd (congrArg Edge.label he) (Option.some_ne_none a)
      · exact absurd (congrArg Edge.label he) (Option.some_ne_none a)
    have hother : ∀ e ∈ E, e.target ≠ hub → e ∈ (⟨hub, none, s₁⟩ :: E₁ : List Edge) := by
      intro e he het
      rcases (hE e).1 he with he₁ | rfl | rfl
      · exact List.mem_cons_of_mem _ he₁
      · exact List.mem_cons_self
      · exact absurd rfl het
    -- The last round begins at the hub and stays in the part.
    have hround : ∀ {v}, Path (⟨hub, none, s₁⟩ :: E₁) hub v x → Path E₁ s₁ v x :=
      fun hv => hv.enter h₁ hhub hs₁ (h₁ _ he₁).1
    rcases hp.cut_last hother with hv | ⟨u, v, rfl, hu, hv⟩
    · exact ⟨w, a, x, ⟨[], .nil, hX⟩, hround hv, he₁⟩
    · have hrounds := hloop.1 hu
      exact ⟨v, a, x, ⟨u, hrounds, by rwa [← List.append_assoc]⟩, hround hv, he₁⟩
  · rintro ⟨v, a, x, ⟨u, hu, hX⟩, hv, he⟩
    have hrounds := hloop.2 hu
    have hin : (⟨hub, none, s₁⟩ : Edge) ∈ E := (hE _).2 (Or.inr (Or.inl rfl))
    have hlast := hv.mono fun e he => (hE e).2 (Or.inl he)
    exact ⟨u ++ v, a, x, by rwa [List.append_assoc], hrounds.append (.epsilon hin hlast), (hE _).2 (Or.inl he)⟩

theorem lands_fork_iff {a b : StateName} (h : Beside E E₁ E₂ I a b s₁ x₁) :
    Lands E a X y ↔ Lands E₁ s₁ X y ∨ Lands E₂ a X y := by
  constructor
  · rintro ⟨w, l, x, hX, hp, he⟩
    by_cases hx : I x
    · have he₁ : (⟨x, some l, y⟩ : Edge) ∈ E₁ :=
        (h.of_part he hx).resolve_right fun he => absurd (congrArg Edge.label he) (Option.some_ne_none l)
      -- Outside the part only `a` leads into it, and there is no way back to `a`.
      have hother : ∀ e ∈ E, ¬ I e.source ∧ e.source ≠ a → ¬ I e.target ∧ e.target ≠ a := by
        rintro e he ⟨hes, hea⟩
        rcases h.of_outside he hes with he₂ | rfl
        · exact ⟨(h.other e he₂).2, h.back e he₂⟩
        · exact absurd rfl hea
      have hpart : ∀ e ∈ E, ¬ (¬ I e.source ∧ e.source ≠ a) → ¬ (¬ I e.target ∧ e.target ≠ a) →
          e ∈ (⟨a, none, s₁⟩ :: E₁ : List Edge) := by
        intro e he _ het
        by_cases hes : I e.source
        · rcases h.of_part he hes with he₁ | rfl
          · exact List.mem_cons_of_mem _ he₁
          · exact absurd ⟨h.target, h.ne.symm⟩ het
        · rcases h.of_outside he hes with he₂ | rfl
          · exact absurd ⟨(h.other e he₂).2, h.back e he₂⟩ het
          · exact List.mem_cons_self
      have hp := hp.avoid (J := fun z => ¬ I z ∧ z ≠ a) hother hpart fun h => h.1 hx
      exact Or.inl ⟨w, l, x, hX, hp.enter h.part h.source h.start hx, he₁⟩
    · have he₂ : (⟨x, some l, y⟩ : Edge) ∈ E₂ :=
        (h.of_outside he hx).resolve_right fun he => absurd (congrArg Edge.label he) (Option.some_ne_none l)
      -- The part is left to `b` only, and no edge leaves `b`.
      have hpart : ∀ e ∈ E, I e.source ∨ e.source = b → I e.target ∨ e.target = b := by
        intro e he hes
        rcases h.of_part he (hes.resolve_right (h.source_ne he)) with he₁ | rfl
        · exact Or.inl (h.part e he₁).2
        · exact Or.inr rfl
      have hother : ∀ e ∈ E, ¬ (I e.source ∨ e.source = b) → ¬ (I e.target ∨ e.target = b) → e ∈ E₂ := by
        intro e he hes het
        rcases h.of_outside he (not_or.1 hes).1 with he₂ | rfl
        · exact he₂
        · exact absurd (Or.inl h.start) het
      exact Or.inr ⟨w, l, x, hX,
        hp.avoid (J := fun z => I z ∨ z = b) hpart hother (not_or.2 ⟨hx, h.source_ne he⟩), he₂⟩
  · rintro (⟨w, l, x, hX, hp, he⟩ | hl)
    · have hin : (⟨a, none, s₁⟩ : Edge) ∈ E := (h.edges _).2 (Or.inr (Or.inr (Or.inl rfl)))
      have hp := hp.mono fun e he => (h.edges e).2 (Or.inl he)
      exact ⟨w, l, x, hX, .epsilon hin hp, (h.edges _).2 (Or.inl he)⟩
    · exact hl.mono fun e he => (h.edges e).2 (Or.inr (Or.inl he))

/-! ## Comparing what is landed on -/

theorem forall_lands_or_iff {X₁ X₂ Y₁ Y₂ : List String → Prop} (h₁ : Inside I E₁) (h₂ : Inside I₂ E₂)
    (hdisj : ∀ x, I x → ¬ I₂ x) :
    (∀ y, Lands E₁ s₁ X₁ y ∨ Lands E₂ s₂ X₂ y ↔ Lands E₁ s₁ Y₁ y ∨ Lands E₂ s₂ Y₂ y) ↔
      LandAlike E₁ s₁ X₁ Y₁ ∧ LandAlike E₂ s₂ X₂ Y₂ := by
  have hapart : ∀ {Z Z' y}, Lands E₁ s₁ Z y → ¬ Lands E₂ s₂ Z' y := fun hl hl' =>
    hdisj _ (lands_inside h₁ hl) (lands_inside h₂ hl')
  constructor
  · intro h
    constructor
    · intro y
      exact ⟨fun hl => ((h y).1 (Or.inl hl)).resolve_right (hapart hl),
        fun hl => ((h y).2 (Or.inl hl)).resolve_right (hapart hl)⟩
    · intro y
      exact ⟨fun hl => ((h y).1 (Or.inr hl)).resolve_left fun hl' => hapart hl' hl,
        fun hl => ((h y).2 (Or.inr hl)).resolve_left fun hl' => hapart hl' hl⟩
  · rintro ⟨h, h'⟩ y
    exact or_congr (h y) (h' y)

theorem landAlike_chain_iff (h : InRow E E₁ E₂ I I₂ x₁ s₂) (hs : I s) : LandAlike E s X Y ↔
    LandAlike E₁ s X Y ∧ LandAlike E₂ s₂ (After (Path E₁ s · x₁) X) (After (Path E₁ s · x₁) Y) := by
  rw [← forall_lands_or_iff h.first h.second h.disjoint]
  exact forall_congr' fun y => by rw [lands_chain_iff h hs, lands_chain_iff h hs]

theorem landAlike_loop_iff (h : Around E E₁ I hub s₁ x₁) :
    LandAlike E hub X Y ↔ LandAlike E₁ s₁ (After (Repeated fun u => Path E₁ s₁ u x₁) X)
      (After (Repeated fun u => Path E₁ s₁ u x₁) Y) :=
  forall_congr' fun y => by rw [lands_loop_iff h, lands_loop_iff h]

theorem landAlike_fork_iff {a b : StateName} (h : Beside E E₁ E₂ I a b s₁ x₁) :
    LandAlike E a X Y ↔ LandAlike E₁ s₁ X Y ∧ LandAlike E₂ a X Y := by
  rw [← forall_lands_or_iff h.part h.other fun _ hx hx' => hx' hx]
  exact forall_congr' fun y => by rw [lands_fork_iff h, lands_fork_iff h]

end Parts

end Automata
