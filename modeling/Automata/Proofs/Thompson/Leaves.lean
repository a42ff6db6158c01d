/-
# Leaves are the ends of labelled edges

In the automaton of an expression the leaves at which words end are the states behind the labelled edges.  So two sets
of words end at the same leaves if and only if they land on the same states (`Regex.sameLeaves_iff`), whatever names
the automaton is built with.

A state behind a labelled edge is entered by no epsilon edge, and it is never the start of its part
(`Regex.not_entered`): operators add epsilon edges to starts and to states of their own only.  Hence two words meet in
the automaton, that is they lead to the same states, if and only if both are empty or both are not, they begin words
of the language and end at the same leaves (`Regex.meets_iff_sameLeaves`).  Names, epsilon edges and the number of
states have no part in this, so alike expressions have the same deterministic automaton (`Regex.Alike.determinize_eq`).
-/
import Automata.Proofs.Landings
import Automata.Proofs.Recognition
import Automata.Proofs.Subset.Alike

namespace Automata

open Thompson

variable {E E' : List Edge} {X Y : List String → Prop} {t : StateName}

/-! ## States behind labelled edges -/

theorem entered_append_iff : Entered (E ++ E') t ↔ Entered E t ∨ Entered E' t := by
  simp [Entered, exists_or]

theorem Inside.entered {I : StateName → Prop} (h : Inside I E) (ht : Entered E t) : I t := by
  obtain ⟨_, _, he⟩ := ht
  exact (h _ he).2

theorem not_entered_of_unlabelled (h : ∀ e ∈ E, e.label = none) : ¬ Entered E t := by
  rintro ⟨_, _, he⟩
  cases h _ he

theorem label_joins : ∀ {parts : List Fragment}, ∀ e ∈ joins parts, e.label = none
  | [], _, he => absurd he List.not_mem_nil
  | [_], _, he => absurd he List.not_mem_nil
  | _ :: b :: rest, e, he => by
      rcases List.mem_cons.1 he with rfl | he
      · rfl
      · exact label_joins e he

theorem target_joins : ∀ {parts : List Fragment}, ∀ e ∈ joins parts, ∃ part ∈ parts, e.target = part.start
  | [], _, he => absurd he List.not_mem_nil
  | [_], _, he => absurd he List.not_mem_nil
  | _ :: b :: rest, e, he => by
      rcases List.mem_cons.1 he with rfl | he
      · exact ⟨b, List.mem_cons_of_mem _ List.mem_cons_self, rfl⟩
      · obtain ⟨part, hpart, htarget⟩ := target_joins e he
        exact ⟨part, List.mem_cons_of_mem _ hpart, htarget⟩

theorem label_forks {ends : Fragment} {parts : List Fragment} : ∀ e ∈ forks ends parts, e.label = none := by
  intro e he
  obtain ⟨_, _, rfl | rfl⟩ := mem_forks_iff.1 he
  · rfl
  · rfl

/-- No epsilon edge enters a state behind a labelled edge. -/
def Separate (E : List Edge) : Prop := ∀ s t, ⟨s, none, t⟩ ∈ E → ¬ Entered E t

theorem Separate.append {I I' : StateName → Prop} (h : Separate E) (h' : Separate E') (hI : Inside I E)
    (hI' : Inside I' E') (hdisj : ∀ x, I x → ¬ I' x) : Separate (E ++ E') := by
  intro s t he ht
  rcases List.mem_append.1 he with he | he
  · rcases entered_append_iff.1 ht with ht | ht
    · exact h s t he ht
    · exact hdisj t (hI _ he).2 (hI'.entered ht)
  · rcases entered_append_iff.1 ht with ht | ht
    · exact hdisj t (hI.entered ht) (hI' _ he).2
    · exact h' s t he ht

theorem Separate.add {F : List Edge} (h : Separate E) (hF : ∀ e ∈ F, e.label = none)
    (htarget : ∀ e ∈ F, ¬ Entered E e.target) : Separate (E ++ F) := by
  intro s t he ht
  have ht := (entered_append_iff.1 ht).resolve_right (not_entered_of_unlabelled hF)
  rcases List.mem_append.1 he with he | he
  · exact h s t he ht
  · exact htarget _ he ht

mutual

/-- In the edges of an expression no epsilon edge and no start comes behind a labelled edge. -/
theorem Regex.not_entered : ∀ (r : Regex) (p : Nat),
    Separate (r.edgesAt p) ∧ ¬ Entered (r.edgesAt p) (r.fragmentAt p).start
  | .lit _, p => by
      simp [Separate, Entered, Regex.edgesAt, Regex.fragmentAt]
  | .epsilon, p => by
      simp [Separate, Entered, Regex.edgesAt]
  | .cat os, p => by
      obtain ⟨hos, hstarts⟩ := Operands.not_entered os p
      obtain ⟨first, _, hfirst, -, hspan⟩ := os.ends_fragmentsAt p
      constructor
      · refine hos.add label_joins fun e he => ?_
        obtain ⟨part, hpart, htarget⟩ := target_joins e he
        exact htarget ▸ hstarts part hpart
      · rw [Regex.edgesAt, Regex.fragmentAt, hspan, entered_append_iff]
        exact not_or.2 ⟨hstarts first (List.mem_of_head? hfirst), not_entered_of_unlabelled label_joins⟩
  | .alt os, p => by
      obtain ⟨hos, hstarts⟩ := Operands.not_entered os (p + 2)
      -- The two ends are taken before the operands, the state of a repetition after its operand.
      have hends : ∀ t, t < p + 2 → ¬ Entered (os.edgesAt (p + 2)) t := fun t ht h =>
        Nat.not_le.2 ht ((os.inside_edgesAt (p + 2)).entered h).1
      constructor
      · refine hos.add label_forks fun e he => ?_
        obtain ⟨part, hpart, rfl | rfl⟩ := mem_forks_iff.1 he
        · exact hstarts part hpart
        · exact hends _ (Nat.lt_succ_self _)
      · rw [Regex.edgesAt, Regex.fragmentAt, entered_append_iff]
        exact not_or.2 ⟨hends _ (by simp), not_entered_of_unlabelled label_forks⟩
  | .star r, p => by
      obtain ⟨hr, hstart⟩ := Regex.not_entered r p
      have hhub : ¬ Entered (r.edgesAt p) (p + r.stateCount) := fun h =>
        Nat.lt_irrefl _ ((r.inside_edgesAt p).entered h).2
      constructor
      · refine hr.add (by simp) ?_
        simpa using ⟨hstart, hhub⟩
      · rw [Regex.edgesAt, Regex.fragmentAt, entered_append_iff]
        exact not_or.2 ⟨hhub, not_entered_of_unlabelled (by simp)⟩

theorem Operands.not_entered : ∀ (os : Operands) (p : Nat),
    Separate (os.edgesAt p) ∧ ∀ part ∈ os.fragmentsAt p, ¬ Entered (os.edgesAt p) part.start
  | .pair a b, p => by
      obtain ⟨ha, hastart⟩ := Regex.not_entered a p
      obtain ⟨hb, hbstart⟩ := Regex.not_entered b (p + a.stateCount)
      have hain := a.inside_edgesAt p
      have hbin := b.inside_edgesAt (p + a.stateCount)
      refine ⟨ha.append hb hain hbin fun _ => names_disjoint, ?_⟩
      intro part hpart
      rw [Operands.edgesAt, entered_append_iff]
      simp only [Operands.fragmentsAt, List.mem_cons, List.not_mem_nil, or_false] at hpart
      rcases hpart with rfl | rfl
      · exact not_or.2 ⟨hastart, fun h => names_disjoint (a.fragmentAt_within p).1 (hbin.entered h)⟩
      · exact not_or.2 ⟨fun h => names_disjoint (hain.entered h) (b.fragmentAt_within _).1, hbstart⟩
  | .cons a rest, p => by
      obtain ⟨ha, hastart⟩ := Regex.not_entered a p
      obtain ⟨hrest, hstarts⟩ := Operands.not_entered rest (p + a.stateCount)
      have hain := a.inside_edgesAt p
      have hrestin := rest.inside_edgesAt (p + a.stateCount)
      refine ⟨ha.append hrest hain hrestin fun _ => names_disjoint, ?_⟩
      intro part hpart
      rw [Operands.edgesAt, entered_append_iff]
      rcases List.mem_cons.1 hpart with rfl | hpart
      · exact not_or.2 ⟨hastart, fun h => names_disjoint (a.fragmentAt_within p).1 (hrestin.entered h)⟩
      · have hwithin := rest.fragmentsAt_within _ part hpart
        exact not_or.2 ⟨fun h => names_disjoint (hain.entered h) hwithin.1, hstarts part hpart⟩

end

/-! ## Ending at leaves is landing on states -/

mutual

/-- Words of two sets end at the same leaves if and only if they land on the same states. -/
theorem Regex.sameLeaves_iff : ∀ (r : Regex) (p : Nat) {X Y : List String → Prop},
    r.SameLeaves X Y ↔ LandAlike (r.edgesAt p) (r.fragmentAt p).start X Y
  | .lit s, p, X, Y => by
      simp [Regex.SameLeaves, LandAlike, Regex.edgesAt, Regex.fragmentAt, lands_single_iff]
  | .epsilon, p, X, Y => by
      simp [Regex.SameLeaves, LandAlike, Regex.edgesAt, Regex.fragmentAt, lands_single_iff]
  | .cat os, p, X, Y => Operands.sameLeavesCat_iff_landAlike os p
  | .alt os, p, X, Y => Operands.sameLeavesAlt_iff_landAlike os (p + 2) ⟨p, p + 1⟩ (outside_alt p _)
  | .star r, p, X, Y => by
      rw [Regex.SameLeaves, Regex.sameLeaves_iff r p, ← funext fun u => propext (r.path_edgesAt_iff p (w := u))]
      exact (landAlike_loop_iff (r.around_star p)).symm

theorem Operands.sameLeavesCat_iff_landAlike : ∀ (os : Operands) (p : Nat) {X Y : List String → Prop},
    os.SameLeavesCat X Y ↔ LandAlike (os.edgesAt p ++ joins (os.fragmentsAt p)) (os.spanAt p).start X Y
  | .pair a b, p, X, Y => by
      have hstep := landAlike_chain_iff (X := X) (Y := Y)
        (inRow_joined (a := a) (b.inside_edgesAt (p + a.stateCount)) (b.fragmentAt_within _)) (a.fragmentAt_within p).1
      simp only [← Regex.sameLeaves_iff a, ← Regex.sameLeaves_iff b, Regex.path_edgesAt_iff a] at hstep
      refine Iff.trans hstep.symm (landAlike_congr fun e => ?_)
      simp [Operands.edgesAt, Operands.fragmentsAt, joins, or_comm]
  | .cons a rest, p, X, Y => by
      have hstep := landAlike_chain_iff (X := X) (Y := Y)
        (inRow_joined (a := a) ((Regex.cat rest).inside_edgesAt (p + a.stateCount)) (rest.spanAt_within _))
        (a.fragmentAt_within p).1
      simp only [Regex.edgesAt, ← Regex.sameLeaves_iff a, ← Operands.sameLeavesCat_iff_landAlike rest,
        Regex.path_edgesAt_iff a] at hstep
      refine Iff.trans hstep.symm (landAlike_congr fun e => ?_)
      simp [Operands.edgesAt, Operands.fragmentsAt, joins_cons_fragmentsAt, or_left_comm]

theorem Operands.sameLeavesAlt_iff_landAlike : ∀ (os : Operands) (p : Nat) (ends : Fragment)
    {X Y : List String → Prop}, ends.Outside p (p + os.stateCount) →
      (os.SameLeavesAlt X Y ↔ LandAlike (os.edgesAt p ++ forks ends (os.fragmentsAt p)) ends.start X Y)
  | .pair a b, p, ends, X, Y, hends => by
      have hnone : LandAlike [] ends.start X Y := fun y => by simp [Lands]
      rw [landAlike_fork_iff (Operands.beside_pair a b p hends), landAlike_fork_iff (beside_last hends.last),
        Operands.SameLeavesAlt, Regex.sameLeaves_iff a p, Regex.sameLeaves_iff b, and_iff_left hnone]
  | .cons a rest, p, ends, X, Y, hends => by
      rw [landAlike_fork_iff (Operands.beside_cons a rest p hends), Operands.SameLeavesAlt, Regex.sameLeaves_iff a p,
        Operands.sameLeavesAlt_iff_landAlike rest _ ends hends.tail]

end

/-! ## Words that meet -/

namespace Regex

variable {r s : Regex} {p q : Nat} {v w : List String}

theorem landAlike_of_path_iff (hv : v ≠ []) (hw : w ≠ [])
    (hpath : ∀ t, Path (r.edgesAt p) (r.fragmentAt p).start v t ↔ Path (r.edgesAt p) (r.fragmentAt p).start w t) :
    LandAlike (r.edgesAt p) (r.fragmentAt p).start (· = v) (· = w) := by
  have key : ∀ {v w : List String} {y : StateName}, w ≠ [] →
      (∀ t, Path (r.edgesAt p) (r.fragmentAt p).start v t → Path (r.edgesAt p) (r.fragmentAt p).start w t) →
      Lands (r.edgesAt p) (r.fragmentAt p).start (· = v) y → Lands (r.edgesAt p) (r.fragmentAt p).start (· = w) y := by
    intro v w y hw hpath hl
    have hbehind : ∀ x, ⟨x, none, y⟩ ∉ r.edgesAt p := fun x he => (r.not_entered p).1 x y he hl.entered
    exact ((hpath y hl.path).lands_of_entered hbehind).resolve_left fun h => hw h.1
  exact fun y => ⟨key hw fun t => (hpath t).1, key hv fun t => (hpath t).2⟩

theorem eq_nil_of_path_iff
    (hpath : ∀ t, Path (r.edgesAt p) (r.fragmentAt p).start v t ↔ Path (r.edgesAt p) (r.fragmentAt p).start w t) :
    v = [] ↔ w = [] := by
  have key : ∀ {w : List String}, Path (r.edgesAt p) (r.fragmentAt p).start w (r.fragmentAt p).start →
      (∀ t, Path (r.edgesAt p) (r.fragmentAt p).start w t → Path (r.edgesAt p) (r.fragmentAt p).start [] t) →
      w = [] := by
    intro w hw hpath
    by_contra hne
    obtain ⟨y, hl, -⟩ := (path_iff_of_lands hne).1 hw
    have hbehind : ∀ x, ⟨x, none, y⟩ ∉ r.edgesAt p := fun x he => (r.not_entered p).1 x y he hl.entered
    rcases (hpath y hl.path).lands_of_entered hbehind with ⟨-, rfl⟩ | ⟨u, a, -, h, -⟩
    · exact (r.not_entered p).2 hl.entered
    · simp at h
  constructor
  · rintro rfl
    exact key ((hpath _).1 (.nil _)) fun t => (hpath t).2
  · rintro rfl
    exact key ((hpath _).2 (.nil _)) fun t => (hpath t).1

/-- Two words meet if and only if they begin words of the language, both or neither are empty, and they end at the
same leaves. -/
theorem meets_iff_sameLeaves : (r.nfaAt p).Meets v w ↔
    r.Begins v ∧ (v = [] ↔ w = []) ∧ r.SameLeaves (· = v) (· = w) := by
  have hpath : ∀ {u t}, (r.nfaAt p).Path (r.nfaAt p).start u t ↔ Path (r.edgesAt p) (r.fragmentAt p).start u t :=
    path_congr fun _ => mem_edges_nfaAt
  rw [Nfa.Meets, ← r.begins_iff_path p, r.sameLeaves_iff p]
  simp only [hpath]
  refine and_congr_right fun _ => ⟨fun h => ⟨eq_nil_of_path_iff h, ?_⟩, ?_⟩
  · by_cases hv : v = []
    · obtain rfl := hv
      obtain rfl := (eq_nil_of_path_iff h).1 rfl
      exact fun _ => Iff.rfl
    · exact landAlike_of_path_iff hv (fun hw => hv ((eq_nil_of_path_iff h).2 hw)) h
  · rintro ⟨hnil, hland⟩ t
    by_cases hv : v = []
    · rw [hv, hnil.1 hv]
    · rw [path_iff_of_lands hv, path_iff_of_lands fun hw => hv (hnil.2 hw)]
      exact exists_congr fun y => and_congr_left fun _ => hland y

theorem Alike.determinize_eq (h : r.Alike s) (p q : Nat) : ∃ dA dB, (r.nfaAt p).determinize = .ok dA ∧
    (s.nfaAt q).determinize = .ok dB ∧ dA.dfa = dB.dfa := by
  have hmeets : ∀ v w, (r.nfaAt p).Meets v w ↔ (s.nfaAt q).Meets v w := by
    intro v w
    rw [meets_iff_sameLeaves, meets_iff_sameLeaves, Begins, Begins, h.denotes, h.sameLeaves]
  have haccepts : ∀ w, (r.nfaAt p).Accepts w ↔ (s.nfaAt q).Accepts w := by
    intro w
    rw [accepts_nfaAt_iff, accepts_nfaAt_iff, h.denotes]
  obtain ⟨dA, dB, hdA, hdB, -, -, -, heq⟩ :=
    Nfa.determinize_eq_of_meets (r.wellFormed_nfaAt p) (s.wellFormed_nfaAt q) hmeets haccepts
  exact ⟨dA, dB, hdA, hdB, heq⟩

theorem Alike.compile_eq (h : r.Alike s) (hr : ∀ e, r.compile ≠ .error (.exhausted e))
    (hs : ∀ e, s.compile ≠ .error (.exhausted e)) : ∃ A B dA dB, r.compile = .ok A ∧ s.compile = .ok B ∧
      A.determinize = .ok dA ∧ B.determinize = .ok dB ∧ dA.dfa = dB.dfa := by
  obtain ⟨dA, dB, hdA, hdB, heq⟩ := h.determinize_eq 0 0
  exact ⟨_, _, dA, dB, toNfa_of_not_exhausted hr, toNfa_of_not_exhausted hs, hdA, hdB, heq⟩

end Regex

end Automata
