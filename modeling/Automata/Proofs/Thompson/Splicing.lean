/-
# Concatenations inside concatenations

A concatenation that stands directly inside another one may be replaced by its operands.  The automaton does not change
at all: it has the same start and exit, the same states and the same transitions in the same order, and as many names
are taken (`Regex.toNfa_spliced`).  What changes is when the edges between operands are added.  An inner concatenation
joins its operands before anything behind it is built, and the outer one joins all of its own in the end.  But each of
these edges leaves the exit of another operand, and no edge is added to that exit later, so the transitions of each
state come in the same order either way (`outgoing_comm`).

Expressions that are built alike in this sense are built alike inside larger ones (`Regex.BuiltAlike.operand`,
`Regex.BuiltAlike.star`).  So only two concatenations one inside the other have to be looked at, to the left
(`Regex.builtAlike_assoc`) and to the right (`Regex.builtAlike_cons`).
-/
import Automata.Proofs.Regex.Rewriting
import Automata.Proofs.Thompson.Language

namespace Automata

open Thompson

variable {r s t : Regex} {os os' : Operands} {p : Nat}

theorem outgoing_comm (E E' : List Edge) (I : StateName → Prop) (h : ∀ e ∈ E, I e.source)
    (h' : ∀ e ∈ E', ¬ I e.source) (x : StateName) :
    outgoing E x ++ outgoing E' x = outgoing E' x ++ outgoing E x := by
  by_cases hx : I x
  · have hnil : outgoing E' x = [] := outgoing_eq_nil fun e he hex => h' e he (hex ▸ hx)
    rw [hnil, List.append_nil, List.nil_append]
  · have hnil : outgoing E x = [] := outgoing_eq_nil fun e he hex => hx (hex ▸ h e he)
    rw [hnil, List.append_nil, List.nil_append]

/-! ## Built alike -/

/-- From every name on, the two expressions take the same names, start and end at the same states and give every state
the same transitions in the same order. -/
structure Regex.BuiltAlike (r s : Regex) : Prop where
  stateCount : r.stateCount = s.stateCount
  fragmentAt : ∀ p, r.fragmentAt p = s.fragmentAt p
  outgoing : ∀ p x, outgoing (r.edgesAt p) x = outgoing (s.edgesAt p) x

/-- The same for operands, which are not joined yet. -/
structure Operands.BuiltAlike (os os' : Operands) : Prop where
  stateCount : os.stateCount = os'.stateCount
  fragmentsAt : ∀ p, os.fragmentsAt p = os'.fragmentsAt p
  outgoing : ∀ p x, Automata.outgoing (os.edgesAt p) x = Automata.outgoing (os'.edgesAt p) x

namespace Regex.BuiltAlike

protected theorem refl (r : Regex) : r.BuiltAlike r := ⟨rfl, fun _ => rfl, fun _ _ => rfl⟩

protected theorem symm (h : r.BuiltAlike s) : s.BuiltAlike r where
  stateCount := h.stateCount.symm
  fragmentAt p := (h.fragmentAt p).symm
  outgoing p x := (h.outgoing p x).symm

protected theorem trans (h : r.BuiltAlike s) (h' : s.BuiltAlike t) : r.BuiltAlike t where
  stateCount := h.stateCount.trans h'.stateCount
  fragmentAt p := (h.fragmentAt p).trans (h'.fragmentAt p)
  outgoing p x := (h.outgoing p x).trans (h'.outgoing p x)

theorem nfaAt_eq (h : r.BuiltAlike s) (p : Nat) : r.nfaAt p = s.nfaAt p := by
  simp only [nfaAt, h.stateCount, h.fragmentAt, h.outgoing]

theorem toNfa_eq (h : r.BuiltAlike s) (supply : StateSupply) :
    (∃ nfa rest, r.toNfa supply = (.ok nfa, rest) ∧ s.toNfa supply = (.ok nfa, rest)) ∨
      ∃ e rest, r.toNfa supply = (.error (.exhausted e), rest) ∧ s.toNfa supply = (.error (.exhausted e), rest) := by
  by_cases hfits : supply.next + r.stateCount ≤ lastState
  · have hfits' : supply.next + s.stateCount ≤ lastState := h.stateCount ▸ hfits
    refine Or.inl ⟨_, _, toNfa_of_fits hfits, ?_⟩
    rw [toNfa_of_fits hfits', h.nfaAt_eq]
    simp only [h.stateCount]
  · have hshort : lastState < supply.next + r.stateCount := Nat.lt_of_not_le hfits
    exact Or.inr ⟨_, _, toNfa_of_short hshort, toNfa_of_short (h.stateCount ▸ hshort)⟩

end Regex.BuiltAlike

/-! ## Inside larger expressions -/

/-- Expressions built one after the other with the names from `p` on, each with the first of its names. -/
def placed : Nat → List Regex → List (Regex × Nat)
  | _, [] => []
  | p, r :: rs => (r, p) :: placed (p + r.stateCount) rs

/-- The first name left over when they are built. -/
def nextName (p : Nat) (rs : List Regex) : Nat := rs.foldl (fun q r => q + r.stateCount) p

theorem placed_append (rs ss : List Regex) :
    ∀ p, placed p (rs ++ ss) = placed p rs ++ placed (nextName p rs) ss := by
  induction rs with
  | nil => exact fun p => rfl
  | cons r rs ih =>
      intro p
      rw [List.cons_append, placed, ih]
      rfl

namespace Operands

theorem nextName_toList (os : Operands) (p : Nat) : nextName p os.toList = p + os.stateCount := by
  cases os with
  | pair a b => exact Nat.add_assoc p a.stateCount b.stateCount
  | cons a rest =>
      have hrest := nextName_toList rest (p + a.stateCount)
      rw [Nat.add_assoc] at hrest
      exact hrest

theorem fragmentsAt_eq (os : Operands) (p : Nat) :
    os.fragmentsAt p = (placed p os.toList).map fun x => x.1.fragmentAt x.2 := by
  cases os with
  | pair a b => rfl
  | cons a rest => rw [fragmentsAt, toList, placed, List.map_cons, fragmentsAt_eq rest]

theorem edgesAt_eq (os : Operands) (p : Nat) :
    os.edgesAt p = (placed p os.toList).flatMap fun x => x.1.edgesAt x.2 := by
  cases os with
  | pair a b => simp [edgesAt, toList, placed]
  | cons a rest => rw [edgesAt, toList, placed, List.flatMap_cons, edgesAt_eq rest]

theorem builtAlike_of_operand (h : r.BuiltAlike s) {before after : List Regex}
    (hos : os.toList = before ++ r :: after) (hos' : os'.toList = before ++ s :: after) : os.BuiltAlike os' where
  stateCount := by
    have hnext : nextName 0 os.toList = nextName 0 os'.toList := by
      simp only [hos, hos', nextName, List.foldl_append, List.foldl_cons, h.stateCount]
    rw [nextName_toList, nextName_toList] at hnext
    exact Nat.add_left_cancel hnext
  fragmentsAt := by
    intro p
    rw [fragmentsAt_eq, fragmentsAt_eq, hos, hos', placed_append, placed_append]
    simp only [placed, List.map_append, List.map_cons, h.stateCount, h.fragmentAt]
  outgoing := by
    intro p x
    rw [edgesAt_eq, edgesAt_eq, hos, hos', placed_append, placed_append]
    simp only [placed, List.flatMap_append, List.flatMap_cons, outgoing_append, h.stateCount, h.outgoing]

theorem spanAt_congr (h : os.fragmentsAt p = os'.fragmentsAt p) : os.spanAt p = os'.spanAt p := by
  obtain ⟨first, last, hfirst, hlast, hspan⟩ := os.ends_fragmentsAt p
  obtain ⟨first', last', hfirst', hlast', hspan'⟩ := os'.ends_fragmentsAt p
  obtain rfl : first = first' := Option.some.inj (by rw [← hfirst, ← hfirst', h])
  obtain rfl : last = last' := Option.some.inj (by rw [← hlast, ← hlast', h])
  rw [hspan, hspan']

/-- An operator adds the same edges in the end. -/
theorem BuiltAlike.node (op : Operator) (h : os.BuiltAlike os') : (op.node os).BuiltAlike (op.node os') := by
  cases op with
  | cat =>
      refine ⟨h.stateCount, fun p => spanAt_congr (h.fragmentsAt p), ?_⟩
      intro p x
      show Automata.outgoing (os.edgesAt p ++ joins (os.fragmentsAt p)) x
        = Automata.outgoing (os'.edgesAt p ++ joins (os'.fragmentsAt p)) x
      rw [outgoing_append, outgoing_append, h.outgoing, h.fragmentsAt]
  | alt =>
      refine ⟨congrArg (· + 2) h.stateCount, fun p => rfl, ?_⟩
      intro p x
      show Automata.outgoing (os.edgesAt (p + 2) ++ forks ⟨p, p + 1⟩ (os.fragmentsAt (p + 2))) x
        = Automata.outgoing (os'.edgesAt (p + 2) ++ forks ⟨p, p + 1⟩ (os'.fragmentsAt (p + 2))) x
      rw [outgoing_append, outgoing_append, h.outgoing, h.fragmentsAt]

end Operands

namespace Regex

theorem BuiltAlike.operand (op : Operator) (before after : List Regex) (h : r.BuiltAlike s)
    (hos : os.toList = before ++ r :: after) (hos' : os'.toList = before ++ s :: after) :
    (op.node os).BuiltAlike (op.node os') :=
  (Operands.builtAlike_of_operand h hos hos').node op

theorem BuiltAlike.star (h : r.BuiltAlike s) : (Regex.star r).BuiltAlike (.star s) where
  stateCount := congrArg (· + 1) h.stateCount
  fragmentAt p := by rw [Regex.fragmentAt, Regex.fragmentAt, h.stateCount]
  outgoing p x := by
    simp only [Regex.edgesAt, outgoing_append, h.outgoing, h.fragmentAt, h.stateCount]

/-- What is built alike in its place is built alike in the whole. -/
theorem Rewrites.builtAlike {R : Regex → Regex → Prop} (hR : ∀ r s, R r s → r.BuiltAlike s) (h : Rewrites R r s) :
    r.BuiltAlike s := by
  induction h with
  | here h => exact hR _ _ h
  | operand op before after hos hos' _ ih => exact ih.operand op before after hos hos'
  | star _ ih => exact ih.star

/-! ## Operands in a row -/

theorem builtAlike_cons (a : Regex) (rest : Operands) :
    (Regex.cat (.cons a rest)).BuiltAlike (.cat (.pair a (.cat rest))) where
  stateCount := rfl
  fragmentAt p := rfl
  outgoing := by
    intro p x
    let q := p + a.stateCount
    -- The edge behind the first operand leaves one of its states, the others leave states of the rest.
    have hcomm := outgoing_comm [⟨(a.fragmentAt p).exit, none, (rest.spanAt q).start⟩]
      (joins (rest.fragmentsAt q)) (Names p q) ?_ ?_ x
    · show outgoing (a.edgesAt p ++ rest.edgesAt q ++ joins (a.fragmentAt p :: rest.fragmentsAt q)) x
        = outgoing (a.edgesAt p ++ (rest.edgesAt q ++ joins (rest.fragmentsAt q))
            ++ [⟨(a.fragmentAt p).exit, none, (rest.spanAt q).start⟩]) x
      rw [joins_cons_fragmentsAt, ← List.singleton_append]
      simp only [outgoing_append, List.append_assoc, hcomm]
    · intro e he
      rw [List.mem_singleton.1 he]
      exact (a.fragmentAt_within p).2
    · intro e he hin
      exact names_disjoint hin (inside_joins (rest.fragmentsAt_within q) e he).1

/-- Of three operands the first two can be put together as well as the last two. -/
theorem builtAlike_assoc (a b c : Regex) :
    (Regex.cat (.pair (.cat (.pair a b)) c)).BuiltAlike (.cat (.pair a (.cat (.pair b c)))) where
  stateCount := Nat.add_assoc _ _ _
  fragmentAt p := by
    simp only [Regex.fragmentAt, Operands.spanAt, Regex.stateCount, Operands.stateCount, Nat.add_assoc]
  outgoing := by
    intro p x
    let q := p + a.stateCount
    let q' := q + b.stateCount
    have hq' : p + (Regex.cat (.pair a b)).stateCount = q' := (Nat.add_assoc _ _ _).symm
    let ab : Edge := ⟨(a.fragmentAt p).exit, none, (b.fragmentAt q).start⟩
    let bc : Edge := ⟨(b.fragmentAt q).exit, none, (c.fragmentAt q').start⟩
    -- The edge from `a` to `b` is added before those of `c` on one side and after them on the other.
    have hcomm := outgoing_comm [ab] (c.edgesAt q' ++ [bc]) (Names p q) ?_ ?_ x
    · show outgoing (a.edgesAt p ++ b.edgesAt q ++ [ab] ++ c.edgesAt (p + (Regex.cat (.pair a b)).stateCount)
          ++ joins [(Regex.cat (.pair a b)).fragmentAt p, c.fragmentAt (p + (Regex.cat (.pair a b)).stateCount)]) x
        = outgoing (a.edgesAt p ++ (b.edgesAt q ++ c.edgesAt q' ++ [bc]) ++ [ab]) x
      rw [hq']
      show outgoing (a.edgesAt p ++ b.edgesAt q ++ [ab] ++ c.edgesAt q' ++ [bc]) x = _
      rw [outgoing_append] at hcomm
      simp only [outgoing_append, List.append_assoc] at hcomm ⊢
      rw [hcomm]
    · intro e he
      rw [List.mem_singleton.1 he]
      exact (a.fragmentAt_within p).2
    · intro e he hin
      rcases List.mem_append.1 he with he | he
      · have hc := (c.inside_edgesAt q' e he).1
        exact names_disjoint hin (hc.mono (Nat.le_add_right q b.stateCount) (Nat.le_refl _))
      · rw [List.mem_singleton.1 he] at hin
        exact names_disjoint hin (b.fragmentAt_within q).2

theorem builtAlike_join_cons (a : Regex) {rs : List Regex} (h : rs ≠ []) :
    (Operator.cat.join (a :: rs)).BuiltAlike (.cat (.pair a (Operator.cat.join rs))) := by
  match rs, h with
  | [b], _ => exact .refl _
  | b :: c :: rest, _ => exact builtAlike_cons a (.of b c rest)

theorem builtAlike_join_append {rs ss : List Regex} (hrs : rs ≠ []) (hss : ss ≠ []) :
    (Operator.cat.join (rs ++ ss)).BuiltAlike (.cat (.pair (Operator.cat.join rs) (Operator.cat.join ss))) := by
  induction rs with
  | nil => exact absurd rfl hrs
  | cons a rs ih =>
      by_cases hnil : rs = []
      · subst hnil
        exact builtAlike_join_cons a hss
      · have hrest : (Regex.cat (.pair a (Operator.cat.join (rs ++ ss)))).BuiltAlike
            (.cat (.pair a (.cat (.pair (Operator.cat.join rs) (Operator.cat.join ss))))) :=
          (ih hnil).operand .cat [a] [] rfl rfl
        have hfirst : (Regex.cat (.pair (.cat (.pair a (Operator.cat.join rs))) (Operator.cat.join ss))).BuiltAlike
            (.cat (.pair (Operator.cat.join (a :: rs)) (Operator.cat.join ss))) :=
          (builtAlike_join_cons a hnil).symm.operand .cat [] [Operator.cat.join ss] rfl rfl
        have hne : rs ++ ss ≠ [] := List.append_ne_nil_of_left_ne_nil hnil ss
        exact (builtAlike_join_cons a hne).trans (hrest.trans ((builtAlike_assoc _ _ _).symm.trans hfirst))

theorem builtAlike_splice (inner : Operands) (before after : List Regex) :
    (Operator.cat.join (before ++ .cat inner :: after)).BuiltAlike
      (Operator.cat.join (before ++ inner.toList ++ after)) := by
  have hinner : Operator.cat.join inner.toList = .cat inner := Operator.join_toList .cat inner
  have hne : inner.toList ≠ [] := by
    rw [← List.length_pos_iff, Operands.length_toList]
    exact Nat.lt_of_lt_of_le Nat.zero_lt_two inner.two_le_length
  induction before with
  | nil =>
      by_cases hafter : after = []
      · subst hafter
        rw [List.nil_append, List.nil_append, List.append_nil, hinner, Operator.join_singleton]
        exact .refl _
      · have happend := builtAlike_join_append hne hafter
        rw [hinner] at happend
        exact (builtAlike_join_cons (.cat inner) hafter).trans happend.symm
  | cons a before ih =>
      have hleft : before ++ .cat inner :: after ≠ [] := by simp
      have hright : before ++ inner.toList ++ after ≠ [] := by simp [hne]
      have hrest : (Regex.cat (.pair a (Operator.cat.join (before ++ .cat inner :: after)))).BuiltAlike
          (.cat (.pair a (Operator.cat.join (before ++ inner.toList ++ after)))) :=
        ih.operand .cat [a] [] rfl rfl
      exact (builtAlike_join_cons a hleft).trans (hrest.trans (builtAlike_join_cons a hright).symm)

/-! ## Splicing -/

/-- A concatenation with the operands of one of its operands, itself a concatenation, in the place of that one. -/
inductive Spliced : Regex → Regex → Prop where
  | splice (before after : List Regex) {os inner os' : Operands} :
      os.toList = before ++ .cat inner :: after → os'.toList = before ++ inner.toList ++ after →
      Spliced (.cat os) (.cat os')

theorem Spliced.builtAlike (h : Spliced r s) : r.BuiltAlike s := by
  cases h with
  | @splice before after os inner os' hos hos' =>
      have hjoin := builtAlike_splice inner before after
      rw [← hos, ← hos', Operator.join_toList, Operator.join_toList] at hjoin
      exact hjoin

/-- Splicing a concatenation into another one, anywhere in an expression, makes no difference to what is built.  From
every supply the two expressions give the same automaton, with the same states and the same transitions in the same
order, and leave the same supply, or both exhaust it. -/
theorem toNfa_spliced (r s : Regex) (h : Rewrites Spliced r s) (supply : StateSupply) :
    (∃ nfa rest, r.toNfa supply = (.ok nfa, rest) ∧ s.toNfa supply = (.ok nfa, rest)) ∨
      ∃ e rest, r.toNfa supply = (.error (.exhausted e), rest) ∧ s.toNfa supply = (.error (.exhausted e), rest) :=
  (h.builtAlike fun _ _ => Spliced.builtAlike).toNfa_eq supply

/-- Between two repetitions, inside an alternation and a repetition, with names in plenty and with one name too few. -/
theorem toNfa_spliced_repetitions :
    let a : Regex := .star (.lit "a")
    let b : Regex := .star .epsilon
    let r : Regex := .star (.alt (.pair (.lit "") (.cat (.cons a (.pair (.cat (.pair (.lit "b") a)) b)))))
    let s : Regex := .star (.alt (.pair (.lit "") (.cat (.cons a (.cons (.lit "b") (.pair a b))))))
    let plenty : StateSupply := ⟨7, by decide⟩
    let few : StateSupply := ⟨lastState - 15, by decide⟩
    Rewrites Spliced r s ∧
      (∃ nfa rest, r.toNfa plenty = (.ok nfa, rest) ∧ s.toNfa plenty = (.ok nfa, rest)) ∧
      ∃ e rest, r.toNfa few = (.error (.exhausted e), rest) ∧ s.toNfa few = (.error (.exhausted e), rest) := by
  intro a b r s plenty few
  have hcat : Spliced (.cat (.cons a (.pair (.cat (.pair (.lit "b") a)) b)))
      (.cat (.cons a (.cons (.lit "b") (.pair a b)))) := .splice [a] [b] rfl rfl
  have h : Rewrites Spliced r s := .star (.operand .alt [.lit ""] [] rfl rfl (.here hcat))
  refine ⟨h, ?_, ?_⟩
  · refine (toNfa_spliced r s h plenty).resolve_right ?_
    rintro ⟨e, rest, hr, -⟩
    rw [toNfa_of_fits (by decide)] at hr
    cases hr
  · refine (toNfa_spliced r s h few).resolve_left ?_
    rintro ⟨nfa, rest, hr, -⟩
    rw [toNfa_of_short (by decide)] at hr
    cases hr

end Regex

end Automata
