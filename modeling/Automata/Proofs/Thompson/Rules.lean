/-
# The rules of the construction

Thompson's rules as they are said on paper, by recursion on the tree.  They thread a supply and a relation, and there
are no tasks, no stack of fragments and no checks: a state taken is taken to be new, and an edge is put where it is
said to go.  The one thing that can go wrong is that there is no name left.

The construction that works off tasks comes to the same for every expression and every supply
(`Regex.toNfa_eq_byRules`): the same start and exit, the same states with the same transitions in the same order and
the same supply afterwards; or, where the names do not suffice, the same exhaustion at the same place.  In particular
its checks never refuse anything.

Both are compared with the blueprint.  Seen as a step of the construction (`Rule.toConstruction`) a rule draws just
what the construction draws, so what is known about sequences of drawings serves for the rules as well.
-/
import Automata.Proofs.Thompson.Drawing

namespace Automata

namespace Thompson

/-- A step of the rules, on the names not yet taken and the relation so far. -/
abbrev Rule := EStateM NameSupply.Exhausted Draft

namespace Rule

/-- A fresh state, which has no transitions. -/
def freshState : Rule StateName := do
  let draft ← get
  match draft.supply.fresh with
  | .error e => throw e
  | .ok (s, supply) =>
      set { supply, relation := draft.relation.insert s [] : Draft }
      return s

/-- One more transition out of `source`, behind those it has. -/
def addEdge (source : StateName) (label : Option String) (target : StateName) : Rule Unit :=
  modify fun draft => { draft with relation := draft.relation.modify source (· ++ [⟨label, target⟩]) }

/-- Fresh start, then fresh exit, and one edge between them. -/
def leaf (label : Option String) : Rule Fragment := do
  let start ← freshState
  let exit ← freshState
  addEdge start label exit
  return ⟨start, exit⟩

/-- For each neighbouring pair in order, an epsilon edge from the exit of the one to the start of the other. -/
def joinNeighbours (parts : List Fragment) : Rule Unit :=
  (parts.zip parts.tail).forM fun (a, b) => addEdge a.exit none b.start

/-- For each part in order, an epsilon edge from `start` to it and one from it to `exit`. -/
def joinBetween (start exit : StateName) (parts : List Fragment) : Rule Unit :=
  parts.forM fun part => do
    addEdge start none part.start
    addEdge part.exit none exit

end Rule

end Thompson

open Thompson Rule

mutual

/-- The fragment that the rules give to an expression. -/
def Regex.byRules : Regex → Rule Fragment
  | .lit s => leaf (some s)
  | .epsilon => leaf none
  | .cat os => do
      let (first, others) ← os.byRules
      joinNeighbours (first :: others)
      return ⟨first.start, (others.getLast?.getD first).exit⟩
  | .alt os => do
      let start ← freshState
      let exit ← freshState
      let (first, others) ← os.byRules
      joinBetween start exit (first :: others)
      return ⟨start, exit⟩
  | .star r => do
      let part ← r.byRules
      let s ← freshState
      addEdge s none part.start
      addEdge part.exit none s
      return ⟨s, s⟩

/-- The fragments of the operands, built from left to right: the first and the others. -/
def Operands.byRules : Operands → Rule (Fragment × List Fragment)
  | .pair a b => do
      let first ← a.byRules
      let second ← b.byRules
      return (first, [second])
  | .cons a rest => do
      let first ← a.byRules
      let (second, others) ← rest.byRules
      return (first, second :: others)

end

/-! ## Rules draw -/

namespace Thompson

variable {α β : Type} {origin p q : Nat} {E E' : List Edge} {a : α} {m m' : Construction α}

/-- A rule as a step of the construction. -/
def Rule.toConstruction (k : Rule α) : Construction α := k.adaptExcept .exhausted

theorem Rule.toConstruction_bind (k : Rule α) (f : α → Rule β) :
    (k >>= f).toConstruction = k.toConstruction >>= fun a => (f a).toConstruction := by
  funext draft
  simp only [toConstruction, EStateM.adaptExcept, bind, EStateM.bind]
  cases k draft <;> rfl

theorem Draws.congr (h : Draws m origin p E q E' a)
    (heq : ∀ d : Draft, d.Shows origin p E → m'.run d = m.run d) : Draws m' origin p E q E' a where
  le := h.le
  fits d hd hq := heq d hd ▸ h.fits d hd hq
  short d hd hq := heq d hd ▸ h.short d hd hq

theorem draws_freshState : Draws freshState.toConstruction origin p E (p + 1) E p := by
  refine draws_newState.congr ?_
  intro d hd
  have hnew : d.supply.next ∉ d.relation := fun h =>
    Nat.lt_irrefl _ (hd.next_eq ▸ (hd.mem_relation.1 h).2)
  simp only [newState, freshState, toConstruction, EStateM.run_adaptExcept, EStateM.run_bind, EStateM.run_get]
  cases hfresh : d.supply.fresh with
  | error e => rfl
  | ok r =>
      obtain ⟨s, supply⟩ := r
      obtain ⟨rfl, -⟩ := NameSupply.fresh_eq_ok_iff.1 hfresh
      simp only [EStateM.run_bind, EStateM.run_set, hnew, if_false]
      rfl

theorem draws_addEdge {x y : Nat} {l : Option String} (hx : Names origin p x) (hy : Names origin p y) :
    Draws (addEdge x l y).toConstruction origin p E p (E ++ [⟨x, l, y⟩]) () := by
  refine (draws_connect hx hy).congr ?_
  intro d hd
  have hyd : y ∈ d.relation := hd.mem_relation.2 hy
  have hxd : d.relation[x]? = some (outgoing E x) := (hd.relation x).trans (if_pos hx)
  have hmodify : d.relation.modify x (· ++ [⟨l, y⟩]) = d.relation.insert x (outgoing E x ++ [⟨l, y⟩]) := by
    refine Std.ExtTreeMap.ext_getElem? fun s => ?_
    rw [Std.ExtTreeMap.getElem?_modify, Std.ExtTreeMap.getElem?_insert, hxd]
    rfl
  simp [connect, addEdge, toConstruction, hyd, hxd, hmodify]

theorem draws_pure_rule (a : α) : Draws (pure a : Rule α).toConstruction origin p E p E a :=
  draws_pure a

theorem Draws.bind_rule {k : Rule α} {f : α → Rule β} {r : Nat} {E'' : List Edge} {b : β}
    (hk : Draws k.toConstruction origin p E q E' a)
    (hf : Draws (f a).toConstruction origin q E' r E'' b) :
    Draws (k >>= f).toConstruction origin p E r E'' b := by
  rw [toConstruction_bind]
  exact hk.bind hf

theorem Draws.return_rule {k : Rule α} (hk : Draws k.toConstruction origin p E q E' a) (b : β) :
    Draws (k >>= fun _ => pure b).toConstruction origin p E q E' b :=
  hk.bind_rule (draws_pure_rule b)

theorem draws_leaf (h : origin ≤ p) (l : Option String) :
    Draws (leaf l).toConstruction origin p E (p + 2) (E ++ [⟨p, l, p + 1⟩]) ⟨p, p + 1⟩ := by
  have hstart : Names origin (p + 2) p := ⟨h, by omega⟩
  have hexit : Names origin (p + 2) (p + 1) := ⟨by omega, by omega⟩
  exact draws_freshState.bind_rule (draws_freshState.bind_rule
    ((draws_addEdge hstart hexit).return_rule _))

theorem draws_joinNeighbours : ∀ {parts : List Fragment} {E : List Edge},
    (∀ part ∈ parts, part.Within origin p) →
      Draws (joinNeighbours parts).toConstruction origin p E p (E ++ joins parts) ()
  | [], E, _ => (draws_pure_rule ()).cast rfl (List.append_nil E).symm
  | [_], E, _ => (draws_pure_rule ()).cast rfl (List.append_nil E).symm
  | a :: b :: rest, _, h => by
      have ha := h a List.mem_cons_self
      have hb := h b (List.mem_cons_of_mem _ List.mem_cons_self)
      have hrest := fun part hp => h part (List.mem_cons_of_mem _ hp)
      exact ((draws_addEdge ha.2 hb.1).bind_rule (draws_joinNeighbours hrest)).cast rfl (by simp [joins])

theorem draws_joinBetween {start exit : StateName} (hstart : Names origin p start) (hexit : Names origin p exit)
    {parts : List Fragment} (h : ∀ part ∈ parts, part.Within origin p) :
    Draws (joinBetween start exit parts).toConstruction origin p E p (E ++ forks ⟨start, exit⟩ parts) () := by
  induction parts generalizing E with
  | nil => exact (draws_pure_rule ()).cast rfl (List.append_nil E).symm
  | cons part rest ih =>
      have hpart := h part List.mem_cons_self
      have hrest := fun part hp => h part (List.mem_cons_of_mem _ hp)
      have hin := draws_addEdge (E := E) (l := none) hstart hpart.1
      have hboth := hin.bind_rule (f := fun _ => addEdge part.exit none exit) (draws_addEdge hpart.2 hexit)
      exact (hboth.bind_rule (ih hrest)).cast rfl (by simp [forks])

mutual

/-- The rules draw the blueprint of an expression. -/
theorem draws_byRules : ∀ (r : Regex) {p : Nat} {E : List Edge}, origin ≤ p →
    Draws r.byRules.toConstruction origin p E (p + r.stateCount) (E ++ r.edgesAt p) (r.fragmentAt p)
  | .lit s, _, _, h => draws_leaf h (some s)
  | .epsilon, _, _, h => draws_leaf h none
  | .cat os, p, E, h => by
      obtain ⟨first, others, hparts, hos⟩ := draws_byRulesAll os (E := E) h
      obtain ⟨_, _, hfirst, hlast, hspan⟩ := os.ends_fragmentsAt p
      have hwithin := fun part hp => (os.fragmentsAt_within p part hp).mono h (Nat.le_refl _)
      rw [hparts] at hfirst hlast hwithin
      rw [List.getLast?_cons] at hlast
      obtain rfl := Option.some.inj hfirst
      obtain rfl := Option.some.inj hlast
      rw [Regex.fragmentAt, hspan, Regex.edgesAt, hparts]
      exact (hos.bind_rule ((draws_joinNeighbours hwithin).return_rule _)).cast rfl
        (List.append_assoc _ _ _)
  | .alt os, p, E, h => by
      obtain ⟨first, others, hparts, hos⟩ := draws_byRulesAll os (p := p + 2) (E := E) (Nat.le_add_right_of_le h)
      have hstart : Names origin (p + 2 + os.stateCount) p := ⟨h, by omega⟩
      have hexit : Names origin (p + 2 + os.stateCount) (p + 1) := ⟨by omega, by omega⟩
      have hwithin := fun part hp =>
        (os.fragmentsAt_within (p + 2) part hp).mono (Nat.le_add_right_of_le h) (Nat.le_refl _)
      rw [hparts] at hwithin
      rw [Regex.edgesAt, hparts]
      exact (draws_freshState.bind_rule (draws_freshState.bind_rule (hos.bind_rule
        ((draws_joinBetween hstart hexit hwithin).return_rule _)))).cast
        (by simp only [Regex.stateCount]; omega) (List.append_assoc _ _ _)
  | .star r, p, E, h => by
      have hr := ((r.fragmentAt_within p).mono h (Nat.le_refl _)).mono (Nat.le_refl _) (Nat.le_succ _)
      have hs : Names origin (p + r.stateCount + 1) (p + r.stateCount) := ⟨by omega, by omega⟩
      refine ((draws_byRules r h).bind_rule (draws_freshState.bind_rule ((draws_addEdge hs hr.1).bind_rule
        ((draws_addEdge hr.2 hs).return_rule _)))).cast rfl ?_
      simp only [Regex.edgesAt, List.append_assoc, List.cons_append, List.nil_append]

theorem draws_byRulesAll : ∀ (os : Operands) {p : Nat} {E : List Edge}, origin ≤ p →
    ∃ first others, os.fragmentsAt p = first :: others ∧
      Draws os.byRules.toConstruction origin p E (p + os.stateCount) (E ++ os.edgesAt p) (first, others)
  | .pair a b, p, E, h => by
      have ha := draws_byRules a (E := E) h
      have hb := draws_byRules b (p := p + a.stateCount) (E := E ++ a.edgesAt p) (Nat.le_add_right_of_le h)
      refine ⟨_, _, rfl, ?_⟩
      exact (ha.bind_rule (hb.bind_rule (draws_pure_rule (_, [_])))).cast (Nat.add_assoc _ _ _)
        (List.append_assoc _ _ _)
  | .cons a rest, p, E, h => by
      have ha := draws_byRules a (E := E) h
      obtain ⟨second, others, hparts, hrest⟩ := draws_byRulesAll rest (p := p + a.stateCount)
        (E := E ++ a.edgesAt p) (Nat.le_add_right_of_le h)
      refine ⟨a.fragmentAt p, second :: others, by rw [Operands.fragmentsAt, hparts], ?_⟩
      exact (ha.bind_rule (hrest.bind_rule (draws_pure_rule (_, _ :: _)))).cast (Nat.add_assoc _ _ _)
        (List.append_assoc _ _ _)

end

/-! ## Tasks and rules -/

theorem Rule.run_eq_ok {k : Rule α} {d d' : Draft} (h : k.toConstruction.run d = .ok a d') :
    k.run d = .ok a d' := by
  rw [toConstruction, EStateM.run_adaptExcept] at h
  cases hk : k.run d with
  | ok b d'' =>
      rw [hk] at h
      cases h
      rfl
  | error e d'' =>
      rw [hk] at h
      cases h

theorem Rule.run_eq_error {k : Rule α} {d d' : Draft} {e : NameSupply.Exhausted}
    (h : k.toConstruction.run d = .error (.exhausted e) d') : k.run d = .error e d' := by
  rw [toConstruction, EStateM.run_adaptExcept] at h
  cases hk : k.run d with
  | ok b d'' =>
      rw [hk] at h
      cases h
  | error e' d'' =>
      rw [hk] at h
      cases h
      rfl

end Thompson

namespace Regex

/-- Working off tasks gives what the rules give, or fails as they do, and leaves the same supply behind. -/
theorem toNfa_eq_byRules (r : Regex) (supply : StateSupply) :
    r.toNfa supply = match r.byRules.run ⟨supply, ∅⟩ with
      | .ok part draft => (.ok ⟨part.start, part.exit, draft.relation⟩, draft.supply)
      | .error e draft => (.error (.exhausted e), draft.supply) := by
  have hdraws := draws_byRules r (E := []) (Nat.le_refl supply.next)
  by_cases h : supply.next + r.stateCount ≤ lastState
  · obtain ⟨d, hrun, hd⟩ := hdraws.fits _ (shows_empty supply) h
    rw [List.nil_append] at hd
    have hsupply : d.supply = ⟨supply.next + r.stateCount, h⟩ := NameSupply.eq_of_next_eq hd.next_eq
    rw [toNfa_of_fits h, Rule.run_eq_ok hrun]
    simp only [hd.relation_eq, hsupply]
    rfl
  · obtain ⟨d, hrun, hnext⟩ := hdraws.short _ (shows_empty supply) (Nat.lt_of_not_le h)
    have hsupply : d.supply = ⟨lastState, Nat.le_refl _⟩ := NameSupply.eq_of_next_eq hnext
    rw [toNfa_of_short (Nat.lt_of_not_le h), Rule.run_eq_error hrun]
    simp only [hsupply]

end Regex

end Automata
