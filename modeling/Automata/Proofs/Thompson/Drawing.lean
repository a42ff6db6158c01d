/-
# The construction draws the blueprint

A draft *shows* the edges `E` on the names from `origin` up to `next` when these names are its states, the edges
give each state its transitions, and `next` is the name handed out next.  A computation *draws* when it turns a
draft that shows some edges into one that shows known edges on known names, with a known result.  If there are not
that many names left it ends with the exhaustion of the supply, which then stands at its last name; it never ends
otherwise.

Both ways to end are carried through a sequence of computations by one lemma (`Draws.bind`), and assembling an
expression draws its blueprint (`draws_assemble`).  Hence the whole construction gives the automaton of the
blueprint or exhausts the supply, as the number of names left decides.
-/
import Automata.Proofs.Thompson.Blueprint
import Automata.Proofs.Thompson.Recursive
import Automata.Thompson

namespace Automata.Thompson

/-- The states of the draft are the names from `origin` up to `next`, with the transitions the edges give. -/
structure Draft.Shows (d : Draft) (origin next : Nat) (E : List Edge) : Prop where
  next_eq : d.supply.next = next
  origin_le : origin ≤ next
  inside : Inside (Names origin next) E
  relation : ∀ s : Nat, d.relation[s]?
    = if origin ≤ s ∧ s < next then some (outgoing E s) else none

/-- From a draft that shows the edges `E` on the names up to `p`, the computation gives `a` and a draft that shows
the edges `E'` on the names up to `q`, unless the supply runs out. -/
structure Draws {α : Type} (m : Construction α) (origin p : Nat) (E : List Edge) (q : Nat)
    (E' : List Edge) (a : α) : Prop where
  le : p ≤ q
  fits : ∀ d : Draft, d.Shows origin p E → q ≤ lastState →
    ∃ d', m.run d = .ok a d' ∧ d'.Shows origin q E'
  short : ∀ d : Draft, d.Shows origin p E → lastState < q →
    ∃ d', m.run d = .error (.exhausted ⟨lastState⟩) d' ∧ d'.supply.next = lastState

variable {α β : Type} {origin p q q' : Nat} {E E' E'' : List Edge} {a : α} {b : β}
  {m : Construction α} {k : α → Construction β}

theorem Draft.Shows.mem_relation {d : Draft} (h : d.Shows origin p E) {s : Nat} :
    s ∈ d.relation ↔ Names origin p s := by
  rw [Std.ExtTreeMap.mem_iff_isSome_getElem?, h.relation]
  unfold Names
  split <;> simp_all

theorem Draft.Shows.relation_eq {d : Draft} {r : Regex}
    (h : d.Shows p (p + r.stateCount) (r.edgesAt p)) : d.relation = (r.nfaAt p).relation := by
  refine Std.ExtTreeMap.ext_getElem? fun s => ?_
  rw [h.relation]
  exact (Regex.transitions?_nfaAt s).symm

theorem Draft.Shows.not_short {d : Draft} (h : d.Shows origin p E) : ¬ lastState < p := by
  have := d.supply.next_le
  rw [h.next_eq] at this
  omega

/-! ## Sequences -/

theorem draws_pure (a : α) : Draws (pure a) origin p E p E a where
  le := Nat.le_refl p
  fits d hd _ := ⟨d, rfl, hd⟩
  short _ hd h := absurd h hd.not_short

theorem Draws.bind (hm : Draws m origin p E q E' a) (hk : Draws (k a) origin q E' q' E'' b) :
    Draws (m >>= k) origin p E q' E'' b where
  le := Nat.le_trans hm.le hk.le
  fits := by
    intro d hd h
    obtain ⟨d₁, hrun, hd₁⟩ := hm.fits d hd (Nat.le_trans hk.le h)
    obtain ⟨d₂, hrun₂, hd₂⟩ := hk.fits d₁ hd₁ h
    exact ⟨d₂, (run_bind_of_ok hrun).trans hrun₂, hd₂⟩
  short := by
    intro d hd h
    by_cases hfits : q ≤ lastState
    · obtain ⟨d₁, hrun, hd₁⟩ := hm.fits d hd hfits
      obtain ⟨d₂, hrun₂, hd₂⟩ := hk.short d₁ hd₁ h
      exact ⟨d₂, (run_bind_of_ok hrun).trans hrun₂, hd₂⟩
    · obtain ⟨d₁, hrun, hd₁⟩ := hm.short d hd (by omega)
      exact ⟨d₁, run_bind_of_error hrun, hd₁⟩

theorem Draws.cast (h : Draws m origin p E q E' a) (hq : q = q') (hE : E' = E'') :
    Draws m origin p E q' E'' a := by
  subst hq hE
  exact h

/-! ## States and edges -/

theorem draws_newState : Draws newState origin p E (p + 1) E p where
  le := Nat.le_succ p
  fits := by
    intro d hd h
    have hnext := hd.next_eq
    have hfresh : d.supply.fresh = .ok (p, ⟨p + 1, h⟩) :=
      NameSupply.fresh_eq_ok_iff.2 ⟨hnext.symm, by simp [hnext]⟩
    have hnew : p ∉ d.relation := fun hp => Nat.lt_irrefl p (hd.mem_relation.1 hp).2
    refine ⟨⟨⟨p + 1, h⟩, d.relation.insert p []⟩, newState_eq_ok hfresh hnew, rfl, ?_, ?_, ?_⟩
    · exact Nat.le_succ_of_le hd.origin_le
    · exact inside_names_mono hd.inside (Nat.le_refl _) (Nat.le_succ p)
    · intro s
      -- No edge starts at the new state, since all edges lie on the names before it.
      have hout : outgoing E p = [] :=
        outgoing_eq_nil fun e he hep => Nat.lt_irrefl p (hep ▸ (hd.inside e he).1.2)
      have hle := hd.origin_le
      rw [Std.ExtTreeMap.getElem?_insert, hd.relation]
      by_cases hs : p = s
      · subst hs
        simp [hout, hle]
      · have : s < p + 1 ↔ s < p := by omega
        simp [hs, this]
  short := by
    intro d hd h
    have hle := d.supply.next_le
    have hnext := hd.next_eq
    have hfresh : d.supply.fresh = .error ⟨lastState⟩ :=
      NameSupply.fresh_eq_error_iff.2 ⟨by omega, rfl⟩
    exact ⟨d, newState_eq_error hfresh, by omega⟩

theorem draws_connect {x y : Nat} {l : Option String} (hx : Names origin p x)
    (hy : Names origin p y) : Draws (connect x l y) origin p E p (E ++ [⟨x, l, y⟩]) () where
  le := Nat.le_refl p
  fits := by
    intro d hd _
    have hyd : y ∈ d.relation := hd.mem_relation.2 hy
    have hxd : d.relation[x]? = some (outgoing E x) := by
      rw [hd.relation]
      exact if_pos hx
    refine ⟨_, connect_eq_ok hxd hyd, hd.next_eq, hd.origin_le, hd.inside.append ?_, ?_⟩
    · intro e he
      obtain rfl := List.mem_singleton.1 he
      exact ⟨hx, hy⟩
    · intro s
      rw [Std.ExtTreeMap.getElem?_insert, hd.relation, outgoing_append]
      by_cases hs : x = s
      · subst hs
        simp [outgoing, hx.1, hx.2]
      · simp [outgoing, hs]
  short _ hd h := absurd h hd.not_short

/-! ## Fragments -/

theorem draws_single (h : origin ≤ p) (l : Option String) :
    Draws (single l) origin p E (p + 2) (E ++ [⟨p, l, p + 1⟩]) ⟨p, p + 1⟩ := by
  have hstart : Names origin (p + 2) p := ⟨h, by omega⟩
  have hexit : Names origin (p + 2) (p + 1) := ⟨by omega, by omega⟩
  exact draws_newState.bind (draws_newState.bind ((draws_connect hstart hexit).bind (draws_pure _)))

theorem draws_chain : ∀ {parts : List Fragment} {E : List Edge},
    (∀ part ∈ parts, part.Within origin p) →
      Draws (chain parts) origin p E p (E ++ joins parts) ()
  | [], E, _ => (draws_pure ()).cast rfl (List.append_nil E).symm
  | [_], E, _ => (draws_pure ()).cast rfl (List.append_nil E).symm
  | a :: b :: rest, _, h => by
      have ha := h a List.mem_cons_self
      have hb := h b (List.mem_cons_of_mem _ List.mem_cons_self)
      have hrest := fun part hp => h part (List.mem_cons_of_mem _ hp)
      exact ((draws_connect ha.2 hb.1).bind (draws_chain hrest)).cast rfl (by simp [joins])

theorem draws_concatenate {parts : List Fragment} {first last : Fragment}
    (hfirst : parts.head? = some first) (hlast : parts.getLast? = some last)
    (h : ∀ part ∈ parts, part.Within origin p) :
    Draws (concatenate parts) origin p E p (E ++ joins parts) ⟨first.start, last.exit⟩ := by
  simp only [concatenate, hfirst, hlast]
  exact (draws_chain h).bind (draws_pure _)

theorem draws_alternate {ends : Fragment} (hends : ends.Within origin p) {parts : List Fragment}
    (h : ∀ part ∈ parts, part.Within origin p) :
    Draws (alternate ends parts) origin p E p (E ++ forks ends parts) ends := by
  induction parts generalizing E with
  | nil => exact (draws_pure ends).cast rfl (List.append_nil E).symm
  | cons part rest ih =>
      have hpart := h part List.mem_cons_self
      have hrest := fun part hp => h part (List.mem_cons_of_mem _ hp)
      exact ((draws_connect hends.1 hpart.1).bind
        ((draws_connect hpart.2 hends.2).bind (ih hrest))).cast rfl (by simp [forks])

theorem draws_loop {part : Fragment} (hle : origin ≤ p) (h : part.Within origin p) :
    Draws (loop part) origin p E (p + 1)
      (E ++ [⟨p, none, part.start⟩, ⟨part.exit, none, p⟩]) ⟨p, p⟩ := by
  have hp : Names origin (p + 1) p := ⟨hle, Nat.lt_succ_self p⟩
  have hpart := h.mono (Nat.le_refl origin) (Nat.le_succ p)
  refine Draws.cast (draws_newState.bind ((draws_connect hp hpart.1).bind
    ((draws_connect hpart.2 hp).bind (draws_pure _)))) rfl ?_
  rw [List.append_assoc]
  rfl

/-! ## Expressions -/

mutual

/-- Assembling an expression draws its blueprint. -/
theorem draws_assemble : ∀ (r : Regex) {p : Nat} {E : List Edge}, origin ≤ p →
    Draws r.assemble origin p E (p + r.stateCount) (E ++ r.edgesAt p) (r.fragmentAt p)
  | .lit s, _, _, h => draws_single h (some s)
  | .epsilon, _, _, h => draws_single h none
  | .cat os, p, E, h => by
      obtain ⟨first, last, hfirst, hlast, hspan⟩ := os.ends_fragmentsAt p
      have hparts := fun part hp => (os.fragmentsAt_within p part hp).mono h (Nat.le_refl _)
      rw [Regex.fragmentAt, hspan]
      exact ((draws_assembleAll os h).bind (draws_concatenate hfirst hlast hparts)).cast rfl
        (List.append_assoc _ _ _)
  | .alt os, p, E, h => by
      have hends : (⟨p, p + 1⟩ : Fragment).Within origin (p + 2 + os.stateCount) := by
        simp only [Fragment.Within, Names]
        omega
      have hparts := fun part hp =>
        (os.fragmentsAt_within (p + 2) part hp).mono (Nat.le_add_right_of_le h) (Nat.le_refl _)
      have hos := draws_assembleAll os (p := p + 2) (E := E) (Nat.le_add_right_of_le h)
      exact (draws_newState.bind (draws_newState.bind (hos.bind (draws_alternate hends hparts)))).cast
        (by simp only [Regex.stateCount]; omega) (List.append_assoc _ _ _)
  | .star r, p, E, h => by
      have hr := (r.fragmentAt_within p).mono h (Nat.le_refl _)
      exact ((draws_assemble r h).bind (draws_loop (Nat.le_add_right_of_le h) hr)).cast rfl
        (List.append_assoc _ _ _)

theorem draws_assembleAll : ∀ (os : Operands) {p : Nat} {E : List Edge}, origin ≤ p →
    Draws os.assemble origin p E (p + os.stateCount) (E ++ os.edgesAt p) (os.fragmentsAt p)
  | .pair a b, p, E, h => by
      have ha := draws_assemble a (E := E) h
      have hle : origin ≤ p + a.stateCount := Nat.le_add_right_of_le h
      have hb := draws_assemble b (E := E ++ a.edgesAt p) hle
      exact (ha.bind (hb.bind (draws_pure [_, _]))).cast (Nat.add_assoc _ _ _)
        (List.append_assoc _ _ _)
  | .cons a rest, p, E, h => by
      have ha := draws_assemble a (E := E) h
      have hle : origin ≤ p + a.stateCount := Nat.le_add_right_of_le h
      have hrest := draws_assembleAll rest (E := E ++ a.edgesAt p) hle
      exact (ha.bind (hrest.bind (draws_pure (_ :: _)))).cast (Nat.add_assoc _ _ _)
        (List.append_assoc _ _ _)

end

theorem shows_empty (supply : StateSupply) :
    (⟨supply, ∅⟩ : Draft).Shows supply.next supply.next [] where
  next_eq := rfl
  origin_le := Nat.le_refl _
  inside := fun _ he => absurd he List.not_mem_nil
  relation := by
    intro s
    rw [if_neg fun h => Nat.not_lt.2 h.1 h.2]
    exact Std.ExtTreeMap.getElem?_empty

theorem construct_eq (r : Regex) : construct r = r.assemble >>= fun part => get >>= fun draft =>
    ofParts part.start part.exit draft.relation := by
  simp only [construct, run_build, run, bind_assoc, pure_bind]

end Automata.Thompson

namespace Automata.Regex

open Thompson

variable {r : Regex} {supply : StateSupply}

/-- Where the names suffice the construction gives the automaton of the blueprint and takes just its states. -/
theorem toNfa_of_fits (h : supply.next + r.stateCount ≤ lastState) :
    r.toNfa supply = (.ok (r.nfaAt supply.next), ⟨supply.next + r.stateCount, h⟩) := by
  obtain ⟨d, hrun, hd⟩ := (draws_assemble r (Nat.le_refl _)).fits _ (shows_empty supply) h
  rw [List.nil_append] at hd
  have hnfa : r.nfaAt supply.next
      = ⟨(r.fragmentAt supply.next).start, (r.fragmentAt supply.next).exit, d.relation⟩ := by
    rw [hd.relation_eq]
    rfl
  have hparts : (ofParts (r.fragmentAt supply.next).start (r.fragmentAt supply.next).exit d.relation).run d
      = .ok (r.nfaAt supply.next) d := ofParts_eq_ok_iff.2 ⟨r.wellFormed_nfaAt supply.next, hnfa, rfl⟩
  have hsupply : d.supply = ⟨supply.next + r.stateCount, h⟩ := NameSupply.eq_of_next_eq hd.next_eq
  simp only [toNfa, construct_eq, EStateM.run_bind, hrun, EStateM.run_get, hparts]
  exact congrArg (Prod.mk _) hsupply

/-- Where they do not the construction ends with the exhaustion of the supply. -/
theorem toNfa_of_short (h : lastState < supply.next + r.stateCount) :
    r.toNfa supply = (.error (.exhausted ⟨lastState⟩), ⟨lastState, Nat.le_refl _⟩) := by
  obtain ⟨d, hrun, hd⟩ := (draws_assemble r (Nat.le_refl _)).short _ (shows_empty supply) h
  have hsupply : d.supply = ⟨lastState, Nat.le_refl _⟩ := NameSupply.eq_of_next_eq hd
  simp only [toNfa, construct_eq, EStateM.run_bind, hrun]
  exact congrArg (Prod.mk _) hsupply

theorem compile_ne_exhausted (h : r.stateCount ≤ lastState) : ∀ e, r.compile ≠ .error (.exhausted e) := by
  have hfits : StateSupply.initial.next + r.stateCount ≤ lastState := by
    rwa [StateSupply.initial, Nat.zero_add]
  rw [compile, toNfa_of_fits hfits]
  exact fun _ => nofun

theorem fits_of_not_exhausted (h : ∀ e, (r.toNfa supply).1 ≠ .error (.exhausted e)) :
    supply.next + r.stateCount ≤ lastState := by
  refine Decidable.byContradiction fun hshort => ?_
  exact h ⟨lastState⟩ (congrArg Prod.fst (toNfa_of_short (Nat.lt_of_not_le hshort)))

theorem toNfa_of_not_exhausted (h : ∀ e, (r.toNfa supply).1 ≠ .error (.exhausted e)) :
    (r.toNfa supply).1 = .ok (r.nfaAt supply.next) := by
  rw [toNfa_of_fits (fits_of_not_exhausted h)]

end Automata.Regex
