/-
# Sharing one supply

Names are asked for one at a time or by building an automaton, in any order and as long as one likes, also after a
call has failed.  What a call does depends only on where the supply stands and is said exactly by
`Exchange.Lawful`: a construction needs as many names as its expression has states (`Regex.stateCount`), takes just
the next ones, and succeeds if and only if the supply has them; if not, it has spent what was left.

So a call that hands out names takes them from between the two places where the supply stands before and after it
(`Exchange.Lawful.names_eq`), and the supply never goes back.  Hence no name is handed out twice in a whole run
(`Session.exchanges_lawful`), and the last name never is.
-/
import Mathlib.Algebra.Group.Nat.Defs
import Mathlib.Data.List.Chain
import Automata.Proofs.Thompson.Drawing
import Automata.Session

namespace Automata

/-! ## The states of a built automaton -/

namespace Regex

variable {r : Regex} {p : Nat}

theorem states_nfaAt : (r.nfaAt p).states = List.range' p r.stateCount := by
  rw [Nfa.states, ← Std.ExtTreeMap.map_fst_toList_eq_keys, toList_relation_nfaAt, List.map_map]
  exact List.map_id _

theorem size_nfaAt : (r.nfaAt p).size = r.stateCount := by
  rw [Nfa.size, ← Std.ExtTreeMap.length_keys, ← Nfa.states, states_nfaAt, List.length_range']

end Regex

namespace Session

/-! ## Calls -/

/-- What can be asked of the supply of a session. -/
inductive Call where
  /-- A fresh name. -/
  | fresh
  /-- The name that would be handed out next. -/
  | peek
  /-- The automaton of an expression. -/
  | build (r : Regex)

/-- What comes back from a call. -/
inductive Answer where
  | fresh (result : Except NameSupply.Exhausted StateName)
  | peek (next : StateName)
  | build (result : Except Thompson.Fault Nfa)

/-- The names that an answer hands out: all states of an automaton, if it is one. -/
def Answer.names : Answer → List StateName
  | .fresh (.ok s) => [s]
  | .build (.ok nfa) => nfa.states
  | _ => []

/-- Answers a call. -/
def call (s : Session) : Call → Answer × Session
  | .fresh => (.fresh s.fresh.1, s.fresh.2)
  | .peek => (.peek s.supply.next, s)
  | .build r => (.build (s.build r).1, (s.build r).2)

/-- A call that was answered, between two places where the supply stood. -/
structure Exchange where
  before : StateName
  call : Call
  answer : Answer
  after : StateName

/-- One call in a session. -/
def exchange (s : Session) (c : Call) : Exchange :=
  ⟨s.supply.next, c, (s.call c).1, (s.call c).2.supply.next⟩

/-- Calls one after the other, each in the session that the one before has left. -/
def exchanges : Session → List Call → List Exchange
  | _, [] => []
  | s, c :: calls => s.exchange c :: (s.call c).2.exchanges calls

/-- All names handed out in a run. -/
def names (run : List Exchange) : List StateName := run.flatMap (·.answer.names)

/-! ## One call -/

/-- What a call does, by where the supply stands before it. -/
def Exchange.Lawful (x : Exchange) : Prop :=
  match x.call with
  | .fresh =>
      if x.before < lastState then x.answer = .fresh (.ok x.before) ∧ x.after = x.before + 1
      else x.answer = .fresh (.error ⟨x.before⟩) ∧ x.after = x.before
  | .peek => x.answer = .peek x.before ∧ x.after = x.before
  | .build r =>
      if x.before + r.stateCount ≤ lastState then
        ∃ nfa, x.answer = .build (.ok nfa) ∧ nfa.states = List.range' x.before r.stateCount ∧
          nfa.size = r.stateCount ∧ x.after = x.before + r.stateCount
      else x.answer = .build (.error (.exhausted ⟨lastState⟩)) ∧ x.after = lastState

theorem exchange_lawful (s : Session) (c : Call) : (s.exchange c).Lawful := by
  cases c with
  | fresh =>
      by_cases h : s.supply.next < lastState
      · have hfresh : s.supply.fresh = .ok (s.supply.next, ⟨s.supply.next + 1, h⟩) :=
          NameSupply.fresh_eq_ok_iff.2 ⟨rfl, rfl⟩
        simp [Exchange.Lawful, exchange, call, Session.fresh, h, hfresh]
      · have hlast : s.supply.next = lastState := Nat.le_antisymm s.supply.next_le (Nat.le_of_not_lt h)
        have hfresh : s.supply.fresh = .error ⟨lastState⟩ := NameSupply.fresh_eq_error_iff.2 ⟨hlast, rfl⟩
        simp [Exchange.Lawful, exchange, call, Session.fresh, hlast, hfresh]
  | peek => exact ⟨rfl, rfl⟩
  | build r =>
      by_cases h : s.supply.next + r.stateCount ≤ lastState
      · have hnfa := Regex.toNfa_of_fits h
        simp [Exchange.Lawful, exchange, call, Session.build, h, hnfa, Regex.states_nfaAt, Regex.size_nfaAt]
      · have hnfa := Regex.toNfa_of_short (Nat.lt_of_not_le h)
        simp [Exchange.Lawful, exchange, call, Session.build, h, hnfa]

theorem Exchange.Lawful.names_eq {x : Exchange} (h : x.Lawful) (hle : x.before ≤ lastState) :
    ∃ count, x.answer.names = List.range' x.before count ∧ x.before + count ≤ x.after := by
  obtain ⟨before, c, answer, after⟩ := x
  cases c with
  | fresh =>
      simp only [Exchange.Lawful] at h
      split at h
      · obtain ⟨rfl, rfl⟩ := h
        exact ⟨1, rfl, Nat.le_refl _⟩
      · obtain ⟨rfl, rfl⟩ := h
        exact ⟨0, rfl, Nat.le_refl _⟩
  | peek =>
      simp only [Exchange.Lawful] at h
      obtain ⟨rfl, rfl⟩ := h
      exact ⟨0, rfl, Nat.le_refl _⟩
  | build r =>
      simp only [Exchange.Lawful] at h
      split at h
      · obtain ⟨nfa, rfl, hstates, -, rfl⟩ := h
        exact ⟨r.stateCount, hstates, Nat.le_refl _⟩
      · obtain ⟨rfl, rfl⟩ := h
        exact ⟨0, rfl, hle⟩

/-! ## Whole runs -/

/-- The names handed out from here on come in ascending order, none of them before the place where the supply
stands, and none of them is the last. -/
theorem names_exchanges (s : Session) (calls : List Call) :
    (names (s.exchanges calls)).Pairwise (· < ·) ∧
      ∀ n ∈ names (s.exchanges calls), s.supply.next ≤ n ∧ n < lastState := by
  induction calls generalizing s with
  | nil => exact ⟨.nil, fun n hn => absurd hn List.not_mem_nil⟩
  | cons c calls ih =>
      obtain ⟨hpairwise, hbounds⟩ := ih (s.call c).2
      obtain ⟨count, hnames, hafter⟩ := (s.exchange_lawful c).names_eq s.supply.next_le
      have hafter : s.supply.next + count ≤ (s.call c).2.supply.next := hafter
      have hlast := (s.call c).2.supply.next_le
      have hsplit : names (s.exchanges (c :: calls))
          = List.range' s.supply.next count ++ names ((s.call c).2.exchanges calls) := by
        exact congrArg (· ++ _) hnames
      rw [hsplit]
      constructor
      · refine List.pairwise_append.2 ⟨List.pairwise_lt_range', hpairwise, ?_⟩
        intro m hm n hn
        calc m < s.supply.next + count := (List.mem_range'_1.1 hm).2
          _ ≤ (s.call c).2.supply.next := hafter
          _ ≤ n := (hbounds n hn).1
      · intro n hn
        rcases List.mem_append.1 hn with hn | hn
        · obtain ⟨hle, hlt⟩ := List.mem_range'_1.1 hn
          exact ⟨hle, Nat.lt_of_lt_of_le hlt (Nat.le_trans hafter hlast)⟩
        · obtain ⟨hle, hlt⟩ := hbounds n hn
          exact ⟨Nat.le_trans (Nat.le_of_add_right_le hafter) hle, hlt⟩

theorem lawful_exchanges (s : Session) (calls : List Call) : ∀ x ∈ s.exchanges calls, x.Lawful := by
  induction calls generalizing s with
  | nil => exact fun x hx => absurd hx List.not_mem_nil
  | cons c calls ih =>
      intro x hx
      rcases List.mem_cons.1 hx with rfl | hx
      · exact s.exchange_lawful c
      · exact ih _ x hx

theorem map_call_exchanges (s : Session) (calls : List Call) : (s.exchanges calls).map (·.call) = calls := by
  induction calls generalizing s with
  | nil => rfl
  | cons c calls ih => exact congrArg (c :: ·) (ih _)

theorem isChain_exchanges (s : Session) (calls : List Call) :
    (s.exchanges calls).IsChain fun x y => x.after = y.before := by
  induction calls generalizing s with
  | nil => exact .nil
  | cons c calls ih =>
      cases calls with
      | nil => exact .singleton _
      | cons c' calls => exact .cons_cons rfl (ih _)

/-- A supply may be asked for names and automata in any order, and also on after it has failed.  Every call is
answered according to where the supply stands, the next call finds it where the one before has left it, no name is
handed out twice in the whole run, and the last name is never handed out. -/
theorem exchanges_lawful (supply : StateSupply) (calls : List Call) :
    let run := (Session.start supply).exchanges calls
    run.map (·.call) = calls ∧ (∀ x ∈ run.head?, x.before = supply.next) ∧
      (run.IsChain fun x y => x.after = y.before) ∧ (∀ x ∈ run, x.Lawful) ∧
      (names run).Nodup ∧ lastState ∉ names run ∧ lastState = 2 ^ 64 - 1 ∧
      (Thompson.Fault.exhausted ⟨lastState⟩).message = "Name supply exhausted after 18446744073709551615" := by
  intro run
  have hfirst : ∀ x ∈ run.head?, x.before = supply.next := by
    intro x hx
    cases calls with
    | nil => cases hx
    | cons c calls => cases hx; rfl
  obtain ⟨hpairwise, hbounds⟩ := names_exchanges (Session.start supply) calls
  refine ⟨map_call_exchanges _ calls, hfirst, isChain_exchanges _ calls, lawful_exchanges _ calls,
    hpairwise.imp Nat.ne_of_lt, ?_, rfl, rfl⟩
  intro h
  exact Nat.lt_irrefl _ (hbounds _ h).2

end Session

end Automata
