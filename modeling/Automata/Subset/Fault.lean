/-
# Faults of the subset construction

What the construction relies on, one fault for each thing that could fail to hold.
-/
import Automata.Bijection
import Automata.Nfa.EpsilonClosure
import Automata.Text.Failure

namespace Automata.Subset

/-- Why a construction ends without an automaton. -/
inductive Fault where
  /-- A closure was begun while the worklist was still in use. -/
  | busyWorklist
  /-- A closure met a state that does not belong to the automaton. -/
  | unknownState (e : UnknownState)
  /-- A set of states has a member that does not belong to the automaton. -/
  | foreignMember (s : StateName)
  /-- A set of states that an edge leads to was never resolved. -/
  | unresolved (set : StateSet)
  /-- Two sets were to have one number, or one set two. -/
  | clash (e : Bijection.Clash StateSet Nat)
  /-- The deterministic automaton lacks its start. -/
  | missingStart
  /-- The deterministic automaton lacks an accepting state. -/
  | missingAccepting
  /-- The deterministic automaton lacks the target of an edge. -/
  | missingTarget
  deriving DecidableEq

def Fault.message : Fault → String
  | .busyWorklist => Text.assertionFailed "self.0.is_empty()"
  | .unknownState e => e.message
  | .foreignMember s => Text.unreachableWith ("State " ++ toString s ++ " missing from NFA")
  | .unresolved set => Text.unreachableWith ("Composite state " ++ StateSet.text set ++ " never resolved")
  | .clash e => Text.unreachableWith ("Renaming is not injective: " ++ e.message StateSet.text toString)
  | .missingStart => Text.assertionFailed "trans.contains_key(&start)"
  | .missingAccepting => Text.assertionFailed "accept.iter().all(|s| trans.contains_key(s))"
  | .missingTarget =>
      Text.assertionFailed "trans.values().flat_map(BTreeMap::values).all(|t| trans.contains_key(t))"

end Automata.Subset
