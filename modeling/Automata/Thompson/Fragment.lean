/-
# Fragments

Each part of an expression becomes a fragment of the automaton under construction, known by its start and its
exit.  The fragments of the operands are joined by epsilon edges, and only at their starts and exits:

* a concatenation joins the exit of each operand to the start of the next;
* an alternation has a start and an exit of its own, joins its start to those of the operands and their exits
  to its own;
* a repetition takes one state for both its start and its exit, with an edge to the start of the operand and
  one back from its exit.
-/
import Automata.Thompson.Draft

namespace Automata.Thompson

/-- The start and the exit of a part under construction. -/
structure Fragment where
  /-- Where its words start. -/
  start : StateName
  /-- Where its words end. -/
  exit : StateName
  deriving DecidableEq

/-- A new start and a new exit with one edge between them. -/
def single (label : Option String) : Construction Fragment := do
  let start ← newState
  let exit ← newState
  connect start label exit
  return ⟨start, exit⟩

/-! ## The three operators -/

/-- Joins each part to its right neighbour. -/
def chain : List Fragment → Construction Unit
  | a :: b :: rest => do
      connect a.exit none b.start
      chain (b :: rest)
  | _ => pure ()

/-- The parts one after the other. -/
def concatenate (parts : List Fragment) : Construction Fragment :=
  match parts.head?, parts.getLast? with
  | some first, some last => do
      chain parts
      return ⟨first.start, last.exit⟩
  | _, _ => throw .emptyConcatenation

/-- The parts side by side between a given start and exit. -/
def alternate (ends : Fragment) : List Fragment → Construction Fragment
  | [] => return ends
  | part :: rest => do
      connect ends.start none part.start
      connect part.exit none ends.exit
      alternate ends rest

/-- The part any number of times, around a new state. -/
def loop (part : Fragment) : Construction Fragment := do
  let s ← newState
  connect s none part.start
  connect part.exit none s
  return ⟨s, s⟩

end Automata.Thompson
