/-
# The construction by recursion

The same construction said by recursion on the tree: the operands of an operator are assembled from left to
right, and the operator joins their fragments.  The start and the exit of an alternation are taken before its
operands, the state of a repetition after its operand.

Working off the task of building an expression amounts to assembling it and putting the fragment on the stack
(`run_build`), whatever tasks follow and whatever lies on the stack.  This is an equation between computations, so
it speaks of faults as well as of results, and of the draft left behind in either case.
-/
import Automata.Thompson.Task

namespace Automata

open Thompson

mutual

/-- Builds the expression and gives its fragment. -/
def Regex.assemble : Regex → Construction Fragment
  | .lit s => single (some s)
  | .epsilon => single none
  | .cat os => do concatenate (← os.assemble)
  | .alt os => do
      let start ← newState
      let exit ← newState
      alternate ⟨start, exit⟩ (← os.assemble)
  | .star r => do loop (← r.assemble)

/-- Builds the operands from left to right and gives their fragments. -/
def Operands.assemble : Operands → Construction (List Fragment)
  | .pair a b => do
      let first ← a.assemble
      let second ← b.assemble
      return [first, second]
  | .cons a rest => do
      let first ← a.assemble
      let others ← rest.assemble
      return first :: others

end

namespace Thompson

/-- What follows the assembly of operands need only be known for as many fragments as there are operands. -/
theorem assemble_bind_congr {β : Type} : ∀ {os : Operands} {k k' : List Fragment → Construction β},
    (∀ parts, parts.length = os.length → k parts = k' parts) → os.assemble >>= k = os.assemble >>= k'
  | .pair a b, k, k', h => by
      simp only [Operands.assemble, bind_assoc, pure_bind]
      exact bind_congr fun f => bind_congr fun g => h [f, g] rfl
  | .cons a rest, k, k', h => by
      simp only [Operands.assemble, bind_assoc, pure_bind]
      refine bind_congr fun f => ?_
      exact assemble_bind_congr fun parts hl => h (f :: parts) (by simp [Operands.length, hl])

theorem takeLast_reverse {parts : List Fragment} {os : Operands} (h : parts.length = os.length)
    (stack : List Fragment) : takeLast os.length (parts.reverse ++ stack) = pure (parts, stack) := by
  simp [takeLast, ← h]

mutual

/-- Working off the task of building an expression is assembling it and pushing its fragment. -/
theorem run_build : ∀ (r : Regex) (tasks : List Task) (stack : List Fragment),
    run (.build r :: tasks) stack = r.assemble >>= fun part => run tasks (part :: stack)
  | .lit s, tasks, stack => by simp only [run, Regex.assemble]
  | .epsilon, tasks, stack => by simp only [run, Regex.assemble]
  | .cat os, tasks, stack => by
      simp only [run, Regex.assemble, run_buildAll os, bind_assoc]
      refine assemble_bind_congr fun parts h => ?_
      simp only [takeLast_reverse h, pure_bind]
  | .alt os, tasks, stack => by
      simp only [run, Regex.assemble, run_buildAll os, bind_assoc]
      refine bind_congr fun start => bind_congr fun exit => assemble_bind_congr fun parts h => ?_
      simp only [takeLast_reverse h, pure_bind]
  | .star r, tasks, stack => by
      simp only [run, Regex.assemble, run_build r, bind_assoc]
      refine bind_congr fun part => ?_
      simp only [takeLast, Stack.takeLast, Stack.takeOnto, pure_bind]

theorem run_buildAll : ∀ (os : Operands) (tasks : List Task) (stack : List Fragment),
    run (buildAll os ++ tasks) stack
      = os.assemble >>= fun parts => run tasks (parts.reverse ++ stack)
  | .pair a b, tasks, stack => by
      simp only [buildAll, Operands.toList, List.map_cons, List.map_nil, List.cons_append,
        List.nil_append, run_build a, run_build b, Operands.assemble, bind_assoc, pure_bind,
        List.reverse_cons, List.reverse_nil]
  | .cons a rest, tasks, stack => by
      have ih := run_buildAll rest tasks
      simp only [buildAll] at ih
      simp only [buildAll, Operands.toList, List.map_cons, List.cons_append, run_build a, ih,
        Operands.assemble, bind_assoc, pure_bind, List.reverse_cons, List.append_assoc,
        List.nil_append]

end

end Thompson

end Automata
