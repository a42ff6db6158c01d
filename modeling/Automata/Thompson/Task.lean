/-
# Building by tasks

The tree of an expression is not walked by recursion.  `run` works off a list of tasks, the next one first,
beside a stack of finished fragments, so its own depth does not grow with the tree's.  An operator falls into
the tasks of building its operands, followed by one that takes their fragments off the stack and joins them.
The start and the exit of an alternation are taken before its operands are built, the state of a repetition
after its operand.
-/
import Automata.Regex
import Automata.Stack
import Automata.Thompson.Fragment

namespace Automata

namespace Thompson

/-- Work that is still to be done. -/
inductive Task where
  /-- Build an expression. -/
  | build (r : Regex)
  /-- Put the last `count` fragments one after the other. -/
  | concatenate (count : Nat)
  /-- Put the last `count` fragments side by side between `ends`. -/
  | alternate (count : Nat) (ends : Fragment)
  /-- Repeat the last fragment. -/
  | loop

/-- The last `count` fragments in the order in which they were finished, and the stack below them. -/
def takeLast (count : Nat) (stack : List Fragment) :
    Construction (List Fragment × List Fragment) :=
  match Stack.takeLast count stack with
  | none => throw .tooFewFragments
  | some taken => pure taken

end Thompson

mutual

/-- The number of tasks that building an expression takes. -/
def Regex.taskCount : Regex → Nat
  | .lit _ => 1
  | .epsilon => 1
  | .cat os => os.taskCount + 2
  | .alt os => os.taskCount + 2
  | .star r => r.taskCount + 2

/-- The number of tasks that building all operands takes. -/
def Operands.taskCount : Operands → Nat
  | .pair a b => a.taskCount + b.taskCount
  | .cons a rest => a.taskCount + rest.taskCount

end

namespace Thompson

/-- The number of tasks that come out of a task, itself included. -/
def Task.count : Task → Nat
  | .build r => r.taskCount
  | _ => 1

/-- The number of tasks that come out of all tasks of a list. -/
def Task.countAll : List Task → Nat
  | [] => 0
  | task :: tasks => task.count + countAll tasks

/-- The tasks of building all operands, from left to right. -/
def buildAll (os : Operands) : List Task := os.toList.map .build

theorem countAll_buildAll_append : ∀ (os : Operands) (tasks : List Task),
    Task.countAll (buildAll os ++ tasks) = os.taskCount + Task.countAll tasks
  | .pair a b, tasks => (Nat.add_assoc a.taskCount b.taskCount (Task.countAll tasks)).symm
  | .cons a rest, tasks => by
      have ih := countAll_buildAll_append rest tasks
      rw [Operands.taskCount, Nat.add_assoc, ← ih]
      rfl

/-- Works off the tasks, the first one first, with the finished fragments on a stack, the last one on
top.  A task is replaced by those it falls into, so the number of tasks to come goes down. -/
def run : List Task → List Fragment → Construction (List Fragment)
  | [], stack => pure stack
  | .build (.lit s) :: tasks, stack => do
      run tasks ((← single (some s)) :: stack)
  | .build .epsilon :: tasks, stack => do
      run tasks ((← single none) :: stack)
  | .build (.cat os) :: tasks, stack =>
      run (buildAll os ++ .concatenate os.length :: tasks) stack
  | .build (.alt os) :: tasks, stack => do
      let start ← newState
      let exit ← newState
      run (buildAll os ++ .alternate os.length ⟨start, exit⟩ :: tasks) stack
  | .build (.star r) :: tasks, stack =>
      run (.build r :: .loop :: tasks) stack
  | .concatenate count :: tasks, stack => do
      let (parts, stack) ← takeLast count stack
      run tasks ((← concatenate parts) :: stack)
  | .alternate count ends :: tasks, stack => do
      let (parts, stack) ← takeLast count stack
      run tasks ((← alternate ends parts) :: stack)
  | .loop :: tasks, stack => do
      match ← takeLast 1 stack with
      | (part :: _, stack) => run tasks ((← loop part) :: stack)
      | ([], _) => throw .emptyRepetition
termination_by tasks => Task.countAll tasks
decreasing_by
  all_goals
    simp only [countAll_buildAll_append, Task.countAll, Task.count, Regex.taskCount]
    omega

end Thompson

end Automata
