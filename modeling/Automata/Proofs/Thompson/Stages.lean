/-
# The construction task by task

Working off all tasks is working off the first one and then those that are left (`run_cons`); what one task does is
`work`.  So the construction passes through *stages*, each given by the tasks to come, the stack of finished fragments
and the draft, and what comes out in the end is the same at all of them (`Stage.Next.result_eq`).

With each task the number of tasks to come goes down by one, those that it falls into counted in advance
(`Stage.Next.countAll_eq`).  Hence every construction comes to a stage without tasks or to one whose next task
meets a fault (`Stage.exists_end`).
-/
import Mathlib.Logic.Relation
import Automata.Thompson

namespace Automata.Thompson

/-- Works off one task.  The result is the tasks it falls into and the stack after it. -/
def work : Task → List Fragment → Construction (List Task × List Fragment)
  | .build (.lit s), stack => do return ([], (← single (some s)) :: stack)
  | .build .epsilon, stack => do return ([], (← single none) :: stack)
  | .build (.cat os), stack => return (buildAll os ++ [.concatenate os.length], stack)
  | .build (.alt os), stack => do
      let start ← newState
      let exit ← newState
      return (buildAll os ++ [.alternate os.length ⟨start, exit⟩], stack)
  | .build (.star r), stack => return ([.build r, .loop], stack)
  | .concatenate count, stack => do
      let (parts, stack) ← takeLast count stack
      return ([], (← concatenate parts) :: stack)
  | .alternate count ends, stack => do
      let (parts, stack) ← takeLast count stack
      return ([], (← alternate ends parts) :: stack)
  | .loop, stack => do
      match ← takeLast 1 stack with
      | (part :: _, stack) => return ([], (← loop part) :: stack)
      | ([], _) => throw .emptyRepetition

/-- The first task is worked off, then the tasks it falls into, then the others. -/
theorem run_cons (task : Task) (tasks : List Task) (stack : List Fragment) :
    run (task :: tasks) stack = work task stack >>= fun next => run (next.1 ++ tasks) next.2 := by
  cases task with
  | build r =>
      cases r <;> simp only [run, work, bind_assoc, pure_bind, List.append_assoc, List.cons_append, List.nil_append]
  | concatenate _ => simp only [run, work, bind_assoc, pure_bind, List.nil_append]
  | alternate _ _ => simp only [run, work, bind_assoc, pure_bind, List.nil_append]
  | loop =>
      simp only [run, work, bind_assoc]
      refine bind_congr fun taken => ?_
      obtain ⟨_ | ⟨part, _⟩, _⟩ := taken
      · rfl
      · simp only [bind_assoc, pure_bind, List.nil_append]

/-! ## Stages -/

/-- How far a construction has come. -/
structure Stage where
  /-- The tasks to come, the next one first. -/
  tasks : List Task
  /-- The finished fragments, the last one first. -/
  stack : List Fragment
  /-- The names left and the relation so far. -/
  draft : Draft

/-- Nothing has been done for the expression yet. -/
def Stage.begin (r : Regex) (supply : StateSupply) : Stage := ⟨[.build r], [], ⟨supply, ∅⟩⟩

/-- From one stage to the next by working off a task. -/
inductive Stage.Next : Stage → Stage → Prop where
  | work {task : Task} {more tasks : List Task} {stack stack' : List Fragment} {d d' : Draft} :
      (work task stack).run d = .ok (more, stack') d' → Next ⟨task :: tasks, stack, d⟩ ⟨more ++ tasks, stack', d'⟩

/-- What comes out when all tasks of a stage are worked off. -/
def Stage.result (s : Stage) : EStateM.Result Fault Draft (List Fragment) := (run s.tasks s.stack).run s.draft

variable {s s' : Stage} {task : Task} {more tasks : List Task} {stack stack' : List Fragment} {d d' : Draft}

theorem Stage.Next.result_eq (h : s.Next s') : s.result = s'.result := by
  cases h with
  | work hwork =>
      rw [Stage.result, run_cons]
      exact run_bind_of_ok hwork

theorem Stage.result_reaches (h : Relation.ReflTransGen Stage.Next s s') : s.result = s'.result := by
  induction h with
  | refl => rfl
  | tail _ hnext ih => exact ih.trans hnext.result_eq

theorem Stage.result_done : (⟨[], stack, d⟩ : Stage).result = .ok stack d := by
  simp only [Stage.result, run]
  rfl

theorem Stage.result_fault {fault : Fault} (hwork : (work task stack).run d = .error fault d') :
    (⟨task :: tasks, stack, d⟩ : Stage).result = .error fault d' := by
  rw [Stage.result, run_cons]
  exact run_bind_of_error hwork

/-! ## The tasks run out -/

theorem countAll_work (h : (work task stack).run d = .ok (more, stack') d') :
    Task.countAll more + 1 = task.count := by
  cases task with
  | build r =>
      cases r with
      | lit _ | epsilon =>
          obtain ⟨part, d₁, -, h⟩ := run_bind_eq_ok h
          cases h
          rfl
      | cat os =>
          cases h
          rw [countAll_buildAll_append]
          rfl
      | alt os =>
          obtain ⟨start, d₁, -, h⟩ := run_bind_eq_ok h
          obtain ⟨exit, d₂, -, h⟩ := run_bind_eq_ok h
          cases h
          rw [countAll_buildAll_append]
          rfl
      | star r =>
          cases h
          rfl
  | concatenate _ | alternate _ _ =>
      obtain ⟨taken, d₁, -, h⟩ := run_bind_eq_ok h
      obtain ⟨part, d₂, -, h⟩ := run_bind_eq_ok h
      cases h
      rfl
  | loop =>
      obtain ⟨⟨_ | ⟨part, _⟩, _⟩, d₁, -, h⟩ := run_bind_eq_ok h
      · cases h
      · obtain ⟨part', d₂, -, h⟩ := run_bind_eq_ok h
        cases h
        rfl

theorem countAll_append (tasks tasks' : List Task) :
    Task.countAll (tasks ++ tasks') = Task.countAll tasks + Task.countAll tasks' := by
  induction tasks with
  | nil => exact (Nat.zero_add _).symm
  | cons task tasks ih => rw [List.cons_append, Task.countAll, ih, Task.countAll, Nat.add_assoc]

theorem Stage.Next.countAll_eq (h : s.Next s') : Task.countAll s'.tasks + 1 = Task.countAll s.tasks := by
  cases h with
  | work hwork =>
      have hcount := countAll_work hwork
      simp only [countAll_append, Task.countAll]
      omega

/-- A construction comes to a stage where nothing is left to be done, or to one where the next task meets a fault. -/
theorem Stage.exists_end : ∀ s : Stage, ∃ s', Relation.ReflTransGen Stage.Next s s' ∧
    (s'.tasks = [] ∨ ∃ task tasks fault d, s'.tasks = task :: tasks ∧
      (work task s'.stack).run s'.draft = .error fault d)
  | ⟨[], stack, d⟩ => ⟨_, .refl, Or.inl rfl⟩
  | ⟨task :: tasks, stack, d⟩ => by
      cases hwork : (work task stack).run d with
      | error fault d' => exact ⟨_, .refl, Or.inr ⟨task, tasks, fault, d', rfl, hwork⟩⟩
      | ok next d' =>
          have hnext : Stage.Next ⟨task :: tasks, stack, d⟩ ⟨next.1 ++ tasks, next.2, d'⟩ := .work hwork
          have hcount := hnext.countAll_eq
          obtain ⟨s', hsteps, hend⟩ := Stage.exists_end ⟨next.1 ++ tasks, next.2, d'⟩
          exact ⟨s', .head hnext hsteps, hend⟩
termination_by s => Task.countAll s.tasks
decreasing_by exact Nat.lt_of_succ_le (Nat.le_of_eq hcount)

end Automata.Thompson
