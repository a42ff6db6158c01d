/-
# Saturating a set under successors

A worklist holds the elements seen so far and a queue of elements still to be looked at.  A round drops the
elements at the head of the queue that have been seen, takes the first that has not, marks it as seen and puts
its successors at the end of the queue.  The queue may hold an element many times; what has been seen is
never expanded again, so a set given at the start also cuts off whatever is reached through it only.

`run` does a given number of rounds and stops early when the queue is used up.  Each round enlarges the set, so
as many rounds are enough as there are elements to reach.  The successor function may fail, and the first
failure ends the run.
-/
import Std.Data.ExtTreeSet

namespace Automata

/-- The state of a saturation: what has been seen, and what is still to be looked at, first come first
served. -/
structure Worklist (α : Type) (cmp : α → α → Ordering) [Std.TransCmp cmp] where
  /-- The elements met so far. -/
  seen : Std.ExtTreeSet α cmp
  /-- The elements to look at. -/
  queue : List α

namespace Worklist

variable {α ε : Type} {cmp : α → α → Ordering} [Std.TransCmp cmp]

/-- The queue from its first unseen element on. -/
def unseen (w : Worklist α cmp) : List α := w.queue.dropWhile w.seen.contains

/-- Up to `rounds` rounds with the successors `succ`. -/
def run (succ : α → Except ε (List α)) : Nat → Worklist α cmp → Except ε (Worklist α cmp)
  | 0, w => .ok ⟨w.seen, w.unseen⟩
  | rounds + 1, w =>
      match w.unseen with
      | [] => .ok ⟨w.seen, []⟩
      | a :: queue =>
          match succ a with
          | .ok next => run succ rounds ⟨w.seen.insert a, queue ++ next⟩
          | .error e => .error e

end Worklist

end Automata
