/-
# Taking from a stack

A stack is a list with its top first.  What was pushed last comes off first, so the elements taken are handed
over in reverse, which is the order in which they were pushed.
-/

namespace Automata.Stack

variable {α : Type}

/-- Moves `count` elements from the top of the stack to the front of `taken`. -/
def takeOnto : Nat → List α → List α → Option (List α × List α)
  | 0, stack, taken => some (taken, stack)
  | _ + 1, [], _ => none
  | count + 1, top :: stack, taken => takeOnto count stack (top :: taken)

/-- The `count` elements pushed last, in the order in which they were pushed, and the stack below them, if
there are that many. -/
def takeLast (count : Nat) (stack : List α) : Option (List α × List α) := takeOnto count stack []

theorem takeOnto_reverse_append (xs stack taken : List α) :
    takeOnto xs.length (xs.reverse ++ stack) taken = some (xs ++ taken, stack) := by
  have h : ∀ ys : List α, ∀ taken,
      takeOnto ys.length (ys ++ stack) taken = some (ys.reverse ++ taken, stack) := by
    intro ys
    induction ys with
    | nil => intro taken; rfl
    | cons y ys ih => intro taken; simp [takeOnto, ih]
  simpa using h xs.reverse taken

/-- What was pushed is taken off in the order in which it was pushed. -/
@[simp] theorem takeLast_reverse_append (xs stack : List α) :
    takeLast xs.length (xs.reverse ++ stack) = some (xs, stack) := by
  simpa [takeLast] using takeOnto_reverse_append xs stack []

theorem takeOnto_eq_none_iff {count : Nat} {stack taken : List α} :
    takeOnto count stack taken = none ↔ stack.length < count := by
  induction count generalizing stack taken with
  | zero => simp [takeOnto]
  | succ count ih =>
      cases stack with
      | nil => simp [takeOnto]
      | cons top stack => simp [takeOnto, ih]

theorem takeLast_eq_none_iff {count : Nat} {stack : List α} :
    takeLast count stack = none ↔ stack.length < count :=
  takeOnto_eq_none_iff

end Automata.Stack
