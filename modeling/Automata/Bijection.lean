/-
# One-to-one correspondences

Two dictionaries, one for each direction, to which pairs are added one at a time.  A pair is refused when
either of its sides is already paired with something else; the error names the pair it clashes with.  When
both sides are taken, the clash of the right side is the one reported.

A pair is added in place (`record`), one dictionary after the other.  `attempt` keeps what a refused pair leaves
behind, `insert` and `insertAll` end with the first clash.

That the two dictionaries stay inverse to each other is not part of the type: it is what every run of attempts
from the empty correspondence keeps.
-/
import Automata.Text.Braced
import Std.Data.ExtTreeMap

namespace Automata

/-- A correspondence between names of two kinds. -/
structure Bijection (α β : Type) [Ord α] [Ord β] where
  /-- The right name of each left name. -/
  forward : Std.ExtTreeMap α β
  /-- The left name of each right name. -/
  backward : Std.ExtTreeMap β α

namespace Bijection

/-- A pair that does not fit. -/
inductive Clash (α β : Type) where
  /-- The right name `right` already belongs to `old`, so it cannot belong to `new`. -/
  | left (old new : α) (right : β)
  /-- The left name `left` already belongs to `old`, so it cannot belong to `new`. -/
  | right (left : α) (old new : β)
  deriving DecidableEq

/-- The text of a pair, from the texts of its sides. -/
def pairText (l r : String) : String := l ++ " ⇔ " ++ r

/-- The text of the error, for given texts of names. -/
def Clash.message {α β : Type} (showLeft : α → String) (showRight : β → String) :
    Clash α β → String
  | .left old new r =>
      pairText (showLeft new) (showRight r) ++ " clashes with existing mapping "
        ++ pairText (showLeft old) (showRight r)
  | .right l old new =>
      pairText (showLeft l) (showRight new) ++ " clashes with existing mapping "
        ++ pairText (showLeft l) (showRight old)

variable {α β : Type} [Ord α] [Ord β] [Std.TransOrd α] [Std.TransOrd β]

instance [DecidableEq α] [DecidableEq β] [Std.LawfulEqOrd α] [Std.LawfulEqOrd β] :
    DecidableEq (Bijection α β) := fun a b =>
  decidable_of_iff (a.forward = b.forward ∧ a.backward = b.backward) (by
    cases a
    cases b
    simp)

/-- The correspondence without pairs. -/
def empty : Bijection α β := ⟨∅, ∅⟩

instance : EmptyCollection (Bijection α β) := ⟨empty⟩

/-- The number of pairs. -/
def size (b : Bijection α β) : Nat := b.forward.size

/-- Whether there are no pairs. -/
def isEmpty (b : Bijection α β) : Bool := b.forward.isEmpty

/-- The pairs, by ascending left name. -/
def pairs (b : Bijection α β) : List (α × β) := b.forward.toList

/-- The text of all pairs. -/
def text (showLeft : α → String) (showRight : β → String) (b : Bijection α β) : String :=
  Text.braced (b.pairs.map fun p => pairText (showLeft p.1) (showRight p.2))

/-- The right name of a left name. -/
def image (b : Bijection α β) (l : α) : Option β := b.forward[l]?

/-- The left name of a right name. -/
def preimage (b : Bijection α β) (r : β) : Option α := b.backward[r]?

variable [DecidableEq α] [DecidableEq β]

/-! ## Adding pairs -/

/-- Looks both names up and, if it finds neither, writes the pair into one dictionary and then into the other;
says whether the pair is new. -/
def record (l : α) (r : β) : EStateM (Clash α β) (Bijection α β) Bool := do
  match (← get).image l, (← get).preimage r with
  | none, none =>
      modify fun b => { b with forward := b.forward.insert l r }
      modify fun b => { b with backward := b.backward.insert r l }
      return true
  | some oldRight, some oldLeft =>
      if oldRight = r ∧ oldLeft = l then return false else throw (.right l oldRight r)
  | some oldRight, none => throw (.right l oldRight r)
  | none, some oldLeft => throw (.left oldLeft l r)

/-- What adding a pair answers, and the correspondence as it is afterwards. -/
def attempt (b : Bijection α β) (l : α) (r : β) : Except (Clash α β) Bool × Bijection α β :=
  match (record l r).run b with
  | .ok isNew b => (.ok isNew, b)
  | .error e b => (.error e, b)

/-- The correspondence after a run of attempts, those that are refused included. -/
def attemptAll (b : Bijection α β) (ps : List (α × β)) : Bijection α β :=
  ps.foldl (fun b p => (b.attempt p.1 p.2).2) b

/-- Adds a pair and says whether it is new. -/
def insert (b : Bijection α β) (l : α) (r : β) : Except (Clash α β) (Bool × Bijection α β) :=
  match b.attempt l r with
  | (.ok isNew, b) => .ok (isNew, b)
  | (.error e, _) => .error e

/-- Adds pairs from first to last and says of each whether it was new; the first clash ends the run. -/
def insertAll (b : Bijection α β) :
    List (α × β) → Except (Clash α β) (List Bool × Bijection α β)
  | [] => .ok ([], b)
  | (l, r) :: rest =>
      match b.insert l r with
      | .error e => .error e
      | .ok (isNew, b) =>
          match b.insertAll rest with
          | .error e => .error e
          | .ok (news, b) => .ok (isNew :: news, b)

end Bijection

end Automata
