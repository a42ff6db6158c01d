/-
# Sets of states

The finite sets of states that the subset construction works with.  Two of them are equal when they have the
same members.  They are also put in a linear order, the smaller size first and then member by member, which
means nothing for automata but lets a set be looked up quickly among others.
-/
import Automata.NameSupply
import Automata.Text.Braced
import Std.Data.ExtTreeSet

namespace Automata

/-- A finite set of states. -/
abbrev StateSet := Std.ExtTreeSet StateName

namespace StateSet

/-- The text of a set, its members ascending. -/
def text (set : StateSet) : String := Text.braced (set.toList.map toString)

/-- By size, and among sets of one size by the members in ascending order. -/
def order : StateSet → StateSet → Ordering :=
  compareLex (compareOn Std.ExtTreeSet.size) (compareOn Std.ExtTreeSet.toList)

instance : Ord StateSet := ⟨order⟩

instance : Std.TransOrd StateSet :=
  inferInstanceAs (Std.TransCmp
    (compareLex (compareOn (α := StateSet) Std.ExtTreeSet.size)
      (compareOn Std.ExtTreeSet.toList)))

instance : Std.LawfulEqOrd StateSet where
  eq_of_compare {a b} h := by
    have h : compareLex (compareOn Std.ExtTreeSet.size) (compareOn Std.ExtTreeSet.toList) a b
        = .eq := h
    rw [compareLex_eq_eq] at h
    exact Std.ExtTreeSet.toList_inj.1 (Std.LawfulEqOrd.eq_of_compare h.2)

end StateSet

end Automata
