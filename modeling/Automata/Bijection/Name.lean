/-
# Names of either kind

Names that are numbers or texts, for correspondences over a mixture of both.  A number is never the same name
as the text of its digits.  In the order of names numbers come before texts.
-/
import Automata.Text.Quoted

namespace Automata

inductive Name where
  | number (value : Int)
  | text (value : String)
  deriving DecidableEq

namespace Name

/-- Texts are shown quoted, numbers in decimal. -/
def display : Name → String
  | .number n => toString n
  | .text s => Text.quote s

/-- The kind of a name: 0 for a number, 1 for a text. -/
def kind : Name → Nat
  | .number _ => 0
  | .text _ => 1

/-- The value of a number, and 0 for a text. -/
def value : Name → Int
  | .number n => n
  | .text _ => 0

/-- The characters of a text, and none for a number. -/
def characters : Name → String
  | .number _ => ""
  | .text s => s

/-- Numbers before texts, each kind ascending. -/
def order : Name → Name → Ordering :=
  compareLex (compareOn kind) (compareLex (compareOn value) (compareOn characters))

instance : Ord Name := ⟨order⟩

instance : Std.TransOrd Name :=
  inferInstanceAs (Std.TransCmp
    (compareLex (compareOn kind) (compareLex (compareOn value) (compareOn characters))))

instance : Std.LawfulEqOrd Name where
  eq_of_compare {a b} h := by
    have h : compareLex (compareOn kind) (compareLex (compareOn value) (compareOn characters)) a b
        = .eq := h
    rw [compareLex_eq_eq, compareLex_eq_eq] at h
    have hkind : a.kind = b.kind := Std.LawfulEqOrd.eq_of_compare h.1
    have hvalue : a.value = b.value := Std.LawfulEqOrd.eq_of_compare h.2.1
    have hchars : a.characters = b.characters := Std.LawfulEqOrd.eq_of_compare h.2.2
    cases a <;> cases b <;> simp_all [kind, value, characters]

end Name

end Automata
