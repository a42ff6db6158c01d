/-
# Texts of failed checks

A construction checks what it relies on as it goes.  A condition that is asserted is quoted when it does not hold;
a place that is taken to be out of reach says so when it is reached, with what was met there.
-/

namespace Automata.Text

/-- The text of a condition that was asserted and does not hold. -/
def assertionFailed (condition : String) : String := "assertion failed: " ++ condition

/-- The text of a place that was taken to be out of reach. -/
def unreachable : String := "internal error: entered unreachable code"

/-- The text of such a place that tells what was met there. -/
def unreachableWith (met : String) : String := unreachable ++ ": " ++ met

end Automata.Text
