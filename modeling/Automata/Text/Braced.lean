/-
# Braced lists

The text of a finite collection: its members between braces, separated by a comma and a space.
-/

namespace Automata.Text

/-- The members between braces. -/
def braced (members : List String) : String :=
  "\x7b" ++ ", ".intercalate members ++ "\x7d"

end Automata.Text
