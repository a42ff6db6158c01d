/-
# The text of an expression

Alternation binds least, then concatenation, then repetition; leaves bind most.  Each place in the text asks
for a level, and an expression of a lower level is put in brackets there.  The operands of an alternation are
asked for level 0 and those of a concatenation for level 1, so an alternation inside an alternation shows no
brackets; what is repeated is asked for the level of a leaf, so a repetition of a repetition does.

A symbol of one character stands for itself unless it could be taken for something else; every other symbol
is quoted.
-/
import Automata.Regex
import Automata.Text.Blank
import Automata.Text.Quoted

namespace Automata

namespace Regex

/-- The characters with a meaning of their own in the text of an expression. -/
def reserved : List Char := ['|', '*', '(', ')', 'ε', '"']

/-- Whether a symbol that is just this character needs no quotes. -/
def isBare (c : Char) : Bool := !reserved.contains c && !Text.isBlank c

/-- The text of a symbol. -/
def symbolText (escaped : Char → Bool) (s : String) : List Char :=
  match s.toList with
  | [c] => if isBare c then [c] else Text.quoted escaped s
  | _ => Text.quoted escaped s

/-- Writes `body` in brackets if `brackets` holds; like `body`, in front of `rest`. -/
def enclose (brackets : Bool) (body : List Char → List Char) (rest : List Char) : List Char :=
  if brackets then '(' :: body (')' :: rest) else body rest

end Regex

mutual

/-- Writes an expression where the level `min` is asked for, in front of `rest`. -/
def Regex.write (escaped : Char → Bool) : Regex → Nat → List Char → List Char
  | .lit s, _, rest => Regex.symbolText escaped s ++ rest
  | .epsilon, _, rest => 'ε' :: rest
  | .cat os, min, rest => Regex.enclose (1 < min) (os.writeCat escaped) rest
  | .alt os, min, rest => Regex.enclose (0 < min) (os.writeAlt escaped) rest
  | .star r, min, rest =>
      Regex.enclose (2 < min) (fun rest => r.write escaped 3 ('*' :: rest)) rest

/-- Writes operands one after the other. -/
def Operands.writeCat (escaped : Char → Bool) : Operands → List Char → List Char
  | .pair a b, rest => a.write escaped 1 (b.write escaped 1 rest)
  | .cons a os, rest => a.write escaped 1 (os.writeCat escaped rest)

/-- Writes operands with a bar between neighbours. -/
def Operands.writeAlt (escaped : Char → Bool) : Operands → List Char → List Char
  | .pair a b, rest => a.write escaped 0 ('|' :: b.write escaped 0 rest)
  | .cons a os, rest => a.write escaped 0 ('|' :: os.writeAlt escaped rest)

end

namespace Regex

/-- The text of an expression, for a given set of characters to write by code point. -/
def text (escaped : Char → Bool) (r : Regex) : List Char := r.write escaped 0 []

/-- The text of an expression. -/
def display (r : Regex) : String := String.ofList (r.text Text.isEscaped)

end Regex

end Automata
