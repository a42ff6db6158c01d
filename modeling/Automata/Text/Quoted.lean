/-
# Quoted text

A string between double quotes.  The quote, the backslash and the four control characters with a short form
are written with a backslash; of the others, those of a given set are written by code point, as in
`\u{301}`, and the rest stand for themselves.  The set is a parameter, since nothing that is true of quoted
text depends on it; `isEscaped` is the one in use.
-/
import Automata.Text.Extender
import Automata.Text.Unprintable

namespace Automata.Text

/-- The characters written by code point: those that would not be seen, or not be seen as a character of
their own. -/
def isEscaped (c : Char) : Bool := isExtender c || isUnprintable c

/-- What stands for a character inside the quotes. -/
def quotedChar (escaped : Char → Bool) (c : Char) : List Char :=
  match c with
  | '\x00' => ['\\', '0']
  | '\t' => ['\\', 't']
  | '\n' => ['\\', 'n']
  | '\r' => ['\\', 'r']
  | '"' => ['\\', '"']
  | '\\' => ['\\', '\\']
  | c =>
      if escaped c then
        '\\' :: 'u' :: '\x7b' :: (Nat.toDigits 16 c.toNat ++ ['\x7d'])
      else [c]

/-- A string between quotes. -/
def quoted (escaped : Char → Bool) (s : String) : List Char :=
  '"' :: (s.toList.flatMap (quotedChar escaped) ++ ['"'])

/-- A string between quotes, with the characters of `isEscaped` written by code point. -/
def quote (s : String) : String := String.ofList (quoted isEscaped s)

end Automata.Text
