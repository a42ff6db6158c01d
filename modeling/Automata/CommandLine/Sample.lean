/-
# Sample expressions

The expressions that can be asked for by name on the command line.
-/
import Automata.Regex

namespace Automata.CommandLine

inductive Sample where
  | lit
  | abStar
  | abStarStar
  | abAb
  | abb
  | smlReal
  | keywords
  deriving DecidableEq

namespace Sample

def name : Sample → String
  | lit => "lit"
  | abStar => "ab-star"
  | abStarStar => "ab-star-star"
  | abAb => "ab-ab"
  | abb => "abb"
  | smlReal => "sml-real"
  | keywords => "keywords"

def all : List Sample := [lit, abStar, abStarStar, abAb, abb, smlReal, keywords]

def ofName? (s : String) : Option Sample := all.find? fun sample => sample.name = s

theorem ofName?_name (sample : Sample) : ofName? sample.name = some sample := by
  cases sample <;> decide

/-- The symbol of one letter. -/
def letter (c : Char) : Regex := .lit (String.singleton c)

/-- Any number of the letters a and b. -/
def anyAb : Regex := .star (.alt (.pair (letter 'a') (letter 'b')))

/-- Words over a and b that end in ab. -/
def endsInAb : Regex :=
  .cat (.pair anyAb (.cat (.pair (letter 'a') (letter 'b'))))

/-- A number with an optional sign, fraction and exponent. -/
def real : Regex :=
  let digits := (Regex.lit "digit").plus
  let sign := (Regex.lit "sign").opt
  let fraction := (Regex.cat (.pair (.lit ".") digits)).opt
  let mantissa := Regex.cat (.of sign digits [fraction])
  let exponent := (Regex.cat (.of (.lit "e") sign [digits])).opt
  .cat (.pair mantissa exponent)

/-- Four words of letters, a comma, or any other run of the letters they are made of. -/
def keyword : Regex :=
  let nearWord := Regex.cat (.of (letter 'N') (letter 'E') [letter 'A', letter 'R'])
  let notWord := Regex.cat (.of (letter 'N') (letter 'O') [letter 'T'])
  let andWord := Regex.cat (.of (letter 'A') (letter 'N') [letter 'D'])
  let orWord := Regex.cat (.pair (letter 'O') (letter 'R'))
  let other := Regex.alt
    (.of (letter 'A') (letter 'D')
      [letter 'N', letter 'E', letter 'R', letter 'O', letter 'T'])
  .alt (.of nearWord notWord [andWord, orWord, .lit ",", other.plus])

def regex : Sample → Regex
  | lit => letter 'A'
  | abStar => endsInAb
  | abStarStar => .star endsInAb
  | abAb => .cat (.pair endsInAb endsInAb)
  | abb => .cat (.pair anyAb (.cat (.of (letter 'a') (letter 'b') [letter 'b'])))
  | smlReal => real
  | keywords => keyword

end Sample

end Automata.CommandLine
