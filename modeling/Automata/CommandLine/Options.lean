/-
# Options

What the arguments of the command line ask for.  Their tokens are read from first to last.  The first that is
wrong ends the reading, and so does the request for the version.  An option may be given once, but the one for
more reports as often as one likes.  The number of the first state may also come from outside; that text is
looked at only when the option is absent.
-/
import Automata.CommandLine.Sample
import Automata.CommandLine.Token
import Automata.NameSupply

namespace Automata.CommandLine

/-- How an automaton is printed. -/
inductive Format where
  /-- Its states of note, then every edge on a line. -/
  | summary
  /-- The DOT text of its drawing. -/
  | dot
  deriving DecidableEq

def Format.ofName? : String → Option Format
  | "summary" => some .summary
  | "dot" => some .dot
  | _ => none

/-- The number that a text of decimal digits, with or without a plus sign in front, stands for. -/
def decimal? (s : String) : Option Nat :=
  let digits := match s.toList with
    | '+' :: rest => rest
    | cs => cs
  if digits = [] then none
  else if digits.all Char.isDigit then
    some (digits.foldl (fun n c => 10 * n + (c.toNat - '0'.toNat)) 0)
  else none

/-- The supply that starts at the number a text stands for. -/
def supply? (s : String) : Option StateSupply :=
  (decimal? s).bind (NameSupply.startingAt? lastState)

/-- What has been asked for so far. -/
structure Options where
  sample : Option Sample
  format : Option Format
  nfa : Bool
  supply : Option StateSupply
  verbosity : Nat
  deriving DecidableEq

def Options.none : Options := ⟨.none, .none, false, .none, 0⟩

/-- What the command line asks for. -/
inductive Request where
  | version
  /-- A sample, made into an automaton with states from `supply`, which is printed in some format; the
  nondeterministic one if `nfa` holds. -/
  | print (sample : Sample) (format : Format) (nfa : Bool) (supply : StateSupply)
  deriving DecidableEq

/-- The options with one more value. -/
def Options.set (o : Options) (option : ValueOption) (value : String) :
    Except UsageError Options :=
  match option with
  | .sample =>
      if o.sample.isSome then .error (.repeatedOption option.name)
      else match Sample.ofName? value with
        | some sample => .ok { o with sample := some sample }
        | .none => .error (.invalidValue option value)
  | .format =>
      if o.format.isSome then .error (.repeatedOption option.name)
      else match Format.ofName? value with
        | some format => .ok { o with format := some format }
        | .none => .error (.invalidValue option value)
  | .firstState =>
      if o.supply.isSome then .error (.repeatedOption option.name)
      else match supply? value with
        | some supply => .ok { o with supply := some supply }
        | .none => .error (.invalidValue option value)

/-- The request that the options amount to, `outside` being the text that stands in for the option of the first
state. -/
def Options.request (o : Options) (outside : Option String) : Except UsageError Request :=
  let print := Request.print (o.sample.getD .abStar) (o.format.getD .summary) o.nfa
  match o.supply, outside with
  | some supply, _ => .ok (print supply)
  | .none, .none => .ok (print .initial)
  | .none, some text =>
      match supply? text with
      | some supply => .ok (print supply)
      | .none => .error (.invalidValue .firstState text)

/-- Reads the tokens, given what has been asked for before them. -/
def readTokens (outside : Option String) : List Token → Options → Except UsageError Request
  | [], o => o.request outside
  | .verbose :: rest, o => readTokens outside rest { o with verbosity := o.verbosity + 1 }
  | .nfa :: rest, o =>
      if o.nfa then .error (.repeatedOption "nfa")
      else readTokens outside rest { o with nfa := true }
  | .version :: _, _ => .ok .version
  | .option option value :: rest, o =>
      match o.set option value with
      | .ok o => readTokens outside rest o
      | .error e => .error e
  | .wrong e :: _, _ => .error e

/-- The request that the arguments make. -/
def request (arguments : List String) (outside : Option String) : Except UsageError Request :=
  readTokens outside (tokens arguments) .none

end Automata.CommandLine
