/-
# Tokens of the command line

Arguments are cut into tokens.  A long option is `--name`, with its value after an equals sign or as the next
argument; short options may stand together behind one dash, and the first of them that takes a value takes the
rest of the argument, or the next one if there is no rest.  An argument that starts with a dash is never taken
for the value of the option before it, except the dash alone.  Nothing may follow `--`.
-/

namespace Automata.CommandLine

/-- An option that takes a value. -/
inductive ValueOption where
  | sample
  | format
  | firstState
  deriving DecidableEq

def ValueOption.name : ValueOption → String
  | .sample => "sample"
  | .format => "format"
  | .firstState => "first-state"

/-- What is wrong with the arguments. -/
inductive UsageError where
  | unknownOption (text : String)
  | unexpectedArgument (text : String)
  | unexpectedValue (option : String)
  | missingValue (option : ValueOption)
  | invalidValue (option : ValueOption) (value : String)
  | repeatedOption (option : String)
  deriving DecidableEq

def UsageError.message : UsageError → String
  | .unknownOption text => "unknown option: " ++ text
  | .unexpectedArgument text => "unexpected argument: " ++ text
  | .unexpectedValue option => "option takes no value: --" ++ option
  | .missingValue option => "option needs a value: --" ++ option.name
  | .invalidValue option value => "invalid value for --" ++ option.name ++ ": " ++ value
  | .repeatedOption option => "option given twice: --" ++ option

/-- One thing that the arguments say. -/
inductive Token where
  | verbose
  | nfa
  | version
  | option (option : ValueOption) (value : String)
  | wrong (e : UsageError)
  deriving DecidableEq

/-- The tokens of one argument, and the option at its end that still needs a value. -/
abbrev Tokens := List Token × Option ValueOption

/-- The long option with a given name, its value attached or not. -/
def longOption (name : String) (value : Option String) : Tokens :=
  let flag (t : Token) : Tokens :=
    match value with
    | none => ([t], none)
    | some _ => ([.wrong (.unexpectedValue name)], none)
  let taking (o : ValueOption) : Tokens :=
    match value with
    | none => ([], some o)
    | some v => ([.option o v], none)
  match name with
  | "verbose" => flag .verbose
  | "nfa" => flag .nfa
  | "version" => flag .version
  | "sample" => taking .sample
  | "format" => taking .format
  | "first-state" => taking .firstState
  | _ => ([.wrong (.unknownOption ("--" ++ name))], none)

/-- A short option with a value, given the rest of its argument. -/
def shortValue (o : ValueOption) : List Char → Tokens
  | [] => ([], some o)
  | '=' :: value => ([.option o (String.ofList value)], none)
  | value => ([.option o (String.ofList value)], none)

/-- Short options behind one dash. -/
def shortOptions : List Char → Tokens
  | [] => ([], none)
  | 'v' :: rest => let (ts, pending) := shortOptions rest; (.verbose :: ts, pending)
  | 'V' :: rest => let (ts, pending) := shortOptions rest; (.version :: ts, pending)
  | 's' :: rest => shortValue .sample rest
  | 'f' :: rest => shortValue .format rest
  | c :: _ => ([.wrong (.unknownOption (String.ofList ['-', c]))], none)

/-- Whether an argument can be taken as the value of the option before it. -/
def isValue (argument : String) : Bool :=
  match argument.toList with
  | '-' :: _ :: _ => false
  | _ => true

/-- The tokens of one argument other than `--`. -/
def argumentTokens (argument : String) : Tokens :=
  match argument.toList with
  | '-' :: '-' :: body =>
      let name := String.ofList (body.takeWhile (· ≠ '='))
      match body.dropWhile (· ≠ '=') with
      | [] => longOption name none
      | _ :: value => longOption name (some (String.ofList value))
  | '-' :: c :: rest => shortOptions (c :: rest)
  | _ => ([.wrong (.unexpectedArgument argument)], none)

def tokens : List String → List Token
  | [] => []
  | "--" :: rest =>
      match rest with
      | [] => []
      | argument :: _ => [.wrong (.unexpectedArgument argument)]
  | argument :: rest =>
      match argumentTokens argument with
      | (ts, none) => ts ++ tokens rest
      | (ts, some o) =>
          match rest with
          | [] => ts ++ [.wrong (.missingValue o)]
          | value :: rest =>
              if isValue value then ts ++ .option o value :: tokens rest
              else ts ++ [.wrong (.missingValue o)]

end Automata.CommandLine
