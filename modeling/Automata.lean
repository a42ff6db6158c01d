import Automata.Bijection.Name
import Automata.Main
import Automata.Nfa.Path
import Automata.Regex.Display
import Automata.Regex.Language
import Automata.Regex.Program
import Automata.Session
import Automata.Proofs.Paths
import Automata.Proofs.Landings
import Automata.Proofs.Saturation
import Automata.Proofs.Saturation.Queue
import Automata.Proofs.Closure
import Automata.Proofs.Bijection
import Automata.Proofs.Bijection.Runs
import Automata.Proofs.Bijection.Batches
import Automata.Proofs.Text.Quoted
import Automata.Proofs.Regex.Leaves
import Automata.Proofs.Regex.Rewriting
import Automata.Proofs.Regex.Flat
import Automata.Proofs.Regex.Tokens
import Automata.Proofs.Regex.Reading
import Automata.Proofs.Listing
import Automata.Proofs.Thompson.Blueprint
import Automata.Proofs.Thompson.Recursive
import Automata.Proofs.Thompson.Drawing
import Automata.Proofs.Thompson.Language
import Automata.Proofs.Thompson.Trim
import Automata.Proofs.Thompson.Stages
import Automata.Proofs.Thompson.Safety
import Automata.Proofs.Thompson.Rules
import Automata.Proofs.Thompson.Leaves
import Automata.Proofs.Subset.Composite
import Automata.Proofs.Subset.Exploration
import Automata.Proofs.Subset.Numbering
import Automata.Proofs.Subset.Structure
import Automata.Proofs.Subset.Language
import Automata.Proofs.Subset.Order
import Automata.Proofs.Subset.Queue
import Automata.Proofs.Subset.Safety
import Automata.Proofs.Subset.Alike
import Automata.Proofs.Subset.Renaming
import Automata.Proofs.Recognition
import Automata.Proofs.Dfa.Words
import Automata.Proofs.Dfa.Canonical
import Automata.Proofs.Regex.Alternation
import Automata.Proofs.Regex.Redundancy
import Automata.Proofs.Sharing
import Automata.Proofs.Thompson.Shift
import Automata.Proofs.Thompson.Literals
import Automata.Proofs.Positional
import Automata.Proofs.Dot.Text
import Automata.Proofs.Dot.Building
import Automata.Proofs.Dot.Machine
import Automata.Proofs.Dot.Drawing
import Automata.Proofs.Dot.Automaton
import Automata.Proofs.Thompson.Splicing
import Automata.Proofs.Thompson.Census
import Automata.Proofs.Subset.Log
import Automata.Proofs.Alphabet
