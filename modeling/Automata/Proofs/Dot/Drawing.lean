/-
# What a drawing shows

The drawing of a well-formed automaton shows the automaton and nothing else (`Dot.Graph.Shows`, `Dot.graph_shows`): one
node for each state and one before the start, each with its attributes, and the edges in their order.

Where a state stands among the nodes depends on where it is mentioned first, be it in its own turn or as the target of
an edge (`Dot.mentioned`).  The steps of a drawing mention more than that, the source of an edge again with every edge,
but what is mentioned again keeps its place, so only the first occurrences count (`Dot.keys_machine`).  A target is a
state too, whose turn comes; so every node that an edge has put there gets its attributes, if it does not have them
already.
-/
import Automata.Proofs.Dot.Machine

namespace Automata

namespace Dot

/-- An edge between two states with the text at it. -/
structure Arrow where
  source : Nat
  text : String
  target : Nat

/-- An edge as it is drawn. -/
def Arrow.edge (a : Arrow) : Edge := stateEdge a.source (a.text, a.target)

/-- The states in the order in which they are mentioned first: each in its turn, followed by the targets of its edges.
-/
def mentioned (states : List Nat) (arrows : List Arrow) : List Nat :=
  (states.flatMap fun s => s :: (arrows.filter (·.source = s)).map (·.target)).eraseDups

/-- The node of a state: it has two borders if and only if the state accepts. -/
def shownState (accepting : Nat → Bool) (s : Nat) : String × NodeAttributes :=
  (stateNode s, ⟨some (toString s), if accepting s then some "2" else none, none, none⟩)

/-- The invisible node before the start. -/
def shownStart : String × NodeAttributes := (startNode, ⟨some "", none, some "point", some "invis"⟩)

/-- What the graph of an automaton shows: its states, which of them accept, its edges and its start. -/
structure Graph.Shows (g : Graph) (states : List Nat) (accepting : Nat → Bool) (arrows : List Arrow) (start : Nat) :
    Prop where
  attributes : g.attributes = ⟨none, some "LR"⟩
  /-- The states take their turns by number. -/
  ascending : states.Pairwise (· < ·)
  /-- What is mentioned are the states, each once. -/
  mentions : (mentioned states arrows).Perm states
  /-- The nodes are those of the states in order of first mention and the one before the start. -/
  nodes : g.nodes.entries = (mentioned states arrows).map (shownState accepting) ++ [shownStart]
  /-- No node comes twice. -/
  distinct : g.nodes.keys.Nodup
  /-- The edges are those of the automaton and the one to the start. -/
  edges : g.edges.toList = arrows.map Arrow.edge ++ [⟨startNode, stateNode start, ∅⟩]

/-! ## Machines -/

namespace MachineState

variable (s : MachineState)

/-- The edges of a state. -/
def arrows : List Arrow := s.edges.map fun e => ⟨s.state, e.1, e.2⟩

/-- The state and the targets of its edges. -/
def mentions : List Nat := s.state :: s.edges.map Prod.snd

/-- The steps for a state mention it again with each edge, which does not matter. -/
theorem eraseDups_mentions_commands :
    (s.commands.flatMap Command.mentions).eraseDups = (s.mentions.map stateNode).eraseDups := by
  have hsteps : s.commands.flatMap Command.mentions =
      stateNode s.state :: s.edges.flatMap fun e => [stateNode s.state, stateNode e.2] := s.flatMap_commands _
  rw [hsteps, eraseDups_cons_flatMap, mentions, List.map_cons, List.map_map]
  rfl

theorem labels_commands : s.commands.flatMap Command.labels = [] := by
  rw [flatMap_commands]
  exact flatMap_nil_right s.edges

theorem rankdirs_commands : s.commands.flatMap Command.rankdirs = [] := by
  rw [flatMap_commands]
  exact flatMap_nil_right s.edges

end MachineState

section

variable {M : List MachineState} {start : Nat} {accepting : Nat → Bool}

theorem attributes_machine : (machine M start).attributes = ⟨none, some "LR"⟩ := by
  rw [machine_eq_build, Graph.attributes_build, flatMap_machineCommands, flatMap_machineCommands,
    funext MachineState.labels_commands, funext MachineState.rankdirs_commands, flatMap_nil_right]
  rfl

theorem keys_machine (hstart : start ∈ M.map MachineState.state) : (machine M start).nodes.keys =
    (M.flatMap MachineState.mentions).eraseDups.map stateNode ++ [startNode] := by
  have hstates : (M.flatMap fun s => s.commands.flatMap Command.mentions).eraseDups =
      ((M.flatMap MachineState.mentions).map stateNode).eraseDups := by
    rw [List.map_flatMap]
    exact eraseDups_flatMap_congr fun s _ => s.eraseDups_mentions_commands
  -- The edge to the start mentions a node that is there and a state whose turn has been.
  have hlast : [startNode, stateNode start] ⊆ (M.flatMap MachineState.mentions).map stateNode ++ [startNode] := by
    obtain ⟨s, hs, rfl⟩ := List.mem_map.1 hstart
    have hmem : s.state ∈ M.flatMap MachineState.mentions := List.mem_flatMap_of_mem hs List.mem_cons_self
    refine List.cons_subset.2 ⟨List.mem_append_right _ List.mem_cons_self, List.cons_subset.2 ⟨?_, List.nil_subset _⟩⟩
    exact List.mem_append_left _ (List.mem_map_of_mem hmem)
  have hfresh : startNode ∉ (M.flatMap MachineState.mentions).map stateNode := by
    intro hmem
    obtain ⟨s, -, hs⟩ := List.mem_map.1 hmem
    exact startNode_ne_stateNode s hs.symm
  calc (machine M start).nodes.keys
      = ((M.flatMap fun s => s.commands.flatMap Command.mentions) ++
          ([startNode] ++ [startNode, stateNode start])).eraseDups := by
        rw [machine_eq_build, Graph.keys_build, flatMap_machineCommands]
        rfl
    _ = ((M.flatMap MachineState.mentions).map stateNode ++ [startNode] ++
          [startNode, stateNode start]).eraseDups := by
        rw [eraseDups_append_congr hstates rfl, List.append_assoc]
    _ = (M.flatMap MachineState.mentions).eraseDups.map stateNode ++ [startNode] := by
        rw [eraseDups_append_of_subset hlast, eraseDups_append_singleton hfresh, eraseDups_map stateNode_injective]

theorem attributesOf_machine_startNode : (machine M start).attributesOf startNode = shownStart.2 := by
  have hstates : ∀ s : MachineState, s.commands.flatMap (Command.settingsAt startNode) = [] := fun s => by
    rw [s.settingsAt_commands, if_neg (startNode_ne_stateNode s.state).symm]
  rw [machine_eq_build, Graph.attributesOf_build, flatMap_machineCommands, funext hstates, flatMap_nil_right]
  rfl

theorem mentioned_arrows (hM : (M.map MachineState.state).Nodup) :
    mentioned (M.map MachineState.state) (M.flatMap MachineState.arrows) =
      (M.flatMap MachineState.mentions).eraseDups := by
  have hsource : ∀ s ∈ M, ∀ a ∈ s.arrows, a.source = s.state := by
    intro s _ a ha
    obtain ⟨e, -, rfl⟩ := List.mem_map.1 ha
    rfl
  rw [mentioned, List.flatMap_map]
  refine congrArg List.eraseDups (List.flatMap_congr fun s hs => ?_)
  rw [filter_flatMap_eq_of_mem hM hsource hs, MachineState.arrows, List.map_map]
  rfl

theorem mem_mentions_machine_iff (htargets : ∀ a ∈ M.flatMap MachineState.arrows, a.target ∈ M.map MachineState.state)
    {s : Nat} :
    s ∈ M.flatMap MachineState.mentions ↔ s ∈ M.map MachineState.state := by
  constructor
  · intro hs
    obtain ⟨m, hm, hs⟩ := List.mem_flatMap.1 hs
    rcases List.mem_cons.1 hs with rfl | hs
    · exact List.mem_map_of_mem hm
    · obtain ⟨e, he, rfl⟩ := List.mem_map.1 hs
      exact htargets ⟨m.state, e.1, e.2⟩ (List.mem_flatMap_of_mem hm (List.mem_map_of_mem he))
  · intro hs
    obtain ⟨m, hm, rfl⟩ := List.mem_map.1 hs
    exact List.mem_flatMap_of_mem hm List.mem_cons_self

/-- The graph of a machine shows its states and edges, if the start and all targets are states. -/
theorem shows_machine {states : List Nat} {arrows : List Arrow} (hstates : M.map MachineState.state = states)
    (harrows : M.flatMap MachineState.arrows = arrows) (hascending : states.Pairwise (· < ·)) (hstart : start ∈ states)
    (htargets : ∀ a ∈ arrows, a.target ∈ states) (haccepting : ∀ s ∈ M, accepting s.state = s.accepting) :
    (machine M start).Shows states accepting arrows start := by
  subst hstates harrows
  have hnodup : (M.map MachineState.state).Nodup := hascending.imp Nat.ne_of_lt
  have hmentioned := mentioned_arrows hnodup
  -- A node that an edge has put there is that of a state, so its attributes have been set or will be.
  have hmem : ∀ s, s ∈ (M.flatMap MachineState.mentions).eraseDups ↔ s ∈ M.map MachineState.state := fun s =>
    List.mem_eraseDups.trans (mem_mentions_machine_iff htargets)
  have hshown : ∀ s ∈ (M.flatMap MachineState.mentions).eraseDups,
      (stateNode s, (machine M start).attributesOf (stateNode s)) = shownState accepting s := by
    intro s hs
    obtain ⟨m, hm, rfl⟩ := List.mem_map.1 ((hmem s).1 hs)
    rw [attributesOf_machine_of_mem hnodup hm, shownState, haccepting m hm, stateAttributes]
    split <;> rfl
  refine ⟨attributes_machine, hascending, ?_, ?_, Roster.nodup_keys _, ?_⟩
  · rw [hmentioned]
    exact (List.perm_ext_iff_of_nodup (nodup_eraseDups _) hnodup).2 hmem
  · rw [hmentioned, Graph.entries_nodes, keys_machine hstart, List.map_append, List.map_map,
      ← List.map_congr_left hshown, List.map_singleton, attributesOf_machine_startNode]
    rfl
  · rw [edges_machine, List.map_flatMap]
    refine congrArg (· ++ _) (List.flatMap_congr fun s _ => ?_)
    rw [MachineState.arrows, List.map_map]
    rfl

end

end Dot

/-! ## Automata -/

open Dot

namespace Nfa

/-- The states of the automaton as they are drawn, `text` giving the texts of labels and of their absence. -/
def drawnStates (nfa : Nfa) (text : Option String → String) : List MachineState :=
  nfa.relation.toList.map fun (s, ts) => ⟨s, ts.map fun t => (text t.label, t.target), s = nfa.exit⟩

/-- The edges with their texts, in their order. -/
def arrows (nfa : Nfa) (text : Option String → String) : List Arrow :=
  nfa.edges.map fun e => ⟨e.source, text e.label, e.target⟩

variable (nfa : Nfa) (text : Option String → String)

theorem map_state_drawnStates : (nfa.drawnStates text).map MachineState.state = nfa.states := by
  rw [drawnStates, List.map_map, states, ← Std.ExtTreeMap.map_fst_toList_eq_keys]
  rfl

theorem flatMap_arrows_drawnStates : (nfa.drawnStates text).flatMap MachineState.arrows = nfa.arrows text := by
  rw [drawnStates, List.flatMap_map, arrows, edges, List.map_flatMap]
  refine List.flatMap_congr fun p _ => ?_
  rw [MachineState.arrows, List.map_map, List.map_map]
  rfl

theorem shows_machine {nfa : Nfa} (h : nfa.WellFormed) (text : Option String → String) :
    (machine (nfa.drawnStates text) nfa.start).Shows nfa.states (· = nfa.exit) (nfa.arrows text) nfa.start := by
  refine Dot.shows_machine (nfa.map_state_drawnStates text) (nfa.flatMap_arrows_drawnStates text)
    (Std.ExtTreeMap.ordered_keys.imp Nat.compare_eq_lt.1) (Std.ExtTreeMap.mem_keys.2 h.1) ?_ ?_
  · intro a ha
    obtain ⟨e, he, rfl⟩ := List.mem_map.1 ha
    exact Std.ExtTreeMap.mem_keys.2 (h.2.2 e he)
  · intro s hs
    obtain ⟨p, -, rfl⟩ := List.mem_map.1 hs
    rfl

end Nfa

namespace Dfa

/-- The states of the automaton as they are drawn, `format` giving the texts of symbols. -/
def drawnStates (dfa : Dfa) (format : String → String) : List MachineState :=
  dfa.relation.toList.map fun (s, row) =>
    ⟨s, row.toList.map fun (symbol, t) => (format symbol, t), dfa.isAccepting s⟩

/-- The edges with their texts, in their order. -/
def arrows (dfa : Dfa) (format : String → String) : List Arrow :=
  dfa.edges.map fun e => ⟨e.source, format e.label, e.target⟩

variable (dfa : Dfa) (format : String → String)

theorem map_state_drawnStates : (dfa.drawnStates format).map MachineState.state = dfa.states := by
  rw [drawnStates, List.map_map, states, ← Std.ExtTreeMap.map_fst_toList_eq_keys]
  rfl

theorem flatMap_arrows_drawnStates : (dfa.drawnStates format).flatMap MachineState.arrows = dfa.arrows format := by
  rw [drawnStates, List.flatMap_map, arrows, edges, List.map_flatMap]
  refine List.flatMap_congr fun p _ => ?_
  rw [MachineState.arrows, List.map_map, List.map_map]
  rfl

theorem shows_graph {dfa : Dfa} (h : dfa.WellFormed) (format : String → String) :
    (dfa.graph format).Shows dfa.states dfa.isAccepting (dfa.arrows format) dfa.start := by
  refine Dot.shows_machine (dfa.map_state_drawnStates format) (dfa.flatMap_arrows_drawnStates format)
    (Std.ExtTreeMap.ordered_keys.imp Nat.compare_eq_lt.1) (Std.ExtTreeMap.mem_keys.2 h.1) ?_ ?_
  · intro a ha
    obtain ⟨e, he, rfl⟩ := List.mem_map.1 ha
    exact Std.ExtTreeMap.mem_keys.2 (h.2.2 e he)
  · intro s hs
    obtain ⟨p, -, rfl⟩ := List.mem_map.1 hs
    rfl

end Dfa

namespace Dot

/-- The graph of a well-formed automaton shows the states, which of them accept, the edges with their texts and the
start, whatever texts the symbols have, and the missing labels of a nondeterministic automaton.  The usual text of a
missing label is that of epsilon. -/
theorem graph_shows :
    (∀ nfa : Nfa, nfa.WellFormed →
      (∀ text, (machine (nfa.drawnStates text) nfa.start).Shows nfa.states (· = nfa.exit) (nfa.arrows text) nfa.start) ∧
        ∀ format, (nfa.graph format).Shows nfa.states (· = nfa.exit)
          (nfa.arrows fun label => (label.map format).getD epsilonLabel) nfa.start) ∧
      ∀ dfa : Dfa, dfa.WellFormed → ∀ format,
        (dfa.graph format).Shows dfa.states dfa.isAccepting (dfa.arrows format) dfa.start := by
  constructor
  · intro nfa h
    exact ⟨Nfa.shows_machine h, fun format => Nfa.shows_machine h fun label => (label.map format).getD epsilonLabel⟩
  · intro dfa h format
    exact Dfa.shows_graph h format

/-- The exit is the target of two edges before its own turn comes, beside a loop and an edge back; so is the accepting
state of a deterministic automaton. -/
theorem graph_shows_forward :
    let A : Nfa := ⟨1, 2, .insert (.insert (.insert ∅ 0 [⟨some "a", 2⟩, ⟨none, 0⟩, ⟨some "a", 2⟩]) 1 [⟨none, 0⟩]) 2 []⟩
    let row : Std.ExtTreeMap String Nat := .insert (.insert ∅ "a" 2) "b" 0
    let D : Dfa := ⟨0, .insert ∅ 2, .insert (.insert (.insert ∅ 0 row) 1 ∅) 2 (.insert ∅ "a" 1)⟩
    (A.WellFormed ∧ (A.graph (· ++ "!")).nodes.entries =
      [("n0", ⟨some "0", none, none, none⟩), ("n2", ⟨some "2", some "2", none, none⟩),
        ("n1", ⟨some "1", none, none, none⟩), ("_start", ⟨some "", none, some "point", some "invis"⟩)] ∧
      (A.graph (· ++ "!")).edges.toList =
        [⟨"n0", "n2", ⟨some "a!", none⟩⟩, ⟨"n0", "n0", ⟨some "ϵ", none⟩⟩, ⟨"n0", "n2", ⟨some "a!", none⟩⟩,
          ⟨"n1", "n0", ⟨some "ϵ", none⟩⟩, ⟨"_start", "n1", ∅⟩]) ∧
      D.WellFormed ∧ (D.graph id).nodes.keys = ["n0", "n2", "n1", "_start"] := by
  intro A row D
  have hA : A.WellFormed := by decide +kernel
  have hD : D.WellFormed := by decide +kernel
  have hshowsA := (graph_shows.1 A hA).2 (· ++ "!")
  have hshowsD := graph_shows.2 D hD id
  refine ⟨⟨hA, hshowsA.nodes.trans ?_, hshowsA.edges.trans ?_⟩, hD, ?_⟩
  · decide +kernel
  · decide +kernel
  · rw [Roster.keys, hshowsD.nodes]
    decide +kernel

end Dot

end Automata
