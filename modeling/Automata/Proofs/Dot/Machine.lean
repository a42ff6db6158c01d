/-
# Reading machines off their graphs

In the graph of a machine the nodes do not lie in the order of the states, since a state may be mentioned as the target
of an edge before its own turn comes.  But every node keeps its attributes when it is mentioned again, and only the
states have a label, so a state and whether it accepts can be seen at its node, and its edges, in their order and with
their repeats, are those of the graph that start there (`Dot.mem_iff_machine`).  The last edge shows the start.

A machine is drawn step by step (`Dot.machine_eq_build`), so its graph holds what these steps add and set.

Hence machines whose states are listed by number are equal if their graphs are (`Dot.machine_inj`).
-/
import Std.Data.String.ToNat
import Automata.Dot.Machine
import Automata.Proofs.Dot.Building

namespace Automata

namespace Dot

/-! ## Nodes of states -/

theorem stateNode_inj {s t : Nat} : stateNode s = stateNode t ↔ s = t := by
  rw [stateNode, stateNode, String.append_right_inj]
  exact Nat.repr_inj

theorem stateNode_injective : Function.Injective stateNode := fun _ _ => stateNode_inj.1

theorem startNode_ne_stateNode (s : Nat) : startNode ≠ stateNode s := by
  intro h
  have hlist := congrArg String.toList h
  rw [stateNode, String.toList_append] at hlist
  exact absurd (List.cons.inj hlist).1 (by decide)

theorem label_stateAttributes (s : MachineState) (a : NodeAttributes) :
    (stateAttributes s a).label = some (toString s.state) := by
  unfold stateAttributes
  split <;> rfl

theorem accepting_of_stateAttributes_eq {s t : MachineState} (h : stateAttributes s ∅ = stateAttributes t ∅) :
    s.accepting = t.accepting := by
  have hborders : ∀ s : MachineState, (stateAttributes s ∅).peripheries = if s.accepting then some "2" else none := by
    intro s
    unfold stateAttributes
    split <;> rfl
  have heq := congrArg NodeAttributes.peripheries h
  rw [hborders, hborders] at heq
  cases hs : s.accepting <;> cases ht : t.accepting <;> simp_all

/-- An edge of a state as it is drawn. -/
def stateEdge (s : Nat) (e : String × Nat) : Edge := ⟨stateNode s, stateNode e.2, ⟨some e.1, none⟩⟩

theorem stateEdge_injective (s : Nat) : Function.Injective (stateEdge s) := by
  rintro ⟨l, t⟩ ⟨l', t'⟩ h
  obtain ⟨-, htarget, hattributes⟩ := Edge.mk.inj h
  exact Prod.ext (Option.some.inj (EdgeAttributes.mk.inj hattributes).1) (stateNode_inj.1 htarget)

/-! ## The steps of a drawing -/

namespace MachineState

/-- What is set at the node of a state. -/
def settings (s : MachineState) : List (NodeKey × String) :=
  (.label, toString s.state) :: if s.accepting then [(.peripheries, "2")] else []

/-- The steps that add a state and its edges. -/
def commands (s : MachineState) : List Command :=
  .node (stateNode s.state) s.settings ::
    s.edges.map fun e => .edge (stateNode s.state) (stateNode e.2) [(.label, e.1)]

variable (s : MachineState) (k : String)

theorem setAll_settings (a : NodeAttributes) : a.setAll s.settings = stateAttributes s a := by
  unfold settings stateAttributes
  split <;> rfl

theorem flatMap_commands {β : Type} (f : Command → List β) : s.commands.flatMap f =
    f (.node (stateNode s.state) s.settings) ++
      s.edges.flatMap fun e => f (.edge (stateNode s.state) (stateNode e.2) [(.label, e.1)]) := by
  rw [commands, List.flatMap_cons, List.flatMap_map]

theorem edges_commands : s.commands.flatMap Command.edges = s.edges.map (stateEdge s.state) := by
  rw [flatMap_commands, List.map_eq_flatMap]
  rfl

theorem settingsAt_commands :
    s.commands.flatMap (Command.settingsAt k) = if stateNode s.state = k then s.settings else [] := by
  rw [flatMap_commands]
  exact (congrArg _ (flatMap_nil_right s.edges)).trans (List.append_nil _)

end MachineState

theorem addState_eq_foldl (g : Graph) (s : MachineState) : addState g s = s.commands.foldl Graph.apply g := by
  rw [MachineState.commands, List.foldl_cons, List.foldl_map, addState, ← funext (MachineState.setAll_settings s)]
  rfl

/-- What is set at the node before the start. -/
def startSettings : List (NodeKey × String) := [(.style, "invis"), (.shape, "point"), (.label, "")]

/-- The steps that draw a machine. -/
def machineCommands (M : List MachineState) (start : Nat) : List Command :=
  .rankdir "LR" :: M.flatMap MachineState.commands ++
    [.node startNode startSettings, .edge startNode (stateNode start) []]

variable {M N : List MachineState} {start start' : Nat} {m : MachineState}

theorem machine_eq_build (M : List MachineState) (start : Nat) :
    machine M start = Graph.build (machineCommands M start) := by
  rw [Graph.build, machineCommands, List.cons_append, List.foldl_cons, List.foldl_append, List.foldl_flatMap,
    ← funext₂ addState_eq_foldl]
  rfl

theorem flatMap_machineCommands {β : Type} (f : Command → List β) : (machineCommands M start).flatMap f =
    f (.rankdir "LR") ++ (M.flatMap fun s => s.commands.flatMap f) ++
      (f (.node startNode startSettings) ++ f (.edge startNode (stateNode start) [])) := by
  rw [machineCommands, List.flatMap_append, List.flatMap_cons, List.flatMap_assoc, List.flatMap_cons,
    List.flatMap_cons, List.flatMap_nil, List.append_nil]

/-! ## The graph of a machine -/

theorem edges_machine (M : List MachineState) (start : Nat) : (machine M start).edges.toList =
    (M.flatMap fun s => s.edges.map (stateEdge s.state)) ++ [⟨startNode, stateNode start, ∅⟩] := by
  rw [machine_eq_build, Graph.edges_build, flatMap_machineCommands, funext MachineState.edges_commands]
  rfl

theorem attributesOf_machine (M : List MachineState) (start s : Nat) : (machine M start).attributesOf (stateNode s) =
    NodeAttributes.setAll ∅ (M.flatMap fun t => if t.state = s then t.settings else []) := by
  have hstates : ∀ t : MachineState, t.commands.flatMap (Command.settingsAt (stateNode s)) =
      if t.state = s then t.settings else [] := by
    intro t
    rw [t.settingsAt_commands]
    simp only [stateNode_inj]
  have hlast : Command.settingsAt (stateNode s) (.node startNode startSettings) = [] := by
    rw [Command.settingsAt, if_neg (startNode_ne_stateNode s)]
  rw [machine_eq_build, Graph.attributesOf_build, flatMap_machineCommands, funext hstates, hlast]
  exact congrArg _ (List.append_nil _)

theorem attributesOf_machine_of_mem (hM : (M.map MachineState.state).Nodup) (hm : m ∈ M) :
    (machine M start).attributesOf (stateNode m.state) = stateAttributes m ∅ := by
  rw [attributesOf_machine, flatMap_ite_eq_of_mem hM hm, m.setAll_settings]

theorem mem_of_label_attributesOf_machine (start : Nat) {s : Nat}
    (h : ((machine M start).attributesOf (stateNode s)).label ≠ none) : s ∈ M.map MachineState.state := by
  by_contra hs
  refine h ?_
  rw [attributesOf_machine, List.flatMap_eq_nil_iff.2]
  · rfl
  · intro t ht
    rw [if_neg]
    rintro rfl
    exact hs (List.mem_map_of_mem ht)

/-- The edges that start at a node. -/
def Graph.edgesFrom (g : Graph) (id : String) : List Edge := g.edges.toList.filter (·.source = id)

theorem edgesFrom_machine_of_mem (hM : (M.map MachineState.state).Nodup) (hm : m ∈ M) :
    (machine M start).edgesFrom (stateNode m.state) = m.edges.map (stateEdge m.state) := by
  have hnodup : (M.map fun s => stateNode s.state).Nodup := by
    have := hM.map stateNode_injective
    rwa [List.map_map] at this
  have hsource : ∀ s ∈ M, ∀ e ∈ s.edges.map (stateEdge s.state), e.source = stateNode s.state := by
    intro s _ e he
    obtain ⟨e, -, rfl⟩ := List.mem_map.1 he
    rfl
  have hlast : [(⟨startNode, stateNode start, ∅⟩ : Edge)].filter (·.source = stateNode m.state) = [] := by
    simp [startNode_ne_stateNode]
  rw [Graph.edgesFrom, edges_machine, List.filter_append, hlast, List.append_nil]
  exact filter_flatMap_eq_of_mem hnodup hsource hm

/-- A machine state can be read off the graph: at its node and the edges that start there. -/
theorem mem_iff_machine (start : Nat) (hM : (M.map MachineState.state).Nodup) : m ∈ M ↔
    (machine M start).attributesOf (stateNode m.state) = stateAttributes m ∅ ∧
      (machine M start).edgesFrom (stateNode m.state) = m.edges.map (stateEdge m.state) := by
  constructor
  · exact fun hm => ⟨attributesOf_machine_of_mem hM hm, edgesFrom_machine_of_mem hM hm⟩
  · rintro ⟨hattributes, hedges⟩
    have hstate : m.state ∈ M.map MachineState.state := by
      apply mem_of_label_attributesOf_machine start
      rw [hattributes, label_stateAttributes]
      exact Option.some_ne_none _
    obtain ⟨m', hm', heq⟩ := List.mem_map.1 hstate
    rw [← heq, attributesOf_machine_of_mem hM hm'] at hattributes
    rw [← heq, edgesFrom_machine_of_mem hM hm'] at hedges
    have haccepting := accepting_of_stateAttributes_eq hattributes
    have hes := (stateEdge_injective _).list_map hedges
    cases m
    cases m'
    simp_all

/-- The graph of a machine determines the states, if they are listed by number, and the start. -/
theorem machine_inj (hM : M.Pairwise (·.state < ·.state)) (hN : N.Pairwise (·.state < ·.state))
    (h : machine M start = machine N start') : M = N ∧ start = start' := by
  have hnodup : ∀ {M : List MachineState}, M.Pairwise (·.state < ·.state) → (M.map MachineState.state).Nodup :=
    fun hM => List.pairwise_map.2 (hM.imp Nat.ne_of_lt)
  constructor
  · have : Std.Irrefl fun a b : MachineState => a.state < b.state := ⟨fun a => Nat.lt_irrefl a.state⟩
    refine hM.eq_of_mem_iff hN fun m => ?_
    rw [mem_iff_machine start (hnodup hM), h, ← mem_iff_machine start' (hnodup hN)]
  · have hedges := congrArg (fun g => g.edges.toList) h
    simp only [edges_machine] at hedges
    have hlast := List.singleton_inj.1 (List.append_inj' hedges rfl).2
    exact stateNode_inj.1 (Edge.mk.inj hlast).2.1

end Dot

end Automata
