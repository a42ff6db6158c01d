/-
# Directed graphs with attributes

A graph as it is put together for drawing: attributes of the whole, nodes with attributes, edges with
attributes.  A node is there from the first time it is mentioned, as itself or as an end of an edge, and keeps
its place; to set an attribute again is to overwrite it.  Edges are kept in the order in which they were added
and never merged.
-/
import Automata.Roster

namespace Automata.Dot

structure GraphAttributes where
  label : Option String
  rankdir : Option String
  deriving DecidableEq

structure NodeAttributes where
  label : Option String
  peripheries : Option String
  shape : Option String
  style : Option String
  deriving DecidableEq

structure EdgeAttributes where
  label : Option String
  style : Option String
  deriving DecidableEq

instance : EmptyCollection GraphAttributes := ⟨⟨none, none⟩⟩

instance : EmptyCollection NodeAttributes := ⟨⟨none, none, none, none⟩⟩

instance : EmptyCollection EdgeAttributes := ⟨⟨none, none⟩⟩

structure Edge where
  source : String
  target : String
  attributes : EdgeAttributes
  deriving DecidableEq

structure Graph where
  attributes : GraphAttributes
  /-- The nodes in order of first mention. -/
  nodes : Roster String NodeAttributes
  /-- The edges in order of addition. -/
  edges : Array Edge
  deriving DecidableEq

namespace Graph

def empty : Graph := ⟨∅, ∅, #[]⟩

/-- Mentions a node. -/
def mention (id : String) (g : Graph) : Graph :=
  { g with nodes := g.nodes.upsert id (·.getD ∅) }

/-- Mentions a node and changes its attributes. -/
def node (id : String) (change : NodeAttributes → NodeAttributes) (g : Graph) : Graph :=
  { g with nodes := g.nodes.upsert id fun attributes => change (attributes.getD ∅) }

/-- Mentions both ends and adds an edge between them. -/
def edge (source target : String) (attributes : EdgeAttributes) (g : Graph) : Graph :=
  let g := (g.mention source).mention target
  { g with edges := g.edges.push ⟨source, target, attributes⟩ }

end Graph

/-! ## Building a graph step by step -/

/-- The attributes of nodes that can be set. -/
inductive NodeKey where
  | style
  | shape
  | label
  | peripheries
  deriving DecidableEq

/-- The attributes of edges that can be set. -/
inductive EdgeKey where
  | style
  | label
  deriving DecidableEq

/-- Sets one attribute. -/
def NodeAttributes.set (a : NodeAttributes) (key : NodeKey) (value : String) : NodeAttributes :=
  match key with
  | .style => { a with style := some value }
  | .shape => { a with shape := some value }
  | .label => { a with label := some value }
  | .peripheries => { a with peripheries := some value }

/-- Sets one attribute. -/
def EdgeAttributes.set (a : EdgeAttributes) (key : EdgeKey) (value : String) : EdgeAttributes :=
  match key with
  | .style => { a with style := some value }
  | .label => { a with label := some value }

/-- One step in building a graph. -/
inductive Command where
  | label (value : String)
  /-- Sets the direction in which the graph is laid out. -/
  | rankdir (value : String)
  /-- Mentions a node and sets attributes of it, first to last. -/
  | node (id : String) (settings : List (NodeKey × String))
  /-- Adds an edge and sets attributes of it, first to last. -/
  | edge (source target : String) (settings : List (EdgeKey × String))
  deriving DecidableEq

namespace Graph

/-- The graph after one step. -/
def apply (g : Graph) : Command → Graph
  | .label value => { g with attributes := { g.attributes with label := some value } }
  | .rankdir value => { g with attributes := { g.attributes with rankdir := some value } }
  | .node id settings =>
      g.node id fun a => settings.foldl (fun a (key, value) => a.set key value) a
  | .edge source target settings =>
      g.edge source target (settings.foldl (fun a (key, value) => a.set key value) ∅)

/-- The graph that a list of steps builds. -/
def build (commands : List Command) : Graph := commands.foldl apply empty

end Graph

end Automata.Dot
