/-
# DOT text

A graph in the language DOT, on one line: the attributes of the graph, then the nodes, then the edges, each
closed by a semicolon.  Identifiers and values are quoted; the attributes that are set come in alphabetical
order.
-/
import Automata.Dot.Graph
import Automata.Text.Quoted

namespace Automata.Dot

/-- The attributes that are set, as keys and values in the order given. -/
def settings : List (String × Option String) → List (String × String)
  | [] => []
  | (key, some value) :: rest => (key, value) :: settings rest
  | (_, none) :: rest => settings rest

/-- The attributes that are set, by ascending key. -/
def GraphAttributes.settings (a : GraphAttributes) : List (String × String) :=
  Dot.settings [("label", a.label), ("rankdir", a.rankdir)]

/-- The attributes that are set, by ascending key. -/
def NodeAttributes.settings (a : NodeAttributes) : List (String × String) :=
  Dot.settings
    [("label", a.label), ("peripheries", a.peripheries), ("shape", a.shape), ("style", a.style)]

/-- The attributes that are set, by ascending key. -/
def EdgeAttributes.settings (a : EdgeAttributes) : List (String × String) :=
  Dot.settings [("label", a.label), ("style", a.style)]

variable (escaped : Char → Bool)

/-- One key with its value. -/
def settingText (s : String × String) : List Char :=
  s.1.toList ++ '=' :: Text.quoted escaped s.2

/-- The settings of a node or an edge; nothing if there are none. -/
def settingsText : List (String × String) → List Char
  | [] => []
  | s :: rest =>
      '[' :: (settingText escaped s
        ++ (rest.flatMap fun s => ',' :: settingText escaped s) ++ [']'])

def nodeText (n : String × NodeAttributes) : List Char :=
  Text.quoted escaped n.1 ++ settingsText escaped n.2.settings ++ [';']

def edgeText (e : Edge) : List Char :=
  Text.quoted escaped e.source ++ '-' :: '>' :: Text.quoted escaped e.target
    ++ settingsText escaped e.attributes.settings ++ [';']

def Graph.text (g : Graph) : List Char :=
  "digraph \x7b".toList
    ++ (g.attributes.settings.flatMap fun s => settingText escaped s ++ [';'])
    ++ g.nodes.entries.flatMap (nodeText escaped)
    ++ g.edges.toList.flatMap (edgeText escaped)
    ++ ['\x7d']

/-- The text of a graph, with the usual characters written by code point. -/
def Graph.display (g : Graph) : String := String.ofList (g.text Text.isEscaped)

end Automata.Dot
