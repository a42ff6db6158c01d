/-
# What builds a graph

What a list of steps leaves in a graph can be said without following the steps: the nodes are those that were mentioned,
in the order in which they first came (`Graph.keys_build`); a node has the attributes that the steps for it set one
after the other, no matter what came between (`Graph.attributesOf_build`); the edges are those that were added
(`Graph.edges_build`); and the graph itself has the attributes that were set last (`Graph.attributes_build`).

The text shows all of this and nothing more: two lists of steps lead to the same text if and only if they lead to the
same attributes, nodes and edges (`Graph.text_build_eq_iff`).
-/
import Automata.Proofs.Dot.Text
import Automata.Proofs.Listing

namespace Automata

namespace Dot

/-! ## Single steps -/

namespace Command

/-- The nodes that a step mentions. -/
def mentions : Command → List String
  | label _ => []
  | rankdir _ => []
  | node id _ => [id]
  | edge source target _ => [source, target]

/-- The edges that a step adds. -/
def edges : Command → List Edge
  | edge source target settings => [⟨source, target, settings.foldl (fun a (key, value) => a.set key value) ∅⟩]
  | _ => []

/-- What a step sets at a node, first to last. -/
def settingsAt (k : String) : Command → List (NodeKey × String)
  | node id settings => if id = k then settings else []
  | _ => []

/-- The labels that a step gives to the graph. -/
def labels : Command → List String
  | label value => [value]
  | _ => []

/-- The directions that a step gives to the layout. -/
def rankdirs : Command → List String
  | rankdir value => [value]
  | _ => []

end Command

/-- The attributes after settings, first to last. -/
def NodeAttributes.setAll (a : NodeAttributes) (settings : List (NodeKey × String)) : NodeAttributes :=
  settings.foldl (fun a (key, value) => a.set key value) a

namespace Graph

variable (g : Graph) (k : String) (c : Command)

/-- The attributes of a node; none are set if there is no such node. -/
def attributesOf (id : String) : NodeAttributes := (g.nodes.get? id).getD ∅

theorem entries_nodes : g.nodes.entries = g.nodes.keys.map fun k => (k, g.attributesOf k) :=
  Roster.entries_eq_map_keys ∅

theorem keys_mention (id : String) : (g.mention id).nodes.keys = (g.nodes.keys ++ [id]).eraseDups :=
  Roster.keys_upsert_eq_eraseDups _

theorem keys_apply : (g.apply c).nodes.keys = (g.nodes.keys ++ c.mentions).eraseDups := by
  cases c with
  | label value => exact ((congrArg _ (List.append_nil _)).trans (eraseDups_of_nodup g.nodes.nodup_keys)).symm
  | rankdir value => exact ((congrArg _ (List.append_nil _)).trans (eraseDups_of_nodup g.nodes.nodup_keys)).symm
  | node id settings => exact Roster.keys_upsert_eq_eraseDups _
  | edge source target settings =>
      show ((g.mention source).mention target).nodes.keys = _
      rw [keys_mention, keys_mention, eraseDups_append_eraseDups, List.append_assoc]
      rfl

theorem edges_apply : (g.apply c).edges.toList = g.edges.toList ++ c.edges := by
  cases c with
  | label value => exact (List.append_nil _).symm
  | rankdir value => exact (List.append_nil _).symm
  | node id settings => exact (List.append_nil _).symm
  | edge source target settings => exact Array.toList_push

theorem attributesOf_mention (id : String) : (g.mention id).attributesOf k = g.attributesOf k := by
  rw [attributesOf, mention, Roster.get?_upsert]
  split
  · next hk => rw [← hk]; rfl
  · rfl

theorem attributesOf_apply : (g.apply c).attributesOf k = (g.attributesOf k).setAll (c.settingsAt k) := by
  cases c with
  | label value => rfl
  | rankdir value => rfl
  | node id settings =>
      rw [attributesOf, apply, node, Roster.get?_upsert, Command.settingsAt]
      split
      · next hk => rw [← hk]; rfl
      · rfl
  | edge source target settings =>
      show ((g.mention source).mention target).attributesOf k = _
      rw [attributesOf_mention, attributesOf_mention]
      rfl

theorem attributes_apply : (g.apply c).attributes =
    ⟨c.labels.getLast?.or g.attributes.label, c.rankdirs.getLast?.or g.attributes.rankdir⟩ := by
  cases c <;> rfl

/-! ## Lists of steps -/

variable (cs : List Command)

theorem keys_foldl_apply : (cs.foldl apply g).nodes.keys = (g.nodes.keys ++ cs.flatMap Command.mentions).eraseDups := by
  induction cs generalizing g with
  | nil => rw [List.flatMap_nil, List.append_nil, eraseDups_of_nodup g.nodes.nodup_keys]; rfl
  | cons c cs ih =>
      rw [List.foldl_cons, ih, keys_apply, eraseDups_append_eraseDups, List.flatMap_cons, List.append_assoc]

theorem keys_build : (build cs).nodes.keys = (cs.flatMap Command.mentions).eraseDups :=
  keys_foldl_apply empty cs

theorem edges_build : (build cs).edges.toList = cs.flatMap Command.edges := by
  suffices h : ∀ g : Graph, (cs.foldl apply g).edges.toList = g.edges.toList ++ cs.flatMap Command.edges from h empty
  intro g
  induction cs generalizing g with
  | nil => exact (List.append_nil _).symm
  | cons c cs ih => rw [List.foldl_cons, ih, edges_apply, List.flatMap_cons, List.append_assoc]

/-- A node has what the steps for it set, one after the other. -/
theorem attributesOf_build :
    (build cs).attributesOf k = NodeAttributes.setAll ∅ (cs.flatMap (Command.settingsAt k)) := by
  suffices h : ∀ g : Graph, (cs.foldl apply g).attributesOf k =
      (g.attributesOf k).setAll (cs.flatMap (Command.settingsAt k)) from h empty
  intro g
  induction cs generalizing g with
  | nil => rfl
  | cons c cs ih => rw [List.foldl_cons, ih, attributesOf_apply, List.flatMap_cons]; exact (List.foldl_append ..).symm

theorem attributes_build : (build cs).attributes =
    ⟨(cs.flatMap Command.labels).getLast?, (cs.flatMap Command.rankdirs).getLast?⟩ := by
  suffices h : ∀ g : Graph, (cs.foldl apply g).attributes =
      ⟨(cs.flatMap Command.labels).getLast?.or g.attributes.label,
        (cs.flatMap Command.rankdirs).getLast?.or g.attributes.rankdir⟩ by
    rw [build, h, Graph.empty, show (∅ : GraphAttributes) = ⟨none, none⟩ from rfl, Option.or_none, Option.or_none]
  intro g
  induction cs generalizing g with
  | nil => rfl
  | cons c cs ih =>
      rw [List.foldl_cons, ih, attributes_apply, List.flatMap_cons, List.flatMap_cons, List.getLast?_append,
        List.getLast?_append, Option.or_assoc, Option.or_assoc]

/-! ## Texts -/

variable {g} {g' : Graph}

theorem eq_iff : g = g' ↔
    g.attributes = g'.attributes ∧ g.nodes.entries = g'.nodes.entries ∧ g.edges.toList = g'.edges.toList := by
  constructor
  · rintro rfl
    exact ⟨rfl, rfl, rfl⟩
  · rintro ⟨hattributes, hnodes, hedges⟩
    obtain ⟨attributes, nodes, edges⟩ := g
    obtain ⟨attributes', nodes', edges'⟩ := g'
    obtain rfl : attributes = attributes' := hattributes
    obtain rfl : nodes = nodes' := Roster.ext_entries hnodes
    obtain rfl : edges = edges' := Array.toList_inj.1 hedges
    rfl

/-- Whatever two lists of steps mention and set, the graphs that they build have the same text if and only if they have
the same attributes, the same nodes in the same order with the same attributes, and the same edges in the same order
with the same ends and attributes.  It does not matter which characters are written by code point inside quotes. -/
theorem text_build_eq_iff (cs ds : List Command) :
    let same : Prop := (build cs).attributes = (build ds).attributes ∧
      (build cs).nodes.entries = (build ds).nodes.entries ∧ (build cs).edges.toList = (build ds).edges.toList
    (∀ escaped, (build cs).text escaped = (build ds).text escaped ↔ same) ∧
      ((build cs).display = (build ds).display ↔ same) :=
  ⟨fun _ => text_eq_iff.trans eq_iff, display_eq_iff.trans eq_iff⟩

/-- A label that was set before another and a node that was there already leave no trace. -/
example : (build [.node "a" [(.label, "x"), (.label, "y")], .edge "a" "b" []]).display =
    (build [.edge "a" "b" [], .node "b" [], .node "a" [(.label, "y")]]).display := by decide +kernel

end Graph

end Dot

end Automata
