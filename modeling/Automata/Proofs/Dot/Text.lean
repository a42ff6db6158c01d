/-
# Reading graphs back

The text of a graph determines the graph: its attributes, its nodes in their order and its edges in their order, each
with its attributes (`Dot.Graph.text_inj`).  Every identifier and every value is quoted, and where a quoted string ends
can be told from the string alone, so nothing that it contains is taken for a bracket, an arrow or a semicolon of the
graph.  The keys of attributes stand without quotes; they come from a fixed list and contain no equals sign.

A node and an edge begin alike, with a quoted string, and are told apart by what follows it.
-/
import Automata.Dot.Text
import Automata.Proofs.Text.Quoted

namespace Automata.Dot

variable {escaped : Char → Bool}

/-! ## Attributes -/

theorem mem_settings_iff {k v : String} {l : List (String × Option String)} :
    (k, v) ∈ settings l ↔ (k, some v) ∈ l := by
  induction l with
  | nil => simp [settings]
  | cons p rest ih =>
      obtain ⟨k', v'⟩ := p
      cases v' with
      | none => simp [settings, ih]
      | some v' => simp [settings, ih]

theorem fst_mem_of_mem_settings {s : String × String} {l : List (String × Option String)} (h : s ∈ settings l) :
    s.1 ∈ l.map Prod.fst :=
  List.mem_map_of_mem (f := Prod.fst) (mem_settings_iff.1 h)

theorem settings_inj {l l' : List (String × Option String)} (hkeys : l.map Prod.fst = l'.map Prod.fst)
    (hnodup : (l.map Prod.fst).Nodup) (h : settings l = settings l') : l = l' := by
  induction l generalizing l' with
  | nil => exact (List.map_eq_nil_iff.1 hkeys.symm).symm
  | cons p rest ih =>
      cases l' with
      | nil => cases hkeys
      | cons p' rest' =>
          obtain ⟨k, v⟩ := p
          obtain ⟨k', v'⟩ := p'
          simp only [List.map_cons, List.cons.injEq] at hkeys
          obtain ⟨rfl, hkeys⟩ := hkeys
          rw [List.map_cons, List.nodup_cons] at hnodup
          obtain ⟨hk, hnodup⟩ := hnodup
          -- A key that is set on one side only would have to come again on the other.
          have hfresh : ∀ v, (k, v) ∉ settings rest := fun v hmem => hk (fst_mem_of_mem_settings hmem)
          have hfresh' : ∀ v, (k, v) ∉ settings rest' := fun v hmem =>
            hk (hkeys ▸ fst_mem_of_mem_settings hmem)
          cases v with
          | none =>
              cases v' with
              | none => rw [ih hkeys hnodup h]
              | some v' =>
                  have h : settings rest = (k, v') :: settings rest' := h
                  exact absurd (h ▸ List.mem_cons_self) (hfresh v')
          | some v =>
              cases v' with
              | none =>
                  have h : (k, v) :: settings rest = settings rest' := h
                  exact absurd (h ▸ List.mem_cons_self) (hfresh' v)
              | some v' =>
                  obtain ⟨hv, h⟩ := List.cons.inj h
                  rw [ih hkeys hnodup h, (Prod.mk.inj hv).2]

theorem GraphAttributes.settings_inj {a b : GraphAttributes} (h : a.settings = b.settings) : a = b := by
  have hlists := Dot.settings_inj (by rfl) (by simp) h
  cases a
  cases b
  simpa using hlists

theorem NodeAttributes.settings_inj {a b : NodeAttributes} (h : a.settings = b.settings) : a = b := by
  have hlists := Dot.settings_inj (by rfl) (by simp) h
  cases a
  cases b
  simpa using hlists

theorem EdgeAttributes.settings_inj {a b : EdgeAttributes} (h : a.settings = b.settings) : a = b := by
  have hlists := Dot.settings_inj (by rfl) (by simp) h
  cases a
  cases b
  simpa using hlists

/-- No key contains an equals sign. -/
def Plain (xs : List (String × String)) : Prop := ∀ s ∈ xs, '=' ∉ s.1.toList

theorem plain_settings {l : List (String × Option String)} (h : ∀ k ∈ l.map Prod.fst, '=' ∉ k.toList) :
    Plain (settings l) :=
  fun _ hs => h _ (fst_mem_of_mem_settings hs)

theorem GraphAttributes.plain (a : GraphAttributes) : Plain a.settings :=
  plain_settings (by simp)

theorem NodeAttributes.plain (a : NodeAttributes) : Plain a.settings :=
  plain_settings (by simp)

theorem EdgeAttributes.plain (a : EdgeAttributes) : Plain a.settings :=
  plain_settings (by simp)

theorem settingText_append_inj {s t : String × String} (hs : '=' ∉ s.1.toList) (ht : '=' ∉ t.1.toList)
    {x y : List Char} (h : settingText escaped s ++ x = settingText escaped t ++ y) : s = t ∧ x = y := by
  simp only [settingText, List.append_assoc, List.cons_append] at h
  have hkey := Text.append_cons_inj hs ht h
  rw [hkey] at h
  obtain ⟨hvalue, hrest⟩ := Text.quoted_append_inj escaped (List.cons.inj (List.append_cancel_left h)).2
  exact ⟨Prod.ext (String.toList_inj.1 hkey) hvalue, hrest⟩

theorem settingsText_append_inj {xs ys : List (String × String)} (hxs : Plain xs) (hys : Plain ys) {x y : List Char}
    (h : settingsText escaped xs ++ ';' :: x = settingsText escaped ys ++ ';' :: y) : xs = ys ∧ x = y := by
  cases xs with
  | nil =>
      cases ys with
      | nil => exact ⟨rfl, (List.cons.inj h).2⟩
      | cons t ys => exact absurd (List.cons.inj h).1 (by decide)
  | cons s xs =>
      cases ys with
      | nil => exact absurd (List.cons.inj h).1 (by decide)
      | cons t ys =>
          simp only [settingsText, List.cons_append, List.append_assoc, List.cons.injEq, true_and] at h
          obtain ⟨rfl, htail⟩ := settingText_append_inj (hxs s List.mem_cons_self) (hys t List.mem_cons_self) h
          have hstop : ∀ (s : String × String) (u v : List Char), ',' :: settingText escaped s ++ u ≠ ']' :: v :=
            fun s u v h => absurd (List.cons.inj h).1 (by decide)
          have hread := Text.flatMap_append_inj ?_
            (fun s _ u => hstop s u _) (fun s _ u => hstop s u _) htail
          · exact ⟨congrArg (s :: ·) hread.1, (List.cons.inj (List.cons.inj hread.2).2).2⟩
          · intro a ha b hb u v hab
            exact (settingText_append_inj (hxs a (List.mem_cons_of_mem _ ha)) (hys b (List.mem_cons_of_mem _ hb))
              (List.cons.inj hab).2).1

/-! ## Nodes and edges -/

theorem nodeText_append_inj {n m : String × NodeAttributes} {x y : List Char}
    (h : nodeText escaped n ++ x = nodeText escaped m ++ y) : n = m := by
  simp only [nodeText, List.append_assoc, List.cons_append, List.nil_append] at h
  obtain ⟨hid, h⟩ := Text.quoted_append_inj escaped h
  obtain ⟨hsettings, -⟩ := settingsText_append_inj n.2.plain m.2.plain h
  exact Prod.ext hid (NodeAttributes.settings_inj hsettings)

theorem edgeText_append_inj {e f : Edge} {x y : List Char}
    (h : edgeText escaped e ++ x = edgeText escaped f ++ y) : e = f := by
  simp only [edgeText, List.append_assoc, List.cons_append, List.nil_append] at h
  obtain ⟨hsource, h⟩ := Text.quoted_append_inj escaped h
  obtain ⟨htarget, h⟩ := Text.quoted_append_inj escaped (List.cons.inj (List.cons.inj h).2).2
  obtain ⟨hsettings, -⟩ := settingsText_append_inj e.attributes.plain f.attributes.plain h
  have hattributes := EdgeAttributes.settings_inj hsettings
  cases e
  cases f
  simp_all

/-- Behind its first string an edge goes on with an arrow, a node with a bracket or a semicolon. -/
theorem nodeText_append_ne_edgeText (n : String × NodeAttributes) (e : Edge) (x y : List Char) :
    nodeText escaped n ++ x ≠ edgeText escaped e ++ y := by
  intro h
  simp only [nodeText, edgeText, List.append_assoc, List.cons_append] at h
  obtain ⟨-, h⟩ := Text.quoted_append_inj escaped h
  cases hsettings : n.2.settings with
  | nil =>
      rw [hsettings] at h
      exact absurd (List.cons.inj h).1 (by decide)
  | cons s rest =>
      rw [hsettings] at h
      exact absurd (List.cons.inj h).1 (by decide)

/-! ## Graphs -/

namespace Graph

/-- The edges and the closing brace. -/
def edgesText (escaped : Char → Bool) (edges : List Edge) : List Char :=
  edges.flatMap (edgeText escaped) ++ ['\x7d']

theorem edgesText_inj {edges edges' : List Edge} (h : edgesText escaped edges = edgesText escaped edges') :
    edges = edges' := by
  have hstop : ∀ (e : Edge) (u : List Char), edgeText escaped e ++ u ≠ ['\x7d'] :=
    fun e u h => absurd (List.cons.inj h).1 (by decide)
  exact (Text.flatMap_append_inj (fun _ _ _ _ _ _ => edgeText_append_inj) (fun e _ => hstop e)
    (fun e _ => hstop e) h).1

theorem nodeText_append_ne_edgesText (n : String × NodeAttributes) (edges : List Edge) (x : List Char) :
    nodeText escaped n ++ x ≠ edgesText escaped edges := by
  cases edges with
  | nil => exact fun h => absurd (List.cons.inj h).1 (by decide)
  | cons e edges =>
      rw [edgesText, List.flatMap_cons, List.append_assoc]
      exact nodeText_append_ne_edgeText n e x _

/-- What comes after the attributes of a graph begins with a quote or the closing brace. -/
theorem nodesText_cases (escaped : Char → Bool) (nodes : List (String × NodeAttributes)) (edges : List Edge) :
    ∃ x, nodes.flatMap (nodeText escaped) ++ edgesText escaped edges = '"' :: x ∨
      nodes.flatMap (nodeText escaped) ++ edgesText escaped edges = '\x7d' :: x := by
  cases nodes with
  | cons n nodes => exact ⟨_, Or.inl rfl⟩
  | nil =>
      cases edges with
      | cons e edges => exact ⟨_, Or.inl rfl⟩
      | nil => exact ⟨[], Or.inr rfl⟩

theorem settingText_append_ne {a : GraphAttributes} {s : String × String} (hs : s ∈ a.settings) (x y : List Char) :
    settingText escaped s ++ x ≠ '"' :: y ∧ settingText escaped s ++ x ≠ '\x7d' :: y := by
  obtain ⟨k, v⟩ := s
  have hk : k = "label" ∨ k = "rankdir" := by
    simpa using fst_mem_of_mem_settings hs
  rcases hk with rfl | rfl
  · simp [settingText]
  · simp [settingText]

theorem text_eq (g : Graph) : g.text escaped =
    "digraph \x7b".toList ++ (g.attributes.settings.flatMap (fun s => settingText escaped s ++ [';']) ++
      (g.nodes.entries.flatMap (nodeText escaped) ++ edgesText escaped g.edges.toList)) := by
  unfold text edgesText
  rw [List.append_assoc, List.append_assoc, List.append_assoc]

/-- The text of a graph determines the graph. -/
theorem text_inj {g g' : Graph} (h : g.text escaped = g'.text escaped) : g = g' := by
  rw [text_eq, text_eq] at h
  -- The settings of the graph end where a node, an edge or the closing brace begins.
  have hstop : ∀ (a : GraphAttributes) (nodes : List (String × NodeAttributes)) (edges : List Edge),
      ∀ s ∈ a.settings, ∀ u, settingText escaped s ++ [';'] ++ u
        ≠ nodes.flatMap (nodeText escaped) ++ edgesText escaped edges := by
    intro a nodes edges s hs u hu
    rw [List.append_assoc] at hu
    obtain ⟨x, hx | hx⟩ := nodesText_cases escaped nodes edges
    · exact (settingText_append_ne hs _ x).1 (hu.trans hx)
    · exact (settingText_append_ne hs _ x).2 (hu.trans hx)
  have hread : ∀ s ∈ g.attributes.settings, ∀ t ∈ g'.attributes.settings, ∀ u v,
      settingText escaped s ++ [';'] ++ u = settingText escaped t ++ [';'] ++ v → s = t := by
    intro s hs t ht u v hst
    rw [List.append_assoc, List.append_assoc] at hst
    exact (settingText_append_inj (g.attributes.plain s hs) (g'.attributes.plain t ht) hst).1
  obtain ⟨hattributes, h⟩ := Text.flatMap_append_inj hread (hstop _ _ _) (hstop _ _ _) (List.append_cancel_left h)
  obtain ⟨hnodes, h⟩ := Text.flatMap_append_inj (fun _ _ _ _ _ _ => nodeText_append_inj)
    (fun n _ u => nodeText_append_ne_edgesText n _ u) (fun n _ u => nodeText_append_ne_edgesText n _ u) h
  have hattributes := GraphAttributes.settings_inj hattributes
  have hnodes := Roster.ext_entries hnodes
  have hedges := Array.toList_inj.1 (edgesText_inj h)
  cases g
  cases g'
  simp_all

theorem text_eq_iff {g g' : Graph} : g.text escaped = g'.text escaped ↔ g = g' :=
  ⟨text_inj, fun h => h ▸ rfl⟩

theorem display_eq_iff {g g' : Graph} : g.display = g'.display ↔ g = g' := by
  rw [display, display, String.ofList_inj, text_eq_iff]

end Graph

end Automata.Dot
