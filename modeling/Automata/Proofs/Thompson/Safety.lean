/-
# The construction only ever runs out of names

The construction checks what it relies on: that a new state is new, that edges join states that are there, that an
operator finds as many fragments as it has operands, and so on.  None of these checks fails at any stage
(`Regex.toNfa_safe`).

A draft is *sound* when the names that come next are new to it and all edges lead to states that are there, a stage
when, besides, its fragments and the tasks to come name only states of the draft and the tasks are *balanced*: each of
them finds the fragments that it takes, when those before have left one each, and in the end there is just one.  A
computation is *safe* on a draft when it ends with a sound one, which still has all the states, or exhausts the supply;
working off the next task of a sound stage is safe and leads to a sound stage again (`Stage.Sound.work_safe`).
-/
import Automata.Proofs.Thompson.Stages

namespace Automata.Thompson

/-! ## Sound drafts -/

/-- The names to come are new and all targets of edges are states. -/
structure Draft.Sound (d : Draft) : Prop where
  fresh : ∀ s ∈ d.relation, s < d.supply.next
  closed : ∀ (s : StateName) (ts : List Transition), d.relation[s]? = some ts → ∀ t ∈ ts, t.target ∈ d.relation

/-- The states of the one draft are states of the other. -/
def Draft.GrowsTo (d d' : Draft) : Prop := ∀ s ∈ d.relation, s ∈ d'.relation

/-- Both ends of a fragment are states of the draft. -/
def Fragment.Registered (part : Fragment) (d : Draft) : Prop := part.start ∈ d.relation ∧ part.exit ∈ d.relation

/-- The computation ends with a sound draft that has all the states of this one, and with a result as described, or it
exhausts the supply. -/
def Safe {α : Type} (m : Construction α) (d : Draft) (Q : α → Draft → Prop) : Prop :=
  (∃ a d', m.run d = .ok a d' ∧ d'.Sound ∧ d.GrowsTo d' ∧ Q a d') ∨ ∃ e d', m.run d = .error (.exhausted e) d'

variable {α β : Type} {m : Construction α} {k : α → Construction β} {Q : α → Draft → Prop} {R : β → Draft → Prop}
  {d d' d'' : Draft} {part ends : Fragment} {parts : List Fragment} {x y : StateName}

theorem Draft.GrowsTo.trans (h : d.GrowsTo d') (h' : d'.GrowsTo d'') : d.GrowsTo d'' := fun s hs => h' s (h s hs)

theorem Fragment.Registered.mono (h : part.Registered d) (hgrows : d.GrowsTo d') : part.Registered d' :=
  ⟨hgrows _ h.1, hgrows _ h.2⟩

theorem safe_pure {a : α} (hd : d.Sound) (ha : Q a d) : Safe (pure a) d Q :=
  Or.inl ⟨a, d, rfl, hd, fun _ hs => hs, ha⟩

theorem Safe.bind (hm : Safe m d Q)
    (hk : ∀ a d', d'.Sound → d.GrowsTo d' → Q a d' → Safe (k a) d' R) : Safe (m >>= k) d R := by
  obtain ⟨a, d', hrun, hsound, hgrows, hQ⟩ | ⟨e, d', hrun⟩ := hm
  · obtain ⟨b, d'', hrun', hsound', hgrows', hR⟩ | ⟨e, d'', hrun'⟩ := hk a d' hsound hgrows hQ
    · exact Or.inl ⟨b, d'', (run_bind_of_ok hrun).trans hrun', hsound', hgrows.trans hgrows', hR⟩
    · exact Or.inr ⟨e, d'', (run_bind_of_ok hrun).trans hrun'⟩
  · exact Or.inr ⟨e, d', run_bind_of_error hrun⟩

/-! ## States and edges -/

theorem growsTo_insert {supply : StateSupply} {ts : List Transition} :
    d.GrowsTo ⟨supply, d.relation.insert x ts⟩ :=
  fun _ hs => Std.ExtTreeMap.mem_insert.2 (Or.inr hs)

/-- A draft stays sound when a state is given transitions to states that are there, the state itself a new one or
not. -/
theorem Draft.Sound.insert (hd : d.Sound) {supply : StateSupply} {ts : List Transition}
    (hle : d.supply.next ≤ supply.next) (hx : x < supply.next) (hts : ∀ t ∈ ts, t.target ∈ d.relation) :
    (⟨supply, d.relation.insert x ts⟩ : Draft).Sound where
  fresh := by
    intro s hs
    rcases Std.ExtTreeMap.mem_insert.1 hs with hs | hs
    · exact Std.LawfulEqCmp.eq_of_compare hs ▸ hx
    · exact Nat.lt_of_lt_of_le (hd.fresh s hs) hle
  closed := by
    intro s ts' hs t ht
    rw [Std.ExtTreeMap.getElem?_insert] at hs
    split at hs
    · cases hs
      exact growsTo_insert _ (hts t ht)
    · exact growsTo_insert _ (hd.closed s ts' hs t ht)

theorem Draft.sound_empty (supply : StateSupply) : (⟨supply, ∅⟩ : Draft).Sound where
  fresh := fun _ hs => absurd hs Std.ExtTreeMap.not_mem_empty
  closed := by
    intro s ts hs
    rw [Std.ExtTreeMap.getElem?_empty] at hs
    cases hs

theorem newState_safe (hd : d.Sound) : Safe newState d fun s d' => s ∈ d'.relation := by
  cases hfresh : d.supply.fresh with
  | error e => exact Or.inr ⟨e, d, newState_eq_error hfresh⟩
  | ok taken =>
      obtain ⟨s, supply⟩ := taken
      obtain ⟨rfl, hsupply⟩ := NameSupply.fresh_eq_ok_iff.1 hfresh
      have hnew : d.supply.next ∉ d.relation := fun hmem => Nat.lt_irrefl _ (hd.fresh _ hmem)
      have hlt : d.supply.next < supply.next := by omega
      have hsound := hd.insert (Nat.le_of_lt hlt) hlt fun t ht => absurd ht List.not_mem_nil
      exact Or.inl ⟨_, _, newState_eq_ok hfresh hnew, hsound, growsTo_insert, Std.ExtTreeMap.mem_insert_self⟩

theorem connect_safe {l : Option String} (hd : d.Sound) (hx : x ∈ d.relation) (hy : y ∈ d.relation) :
    Safe (connect x l y) d fun _ _ => True := by
  obtain ⟨ts, hts⟩ := Option.isSome_iff_exists.1 (Std.ExtTreeMap.mem_iff_isSome_getElem?.1 hx)
  refine Or.inl ⟨_, _, connect_eq_ok hts hy, hd.insert (Nat.le_refl _) (hd.fresh x hx) ?_, growsTo_insert, trivial⟩
  intro t ht
  rcases List.mem_append.1 ht with ht | ht
  · exact hd.closed x ts hts t ht
  · exact List.mem_singleton.1 ht ▸ hy

/-! ## Fragments -/

theorem single_safe {l : Option String} (hd : d.Sound) : Safe (single l) d Fragment.Registered := by
  refine (newState_safe hd).bind fun start d₁ hd₁ _ hstart => ?_
  refine (newState_safe hd₁).bind fun exit d₂ hd₂ hgrows₂ hexit => ?_
  refine (connect_safe hd₂ (hgrows₂ _ hstart) hexit).bind fun _ d₃ hd₃ hgrows₃ _ => ?_
  exact safe_pure hd₃ ⟨hgrows₃ _ (hgrows₂ _ hstart), hgrows₃ _ hexit⟩

theorem chain_safe : ∀ {parts : List Fragment} {d : Draft}, d.Sound → (∀ part ∈ parts, part.Registered d) →
    Safe (chain parts) d fun _ _ => True
  | [], _, hd, _ => safe_pure hd trivial
  | [_], _, hd, _ => safe_pure hd trivial
  | a :: b :: rest, d, hd, h => by
      have ha := h a List.mem_cons_self
      have hb := h b (List.mem_cons_of_mem _ List.mem_cons_self)
      refine (connect_safe hd ha.2 hb.1).bind fun _ d' hd' hgrows _ => chain_safe hd' ?_
      exact fun part hpart => (h part (List.mem_cons_of_mem _ hpart)).mono hgrows

theorem concatenate_safe (hd : d.Sound) (hne : parts ≠ []) (h : ∀ part ∈ parts, part.Registered d) :
    Safe (concatenate parts) d Fragment.Registered := by
  have hfirst := List.head?_eq_some_head hne
  have hlast := List.getLast?_eq_some_getLast hne
  simp only [concatenate, hfirst, hlast]
  refine (chain_safe hd h).bind fun _ d' hd' hgrows _ => safe_pure hd' ⟨?_, ?_⟩
  · exact hgrows _ (h _ (List.head_mem hne)).1
  · exact hgrows _ (h _ (List.getLast_mem hne)).2

theorem alternate_safe : ∀ {parts : List Fragment} {d : Draft}, d.Sound → ends.Registered d →
    (∀ part ∈ parts, part.Registered d) → Safe (alternate ends parts) d Fragment.Registered
  | [], _, hd, hends, _ => safe_pure hd hends
  | part :: rest, d, hd, hends, h => by
      have hpart := h part List.mem_cons_self
      refine (connect_safe hd hends.1 hpart.1).bind fun _ d₁ hd₁ hgrows₁ _ => ?_
      refine (connect_safe hd₁ (hgrows₁ _ hpart.2) (hgrows₁ _ hends.2)).bind fun _ d₂ hd₂ hgrows₂ _ => ?_
      have hgrows := hgrows₁.trans hgrows₂
      exact alternate_safe hd₂ (hends.mono hgrows) fun p hp => (h p (List.mem_cons_of_mem _ hp)).mono hgrows

theorem loop_safe (hd : d.Sound) (h : part.Registered d) : Safe (loop part) d Fragment.Registered := by
  refine (newState_safe hd).bind fun s d₁ hd₁ hgrows₁ hs => ?_
  refine (connect_safe hd₁ hs (hgrows₁ _ h.1)).bind fun _ d₂ hd₂ hgrows₂ _ => ?_
  refine (connect_safe hd₂ (hgrows₂ _ (hgrows₁ _ h.2)) (hgrows₂ _ hs)).bind fun _ d₃ hd₃ hgrows₃ _ => ?_
  have hs₃ := hgrows₃ _ (hgrows₂ _ hs)
  exact safe_pure hd₃ ⟨hs₃, hs₃⟩

/-! ## Sound stages -/

/-- The number of fragments that a task takes from the stack. -/
def Task.takes : Task → Nat
  | .build _ => 0
  | .concatenate count => count
  | .alternate count _ => count
  | .loop => 1

/-- What a task relies on besides the fragments that it takes: a concatenation has parts, and the ends of an
alternation are there. -/
def Task.Ready (d : Draft) : Task → Prop
  | .concatenate count => 0 < count
  | .alternate _ ends => ends.Registered d
  | _ => True

theorem Task.Ready.mono {task : Task} (h : task.Ready d) (hgrows : d.GrowsTo d') : task.Ready d' :=
  match task, h with
  | .build _, _ | .loop, _ => trivial
  | .concatenate _, h => h
  | .alternate _ _, h => Fragment.Registered.mono h hgrows

/-- On a stack of this height every task finds the fragments that it takes, each task before it having left one in the
end, and after all of them there is just one. -/
def Balanced : List Task → Nat → Prop
  | [], height => height = 1
  | task :: tasks, height => task.takes ≤ height ∧ Balanced tasks (height - task.takes + 1)

theorem balanced_builds_append {tasks : List Task} (rs : List Regex) {height : Nat} :
    Balanced (rs.map .build ++ tasks) height ↔ Balanced tasks (height + rs.length) := by
  induction rs generalizing height with
  | nil => exact Iff.rfl
  | cons r rs ih =>
      rw [List.map_cons, List.cons_append, Balanced, ih, List.length_cons]
      simp only [Task.takes, Nat.zero_le, true_and, Nat.sub_zero]
      rw [Nat.add_assoc, Nat.add_comm 1]

/-- The draft is sound, the fragments and the tasks name states of it, and the tasks are balanced. -/
structure Stage.Sound (s : Stage) : Prop where
  draft : s.draft.Sound
  stack : ∀ part ∈ s.stack, part.Registered s.draft
  tasks : ∀ task ∈ s.tasks, task.Ready s.draft
  balanced : Balanced s.tasks s.stack.length

theorem Stage.sound_begin (r : Regex) (supply : StateSupply) : (Stage.begin r supply).Sound where
  draft := Draft.sound_empty supply
  stack := fun _ hpart => absurd hpart List.not_mem_nil
  tasks := fun _ htask => List.mem_singleton.1 htask ▸ trivial
  balanced := ⟨Nat.le_refl 0, rfl⟩

variable {task : Task} {tasks : List Task} {stack : List Fragment}

theorem Stage.Sound.taken (h : Stage.Sound ⟨tasks, stack, d⟩) (count : Nat) :
    ∀ part ∈ (stack.take count).reverse, part.Registered d :=
  fun part hpart => h.stack part (List.mem_of_mem_take (List.mem_reverse.1 hpart))

theorem Stage.Sound.push (h : Stage.Sound ⟨task :: tasks, stack, d⟩) (hd' : d'.Sound) (hgrows : d.GrowsTo d')
    (hpart : part.Registered d') : Stage.Sound ⟨tasks, part :: stack.drop task.takes, d'⟩ where
  draft := hd'
  stack := by
    intro p hp
    rcases List.mem_cons.1 hp with rfl | hp
    · exact hpart
    · exact (h.stack p (List.mem_of_mem_drop hp)).mono hgrows
  tasks := fun t ht => (h.tasks t (List.mem_cons_of_mem _ ht)).mono hgrows
  balanced := by
    rw [List.length_cons, List.length_drop]
    exact h.balanced.2

theorem Stage.Sound.fallInto {r : Regex} {last : Task} (h : Stage.Sound ⟨.build r :: tasks, stack, d⟩) (rs : List Regex)
    (htakes : last.takes = rs.length) (hd' : d'.Sound) (hgrows : d.GrowsTo d') (hlast : last.Ready d') :
    Stage.Sound ⟨rs.map .build ++ [last] ++ tasks, stack, d'⟩ where
  draft := hd'
  stack := fun part hpart => (h.stack part hpart).mono hgrows
  tasks := by
    intro t ht
    simp only [List.append_assoc, List.mem_append, List.mem_map, List.mem_singleton] at ht
    rcases ht with ⟨_, -, rfl⟩ | rfl | ht
    · trivial
    · exact hlast
    · exact (h.tasks t (List.mem_cons_of_mem _ ht)).mono hgrows
  balanced := by
    rw [List.append_assoc, balanced_builds_append]
    refine ⟨htakes ▸ Nat.le_add_left _ _, ?_⟩
    rw [htakes, Nat.add_sub_cancel]
    exact h.balanced.2

theorem takeLast_of_le {count : Nat} (h : count ≤ stack.length) :
    takeLast count stack = pure ((stack.take count).reverse, stack.drop count) := by
  have htaken := Stack.takeLast_reverse_append (stack.take count).reverse (stack.drop count)
  rw [List.reverse_reverse, List.take_append_drop, List.length_reverse, List.length_take, Nat.min_eq_left h] at htaken
  simp only [takeLast, htaken]

/-- Working off the next task of a sound stage leads to a sound stage, if only there are names enough. -/
theorem Stage.Sound.work_safe (h : Stage.Sound ⟨task :: tasks, stack, d⟩) :
    Safe (work task stack) d fun next d' => Stage.Sound ⟨next.1 ++ tasks, next.2, d'⟩ := by
  have hd := h.draft
  have hready := h.tasks task List.mem_cons_self
  cases task with
  | build r =>
      cases r with
      | lit _ | epsilon =>
          refine (single_safe hd).bind fun part d' hd' hgrows hpart => safe_pure hd' ?_
          exact h.push hd' hgrows hpart
      | cat os =>
          refine safe_pure hd (h.fallInto os.toList os.length_toList.symm hd (fun _ hs => hs) ?_)
          exact Nat.lt_of_lt_of_le Nat.zero_lt_two os.two_le_length
      | alt os =>
          refine (newState_safe hd).bind fun start d₁ hd₁ hgrows₁ hstart => ?_
          refine (newState_safe hd₁).bind fun exit d₂ hd₂ hgrows₂ hexit => safe_pure hd₂ ?_
          exact h.fallInto os.toList os.length_toList.symm hd₂ (hgrows₁.trans hgrows₂) ⟨hgrows₂ _ hstart, hexit⟩
      | star r => exact safe_pure hd (h.fallInto [r] rfl hd (fun _ hs => hs) trivial)
  | concatenate count =>
      have htakes : count ≤ stack.length := h.balanced.1
      have hne : (stack.take count).reverse ≠ [] := by
        have hpos : 0 < count := hready
        rw [← List.length_pos_iff, List.length_reverse, List.length_take]
        omega
      simp only [work, takeLast_of_le htakes, pure_bind]
      refine (concatenate_safe hd hne (h.taken count)).bind fun part d' hd' hgrows hpart => safe_pure hd' ?_
      exact h.push hd' hgrows hpart
  | alternate count ends =>
      have htakes : count ≤ stack.length := h.balanced.1
      simp only [work, takeLast_of_le htakes, pure_bind]
      refine (alternate_safe hd hready (h.taken count)).bind fun part d' hd' hgrows hpart => safe_pure hd' ?_
      exact h.push hd' hgrows hpart
  | loop =>
      cases stack with
      | nil => exact absurd h.balanced.1 (Nat.not_succ_le_zero 0)
      | cons top below =>
          have htaken : takeLast 1 (top :: below) = pure ([top], below) := rfl
          simp only [work, htaken, pure_bind]
          refine (loop_safe hd (h.stack top List.mem_cons_self)).bind fun part d' hd' hgrows hpart => safe_pure hd' ?_
          exact h.push hd' hgrows hpart

theorem Stage.Sound.next {s s' : Stage} (h : s.Sound) (hnext : s.Next s') : s'.Sound := by
  cases hnext with
  | work hwork =>
      obtain ⟨next, d', hrun, -, -, hsound⟩ | ⟨e, d', hrun⟩ := h.work_safe
      · cases hrun.symm.trans hwork
        exact hsound
      · cases hrun.symm.trans hwork

theorem Stage.Sound.reaches {s s' : Stage} (h : s.Sound) (hsteps : Relation.ReflTransGen Stage.Next s s') :
    s'.Sound := by
  induction hsteps with
  | refl => exact h
  | tail _ hnext ih => exact ih.next hnext

theorem Stage.Sound.exhausted {fault : Fault} (h : Stage.Sound ⟨task :: tasks, stack, d⟩)
    (hwork : (work task stack).run d = .error fault d') : ∃ e, fault = .exhausted e := by
  obtain ⟨next, d₁, hrun, -⟩ | ⟨e, d₁, hrun⟩ := h.work_safe
  · cases hrun.symm.trans hwork
  · cases hrun.symm.trans hwork
    exact ⟨e, rfl⟩

/-- When nothing is left to be done at a sound stage, its only fragment makes the draft an automaton. -/
theorem Stage.Sound.wellFormed (h : Stage.Sound ⟨[], stack, d⟩) :
    ∃ part, stack = [part] ∧ (⟨part.start, part.exit, d.relation⟩ : Nfa).WellFormed := by
  obtain ⟨part, rfl⟩ := List.length_eq_one_iff.1 h.balanced
  obtain ⟨hstart, hexit⟩ := h.stack part List.mem_cons_self
  refine ⟨part, rfl, hstart, hexit, ?_⟩
  rintro ⟨s, l, t⟩ he
  obtain ⟨ts, hts, ht⟩ := Nfa.mem_edges_iff.1 he
  exact h.draft.closed s ts hts ⟨l, t⟩ ht

end Automata.Thompson

/-! ## The construction -/

namespace Automata.Regex

open Thompson

variable {r : Regex} {supply : StateSupply} {d : Draft}

theorem toNfa_of_result_ok {part : Fragment} (h : (Stage.begin r supply).result = .ok [part] d)
    (hwf : (⟨part.start, part.exit, d.relation⟩ : Nfa).WellFormed) :
    (r.toNfa supply).1 = .ok ⟨part.start, part.exit, d.relation⟩ := by
  have hrun : (run [.build r] []).run ⟨supply, ∅⟩ = .ok [part] d := h
  have hparts : (ofParts part.start part.exit d.relation).run d = .ok ⟨part.start, part.exit, d.relation⟩ d :=
    ofParts_eq_ok_iff.2 ⟨hwf, rfl, rfl⟩
  simp only [toNfa, construct, EStateM.run_bind, hrun, EStateM.run_get, hparts]

theorem toNfa_of_result_error {fault : Fault} (h : (Stage.begin r supply).result = .error fault d) :
    (r.toNfa supply).1 = .error fault := by
  have hrun : (run [.build r] []).run ⟨supply, ∅⟩ = .error fault d := h
  simp only [toNfa, construct, EStateM.run_bind, hrun]

/-- At every stage of the construction the next name is new, the finished fragments begin and end at states, the next
task finds the fragments that it takes and meets no fault but the end of the supply, a concatenation takes one fragment
at least, and when nothing is left to be done there is one fragment.  The construction comes to such an end, and then
gives a well-formed automaton, or to a stage whose next task exhausts the supply. -/
theorem toNfa_safe (r : Regex) (supply : StateSupply) :
    (∀ s, Relation.ReflTransGen Stage.Next (.begin r supply) s →
      s.draft.supply.next ∉ s.draft.relation ∧ (∀ part ∈ s.stack, part.Registered s.draft) ∧
      (∀ task tasks, s.tasks = task :: tasks → task.takes ≤ s.stack.length ∧ task.Ready s.draft ∧
        ∀ fault d, (work task s.stack).run s.draft = .error fault d → ∃ e, fault = .exhausted e) ∧
      (s.tasks = [] → ∃ part, s.stack = [part])) ∧
    ∃ s, Relation.ReflTransGen Stage.Next (.begin r supply) s ∧
      ((s.tasks = [] ∧ ∃ part nfa, s.stack = [part] ∧ nfa = ⟨part.start, part.exit, s.draft.relation⟩ ∧
        (r.toNfa supply).1 = .ok nfa ∧ nfa.WellFormed) ∨
      ∃ task tasks e d, s.tasks = task :: tasks ∧ (work task s.stack).run s.draft = .error (.exhausted e) d ∧
        (r.toNfa supply).1 = .error (.exhausted e)) := by
  have hsound : ∀ {s}, Relation.ReflTransGen Stage.Next (.begin r supply) s → s.Sound :=
    fun hsteps => (Stage.sound_begin r supply).reaches hsteps
  constructor
  · rintro ⟨tasks, stack, d⟩ hsteps
    have h := hsound hsteps
    refine ⟨fun hmem => Nat.lt_irrefl _ (h.draft.fresh _ hmem), h.stack, ?_, ?_⟩
    · rintro task tasks rfl
      exact ⟨h.balanced.1, h.tasks task List.mem_cons_self, fun _ _ hwork => h.exhausted hwork⟩
    · rintro rfl
      exact List.length_eq_one_iff.1 h.balanced
  · obtain ⟨⟨tasks, stack, d⟩, hsteps, hend⟩ := Stage.exists_end (.begin r supply)
    have h := hsound hsteps
    have hresult := Stage.result_reaches hsteps
    refine ⟨_, hsteps, ?_⟩
    obtain rfl | ⟨task, tasks, fault, d', rfl, hwork⟩ := hend
    · obtain ⟨part, rfl, hwf⟩ := h.wellFormed
      rw [Stage.result_done] at hresult
      exact Or.inl ⟨rfl, part, _, rfl, rfl, toNfa_of_result_ok hresult hwf, hwf⟩
    · obtain ⟨e, rfl⟩ := h.exhausted hwork
      rw [Stage.result_fault hwork] at hresult
      exact Or.inr ⟨task, tasks, e, d', rfl, hwork, toNfa_of_result_error hresult⟩

end Automata.Regex
