/-
# Lists by keys

Facts on lists whose members have keys.  Listed by ascending keys, each key once, the members determine the list
(`eq_of_ascending`); this is how what a dictionary lists is compared with a list written down.  Grouped by keys, a list
has the same members as before, each as often as before (`flatMap_filter_perm`).

What is its own key comes where it first came, `List.eraseDups`, as the keys of a roster do
(`Roster.keys_upsert_eq_eraseDups`).  The first occurrences of a list that is put together are determined by those of
its parts (`eraseDups_append_congr`, `eraseDups_flatMap_congr`).
-/
import Automata.Roster
import Mathlib.Data.List.Sort

namespace Automata

variable {α κ : Type}

theorem eq_of_ascending [Ord κ] [Std.TransOrd κ] (key : α → κ) {l l' : List α}
    (h : l.Pairwise fun x y => compare (key x) (key y) = .lt)
    (h' : l'.Pairwise fun x y => compare (key x) (key y) = .lt) (hmem : ∀ x, x ∈ l ↔ x ∈ l') : l = l' := by
  have : Std.Antisymm fun x y : α => compare (key x) (key y) = .lt :=
    ⟨fun _ _ hlt hgt => absurd hgt (Std.OrientedCmp.not_lt_of_lt hlt)⟩
  have : Std.Irrefl fun x y : α => compare (key x) (key y) = .lt :=
    ⟨fun _ hlt => absurd (hlt.symm.trans Std.ReflOrd.compare_self) nofun⟩
  exact h.eq_of_mem_iff h' hmem

variable [DecidableEq κ] {key : α → κ}

theorem filter_key_filter {k k' : κ} (h : k' ≠ k) (items : List α) :
    (items.filter fun x => !decide (key x = k)).filter (key · = k') = items.filter (key · = k') := by
  rw [List.filter_filter]
  refine List.filter_congr fun x _ => ?_
  by_cases hx : key x = k'
  · simp [hx, h]
  · simp [hx]

/-- Grouping a list by keys keeps all its members, repeats included, if each has one of the keys and no key comes
twice. -/
theorem flatMap_filter_perm {keys : List κ} {items : List α} (hnodup : keys.Nodup)
    (hkeys : ∀ x ∈ items, key x ∈ keys) : (keys.flatMap fun k => items.filter (key · = k)).Perm items := by
  induction keys generalizing items with
  | nil =>
      obtain rfl : items = [] := List.eq_nil_iff_forall_not_mem.2 fun x hx => absurd (hkeys x hx) List.not_mem_nil
      exact .nil
  | cons k keys ih =>
      obtain ⟨hk, hnodup⟩ := List.nodup_cons.1 hnodup
      have hothers : ∀ x ∈ items.filter fun x => !decide (key x = k), key x ∈ keys := by
        intro x hx
        obtain ⟨hx, hne⟩ := List.mem_filter.1 hx
        exact (List.mem_cons.1 (hkeys x hx)).resolve_left (by simpa using hne)
      have hgroups := ih hnodup hothers
      rw [List.flatMap_congr fun k' hk' => filter_key_filter (ne_of_mem_of_not_mem hk' hk) items] at hgroups
      exact (hgroups.append_left _).trans (List.filter_append_perm _ items)

theorem flatMap_nil_right {β : Type} (items : List α) : (items.flatMap fun _ => ([] : List β)) = [] :=
  List.flatMap_eq_nil_iff.2 fun _ _ => rfl

theorem flatMap_ite_eq_of_mem {β : Type} {items : List α} (hnodup : (items.map key).Nodup) {x : α} (hx : x ∈ items)
    (f : α → List β) : (items.flatMap fun y => if key y = key x then f y else []) = f x := by
  induction items with
  | nil => cases hx
  | cons y items ih =>
      obtain ⟨hy, hnodup⟩ := List.nodup_cons.1 hnodup
      have hne : ∀ z ∈ items, key z ≠ key y := fun z hz heq => hy (heq ▸ List.mem_map_of_mem hz)
      rw [List.flatMap_cons]
      rcases List.mem_cons.1 hx with rfl | hx
      · rw [if_pos rfl, List.flatMap_eq_nil_iff.2 fun z hz => if_neg (hne z hz), List.append_nil]
      · rw [if_neg (hne x hx).symm, List.nil_append, ih hnodup hx]

/-- From pieces whose members have the key of the piece, and every piece a key of its own, a piece is got back by its
key. -/
theorem filter_flatMap_eq_of_mem {β : Type} {items : List α} (hnodup : (items.map key).Nodup) {f : α → List β}
    {key' : β → κ} (hf : ∀ x ∈ items, ∀ y ∈ f x, key' y = key x) {x : α} (hx : x ∈ items) :
    (items.flatMap f).filter (key' · = key x) = f x := by
  rw [List.filter_flatMap, ← flatMap_ite_eq_of_mem hnodup hx f]
  refine List.flatMap_congr fun z hz => ?_
  split
  · next heq => exact List.filter_eq_self.2 fun y hy => decide_eq_true ((hf z hz y hy).trans heq)
  · next hne => exact List.filter_eq_nil_iff.2 fun y hy h => hne ((hf z hz y hy).symm.trans (of_decide_eq_true h))

/-! ## First occurrences -/

section

variable {β : Type} [DecidableEq α] {l l' m m' : List α}

theorem nodup_eraseDups : ∀ l : List α, l.eraseDups.Nodup
  | [] => List.nodup_nil
  | a :: l => by
      rw [List.eraseDups_cons, List.nodup_cons]
      refine ⟨fun ha => ?_, nodup_eraseDups _⟩
      simpa using List.mem_eraseDups.1 ha
termination_by l => l.length
decreasing_by exact Nat.lt_succ_of_le (List.length_filter_le ..)

theorem eraseDups_of_nodup (h : l.Nodup) : l.eraseDups = l := by
  induction l with
  | nil => rfl
  | cons a l ih =>
      obtain ⟨ha, h⟩ := List.nodup_cons.1 h
      rw [List.eraseDups_cons, List.filter_eq_self.2, ih h]
      exact fun b hb => by simpa using ne_of_mem_of_not_mem hb ha

theorem eraseDups_filter (p : α → Bool) : ∀ l : List α, (l.filter p).eraseDups = l.eraseDups.filter p
  | [] => rfl
  | a :: l => by
      have hrest := eraseDups_filter p (l.filter fun b => !b == a)
      rw [List.filter_comm] at hrest
      rw [List.eraseDups_cons]
      cases ha : p a with
      | true => rw [List.filter_cons_of_pos ha, List.filter_cons_of_pos ha, List.eraseDups_cons, hrest]
      | false =>
          -- What `p` keeps is never the member that was left out.
          have hnone : (l.filter p).filter (fun b => !b == a) = l.filter p := by
            refine List.filter_eq_self.2 fun b hb => ?_
            have hne : b ≠ a := fun heq => by simp [heq, ha] at hb
            simpa using hne
          rw [hnone] at hrest
          rw [List.filter_cons_of_neg (by simp [ha]), List.filter_cons_of_neg (by simp [ha]), hrest]
termination_by l => l.length
decreasing_by exact Nat.lt_succ_of_le (List.length_filter_le ..)

theorem eraseDups_append_eq : (l ++ m).eraseDups = l.eraseDups ++ m.eraseDups.removeAll l.eraseDups := by
  have hremove : m.removeAll l.eraseDups = m.removeAll l := List.filter_congr fun a _ => by simp
  rw [List.eraseDups_append, ← hremove]
  exact congrArg _ (eraseDups_filter _ m)

theorem eraseDups_append_congr (h : l.eraseDups = l'.eraseDups) (h' : m.eraseDups = m'.eraseDups) :
    (l ++ m).eraseDups = (l' ++ m').eraseDups := by
  rw [eraseDups_append_eq, eraseDups_append_eq, h, h']

theorem eraseDups_append_eraseDups : (l.eraseDups ++ m).eraseDups = (l ++ m).eraseDups :=
  eraseDups_append_congr (eraseDups_of_nodup (nodup_eraseDups l)) rfl

theorem eraseDups_flatMap_congr {f g : β → List α} {bs : List β}
    (h : ∀ b ∈ bs, (f b).eraseDups = (g b).eraseDups) : (bs.flatMap f).eraseDups = (bs.flatMap g).eraseDups := by
  induction bs with
  | nil => rfl
  | cons b bs ih =>
      rw [List.flatMap_cons, List.flatMap_cons]
      exact eraseDups_append_congr (h b List.mem_cons_self) (ih fun b hb => h b (List.mem_cons_of_mem _ hb))

theorem eraseDups_append_of_subset (h : m ⊆ l) : (l ++ m).eraseDups = l.eraseDups := by
  have hnone : m.removeAll l = [] := List.filter_eq_nil_iff.2 fun a ha => by simpa using h ha
  rw [List.eraseDups_append, hnone, List.eraseDups_nil, List.append_nil]

theorem eraseDups_append_singleton {a : α} (h : a ∉ l) : (l ++ [a]).eraseDups = l.eraseDups ++ [a] := by
  have hall : [a].removeAll l = [a] := List.filter_eq_self.2 fun b hb => by simpa [List.mem_singleton.1 hb] using h
  rw [List.eraseDups_append, hall, eraseDups_of_nodup (List.nodup_singleton a)]

/-- A member that comes again before each of the others counts once. -/
theorem eraseDups_cons_flatMap (a : α) (f : β → α) (bs : List β) :
    (a :: bs.flatMap fun b => [a, f b]).eraseDups = (a :: bs.map f).eraseDups := by
  have hothers : (bs.flatMap fun b => [a, f b]).filter (fun c => !c == a) = (bs.map f).filter fun c => !c == a := by
    induction bs with
    | nil => rfl
    | cons b bs ih =>
        rw [List.flatMap_cons, List.filter_append, ih, List.filter_cons_of_neg (by simp), ← List.filter_append]
        rfl
  rw [List.eraseDups_cons, List.eraseDups_cons, hothers]

theorem eraseDups_map [DecidableEq β] {f : α → β} (hf : Function.Injective f) :
    ∀ l : List α, (l.map f).eraseDups = l.eraseDups.map f
  | [] => rfl
  | a :: l => by
      have hfilter : (l.map f).filter (fun b => !b == f a) = (l.filter fun b => !b == a).map f := by
        rw [List.filter_map]
        exact congrArg _ (List.filter_congr fun b _ => by simp [hf.eq_iff])
      rw [List.map_cons, List.eraseDups_cons, List.eraseDups_cons, hfilter, eraseDups_map hf, List.map_cons]
termination_by l => l.length
decreasing_by exact Nat.lt_succ_of_le (List.length_filter_le ..)

end

theorem Roster.keys_upsert_eq_eraseDups [Ord κ] [Std.TransOrd κ] [Std.LawfulEqOrd κ] {r : Roster κ α} {k : κ}
    (change : Option α → α) : (r.upsert k change).keys = (r.keys ++ [k]).eraseDups := by
  rw [keys_upsert]
  split
  · next hk =>
      have hsub : [k] ⊆ r.keys := List.cons_subset.2 ⟨contains_iff.1 hk, List.nil_subset _⟩
      rw [eraseDups_append_of_subset hsub, eraseDups_of_nodup r.nodup_keys]
  · next hk => rw [eraseDups_append_singleton (mt contains_iff.2 hk), eraseDups_of_nodup r.nodup_keys]

end Automata
