/-
# Rosters

A dictionary that keeps its keys in the order in which they first came.  Giving a key a new value leaves it in
its place, and that place is a number for the key.  The entries lie in an array; an index from keys to places
makes looking up a key cheap.

What a roster means is its list of `entries`.  The lemmas say what each operation does to that list or reads
from it; the index never shows.
-/
import Std.Data.ExtTreeMap

namespace Automata

/-- A dictionary in order of first mention. -/
structure Roster (κ α : Type) [Ord κ] [Std.TransOrd κ] where
  /-- The keys with their values, in order. -/
  slots : Array (κ × α)
  /-- The place of every key. -/
  index : Std.ExtTreeMap κ Nat
  /-- The index tells where the keys lie. -/
  index_iff : ∀ (k : κ) (i : Nat), index[k]? = some i ↔ slots[i]?.map Prod.fst = some k

namespace Roster

variable {κ α : Type} [Ord κ] [Std.TransOrd κ]

/-- The keys with their values, in order. -/
def entries (r : Roster κ α) : List (κ × α) := r.slots.toList

/-- The keys, in order. -/
def keys (r : Roster κ α) : List κ := r.entries.map Prod.fst

/-- The number of keys. -/
def size (r : Roster κ α) : Nat := r.slots.size

/-- Whether a key has an entry. -/
def contains (r : Roster κ α) (k : κ) : Bool := r.index.contains k

/-- The place of a key. -/
def indexOf? (r : Roster κ α) (k : κ) : Option Nat := r.index[k]?

/-- The value of a key. -/
def get? (r : Roster κ α) (k : κ) : Option α :=
  (r.index[k]?.bind (r.slots[·]?)).map Prod.snd

/-- The roster without entries. -/
def empty : Roster κ α := ⟨#[], ∅, by simp⟩

instance : EmptyCollection (Roster κ α) := ⟨empty⟩

instance : Inhabited (Roster κ α) := ⟨empty⟩

theorem index_iff_keys (r : Roster κ α) (k : κ) (i : Nat) :
    r.index[k]? = some i ↔ r.keys[i]? = some k := by
  rw [r.index_iff, keys, entries, List.getElem?_map, Array.getElem?_toList]

section Lawful

variable [Std.LawfulEqOrd κ]

/-! ## Changing a roster -/

/-- Changes the value of a key, which `change` is given if there is one; a new key comes last. -/
def upsert (k : κ) (change : Option α → α) (r : Roster κ α) : Roster κ α :=
  match h : r.index[k]? with
  | some i =>
      { slots := r.slots.modify i fun (k', v) => (k', change (some v))
        index := r.index
        index_iff := by
          intro k' j
          rw [r.index_iff, Array.getElem?_modify]
          split <;> cases r.slots[j]? <;> simp }
  | none =>
      { slots := r.slots.push (k, change none)
        index := r.index.insert k r.slots.size
        index_iff := by
          intro k' j
          have hnew : ∀ i, r.slots[i]?.map Prod.fst ≠ some k := fun i hi => by
            rw [← r.index_iff, h] at hi
            cases hi
          rw [Std.ExtTreeMap.getElem?_insert, Array.getElem?_push]
          by_cases hk : k = k'
          · subst hk
            by_cases hj : j = r.slots.size
            · simp [hj]
            · have hj' : r.slots.size ≠ j := fun h => hj h.symm
              have := hnew j
              simp_all
          · by_cases hj : j = r.slots.size
            · have hend : r.index[k']? ≠ some r.slots.size := fun hi => by
                rw [r.index_iff] at hi
                simp at hi
              simp [hk, hj, hend]
            · simp [hk, hj, r.index_iff] }

/-- Gives a key a value. -/
def insert (k : κ) (v : α) (r : Roster κ α) : Roster κ α := r.upsert k fun _ => v

end Lawful

/-! ## What a roster means -/

@[simp] theorem entries_empty : (∅ : Roster κ α).entries = [] := rfl

theorem ext_entries {r s : Roster κ α} [Std.LawfulEqOrd κ] (h : r.entries = s.entries) : r = s := by
  have hslots : r.slots = s.slots := Array.toList_inj.1 h
  have hindex : r.index = s.index := by
    refine Std.ExtTreeMap.ext_getElem? fun k => Option.ext fun i => ?_
    rw [r.index_iff, s.index_iff, hslots]
  cases r
  cases s
  simp_all

instance [Std.LawfulEqOrd κ] [DecidableEq κ] [DecidableEq α] : DecidableEq (Roster κ α) :=
  fun r s => decidable_of_iff (r.slots = s.slots)
    ⟨fun h => ext_entries (congrArg Array.toList h), fun h => h ▸ rfl⟩

theorem nodup_keys (r : Roster κ α) : r.keys.Nodup := by
  refine List.pairwise_iff_getElem.2 fun i j hi hj hij heq => ?_
  have h := (r.index_iff_keys r.keys[j] j).2 (List.getElem?_eq_getElem hj)
  have h' := (r.index_iff_keys r.keys[j] i).2 (heq ▸ List.getElem?_eq_getElem hi)
  exact absurd (Option.some.inj (h'.symm.trans h)) (Nat.ne_of_lt hij)

theorem indexOf?_eq_some_iff {r : Roster κ α} {k : κ} {i : Nat} :
    r.indexOf? k = some i ↔ r.keys[i]? = some k :=
  r.index_iff_keys k i

theorem place_unique {r : Roster κ α} {k : κ} {i j : Nat} (hi : r.keys[i]? = some k)
    (hj : r.keys[j]? = some k) : i = j :=
  Option.some.inj ((indexOf?_eq_some_iff.2 hi).symm.trans (indexOf?_eq_some_iff.2 hj))

theorem mem_keys_iff {r : Roster κ α} {k : κ} : k ∈ r.keys ↔ ∃ v, (k, v) ∈ r.entries := by
  simp [keys]

theorem get?_of_mem_entries {r : Roster κ α} {k : κ} {v : α} (h : (k, v) ∈ r.entries) : r.get? k = some v := by
  obtain ⟨i, hi⟩ := List.mem_iff_getElem?.1 h
  have hkey : r.keys[i]? = some k := by rw [keys, List.getElem?_map, hi, Option.map_some]
  have hslot : r.slots[i]? = some (k, v) := by rw [← Array.getElem?_toList]; exact hi
  rw [get?, (r.index_iff_keys k i).2 hkey, Option.bind_some, hslot, Option.map_some]

theorem entries_eq_map_keys {r : Roster κ α} (default : α) :
    r.entries = r.keys.map fun k => (k, (r.get? k).getD default) := by
  rw [keys, List.map_map]
  refine (List.map_id' _).symm.trans (List.map_congr_left ?_)
  rintro ⟨k, v⟩ h
  rw [Function.comp_apply, get?_of_mem_entries h, Option.getD_some]

theorem contains_iff {r : Roster κ α} [Std.LawfulEqOrd κ] {k : κ} :
    r.contains k ↔ k ∈ r.keys := by
  rw [contains, Std.ExtTreeMap.contains_eq_isSome_getElem?, Option.isSome_iff_exists,
    List.mem_iff_getElem?]
  exact exists_congr fun i => r.index_iff_keys k i

variable [Std.LawfulEqOrd κ]

theorem entries_upsert_of_not_mem {r : Roster κ α} {k : κ} (change : Option α → α)
    (h : k ∉ r.keys) : (r.upsert k change).entries = r.entries ++ [(k, change none)] := by
  have hnone : r.index[k]? = none := by
    rw [← contains_iff] at h
    simpa [contains] using h
  unfold upsert
  split
  · simp_all
  · simp [entries]

theorem entries_upsert_of_getElem? {r : Roster κ α} {k : κ} {v : α} {i : Nat}
    (change : Option α → α) (h : r.entries[i]? = some (k, v)) :
    (r.upsert k change).entries = r.entries.set i (k, change (some v)) := by
  have hindex : r.index[k]? = some i := by
    rw [r.index_iff_keys, keys, List.getElem?_map, h]
    rfl
  unfold upsert
  split
  · next j hj =>
      obtain rfl : i = j := Option.some.inj (hindex.symm.trans hj)
      simp only [entries]
      refine List.ext_getElem? fun m => ?_
      rw [Array.getElem?_toList, Array.getElem?_modify, List.getElem?_set]
      rw [entries, Array.getElem?_toList] at h
      by_cases hm : i = m
      · subst hm
        have hlt : i < r.slots.toList.length := by
          have := (Array.getElem?_eq_some_iff.1 h).1
          simpa using this
        simp [h]
        simpa using hlt
      · simp [hm]
  · simp_all

theorem get?_upsert [DecidableEq κ] (k k' : κ) (change : Option α → α) (r : Roster κ α) :
    (r.upsert k change).get? k' = if k = k' then some (change (r.get? k)) else r.get? k' := by
  unfold upsert get?
  split
  · next i hi =>
      have hslot : ∀ {k' : κ} {j : Nat}, r.index[k']? = some j → ∃ v, r.slots[j]? = some (k', v) := by
        intro k' j hj
        obtain ⟨⟨k'', v⟩, hv, rfl⟩ := Option.map_eq_some_iff.1 ((r.index_iff k' j).1 hj)
        exact ⟨v, hv⟩
      by_cases hk : k = k'
      · subst hk
        obtain ⟨v, hv⟩ := hslot hi
        simp [hi, Array.getElem?_modify, hv]
      · rw [if_neg hk]
        cases hj : r.index[k']? with
        | none => rfl
        | some j =>
            have hij : i ≠ j := by
              rintro rfl
              obtain ⟨v, hv⟩ := hslot hi
              obtain ⟨v', hv'⟩ := hslot hj
              exact hk (congrArg Prod.fst (Option.some.inj (hv.symm.trans hv')))
            simp [Array.getElem?_modify, hij]
  · next hnone =>
      rw [Std.ExtTreeMap.getElem?_insert]
      by_cases hk : k = k'
      · subst hk
        simp [hnone]
      · cases hj : r.index[k']? with
        | none => simp [hk]
        | some j =>
            have hlt : j < r.slots.size := by
              obtain ⟨p, hp, -⟩ := Option.map_eq_some_iff.1 ((r.index_iff k' j).1 hj)
              exact (Array.getElem?_eq_some_iff.1 hp).1
            simp [hk, Array.getElem?_push, Nat.ne_of_lt hlt]

/-- The order of the keys is the order in which they first came. -/
theorem keys_upsert (k : κ) (change : Option α → α) (r : Roster κ α) :
    (r.upsert k change).keys = if r.contains k then r.keys else r.keys ++ [k] := by
  by_cases h : k ∈ r.keys
  · rw [if_pos (contains_iff.2 h)]
    obtain ⟨i, hi⟩ := List.mem_iff_getElem?.1 h
    rw [keys, List.getElem?_map, Option.map_eq_some_iff] at hi
    obtain ⟨⟨k', v⟩, hi, rfl⟩ := hi
    rw [keys, entries_upsert_of_getElem? change hi, List.map_set]
    refine List.ext_getElem? fun m => ?_
    rw [List.getElem?_set]
    split
    · next hm =>
        subst hm
        simp [keys, hi]
        exact (List.getElem?_eq_some_iff.1 hi).1
    · rfl
  · rw [if_neg (fun hc => h (contains_iff.1 hc)), keys, entries_upsert_of_not_mem change h]
    simp [keys]

theorem entries_insert_of_not_mem {r : Roster κ α} {k : κ} (v : α) (h : k ∉ r.keys) :
    (r.insert k v).entries = r.entries ++ [(k, v)] :=
  entries_upsert_of_not_mem _ h

theorem keys_insert_of_not_mem {r : Roster κ α} {k : κ} (v : α) (h : k ∉ r.keys) :
    (r.insert k v).keys = r.keys ++ [k] := by
  rw [keys, entries_insert_of_not_mem v h, List.map_append, ← keys]
  rfl

end Roster

end Automata
