/-
# Reading quoted text back

Where a quoted string ends, and what it quotes, can be told without knowing what comes after it
(`Text.quoted_append_inj`).  Inside the quotes no piece that stands for a character is the beginning of a piece that
stands for another (`Text.prefixFree_quotedChar`), and none begins with the closing quote.  This holds for every set
of characters that are written by code point: a code point is closed by a brace, which is not a digit.
-/
import Automata.Text.Quoted
import Mathlib.Data.List.Basic

namespace Automata.Text

/-! ## Codes -/

section

variable {α β : Type} {code : α → List β}

/-- What stands for one thing is never the beginning of what stands for another. -/
def PrefixFree (code : α → List β) : Prop :=
  ∀ ⦃a b : α⦄ ⦃x y : List β⦄, code a ++ x = code b ++ y → a = b

/-- A text in front of which a sequence of code words comes to an end. -/
def Stops (code : α → List β) (x : List β) : Prop :=
  ∀ a y, code a ++ y ≠ x

/-- A sequence can be read back from the code words of its members, and so can what comes after them, if these code
words can be told apart and no one begins what comes after. -/
theorem flatMap_append_inj {as bs : List α} {x y : List β}
    (h : ∀ a ∈ as, ∀ b ∈ bs, ∀ u v, code a ++ u = code b ++ v → a = b) (hx : ∀ b ∈ bs, ∀ u, code b ++ u ≠ x)
    (hy : ∀ a ∈ as, ∀ u, code a ++ u ≠ y) (heq : as.flatMap code ++ x = bs.flatMap code ++ y) : as = bs ∧ x = y := by
  induction as generalizing bs with
  | nil =>
      cases bs with
      | nil => exact ⟨rfl, heq⟩
      | cons b bs =>
          rw [List.flatMap_cons, List.append_assoc] at heq
          exact absurd heq.symm (hx b List.mem_cons_self _)
  | cons a as ih =>
      rw [List.flatMap_cons, List.append_assoc] at heq
      cases bs with
      | nil => exact absurd heq (hy a List.mem_cons_self _)
      | cons b bs =>
          rw [List.flatMap_cons, List.append_assoc] at heq
          obtain rfl : a = b := h a List.mem_cons_self b List.mem_cons_self _ _ heq
          obtain ⟨rfl, rfl⟩ := ih (fun a ha b hb => h a (List.mem_cons_of_mem _ ha) b (List.mem_cons_of_mem _ hb))
            (fun b hb => hx b (List.mem_cons_of_mem _ hb)) (fun a ha => hy a (List.mem_cons_of_mem _ ha))
            (List.append_cancel_left heq)
          exact ⟨rfl, rfl⟩

theorem PrefixFree.flatMap_append_inj (h : PrefixFree code) {as bs : List α} {x y : List β} (hx : Stops code x)
    (hy : Stops code y) (heq : as.flatMap code ++ x = bs.flatMap code ++ y) : as = bs ∧ x = y :=
  Text.flatMap_append_inj (fun _ _ _ _ _ _ heq => h heq) (fun b _ => hx b) (fun a _ => hy a) heq

end

theorem append_cons_inj {α : Type} {a : α} {xs ys x y : List α} (hxs : a ∉ xs) (hys : a ∉ ys)
    (h : xs ++ a :: x = ys ++ a :: y) : xs = ys := by
  rcases List.append_eq_append_iff.1 h with ⟨m, rfl, hm⟩ | ⟨m, rfl, hm⟩ <;> cases m with
  | nil => simp
  | cons b m =>
      obtain ⟨rfl, -⟩ := List.cons.inj hm
      simp at hxs hys

/-! ## Code points -/

theorem digitChar_inj : ∀ m < 16, ∀ n < 16, Nat.digitChar m = Nat.digitChar n → m = n := by
  decide

theorem toDigits_inj {m n : Nat} (h : Nat.toDigits 16 m = Nat.toDigits 16 n) : m = n := by
  induction m using Nat.strongRecOn generalizing n with
  | ind m ih =>
      have hlast {m n : Nat} (h : Nat.toDigits 16 (m / 16) ++ [Nat.digitChar (m % 16)] = [Nat.digitChar n]) :
          False := by
        have hlength := congrArg List.length h
        rw [List.length_append] at hlength
        have hpos : 0 < (Nat.toDigits 16 (m / 16)).length := Nat.length_toDigits_pos
        simp only [List.length_singleton] at hlength
        omega
      -- The last digit gives the remainder, those in front of it are the digits of the quotient.
      by_cases hm : m < 16 <;> by_cases hn : n < 16
      · rw [Nat.toDigits_of_lt_base hm, Nat.toDigits_of_lt_base hn, List.singleton_inj] at h
        exact digitChar_inj m hm n hn h
      · rw [Nat.toDigits_of_lt_base hm, Nat.toDigits_of_base_le (by decide) (Nat.le_of_not_lt hn)] at h
        exact (hlast h.symm).elim
      · rw [Nat.toDigits_of_lt_base hn, Nat.toDigits_of_base_le (by decide) (Nat.le_of_not_lt hm)] at h
        exact (hlast h).elim
      · rw [Nat.toDigits_of_base_le (by decide) (Nat.le_of_not_lt hm),
          Nat.toDigits_of_base_le (by decide) (Nat.le_of_not_lt hn)] at h
        obtain ⟨hfront, hdigit⟩ := List.append_inj' h rfl
        have hdiv : m / 16 = n / 16 := ih (m / 16) (by omega) hfront
        have hmod : m % 16 = n % 16 :=
          digitChar_inj _ (Nat.mod_lt m (by decide)) _ (Nat.mod_lt n (by decide)) (List.singleton_inj.1 hdigit)
        omega

theorem brace_not_mem_toDigits (n : Nat) : '\x7d' ∉ Nat.toDigits 16 n := by
  induction n using Nat.strongRecOn with
  | ind n ih =>
      have hdigit (n : Nat) : '\x7d' ∉ [Nat.digitChar n] :=
        List.mem_singleton.not.2 (Nat.digitChar_ne _ (by decide)).symm
      by_cases hn : n < 16
      · rw [Nat.toDigits_of_lt_base hn]
        exact hdigit n
      · rw [Nat.toDigits_of_base_le (by decide) (Nat.le_of_not_lt hn), List.mem_append, not_or]
        exact ⟨ih (n / 16) (by omega), hdigit (n % 16)⟩

/-! ## Quoted characters -/

/-- The letter that stands for a character after a backslash, for the characters that have one. -/
def shortForm : Char → Option Char
  | '\x00' => some '0'
  | '\t' => some 't'
  | '\n' => some 'n'
  | '\r' => some 'r'
  | '"' => some '"'
  | '\\' => some '\\'
  | _ => none

theorem shortForm_inj {c d letter : Char} (hc : shortForm c = some letter) (hd : shortForm d = some letter) :
    c = d := by
  unfold shortForm at hc hd
  split at hc <;> cases hc <;> split at hd <;> simp_all

theorem shortForm_ne_u (c : Char) : shortForm c ≠ some 'u' := by
  unfold shortForm
  split <;> decide

theorem quotedChar_cases (escaped : Char → Bool) (c : Char) :
    (∃ letter, shortForm c = some letter ∧ quotedChar escaped c = ['\\', letter]) ∨
    (shortForm c = none ∧
      quotedChar escaped c = '\\' :: 'u' :: '\x7b' :: (Nat.toDigits 16 c.toNat ++ ['\x7d'])) ∨
    (shortForm c = none ∧ quotedChar escaped c = [c]) := by
  unfold quotedChar
  split
  iterate 6 exact .inl ⟨_, rfl, rfl⟩
  have hnone : shortForm c = none := by
    unfold shortForm
    split <;> simp_all
  split
  · exact .inr (.inl ⟨hnone, rfl⟩)
  · exact .inr (.inr ⟨hnone, rfl⟩)

theorem prefixFree_quotedChar (escaped : Char → Bool) : PrefixFree (quotedChar escaped) := by
  intro c d x y h
  have hbackslash : shortForm '\\' ≠ none := by decide
  -- Pieces of two kinds differ within their first two characters: a backslash never stands for itself alone, and
  -- no short form is the letter of a code point.
  rcases quotedChar_cases escaped c with ⟨k, hk, hc⟩ | ⟨hk, hc⟩ | ⟨hk, hc⟩ <;>
    rcases quotedChar_cases escaped d with ⟨l, hl, hd⟩ | ⟨hl, hd⟩ | ⟨hl, hd⟩ <;>
    rw [hc, hd] at h <;>
    simp only [List.cons_append, List.nil_append, List.cons.injEq, List.append_assoc, true_and] at h
  · exact shortForm_inj hk (h.1 ▸ hl)
  · exact absurd (h.1 ▸ hk) (shortForm_ne_u c)
  · exact absurd (h.1 ▸ hl) hbackslash
  · exact absurd (h.1 ▸ hl) (shortForm_ne_u d)
  · have hdigits := append_cons_inj (brace_not_mem_toDigits _) (brace_not_mem_toDigits _) h
    exact Char.toNat_inj.1 (toDigits_inj hdigits)
  · exact absurd (h.1 ▸ hl) hbackslash
  · exact absurd (h.1 ▸ hk) hbackslash
  · exact absurd (h.1 ▸ hk) hbackslash
  · exact h.1

theorem stops_quotedChar (escaped : Char → Bool) (x : List Char) : Stops (quotedChar escaped) ('"' :: x) := by
  intro c y h
  rcases quotedChar_cases escaped c with ⟨k, hk, hc⟩ | ⟨hk, hc⟩ | ⟨hk, hc⟩ <;>
    rw [hc, List.cons_append, List.cons.injEq] at h
  · exact absurd h.1 (by decide)
  · exact absurd h.1 (by decide)
  · rw [h.1] at hk
    cases hk

/-- A quoted string determines the string, and what comes after it. -/
theorem quoted_append_inj (escaped : Char → Bool) {s t : String} {x y : List Char}
    (h : quoted escaped s ++ x = quoted escaped t ++ y) : s = t ∧ x = y := by
  simp only [quoted, List.cons_append, List.append_assoc, List.nil_append, List.cons.injEq, true_and] at h
  obtain ⟨hchars, hrest⟩ := (prefixFree_quotedChar escaped).flatMap_append_inj (stops_quotedChar escaped x)
    (stops_quotedChar escaped y) h
  exact ⟨String.toList_inj.1 hchars, (List.cons.inj hrest).2⟩

end Automata.Text
