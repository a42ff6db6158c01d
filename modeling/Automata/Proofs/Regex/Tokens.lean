/-
# The text of an expression in pieces

The text of an expression is made of symbols, the sign of the empty word, bars, stars and brackets (`Regex.tokens`).
Which pieces a text is made of can be read off it (`Regex.text_eq_iff`): a piece that is not a quoted symbol is a
single character, and a symbol that is written without quotes is none of the characters that the other pieces begin
with.
-/
import Automata.Regex.Display
import Automata.Proofs.Regex.Flat
import Automata.Proofs.Text.Quoted

namespace Automata

/-- A piece of the text of an expression. -/
inductive Regex.Token where
  | symbol (s : String)
  | epsilon
  | bar
  | star
  | opening
  | closing
  deriving DecidableEq

namespace Operator

/-- The level that the operands are asked for. -/
def level : Operator → Nat
  | .cat => 1
  | .alt => 0

/-- What stands between neighbouring operands. -/
def separator : Operator → List Regex.Token
  | .cat => []
  | .alt => [.bar]

end Operator

/-- The pieces in brackets, if `brackets` holds. -/
def Regex.bracketed (brackets : Bool) (ts : List Regex.Token) : List Regex.Token :=
  if brackets then .opening :: (ts ++ [.closing]) else ts

mutual

/-- The pieces of the text of an expression where the level `min` is asked for. -/
def Regex.tokens : Regex → Nat → List Regex.Token
  | .lit s, _ => [.symbol s]
  | .epsilon, _ => [.epsilon]
  | .cat os, min => Regex.bracketed (1 < min) (os.tokens .cat)
  | .alt os, min => Regex.bracketed (0 < min) (os.tokens .alt)
  | .star r, min => Regex.bracketed (2 < min) (r.tokens 3 ++ [.star])

/-- The pieces of the text of the operands of an operator. -/
def Operands.tokens : Operands → Operator → List Regex.Token
  | .pair a b, op => a.tokens op.level ++ (op.separator ++ b.tokens op.level)
  | .cons a os, op => a.tokens op.level ++ (op.separator ++ os.tokens op)

end

/-! ## From pieces to text -/

/-- The text of a piece. -/
def Regex.Token.text (escaped : Char → Bool) : Regex.Token → List Char
  | .symbol s => Regex.symbolText escaped s
  | .epsilon => ['ε']
  | .bar => ['|']
  | .star => ['*']
  | .opening => ['(']
  | .closing => [')']

namespace Regex

variable (escaped : Char → Bool)

theorem enclose_eq {body : List Char → List Char} {ts : List Token}
    (h : ∀ rest, body rest = ts.flatMap (Token.text escaped) ++ rest) (brackets : Bool) (rest : List Char) :
    enclose brackets body rest = (bracketed brackets ts).flatMap (Token.text escaped) ++ rest := by
  cases brackets with
  | false => exact h rest
  | true => simp [enclose, bracketed, h, Token.text]

end Regex

mutual

theorem Regex.write_eq (escaped : Char → Bool) : ∀ (r : Regex) (min : Nat) (rest : List Char),
    r.write escaped min rest = (r.tokens min).flatMap (Regex.Token.text escaped) ++ rest
  | .lit s, min, rest => by
      rw [Regex.write, Regex.tokens, List.flatMap_singleton, Regex.Token.text]
  | .epsilon, min, rest => rfl
  | .cat os, min, rest => by
      rw [Regex.write, Regex.tokens, Regex.enclose_eq escaped (os.writeCat_eq escaped)]
  | .alt os, min, rest => by
      rw [Regex.write, Regex.tokens, Regex.enclose_eq escaped (os.writeAlt_eq escaped)]
  | .star r, min, rest => by
      rw [Regex.write, Regex.tokens]
      refine Regex.enclose_eq escaped (fun rest => ?_) _ rest
      rw [r.write_eq escaped, List.flatMap_append, List.append_assoc]
      rfl

theorem Operands.writeCat_eq (escaped : Char → Bool) : ∀ (os : Operands) (rest : List Char),
    os.writeCat escaped rest = (os.tokens .cat).flatMap (Regex.Token.text escaped) ++ rest
  | .pair a b, rest => by
      rw [Operands.writeCat, a.write_eq escaped, b.write_eq escaped]
      simp [Operands.tokens, Operator.separator, Operator.level]
  | .cons a os, rest => by
      rw [Operands.writeCat, a.write_eq escaped, os.writeCat_eq escaped]
      simp [Operands.tokens, Operator.separator, Operator.level]

theorem Operands.writeAlt_eq (escaped : Char → Bool) : ∀ (os : Operands) (rest : List Char),
    os.writeAlt escaped rest = (os.tokens .alt).flatMap (Regex.Token.text escaped) ++ rest
  | .pair a b, rest => by
      rw [Operands.writeAlt, a.write_eq escaped, b.write_eq escaped]
      simp [Operands.tokens, Operator.separator, Operator.level, Regex.Token.text]
  | .cons a os, rest => by
      rw [Operands.writeAlt, a.write_eq escaped, os.writeAlt_eq escaped]
      simp [Operands.tokens, Operator.separator, Operator.level, Regex.Token.text]

end

namespace Regex

theorem text_eq (escaped : Char → Bool) (r : Regex) :
    r.text escaped = (r.tokens 0).flatMap (Token.text escaped) := by
  rw [text, write_eq, List.append_nil]

/-! ## From text to pieces -/

/-- A symbol without quotes is a character that is not reserved; a quoted one begins with a quote. -/
theorem symbolText_cases (escaped : Char → Bool) (s : String) :
    (∃ c, s.toList = [c] ∧ c ∉ reserved ∧ symbolText escaped s = [c]) ∨
      symbolText escaped s = Text.quoted escaped s := by
  unfold symbolText
  split
  · next c hs =>
      split
      · next hbare =>
          have hreserved : c ∉ reserved := by
            simp only [isBare, Bool.and_eq_true, Bool.not_eq_true', List.contains_eq_mem,
              decide_eq_false_iff_not] at hbare
            exact hbare.1
          exact .inl ⟨c, hs, hreserved, rfl⟩
      · exact .inr rfl
  · exact .inr rfl

theorem symbolText_append_inj (escaped : Char → Bool) {s t : String} {x y : List Char}
    (h : symbolText escaped s ++ x = symbolText escaped t ++ y) : s = t := by
  have hquote : '"' ∈ reserved := by decide
  obtain ⟨c, hs, hc, hsc⟩ | hsq := symbolText_cases escaped s <;>
    obtain ⟨d, ht, hd, htd⟩ | htq := symbolText_cases escaped t
  · rw [hsc, htd] at h
    rw [← String.toList_inj, hs, ht, (List.cons.inj h).1]
  · rw [hsc, htq] at h
    exact absurd ((List.cons.inj h).1 ▸ hquote) hc
  · rw [hsq, htd] at h
    exact absurd ((List.cons.inj h).1 ▸ hquote) hd
  · rw [hsq, htq] at h
    exact (Text.quoted_append_inj escaped h).1

theorem symbolText_append_ne (escaped : Char → Bool) (s : String) {c : Char} (hc : c ∈ reserved) (hne : c ≠ '"')
    (x y : List Char) : symbolText escaped s ++ x ≠ c :: y := by
  intro h
  obtain ⟨d, -, hd, hsd⟩ | hsq := symbolText_cases escaped s
  · rw [hsd] at h
    exact hd ((List.cons.inj h).1 ▸ hc)
  · rw [hsq] at h
    exact hne (List.cons.inj h).1.symm

theorem prefixFree_tokenText (escaped : Char → Bool) : Text.PrefixFree (Token.text escaped) := by
  intro a b x y h
  cases a with
  | symbol s =>
      cases b with
      | symbol t => rw [symbolText_append_inj escaped h]
      | _ => exact absurd h (symbolText_append_ne escaped s (by decide) (by decide) x y)
  | _ =>
      cases b with
      | symbol t => exact absurd h.symm (symbolText_append_ne escaped t (by decide) (by decide) y x)
      | _ => first | rfl | exact absurd (List.cons.inj h).1 (by decide)

theorem Token.text_ne_nil (escaped : Char → Bool) (t : Token) : t.text escaped ≠ [] := by
  cases t with
  | symbol s =>
      obtain ⟨c, -, -, h⟩ | h := symbolText_cases escaped s <;> rw [Token.text, h]
      · exact List.cons_ne_nil c []
      · exact List.cons_ne_nil '"' _
  | _ => exact List.cons_ne_nil _ _

theorem text_eq_iff {escaped : Char → Bool} {r s : Regex} :
    r.text escaped = s.text escaped ↔ r.tokens 0 = s.tokens 0 := by
  have hstops : Text.Stops (Token.text escaped) [] := by
    intro t y h
    exact t.text_ne_nil escaped (List.append_eq_nil_iff.1 h).1
  rw [text_eq, text_eq]
  constructor
  · intro h
    rw [← List.append_nil ((r.tokens 0).flatMap _), ← List.append_nil ((s.tokens 0).flatMap _)] at h
    exact ((prefixFree_tokenText escaped).flatMap_append_inj hstops hstops h).1
  · intro h
    rw [h]

end Regex

end Automata
