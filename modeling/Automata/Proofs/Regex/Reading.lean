/-
# Reading an expression back

The pieces of the text of an expression are read from left to right with a stack that has a frame for each bracket
that is open (`Regex.read`).  What is read back is the expression made flat (`Regex.read_tokens`): the brackets keep
an alternation in a concatenation, and whatever is repeated, together, but nothing in the text shows which of several
neighbours in a row belonged to an operator of their own.  Making an expression flat does not change its text
(`Regex.tokens_flat`), so two expressions have the same text if and only if they are the same when made flat.
-/
import Automata.Proofs.Regex.Tokens

namespace Automata

namespace Regex

/-- What has been read since a bracket was opened. -/
structure Frame where
  /-- The alternatives in front of the last bar. -/
  finished : List Regex
  /-- The factors behind the last bar. -/
  factors : List Regex

namespace Frame

/-- The alternatives, if the last of them ends here. -/
def alternatives (F : Frame) : List Regex := F.finished ++ [Operator.cat.join F.factors]

/-- The expression, if the bracket is closed here. -/
def value (F : Frame) : Regex := Operator.alt.join F.alternatives

/-- The frame with more factors. -/
def push (F : Frame) (rs : List Regex) : Frame := { F with factors := F.factors ++ rs }

/-- The frame with its last factor repeated. -/
def repeatLast (F : Frame) : Option Frame :=
  F.factors.getLast?.map fun r => { F with factors := F.factors.dropLast ++ [.star r] }

theorem push_push (F : Frame) (rs ss : List Regex) : (F.push rs).push ss = F.push (rs ++ ss) := by
  simp [push]

theorem repeatLast_push (F : Frame) (r : Regex) : (F.push [r]).repeatLast = some (F.push [.star r]) := by
  simp [push, repeatLast]

end Frame

/-- Reads one piece. -/
def step : List Frame → Token → Option (List Frame)
  | F :: outer, .symbol s => some (F.push [.lit s] :: outer)
  | F :: outer, .epsilon => some (F.push [.epsilon] :: outer)
  | F :: outer, .bar => some (⟨F.alternatives, []⟩ :: outer)
  | F :: outer, .star => F.repeatLast.map (· :: outer)
  | F :: outer, .opening => some (⟨[], []⟩ :: F :: outer)
  | F :: G :: outer, .closing => some (G.push [F.value] :: outer)
  | _, _ => none

/-- Reads a sequence of pieces in which every bracket is closed. -/
def read (ts : List Token) : Option Regex :=
  match ts.foldlM step [⟨[], []⟩] with
  | some [F] => some F.value
  | _ => none

/-! ## What pieces in a row add to a frame -/

/-- The pieces are read as factors of the alternative that they stand in. -/
def AddsFactors (ts : List Token) (rs : List Regex) : Prop :=
  ∀ F outer, ts.foldlM step (F :: outer) = some (F.push rs :: outer)

/-- At the start of an alternative, the pieces are read as the rest of the alternatives up to where they end. -/
def AddsAlternatives (ts : List Token) (rs : List Regex) : Prop :=
  ∀ finished outer, ∃ F : Frame,
    ts.foldlM step (⟨finished, []⟩ :: outer) = some (F :: outer) ∧ F.alternatives = finished ++ rs

section

variable {ts ts' : List Token} {rs rs' : List Regex} {r : Regex}

theorem AddsFactors.append (h : AddsFactors ts rs) (h' : AddsFactors ts' rs') :
    AddsFactors (ts ++ ts') (rs ++ rs') := by
  intro F outer
  rw [List.foldlM_append, h, Option.bind_eq_bind, Option.bind_some, h', Frame.push_push]

theorem AddsFactors.star (h : AddsFactors ts [r]) : AddsFactors (ts ++ [.star]) [.star r] := by
  intro F outer
  rw [List.foldlM_append, h, Option.bind_eq_bind, Option.bind_some, List.foldlM_cons, step, Frame.repeatLast_push]
  rfl

theorem AddsFactors.alternative (h : AddsFactors ts rs) : AddsAlternatives ts [Operator.cat.join rs] := by
  intro finished outer
  exact ⟨_, h _ outer, rfl⟩

theorem AddsAlternatives.bar (h : AddsAlternatives ts rs) (h' : AddsAlternatives ts' rs') :
    AddsAlternatives (ts ++ .bar :: ts') (rs ++ rs') := by
  intro finished outer
  obtain ⟨F, hread, hF⟩ := h finished outer
  obtain ⟨G, hread', hG⟩ := h' F.alternatives outer
  refine ⟨G, ?_, by rw [hG, hF, List.append_assoc]⟩
  rw [List.foldlM_append, hread, Option.bind_eq_bind, Option.bind_some, List.foldlM_cons, step]
  exact hread'

theorem AddsAlternatives.bracketed (h : AddsAlternatives ts rs) :
    AddsFactors (bracketed true ts) [Operator.alt.join rs] := by
  intro F outer
  obtain ⟨G, hread, hG⟩ := h [] (F :: outer)
  have hvalue : G.value = Operator.alt.join rs := by
    rw [Frame.value, hG, List.nil_append]
  simp [Regex.bracketed, step, hread, hvalue]

end

/-! ## Expressions -/

/-- How an expression is read where the three levels are asked for. -/
structure Readable (r : Regex) : Prop where
  alternatives : AddsAlternatives (r.tokens 0) (Operator.alt.parts r.flat)
  factors : AddsFactors (r.tokens 1) (Operator.cat.parts r.flat)
  single : AddsFactors (r.tokens 3) [r.flat]

theorem AddsFactors.alternatives {ts : List Token} {r : Regex} (h : AddsFactors ts (Operator.cat.parts r.flat))
    (hr : Operator.alt.parts r.flat = [r.flat]) : AddsAlternatives ts (Operator.alt.parts r.flat) := by
  have h' := h.alternative
  rwa [Operator.join_parts, ← hr] at h'

theorem AddsAlternatives.single {ts : List Token} {r : Regex} (h : AddsAlternatives ts (Operator.alt.parts r.flat)) :
    AddsFactors (Regex.bracketed true ts) [r.flat] := by
  have h' := h.bracketed
  rwa [Operator.join_parts] at h'

end Regex

/-! The levels are proved together, by induction on the tree: brackets ask again for level 0 of the same expression,
and each operand is read at the level that its operator asks for. -/

mutual

theorem Regex.readable : ∀ r : Regex, r.Readable
  | .lit s =>
      have h : Regex.AddsFactors [.symbol s] [.lit s] := fun _ _ => rfl
      ⟨h.alternatives rfl, h, h⟩
  | .epsilon =>
      have h : Regex.AddsFactors [.epsilon] [.epsilon] := fun _ _ => rfl
      ⟨h.alternatives rfl, h, h⟩
  | .cat os => by
      have h : Regex.AddsFactors (os.tokens .cat) (Operator.cat.parts (Regex.cat os).flat) := by
        rw [show Regex.cat os = Operator.cat.node os from rfl, Regex.parts_flat_node]
        exact os.addsFactors
      have halternatives := h.alternatives (Regex.parts_alt_flat_cat os)
      exact ⟨halternatives, h, halternatives.single⟩
  | .alt os => by
      have h : Regex.AddsAlternatives (os.tokens .alt) (Operator.alt.parts (Regex.alt os).flat) := by
        rw [show Regex.alt os = Operator.alt.node os from rfl, Regex.parts_flat_node]
        exact os.addsAlternatives
      -- Levels 1 and 3 both put an alternation in brackets, so in a concatenation it is a single factor too.
      refine ⟨h, ?_, h.single⟩
      rw [Regex.parts_cat_flat_alt]
      exact h.single
  | .star r => by
      have h : Regex.AddsFactors (r.tokens 3 ++ [.star]) [Regex.star r.flat] := r.readable.single.star
      have halternatives := Regex.AddsFactors.alternatives (r := .star r) h rfl
      exact ⟨halternatives, h, halternatives.single⟩

theorem Operands.addsFactors : ∀ os : Operands, Regex.AddsFactors (os.tokens .cat) (os.flatten .cat)
  | .pair a b => a.readable.factors.append b.readable.factors
  | .cons a os => a.readable.factors.append os.addsFactors

theorem Operands.addsAlternatives : ∀ os : Operands, Regex.AddsAlternatives (os.tokens .alt) (os.flatten .alt)
  | .pair a b => a.readable.alternatives.bar b.readable.alternatives
  | .cons a os => a.readable.alternatives.bar os.addsAlternatives

end

/-- Reading the text of an expression gives the expression made flat. -/
theorem Regex.read_tokens (r : Regex) : Regex.read (r.tokens 0) = some r.flat := by
  obtain ⟨F, hread, hF⟩ := r.readable.alternatives [] []
  rw [Regex.read, hread]
  show some (Operator.alt.join F.alternatives) = some r.flat
  rw [hF, List.nil_append, Operator.join_parts]

/-! ## Making an expression flat -/

theorem Operands.separator_tokens (op : Operator) : ∀ os : Operands,
    op.separator ++ os.tokens op = os.toList.flatMap fun r => op.separator ++ r.tokens op.level
  | .pair a b => by simp [Operands.tokens, Operands.toList]
  | .cons a os => by simp [Operands.tokens, Operands.toList, ← Operands.separator_tokens op os]

theorem Regex.tokens_node (op : Operator) (os : Operands) (min : Nat) :
    (op.node os).tokens min = Regex.bracketed (op.level < min) (os.tokens op) := by
  cases op <;> rfl

theorem Operator.flatMap_parts (op : Operator) (r : Regex) :
    ((op.parts r).flatMap fun r => op.separator ++ r.tokens op.level) = op.separator ++ r.tokens op.level := by
  obtain ⟨os, rfl⟩ | h := op.parts_cases r
  · rw [Operator.parts_node, ← Operands.separator_tokens, Regex.tokens_node, Regex.bracketed]
    simp only [Nat.lt_irrefl, decide_false, Bool.false_eq_true, if_false]
  · rw [h, List.flatMap_singleton]

theorem Regex.tokens_flat_node {op : Operator} {os : Operands}
    (h : ((os.flatten op).flatMap fun r => op.separator ++ r.tokens op.level) =
      os.toList.flatMap fun r => op.separator ++ r.tokens op.level) (min : Nat) :
    (op.node os).flat.tokens min = (op.node os).tokens min := by
  obtain ⟨os', hflat, hos'⟩ := Regex.flat_node op os
  have htokens : os'.tokens op = os.tokens op := by
    rw [← hos', ← Operands.separator_tokens, ← Operands.separator_tokens] at h
    exact List.append_cancel_left h
  rw [hflat, Regex.tokens_node, Regex.tokens_node, htokens]

mutual

/-- Making an expression flat does not change its text. -/
theorem Regex.tokens_flat : ∀ (r : Regex) (min : Nat), r.flat.tokens min = r.tokens min
  | .lit s, min => rfl
  | .epsilon, min => rfl
  | .cat os, min => Regex.tokens_flat_node (os.flatMap_flatten .cat) min
  | .alt os, min => Regex.tokens_flat_node (os.flatMap_flatten .alt) min
  | .star r, min => by
      rw [Regex.flat, Regex.tokens, Regex.tokens, r.tokens_flat 3]

theorem Operands.flatMap_flatten (op : Operator) : ∀ os : Operands,
    ((os.flatten op).flatMap fun r => op.separator ++ r.tokens op.level) =
      os.toList.flatMap fun r => op.separator ++ r.tokens op.level
  | .pair a b => by
      simp only [Operands.flatten, Operands.toList, List.flatMap_append, List.flatMap_cons, List.flatMap_nil,
        Operator.flatMap_parts, a.tokens_flat, b.tokens_flat, List.append_nil]
  | .cons a os => by
      simp only [Operands.flatten, Operands.toList, List.flatMap_append, List.flatMap_cons,
        Operator.flatMap_parts, a.tokens_flat, os.flatMap_flatten op]

end

namespace Regex

theorem tokens_eq_iff {r s : Regex} : r.tokens 0 = s.tokens 0 ↔ r.flat = s.flat := by
  constructor
  · intro h
    have hread := congrArg read h
    rw [r.read_tokens, s.read_tokens] at hread
    exact Option.some_inj.1 hread
  · intro h
    rw [← r.tokens_flat, ← s.tokens_flat, h]

theorem flat_flat (r : Regex) : r.flat.flat = r.flat :=
  tokens_eq_iff.1 (r.tokens_flat 0)

/-- Two expressions have the same text if and only if they are the same when made flat, whichever characters are
written by code point inside quotes. -/
theorem text_eq_iff_flat_eq (r s : Regex) :
    (∀ escaped, r.text escaped = s.text escaped ↔ r.flat = s.flat) ∧ (r.display = s.display ↔ r.flat = s.flat) := by
  have htext (escaped : Char → Bool) : r.text escaped = s.text escaped ↔ r.flat = s.flat :=
    text_eq_iff.trans tokens_eq_iff
  refine ⟨htext, ?_⟩
  rw [← htext Text.isEscaped, display, display, String.ofList_inj]

end Regex

end Automata
