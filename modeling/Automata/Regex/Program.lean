/-
# Postfix programs

A tree written as a list of instructions for a stack: a leaf pushes itself, an operator takes its operands
off the stack and pushes the tree it makes of them.  `Regex.ofProgram` runs such a list and `Regex.program`
writes one; running what was written gives the tree back (`Regex.ofProgram_program`).  A program may also
use the derived forms and copy the top of the stack; what is written never does.
-/
import Automata.Regex
import Automata.Stack

namespace Automata

/-- One instruction of a postfix program. -/
inductive Instruction where
  | lit (symbol : String)
  | epsilon
  /-- Take `count` expressions, the one pushed first being the first operand, and push their combination. -/
  | combine (op : Operator) (count : Nat)
  | star
  | opt
  | plus
  /-- Push the top a second time. -/
  | dup
  deriving DecidableEq

/-- Why a program has no tree. -/
inductive ProgramError where
  /-- An operator was asked for with fewer than two operands. -/
  | arity (e : ArityError)
  /-- An instruction found too few expressions on the stack. -/
  | underflow
  /-- The program left `count` expressions and not one. -/
  | unbalanced (count : Nat)
  deriving DecidableEq

namespace Instruction

/-- The stack, its top first, after one instruction. -/
def run : Instruction → List Regex → Except ProgramError (List Regex)
  | .lit s, stack => .ok (.lit s :: stack)
  | .epsilon, stack => .ok (.epsilon :: stack)
  | .combine op n, stack =>
      match Stack.takeLast n stack with
      | none => .error .underflow
      | some (rs, stack) =>
          match op.apply rs with
          | .ok r => .ok (r :: stack)
          | .error e => .error (.arity e)
  | .star, r :: stack => .ok (.star r :: stack)
  | .opt, r :: stack => .ok (r.opt :: stack)
  | .plus, r :: stack => .ok (r.plus :: stack)
  | .dup, r :: stack => .ok (r :: r :: stack)
  | _, [] => .error .underflow

/-- The stack after a list of instructions; the first one that fails ends the run. -/
def runAll : List Instruction → List Regex → Except ProgramError (List Regex)
  | [], stack => .ok stack
  | i :: rest, stack =>
      match i.run stack with
      | .ok stack => runAll rest stack
      | .error e => .error e

end Instruction

/-- The tree that a program leaves on the stack. -/
def Regex.ofProgram (program : List Instruction) : Except ProgramError Regex :=
  match Instruction.runAll program [] with
  | .ok [r] => .ok r
  | .ok stack => .error (.unbalanced stack.length)
  | .error e => .error e

/-! ## Writing a tree as a program -/

mutual

/-- The instructions that push `r`, in front of `rest`. -/
def Regex.emit : Regex → List Instruction → List Instruction
  | .lit s, rest => .lit s :: rest
  | .epsilon, rest => .epsilon :: rest
  | .cat os, rest => os.emit (.combine .cat os.length :: rest)
  | .alt os, rest => os.emit (.combine .alt os.length :: rest)
  | .star r, rest => r.emit (.star :: rest)

/-- The instructions that push the operands from left to right, in front of `rest`. -/
def Operands.emit : Operands → List Instruction → List Instruction
  | .pair a b, rest => a.emit (b.emit rest)
  | .cons a os, rest => a.emit (os.emit rest)

end

/-- The tree as a program of symbols, the empty word, the two operators and repetition. -/
def Regex.program (r : Regex) : List Instruction := r.emit []

/-! ## Reading back -/

namespace Instruction

theorem runAll_combine (op : Operator) (os : Operands) (rest : List Instruction)
    (stack : List Regex) :
    runAll (.combine op os.length :: rest) (os.toList.reverse ++ stack)
      = runAll rest (op.node os :: stack) := by
  have h := Stack.takeLast_reverse_append os.toList stack
  rw [os.length_toList] at h
  simp [runAll, run, h]

end Instruction

mutual

theorem Regex.runAll_emit : ∀ (r : Regex) (rest : List Instruction) (stack : List Regex),
    Instruction.runAll (r.emit rest) stack = Instruction.runAll rest (r :: stack)
  | .lit _, _, _ => rfl
  | .epsilon, _, _ => rfl
  | .cat os, rest, stack => by
      rw [Regex.emit, Operands.runAll_emit os, Instruction.runAll_combine]; rfl
  | .alt os, rest, stack => by
      rw [Regex.emit, Operands.runAll_emit os, Instruction.runAll_combine]; rfl
  | .star r, rest, stack => by
      rw [Regex.emit, Regex.runAll_emit r]; rfl

theorem Operands.runAll_emit : ∀ (os : Operands) (rest : List Instruction) (stack : List Regex),
    Instruction.runAll (os.emit rest) stack
      = Instruction.runAll rest (os.toList.reverse ++ stack)
  | .pair a b, rest, stack => by
      rw [Operands.emit, Regex.runAll_emit a, Regex.runAll_emit b]; rfl
  | .cons a os, rest, stack => by
      rw [Operands.emit, Regex.runAll_emit a, Operands.runAll_emit os]
      simp [Operands.toList]

end

/-- Running the program of a tree gives the tree back. -/
theorem Regex.ofProgram_program (r : Regex) : Regex.ofProgram r.program = .ok r := by
  simp [Regex.ofProgram, Regex.program, Regex.runAll_emit, Instruction.runAll]

end Automata
