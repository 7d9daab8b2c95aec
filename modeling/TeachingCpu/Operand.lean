import TeachingCpu.Numeral
import TeachingCpu.Registers

/-!
Operands. The low six bits of a byte select one of eight modes and one of eight registers. The
indexed modes bring a word of their own behind the instruction, and so do the incrementing modes
of the program counter, which step over it: there the word is an immediate value or an absolute
address.
-/

namespace TeachingCpu

inductive Mode where
  | register
  | postIncrement
  | preDecrement
  | indexed
  | registerIndirect
  | postIncrementIndirect
  | preDecrementIndirect
  | indexedIndirect
  deriving DecidableEq, Repr

namespace Mode

/-- The mode with this number; numbers from seven up are the last mode. -/
def ofCode : Nat → Mode
  | 0 => register
  | 1 => postIncrement
  | 2 => preDecrement
  | 3 => indexed
  | 4 => registerIndirect
  | 5 => postIncrementIndirect
  | 6 => preDecrementIndirect
  | _ => indexedIndirect

end Mode

structure Operand where
  mode : Mode
  register : Register
  deriving DecidableEq, Repr

namespace Operand

def ofByte (b : Byte) : Operand :=
  ⟨Mode.ofCode (b.toNat / 8 % 8), Register.select b.toNat⟩

def hasExtension (o : Operand) : Bool :=
  match o.mode with
  | .indexed | .indexedIndirect => true
  | .postIncrement | .postIncrementIndirect => o.register == Register.pc
  | _ => false

def extraBytes (o : Operand) : Nat := if o.hasExtension then 2 else 0

theorem extraBytes_le (o : Operand) : o.extraBytes ≤ 2 := by
  unfold extraBytes
  split <;> decide

def registerText (r : Register) : String := "R" ++ Numeral.decimal r.val

def text (o : Operand) (extension : Word) : String :=
  let r := registerText o.register
  match o.mode with
  | .register => r
  | .postIncrement =>
    if o.register = Register.pc then "#" ++ Numeral.decimal extension.toNat else "(" ++ r ++ ")+"
  | .preDecrement => "-(" ++ r ++ ")"
  | .indexed => Numeral.integer (signed extension) ++ "(" ++ r ++ ")"
  | .registerIndirect => "(" ++ r ++ ")"
  | .postIncrementIndirect =>
    if o.register = Register.pc then Numeral.decimal extension.toNat else "((" ++ r ++ ")+)"
  | .preDecrementIndirect => "(-(" ++ r ++ "))"
  | .indexedIndirect => "(" ++ Numeral.integer (signed extension) ++ "(" ++ r ++ "))"

theorem text_of_not_hasExtension (o : Operand) (h : o.hasExtension = false) (v w : Word) :
    o.text v = o.text w := by
  obtain ⟨mode, r⟩ := o
  cases mode <;> simp_all [hasExtension, text]

end Operand

end TeachingCpu
