import TeachingCpu.Opcode

/-!
What the computing instructions compute: a result and new flags from operand words and old flags.
The flags of an addition or a subtraction come from its operands as they enter the sum, so a
subtraction tests overflow on the negated number. The logical instructions and the move leave the
carry alone.
-/

namespace TeachingCpu

structure Computed where
  result : Word
  flags : Flags
  deriving DecidableEq, Repr

namespace Computed

def ofSum (f : Flags) (result : Word) (a b : Int) (carry : Bool) : Computed :=
  ⟨result, { (f.ofResult result).ofSum a b result with carry }⟩

def ofLogic (f : Flags) (result : Word) (carry : Bool) : Computed :=
  ⟨result, { f.ofResult result with overflow := false, carry }⟩

/-- A shifted word; overflow says that the carry and the new sign differ. -/
def ofShift (f : Flags) (result : Word) (carry : Bool) : Computed :=
  let f := f.ofResult result
  ⟨result, { f with overflow := f.negative != carry, carry }⟩

end Computed

namespace UnaryOp

def topBit (bit : Bool) : Word := if bit then 32768 else 0

def apply (op : UnaryOp) (f : Flags) (w : Word) : Computed :=
  match op with
  | clr => ⟨0, false, true, false, false⟩
  | not => Computed.ofLogic f (~~~w) true
  | inc => Computed.ofSum f (w + 1) (signed w) 1 (carries w 1)
  | dec => Computed.ofSum f (w - 1) (signed w) (-1) (borrows w 1)
  | neg => ⟨0 - w, { f.ofResult (0 - w) with overflow := w == 32768, carry := borrows 0 w }⟩
  | tst => Computed.ofLogic f w false
  | ror => Computed.ofShift f (w / 2 + topBit f.carry) (w % 2 == 1)
  | rol => Computed.ofShift f (w * 2 + f.carryWord) (32768 ≤ w)
  | asr => Computed.ofShift f (w / 2 + topBit (32768 ≤ w)) (w % 2 == 1)
  | asl => Computed.ofShift f (w * 2) (32768 ≤ w)
  | adc =>
    Computed.ofSum f (w + f.carryWord) (signed w) f.carryInt
      (carries w f.carryWord)
  | sbc =>
    Computed.ofSum f (w - f.carryWord) (signed w) (-f.carryInt)
      (borrows w f.carryWord)

def stores (op : UnaryOp) : Bool := op != tst

end UnaryOp

namespace BinaryOp

/-- A comparison subtracts the other way round, and its result is the destination as it was. -/
def apply (op : BinaryOp) (f : Flags) (source destination : Word) : Computed :=
  match op with
  | mov => Computed.ofLogic f source f.carry
  | add =>
    Computed.ofSum f (destination + source) (signed destination) (signed source)
      (carries destination source)
  | sub =>
    Computed.ofSum f (destination - source) (signed destination) (-signed source)
      (borrows destination source)
  | cmp =>
    { Computed.ofSum f (source - destination) (signed source) (-signed destination)
        (borrows source destination) with
      result := destination }
  | and => Computed.ofLogic f (destination &&& source) f.carry
  | or => Computed.ofLogic f (destination ||| source) f.carry

end BinaryOp

end TeachingCpu
