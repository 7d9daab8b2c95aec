import TeachingCpu.Bus
import TeachingCpu.Opcode
import TeachingCpu.Operand

/-!
Instructions. Two bytes decide an instruction up to the words of its operands, which follow in the
order of the operands. One decoding serves the processor and the disassembler: the processor runs
the instruction, the disassembler asks for its size and for its text.
-/

namespace TeachingCpu

inductive Instruction where
  | nop
  | ccc (mask : Flags)
  | scc (mask : Flags)
  | branch (condition : Condition) (offset : Byte)
  | jmp (target : Operand)
  | sob (counter : Register) (offset : Byte)
  | jsr (link : Register) (target : Operand)
  | rts (link : Register)
  | rti
  | unary (op : UnaryOp) (operand : Operand)
  | binary (op : BinaryOp) (source destination : Operand)
  | hlt
  deriving DecidableEq, Repr

namespace Instruction

/-- The source operand of a two-operand instruction lies across its two bytes. -/
def sourceBits (first second : Byte) : Byte := first * 4 + second / 64

def decode (first second : Byte) : Instruction :=
  match Opcode.ofByte first with
  | .nop => nop
  | .ccc => ccc (Flags.ofBits first)
  | .scc => scc (Flags.ofBits first)
  | .branch c => branch c second
  | .jmp => jmp (Operand.ofByte second)
  | .sob => sob (Register.select first.toNat) second
  | .jsr => jsr (Register.select first.toNat) (Operand.ofByte second)
  | .rts => rts (Register.select first.toNat)
  | .rti => rti
  | .unary op => unary op (Operand.ofByte second)
  | .binary op =>
    binary op (Operand.ofByte (sourceBits first second)) (Operand.ofByte second)
  | .hlt => hlt

def opcode : Instruction → Opcode
  | nop => .nop
  | ccc _ => .ccc
  | scc _ => .scc
  | branch c _ => .branch c
  | jmp _ => .jmp
  | sob _ _ => .sob
  | jsr _ _ => .jsr
  | rts _ => .rts
  | rti => .rti
  | unary op _ => .unary op
  | binary op _ _ => .binary op
  | hlt => .hlt

theorem opcode_decode (first second : Byte) :
    (decode first second).opcode = Opcode.ofByte first := by
  unfold decode
  split <;> simp [opcode, *]

/-- The operands in the order in which their words follow. -/
def operands : Instruction → List Operand
  | jmp target | jsr _ target => [target]
  | unary _ operand => [operand]
  | binary _ source destination => [source, destination]
  | _ => []

def baseSize (i : Instruction) : Nat := if i.opcode.hasSecondByte then 2 else 1

def extensionSize : List Operand → Nat
  | [] => 0
  | o :: os => o.extraBytes + extensionSize os

def size (i : Instruction) : Nat := i.baseSize + extensionSize i.operands

theorem baseSize_pos (i : Instruction) : 0 < i.baseSize := by
  unfold baseSize
  split <;> decide

theorem size_pos (i : Instruction) : 0 < i.size :=
  Nat.lt_of_lt_of_le i.baseSize_pos (Nat.le_add_right _ _)

/-- No instruction is longer: two bytes and two words. -/
def maxSize : Nat := 6

theorem baseSize_le (i : Instruction) : i.baseSize ≤ 2 := by
  unfold baseSize
  split <;> decide

theorem extensionSize_le (os : List Operand) : extensionSize os ≤ 2 * os.length := by
  induction os with
  | nil => exact Nat.le_refl 0
  | cons o os ih =>
    have h := o.extraBytes_le
    simp only [extensionSize, List.length_cons]
    omega

theorem length_operands_le (i : Instruction) : i.operands.length ≤ 2 := by
  cases i <;> simp [operands]

theorem size_le (i : Instruction) : i.size ≤ maxSize := by
  have base := i.baseSize_le
  have words := extensionSize_le i.operands
  have count := i.length_operands_le
  simp only [size, maxSize]
  omega

def maskText (mnemonic : String) (mask : Flags) : String :=
  let letters := mask.letters
  if letters = "" then mnemonic else mnemonic ++ " " ++ letters

/-- The instruction in assembly notation. The words of operands are looked up by their distance
from the first byte. -/
def text (i : Instruction) (wordAt : Nat → Word) : String :=
  match i with
  | nop => "NOP"
  | ccc mask => maskText "CCC" mask
  | scc mask => maskText "SCC" mask
  | branch c offset => c.mnemonic ++ " " ++ Numeral.integer (signedByte offset)
  | jmp target => "JMP " ++ target.text (wordAt 2)
  | sob r offset => "SOB " ++ Operand.registerText r ++ ", " ++ Numeral.decimal offset.toNat
  | jsr link target => "JSR " ++ Operand.registerText link ++ ", " ++ target.text (wordAt 2)
  | rts link => "RTS " ++ Operand.registerText link
  | rti => "RTI"
  | unary op operand => op.mnemonic ++ " " ++ operand.text (wordAt 2)
  | binary op source destination =>
    op.mnemonic ++ " " ++ source.text (wordAt 2) ++ ", " ++
      destination.text (wordAt (2 + source.extraBytes))
  | hlt => "HLT"

end Instruction

structure Line where
  size : Nat
  text : String
  deriving DecidableEq, Repr

namespace Bus

def instructionAt (bus : Bus) (a : Address) : Instruction :=
  Instruction.decode (bus.byte a) (bus.byte (a + 1))

/-- Disassembles the instruction at an address, which may wrap to the lowest addresses. -/
def disassemble (bus : Bus) (a : Address) : Line :=
  let i := bus.instructionAt a
  ⟨i.size, i.text fun distance => bus.wordAt (a + UInt16.ofNat distance)⟩

theorem disassemble_size_pos (bus : Bus) (a : Address) : 0 < (bus.disassemble a).size :=
  Instruction.size_pos _

theorem disassemble_size_le (bus : Bus) (a : Address) :
    (bus.disassemble a).size ≤ Instruction.maxSize :=
  Instruction.size_le _

end Bus

end TeachingCpu
