import TeachingCpu.Arithmetic
import TeachingCpu.Processor.Basic

/-!
Executing one instruction: fetching its bytes, decoding it and carrying it out. When the bytes run
out at the top of memory, nothing is carried out and the program counter stays on the topmost
address.
-/

namespace TeachingCpu

inductive Outcome where
  | ok
  | noop
  | halt
  | breakPoint
  | endOfMemory
  deriving DecidableEq, Repr

def Outcome.continues : Outcome → Bool
  | ok | noop => true
  | halt | breakPoint | endOfMemory => false

namespace Processor

/-- The instruction at the program counter. A second byte is fetched only for the kinds that have
one. -/
def fetch (p : Processor) : Option Instruction × Processor :=
  match p.fetchByte with
  | (none, p) => (none, p)
  | (some first, p) =>
    if (Opcode.ofByte first).hasSecondByte then
      match p.fetchByte with
      | (none, p) => (none, p)
      | (some second, p) => (some (Instruction.decode first second), p)
    else (some (Instruction.decode first 0), p)

def branch (p : Processor) (c : Condition) (offset : Byte) : Processor :=
  if c.holds p.flags then p.setPc (p.pc + signExtend offset) else p

theorem memory_branch (p : Processor) (c : Condition) (offset : Byte) :
    (p.branch c offset).memory = p.memory := by
  unfold branch
  split <;> rfl

theorem flags_branch (p : Processor) (c : Condition) (offset : Byte) :
    (p.branch c offset).flags = p.flags := by
  unfold branch
  split <;> rfl

/-- Jumps to a place in memory; a register is no target. -/
def jump (p : Processor) (target : Operand) : Processor :=
  match p.resolve target with
  | (.register _, p) => p
  | (.memory a, p) => p.setPc a

theorem memory_jump (p : Processor) (target : Operand) :
    (p.jump target).memory = (p.resolve target).2.memory := by
  unfold jump
  split <;> simp [setPc, *]

theorem flags_jump (p : Processor) (target : Operand) : (p.jump target).flags = p.flags := by
  rw [← p.flags_resolve target]
  unfold jump
  split <;> simp [setPc, *]

def countDown (p : Processor) (counter : Register) (offset : Byte) : Processor :=
  let count := p.get counter - 1
  let p := p.set counter count
  if count = 0 then p else p.setPc (p.pc - offset.toUInt16)

theorem memory_countDown (p : Processor) (counter : Register) (offset : Byte) :
    (p.countDown counter offset).memory = p.memory := by
  simp only [countDown]
  split <;> rfl

theorem flags_countDown (p : Processor) (counter : Register) (offset : Byte) :
    (p.countDown counter offset).flags = p.flags := by
  simp only [countDown]
  split <;> rfl

/-- Saves the link register on the stack and the return address in it. The program counter as link
register saves the return address on the stack. -/
def call (p : Processor) (link : Register) (target : Operand) : Processor :=
  match p.resolve target with
  | (.register _, p) => p
  | (.memory a, p) =>
    let p := p.push (p.get link)
    let p := if link = Register.pc then p else p.set link p.pc
    p.setPc a

def leave (p : Processor) (link : Register) : Processor :=
  let p := if link = Register.pc then p else p.setPc (p.get link)
  let (saved, p) := p.pop
  p.set link saved

def unary (p : Processor) (op : UnaryOp) (operand : Operand) : Processor :=
  let (place, p) := p.resolve operand
  let (w, p) := p.load place
  let computed := op.apply p.flags w
  let p := { p with flags := computed.flags }
  if op.stores then p.store place computed.result else p

/-- The source is resolved and read before the destination is resolved. -/
def binary (p : Processor) (op : BinaryOp) (source destination : Operand) : Processor :=
  let (sourcePlace, p) := p.resolve source
  let (s, p) := p.load sourcePlace
  let (place, p) := p.resolve destination
  let (d, p) := p.load place
  let computed := op.apply p.flags s d
  { p with flags := computed.flags }.store place computed.result

def execute (p : Processor) (i : Instruction) : Outcome × Processor :=
  match i with
  | .nop => (.noop, p)
  | .ccc mask => (.ok, { p with flags := p.flags.clear mask })
  | .scc mask => (.ok, { p with flags := p.flags.raise mask })
  | .branch c offset => (.ok, p.branch c offset)
  | .jmp target => (.ok, p.jump target)
  | .sob counter offset => (.ok, p.countDown counter offset)
  | .jsr link target => (.ok, p.call link target)
  | .rts link => (.ok, p.leave link)
  | .rti => (.ok, p)
  | .unary op operand => (.ok, p.unary op operand)
  | .binary op source destination => (.ok, p.binary op source destination)
  | .hlt => (.halt, p)

def step (p : Processor) : Outcome × Processor :=
  match p.fetch with
  | (none, p) => (.endOfMemory, p)
  | (some i, p) => p.execute i

end Processor

end TeachingCpu
