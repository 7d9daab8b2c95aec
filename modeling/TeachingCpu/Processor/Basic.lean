import TeachingCpu.Instruction
import TeachingCpu.Memory

/-!
The processor: registers, flags and the memory it counts accesses to. The operations here are the
steps that instructions are made of. Resolving an operand applies the changes that its mode makes
to registers, once; after that its place can be read and written any number of times.

Instruction bytes are fetched one at a time and only below the topmost address, since the program
counter would have to pass it. The words of operands are fetched through the program counter
without such a limit, and wrap.
-/

namespace TeachingCpu

structure Processor where
  registers : Registers
  flags : Flags
  memory : Memory

inductive Place where
  | register (r : Register)
  | memory (a : Address)
  deriving DecidableEq, Repr

namespace Processor

def initial : Processor := ⟨Registers.zero, Flags.cleared, Memory.empty⟩

def get (p : Processor) (r : Register) : Word := p.registers.get r

def set (p : Processor) (r : Register) (w : Word) : Processor :=
  { p with registers := p.registers.set r w }

def pc (p : Processor) : Address := p.get Register.pc

def setPc (p : Processor) (a : Address) : Processor := p.set Register.pc a

@[simp] theorem get_set_self (p : Processor) (r : Register) (w : Word) : (p.set r w).get r = w :=
  Registers.get_set_self _ _ _

theorem get_set (p : Processor) (r s : Register) (w : Word) :
    (p.set r w).get s = if r = s then w else p.get s :=
  Registers.get_set _ _ _ _

theorem get_set_of_ne (p : Processor) {r s : Register} (w : Word) (h : r ≠ s) :
    (p.set r w).get s = p.get s :=
  (p.get_set r s w).trans (if_neg h)

@[simp] theorem flags_set (p : Processor) (r : Register) (w : Word) :
    (p.set r w).flags = p.flags := rfl

@[simp] theorem memory_set (p : Processor) (r : Register) (w : Word) :
    (p.set r w).memory = p.memory := rfl

@[simp] theorem pc_setPc (p : Processor) (a : Address) : (p.setPc a).pc = a :=
  get_set_self _ _ _

def charge (p : Processor) (n : Nat) : Processor := { p with memory := p.memory.count n }

@[simp] theorem get_charge (p : Processor) (n : Nat) (r : Register) :
    (p.charge n).get r = p.get r := rfl

@[simp] theorem flags_charge (p : Processor) (n : Nat) : (p.charge n).flags = p.flags := rfl

@[simp] theorem bytes_charge (p : Processor) (n : Nat) :
    (p.charge n).memory.bytes = p.memory.bytes := rfl

@[simp] theorem accesses_charge (p : Processor) (n : Nat) :
    (p.charge n).memory.accesses = p.memory.accesses + n := rfl

def readByte (p : Processor) (a : Address) : Byte × Processor :=
  let (b, memory) := p.memory.readByte a
  (b, { p with memory })

def readWord (p : Processor) (a : Address) : Word × Processor :=
  let (w, memory) := p.memory.readWord a
  (w, { p with memory })

theorem readWord_eq (p : Processor) (a : Address) :
    p.readWord a = (p.memory.wordAt a, p.charge (Memory.width a)) := rfl

def writeWord (p : Processor) (a : Address) (w : Word) : Processor :=
  { p with memory := p.memory.writeWord a w }

/-- The byte at the program counter, unless that is the topmost address. -/
def fetchByte (p : Processor) : Option Byte × Processor :=
  let a := p.pc
  if a = 65535 then (none, p)
  else
    let (b, p) := p.readByte a
    (some b, p.setPc (a + 1))

theorem fetchByte_top (p : Processor) (h : p.pc = 65535) : p.fetchByte = (none, p) :=
  if_pos h

theorem fetchByte_below (p : Processor) (h : p.pc ≠ 65535) :
    p.fetchByte = (some (p.memory.byte p.pc), (p.charge 1).setPc (p.pc + 1)) :=
  if_neg h

def postIncrement (p : Processor) (r : Register) : Address × Processor :=
  let a := p.get r
  (a, p.set r (a + 2))

def preDecrement (p : Processor) (r : Register) : Address × Processor :=
  let a := p.get r - 2
  (a, p.set r a)

def fetchWord (p : Processor) : Word × Processor :=
  let (a, p) := p.postIncrement Register.pc
  p.readWord a

/-- The sum of a fetched word and a register, which may be the program counter behind that word.
-/
def index (p : Processor) (r : Register) : Address × Processor :=
  let (distance, p) := p.fetchWord
  (p.get r + distance, p)

def follow (p : Processor) (a : Address) : Place × Processor :=
  let (target, p) := p.readWord a
  (.memory target, p)

def resolve (p : Processor) (o : Operand) : Place × Processor :=
  match o.mode with
  | .register => (.register o.register, p)
  | .postIncrement =>
    let (a, p) := p.postIncrement o.register
    (.memory a, p)
  | .preDecrement =>
    let (a, p) := p.preDecrement o.register
    (.memory a, p)
  | .indexed =>
    let (a, p) := p.index o.register
    (.memory a, p)
  | .registerIndirect => (.memory (p.get o.register), p)
  | .postIncrementIndirect =>
    let (a, p) := p.postIncrement o.register
    p.follow a
  | .preDecrementIndirect =>
    let (a, p) := p.preDecrement o.register
    p.follow a
  | .indexedIndirect =>
    let (a, p) := p.index o.register
    p.follow a

theorem flags_resolve (p : Processor) (o : Operand) : (p.resolve o).2.flags = p.flags := by
  unfold resolve
  split <;> rfl

theorem bytes_resolve (p : Processor) (o : Operand) :
    (p.resolve o).2.memory.bytes = p.memory.bytes := by
  unfold resolve
  split <;> rfl

def load (p : Processor) : Place → Word × Processor
  | .register r => (p.get r, p)
  | .memory a => p.readWord a

theorem flags_load (p : Processor) (place : Place) : (p.load place).2.flags = p.flags := by
  cases place <;> rfl

theorem bytes_load (p : Processor) (place : Place) :
    (p.load place).2.memory.bytes = p.memory.bytes := by
  cases place <;> rfl

def store (p : Processor) (place : Place) (w : Word) : Processor :=
  match place with
  | .register r => p.set r w
  | .memory a => p.writeWord a w

theorem flags_store (p : Processor) (place : Place) (w : Word) :
    (p.store place w).flags = p.flags := by
  cases place <;> rfl

def push (p : Processor) (w : Word) : Processor :=
  let (a, p) := p.preDecrement Register.sp
  p.writeWord a w

theorem push_eq (p : Processor) (w : Word) :
    p.push w =
      (p.set Register.sp (p.get Register.sp - 2)).writeWord (p.get Register.sp - 2) w := rfl

def pop (p : Processor) : Word × Processor :=
  let (a, p) := p.postIncrement Register.sp
  p.readWord a

theorem pop_eq (p : Processor) :
    p.pop =
      (p.memory.wordAt (p.get Register.sp),
        (p.set Register.sp (p.get Register.sp + 2)).charge
          (Memory.width (p.get Register.sp))) := rfl

end Processor

end TeachingCpu
