import TeachingCpu.Processor.Execute

/-!
Execution with a record of the words it uses. Each operation of the processor is repeated with its
reads and writes of words written down in order, together with what they were for; leaving out the
record gives the operation itself. The words that follow an instruction are told apart from all
others: displacements, immediate values and absolute addresses, which the program counter steps
over. The bytes of the instruction are not recorded.
-/

namespace TeachingCpu

inductive Purpose where
  | extension
  | pointer
  | operand
  | result
  | saved
  deriving DecidableEq, Repr

structure Access where
  purpose : Purpose
  address : Address
  word : Word
  deriving DecidableEq, Repr

structure Recorded (α : Type) where
  value : α
  accesses : List Access

namespace Recorded

variable {α β : Type}

instance : Monad Recorded where
  pure x := ⟨x, []⟩
  bind x f := ⟨(f x.value).value, x.accesses ++ (f x.value).accesses⟩

@[simp] theorem value_pure (x : α) : (pure x : Recorded α).value = x := rfl

@[simp] theorem value_bind (x : Recorded α) (f : α → Recorded β) :
    (x >>= f).value = (f x.value).value := rfl

def readWord (p : Processor) (purpose : Purpose) (a : Address) : Recorded (Word × Processor) :=
  ⟨p.readWord a, [⟨purpose, a, (p.readWord a).1⟩]⟩

def writeWord (p : Processor) (purpose : Purpose) (a : Address) (w : Word) : Recorded Processor :=
  ⟨p.writeWord a w, [⟨purpose, a, w⟩]⟩

def fetchWord (p : Processor) : Recorded (Word × Processor) :=
  let (a, p) := p.postIncrement Register.pc
  readWord p .extension a

def index (p : Processor) (r : Register) : Recorded (Address × Processor) := do
  let (distance, p) ← fetchWord p
  return (p.get r + distance, p)

def follow (p : Processor) (purpose : Purpose) (a : Address) : Recorded (Place × Processor) := do
  let (target, p) ← readWord p purpose a
  return (.memory target, p)

def incrementPurpose (r : Register) (otherwise : Purpose) : Purpose :=
  if r = Register.pc then .extension else otherwise

def resolve (p : Processor) (o : Operand) : Recorded (Place × Processor) :=
  match o.mode with
  | .register => pure (.register o.register, p)
  | .postIncrement =>
    let (a, p) := p.postIncrement o.register
    pure (.memory a, p)
  | .preDecrement =>
    let (a, p) := p.preDecrement o.register
    pure (.memory a, p)
  | .indexed => do
    let (a, p) ← index p o.register
    return (.memory a, p)
  | .registerIndirect => pure (.memory (p.get o.register), p)
  | .postIncrementIndirect =>
    let (a, p) := p.postIncrement o.register
    follow p (incrementPurpose o.register .pointer) a
  | .preDecrementIndirect =>
    let (a, p) := p.preDecrement o.register
    follow p .pointer a
  | .indexedIndirect => do
    let (a, p) ← index p o.register
    follow p .pointer a

def loadPurpose (o : Operand) : Purpose :=
  match o.mode with
  | .postIncrement => incrementPurpose o.register .operand
  | _ => .operand

def load (p : Processor) (o : Operand) : Place → Recorded (Word × Processor)
  | .register r => pure (p.get r, p)
  | .memory a => readWord p (loadPurpose o) a

def read (p : Processor) (o : Operand) : Recorded (Place × Word × Processor) := do
  let (place, p) ← resolve p o
  let (w, p) ← load p o place
  return (place, w, p)

def store (p : Processor) (place : Place) (w : Word) : Recorded Processor :=
  match place with
  | .register r => pure (p.set r w)
  | .memory a => writeWord p .result a w

def jump (p : Processor) (target : Operand) : Recorded Processor := do
  let (place, p) ← resolve p target
  match place with
  | .register _ => return p
  | .memory a => return p.setPc a

def call (p : Processor) (link : Register) (target : Operand) : Recorded Processor := do
  let (place, p) ← resolve p target
  match place with
  | .register _ => return p
  | .memory a =>
    let saved := p.get link
    let (top, p) := p.preDecrement Register.sp
    let p ← writeWord p .saved top saved
    let p := if link = Register.pc then p else p.set link p.pc
    return p.setPc a

def leave (p : Processor) (link : Register) : Recorded Processor := do
  let p := if link = Register.pc then p else p.setPc (p.get link)
  let (top, p) := p.postIncrement Register.sp
  let (saved, p) ← readWord p .saved top
  return p.set link saved

def unary (p : Processor) (op : UnaryOp) (operand : Operand) : Recorded Processor := do
  let (place, w, p) ← read p operand
  let computed := op.apply p.flags w
  let p := { p with flags := computed.flags }
  if op.stores then store p place computed.result else return p

def binary (p : Processor) (op : BinaryOp) (source destination : Operand) :
    Recorded Processor := do
  let (_, s, p) ← read p source
  let (place, d, p) ← read p destination
  let computed := op.apply p.flags s d
  store { p with flags := computed.flags } place computed.result

def execute (p : Processor) (i : Instruction) : Recorded (Outcome × Processor) :=
  match i with
  | .jmp target => do return (.ok, ← jump p target)
  | .jsr link target => do return (.ok, ← call p link target)
  | .rts link => do return (.ok, ← leave p link)
  | .unary op operand => do return (.ok, ← unary p op operand)
  | .binary op source destination => do return (.ok, ← binary p op source destination)
  | i => pure (p.execute i)

def step (p : Processor) : Recorded (Outcome × Processor) :=
  match p.fetch with
  | (none, p) => pure (.endOfMemory, p)
  | (some i, p) => execute p i

theorem value_resolve (p : Processor) (o : Operand) : (resolve p o).value = p.resolve o := by
  obtain ⟨mode, r⟩ := o
  cases mode <;> rfl

theorem value_load (p : Processor) (o : Operand) (place : Place) :
    (load p o place).value = p.load place := by
  cases place <;> rfl

theorem value_read (p : Processor) (o : Operand) :
    (read p o).value =
      ((p.resolve o).1, (p.resolve o).2.load (p.resolve o).1) := by
  simp only [read, value_bind, value_pure, value_resolve, value_load]

theorem value_store (p : Processor) (place : Place) (w : Word) :
    (store p place w).value = p.store place w := by
  cases place <;> rfl

theorem value_jump (p : Processor) (target : Operand) : (jump p target).value = p.jump target := by
  simp only [jump, value_bind, value_resolve, Processor.jump]
  generalize p.resolve target = resolved
  obtain ⟨place, q⟩ := resolved
  cases place <;> rfl

theorem value_call (p : Processor) (link : Register) (target : Operand) :
    (call p link target).value = p.call link target := by
  simp only [call, value_bind, value_resolve, Processor.call]
  generalize p.resolve target = resolved
  obtain ⟨place, q⟩ := resolved
  cases place <;> rfl

theorem value_unary (p : Processor) (op : UnaryOp) (operand : Operand) :
    (unary p op operand).value = p.unary op operand := by
  simp only [unary, value_bind, value_read, Processor.unary]
  split
  · rw [value_store]
  · rfl

theorem value_binary (p : Processor) (op : BinaryOp) (source destination : Operand) :
    (binary p op source destination).value = p.binary op source destination := by
  simp only [binary, value_bind, value_read, value_store, Processor.binary]

theorem value_execute (p : Processor) (i : Instruction) :
    (execute p i).value = p.execute i := by
  cases i with
  | jmp target => exact congrArg _ (value_jump p target)
  | jsr link target => exact congrArg _ (value_call p link target)
  | unary op operand => exact congrArg _ (value_unary p op operand)
  | binary op source destination => exact congrArg _ (value_binary p op source destination)
  | _ => rfl

/-- Without the record, this is what the processor does. -/
theorem value_step (p : Processor) : (step p).value = p.step := by
  unfold step Processor.step
  generalize p.fetch = fetched
  obtain ⟨i, q⟩ := fetched
  cases i with
  | none => rfl
  | some i => exact value_execute q i

end Recorded

end TeachingCpu
