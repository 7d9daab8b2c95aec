import TeachingCpu.Mnemonics.Refresh
import TeachingCpu.Processor.Execute

/-!
The machine: a processor, the mnemonic table of its memory and a breakpoint. Every operation that
can change memory brings the table up to date before it returns, so no write is left in the log
between operations.
-/

namespace TeachingCpu

structure Machine where
  processor : Processor
  table : Table
  breakpoint : Option Address

namespace Machine

def initial : Machine :=
  ⟨Processor.initial, Table.ofBus Memory.empty.bus, none⟩

def memory (m : Machine) : Memory := m.processor.memory

def bus (m : Machine) : Bus := m.memory.bus

def register (m : Machine) (r : Register) : Word := m.processor.get r

def setRegister (m : Machine) (r : Register) (w : Word) : Machine :=
  { m with processor := m.processor.set r w }

def pc (m : Machine) : Address := m.processor.pc

def setPc (m : Machine) (a : Address) : Machine := { m with processor := m.processor.setPc a }

def flags (m : Machine) : Flags := m.processor.flags

def setFlags (m : Machine) (flags : Flags) : Machine :=
  let p := m.processor
  { m with processor := { p with flags } }

def setBreakpoint (m : Machine) (a : Option Address) : Machine := { m with breakpoint := a }

/-- Follows the writes that are in the log and empties it. -/
def sync (m : Machine) : Machine :=
  let (written, memory) := m.processor.memory.takeWritten
  { m with
    processor := { m.processor with memory }
    table := m.table.resyncAll memory.bus written }

theorem table_sync (m : Machine) :
    m.sync.table = m.table.resyncAll m.bus m.memory.written := rfl

@[simp] theorem registers_sync (m : Machine) :
    m.sync.processor.registers = m.processor.registers := rfl

@[simp] theorem flags_sync (m : Machine) : m.sync.flags = m.flags := rfl

@[simp] theorem bus_sync (m : Machine) : m.sync.bus = m.bus := rfl

@[simp] theorem loaded_sync (m : Machine) : m.sync.memory.loaded = m.memory.loaded := rfl

@[simp] theorem accesses_sync (m : Machine) : m.sync.memory.accesses = m.memory.accesses := rfl

@[simp] theorem lastChanged_sync (m : Machine) :
    m.sync.memory.lastChanged = m.memory.lastChanged := rfl

@[simp] theorem written_sync (m : Machine) : m.sync.memory.written = [] := rfl

@[simp] theorem breakpoint_sync (m : Machine) : m.sync.breakpoint = m.breakpoint := rfl

def readByte (m : Machine) (a : Address) : Byte × Machine :=
  let (b, processor) := m.processor.readByte a
  (b, { m with processor })

def readWord (m : Machine) (a : Address) : Word × Machine :=
  let (w, processor) := m.processor.readWord a
  (w, { m with processor })

def withWrites (m : Machine) (change : Memory → Memory) : Machine :=
  let p := m.processor
  sync { m with processor := { p with memory := change p.memory } }

def setByte (m : Machine) (a : Address) (b : Byte) : Machine := m.withWrites (·.writeByte a b)

def setWord (m : Machine) (a : Address) (w : Word) : Machine := m.withWrites (·.writeWord a w)

/-- Makes a pass over the table and returns the last row that it reached. -/
def refresh (m : Machine) (start : Address) (full : Bool) : Address × Machine :=
  let pass := m.table.refresh m.bus start full
  (pass.1, { m with table := pass.2 })

theorem refresh_fst (m : Machine) (start : Address) (full : Bool) :
    (m.refresh start full).1 = (m.refresh start full).2.table.lastRow := rfl

/-- Changes the memory by a bulk operation, which is followed by a full pass over the table. -/
def withBulk (m : Machine) (change : Memory → Memory) : Machine :=
  let p := m.processor
  (refresh { m with processor := { p with memory := change p.memory } } 0 true).2

def load (m : Machine) (source : Array Byte) : Machine := m.withBulk (·.load source)

def loadRange (m : Machine) (source : Array Byte) (start stop target : Address) : Machine :=
  m.withBulk fun memory => (memory.loadRange source start stop target).2

def zero (m : Machine) (start stop : Address) : Machine := m.withBulk (·.zero start stop)

def copy (m : Machine) (start stop target : Address) : Machine :=
  m.withBulk (·.copy start stop target)

def restore (m : Machine) : Machine := m.withBulk (·.restore)

/-- Executes one instruction, also one at the breakpoint. -/
def stepOver (m : Machine) : Outcome × Machine :=
  let (outcome, processor) := m.processor.step
  (outcome, sync { m with processor })

theorem stepOver_of_step {m : Machine} {outcome : Outcome} {p : Processor}
    (h : m.processor.step = (outcome, p)) :
    m.stepOver = (outcome, sync { m with processor := p }) := by
  rw [stepOver, h]

def step (m : Machine) : Outcome × Machine :=
  if m.breakpoint = some m.pc then (.breakPoint, m) else m.stepOver

theorem step_at_breakpoint (m : Machine) (h : m.breakpoint = some m.pc) :
    m.step = (.breakPoint, m) := if_pos h

theorem step_elsewhere (m : Machine) (h : m.breakpoint ≠ some m.pc) : m.step = m.stepOver :=
  if_neg h

def registerColumn (m : Machine) (r : Register) : String :=
  Operand.registerText r ++ "=" ++ Numeral.hexWord (m.register r)

def stateLine (m : Machine) : String :=
  " ".intercalate ((List.finRange 8).map m.registerColumn) ++ "  " ++ m.flags.columns

end Machine

end TeachingCpu
