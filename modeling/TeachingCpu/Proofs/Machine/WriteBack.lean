import TeachingCpu.Proofs.Machine.Reachable
import TeachingCpu.Proofs.Processor.Computing

/-!
Comparisons and tests. A comparison stores the destination back, so it writes, but it writes what it
has read: loading and storing treat a place alike, also at a byte-wide address and across the border
to those. A test does not write at all. Of either nothing is left but flags, counted accesses and
what resolving the operands does to registers.
-/

namespace TeachingCpu

theorem lowByte_toUInt16 (b : Byte) : lowByte b.toUInt16 = b := by
  have h := b.toNat_lt
  apply UInt8.toNat_inj.mp
  rw [lowByte_toNat, UInt8.toNat_toUInt16]
  omega

namespace Bus

theorem setByte_byte (bus : Bus) (a : Address) : bus.setByte a (bus.byte a) = bus := by
  have same : bus.bytes.set a (bus.bytes.get a) = bus.bytes := by
    ext b
    rw [AddressMap.get_set]
    split
    · next here => rw [here]
    · rfl
  rw [setByte, byte, same]

theorem setWord_wordAt (bus : Bus) (a : Address) : bus.setWord a (bus.wordAt a) = bus := by
  rw [setWord, wordAt]
  split
  · rw [lowByte_toUInt16, setByte_byte]
  · rw [highByte_word, lowByte_word, setByte_byte, setByte_byte]

end Bus

def Instruction.compares : Instruction → Bool
  | unary op _ => op == .tst
  | binary op _ _ => op == .cmp
  | _ => false

namespace Processor

variable (p : Processor)

def resolveAll (os : List Operand) : Processor := os.foldl (fun p o => (p.resolve o).2) p

theorem resolveAll_singleton (o : Operand) : p.resolveAll [o] = (p.resolve o).2 := rfl

theorem resolveAll_pair (source destination : Operand) :
    p.resolveAll [source, destination] = ((p.resolve source).2.resolve destination).2 := rfl

theorem registers_load (place : Place) : (p.load place).2.registers = p.registers := by
  cases place <;> rfl

theorem registers_afterRead (o : Operand) :
    (p.afterRead o).registers = (p.resolve o).2.registers :=
  (p.resolve o).2.registers_load _

theorem registers_resolve_congr {q : Processor} (same : p.registers = q.registers) (o : Operand) :
    (p.resolve o).2.registers = (q.resolve o).2.registers := by
  obtain ⟨mode, r⟩ := o
  -- a word of memory decides the place of the operand and no register
  cases mode <;>
    simp only [resolve, postIncrement, preDecrement, index, follow, fetchWord, readWord, get, set,
      same]

theorem registers_store_load {q : Processor} (same : p.registers = q.registers) (place : Place) :
    (p.store place (q.load place).1).registers = p.registers := by
  cases place with
  | register r =>
    have value : (q.load (.register r)).1 = p.registers.get r := by rw [same]; rfl
    rw [value]
    exact p.registers.set_get r
  | memory a => rfl

theorem bus_store_load {q : Processor} (same : p.memory.bus = q.memory.bus) (place : Place) :
    (p.store place (q.load place).1).memory.bus = p.memory.bus := by
  cases place with
  | register r => rfl
  | memory a =>
    have value : (q.load (.memory a)).1 = p.memory.bus.wordAt a := by rw [same]; rfl
    rw [value]
    exact (p.memory.bus_writeWord a _).trans (p.memory.bus.setWord_wordAt a)

theorem lastChanged_resolve (o : Operand) :
    (p.resolve o).2.memory.lastChanged = p.memory.lastChanged := by
  unfold resolve
  split <;> rfl

theorem lastChanged_load (place : Place) :
    (p.load place).2.memory.lastChanged = p.memory.lastChanged := by
  cases place <;> rfl

theorem written_load (place : Place) : (p.load place).2.memory.written = p.memory.written := by
  cases place <;> rfl

theorem unary_tst (o : Operand) :
    p.unary .tst o = { p.afterRead o with flags := (p.unaryResult .tst o).flags } := by
  rw [unary_eq]
  rfl

theorem binary_cmp (source destination : Operand) :
    p.binary .cmp source destination =
      { (p.afterRead source).afterRead destination with
        flags := (p.binaryResult .cmp source destination).flags }.store
          ((p.afterRead source).resolve destination).1
          (((p.afterRead source).resolve destination).2.load
            ((p.afterRead source).resolve destination).1).1 := by
  rw [binary_eq]
  rfl

theorem bus_execute_of_compares {i : Instruction} (compares : i.compares = true) :
    (p.execute i).2.memory.bus = p.memory.bus := by
  cases i with
  | unary op o =>
    obtain rfl : op = .tst := beq_iff_eq.mp compares
    rw [execute, unary_tst]
    exact p.bus_afterRead o
  | binary op source destination =>
    obtain rfl : op = .cmp := beq_iff_eq.mp compares
    have first := p.bus_afterRead source
    have second := (p.afterRead source).bus_afterRead destination
    have loaded := second.trans (Recorded.bus_resolve (p.afterRead source) destination).symm
    have kept := bus_store_load
      { (p.afterRead source).afterRead destination with
        flags := (p.binaryResult .cmp source destination).flags } loaded
    rw [execute, binary_cmp]
    exact (kept _).trans (second.trans first)
  | _ => contradiction

theorem registers_execute_of_compares {i : Instruction} (compares : i.compares = true) :
    (p.execute i).2.registers = (p.resolveAll i.operands).registers := by
  cases i with
  | unary op o =>
    obtain rfl : op = .tst := beq_iff_eq.mp compares
    rw [execute, unary_tst, Instruction.operands, resolveAll_singleton]
    exact p.registers_afterRead o
  | binary op source destination =>
    obtain rfl : op = .cmp := beq_iff_eq.mp compares
    have first := p.registers_afterRead source
    have second := (p.afterRead source).registers_afterRead destination
    have kept := registers_store_load
      { (p.afterRead source).afterRead destination with
        flags := (p.binaryResult .cmp source destination).flags } second
    rw [execute, binary_cmp, Instruction.operands, resolveAll_pair,
      ← registers_resolve_congr _ first]
    exact (kept _).trans second
  | _ => contradiction

theorem written_unary_tst (o : Operand) : (p.unary .tst o).memory.written = p.memory.written := by
  rw [unary_tst, ← p.written_resolve o]
  exact (p.resolve o).2.written_load _

theorem lastChanged_unary_tst (o : Operand) :
    (p.unary .tst o).memory.lastChanged = p.memory.lastChanged := by
  rw [unary_tst, ← p.lastChanged_resolve o]
  exact (p.resolve o).2.lastChanged_load _

theorem lastChanged_binary (op : BinaryOp) {source destination : Operand} {a : Address}
    (h : ((p.afterRead source).resolve destination).1 = .memory a) :
    (p.binary op source destination).memory.lastChanged =
      some (if Memory.byteWide a then a else a + 1) := by
  rw [binary_eq, h]
  exact Memory.lastChanged_writeWord _ a _

theorem outcome_execute_of_compares {i : Instruction} (compares : i.compares = true) :
    (p.execute i).1 = .ok := by
  cases i with
  | unary | binary => rfl
  | _ => contradiction

end Processor

namespace Machine

theorem table_stepOver (m : Machine) : m.stepOver.2.table =
    m.table.resyncAll m.processor.step.2.memory.bus m.processor.step.2.memory.written := rfl

theorem lastChanged_stepOver (m : Machine) :
    m.stepOver.2.memory.lastChanged = m.processor.step.2.memory.lastChanged := rfl

theorem bus_stepOver_of_compares {m : Machine} {i : Instruction} {p : Processor}
    (fetches : m.processor.fetch = (some i, p)) (compares : i.compares = true) :
    m.stepOver.2.bus = m.bus := by
  obtain ⟨-, -, rfl⟩ := Processor.fetched_of_fetch fetches
  have step := Processor.step_of_fetch fetches
  have kept := m.processor.fetched.bus_execute_of_compares compares
  rw [← step] at kept
  exact kept

/-- A comparison or a test that is executed leaves contents and rows as they were and registers as
resolving its operands leaves them. A test writes nothing; a comparison with a destination in memory
does. -/
theorem comparison_keeps_contents {m : Machine} {i : Instruction} {p : Processor}
    (reached : Reachable m) (fetches : m.processor.fetch = (some i, p))
    (compares : i.compares = true) :
    m.stepOver.1 = .ok ∧
      m.stepOver.2.memory.bytes = m.memory.bytes ∧
      m.stepOver.2.table.rows = m.table.rows ∧
      m.stepOver.2.processor.registers = (p.resolveAll i.operands).registers ∧
      (∀ operand, i = .unary .tst operand →
        m.processor.step.2.memory.written = [] ∧
          m.stepOver.2.memory.lastChanged = m.memory.lastChanged ∧
          m.stepOver.2.table.lastRow = m.table.lastRow) ∧
      ∀ source destination a, i = .binary .cmp source destination →
        ((p.afterRead source).resolve destination).1 = .memory a →
          m.stepOver.2.memory.lastChanged = some (if Memory.byteWide a then a else a + 1) := by
  have bytes : m.stepOver.2.memory.bytes = m.memory.bytes :=
    congrArg Bus.bytes (bus_stepOver_of_compares fetches compares)
  have rows := (rows_of_reachable reached).2 _ reached.stepOver bytes
  have step := Processor.step_of_fetch fetches
  have nothing := (synced_of_reachable reached).written
  obtain ⟨-, -, rfl⟩ := Processor.fetched_of_fetch fetches
  refine ⟨?_, bytes, rows, ?_, ?_, ?_⟩
  · exact (congrArg Prod.fst step).trans (Processor.outcome_execute_of_compares _ compares)
  · exact (congrArg (·.2.registers) step).trans
      (Processor.registers_execute_of_compares _ compares)
  · rintro operand rfl
    have written : m.processor.step.2.memory.written = [] := by
      rw [step]
      exact (m.processor.fetched.written_unary_tst operand).trans nothing
    refine ⟨written, ?_, ?_⟩
    · rw [lastChanged_stepOver, step]
      exact m.processor.fetched.lastChanged_unary_tst operand
    · rw [table_stepOver, written]
      rfl
  · rintro source destination a rfl place
    rw [lastChanged_stepOver, step]
    exact m.processor.fetched.lastChanged_binary .cmp place

/-- About to compare the word at the border to the byte-wide addresses with itself: the source steps
over it, the destination steps back. -/
def atBorder : Machine :=
  ((((initial.setByte 0 0xC2).setByte 1 0x51).setByte 0xFFD9 0x12).setByte 0xFFDA
    0x34).setRegister (.select 1) 0xFFD9

theorem bus_atBorder : atBorder.bus =
    (((initial.bus.setByte 0 0xC2).setByte 1 0x51).setByte 0xFFD9 0x12).setByte 0xFFDA 0x34 := rfl

theorem fetch_atBorder : atBorder.processor.fetch =
    (some (.binary .cmp ⟨.postIncrement, 1⟩ ⟨.preDecrement, 1⟩), atBorder.processor.fetched) := by
  have first : atBorder.bus.byte 0 = 0xC2 := by simp [bus_atBorder, Bus.byte_setByte]
  have second : atBorder.bus.byte (0 + 1) = 0x51 := by simp [bus_atBorder, Bus.byte_setByte]
  exact fetch_of_bytes rfl first second (by decide)

theorem comparison_keeps_contents_atBorder :
    atBorder.stepOver.2.memory.bytes = atBorder.memory.bytes ∧
      atBorder.stepOver.2.table.rows = atBorder.table.rows ∧
      atBorder.stepOver.2.memory.lastChanged = some 0xFFDA ∧
      atBorder.stepOver.2.register 1 = 0xFFD9 := by
  have reached : Reachable atBorder :=
    ((((Reachable.initial.setByte 0 0xC2).setByte 1 0x51).setByte 0xFFD9 0x12).setByte 0xFFDA
      0x34).setRegister (.select 1) 0xFFD9
  obtain ⟨-, bytes, rows, registers, -, writes⟩ :=
    comparison_keeps_contents reached fetch_atBorder rfl
  refine ⟨bytes, rows, writes _ _ _ rfl rfl, ?_⟩
  exact congrArg (·.get 1) registers

end Machine

end TeachingCpu
