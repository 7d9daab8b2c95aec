import TeachingCpu.Proofs.Machine.Idle

/-!
What a program cannot see. Beside its contents a memory keeps the copy that was loaded, a count of
accesses, the address changed last and a log of writes; beside its processor a machine keeps a
mnemonic table and a breakpoint. Executing instructions fills these records and looks at none of
them. Two machines that differ in nothing else go through the same contents, registers and flags,
instruction by instruction and also where a program writes its own instructions, and they count the
same accesses on the way.
-/

namespace TeachingCpu

namespace Processor

/-- Two processors that agree but for the records of their memories. Both have counted equally many
accesses since the counts were `a` and `b`. -/
structure Alike (a b : Nat) (p q : Processor) : Prop where
  registers : p.registers = q.registers
  flags : p.flags = q.flags
  bytes : p.memory.bytes = q.memory.bytes
  accesses : ∃ n, p.memory.accesses = a + n ∧ q.memory.accesses = b + n

/-- Operations on such processors that answer the same and leave them so. -/
structure Answers {α : Type} (a b : Nat) (x y : α × Processor) : Prop where
  value : x.1 = y.1
  alike : x.2.Alike a b y.2

@[elab_as_elim] theorem Answers.elim {α : Type} {a b : Nat}
    {motive : α × Processor → α × Processor → Prop} {x y : α × Processor} (h : Answers a b x y)
    (same : ∀ v p q, Alike a b p q → motive (v, p) (v, q)) : motive x y := by
  obtain ⟨v, p⟩ := x
  obtain ⟨w, q⟩ := y
  obtain ⟨rfl, alike⟩ := h
  exact same v p q alike

namespace Alike

variable {a b : Nat} {p q : Processor}

theorem get (h : p.Alike a b q) (r : Register) : p.get r = q.get r := by
  rw [Processor.get, Processor.get, h.registers]

theorem bus (h : p.Alike a b q) : p.memory.bus = q.memory.bus := by
  rw [Memory.bus, Memory.bus, h.bytes]

theorem wordAt (h : p.Alike a b q) (c : Address) : p.memory.wordAt c = q.memory.wordAt c := by
  rw [Memory.wordAt, Memory.wordAt, h.bus]

theorem set (h : p.Alike a b q) (r : Register) (w : Word) : (p.set r w).Alike a b (q.set r w) where
  registers := by rw [Processor.set, Processor.set, h.registers]
  flags := h.flags
  bytes := h.bytes
  accesses := h.accesses

theorem withFlags (h : p.Alike a b q) (f : Flags) :
    Alike a b { p with flags := f } { q with flags := f } :=
  ⟨h.registers, rfl, h.bytes, h.accesses⟩

theorem charge (h : p.Alike a b q) (n : Nat) : (p.charge n).Alike a b (q.charge n) where
  registers := h.registers
  flags := h.flags
  bytes := h.bytes
  accesses := by
    obtain ⟨before, left, right⟩ := h.accesses
    exact ⟨before + n, by rw [accesses_charge, left, Nat.add_assoc],
      by rw [accesses_charge, right, Nat.add_assoc]⟩

theorem takeWritten (h : p.Alike a b q) :
    Alike a b { p with memory := p.memory.takeWritten.2 }
      { q with memory := q.memory.takeWritten.2 } :=
  ⟨h.registers, h.flags, h.bytes, h.accesses⟩

theorem readWord (h : p.Alike a b q) {c d : Address} (same : c = d) :
    Answers a b (p.readWord c) (q.readWord d) := by
  rw [same, readWord_eq, readWord_eq]
  exact ⟨h.wordAt d, h.charge _⟩

theorem writeWord (h : p.Alike a b q) (c : Address) (w : Word) :
    (p.writeWord c w).Alike a b (q.writeWord c w) where
  registers := h.registers
  flags := h.flags
  bytes := by
    have left : (p.writeWord c w).memory.bus = p.memory.bus.setWord c w :=
      p.memory.bus_writeWord c w
    have right : (q.writeWord c w).memory.bus = q.memory.bus.setWord c w :=
      q.memory.bus_writeWord c w
    exact congrArg Bus.bytes (left.trans ((congrArg (·.setWord c w) h.bus).trans right.symm))
  accesses := by
    obtain ⟨before, left, right⟩ := h.accesses
    exact ⟨before + Memory.width c,
      (p.memory.accesses_writeWord c w).trans (by rw [left, Nat.add_assoc]),
      (q.memory.accesses_writeWord c w).trans (by rw [right, Nat.add_assoc])⟩

theorem postIncrement (h : p.Alike a b q) (r : Register) :
    Answers a b (p.postIncrement r) (q.postIncrement r) := by
  rw [Processor.postIncrement, Processor.postIncrement, h.get r]
  exact ⟨rfl, h.set r _⟩

theorem preDecrement (h : p.Alike a b q) (r : Register) :
    Answers a b (p.preDecrement r) (q.preDecrement r) := by
  rw [Processor.preDecrement, Processor.preDecrement, h.get r]
  exact ⟨rfl, h.set r _⟩

theorem fetchWord (h : p.Alike a b q) : Answers a b p.fetchWord q.fetchWord :=
  let stepped := h.postIncrement Register.pc
  stepped.alike.readWord stepped.value

theorem index (h : p.Alike a b q) (r : Register) : Answers a b (p.index r) (q.index r) := by
  have fetched := h.fetchWord
  refine ⟨?_, fetched.alike⟩
  simp only [Processor.index, fetched.value, fetched.alike.get r]

theorem follow (h : p.Alike a b q) {c d : Address} (same : c = d) :
    Answers a b (p.follow c) (q.follow d) :=
  let read := h.readWord same
  ⟨congrArg Place.memory read.value, read.alike⟩

theorem resolve (h : p.Alike a b q) (o : Operand) :
    Answers a b (p.resolve o) (q.resolve o) := by
  obtain ⟨mode, r⟩ := o
  have increment := h.postIncrement r
  have decrement := h.preDecrement r
  have indexed := h.index r
  cases mode with
  | register => exact ⟨rfl, h⟩
  | postIncrement => exact ⟨congrArg Place.memory increment.value, increment.alike⟩
  | preDecrement => exact ⟨congrArg Place.memory decrement.value, decrement.alike⟩
  | indexed => exact ⟨congrArg Place.memory indexed.value, indexed.alike⟩
  | registerIndirect => exact ⟨congrArg Place.memory (h.get r), h⟩
  | postIncrementIndirect => exact increment.alike.follow increment.value
  | preDecrementIndirect => exact decrement.alike.follow decrement.value
  | indexedIndirect => exact indexed.alike.follow indexed.value

theorem load (h : p.Alike a b q) (place : Place) : Answers a b (p.load place) (q.load place) := by
  cases place with
  | register r => exact ⟨h.get r, h⟩
  | memory c => exact h.readWord rfl

theorem store (h : p.Alike a b q) (place : Place) (w : Word) :
    (p.store place w).Alike a b (q.store place w) := by
  cases place with
  | register r => exact h.set r w
  | memory c => exact h.writeWord c w

theorem jump (h : p.Alike a b q) (target : Operand) :
    (p.jump target).Alike a b (q.jump target) := by
  unfold Processor.jump
  refine (h.resolve target).elim fun place p q alike => ?_
  cases place with
  | register r => exact alike
  | memory c => exact alike.set _ _

theorem push (h : p.Alike a b q) (w : Word) : (p.push w).Alike a b (q.push w) := by
  rw [push_eq, push_eq, h.get]
  exact (h.set _ _).writeWord _ w

theorem pop (h : p.Alike a b q) : Answers a b p.pop q.pop := by
  rw [pop_eq, pop_eq, h.get, h.wordAt]
  exact ⟨rfl, (h.set _ _).charge _⟩

theorem branch (h : p.Alike a b q) (c : Condition) (offset : Byte) :
    (p.branch c offset).Alike a b (q.branch c offset) := by
  rw [Processor.branch, Processor.branch, h.flags]
  split
  · rw [pc, pc, h.get]
    exact h.set _ _
  · exact h

theorem countDown (h : p.Alike a b q) (counter : Register) (offset : Byte) :
    (p.countDown counter offset).Alike a b (q.countDown counter offset) := by
  have counted := h.set counter (q.get counter - 1)
  simp only [Processor.countDown, h.get counter]
  split
  · exact counted
  · rw [pc, pc, counted.get]
    exact counted.set _ _

theorem call (h : p.Alike a b q) (link : Register) (target : Operand) :
    (p.call link target).Alike a b (q.call link target) := by
  unfold Processor.call
  refine (h.resolve target).elim fun place p q alike => ?_
  cases place with
  | register r => exact alike
  | memory c =>
    have pushed := alike.push (q.get link)
    simp only [alike.get link]
    split
    · exact pushed.set _ _
    · rw [pc, pc, pushed.get]
      exact (pushed.set _ _).set _ _

theorem leave (h : p.Alike a b q) (link : Register) : (p.leave link).Alike a b (q.leave link) := by
  simp only [Processor.leave]
  split
  · rw [h.pop.value]
    exact h.pop.alike.set _ _
  · rw [h.get link]
    have popped := (h.set Register.pc (q.get link)).pop
    rw [setPc, setPc, popped.value]
    exact popped.alike.set _ _

theorem unary (h : p.Alike a b q) (op : UnaryOp) (o : Operand) :
    (p.unary op o).Alike a b (q.unary op o) := by
  have resolved := h.resolve o
  have loaded := resolved.alike.load (q.resolve o).1
  have computed := loaded.alike.withFlags
  simp only [Processor.unary, resolved.value, loaded.value, loaded.alike.flags]
  split
  · exact (computed _).store _ _
  · exact computed _

theorem binary (h : p.Alike a b q) (op : BinaryOp) (source destination : Operand) :
    (p.binary op source destination).Alike a b (q.binary op source destination) := by
  have resolved := h.resolve source
  have loaded := resolved.alike.load (q.resolve source).1
  have resolved' := loaded.alike.resolve destination
  have loaded' := resolved'.alike.load
    (((q.resolve source).2.load (q.resolve source).1).2.resolve destination).1
  simp only [Processor.binary, resolved.value, loaded.value, resolved'.value, loaded'.value,
    loaded'.alike.flags]
  exact (loaded'.alike.withFlags _).store _ _

theorem execute (h : p.Alike a b q) (i : Instruction) :
    Answers a b (p.execute i) (q.execute i) := by
  cases i with
  | nop | rti | hlt => exact ⟨rfl, h⟩
  | ccc mask | scc mask =>
    rw [Processor.execute, Processor.execute, h.flags]
    exact ⟨rfl, h.withFlags _⟩
  | branch c offset => exact ⟨rfl, h.branch c offset⟩
  | jmp target => exact ⟨rfl, h.jump target⟩
  | sob counter offset => exact ⟨rfl, h.countDown counter offset⟩
  | jsr link target => exact ⟨rfl, h.call link target⟩
  | rts link => exact ⟨rfl, h.leave link⟩
  | unary op o => exact ⟨rfl, h.unary op o⟩
  | binary op source destination => exact ⟨rfl, h.binary op source destination⟩

theorem current (h : p.Alike a b q) : p.current = q.current := by
  rw [Processor.current, Processor.current, h.bus, pc, pc, h.get]

theorem step (h : p.Alike a b q) : Answers a b p.step q.step := by
  have place : p.pc = q.pc := h.get Register.pc
  have complete : p.Complete ↔ q.Complete := by
    rw [Complete, Complete, place, h.current]
  simp only [step_eq, complete, fetched, h.current, place]
  split
  · exact ((h.charge _).set _ _).execute _
  · exact ⟨rfl, (h.charge _).set _ _⟩

end Alike

end Processor

namespace Machine

/-- Two machines that agree on all that a program can see. Their mnemonic tables, breakpoints,
loaded copies, counts, last changes and logs may be any. -/
structure Alike (m n : Machine) : Prop where
  registers : ∀ r, m.register r = n.register r
  flags : m.flags = n.flags
  bytes : ∀ a, m.bus.byte a = n.bus.byte a

def outcomes (m : Machine) (k : Nat) : List Outcome :=
  (List.range k).map fun i => (m.executed i).stepOver.1

namespace Alike

variable {m n : Machine}

theorem processor (h : m.Alike n) :
    Processor.Alike m.memory.accesses n.memory.accesses m.processor n.processor where
  registers := Registers.ext h.registers
  flags := h.flags
  bytes := AddressMap.ext h.bytes
  accesses := ⟨0, rfl, rfl⟩

theorem of_memory (m : Machine) (memory : Memory) (same : memory.bytes = m.memory.bytes)
    (table : Table) (breakpoint : Option Address) :
    m.Alike ⟨{ m.processor with memory }, table, breakpoint⟩ where
  registers _ := rfl
  flags := rfl
  bytes c := congrArg (AddressMap.get · c) same.symm

theorem of_processor {a b : Nat} (h : Processor.Alike a b m.processor n.processor) : m.Alike n where
  registers := h.get
  flags := h.flags
  bytes c := congrArg (Bus.byte · c) h.bus

theorem stepOver (h : m.Alike n) :
    m.stepOver.1 = n.stepOver.1 ∧ m.stepOver.2.Alike n.stepOver.2 ∧
      ∃ g, m.stepOver.2.memory.accesses = m.memory.accesses + g ∧
        n.stepOver.2.memory.accesses = n.memory.accesses + g := by
  have stepped := h.processor.step
  have synced : Processor.Alike m.memory.accesses n.memory.accesses m.stepOver.2.processor
      n.stepOver.2.processor := stepped.alike.takeWritten
  exact ⟨stepped.value, of_processor synced, synced.accesses⟩

theorem executed (h : m.Alike n) (k : Nat) : (m.executed k).Alike (n.executed k) := by
  induction k with
  | zero => exact h
  | succ k ih =>
    rw [executed_succ, executed_succ]
    exact ih.stepOver.2.1

end Alike

/-- What is recorded about a machine has no influence on what it does. -/
theorem instrumentation_never_influences {m n : Machine} (h : m.Alike n) (k : Nat) :
    m.outcomes k = n.outcomes k ∧
      ∀ i < k, (m.executed (i + 1)).Alike (n.executed (i + 1)) ∧
        ∃ g, (m.executed (i + 1)).memory.accesses = (m.executed i).memory.accesses + g ∧
          (n.executed (i + 1)).memory.accesses = (n.executed i).memory.accesses + g := by
  refine ⟨List.map_congr_left fun i _ => (h.executed i).stepOver.1, fun i _ => ?_⟩
  rw [executed_succ, executed_succ]
  exact (h.executed i).stepOver.2

/-- Clears the halt that follows, by a word at the address in R1. -/
def selfWriter : Machine :=
  (((initial.setByte 0 0x80).setByte 1 0x21).setByte 2 0xF0).setRegister (.select 1) 2

def recordedOtherwise : Memory :=
  { selfWriter.memory with
    loaded := AddressMap.fill 7
    accesses := 1000
    lastChanged := some 9
    written := [3, 5] }

/-- The same program in a machine at its breakpoint, with a table that was never filled. -/
def selfWriterElsewhere : Machine :=
  ⟨{ selfWriter.processor with memory := recordedOtherwise }, Table.blank, some 0⟩

theorem byte_selfWriter (a : Address) : selfWriter.bus.byte a =
    if 2 = a then 0xF0 else if 1 = a then 0x21 else if 0 = a then 0x80 else 0 := by
  have bus : selfWriter.bus = ((initial.bus.setByte 0 0x80).setByte 1 0x21).setByte 2 0xF0 := rfl
  have zeros : initial.bus.byte a = 0 := AddressMap.get_fill 0 a
  rw [bus, Bus.byte_setByte, Bus.byte_setByte, Bus.byte_setByte, zeros]

theorem stepOver_selfWriter : selfWriter.stepOver.1 = .ok ∧
    selfWriter.stepOver.2.bus = selfWriter.bus.setWord 2 0 ∧ selfWriter.stepOver.2.pc = 2 := by
  have start : selfWriter.pc = 0 := rfl
  have fetches : selfWriter.processor.fetch =
      (some (.unary .clr ⟨.registerIndirect, 1⟩), selfWriter.processor.fetched) :=
    fetch_of_bytes start (byte_selfWriter 0) (byte_selfWriter 1) (by decide)
  obtain ⟨-, current, -⟩ := Processor.fetched_of_fetch fetches
  have place : selfWriter.processor.fetched.pc = 2 := by
    rw [Processor.fetched, current]
    rfl
  rw [stepOver, Processor.step_of_fetch fetches]
  exact ⟨rfl, Memory.bus_writeWord _ 2 0, place⟩

theorem outcomes_selfWriter : selfWriter.outcomes 3 = [.ok, .noop, .noop] ∧
    (selfWriter.executed 3).pc = 4 := by
  obtain ⟨outcome, bus, pc⟩ := stepOver_selfWriter
  have cleared (a : Address) (h : a = 2 ∨ a = 3) :
      selfWriter.stepOver.2.bus.instructionAt a = .nop := by
    have zero : selfWriter.stepOver.2.bus.byte a = 0 := by
      rw [bus, Bus.setWord, if_neg (by decide), Bus.byte_setByte, Bus.byte_setByte]
      rcases h with rfl | rfl <;> rfl
    rw [Bus.instructionAt, zero]
    rfl
  have second := stepOver_nop (by rw [pc]; decide) (by rw [pc]; exact cleared 2 (.inl rfl))
  have third := stepOver_nop (m := selfWriter.stepOver.2.stepOver.2)
    (by rw [second.2.2, pc]; decide)
    (by rw [second.2.1, second.2.2, pc]; exact cleared 3 (.inr rfl))
  refine ⟨?_, ?_⟩
  · have listed : selfWriter.outcomes 3 = [selfWriter.stepOver.1,
      selfWriter.stepOver.2.stepOver.1, selfWriter.stepOver.2.stepOver.2.stepOver.1] := rfl
    rw [listed, outcome, second.1, third.1]
  · have last : selfWriter.executed 3 = selfWriter.stepOver.2.stepOver.2.stepOver.2 := rfl
    rw [last, third.2.2, second.2.2, pc]
    rfl

theorem instrumentation_never_influences_selfWriter :
    selfWriter.Alike selfWriterElsewhere ∧
      selfWriterElsewhere.outcomes 3 = [.ok, .noop, .noop] ∧
      (selfWriterElsewhere.executed 3).pc = 4 := by
  have alike : selfWriter.Alike selfWriterElsewhere :=
    .of_memory selfWriter recordedOtherwise rfl Table.blank (some 0)
  obtain ⟨outcomes, along⟩ := instrumentation_never_influences alike 3
  obtain ⟨first, pc⟩ := outcomes_selfWriter
  exact ⟨alike, outcomes.symm.trans first, ((along 2 (by decide)).1.registers _).symm.trans pc⟩

end Machine

end TeachingCpu
