import TeachingCpu.Proofs.Processor.Call
import TeachingCpu.Proofs.Processor.Computing

/-!
What one instruction leaves alone. The contents of memory change at most where the instruction
stores its one word, which at a byte-wide address is one byte. A register that nothing is stored in
moves by a word for each operand that increments or decrements it, and by nothing else. Both are
said of the state in which the bytes of the instruction have been fetched and no operand has been
resolved.
-/

namespace TeachingCpu

/-- How far the operand moves a register that its mode names. The words that follow an instruction
move the program counter and no other register. -/
def Operand.drift (o : Operand) (r : Register) : Word :=
  if o.register = r then
    match o.mode with
    | .postIncrement | .postIncrementIndirect => 2
    | .preDecrement | .preDecrementIndirect => -2
    | .register | .indexed | .registerIndirect | .indexedIndirect => 0
  else 0

def Place.address? : Place → Option Address
  | .register _ => none
  | .memory a => some a

namespace Instruction

/-- The address at which the instruction stores a word, if it stores one in memory. A destination
is resolved after the source has been read, and a call takes the slot below the stack pointer that
its operand leaves. -/
def storesAt? (p : Processor) : Instruction → Option Address
  | unary op operand => if op.stores then (p.resolve operand).1.address? else none
  | binary _ source destination => ((p.afterRead source).resolve destination).1.address?
  | jsr _ target =>
    (p.resolve target).1.address?.map fun _ => (p.resolve target).2.get Register.sp - 2
  | _ => none

def storesIn (r : Register) : Instruction → Bool
  | unary op operand => op.stores && operand == ⟨.register, r⟩
  | binary _ _ destination => destination == ⟨.register, r⟩
  | sob counter _ => counter == r
  | jsr link _ | rts link => link == r || Register.sp == r
  | _ => false

def drift (i : Instruction) (r : Register) : Word :=
  i.operands.foldr (fun o rest => o.drift r + rest) 0

def setsFlags : Instruction → Bool
  | ccc _ | scc _ | unary _ _ | binary _ _ _ => true
  | _ => false

end Instruction

namespace Memory

/-- From `m` to `n` at most a word at the address has been written, and nothing if there is no
address. -/
structure WritesAt (m n : Memory) (target : Option Address) : Prop where
  bytes : ∀ b, n.byte b ≠ m.byte b →
    ∃ a, target = some a ∧ (b = a ∨ a < firstByteWide ∧ b = a + 1)
  loaded : n.loaded = m.loaded

variable {m n o : Memory} {target : Option Address}

theorem WritesAt.of_same (bytes : n.bytes = m.bytes) (loaded : n.loaded = m.loaded) :
    m.WritesAt n target := by
  refine ⟨fun b changed => ?_, loaded⟩
  rw [byte, byte, bus, bus, bytes] at changed
  contradiction

theorem WritesAt.after (h : n.WritesAt o target) (reads : m.WritesAt n none) :
    m.WritesAt o target := by
  refine ⟨fun b changed => ?_, h.loaded.trans reads.loaded⟩
  by_cases early : n.byte b = m.byte b
  · rw [← early] at changed
    exact h.bytes b changed
  · obtain ⟨a, nowhere, -⟩ := reads.bytes b early
    contradiction

theorem writesAt_writeWord (m : Memory) (a : Address) (w : Word) :
    m.WritesAt (m.writeWord a w) (some a) := by
  refine ⟨fun b changed => ⟨a, rfl, ?_⟩, m.loaded_writeWord a w⟩
  by_cases high : a = b
  · exact .inl high.symm
  · refine .inr ?_
    by_cases low : a + 1 = b
    · -- at a byte-wide address the second byte would not have been written
      refine ⟨(byteWide_eq_false_iff a).mp (Bool.eq_false_iff.mpr fun wide => ?_), low.symm⟩
      rw [writeWord, if_pos wide, byte_writeByte, if_neg high] at changed
      contradiction
    · rw [m.byte_writeWord_of_ne w high low] at changed
      contradiction

end Memory

namespace Processor

variable (p : Processor)

section Memory

theorem loaded_resolve (o : Operand) : (p.resolve o).2.memory.loaded = p.memory.loaded := by
  unfold resolve
  split <;> rfl

theorem reads_resolve (o : Operand) : p.memory.WritesAt (p.resolve o).2.memory none :=
  .of_same (p.bytes_resolve o) (p.loaded_resolve o)

theorem reads_afterRead (o : Operand) : p.memory.WritesAt (p.afterRead o).memory none := by
  refine Memory.WritesAt.after ?_ (p.reads_resolve o)
  rw [afterRead]
  cases (p.resolve o).1 <;> exact .of_same rfl rfl

theorem writesAt_store (place : Place) (w : Word) :
    p.memory.WritesAt (p.store place w).memory place.address? := by
  cases place with
  | register r => exact .of_same rfl rfl
  | memory a => exact p.memory.writesAt_writeWord a w

theorem writesAt_call (link : Register) (target : Operand) :
    p.memory.WritesAt (p.call link target).memory
      ((Instruction.jsr link target).storesAt? p) := by
  have read := p.reads_resolve target
  rw [Instruction.storesAt?]
  cases resolved : p.resolve target with
  | mk place q =>
    rw [resolved] at read
    cases place with
    | register r =>
      rw [call, resolved]
      exact read
    | memory t =>
      rw [memory_call resolved]
      exact (q.memory.writesAt_writeWord _ _).after read

theorem writesAt_unary (op : UnaryOp) (operand : Operand) :
    p.memory.WritesAt (p.unary op operand).memory
      ((Instruction.unary op operand).storesAt? p) := by
  have read := p.reads_afterRead operand
  rw [unary_eq, Instruction.storesAt?]
  split
  · exact (writesAt_store _ _ _).after read
  · exact read

theorem writesAt_binary (op : BinaryOp) (source destination : Operand) :
    p.memory.WritesAt (p.binary op source destination).memory
      ((Instruction.binary op source destination).storesAt? p) := by
  have read := ((p.afterRead source).reads_afterRead destination).after (p.reads_afterRead source)
  rw [binary_eq, Instruction.storesAt?]
  exact (writesAt_store _ _ _).after read

theorem writesAt_execute (i : Instruction) :
    p.memory.WritesAt (p.execute i).2.memory (i.storesAt? p) := by
  cases i with
  | nop | rti | hlt => exact .of_same rfl rfl
  | ccc mask | scc mask => exact .of_same rfl rfl
  | branch c offset =>
    rw [execute, memory_branch]
    exact .of_same rfl rfl
  | jmp target =>
    rw [execute, memory_jump]
    exact p.reads_resolve target
  | sob counter offset =>
    rw [execute, memory_countDown]
    exact .of_same rfl rfl
  | jsr link target => exact p.writesAt_call link target
  | rts link =>
    rw [execute, memory_leave]
    exact .of_same rfl rfl
  | unary op operand => exact p.writesAt_unary op operand
  | binary op source destination => exact p.writesAt_binary op source destination

end Memory

section Flags

theorem flags_call (link : Register) (target : Operand) :
    (p.call link target).flags = p.flags := by
  have read := p.flags_resolve target
  cases resolved : p.resolve target with
  | mk place q =>
    rw [resolved] at read
    cases place with
    | register r =>
      rw [call, resolved]
      exact read
    | memory t =>
      rw [call_eq resolved]
      split <;> exact read

theorem flags_execute {i : Instruction} (h : i.setsFlags = false) :
    (p.execute i).2.flags = p.flags := by
  cases i with
  | nop | rti | hlt => rfl
  | branch c offset => exact p.flags_branch c offset
  | jmp target => exact p.flags_jump target
  | sob counter offset => exact p.flags_countDown counter offset
  | jsr link target => exact p.flags_call link target
  | rts link => exact p.flags_leave link
  | ccc | scc | unary | binary => contradiction

theorem carry_binary {op : BinaryOp} (h : op = .mov ∨ op = .and ∨ op = .or)
    (source destination : Operand) :
    (p.binary op source destination).flags.carry = p.flags.carry := by
  rw [flags_binary]
  rcases h with rfl | rfl | rfl <;> rfl

end Flags

section Registers

variable {r : Register}

theorem get_resolve (o : Operand) (other : r ≠ Register.pc) :
    (p.resolve o).2.get r = p.get r + o.drift r := by
  obtain ⟨mode, s⟩ := o
  by_cases named : s = r
  · subst named
    simp only [Operand.drift, if_true]
    cases mode with
    | register | registerIndirect => exact (UInt16.add_zero _).symm
    | indexed | indexedIndirect =>
      exact (p.get_set_of_ne _ other.symm).trans (UInt16.add_zero _).symm
    | postIncrement | postIncrementIndirect => exact p.get_set_self _ _
    | preDecrement | preDecrementIndirect =>
      exact (p.get_set_self _ _).trans (UInt16.sub_eq_add_neg _ _)
  · rw [Operand.drift, if_neg named, UInt16.add_zero]
    cases mode with
    | register | registerIndirect => rfl
    | indexed | indexedIndirect => exact p.get_set_of_ne _ other.symm
    | postIncrement | postIncrementIndirect => exact p.get_set_of_ne _ named
    | preDecrement | preDecrementIndirect => exact p.get_set_of_ne _ named

theorem get_afterRead (o : Operand) (other : r ≠ Register.pc) :
    (p.afterRead o).get r = p.get r + o.drift r := by
  rw [← p.get_resolve o other, afterRead]
  cases (p.resolve o).1 <;> rfl

theorem get_branch (c : Condition) (offset : Byte) (other : r ≠ Register.pc) :
    (p.branch c offset).get r = p.get r := by
  unfold branch
  split
  · exact p.get_set_of_ne _ other.symm
  · rfl

theorem get_countDown {counter : Register} (offset : Byte) (other : r ≠ Register.pc)
    (counter_ne : counter ≠ r) : (p.countDown counter offset).get r = p.get r := by
  simp only [countDown]
  split
  · exact p.get_set_of_ne _ counter_ne
  · exact (get_set_of_ne _ _ other.symm).trans (p.get_set_of_ne _ counter_ne)

theorem get_jump (target : Operand) (other : r ≠ Register.pc) :
    (p.jump target).get r = p.get r + target.drift r := by
  rw [← p.get_resolve target other, jump]
  cases resolved : p.resolve target with
  | mk place q =>
    cases place with
    | register s => rfl
    | memory a => exact q.get_set_of_ne _ other.symm

theorem get_call {link : Register} (target : Operand) (other : r ≠ Register.pc)
    (link_ne : link ≠ r) (sp_ne : Register.sp ≠ r) :
    (p.call link target).get r = p.get r + target.drift r := by
  rw [← p.get_resolve target other]
  cases resolved : p.resolve target with
  | mk place q =>
    have pushed : (q.push (q.get link)).get r = q.get r := q.get_set_of_ne _ sp_ne
    cases place with
    | register s => rw [call, resolved]
    | memory t =>
      rw [call_eq resolved, setPc, get_set_of_ne _ _ other.symm]
      split
      · exact pushed
      · rw [get_set_of_ne _ _ link_ne, pushed]

theorem get_leave {link : Register} (other : r ≠ Register.pc) (link_ne : link ≠ r)
    (sp_ne : Register.sp ≠ r) : (p.leave link).get r = p.get r := by
  rw [leave_eq, get_set_of_ne _ _ link_ne, get_charge, get_set_of_ne _ _ sp_ne]
  split
  · rfl
  · exact p.get_set_of_ne _ other.symm

theorem get_unary {op : UnaryOp} {operand : Operand} (other : r ≠ Register.pc)
    (free : op.stores = false ∨ operand ≠ ⟨.register, r⟩) :
    (p.unary op operand).get r = p.get r + operand.drift r := by
  rw [← p.get_afterRead operand other, unary_eq]
  split
  · next stores =>
    rw [stores] at free
    have elsewhere : (p.resolve operand).1 ≠ .register r := fun same =>
      free.resolve_left (Bool.noConfusion) (p.resolve_eq_register same)
    exact get_store _ elsewhere _
  · rfl

theorem get_binary (op : BinaryOp) (source : Operand) {destination : Operand}
    (other : r ≠ Register.pc) (free : destination ≠ ⟨.register, r⟩) :
    (p.binary op source destination).get r =
      p.get r + source.drift r + destination.drift r := by
  have elsewhere : ((p.afterRead source).resolve destination).1 ≠ .register r :=
    fun same => free (resolve_eq_register _ same)
  rw [← p.get_afterRead source other, ← get_afterRead _ destination other, binary_eq]
  exact get_store _ elsewhere _

theorem get_execute {i : Instruction} (other : r ≠ Register.pc) (free : i.storesIn r = false) :
    (p.execute i).2.get r = p.get r + i.drift r := by
  -- the sum over the operands of an instruction ends in a zero
  have none : p.get r = p.get r + 0 := (UInt16.add_zero _).symm
  have one (o : Operand) : p.get r + o.drift r = p.get r + (o.drift r + 0) := by
    rw [UInt16.add_zero]
  cases i with
  | nop | rti | hlt => exact none
  | ccc mask | scc mask => exact none
  | branch c offset => exact (p.get_branch c offset other).trans none
  | jmp target => exact (p.get_jump target other).trans (one target)
  | sob counter offset =>
    exact (p.get_countDown offset other (beq_eq_false_iff_ne.mp free)).trans none
  | jsr link target =>
    obtain ⟨link_ne, sp_ne⟩ := Bool.or_eq_false_iff.mp free
    exact (p.get_call target other (beq_eq_false_iff_ne.mp link_ne)
      (beq_eq_false_iff_ne.mp sp_ne)).trans (one target)
  | rts link =>
    obtain ⟨link_ne, sp_ne⟩ := Bool.or_eq_false_iff.mp free
    exact (p.get_leave other (beq_eq_false_iff_ne.mp link_ne)
      (beq_eq_false_iff_ne.mp sp_ne)).trans none
  | unary op operand =>
    have free : op.stores = false ∨ operand ≠ ⟨.register, r⟩ :=
      (Bool.and_eq_false_iff.mp free).imp_right beq_eq_false_iff_ne.mp
    exact (p.get_unary other free).trans (one operand)
  | binary op source destination =>
    refine (p.get_binary op source other (beq_eq_false_iff_ne.mp free)).trans ?_
    rw [UInt16.add_assoc, ← UInt16.add_zero (destination.drift r)]
    rfl

end Registers

section Fetch

theorem exists_fetch_eq : ∃ n a, p.fetch.2 = (p.charge n).setPc a := by
  by_cases complete : p.Complete
  · exact ⟨_, _, congrArg Prod.snd (p.fetch_of_complete complete)⟩
  · exact ⟨_, _, congrArg Prod.snd (p.fetch_of_not_complete complete)⟩

theorem reads_fetch : p.memory.WritesAt p.fetch.2.memory none := by
  obtain ⟨n, a, fetched⟩ := p.exists_fetch_eq
  rw [fetched]
  exact .of_same rfl rfl

theorem bus_fetch : p.fetch.2.memory.bus = p.memory.bus := by
  obtain ⟨n, a, fetched⟩ := p.exists_fetch_eq
  rw [fetched]
  rfl

theorem flags_fetch : p.fetch.2.flags = p.flags := by
  obtain ⟨n, a, fetched⟩ := p.exists_fetch_eq
  rw [fetched]
  rfl

theorem get_fetch {r : Register} (other : r ≠ Register.pc) : p.fetch.2.get r = p.get r := by
  obtain ⟨n, a, fetched⟩ := p.exists_fetch_eq
  rw [fetched]
  exact get_set_of_ne _ _ other.symm

end Fetch

section Step

theorem writesAt_step :
    p.memory.WritesAt p.step.2.memory (p.fetch.1.bind fun i => i.storesAt? p.fetch.2) := by
  have read := p.reads_fetch
  cases fetched : p.fetch with
  | mk i? q =>
    rw [fetched] at read
    cases i? with
    | none =>
      rw [step, fetched]
      exact read
    | some i =>
      rw [step_of_fetch fetched]
      exact (q.writesAt_execute i).after read

theorem flags_step (h : ∀ i, p.fetch.1 = some i → i.setsFlags = false) :
    p.step.2.flags = p.flags := by
  have same := p.flags_fetch
  cases fetched : p.fetch with
  | mk i? q =>
    rw [fetched] at same h
    cases i? with
    | none =>
      rw [step, fetched]
      exact same
    | some i =>
      rw [step_of_fetch fetched]
      exact (q.flags_execute (h i rfl)).trans same

variable {p} {i : Instruction}

theorem step_eq_execute (h : p.fetch.1 = some i) : p.step = p.fetch.2.execute i :=
  step_of_fetch (Prod.ext h rfl)

theorem carry_step {op : BinaryOp} {source destination : Operand}
    (h : p.fetch.1 = some (.binary op source destination))
    (logical : op = .mov ∨ op = .and ∨ op = .or) : p.step.2.flags.carry = p.flags.carry := by
  rw [step_eq_execute h, ← p.flags_fetch]
  exact p.fetch.2.carry_binary logical source destination

theorem get_step {r : Register} (h : p.fetch.1 = some i) (other : r ≠ Register.pc)
    (free : i.storesIn r = false) : p.step.2.get r = p.get r + i.drift r := by
  rw [step_eq_execute h, get_execute _ other free, p.get_fetch other]

end Step

end Processor

namespace Machine

/-- What the next instruction of `m` leaves alone in `n`. If it runs out of memory there is none.
-/
structure Frame (m n : Machine) : Prop where
  bytes : ∀ b, n.bus.byte b ≠ m.bus.byte b →
    ∃ i a, m.processor.fetch.1 = some i ∧ i.storesAt? m.processor.fetch.2 = some a ∧
      (b = a ∨ a < 0xFFDA ∧ b = a + 1)
  loaded : n.memory.loaded = m.memory.loaded
  breakpoint : n.breakpoint = m.breakpoint
  flags : (∀ i, m.processor.fetch.1 = some i → i.setsFlags = false) → n.flags = m.flags
  carry : ∀ op source destination,
    m.processor.fetch.1 = some (.binary op source destination) →
      op = .mov ∨ op = .and ∨ op = .or → n.flags.carry = m.flags.carry
  registers : ∀ i r, m.processor.fetch.1 = some i → r ≠ Register.pc →
    i.storesIn r = false → n.register r = m.register r + i.drift r

/-- An instruction changes no more than the word that it stores, the flags that it computes, the
registers that it stores in and those that its operands move, each operand once. -/
theorem frame_stepOver (m : Machine) : m.Frame m.stepOver.2 where
  bytes b changed := by
    obtain ⟨a, written, near⟩ := m.processor.writesAt_step.bytes b changed
    obtain ⟨i, fetched, stores⟩ := Option.bind_eq_some_iff.mp written
    exact ⟨i, a, fetched, stores, near⟩
  loaded := m.processor.writesAt_step.loaded
  breakpoint := rfl
  flags := m.processor.flags_step
  carry _ _ _ fetched logical := Processor.carry_step fetched logical
  registers _ _ fetched other free := Processor.get_step fetched other free

/-- An addition of which both operands are found through R1, which goes up once for each. The
destination is the first of the byte-wide addresses. -/
def samePointer : Machine :=
  ((initial.setByte 0 0xA2).setByte 1 0x49).setRegister (.select 1) 0xFFD8

theorem bus_samePointer : samePointer.bus = (initial.bus.setByte 0 0xA2).setByte 1 0x49 := rfl

theorem fetch_samePointer : samePointer.processor.fetch =
    (some (.binary .add ⟨.postIncrement, 1⟩ ⟨.postIncrement, 1⟩),
      samePointer.processor.fetched) := by
  have first : samePointer.bus.byte 0 = 0xA2 := by simp [bus_samePointer, Bus.byte_setByte]
  have second : samePointer.bus.byte (0 + 1) = 0x49 := by simp [bus_samePointer, Bus.byte_setByte]
  exact fetch_of_bytes rfl first second (by decide)

theorem frame_stepOver_samePointer :
    samePointer.stepOver.2.register 1 = 0xFFDC ∧
      ∀ b ≠ 0xFFDA, samePointer.stepOver.2.bus.byte b = samePointer.bus.byte b := by
  have frame := frame_stepOver samePointer
  have fetched := congrArg Prod.fst fetch_samePointer
  have rest := congrArg Prod.snd fetch_samePointer
  refine ⟨frame.registers _ _ fetched (by decide) rfl, fun b other => ?_⟩
  by_cases same : samePointer.stepOver.2.bus.byte b = samePointer.bus.byte b
  · exact same
  · obtain ⟨i, a, fetched', stores, near⟩ := frame.bytes b same
    obtain rfl := Option.some.inj (fetched.symm.trans fetched')
    rw [rest] at stores
    obtain rfl : 0xFFDA = a := Option.some.inj stores
    rcases near with top | ⟨narrow, -⟩
    · contradiction
    · exact absurd narrow (by decide)

end Machine

end TeachingCpu
