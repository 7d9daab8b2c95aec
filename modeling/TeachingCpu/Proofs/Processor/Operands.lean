import TeachingCpu.Machine
import TeachingCpu.Proofs.Processor.Advance
import TeachingCpu.Proofs.Processor.Recorded

/-!
The words that instructions work on. Among the accesses of an instruction, the operands are words of
the memory as it was before, since all operands are read before the result is stored; and the result,
if it goes to memory, is the only change to it.
-/

namespace TeachingCpu

def Operand.absolute : Operand := ⟨.postIncrementIndirect, Register.pc⟩

/-- An access that is true to the contents before and after an instruction. -/
structure Access.Faithful (before after : Bus) (access : Access) : Prop where
  operand : access.purpose = .operand → access.word = before.wordAt access.address
  result : access.purpose = .result → after = before.setWord access.address access.word

theorem Access.faithful_of_other {before after : Bus} {access : Access}
    (operand : access.purpose ≠ .operand) (result : access.purpose ≠ .result) :
    access.Faithful before after :=
  ⟨fun same => absurd same operand, fun same => absurd same result⟩

namespace Recorded

variable {α β : Type}

def Every (r : Recorded α) (holds : Access → Prop) : Prop := ∀ access ∈ r.accesses, holds access

section Every

variable {holds : Access → Prop}

@[simp] theorem every_pure (x : α) : (pure x : Recorded α).Every holds :=
  fun _ member => absurd member List.not_mem_nil

@[simp] theorem every_bind {x : Recorded α} {f : α → Recorded β} :
    (x >>= f).Every holds ↔ x.Every holds ∧ (f x.value).Every holds :=
  List.forall_mem_append

@[simp] theorem every_readWord {p : Processor} {purpose : Purpose} {a : Address} :
    (readWord p purpose a).Every holds ↔ holds ⟨purpose, a, p.memory.wordAt a⟩ :=
  List.forall_mem_singleton

@[simp] theorem every_writeWord {p : Processor} {purpose : Purpose} {a : Address} {w : Word} :
    (writeWord p purpose a w).Every holds ↔ holds ⟨purpose, a, w⟩ :=
  List.forall_mem_singleton

end Every

variable (p : Processor) {before after : Bus}

theorem faithful_resolve (o : Operand) : (resolve p o).Every (·.Faithful before after) := by
  have extension (a : Address) (w : Word) :
      Access.Faithful before after ⟨.extension, a, w⟩ :=
    Access.faithful_of_other Purpose.noConfusion Purpose.noConfusion
  have pointer (a : Address) (w : Word) : Access.Faithful before after ⟨.pointer, a, w⟩ :=
    Access.faithful_of_other Purpose.noConfusion Purpose.noConfusion
  obtain ⟨mode, r⟩ := o
  cases mode with
  | postIncrementIndirect =>
    by_cases counter : r = Register.pc <;>
      simp [resolve, follow, incrementPurpose, counter, extension, pointer]
  | _ => simp [resolve, index, follow, fetchWord, extension, pointer]

theorem faithful_load {o : Operand} {place : Place} (same : p.memory.bus = before) :
    (load p o place).Every (·.Faithful before after) := by
  cases place with
  | register r => exact every_pure _
  | memory a =>
    refine every_readWord.mpr ⟨fun _ => same ▸ rfl, fun stores => ?_⟩
    obtain ⟨mode, r⟩ := o
    by_cases counter : r = Register.pc <;> cases mode <;>
      simp [loadPurpose, incrementPurpose, counter] at stores

theorem bus_resolve (o : Operand) : (p.resolve o).2.memory.bus = p.memory.bus := by
  rw [Memory.bus, Memory.bus, p.bytes_resolve o]

theorem faithful_read {o : Operand} (same : p.memory.bus = before) :
    (read p o).Every (·.Faithful before after) := by
  have loads : (load (resolve p o).value.2 o (resolve p o).value.1).Every
      (·.Faithful before after) := by
    rw [value_resolve]
    exact faithful_load _ ((bus_resolve p o).trans same)
  exact every_bind.mpr ⟨faithful_resolve p o, every_bind.mpr ⟨loads, every_pure _⟩⟩

theorem faithful_store (place : Place) (w : Word) (same : p.memory.bus = before) :
    (store p place w).Every (·.Faithful before (p.store place w).memory.bus) := by
  cases place with
  | register r => exact every_pure _
  | memory a =>
    refine every_writeWord.mpr ⟨Purpose.noConfusion, fun _ => ?_⟩
    rw [← same]
    exact Memory.bus_writeWord _ a w

theorem faithful_unary (op : UnaryOp) (o : Operand) :
    (unary p op o).Every (·.Faithful p.memory.bus (p.unary op o).memory.bus) := by
  refine every_bind.mpr ⟨faithful_read p rfl, ?_⟩
  rw [value_read, Processor.unary]
  dsimp only
  split
  · exact faithful_store _ _ _ (p.bus_afterRead o)
  · exact every_pure _

theorem faithful_binary (op : BinaryOp) (source destination : Operand) :
    (binary p op source destination).Every
      (·.Faithful p.memory.bus (p.binary op source destination).memory.bus) := by
  have first := p.bus_afterRead source
  have second := (p.afterRead source).bus_afterRead destination
  simp only [binary, every_bind, value_read, Processor.binary]
  exact ⟨faithful_read p rfl, faithful_read _ first, faithful_store _ _ _ (second.trans first)⟩

theorem faithful_call (link : Register) (target : Operand) :
    (call p link target).Every (·.Faithful before after) := by
  refine every_bind.mpr ⟨faithful_resolve p target, ?_⟩
  rw [value_resolve]
  generalize p.resolve target = resolved
  obtain ⟨place, q⟩ := resolved
  cases place with
  | register r => exact every_pure _
  | memory a =>
    refine every_bind.mpr ⟨every_writeWord.mpr ?_, every_pure _⟩
    exact Access.faithful_of_other Purpose.noConfusion Purpose.noConfusion

theorem faithful_jump (target : Operand) : (jump p target).Every (·.Faithful before after) := by
  refine every_bind.mpr ⟨faithful_resolve p target, ?_⟩
  rw [value_resolve]
  generalize p.resolve target = resolved
  obtain ⟨place, q⟩ := resolved
  cases place <;> exact every_pure _

theorem faithful_leave (link : Register) : (leave p link).Every (·.Faithful before after) :=
  every_bind.mpr ⟨every_readWord.mpr
    (Access.faithful_of_other Purpose.noConfusion Purpose.noConfusion), every_pure _⟩

theorem faithful_execute (i : Instruction) :
    (execute p i).Every (·.Faithful p.memory.bus (p.execute i).2.memory.bus) := by
  cases i with
  | jmp target => exact every_bind.mpr ⟨faithful_jump p target, every_pure _⟩
  | jsr link target => exact every_bind.mpr ⟨faithful_call p link target, every_pure _⟩
  | rts link => exact every_bind.mpr ⟨faithful_leave p link, every_pure _⟩
  | unary op o => exact every_bind.mpr ⟨faithful_unary p op o, every_pure _⟩
  | binary op source destination =>
    exact every_bind.mpr ⟨faithful_binary p op source destination, every_pure _⟩
  | _ => exact every_pure _

theorem faithful_step : (step p).Every (·.Faithful p.memory.bus p.step.2.memory.bus) := by
  rw [Processor.step_eq, step]
  by_cases complete : p.Complete
  · rw [p.fetch_of_complete complete, if_pos complete]
    exact faithful_execute p.fetched p.current
  · rw [p.fetch_of_not_complete complete]
    exact every_pure _

theorem step_of_complete (complete : p.Complete) : step p = execute p.fetched p.current := by
  rw [step, p.fetch_of_complete complete]

theorem read_absolute : read p .absolute =
    ⟨(.memory (p.memory.wordAt p.pc), p.memory.wordAt (p.memory.wordAt p.pc), p.afterRead .absolute),
      [⟨.extension, p.pc, p.memory.wordAt p.pc⟩,
        ⟨.operand, p.memory.wordAt p.pc, p.memory.wordAt (p.memory.wordAt p.pc)⟩]⟩ := rfl

end Recorded

namespace Machine

variable {m : Machine} {a : Address}

structure AtAbsolute (m : Machine) (i : Operand → Instruction) (a : Address) : Prop where
  complete : m.processor.Complete
  instruction : m.bus.instructionAt m.pc = i .absolute
  address : m.bus.wordAt (m.pc + 2) = a

theorem AtAbsolute.read_eq {i : Operand → Instruction} (h : m.AtAbsolute i a)
    (long : (i .absolute).baseSize = 2) :
    Recorded.read m.processor.fetched .absolute =
      ⟨(.memory a, m.bus.wordAt a, m.processor.fetched.afterRead .absolute),
        [⟨.extension, m.pc + 2, a⟩, ⟨.operand, a, m.bus.wordAt a⟩]⟩ := by
  have current : m.processor.current = i .absolute := h.instruction
  have place : m.processor.fetched.pc = m.pc + 2 := by
    rw [Processor.fetched, current, long]
    exact Processor.pc_setPc _ _
  have words (b : Address) : m.processor.fetched.memory.wordAt b = m.bus.wordAt b := rfl
  rw [Recorded.read_absolute, place, words, h.address, words]

theorem AtAbsolute.step_eq {i : Operand → Instruction} (h : m.AtAbsolute i a) :
    Recorded.step m.processor = Recorded.execute m.processor.fetched (i .absolute) := by
  rw [Recorded.step_of_complete _ h.complete]
  exact congrArg _ h.instruction

theorem bus_stepOver (m : Machine) : m.stepOver.2.bus = m.processor.step.2.memory.bus := rfl

theorem flags_stepOver (m : Machine) : m.stepOver.2.flags = m.processor.step.2.flags := rfl

theorem register_stepOver (m : Machine) (r : Register) :
    m.stepOver.2.register r = m.processor.step.2.get r := rfl

theorem AtAbsolute.pc_eq {i : Operand → Instruction} (h : m.AtAbsolute i a)
    (size : (i .absolute).size = 4) (forward : ∀ o ∈ (i .absolute).operands, o.movesBack = false)
    (falls : (i .absolute).FallsThrough m.processor) : m.stepOver.2.pc = m.pc + 4 := by
  have current : m.processor.current = i .absolute := h.instruction
  have behind := Processor.pc_step h.complete (current ▸ forward) (current ▸ falls)
  rw [current, size] at behind
  exact behind

theorem AtAbsolute.tst (h : m.AtAbsolute (.unary .tst) a) :
    ⟨.operand, a, m.bus.wordAt a⟩ ∈ (Recorded.step m.processor).accesses ∧
      m.stepOver.2.bus = m.bus ∧ (m.stepOver.2.flags.zero = true ↔ m.bus.wordAt a = 0) := by
  have recorded : Recorded.step m.processor =
      ⟨(.ok, { m.processor.fetched.afterRead .absolute with
          flags := Computed.flags (Computed.ofLogic m.flags (m.bus.wordAt a) false) }),
        [⟨.extension, m.pc + 2, a⟩, ⟨.operand, a, m.bus.wordAt a⟩]⟩ := by
    rw [h.step_eq, Recorded.execute, Recorded.unary, h.read_eq rfl]
    rfl
  have stepped := Recorded.value_step m.processor
  rw [recorded] at stepped
  refine ⟨?_, ?_, ?_⟩
  · rw [recorded]
    exact List.mem_cons_of_mem _ List.mem_cons_self
  · rw [bus_stepOver, ← stepped]
    exact m.processor.fetched.bus_afterRead .absolute
  · rw [flags_stepOver, ← stepped]
    exact beq_iff_eq

theorem AtAbsolute.mov {r : Register} (h : m.AtAbsolute (.binary .mov · ⟨.register, r⟩) a) :
    ⟨.operand, a, m.bus.wordAt a⟩ ∈ (Recorded.step m.processor).accesses ∧
      m.stepOver.2.bus = m.bus ∧ m.stepOver.2.register r = m.bus.wordAt a := by
  have recorded : Recorded.step m.processor =
      ⟨(.ok, Processor.set { m.processor.fetched.afterRead .absolute with
          flags := Computed.flags (Computed.ofLogic m.flags (m.bus.wordAt a)
            m.flags.carry) } r (m.bus.wordAt a)),
        [⟨.extension, m.pc + 2, a⟩, ⟨.operand, a, m.bus.wordAt a⟩]⟩ := by
    rw [h.step_eq, Recorded.execute, Recorded.binary, h.read_eq rfl]
    rfl
  have stepped := Recorded.value_step m.processor
  rw [recorded] at stepped
  refine ⟨?_, ?_, ?_⟩
  · rw [recorded]
    exact List.mem_cons_of_mem _ List.mem_cons_self
  · rw [bus_stepOver, ← stepped]
    exact m.processor.fetched.bus_afterRead .absolute
  · rw [register_stepOver, ← stepped]
    exact Processor.get_set_self _ _ _

theorem AtAbsolute.clr (h : m.AtAbsolute (.unary .clr) a) :
    ⟨.result, a, 0⟩ ∈ (Recorded.step m.processor).accesses := by
  rw [h.step_eq, Recorded.execute, Recorded.unary, h.read_eq rfl]
  exact List.mem_cons_of_mem _ (List.mem_cons_of_mem _ List.mem_cons_self)

end Machine

end TeachingCpu
