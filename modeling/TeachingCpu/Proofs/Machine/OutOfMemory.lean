import TeachingCpu.Proofs.Machine.Executed
import TeachingCpu.Proofs.Machine.Reachable
import TeachingCpu.Proofs.Processor.Advance

/-!
Running out of memory. An instruction is cut off if the program counter would have to pass the
topmost address to fetch its bytes. That is decided before anything is carried out, so all that is
left of it is a program counter on the topmost address, and there every further instruction is cut
off as well. The words of operands have no part in it: they wrap.
-/

namespace TeachingCpu

namespace Processor

variable (p : Processor)

theorem not_complete_iff :
    ¬p.Complete ↔ p.pc = 65535 ∨
      p.pc = 65534 ∧ (Opcode.ofByte (p.memory.byte p.pc)).hasSecondByte = true := by
  have bound := p.pc.toNat_lt
  rw [Complete, baseSize_current]
  simp only [← UInt16.toNat_inj, UInt16.reduceToNat]
  cases (Opcode.ofByte (p.memory.byte p.pc)).hasSecondByte with
  | false =>
    simp only [Bool.false_eq_true, if_false, and_false, or_false]
    omega
  | true =>
    simp only [if_true, and_true]
    omega

end Processor

namespace Machine

variable {m : Machine}

-- The kernel would compare the contents of the memories if the machine were not taken apart.
theorem sync_of_written (h : m.memory.written = []) : m.sync = m := by
  obtain ⟨⟨registers, flags, bytes, loaded, accesses, lastChanged, written⟩, table, breakpoint⟩ := m
  obtain rfl : written = [] := h
  rfl

theorem stepOver_of_not_complete (written : m.memory.written = [])
    (short : ¬m.processor.Complete) :
    m.stepOver = (.endOfMemory,
      { m with processor := (m.processor.charge (65535 - m.pc.toNat)).setPc 65535 }) := by
  have step := m.processor.step_eq
  rw [if_neg short] at step
  rw [stepOver_of_step step, sync_of_written]
  · rfl
  · exact written

theorem stepOver_top (written : m.memory.written = []) (top : m.pc = 65535) :
    m.stepOver = (.endOfMemory, m) := by
  have short : ¬m.processor.Complete := m.processor.not_complete_iff.mpr (.inl top)
  have stays : m.processor.setPc 65535 = m.processor := by
    rw [← top]
    exact m.processor.set_get Register.pc
  rw [stepOver_of_not_complete written short, top]
  exact congrArg (fun processor => (Outcome.endOfMemory, { m with processor })) stays

theorem executed_top (written : m.memory.written = []) (top : m.pc = 65535) (n : Nat) :
    m.executed n = m :=
  Function.iterate_fixed (congrArg Prod.snd (stepOver_top written top)) n

/-- From `m` to `n` the program counter has gone to the topmost address, a byte on the way has been
counted, and all else is as it was. -/
structure RunsOut (m n : Machine) : Prop where
  pc : n.pc = 65535
  registers : ∀ r ≠ Register.pc, n.register r = m.register r
  flags : n.flags = m.flags
  bytes : n.memory.bytes = m.memory.bytes
  loaded : n.memory.loaded = m.memory.loaded
  written : n.memory.written = m.memory.written
  lastChanged : n.memory.lastChanged = m.memory.lastChanged
  accesses : n.memory.accesses = m.memory.accesses + if m.pc = 65535 then 0 else 1
  table : n.table = m.table
  breakpoint : n.breakpoint = m.breakpoint

theorem runsOut_of_not_complete (written : m.memory.written = [])
    (short : ¬m.processor.Complete) : m.RunsOut m.stepOver.2 := by
  have passed : 65535 - m.pc.toNat = if m.pc = 65535 then 0 else 1 := by
    rcases m.processor.not_complete_iff.mp short with top | ⟨below, -⟩
    · have top : m.pc = 65535 := top
      rw [top]
      rfl
    · have below : m.pc = 65534 := below
      rw [below]
      rfl
  rw [stepOver_of_not_complete written short, passed]
  exact {
    pc := Processor.pc_setPc _ _
    registers := fun r other => Processor.get_set_of_ne _ _ other.symm
    flags := rfl
    bytes := rfl
    loaded := rfl
    written := rfl
    lastChanged := rfl
    accesses := rfl
    table := rfl
    breakpoint := rfl }

/-- An instruction runs out of memory exactly if it begins on the topmost address, or on the one
below it and has a second byte. It changes nothing but the program counter, and all instructions
after it run out of memory without any change. -/
theorem endOfMemory_exact (reached : Reachable m) :
    (m.stepOver.1 = .endOfMemory ↔
        m.pc = 65535 ∨
          m.pc = 65534 ∧ (Opcode.ofByte (m.bus.byte m.pc)).hasSecondByte = true) ∧
      (m.stepOver.1 = .endOfMemory →
        m.RunsOut m.stepOver.2 ∧
          ∀ n, m.executed (n + 1) = m.stepOver.2 ∧
            (m.executed (n + 1)).stepOver = (.endOfMemory, m.stepOver.2)) := by
  have written := (synced_of_reachable reached).written
  have exact_iff : m.stepOver.1 = .endOfMemory ↔ ¬m.processor.Complete :=
    m.processor.outcome_step_eq_endOfMemory_iff
  refine ⟨exact_iff.trans m.processor.not_complete_iff, fun ended => ?_⟩
  have out := runsOut_of_not_complete written (exact_iff.mp ended)
  have nothing : m.stepOver.2.memory.written = [] := out.written.trans written
  refine ⟨out, fun n => ?_⟩
  have stays : m.executed (n + 1) = m.stepOver.2 := by
    rw [Nat.add_comm, executed_add]
    exact executed_top nothing out.pc n
  rw [stays]
  exact ⟨rfl, stepOver_top nothing out.pc⟩

/-- A move of which the second byte is on the topmost address. Begun one address earlier, the same
bytes are an instruction with a displacement that lies across the top. -/
def cutOff : Machine := ((initial.setByte 65533 0x80).setByte 65534 0x9B).setPc 65534

theorem bus_cutOff : cutOff.bus = (initial.bus.setByte 65533 0x80).setByte 65534 0x9B := rfl

theorem endOfMemory_exact_cutOff :
    cutOff.stepOver.1 = .endOfMemory ∧
      cutOff.stepOver.2.pc = 65535 ∧
      cutOff.stepOver.2.memory.accesses = 3 ∧
      (cutOff.executed 9).stepOver = (.endOfMemory, cutOff.stepOver.2) ∧
      cutOff.bus.instructionAt 65533 = .unary .clr ⟨.indexed, 3⟩ ∧
      (cutOff.setPc 65533).stepOver.1 ≠ .endOfMemory := by
  have reached : Reachable cutOff :=
    ((Reachable.initial.setByte 65533 0x80).setByte 65534 0x9B).setPc 65534
  have low : cutOff.bus.byte 65533 = 0x80 := by simp [bus_cutOff, Bus.byte_setByte]
  have high : cutOff.bus.byte (65533 + 1) = 0x9B := by simp [bus_cutOff, Bus.byte_setByte]
  have place : cutOff.pc = 65534 := rfl
  have second : (Opcode.ofByte (cutOff.bus.byte cutOff.pc)).hasSecondByte = true := by
    rw [place, show (65534 : Address) = 65533 + 1 from rfl, high]
    decide
  obtain ⟨exactly, after⟩ := endOfMemory_exact reached
  have ended := exactly.mpr (.inr ⟨place, second⟩)
  obtain ⟨out, later⟩ := after ended
  refine ⟨ended, out.pc, out.accesses, (later 8).2, ?_, fun earlier => ?_⟩
  · rw [Bus.instructionAt, low, high]
    decide
  · have pc : (cutOff.setPc 65533).pc = 65533 := rfl
    have top := (endOfMemory_exact (reached.setPc 65533)).1.mp earlier
    rw [pc] at top
    rcases top with top | ⟨below, -⟩
    · contradiction
    · contradiction

end Machine

end TeachingCpu
