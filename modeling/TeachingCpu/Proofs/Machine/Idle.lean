import TeachingCpu.Proofs.Machine.Executed
import TeachingCpu.Proofs.Processor.Fetch

/-!
Straight runs of no-operations: the program counter goes up by one address at a time and the
contents of memory stay as they are, so where the no-operations end is known beforehand.
-/

namespace TeachingCpu.Machine

variable {m : Machine}

theorem stepOver_idle {i : Instruction} {outcome : Outcome} (short : i.baseSize = 1)
    (idle : ∀ p : Processor, p.execute i = (outcome, p)) (below : m.pc ≠ 65535)
    (h : m.bus.instructionAt m.pc = i) :
    m.stepOver.1 = outcome ∧ m.stepOver.2.bus = m.bus ∧ m.stepOver.2.pc = m.pc + 1 := by
  have current : m.processor.current = i := h
  have step : m.processor.step = (outcome, m.processor.fetched) := by
    rw [m.processor.step_of_short below (by rw [current, short]), current, idle]
  have place : m.processor.fetched.pc = m.pc + 1 := by
    rw [Processor.fetched, current, short]
    exact Processor.pc_setPc _ _
  rw [stepOver, step]
  exact ⟨rfl, rfl, place⟩

theorem stepOver_nop (below : m.pc ≠ 65535) (h : m.bus.instructionAt m.pc = .nop) :
    m.stepOver.1 = .noop ∧ m.stepOver.2.bus = m.bus ∧ m.stepOver.2.pc = m.pc + 1 :=
  stepOver_idle rfl (fun _ => rfl) below h

theorem stepOver_hlt (below : m.pc ≠ 65535) (h : m.bus.instructionAt m.pc = .hlt) :
    m.stepOver.1 = .halt ∧ m.stepOver.2.bus = m.bus ∧ m.stepOver.2.pc = m.pc + 1 :=
  stepOver_idle rfl (fun _ => rfl) below h

theorem executed_nops {n : Nat} (room : m.pc.toNat + n ≤ 65535)
    (nops : ∀ i < n, m.bus.instructionAt (m.pc + UInt16.ofNat i) = .nop) :
    (m.executed n).bus = m.bus ∧ (m.executed n).pc = m.pc + UInt16.ofNat n ∧ m.Continues n := by
  induction n with
  | zero => exact ⟨rfl, (UInt16.add_zero m.pc).symm, fun _ below => absurd below (Nat.not_lt_zero _)⟩
  | succ n ih =>
    obtain ⟨bus, pc, continues⟩ := ih (by omega) fun i below => nops i (by omega)
    have below : (m.executed n).pc ≠ 65535 := by
      rw [pc, Ne, ← UInt16.toNat_inj, UInt16.toNat_add, UInt16.toNat_ofNat']
      simp only [UInt16.reduceToNat]
      omega
    have next : (m.executed n).bus.instructionAt (m.executed n).pc = .nop := by
      rw [bus, pc]
      exact nops n (Nat.lt_succ_self n)
    obtain ⟨outcome, bus', pc'⟩ := stepOver_nop below next
    rw [executed_succ]
    refine ⟨bus'.trans bus, ?_, ?_⟩
    · rw [pc', pc, UInt16.add_assoc, UInt16.ofNat_add]
      rfl
    · refine continues.add fun i first => ?_
      obtain rfl : i = 0 := by omega
      rw [executed_zero, outcome]
      rfl

def shortProgram : Machine := initial.setByte 2 0xF0

theorem byte_shortProgram (a : Address) :
    shortProgram.bus.byte a = if 2 = a then 0xF0 else 0 := by
  have bus : shortProgram.bus = initial.bus.setByte 2 0xF0 := rfl
  have zeros : initial.bus.byte a = 0 := AddressMap.get_fill 0 a
  rw [bus, Bus.byte_setByte, zeros]

theorem executed_shortProgram {n : Nat} (h : n ≤ 2) :
    (shortProgram.executed n).bus = shortProgram.bus ∧
      (shortProgram.executed n).pc = UInt16.ofNat n ∧ shortProgram.Continues n := by
  have first : shortProgram.bus.instructionAt 0 = .nop := by
    rw [Bus.instructionAt, byte_shortProgram]
    rfl
  have second : shortProgram.bus.instructionAt 1 = .nop := by
    rw [Bus.instructionAt, byte_shortProgram]
    rfl
  have start : shortProgram.pc = 0 := rfl
  have room : shortProgram.pc.toNat + n ≤ 65535 := by
    rw [start, UInt16.toNat_zero]
    omega
  obtain ⟨bus, pc, continues⟩ := executed_nops room fun i below => by
    rw [start, UInt16.zero_add]
    obtain rfl | rfl : i = 0 ∨ i = 1 := by omega
    · exact first
    · exact second
  rw [start, UInt16.zero_add] at pc
  exact ⟨bus, pc, continues⟩

theorem stepOver_shortProgram : (shortProgram.executed 2).stepOver.1 = .halt ∧
    (shortProgram.executed 2).stepOver.2.pc = 3 := by
  obtain ⟨bus, pc, -⟩ := executed_shortProgram (Nat.le_refl 2)
  have below : (shortProgram.executed 2).pc ≠ 65535 := by
    rw [pc]
    decide
  have halt : (shortProgram.executed 2).bus.instructionAt (shortProgram.executed 2).pc = .hlt := by
    rw [bus, pc, Bus.instructionAt, byte_shortProgram]
    rfl
  obtain ⟨outcome, -, behind⟩ := stepOver_hlt below halt
  rw [pc] at behind
  exact ⟨outcome, behind⟩

end TeachingCpu.Machine
