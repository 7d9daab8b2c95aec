import TeachingCpu.Machine
import TeachingCpu.Proofs.Instruction.Locality

/-!
Fetching as one equation. The processor fetches the instruction that the disassembler sees at the
program counter, without the words of its operands, if all its bytes lie below the topmost address.
Otherwise the program counter ends on the topmost address, and the bytes on the way are counted.
-/

namespace TeachingCpu

theorem Registers.set_set (r : Registers) (n : Register) (v w : Word) :
    (r.set n v).set n w = r.set n w := by
  ext m
  rw [get_set, get_set, get_set]
  split <;> rfl

theorem Registers.set_get (r : Registers) (n : Register) : r.set n (r.get n) = r := by
  ext m
  rw [get_set]
  split
  · next same => rw [same]
  · rfl

theorem Registers.set_comm (registers : Registers) {r s : Register} (v w : Word) (h : r ≠ s) :
    (registers.set r v).set s w = (registers.set s w).set r v := by
  ext n
  rw [get_set, get_set, get_set, get_set]
  split
  · next same => rw [if_neg (same ▸ h)]
  · rfl

namespace Processor

variable (p : Processor)

theorem set_set (r : Register) (v w : Word) : (p.set r v).set r w = p.set r w := by
  rw [set, set, set, Registers.set_set]

theorem set_get (r : Register) : p.set r (p.get r) = p := by
  rw [set, get, Registers.set_get]

theorem set_comm {r s : Register} (v w : Word) (h : r ≠ s) :
    (p.set r v).set s w = (p.set s w).set r v := by
  rw [set, set, set, set, Registers.set_comm _ v w h]

theorem charge_zero : p.charge 0 = p := rfl

theorem charge_charge (m n : Nat) : (p.charge m).charge n = p.charge (m + n) := by
  simp [charge, Memory.count, Nat.add_assoc]

theorem charge_set (r : Register) (w : Word) (n : Nat) :
    (p.set r w).charge n = (p.charge n).set r w := rfl

def current : Instruction := p.memory.bus.instructionAt p.pc

theorem current_eq_decode :
    p.current = Instruction.decode (p.memory.byte p.pc) (p.memory.byte (p.pc + 1)) := rfl

theorem baseSize_current :
    p.current.baseSize = if (Opcode.ofByte (p.memory.byte p.pc)).hasSecondByte then 2 else 1 := by
  rw [current_eq_decode, Instruction.baseSize_decode]

/-- Whether the bytes at the program counter, words of operands apart, end below the topmost
address. -/
def Complete : Prop := p.pc.toNat + p.current.baseSize ≤ 65535

instance : Decidable p.Complete := inferInstanceAs (Decidable (_ ≤ _))

def fetched : Processor := (p.charge p.current.baseSize).setPc (p.pc + UInt16.ofNat p.current.baseSize)

theorem ne_top_iff (a : Address) : a ≠ 65535 ↔ a.toNat + 1 ≤ 65535 := by
  have h := a.toNat_lt
  simp only [Ne, ← UInt16.toNat_inj, UInt16.reduceToNat]
  omega

theorem fetch_of_complete (h : p.Complete) : p.fetch = (some p.current, p.fetched) := by
  have base := p.baseSize_current
  rw [Complete] at h
  rw [fetched, current_eq_decode] at *
  cases second : (Opcode.ofByte (p.memory.byte p.pc)).hasSecondByte with
  | false =>
    rw [second, if_neg Bool.false_ne_true] at base
    rw [base] at h ⊢
    rw [fetch, p.fetchByte_below ((ne_top_iff _).mpr h)]
    simp only [second, Bool.false_eq_true, if_false]
    rw [Instruction.decode_congr second]
    rfl
  | true =>
    rw [second, if_pos rfl] at base
    rw [base] at h ⊢
    have inner : p.pc + 1 ≠ 65535 := by
      simp only [ne_top_iff, UInt16.toNat_add, UInt16.reduceToNat]
      omega
    have next := ((p.charge 1).setPc (p.pc + 1)).fetchByte_below (by rwa [pc_setPc])
    rw [fetch, p.fetchByte_below ((ne_top_iff _).mpr (by omega))]
    simp only [second, if_true, next, pc_setPc]
    rw [setPc, charge_set, charge_charge, setPc, set_set, UInt16.add_assoc]
    rfl

theorem fetch_of_not_complete (h : ¬p.Complete) :
    p.fetch = (none, (p.charge (65535 - p.pc.toNat)).setPc 65535) := by
  have base := p.baseSize_current
  have bound := p.pc.toNat_lt
  rw [Complete] at h
  by_cases top : p.pc = 65535
  · have number : p.pc.toNat = 65535 := by rw [top]; rfl
    rw [fetch, p.fetchByte_top top, number, charge_zero, setPc, ← top]
    exact congrArg _ (p.set_get Register.pc).symm
  · have below := (ne_top_iff _).mp top
    cases second : (Opcode.ofByte (p.memory.byte p.pc)).hasSecondByte with
    | false =>
      rw [second, if_neg Bool.false_ne_true] at base
      omega
    | true =>
      rw [second, if_pos rfl] at base
      have number : p.pc.toNat = 65534 := by omega
      have last : p.pc + 1 = 65535 := by
        rw [← UInt16.toNat_inj, UInt16.toNat_add, number]
        rfl
      have next := ((p.charge 1).setPc (p.pc + 1)).fetchByte_top (by rwa [pc_setPc])
      rw [fetch, p.fetchByte_below top]
      simp only [second, if_true, next, number]
      rw [last]

theorem step_eq : p.step = if p.Complete then p.fetched.execute p.current
    else (.endOfMemory, (p.charge (65535 - p.pc.toNat)).setPc 65535) := by
  by_cases h : p.Complete
  · rw [step, p.fetch_of_complete h, if_pos h]
  · rw [step, p.fetch_of_not_complete h, if_neg h]

theorem step_of_short (below : p.pc ≠ 65535) (short : p.current.baseSize = 1) :
    p.step = p.fetched.execute p.current := by
  have complete : p.Complete := by
    rw [Complete, short]
    exact (ne_top_iff p.pc).mp below
  rw [step_eq, if_pos complete]

variable {p} {q : Processor} {i : Instruction}

theorem step_of_fetch (h : p.fetch = (some i, q)) : p.step = q.execute i := by
  rw [step, h]

theorem fetched_of_fetch (h : p.fetch = (some i, q)) :
    p.Complete ∧ p.current = i ∧ p.fetched = q := by
  by_cases complete : p.Complete
  · rw [p.fetch_of_complete complete] at h
    cases h
    exact ⟨complete, rfl, rfl⟩
  · rw [p.fetch_of_not_complete complete] at h
    cases h

end Processor

theorem Machine.fetch_of_instructionAt {m : Machine} {i : Instruction}
    (next : m.bus.instructionAt m.pc = i) (room : m.pc.toNat + i.baseSize ≤ 65535) :
    m.processor.fetch = (some i, m.processor.fetched) := by
  have current : m.processor.current = i := next
  have complete : m.processor.Complete := by
    rw [Processor.Complete, current]
    exact room
  rw [Processor.fetch_of_complete _ complete, current]

theorem Machine.fetch_of_bytes {m : Machine} {a : Address} {first second : Byte} {i : Instruction}
    (pc : m.pc = a) (high : m.bus.byte a = first) (low : m.bus.byte (a + 1) = second)
    (decodes : Instruction.decode first second = i ∧ a.toNat + i.baseSize ≤ 65535) :
    m.processor.fetch = (some i, m.processor.fetched) := by
  refine fetch_of_instructionAt ?_ ?_
  · rw [pc, Bus.instructionAt, high, low, decodes.1]
  · rw [pc]
    exact decodes.2

end TeachingCpu
