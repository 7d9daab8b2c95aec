import TeachingCpu.Proofs.Machine.OutOfMemory

/-!
Loops that count a register down. The body is no-operations, so all that a round does is to take one
from the counter and to count the bytes that were fetched, and the machine at every point of the
loop can be written down. The counter is decremented before it is tested: a loop entered with zero
goes round 65536 times.
-/

namespace TeachingCpu

/-- A loop whose instructions all lie where they can be fetched, and whose offset is a byte. -/
structure CountingLoop where
  start : Address
  /-- The number of no-operations. -/
  length : Nat
  counter : Register
  short : length ≤ 253
  room : start.toNat + length + 1 ≤ 0xFFFE
  counter_ne : counter ≠ Register.pc

namespace CountingLoop

variable (loop : CountingLoop)

def address (i : Nat) : Address := loop.start + UInt16.ofNat i

theorem address_zero : loop.address 0 = loop.start := UInt16.add_zero _

theorem address_add (i j : Nat) : loop.address (i + j) = loop.address i + UInt16.ofNat j := by
  rw [address, address, UInt16.ofNat_add, UInt16.add_assoc]

theorem toNat_address {i : Nat} (h : i ≤ loop.length + 2) :
    (loop.address i).toNat = loop.start.toNat + i := by
  have room := loop.room
  rw [address, UInt16.toNat_add, UInt16.toNat_ofNat']
  omega

structure In (bus : Bus) : Prop where
  body : ∀ i < loop.length, bus.instructionAt (loop.address i) = .nop
  closes : bus.instructionAt (loop.address loop.length) =
    .sob loop.counter (UInt8.ofNat (loop.length + 2))

/-- How often a loop goes round that is entered with this count. -/
def rounds (w : Word) : Nat := if w = 0 then 65536 else w.toNat

theorem rounds_pos (w : Word) : 0 < rounds w := by
  have bound := w.toNat_lt
  unfold rounds
  split
  · decide
  · next other =>
    rw [← UInt16.toNat_inj, UInt16.toNat_zero] at other
    omega

theorem sub_eq_zero_iff {w : Word} {q : Nat} (positive : 0 < q) (within : q ≤ rounds w) :
    w - UInt16.ofNat q = 0 ↔ q = rounds w := by
  have bound := w.toNat_lt
  -- a loop that is entered with zero goes all the way round
  have count : rounds w = if w.toNat = 0 then 65536 else w.toNat := by
    simp only [rounds, ← UInt16.toNat_inj, UInt16.reduceToNat]
  rw [← UInt16.toNat_inj, UInt16.toNat_sub, UInt16.toNat_ofNat', UInt16.toNat_zero]
  rw [count] at within ⊢
  split at within
  · next zero =>
    rw [if_pos zero]
    omega
  · next other =>
    rw [if_neg other]
    omega

end CountingLoop

namespace Machine

def moved (m : Machine) (n : Nat) (r : Register) (w : Word) (a : Address) : Machine :=
  { m with processor := ((m.processor.charge n).set r w).setPc a }

variable {m : Machine} {n : Nat} {r : Register} {w : Word} {a : Address}

theorem pc_moved : (m.moved n r w a).pc = a := Processor.pc_setPc _ _

theorem register_moved (other : r ≠ Register.pc) : (m.moved n r w a).register r = w :=
  (Processor.get_set_of_ne _ a other.symm).trans (Processor.get_set_self _ r w)

theorem stepOver_moved {i : Instruction} {outcome : Outcome} {n' : Nat} {w' : Word} {a' : Address}
    (written : m.memory.written = []) (h : m.bus.instructionAt a = i)
    (room : a.toNat + i.baseSize ≤ 65535)
    (executes : (m.moved (n + i.baseSize) r w (a + UInt16.ofNat i.baseSize)).processor.execute i =
      (outcome, (m.moved n' r w' a').processor)) :
    (m.moved n r w a).stepOver = (outcome, m.moved n' r w' a') := by
  have pc : (m.moved n r w a).processor.pc = a := pc_moved
  have current : (m.moved n r w a).processor.current = i := by
    rw [Processor.current, pc]
    exact h
  have complete : (m.moved n r w a).processor.Complete := by
    rw [Processor.Complete, pc, current]
    exact room
  have fetched : (m.moved n r w a).processor.fetched =
      (m.moved (n + i.baseSize) r w (a + UInt16.ofNat i.baseSize)).processor := by
    rw [Processor.fetched, current, pc]
    simp only [moved, Processor.setPc, Processor.charge_set, Processor.charge_charge,
      Processor.set_set]
  have step : (m.moved n r w a).processor.step = (outcome, (m.moved n' r w' a').processor) := by
    rw [Processor.step_eq, if_pos complete, fetched, current, executes]
  rw [stepOver_of_step step, sync_of_written]
  · rfl
  · exact written

theorem stepOver_moved_nop (written : m.memory.written = []) (below : a ≠ 65535)
    (h : m.bus.instructionAt a = .nop) :
    (m.moved n r w a).stepOver = (.noop, m.moved (n + 1) r w (a + 1)) :=
  stepOver_moved written h ((Processor.ne_top_iff a).mp below) rfl

theorem stepOver_moved_sob {offset : Byte} (written : m.memory.written = [])
    (other : r ≠ Register.pc) (room : a.toNat + 2 ≤ 65535)
    (h : m.bus.instructionAt a = .sob r offset) :
    (m.moved n r w a).stepOver =
      (.ok, m.moved (n + 2) r (w - 1) (if w - 1 = 0 then a + 2 else a + 2 - offset.toUInt16)) := by
  refine stepOver_moved written h room ?_
  have count : (m.moved (n + 2) r w (a + 2)).processor.get r = w := register_moved other
  have down : (m.moved (n + 2) r w (a + 2)).processor.set r (w - 1) =
      (m.moved (n + 2) r (w - 1) (a + 2)).processor := by
    simp only [moved, Processor.setPc, Processor.set_comm _ _ _ other, Processor.set_set]
  have pc : (m.moved (n + 2) r (w - 1) (a + 2)).processor.pc = a + 2 := pc_moved
  refine congrArg (Prod.mk Outcome.ok) ?_
  change (m.moved (n + 2) r w (a + 2)).processor.countDown r offset = _
  simp only [Processor.countDown, count, down, pc]
  split
  · rfl
  · simp only [moved, Processor.setPc, Processor.set_set]

end Machine

namespace CountingLoop

open Machine

variable (loop : CountingLoop) (m : Machine)

/-- The machine after some rounds and `i` instructions of the next one. -/
def stage (q i : Nat) : Machine :=
  m.moved (q * (loop.length + 2) + i) loop.counter (m.register loop.counter - UInt16.ofNat q)
    (loop.address i)

def left : Machine :=
  m.moved (rounds (m.register loop.counter) * (loop.length + 2)) loop.counter 0
    (loop.address (loop.length + 2))

variable {loop m}

theorem stage_zero (here : m.pc = loop.start) : loop.stage m 0 0 = m := by
  have count : m.register loop.counter - UInt16.ofNat 0 = m.processor.get loop.counter :=
    UInt16.sub_zero _
  have back : loop.address 0 = m.processor.get Register.pc := loop.address_zero.trans here.symm
  rw [stage, moved, count, back, Nat.zero_mul, Nat.add_zero, Processor.charge_zero,
    Processor.set_get, Processor.setPc, Processor.set_get]

variable {q i : Nat}

section Step

variable (stands : loop.In m.bus) (written : m.memory.written = [])

include stands written

theorem stepOver_body (inside : i < loop.length) :
    (loop.stage m q i).stepOver = (.noop, loop.stage m q (i + 1)) := by
  have below : loop.address i ≠ 65535 := by
    rw [Processor.ne_top_iff, loop.toNat_address (by omega)]
    have room := loop.room
    omega
  rw [stage, stepOver_moved_nop written below (stands.body i inside), stage, loop.address_add]
  rfl

theorem stepOver_closing : (loop.stage m q loop.length).stepOver =
    (.ok, m.moved ((q + 1) * (loop.length + 2)) loop.counter
      (m.register loop.counter - UInt16.ofNat (q + 1))
      (if m.register loop.counter - UInt16.ofNat (q + 1) = 0 then loop.address (loop.length + 2)
        else loop.start)) := by
  have top := loop.toNat_address (i := loop.length) (by omega)
  have room := loop.room
  have short := loop.short
  have behind : loop.address loop.length + 2 = loop.address (loop.length + 2) :=
    (loop.address_add loop.length 2).symm
  have back : loop.address (loop.length + 2) - (UInt8.ofNat (loop.length + 2)).toUInt16 =
      loop.start := by
    have offset : (UInt8.ofNat (loop.length + 2)).toUInt16 = UInt16.ofNat (loop.length + 2) := by
      rw [← UInt16.toNat_inj, UInt8.toNat_toUInt16, UInt8.toNat_ofNat', UInt16.toNat_ofNat']
      omega
    rw [offset, address, UInt16.add_sub_cancel]
  have down : m.register loop.counter - UInt16.ofNat q - 1 =
      m.register loop.counter - UInt16.ofNat (q + 1) := by
    rw [UInt16.ofNat_add]
    simp only [UInt16.sub_eq_add_neg, UInt16.neg_add, UInt16.add_assoc]
    rfl
  rw [stage, stepOver_moved_sob written loop.counter_ne (by omega) stands.closes, down, behind, back]
  rw [Nat.add_mul, Nat.one_mul, Nat.add_assoc]

theorem stepOver_again (more : q + 1 < rounds (m.register loop.counter)) :
    (loop.stage m q loop.length).stepOver = (.ok, loop.stage m (q + 1) 0) := by
  have going : m.register loop.counter - UInt16.ofNat (q + 1) ≠ 0 := fun zero =>
    Nat.ne_of_lt more ((sub_eq_zero_iff (Nat.succ_pos q) (Nat.le_of_lt more)).mp zero)
  rw [stepOver_closing stands written, if_neg going, stage, loop.address_zero]
  rfl

theorem stepOver_last (last : q + 1 = rounds (m.register loop.counter)) :
    (loop.stage m q loop.length).stepOver = (.ok, loop.left m) := by
  have done : m.register loop.counter - UInt16.ofNat (q + 1) = 0 :=
    (sub_eq_zero_iff (Nat.succ_pos q) (Nat.le_of_eq last)).mpr last
  rw [stepOver_closing stands written, if_pos done, done, left, last]

theorem executed_body (inside : i ≤ loop.length) :
    (loop.stage m q 0).executed i = loop.stage m q i := by
  induction i with
  | zero => rfl
  | succ i ih => rw [executed_succ, ih (by omega), stepOver_body stands written inside]

theorem executed_rounds (here : m.pc = loop.start)
    (going : q < rounds (m.register loop.counter)) :
    m.executed (q * (loop.length + 1)) = loop.stage m q 0 := by
  induction q with
  | zero => rw [Nat.zero_mul, executed_zero, stage_zero here]
  | succ q ih =>
    rw [Nat.add_mul, Nat.one_mul, executed_add, ih (by omega), executed_succ,
      executed_body stands written (Nat.le_refl _), stepOver_again stands written going]

theorem executed_stage (here : m.pc = loop.start) (inside : i ≤ loop.length)
    (going : q < rounds (m.register loop.counter)) :
    m.executed (q * (loop.length + 1) + i) = loop.stage m q i := by
  rw [executed_add, executed_rounds stands written here going, executed_body stands written inside]

theorem executed_left (here : m.pc = loop.start) :
    m.executed (rounds (m.register loop.counter) * (loop.length + 1)) = loop.left m := by
  obtain ⟨q, last⟩ : ∃ q, rounds (m.register loop.counter) = q + 1 :=
    Nat.exists_eq_add_one.mpr (rounds_pos _)
  rw [last, Nat.add_mul, Nat.one_mul, ← Nat.add_assoc, executed_succ,
    executed_stage stands written here (Nat.le_refl _) (by omega),
    stepOver_last stands written last.symm]

end Step

/-- From `m` to `n` a loop has been gone through: its counter is down to zero, the program counter is
behind it, the bytes of all its rounds have been counted, and all else is as it was. -/
structure Passed (loop : CountingLoop) (m n : Machine) : Prop where
  pc : n.pc.toNat = loop.start.toNat + loop.length + 2
  counter : n.register loop.counter = 0
  registers : ∀ r, r ≠ Register.pc → r ≠ loop.counter → n.register r = m.register r
  flags : n.flags = m.flags
  bytes : n.memory.bytes = m.memory.bytes
  loaded : n.memory.loaded = m.memory.loaded
  written : n.memory.written = m.memory.written
  lastChanged : n.memory.lastChanged = m.memory.lastChanged
  accesses : n.memory.accesses =
    m.memory.accesses + rounds (m.register loop.counter) * (loop.length + 2)
  table : n.table = m.table
  breakpoint : n.breakpoint = m.breakpoint

theorem passed_left : loop.Passed m (loop.left m) where
  pc := by
    rw [left, pc_moved, loop.toNat_address (Nat.le_refl _)]
    rfl
  counter := register_moved loop.counter_ne
  registers r other free :=
    (Processor.get_set_of_ne _ _ other.symm).trans (Processor.get_set_of_ne _ _ free.symm)
  flags := rfl
  bytes := rfl
  loaded := rfl
  written := rfl
  lastChanged := rfl
  accesses := rfl
  table := rfl
  breakpoint := rfl

theorem step_stage (stands : loop.In m.bus) (written : m.memory.written = [])
    (free : m.breakpoint ≠ some (loop.address i)) (inside : i ≤ loop.length) :
    (loop.stage m q i).step = (loop.stage m q i).stepOver ∧
      (loop.stage m q i).step.1.continues = true := by
  have elsewhere : (loop.stage m q i).breakpoint ≠ some (loop.stage m q i).pc := by
    rw [stage, pc_moved]
    exact free
  rw [step_elsewhere _ elsewhere]
  refine ⟨rfl, ?_⟩
  rcases Nat.lt_or_eq_of_le inside with body | rfl
  · rw [stepOver_body stands written body]
    rfl
  · rw [stepOver_closing stands written]
    rfl

end CountingLoop

namespace Machine

/-- A machine that enters a loop stays in it for all its rounds, one instruction after the other, and
then is behind it. -/
theorem counting_loop_is_exact {m : Machine} {loop : CountingLoop} (reached : Reachable m)
    (stands : loop.In m.bus) (free : ∀ i ≤ loop.length, m.breakpoint ≠ some (loop.address i))
    (here : m.pc = loop.start) :
    (∀ n < CountingLoop.rounds (m.register loop.counter) * (loop.length + 1),
      (m.executed n).pc.toNat = loop.start.toNat + n % (loop.length + 1) ∧
        (m.executed n).step = ((m.executed n).stepOver.1, m.executed (n + 1)) ∧
        (m.executed n).step.1.continues = true) ∧
      loop.Passed m
        (m.executed (CountingLoop.rounds (m.register loop.counter) * (loop.length + 1))) := by
  have written := (synced_of_reachable reached).written
  refine ⟨fun n early => ?_, ?_⟩
  · have going := Nat.div_lt_of_lt_mul (Nat.mul_comm _ (loop.length + 1) ▸ early)
    have inside : n % (loop.length + 1) ≤ loop.length :=
      Nat.le_of_lt_succ (Nat.mod_lt n (Nat.succ_pos _))
    have point := CountingLoop.executed_stage stands written here inside going
    rw [Nat.div_add_mod'] at point
    obtain ⟨steps, continues⟩ := CountingLoop.step_stage stands written (free _ inside) inside
    rw [← point] at steps continues
    refine ⟨?_, ?_, continues⟩
    · rw [point, CountingLoop.stage, pc_moved, loop.toNat_address (by omega)]
    · rw [steps, executed_succ]
  · rw [CountingLoop.executed_left stands written here]
    exact CountingLoop.passed_left

/-- Two no-operations and back to the first one, while R3 has not come down to zero. -/
def idling : Machine := (initial.setByte 2 0x53).setByte 3 4

def idlingLoop : CountingLoop where
  start := 0
  length := 2
  counter := .select 3
  short := by decide
  room := by decide
  counter_ne := by decide

theorem byte_idling (a : Address) :
    idling.bus.byte a = if 3 = a then 4 else if 2 = a then 0x53 else 0 := by
  have bus : idling.bus = (initial.bus.setByte 2 0x53).setByte 3 4 := rfl
  have zeros : initial.bus.byte a = 0 := AddressMap.get_fill 0 a
  rw [bus, Bus.byte_setByte, Bus.byte_setByte, zeros]

theorem in_idling : idlingLoop.In idling.bus where
  body i inside := by
    obtain rfl | rfl : i = 0 ∨ i = 1 := by
      change i < 2 at inside
      omega
    all_goals
      rw [Bus.instructionAt, byte_idling, byte_idling]
      decide
  closes := by
    rw [Bus.instructionAt, byte_idling, byte_idling]
    decide

/-- With nothing in R3 the loop goes round as often as it ever can. -/
theorem counting_loop_is_exact_idling :
    (∀ n < 65536 * 3, (idling.executed n).pc.toNat = n % 3) ∧
      (idling.executed (65536 * 3)).pc.toNat = 4 ∧
      (idling.executed (65536 * 3)).register 3 = 0 ∧
      (idling.executed (65536 * 3)).memory.accesses = idling.memory.accesses + 65536 * 4 := by
  have reached : Reachable idling := (Reachable.initial.setByte 2 0x53).setByte 3 4
  obtain ⟨inside, passed⟩ := counting_loop_is_exact reached in_idling (fun _ _ => nofun) rfl
  refine ⟨fun n early => ?_, passed.pc, passed.counter, passed.accesses⟩
  exact (inside n early).1.trans (Nat.zero_add _)

end Machine

end TeachingCpu
