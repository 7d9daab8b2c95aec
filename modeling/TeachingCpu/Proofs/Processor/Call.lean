import TeachingCpu.Machine
import TeachingCpu.Proofs.Memory.WordAccess
import TeachingCpu.Proofs.Processor.Advance

/-!
Calls and returns. A call puts the link register on the stack and the return address in its place,
and a return through the same register takes both back. With the program counter as link register
the return address itself is on the stack. All that the two ends share is the stack pointer, the
link register and the two bytes of the stack slot, so nothing has to be known about the subroutine
between them, except that it leaves these as they were.

A slot at a byte-wide address holds one byte only and loses the other.
-/

namespace TeachingCpu

namespace Processor

variable (p : Processor)

theorem sp_ne_pc : Register.sp ≠ Register.pc := by decide

theorem resolve_eq_memory {o : Operand} (h : o.mode ≠ .register) :
    ∃ a, (p.resolve o).1 = .memory a := by
  cases place : (p.resolve o).1 with
  | register r =>
    rw [p.resolve_eq_register place] at h
    contradiction
  | memory a => exact ⟨a, rfl⟩

section Call

variable {p} {q : Processor} {link : Register} {target : Operand} {t : Address}

theorem call_eq (h : p.resolve target = (.memory t, q)) :
    p.call link target =
      (if link = Register.pc then q.push (q.get link)
        else (q.push (q.get link)).set link q.pc).setPc t := by
  have stays : (q.push (q.get link)).pc = q.pc := q.get_set_of_ne _ sp_ne_pc
  rw [call, h]
  simp only [stays]

theorem pc_call (h : p.resolve target = (.memory t, q)) : (p.call link target).pc = t := by
  rw [call_eq h, pc_setPc]

theorem sp_call (h : p.resolve target = (.memory t, q)) (other : link ≠ Register.sp) :
    (p.call link target).get Register.sp = q.get Register.sp - 2 := by
  have pushed : (q.push (q.get link)).get Register.sp = q.get Register.sp - 2 :=
    q.get_set_self _ _
  rw [call_eq h, setPc, get_set_of_ne _ _ sp_ne_pc.symm]
  split
  · exact pushed
  · rw [get_set_of_ne _ _ other, pushed]

theorem link_call (h : p.resolve target = (.memory t, q)) (ordinary : link ≠ Register.pc) :
    (p.call link target).get link = q.pc := by
  rw [call_eq h, if_neg ordinary, setPc, get_set_of_ne _ _ ordinary.symm, get_set_self]

theorem memory_call (h : p.resolve target = (.memory t, q)) :
    (p.call link target).memory =
      q.memory.writeWord (q.get Register.sp - 2)
        (if link = Register.pc then q.pc else q.get link) := by
  rw [call_eq h]
  split
  · next same =>
    rw [same]
    rfl
  · rfl

end Call

section Leave

variable (link : Register)

theorem leave_eq :
    p.leave link =
      (((if link = Register.pc then p else p.setPc (p.get link)).set Register.sp
        (p.get Register.sp + 2)).charge (Memory.width (p.get Register.sp))).set link
          (p.memory.wordAt (p.get Register.sp)) := by
  simp only [leave, pop_eq]
  split
  · rfl
  · rw [setPc, get_set_of_ne _ _ sp_ne_pc.symm]
    rfl

theorem memory_leave :
    (p.leave link).memory = p.memory.count (Memory.width (p.get Register.sp)) := by
  rw [leave_eq]
  split <;> rfl

theorem flags_leave : (p.leave link).flags = p.flags := by
  rw [leave_eq]
  split <;> rfl

theorem link_leave : (p.leave link).get link = p.memory.wordAt (p.get Register.sp) := by
  rw [leave_eq, get_set_self]

variable {link}

theorem sp_leave (other : link ≠ Register.sp) :
    (p.leave link).get Register.sp = p.get Register.sp + 2 := by
  rw [leave_eq, get_set_of_ne _ _ other, get_charge, get_set_self]

theorem pc_leave (ordinary : link ≠ Register.pc) : (p.leave link).pc = p.get link := by
  rw [leave_eq, if_neg ordinary, pc, get_set_of_ne _ _ ordinary, get_charge,
    get_set_of_ne _ _ sp_ne_pc]
  exact pc_setPc _ _

end Leave

/-- Processors that agree with a call on the stack pointer, its slot and the link register return
to the state in which the call had resolved its operand. -/
theorem leave_of_call {q n : Processor} {link : Register} {target : Operand} {t : Address}
    (h : p.resolve target = (.memory t, q)) (other : link ≠ Register.sp)
    (wide : Memory.byteWide (q.get Register.sp - 2) = false)
    (sp : n.get Register.sp = q.get Register.sp - 2)
    (slot : n.memory.wordAt (n.get Register.sp) =
      (p.call link target).memory.wordAt (n.get Register.sp))
    (address : link ≠ Register.pc → n.get link = q.pc) :
    (n.leave link).pc = q.pc ∧ (n.leave link).get Register.sp = q.get Register.sp ∧
      (link ≠ Register.pc → (n.leave link).get link = q.get link) := by
  have saved : n.memory.wordAt (n.get Register.sp) =
      if link = Register.pc then q.pc else q.get link := by
    rw [slot, sp, memory_call h, Memory.wordAt_writeWord _ wide]
  have back : (n.leave link).get Register.sp = q.get Register.sp := by
    rw [sp_leave _ other, sp, UInt16.sub_add_cancel]
  by_cases counter : link = Register.pc
  · rw [if_pos counter] at saved
    subst counter
    exact ⟨(link_leave _ _).trans saved, back, fun ordinary => absurd rfl ordinary⟩
  · rw [if_neg counter] at saved
    exact ⟨(pc_leave _ counter).trans (address counter), back, fun _ =>
      (link_leave _ _).trans saved⟩

variable {p}

theorem step_rts {link : Register} (below : p.pc ≠ 65535) (h : p.current = .rts link) :
    p.step = (.ok, p.fetched.leave link) := by
  rw [p.step_of_short below (by rw [h]; rfl), h]
  rfl

theorem get_fetched {r : Register} (h : r ≠ Register.pc) : p.fetched.get r = p.get r :=
  get_set_of_ne _ _ h.symm

end Processor

namespace Machine

/-- A return through the link register is next, and the stack pointer, its slot and the link
register are as a call has left them. -/
structure Returns (n called : Machine) (link : Register) : Prop where
  sp : n.register Register.sp = called.register Register.sp
  high : n.bus.byte (n.register Register.sp) = called.bus.byte (n.register Register.sp)
  low : n.bus.byte (n.register Register.sp + 1) = called.bus.byte (n.register Register.sp + 1)
  address : link ≠ Register.pc → n.register link = called.register link
  below : n.pc ≠ 65535
  next : n.bus.instructionAt n.pc = .rts link

/-- A call goes to its target, with the return address in the link register. Wherever the machine
gets from there, a return finds the way back: to the return address, and with the stack pointer and
the link register as they were when the operand of the call had been resolved. -/
theorem return_undoes_call (m : Machine) {link : Register} {target : Operand} {p q : Processor}
    {place : Place} (fetches : m.processor.fetch = (some (.jsr link target), p))
    (resolves : p.resolve target = (place, q)) (other : link ≠ Register.sp)
    (memory : target.mode ≠ .register) (wide : q.get Register.sp - 2 < 0xFFDA) :
    ∃ t, place = .memory t ∧
      m.stepOver.1 = .ok ∧
      m.stepOver.2.pc = t ∧
      m.stepOver.2.register Register.sp = q.get Register.sp - 2 ∧
      (link ≠ Register.pc → m.stepOver.2.register link = q.pc) ∧
      ∀ n : Machine, n.Returns m.stepOver.2 link →
        n.stepOver.1 = .ok ∧
        n.stepOver.2.pc = q.pc ∧
        n.stepOver.2.register Register.sp = q.get Register.sp ∧
        (link ≠ Register.pc → n.stepOver.2.register link = q.get link) ∧
        n.stepOver.2.memory.bytes = n.memory.bytes ∧
        n.stepOver.2.memory.loaded = n.memory.loaded ∧
        n.stepOver.2.flags = n.flags := by
  obtain ⟨t, found⟩ := p.resolve_eq_memory memory
  obtain rfl : place = .memory t := by rwa [resolves] at found
  have after := stepOver_of_step (Processor.step_of_fetch fetches)
  have sp := Processor.sp_call resolves other
  have address : link ≠ Register.pc → (p.call link target).get link = q.pc :=
    Processor.link_call resolves
  refine ⟨t, rfl, ?_, ?_, ?_, ?_, fun n returns => ?_⟩
  · rw [after]
  · rw [after]
    exact Processor.pc_call resolves
  · rw [after]
    exact sp
  · rw [after]
    exact address
  · rw [after] at returns
    have finish := stepOver_of_step (Processor.step_rts returns.below returns.next)
    have top : n.processor.fetched.get Register.sp = n.register Register.sp :=
      Processor.get_fetched Processor.sp_ne_pc
    have slot : n.memory.wordAt (n.register Register.sp) =
        (p.call link target).memory.wordAt (n.register Register.sp) :=
      Memory.wordAt_eq_of_bytes returns.high returns.low
    obtain ⟨pc, back, restored⟩ := Processor.leave_of_call p (n := n.processor.fetched) resolves
      other ((Memory.byteWide_eq_false_iff _).mpr wide) (top.trans (returns.sp.trans sp))
      (by rw [top]; exact slot)
      fun ordinary => (Processor.get_fetched ordinary).trans
        ((returns.address ordinary).trans (address ordinary))
    have bytes : (n.processor.fetched.leave link).memory.bytes = n.memory.bytes := by
      rw [Processor.memory_leave]
      rfl
    have loaded : (n.processor.fetched.leave link).memory.loaded = n.memory.loaded := by
      rw [Processor.memory_leave]
      rfl
    rw [finish]
    exact ⟨rfl, pc, back, restored, bytes, loaded, n.processor.fetched.flags_leave link⟩

/-- A call through R1 of a subroutine at 256 that returns at once. The slot lies across the border
to the byte-wide addresses. -/
def borderCall : Machine :=
  (((((initial.setByte 0 0x61).setByte 1 0x22).setByte 256 0x71).setRegister (.select 1)
    0xABCD).setRegister (.select 2) 256).setRegister Register.sp 0xFFDB

theorem bus_borderCall :
    borderCall.bus = ((initial.bus.setByte 0 0x61).setByte 1 0x22).setByte 256 0x71 := rfl

theorem fetch_borderCall : borderCall.processor.fetch =
    (some (.jsr 1 ⟨.registerIndirect, 2⟩), borderCall.processor.fetched) := by
  have first : borderCall.bus.byte 0 = 0x61 := by simp [bus_borderCall, Bus.byte_setByte]
  have second : borderCall.bus.byte (0 + 1) = 0x22 := by simp [bus_borderCall, Bus.byte_setByte]
  exact fetch_of_bytes rfl first second (by decide)

theorem current_borderCall : borderCall.processor.current = .jsr 1 ⟨.registerIndirect, 2⟩ :=
  (Processor.fetched_of_fetch fetch_borderCall).2.1

theorem stepOver_borderCall : borderCall.stepOver =
    (.ok, sync { borderCall with
      processor := borderCall.processor.fetched.call 1 ⟨.registerIndirect, 2⟩ }) :=
  stepOver_of_step (Processor.step_of_fetch fetch_borderCall)

theorem instructionAt_called_borderCall :
    borderCall.stepOver.2.bus.instructionAt 256 = .rts 1 := by
  have resolves : borderCall.processor.fetched.resolve ⟨.registerIndirect, 2⟩ =
      (.memory 256, borderCall.processor.fetched) := rfl
  have kept : borderCall.stepOver.2.bus.byte 256 = 0x71 := by
    have before : borderCall.bus.byte 256 = 0x71 := by simp [bus_borderCall, Bus.byte_setByte]
    have slot : borderCall.processor.fetched.get Register.sp - 2 = 0xFFD9 := rfl
    rw [stepOver_borderCall, bus_sync, bus, memory, Processor.memory_call resolves, slot]
    exact (Memory.byte_writeWord_of_ne _ _ (by decide) (by decide)).trans before
  rw [Bus.instructionAt, kept]
  rfl

theorem return_undoes_call_at_border :
    borderCall.stepOver.2.pc = 256 ∧
      borderCall.stepOver.2.register Register.sp = 0xFFD9 ∧
      borderCall.stepOver.2.register 1 = 2 ∧
      (borderCall.stepOver.2.setRegister 0 9).stepOver.2.pc = 2 ∧
      (borderCall.stepOver.2.setRegister 0 9).stepOver.2.register Register.sp = 0xFFDB ∧
      (borderCall.stepOver.2.setRegister 0 9).stepOver.2.register 1 = 0xABCD := by
  have resolves : borderCall.processor.fetched.resolve ⟨.registerIndirect, 2⟩ =
      (.memory 256, borderCall.processor.fetched) := rfl
  have slot : borderCall.processor.fetched.get Register.sp - 2 = 0xFFD9 := rfl
  have behind : borderCall.processor.fetched.pc = 2 := by
    rw [Processor.fetched, current_borderCall]
    rfl
  obtain ⟨t, found, -, pc, sp, link, back⟩ := return_undoes_call borderCall fetch_borderCall
    resolves (by decide) (by decide) (by rw [slot]; decide)
  obtain rfl : 256 = t := Place.memory.inj found
  have later : (borderCall.stepOver.2.setRegister 0 9).pc = 256 :=
    (Processor.get_set_of_ne _ _ (by decide)).trans pc
  have returns : (borderCall.stepOver.2.setRegister 0 9).Returns borderCall.stepOver.2 1 := {
    sp := Processor.get_set_of_ne _ _ (by decide)
    high := rfl
    low := rfl
    address := fun _ => Processor.get_set_of_ne _ _ (by decide)
    below := by
      rw [later]
      decide
    next := by
      rw [later]
      exact instructionAt_called_borderCall }
  obtain ⟨-, pc', sp', link', -⟩ := back _ returns
  exact ⟨pc, sp.trans slot, (link (by decide)).trans behind, pc'.trans behind, sp',
    link' (by decide)⟩

end Machine

end TeachingCpu
