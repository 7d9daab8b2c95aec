import TeachingCpu.Proofs.Processor.Fetch

/-!
Where the program counter goes. Every operand advances it by the bytes that follow for it, whatever
is done at the place of the operand, so an instruction that does not set the program counter falls
through to the first address behind its words.

An operand that counts the program counter down is left out: it moves back over the instruction,
and the words that follow are not read from where they lie.
-/

namespace TeachingCpu

namespace Operand

def movesBack (o : Operand) : Bool :=
  (o.mode == .preDecrement || o.mode == .preDecrementIndirect) && o.register == Register.pc

end Operand

/-- Whether the instruction leaves the program counter behind its last byte. -/
def Instruction.FallsThrough (p : Processor) : Instruction → Prop
  | branch c _ => c.holds p.flags = false
  | jmp target | jsr _ target => target.mode = .register
  | sob counter _ => counter ≠ Register.pc ∧ p.get counter = 1
  | rts _ => False
  | unary op operand => op = .tst ∨ operand ≠ ⟨.register, Register.pc⟩
  | binary op _ destination => op = .cmp ∨ destination ≠ ⟨.register, Register.pc⟩
  | _ => True

namespace Processor

variable (p : Processor)

theorem pc_set (r : Register) (w : Word) :
    (p.set r w).pc = if r = Register.pc then w else p.pc := p.get_set r Register.pc w

theorem pc_resolve {o : Operand} (forward : o.movesBack = false) :
    (p.resolve o).2.pc = p.pc + UInt16.ofNat o.extraBytes := by
  obtain ⟨mode, r⟩ := o
  have none : p.pc + UInt16.ofNat 0 = p.pc := UInt16.add_zero p.pc
  cases mode
  case register | registerIndirect => exact none.symm
  case indexed | indexedIndirect => exact p.pc_setPc (p.pc + 2)
  case preDecrement | preDecrementIndirect =>
    have other : r ≠ Register.pc := by simpa [Operand.movesBack] using forward
    exact ((p.pc_set r _).trans (if_neg other)).trans none.symm
  case postIncrement | postIncrementIndirect =>
    by_cases counter : r = Register.pc
    · subst counter
      exact p.pc_setPc (p.pc + 2)
    · have stays := (p.pc_set r (p.get r + 2)).trans (if_neg counter)
      refine stays.trans ?_
      rw [Operand.extraBytes, if_neg (by simp [Operand.hasExtension, counter]), none]

theorem pc_load (place : Place) : (p.load place).2.pc = p.pc := by
  cases place <;> rfl

theorem get_store {r : Register} {place : Place} (other : place ≠ .register r) (w : Word) :
    (p.store place w).get r = p.get r := by
  cases place with
  | register s =>
    refine p.get_set_of_ne w ?_
    rintro rfl
    contradiction
  | memory a => rfl

theorem pc_store {place : Place} (other : place ≠ .register Register.pc) (w : Word) :
    (p.store place w).pc = p.pc :=
  p.get_store other w

theorem resolve_eq_register {o : Operand} {r : Register}
    (h : (p.resolve o).1 = .register r) : o = ⟨.register, r⟩ := by
  obtain ⟨mode, s⟩ := o
  cases mode <;> cases h
  rfl

theorem resolve_register {o : Operand} (h : o.mode = .register) :
    p.resolve o = (.register o.register, p) := by
  unfold resolve
  rw [h]

theorem extraBytes_register {o : Operand} (h : o.mode = .register) : o.extraBytes = 0 := by
  unfold Operand.extraBytes Operand.hasExtension
  rw [h]
  rfl

def afterRead (o : Operand) : Processor := ((p.resolve o).2.load (p.resolve o).1).2

theorem pc_afterRead {o : Operand} (forward : o.movesBack = false) :
    (p.afterRead o).pc = p.pc + UInt16.ofNat o.extraBytes :=
  ((p.resolve o).2.pc_load _).trans (p.pc_resolve forward)

theorem bus_afterRead (o : Operand) : (p.afterRead o).memory.bus = p.memory.bus := by
  have bytes := ((p.resolve o).2.bytes_load (p.resolve o).1).trans (p.bytes_resolve o)
  rw [Memory.bus, Memory.bus, afterRead, bytes]

theorem pc_unary {op : UnaryOp} {o : Operand} (forward : o.movesBack = false)
    (falls : op = .tst ∨ o ≠ ⟨.register, Register.pc⟩) :
    (p.unary op o).pc = p.pc + UInt16.ofNat o.extraBytes := by
  have read := p.pc_afterRead forward
  rw [unary]
  dsimp only
  split
  · next stores =>
    rcases falls with rfl | other
    · contradiction
    · have elsewhere : (p.resolve o).1 ≠ .register Register.pc :=
        fun same => other (p.resolve_eq_register same)
      rw [pc_store _ elsewhere]
      exact read
  · exact read

theorem pc_binary {op : BinaryOp} {source destination : Operand}
    (forward : source.movesBack = false) (forward' : destination.movesBack = false)
    (falls : op = .cmp ∨ destination ≠ ⟨.register, Register.pc⟩) :
    (p.binary op source destination).pc =
      p.pc + UInt16.ofNat source.extraBytes + UInt16.ofNat destination.extraBytes := by
  have first := p.pc_afterRead forward
  have second := (p.afterRead source).pc_afterRead forward'
  rw [first] at second
  rw [← second]
  by_cases counter : destination = ⟨.register, Register.pc⟩
  · -- a comparison stores the program counter that it has loaded
    obtain rfl : op = .cmp := falls.resolve_right (absurd counter)
    subst counter
    exact (pc_set _ _ _).trans (if_pos rfl)
  · have elsewhere : ((p.afterRead source).resolve destination).1 ≠ .register Register.pc :=
      fun same => counter (resolve_eq_register _ same)
    exact pc_store _ elsewhere _

theorem pc_execute {i : Instruction} (forward : ∀ o ∈ i.operands, o.movesBack = false)
    (falls : i.FallsThrough p) :
    (p.execute i).2.pc = p.pc + UInt16.ofNat (Instruction.extensionSize i.operands) := by
  have none : p.pc + UInt16.ofNat 0 = p.pc := UInt16.add_zero p.pc
  have stays {o : Operand} (register : o.mode = .register) :
      p.pc = p.pc + UInt16.ofNat (Instruction.extensionSize [o]) := by
    rw [Instruction.extensionSize, Instruction.extensionSize, extraBytes_register register, none]
  cases i with
  | nop | ccc | scc | rti | hlt => exact none.symm
  | branch c offset =>
    rw [execute, branch, if_neg (Bool.eq_false_iff.mp falls)]
    exact none.symm
  | jmp target =>
    rw [execute, jump, p.resolve_register falls]
    exact stays falls
  | sob counter offset =>
    obtain ⟨other, one⟩ := falls
    rw [execute, countDown, one]
    exact (p.pc_set counter _).trans ((if_neg other).trans none.symm)
  | jsr link target =>
    rw [execute, call, p.resolve_register falls]
    exact stays falls
  | rts => exact falls.elim
  | unary op o => exact p.pc_unary (forward o (List.mem_singleton.mpr rfl)) falls
  | binary op source destination =>
    have both := p.pc_binary (forward source (by simp [Instruction.operands]))
      (forward destination (by simp [Instruction.operands])) falls
    rw [execute, both, UInt16.add_assoc, ← UInt16.ofNat_add]
    rfl

theorem fallsThrough_fetched {i : Instruction} (falls : i.FallsThrough p) :
    i.FallsThrough p.fetched := by
  cases i with
  | sob counter offset =>
    obtain ⟨other, one⟩ := falls
    exact ⟨other, (get_set _ _ _ _).trans ((if_neg (Ne.symm other)).trans one)⟩
  | _ => exact falls

theorem outcome_execute (p : Processor) (i : Instruction) : (p.execute i).1 ≠ .endOfMemory := by
  cases i <;> exact Outcome.noConfusion

theorem outcome_step_eq_endOfMemory_iff (p : Processor) :
    p.step.1 = .endOfMemory ↔ ¬p.Complete := by
  rw [step_eq]
  split
  · next complete => exact ⟨fun ended => absurd ended (outcome_execute _ _), absurd complete⟩
  · next short => exact ⟨fun _ => short, fun _ => rfl⟩

theorem complete_of_outcome {p : Processor} (completes : p.step.1 ≠ .endOfMemory) :
    p.Complete :=
  Decidable.not_not.mp (mt p.outcome_step_eq_endOfMemory_iff.mpr completes)

theorem pc_step {p : Processor} (complete : p.Complete)
    (forward : ∀ o ∈ p.current.operands, o.movesBack = false) (falls : p.current.FallsThrough p) :
    p.step.2.pc = p.pc + UInt16.ofNat p.current.size := by
  have start : p.fetched.pc = p.pc + UInt16.ofNat p.current.baseSize := pc_setPc _ _
  have words := p.fetched.pc_execute forward (p.fallsThrough_fetched falls)
  rw [step_eq, if_pos complete, words, start, UInt16.add_assoc, ← UInt16.ofNat_add]
  rfl

end Processor

end TeachingCpu
