import TeachingCpu.Machine
import TeachingCpu.Proofs.Instruction.Notation
import TeachingCpu.Proofs.Processor.Advance
import TeachingCpu.Proofs.Processor.Recorded

/-!
The processor and the disassembler agree about every instruction. The words that follow it are
laid out behind its two bytes in the order of the operands; the text of an operand shows the word
laid out for it, and executing the instruction reads that word through the program counter. At the
end the program counter has stepped over all of them, unless the instruction sets it.
-/

namespace TeachingCpu

namespace Instruction

/-- Whether executing the instruction reads the word that follows for this operand. A jump goes to
the place of an immediate value and does not read it. -/
def readsWord (i : Instruction) (o : Operand) : Bool :=
  match i with
  | jmp _ | jsr _ _ => o.hasExtension && o.mode != .postIncrement
  | _ => o.hasExtension

end Instruction

namespace Recorded

variable {α β : Type}

def extensions (r : Recorded α) : List Access := r.accesses.filter (·.purpose == .extension)

theorem extensions_bind (x : Recorded α) (f : α → Recorded β) :
    (x >>= f).extensions = x.extensions ++ (f x.value).extensions :=
  List.filter_append _ _

theorem extensions_return (x : Recorded α) (f : α → β) :
    (x >>= fun v => pure (f v)).extensions = x.extensions :=
  (extensions_bind x _).trans (List.append_nil _)

variable (p : Processor)

def wordOf (p : Processor) (a : Address) : Access := ⟨.extension, a, p.memory.wordAt a⟩

theorem wordOf_afterRead (o : Operand) : wordOf (p.afterRead o) = wordOf p := by
  funext a
  rw [wordOf, wordOf, Memory.wordAt, Memory.wordAt, p.bus_afterRead]

theorem extensions_readWord {purpose : Purpose} (other : purpose ≠ .extension) (a : Address) :
    (readWord p purpose a).extensions = [] := by
  simp [readWord, extensions, other]

theorem extensions_writeWord {purpose : Purpose} (other : purpose ≠ .extension) (a : Address)
    (w : Word) : (writeWord p purpose a w).extensions = [] := by
  simp [writeWord, extensions, other]

theorem extensions_resolve (o : Operand) :
    (resolve p o).extensions =
      if o.hasExtension && o.mode != .postIncrement then [wordOf p p.pc] else [] := by
  obtain ⟨mode, r⟩ := o
  cases mode
  case postIncrementIndirect =>
    by_cases counter : r = Register.pc
    · subst counter
      rfl
    · have pointer : incrementPurpose r .pointer = .pointer := if_neg counter
      have words := extensions_readWord (p.postIncrement r).2
        (show Purpose.pointer ≠ .extension by decide) (p.postIncrement r).1
      simp only [resolve, follow, pointer, extensions_return, words, Operand.hasExtension,
        beq_eq_false_iff_ne.mpr counter, Bool.false_and, Bool.false_eq_true, if_false]
  case postIncrement =>
    rw [Bool.and_comm]
    rfl
  all_goals rfl

theorem extensions_load {o : Operand} (other : loadPurpose o ≠ .extension) (place : Place) :
    (load p o place).extensions = [] := by
  cases place with
  | register r => rfl
  | memory a => exact extensions_readWord p other a

theorem extensions_store (place : Place) (w : Word) : (store p place w).extensions = [] := by
  cases place with
  | register r => rfl
  | memory a => exact extensions_writeWord p (by decide) a w

theorem loadPurpose_ne_extension {o : Operand} (h : o.mode ≠ .postIncrement) :
    loadPurpose o ≠ .extension := by
  obtain ⟨mode, r⟩ := o
  cases mode
  case postIncrement => contradiction
  all_goals exact Purpose.noConfusion

theorem extensions_read (o : Operand) :
    (read p o).extensions = if o.hasExtension then [wordOf p p.pc] else [] := by
  have resolved := extensions_resolve p o
  rw [read, extensions_bind, value_resolve, extensions_return, resolved]
  obtain ⟨mode, r⟩ := o
  by_cases place : mode = .postIncrement
  · subst place
    by_cases counter : r = Register.pc
    · subst counter
      rfl
    · have other : loadPurpose ⟨.postIncrement, r⟩ ≠ .extension := by
        simp [loadPurpose, incrementPurpose, counter]
      rw [extensions_load _ other]
      simp [Operand.hasExtension, counter]
  · rw [extensions_load _ (loadPurpose_ne_extension place), List.append_nil,
      bne_iff_ne.mpr place, Bool.and_true]

theorem extensions_jump (target : Operand) :
    (jump p target).extensions = (resolve p target).extensions := by
  rw [jump, extensions_bind, value_resolve]
  generalize p.resolve target = resolved
  obtain ⟨place, q⟩ := resolved
  cases place <;> exact List.append_nil _

theorem extensions_call (link : Register) (target : Operand) :
    (call p link target).extensions = (resolve p target).extensions := by
  rw [call, extensions_bind, value_resolve]
  generalize p.resolve target = resolved
  obtain ⟨place, q⟩ := resolved
  cases place <;> exact List.append_nil _

theorem extensions_unary (op : UnaryOp) (o : Operand) :
    (unary p op o).extensions = (read p o).extensions := by
  rw [unary, extensions_bind]
  dsimp only
  split
  · rw [extensions_store, List.append_nil]
  · exact List.append_nil _

theorem extensions_binary (op : BinaryOp) (source destination : Operand) :
    (binary p op source destination).extensions =
      (read p source).extensions ++ (read (p.afterRead source) destination).extensions := by
  have after : (read p source).value.2.2 = p.afterRead source :=
    congrArg (·.2.2) (value_read p source)
  rw [binary, extensions_bind, extensions_bind, extensions_store, List.append_nil, ← after]

def wordsAt (a : Address) (reads : Operand → Bool) (entries : List (Operand × Nat)) :
    List Access :=
  (entries.filter fun entry => reads entry.1).map fun entry => wordOf p (a + UInt16.ofNat entry.2)

theorem wordsAt_singleton (a : Address) (reads : Operand → Bool) (o : Operand) (n : Nat) :
    wordsAt p a reads [(o, n)] = if reads o then [wordOf p (a + UInt16.ofNat n)] else [] := by
  rw [wordsAt, List.filter_cons, List.filter_nil]
  split <;> rfl

theorem wordsAt_pair (a : Address) (reads : Operand → Bool) (first second : Operand × Nat) :
    wordsAt p a reads [first, second] = wordsAt p a reads [first] ++ wordsAt p a reads [second] := by
  rw [wordsAt, wordsAt, wordsAt, ← List.map_append, ← List.filter_append]
  rfl

/-- Executing an instruction that lies right in front of the program counter reads its words where
they are laid out, in that order and nothing else through the program counter. -/
theorem extensions_execute {i : Instruction} {a : Address}
    (forward : ∀ o ∈ i.operands, o.movesBack = false)
    (behind : p.pc = a + UInt16.ofNat i.baseSize) :
    (execute p i).extensions = wordsAt p a i.readsWord i.layout := by
  cases i with
  | jmp target =>
    rw [execute, extensions_return, extensions_jump, extensions_resolve, behind]
    exact (wordsAt_singleton p a (Instruction.readsWord (.jmp target)) target 2).symm
  | jsr link target =>
    rw [execute, extensions_return, extensions_call, extensions_resolve, behind]
    exact (wordsAt_singleton p a (Instruction.readsWord (.jsr link target)) target 2).symm
  | unary op o =>
    rw [execute, extensions_return, extensions_unary, extensions_read, behind]
    exact (wordsAt_singleton p a _ o 2).symm
  | binary op source destination =>
    have first : source.movesBack = false := forward source (by simp [Instruction.operands])
    have next : (p.afterRead source).pc = a + UInt16.ofNat (2 + source.extraBytes) := by
      rw [p.pc_afterRead first, behind, UInt16.add_assoc, ← UInt16.ofNat_add]
      rfl
    rw [execute, extensions_return, extensions_binary, extensions_read, extensions_read, next,
      wordOf_afterRead, behind]
    refine Eq.trans ?_ (wordsAt_pair p a _ (source, 2) (destination, 2 + source.extraBytes)).symm
    rw [wordsAt_singleton, wordsAt_singleton]
    rfl
  | _ => rfl

theorem extensions_step (complete : p.Complete)
    (forward : ∀ o ∈ p.current.operands, o.movesBack = false) :
    (step p).extensions = wordsAt p p.pc p.current.readsWord p.current.layout := by
  have behind : p.fetched.pc = p.pc + UInt16.ofNat p.current.baseSize := Processor.pc_setPc _ _
  have words := extensions_execute p.fetched forward behind
  rw [step, p.fetch_of_complete complete]
  exact words

end Recorded

namespace Machine

theorem outcome_stepOver (m : Machine) : m.stepOver.1 = m.processor.step.1 := rfl

theorem pc_stepOver (m : Machine) : m.stepOver.2.pc = m.processor.step.2.pc := rfl

theorem bus_setByte (m : Machine) (a : Address) (b : Byte) :
    (m.setByte a b).bus = m.bus.setByte a b := rfl

theorem bus_setPc (m : Machine) (a : Address) : (m.setPc a).bus = m.bus := rfl

/-- The disassembler and the processor agree about the instruction at the program counter. The text
shows, for each operand, the word at its place in the layout; the processor reads the words at the
same places through the program counter, in that order and no others; and if the instruction falls
through, then to the first address behind the disassembled bytes. -/
theorem execution_agrees_with_disassembly (m : Machine) (completes : m.stepOver.1 ≠ .endOfMemory)
    (forward : ∀ o ∈ (m.bus.instructionAt m.pc).operands, o.movesBack = false) :
    let i := m.bus.instructionAt m.pc
    let recorded := Recorded.step m.processor
    ((m.bus.disassemble m.pc).text = i.lead ++ ", ".intercalate
        (i.layout.map fun entry => entry.1.text (m.bus.wordAt (m.pc + UInt16.ofNat entry.2)))) ∧
      recorded.value = m.processor.step ∧
      (recorded.accesses.filter fun access => access.purpose == .extension) =
        (i.layout.filter fun entry => i.readsWord entry.1).map (fun entry =>
          ⟨.extension, m.pc + UInt16.ofNat entry.2,
            m.bus.wordAt (m.pc + UInt16.ofNat entry.2)⟩) ∧
      (i.FallsThrough m.processor →
        m.stepOver.2.pc = m.pc + UInt16.ofNat (m.bus.disassemble m.pc).size) := by
  have complete : m.processor.Complete := Processor.complete_of_outcome completes
  have text := Instruction.text_eq_lead_append (m.bus.instructionAt m.pc) fun distance =>
    m.bus.wordAt (m.pc + UInt16.ofNat distance)
  refine ⟨text, Recorded.value_step m.processor, ?_, ?_⟩
  · exact Recorded.extensions_step m.processor complete forward
  · intro falls
    have size : (m.bus.disassemble m.pc).size = m.processor.current.size := rfl
    have behind := Processor.pc_step complete forward falls
    rw [pc_stepOver, size, behind]
    rfl

/-- A move right below the topmost address, with a word of one byte behind it for each operand. -/
def moveBelowTop : Machine :=
  ((((initial.setByte 65531 0x96).setByte 65532 0x5A).setByte 65533 7).setByte 65535 9).setPc 65531

theorem bus_moveBelowTop : moveBelowTop.bus =
    (((initial.bus.setByte 65531 0x96).setByte 65532 0x5A).setByte 65533 7).setByte 65535 9 := by
  rw [moveBelowTop, bus_setPc, bus_setByte, bus_setByte, bus_setByte, bus_setByte]

theorem byteWide_moveBelowTop : moveBelowTop.bus.byteWide = Memory.byteWide := by
  rw [bus_moveBelowTop]
  rfl

theorem pc_moveBelowTop : moveBelowTop.pc = 65531 := Processor.pc_setPc _ _

theorem instructionAt_moveBelowTop :
    moveBelowTop.bus.instructionAt moveBelowTop.pc = .binary .mov ⟨.indexed, 1⟩ ⟨.indexed, 2⟩ := by
  have first : moveBelowTop.bus.byte 65531 = 0x96 := by simp [bus_moveBelowTop, Bus.byte_setByte]
  have second : moveBelowTop.bus.byte 65532 = 0x5A := by simp [bus_moveBelowTop, Bus.byte_setByte]
  rw [pc_moveBelowTop, Bus.instructionAt, first]
  exact congrArg (Instruction.decode 0x96) second

theorem complete_moveBelowTop : moveBelowTop.processor.Complete := by
  have size : moveBelowTop.processor.current.baseSize = 2 :=
    congrArg Instruction.baseSize instructionAt_moveBelowTop
  have place : moveBelowTop.processor.pc = 65531 := pc_moveBelowTop
  rw [Processor.Complete, size, place]
  decide

theorem execution_agrees_with_disassembly_below_top :
    moveBelowTop.stepOver.1 ≠ .endOfMemory ∧
      (∀ o ∈ (moveBelowTop.bus.instructionAt moveBelowTop.pc).operands, o.movesBack = false) ∧
      (moveBelowTop.bus.disassemble 65531).text = "MOV 7(R1), 9(R2)" ∧
      ((Recorded.step moveBelowTop.processor).accesses.filter
        fun access => access.purpose == .extension) =
        [⟨.extension, 65533, 7⟩, ⟨.extension, 65535, 9⟩] ∧
      moveBelowTop.stepOver.2.pc = 1 := by
  have decoded := instructionAt_moveBelowTop
  have first : moveBelowTop.bus.wordAt 65533 = 7 := by
    rw [Bus.wordAt, byteWide_moveBelowTop, if_pos (by decide)]
    simp [bus_moveBelowTop, Bus.byte_setByte]
  have second : moveBelowTop.bus.wordAt 65535 = 9 := by
    rw [Bus.wordAt, byteWide_moveBelowTop, if_pos (by decide)]
    simp [bus_moveBelowTop, Bus.byte_setByte]
  have completes : moveBelowTop.stepOver.1 ≠ .endOfMemory := by
    have executed := moveBelowTop.processor.step_eq
    rw [if_pos complete_moveBelowTop] at executed
    rw [outcome_stepOver, executed]
    exact Processor.outcome_execute _ _
  have forward : ∀ o ∈ (moveBelowTop.bus.instructionAt moveBelowTop.pc).operands,
      o.movesBack = false := by
    rw [decoded]
    decide
  obtain ⟨text, _, words, behind⟩ :=
    execution_agrees_with_disassembly moveBelowTop completes forward
  have layout : Instruction.layout (.binary .mov ⟨.indexed, 1⟩ ⟨.indexed, 2⟩) =
    [(⟨.indexed, 1⟩, 2), (⟨.indexed, 2⟩, 4)] := by decide
  have place : (65531 : Address) + UInt16.ofNat 2 = 65533 := rfl
  have further : (65531 : Address) + UInt16.ofNat 4 = 65535 := rfl
  rw [decoded, pc_moveBelowTop, layout] at text words
  simp only [List.map_cons, List.map_nil, place, further, first, second] at text
  refine ⟨completes, forward, text, ?_, ?_⟩
  · rw [words]
    simp only [Instruction.readsWord, Operand.hasExtension, List.filter_cons, List.filter_nil,
      if_true, List.map_cons, List.map_nil, place, further, first, second]
  · have size : (moveBelowTop.bus.disassemble moveBelowTop.pc).size = 6 :=
      congrArg Instruction.size decoded
    have falls := behind (by rw [decoded]; exact .inr (by decide))
    rw [falls, size, pc_moveBelowTop]
    decide

end Machine

end TeachingCpu
