import TeachingCpu.Proofs.Processor.Fetch

/-!
The log of written addresses misses no change. Whatever an instruction does to memory, every
address whose byte is another one afterwards has been added to the log. The addresses in the log
need not have changed: a store may write what was there before.
-/

namespace TeachingCpu

namespace Memory

/-- From `m` to `n` the log has grown by all addresses that changed. -/
def Logs (m n : Memory) : Prop :=
  ∃ more, n.written = m.written ++ more ∧ ∀ a, m.byte a ≠ n.byte a → a ∈ more

namespace Logs

variable {m n o : Memory}

theorem of_same (bytes : n.bytes = m.bytes) (written : n.written = m.written) : m.Logs n := by
  refine ⟨[], by rw [written, List.append_nil], fun a changed => ?_⟩
  rw [byte, byte, bus, bus, bytes] at changed
  contradiction

theorem trans (h : m.Logs n) (h' : n.Logs o) : m.Logs o := by
  obtain ⟨more, grows, covers⟩ := h
  obtain ⟨more', grows', covers'⟩ := h'
  refine ⟨more ++ more', by rw [grows', grows, List.append_assoc], fun a changed => ?_⟩
  rw [List.mem_append]
  by_cases early : m.byte a = n.byte a
  · exact .inr (covers' a (early ▸ changed))
  · exact .inl (covers a early)

end Logs

theorem logs_writeByte (m : Memory) (a : Address) (b : Byte) : m.Logs (m.writeByte a b) := by
  refine ⟨[a], rfl, fun c changed => ?_⟩
  rw [byte_writeByte] at changed
  split at changed
  · next same => rw [same, List.mem_singleton]
  · contradiction

theorem logs_writeWord (m : Memory) (a : Address) (w : Word) : m.Logs (m.writeWord a w) := by
  unfold writeWord
  split
  · exact m.logs_writeByte a _
  · exact (m.logs_writeByte a _).trans (logs_writeByte _ _ _)

-- The kernel would compare the contents, not the logs, if the memory were not taken apart.
theorem written_loadRange (m : Memory) (source : Array Byte) (start stop target : Address) :
    (m.loadRange source start stop target).2.written = m.written := by
  cases m
  rfl

theorem written_zero (m : Memory) (start stop : Address) :
    (m.zero start stop).written = m.written := by
  cases m
  rfl

theorem written_copy (m : Memory) (start stop target : Address) :
    (m.copy start stop target).written = m.written := by
  cases m
  rfl

end Memory

namespace Processor

variable (p : Processor)

theorem written_resolve (o : Operand) : (p.resolve o).2.memory.written = p.memory.written := by
  unfold resolve
  split <;> rfl

theorem logs_resolve (o : Operand) : p.memory.Logs (p.resolve o).2.memory :=
  .of_same (p.bytes_resolve o) (p.written_resolve o)

theorem logs_load (place : Place) : p.memory.Logs (p.load place).2.memory := by
  cases place <;> exact .of_same rfl rfl

theorem logs_store (place : Place) (w : Word) : p.memory.Logs (p.store place w).memory := by
  cases place with
  | register r => exact .of_same rfl rfl
  | memory a => exact p.memory.logs_writeWord a w

theorem logs_branch (c : Condition) (offset : Byte) :
    p.memory.Logs (p.branch c offset).memory := by
  rw [memory_branch]
  exact .of_same rfl rfl

theorem logs_jump (target : Operand) : p.memory.Logs (p.jump target).memory := by
  rw [memory_jump]
  exact p.logs_resolve target

theorem logs_countDown (counter : Register) (offset : Byte) :
    p.memory.Logs (p.countDown counter offset).memory := by
  rw [memory_countDown]
  exact .of_same rfl rfl

theorem logs_call (link : Register) (target : Operand) :
    p.memory.Logs (p.call link target).memory := by
  have resolved := p.logs_resolve target
  unfold call
  split
  · next r q same =>
    rw [same] at resolved
    exact resolved
  · next a q same =>
    rw [same] at resolved
    have pushed : q.memory.Logs (q.push (q.get link)).memory := q.memory.logs_writeWord _ _
    refine resolved.trans ?_
    simp only
    split <;> exact pushed

theorem logs_leave (link : Register) : p.memory.Logs (p.leave link).memory := by
  simp only [leave]
  split <;> exact .of_same rfl rfl

theorem logs_unary (op : UnaryOp) (operand : Operand) :
    p.memory.Logs (p.unary op operand).memory := by
  have read := (p.logs_resolve operand).trans (logs_load _ (p.resolve operand).1)
  simp only [unary]
  split
  · exact read.trans (logs_store _ _ _)
  · exact read

theorem logs_binary (op : BinaryOp) (source destination : Operand) :
    p.memory.Logs (p.binary op source destination).memory :=
  (p.logs_resolve source).trans <| (logs_load _ _).trans <|
    (logs_resolve _ destination).trans <| (logs_load _ _).trans (logs_store _ _ _)

theorem logs_execute (i : Instruction) : p.memory.Logs (p.execute i).2.memory := by
  cases i with
  | nop | rti | hlt => exact .of_same rfl rfl
  | ccc mask | scc mask => exact .of_same rfl rfl
  | branch c offset => exact p.logs_branch c offset
  | jmp target => exact p.logs_jump target
  | sob counter offset => exact p.logs_countDown counter offset
  | jsr link target => exact p.logs_call link target
  | rts link => exact p.logs_leave link
  | unary op operand => exact p.logs_unary op operand
  | binary op source destination => exact p.logs_binary op source destination

theorem logs_step : p.memory.Logs p.step.2.memory := by
  rw [step_eq]
  split
  · have fetched : p.memory.Logs p.fetched.memory := .of_same rfl rfl
    exact fetched.trans (logs_execute _ _)
  · exact .of_same rfl rfl

end Processor

end TeachingCpu
