import TeachingCpu.Proofs.Processor.Advance
import TeachingCpu.Proofs.Processor.Recorded

/-!
Which words an instruction uses, as a list of addresses in the order of use. On the way to its place
an operand uses the displacement at the program counter and the word that points to the place, as
far as its mode has them. The computing instructions load each of their operands and store the last
one again; a jump or a call uses nothing at its target. The list is what the record of an execution
has.
-/

namespace TeachingCpu

def Place.words : Place → List Address
  | register _ => []
  | memory a => [a]

theorem Place.length_words_le (place : Place) : place.words.length ≤ 1 := by
  cases place <;> simp [words]

namespace Operand

def wayWords (p : Processor) (o : Operand) : List Address :=
  match o.mode with
  | .register | .postIncrement | .preDecrement | .registerIndirect => []
  | .indexed => [p.pc]
  | .postIncrementIndirect => [p.get o.register]
  | .preDecrementIndirect => [p.get o.register - 2]
  | .indexedIndirect =>
    let base := if o.register = Register.pc then p.pc + 2 else p.get o.register
    [p.pc, base + p.memory.wordAt p.pc]

def loadWords (p : Processor) (o : Operand) : List Address := o.wayWords p ++ (p.resolve o).1.words

theorem length_wayWords_le (p : Processor) (o : Operand) : (o.wayWords p).length ≤ 2 := by
  unfold wayWords
  split <;> simp

theorem length_loadWords_le (p : Processor) (o : Operand) : (o.loadWords p).length ≤ 3 := by
  have way := o.length_wayWords_le p
  have place := (p.resolve o).1.length_words_le
  rw [loadWords, List.length_append]
  omega

end Operand

def Instruction.words (p : Processor) : Instruction → List Address
  | jmp target => target.wayWords p
  | jsr _ target =>
    match p.resolve target with
    | (.register _, _) => target.wayWords p
    | (.memory _, q) => target.wayWords p ++ [q.get Register.sp - 2]
  | rts _ => [p.get Register.sp]
  | unary op o =>
    if op = .tst then o.loadWords p else o.loadWords p ++ (p.resolve o).1.words
  | binary _ source destination =>
    let q := p.afterRead source
    source.loadWords p ++ destination.loadWords q ++ (q.resolve destination).1.words
  | _ => []

/-- No instruction uses more words than one that copies from and to places found by displaced
pointers. -/
theorem Instruction.length_words_le (p : Processor) (i : Instruction) : (i.words p).length ≤ 7 := by
  cases i with
  | jmp target =>
    have way := target.length_wayWords_le p
    rw [words]
    omega
  | jsr link target =>
    have way := target.length_wayWords_le p
    rw [words]
    split
    · omega
    · rw [List.length_append, List.length_singleton]
      omega
  | unary op o =>
    have load := o.length_loadWords_le p
    have place := (p.resolve o).1.length_words_le
    rw [words]
    split
    · omega
    · rw [List.length_append]
      omega
  | binary op source destination =>
    have first := source.length_loadWords_le p
    have second := destination.length_loadWords_le (p.afterRead source)
    have place := ((p.afterRead source).resolve destination).1.length_words_le
    simp only [words, List.length_append]
    omega
  | _ => simp [words]

namespace Recorded

variable {α β : Type}

def words (r : Recorded α) : List Address := r.accesses.map (·.address)

@[simp] theorem words_pure (x : α) : (pure x : Recorded α).words = [] := rfl

@[simp] theorem words_bind (x : Recorded α) (f : α → Recorded β) :
    (x >>= f).words = x.words ++ (f x.value).words := List.map_append

theorem words_return (x : Recorded α) (f : α → β) :
    (x >>= fun v => pure (f v)).words = x.words := by
  rw [words_bind, words_pure, List.append_nil]

variable (p : Processor)

theorem words_resolve (o : Operand) : (resolve p o).words = o.wayWords p := by
  obtain ⟨mode, r⟩ := o
  cases mode with
  | indexedIndirect =>
    have base : (p.setPc (p.pc + 2)).get r = if r = Register.pc then p.pc + 2 else p.get r := by
      by_cases counter : r = Register.pc
      · rw [if_pos counter, counter]
        exact p.pc_setPc _
      · rw [if_neg counter]
        exact p.get_set_of_ne _ (Ne.symm counter)
    rw [Operand.wayWords, ← base]
    rfl
  | _ => rfl

theorem words_load (o : Operand) (place : Place) : (load p o place).words = place.words := by
  cases place <;> rfl

theorem words_read (o : Operand) : (read p o).words = o.loadWords p := by
  rw [read, words_bind, words_resolve, value_resolve, words_return, words_load, Operand.loadWords]

theorem words_store (place : Place) (w : Word) : (store p place w).words = place.words := by
  cases place <;> rfl

theorem words_jump (target : Operand) : (jump p target).words = target.wayWords p := by
  rw [jump, words_bind, words_resolve, value_resolve]
  generalize p.resolve target = resolved
  obtain ⟨place, q⟩ := resolved
  cases place <;> exact List.append_nil _

theorem words_call (link : Register) (target : Operand) :
    (call p link target).words = (Instruction.jsr link target).words p := by
  rw [call, words_bind, words_resolve, value_resolve, Instruction.words]
  generalize p.resolve target = resolved
  obtain ⟨place, q⟩ := resolved
  cases place with
  | register r => exact List.append_nil _
  | memory a => rfl

theorem words_leave (link : Register) : (leave p link).words = [p.get Register.sp] := by
  have top : (if link = Register.pc then p else p.setPc (p.get link)).get Register.sp =
      p.get Register.sp := by
    split
    · rfl
    · exact p.get_set_of_ne _ (by decide)
  rw [← top]
  rfl

theorem words_unary (op : UnaryOp) (o : Operand) :
    (unary p op o).words = (Instruction.unary op o).words p := by
  rw [unary, words_bind, words_read, value_read, Instruction.words]
  by_cases test : op = .tst
  · rw [test]
    exact List.append_nil _
  · have stores : op.stores = true := bne_iff_ne.mpr test
    simp only [stores, if_true, words_store, if_neg test]

theorem words_binary (op : BinaryOp) (source destination : Operand) :
    (binary p op source destination).words =
      (Instruction.binary op source destination).words p := by
  simp only [binary, words_bind, words_read, value_read, words_store, Instruction.words,
    List.append_assoc]
  rfl

theorem words_execute (i : Instruction) : (execute p i).words = i.words p := by
  cases i with
  | jmp target => exact (words_return _ _).trans (words_jump p target)
  | jsr link target => exact (words_return _ _).trans (words_call p link target)
  | rts link => exact (words_return _ _).trans (words_leave p link)
  | unary op o => exact (words_return _ _).trans (words_unary p op o)
  | binary op source destination =>
    exact (words_return _ _).trans (words_binary p op source destination)
  | _ => rfl

end Recorded

namespace Processor

variable (p : Processor)

def wordsUsed : List Address := if p.Complete then p.current.words p.fetched else []

theorem words_step : (Recorded.step p).words = p.wordsUsed := by
  rw [Recorded.step, wordsUsed]
  by_cases complete : p.Complete
  · rw [p.fetch_of_complete complete, if_pos complete]
    exact Recorded.words_execute p.fetched p.current
  · rw [p.fetch_of_not_complete complete, if_neg complete]
    rfl

theorem length_wordsUsed_le : p.wordsUsed.length ≤ 7 := by
  rw [wordsUsed]
  split
  · exact p.current.length_words_le p.fetched
  · exact Nat.zero_le _

end Processor

end TeachingCpu
