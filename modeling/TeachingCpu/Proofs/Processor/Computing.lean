import TeachingCpu.Proofs.Processor.Operands

/-!
The computing instructions as one equation each for the flags and for the place of the operand. An
instruction reads its operand words, which depend on nothing but the processor in front of them,
applies its operation to them and to the flags, and puts the result where the last operand was.
-/

namespace TeachingCpu

namespace Processor

variable (p : Processor)

def operandWord (o : Operand) : Word := ((p.resolve o).2.load (p.resolve o).1).1

theorem flags_afterRead (o : Operand) : (p.afterRead o).flags = p.flags :=
  ((p.resolve o).2.flags_load _).trans (p.flags_resolve o)

/-- From `p` to `q` a word has been put at a place, and the rest of memory is as it was. -/
def Puts (p q : Processor) (place : Place) (w : Word) : Prop :=
  match place with
  | .register r => q.get r = w ∧ q.memory.bus = p.memory.bus
  | .memory a => q.memory.bus = p.memory.bus.setWord a w

theorem puts_store {q : Processor} (same : q.memory.bus = p.memory.bus) (place : Place) (w : Word) :
    p.Puts (q.store place w) place w := by
  cases place with
  | register r => exact ⟨q.get_set_self r w, same⟩
  | memory a => exact (q.memory.bus_writeWord a w).trans (by rw [same])

def unaryResult (op : UnaryOp) (o : Operand) : Computed := op.apply p.flags (p.operandWord o)

theorem unary_eq (op : UnaryOp) (o : Operand) :
    p.unary op o =
      if op.stores then
        { p.afterRead o with flags := (p.unaryResult op o).flags }.store (p.resolve o).1
          (p.unaryResult op o).result
      else { p.afterRead o with flags := (p.unaryResult op o).flags } := by
  rw [unaryResult, ← p.flags_afterRead o]
  rfl

theorem flags_unary (op : UnaryOp) (o : Operand) :
    (p.unary op o).flags = (p.unaryResult op o).flags := by
  rw [unary_eq]
  split
  · exact flags_store _ _ _
  · rfl

theorem puts_unary {op : UnaryOp} (stores : op.stores = true) (o : Operand) :
    p.Puts (p.unary op o) (p.resolve o).1 (p.unaryResult op o).result := by
  rw [unary_eq, if_pos stores]
  refine p.puts_store ?_ _ _
  exact p.bus_afterRead o

/-- What an operation makes of the words of its operands. The source is read first, and with its
side effects done the destination. -/
def binaryResult (op : BinaryOp) (source destination : Operand) : Computed :=
  op.apply p.flags (p.operandWord source) ((p.afterRead source).operandWord destination)

theorem binary_eq (op : BinaryOp) (source destination : Operand) :
    p.binary op source destination =
      { (p.afterRead source).afterRead destination with
        flags := (p.binaryResult op source destination).flags }.store
          ((p.afterRead source).resolve destination).1
          (p.binaryResult op source destination).result := by
  rw [binaryResult, ← p.flags_afterRead source, ← (p.afterRead source).flags_afterRead destination]
  rfl

theorem flags_binary (op : BinaryOp) (source destination : Operand) :
    (p.binary op source destination).flags = (p.binaryResult op source destination).flags := by
  rw [binary_eq, flags_store]

theorem puts_binary (op : BinaryOp) (source destination : Operand) :
    p.Puts (p.binary op source destination) ((p.afterRead source).resolve destination).1
      (p.binaryResult op source destination).result := by
  rw [binary_eq]
  refine p.puts_store ?_ _ _
  exact ((p.afterRead source).bus_afterRead destination).trans (p.bus_afterRead source)

end Processor

end TeachingCpu
