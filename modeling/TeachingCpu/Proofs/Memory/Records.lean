import Mathlib.Data.List.DropRight
import TeachingCpu.Memory

/-!
What a memory records about its past, over every sequence of its operations. Each record is kept by
operations of its own choice: words and bytes that are read or written count accesses, writes move
the last changed address and grow the log, a load and the owner of the log empty it, and the loaded
copy follows the loading operations alone.
-/

namespace TeachingCpu.Memory

inductive Operation where
  | readByte (a : Address)
  | readWord (a : Address)
  | writeByte (a : Address) (b : Byte)
  | writeWord (a : Address) (w : Word)
  | peekByte (a : Address)
  | peekWord (a : Address)
  | load (source : Array Byte)
  | loadRange (source : Array Byte) (start stop target : Address)
  | zero (start stop : Address)
  | copy (start stop target : Address)
  | restore
  | takeWritten

def wordBytes (a : Address) : List Address := if byteWide a then [a] else [a, a + 1]

theorem length_wordBytes (a : Address) : (wordBytes a).length = width a := by
  unfold wordBytes width
  split <;> rfl

theorem getLast?_wordBytes (a : Address) :
    (wordBytes a).getLast? = some (if byteWide a then a else a + 1) := by
  unfold wordBytes
  split <;> rfl

namespace Operation

/-- The bytes that are read or written one at a time, in order. -/
def touched : Operation → List Address
  | readByte a | writeByte a _ => [a]
  | readWord a | writeWord a _ => wordBytes a
  | _ => []

def written : Operation → List Address
  | writeByte a _ => [a]
  | writeWord a _ => wordBytes a
  | _ => []

def drains : Operation → Bool
  | load _ | takeWritten => true
  | _ => false

def loads : Operation → Bool
  | load _ | loadRange _ _ _ _ => true
  | _ => false

end Operation

def apply (m : Memory) : Operation → Memory
  | .readByte a => (m.readByte a).2
  | .readWord a => (m.readWord a).2
  | .writeByte a b => m.writeByte a b
  | .writeWord a w => m.writeWord a w
  | .peekByte _ | .peekWord _ => m
  | .load source => m.load source
  | .loadRange source start stop target => (m.loadRange source start stop target).2
  | .zero start stop => m.zero start stop
  | .copy start stop target => m.copy start stop target
  | .restore => m.restore
  | .takeWritten => m.takeWritten.2

def replay (ops : List Operation) : Memory := ops.foldl apply empty

theorem replay_concat (ops : List Operation) (op : Operation) :
    replay (ops ++ [op]) = (replay ops).apply op := by
  rw [replay, List.foldl_append]
  rfl

section Step

variable (m : Memory) (op : Operation)

theorem accesses_apply : (m.apply op).accesses = m.accesses + op.touched.length := by
  cases op with
  | readWord a =>
    rw [Operation.touched, length_wordBytes]
    rfl
  | writeWord a w =>
    rw [Operation.touched, length_wordBytes]
    exact m.accesses_writeWord a w
  | _ =>
    cases m
    rfl

theorem lastChanged_apply :
    (m.apply op).lastChanged = op.written.getLast?.or m.lastChanged := by
  cases op with
  | writeWord a w =>
    rw [Operation.written, getLast?_wordBytes]
    exact m.lastChanged_writeWord a w
  | _ =>
    cases m
    rfl

theorem written_apply :
    (m.apply op).written = if op.drains then [] else m.written ++ op.written := by
  cases op with
  | load | takeWritten => rfl
  | writeByte a b => rfl
  | writeWord a w => exact m.written_writeWord a w
  | _ =>
    cases m
    exact (List.append_nil _).symm

theorem loaded_apply (h : op.loads = false) : (m.apply op).loaded = m.loaded := by
  cases op with
  | load | loadRange => contradiction
  | writeWord a w => exact m.loaded_writeWord a w
  | _ =>
    cases m
    rfl

theorem loaded_apply_congr {n : Memory} (same : m.loaded = n.loaded) (h : op.loads = true) :
    (m.apply op).loaded = (n.apply op).loaded := by
  cases op with
  | load source => rfl
  | loadRange source start stop target =>
    simp only [apply, loadRange, same]
  | _ => contradiction

theorem bytes_apply_eq_loaded (same : m.bytes = m.loaded) (h : op.loads = true) :
    (m.apply op).bytes = (m.apply op).loaded := by
  cases op with
  | load source => rfl
  | loadRange source start stop target =>
    simp only [apply, loadRange, same]
  | _ => contradiction

end Step

section Run

variable (ops : List Operation)

theorem accesses_replay : (replay ops).accesses = (ops.flatMap Operation.touched).length := by
  induction ops using List.reverseRecOn with
  | nil => rfl
  | append_singleton ops op ih =>
    rw [replay_concat, accesses_apply, ih, List.flatMap_append, List.length_append,
      List.flatMap_singleton]

theorem lastChanged_replay :
    (replay ops).lastChanged = (ops.flatMap Operation.written).getLast? := by
  induction ops using List.reverseRecOn with
  | nil => rfl
  | append_singleton ops op ih =>
    rw [replay_concat, lastChanged_apply, ih, List.flatMap_append, List.getLast?_append,
      List.flatMap_singleton]

theorem written_replay : (replay ops).written =
    (ops.rtakeWhile fun op => !op.drains).flatMap Operation.written := by
  induction ops using List.reverseRecOn with
  | nil => rfl
  | append_singleton ops op ih =>
    rw [replay_concat, written_apply, ih, List.rtakeWhile_concat]
    cases op.drains with
    | true => rfl
    | false => simp

theorem loaded_replay : (replay ops).loaded = (replay (ops.filter Operation.loads)).loaded := by
  induction ops using List.reverseRecOn with
  | nil => rfl
  | append_singleton ops op ih =>
    rw [replay_concat, List.filter_append]
    cases loading : op.loads with
    | true =>
      rw [List.filter_singleton, loading, cond_true, replay_concat]
      exact loaded_apply_congr _ op ih loading
    | false =>
      rw [List.filter_singleton, loading, cond_false, List.append_nil, ← ih]
      exact loaded_apply _ op loading

theorem bytes_replay_eq_loaded (h : ∀ op ∈ ops, op.loads = true) :
    (replay ops).bytes = (replay ops).loaded := by
  induction ops using List.reverseRecOn with
  | nil => rfl
  | append_singleton ops op ih =>
    rw [replay_concat]
    exact bytes_apply_eq_loaded _ op (ih fun x known => h x (List.mem_append_left _ known))
      (h op (by simp))

/-- All that a memory records, from the operations it has been through: how many bytes were
accessed, which one was written last, which ones were written since the log was last emptied, and
what was loaded, which is also what restoring it brings back. -/
theorem records_replay :
    (replay ops).accesses = (ops.flatMap Operation.touched).length ∧
      (replay ops).lastChanged = (ops.flatMap Operation.written).getLast? ∧
      (replay ops).takeWritten.1 =
        (ops.rtakeWhile fun op => !op.drains).flatMap Operation.written ∧
      (replay ops).loaded = (replay (ops.filter Operation.loads)).bytes ∧
      (replay ops).restore.bytes = (replay (ops.filter Operation.loads)).bytes := by
  have copy : (replay ops).loaded = (replay (ops.filter Operation.loads)).bytes := by
    rw [loaded_replay, bytes_replay_eq_loaded _ fun op known => (List.mem_filter.mp known).2]
  exact ⟨accesses_replay ops, lastChanged_replay ops, written_replay ops, copy, copy⟩

end Run

end TeachingCpu.Memory
