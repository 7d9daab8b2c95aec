import Mathlib.Algebra.GroupWithZero.Nat
import Mathlib.Algebra.Order.BigOperators.Group.List
import Mathlib.Algebra.Order.Group.Nat
import TeachingCpu.Proofs.Machine.Executed
import TeachingCpu.Proofs.Memory.Records
import TeachingCpu.Proofs.Memory.WordAccess
import TeachingCpu.Proofs.Processor.WordsUsed

/-!
What an instruction adds to the count of accesses: its own bytes, one by one as far as they are
fetched, and every word that it uses, by the number of bytes which the word has. Following the
writes of the instruction reads memory as well, but looks at it through its bus, where nothing is
counted.
-/

namespace TeachingCpu

namespace Memory

def widths (words : List Address) : Nat := (words.map width).sum

theorem widths_append (v w : List Address) : widths (v ++ w) = widths v + widths w := by
  rw [widths, List.map_append, List.sum_append, widths, widths]

theorem widths_singleton (a : Address) : widths [a] = width a := Nat.add_zero _

theorem width_eq (a : Address) : width a = if 0xFFDA ≤ a then 1 else 2 := by
  simp only [width, byteWide_iff]

theorem width_le (a : Address) : width a ≤ 2 := by
  unfold width
  split <;> decide

theorem widths_le (words : List Address) : widths words ≤ 2 * words.length := by
  have most := List.sum_le_card_nsmul (words.map width) 2 fun n member => by
    obtain ⟨a, -, rfl⟩ := List.mem_map.mp member
    exact width_le a
  rwa [List.length_map, Nat.nsmul_eq_mul, Nat.mul_comm] at most

end Memory

namespace Recorded

open Memory (widths widths_append widths_singleton)

variable {α β : Type}

/-- From `p` on up to the last processor, the words in the record have been counted, and nothing
else. -/
def Counts (p : Processor) (r : Recorded α) (last : α → Processor) : Prop :=
  (last r.value).memory.accesses = p.memory.accesses + widths r.words

section Counts

variable {p : Processor}

theorem counts_pure {x : α} {last : α → Processor}
    (same : (last x).memory.accesses = p.memory.accesses) : Counts p (pure x) last := same

theorem Counts.bind {x : Recorded α} {f : α → Recorded β} {middle : α → Processor}
    {last : β → Processor} (first : Counts p x middle)
    (next : Counts (middle x.value) (f x.value) last) : Counts p (x >>= f) last := by
  rw [Counts] at first next
  rw [Counts, value_bind, words_bind, widths_append, next, first, Nat.add_assoc]

theorem Counts.return {x : Recorded α} {middle : α → Processor} {f : α → β} {last : β → Processor}
    (first : Counts p x middle)
    (same : (last (f x.value)).memory.accesses = (middle x.value).memory.accesses) :
    Counts p (x >>= fun v => pure (f v)) last :=
  first.bind (counts_pure same)

end Counts

variable (p : Processor)

theorem counts_readWord (purpose : Purpose) (a : Address) :
    Counts p (readWord p purpose a) Prod.snd :=
  congrArg _ (widths_singleton a).symm

theorem counts_writeWord (purpose : Purpose) (a : Address) (w : Word) :
    Counts p (writeWord p purpose a w) id :=
  (p.memory.accesses_writeWord a w).trans (congrArg _ (widths_singleton a).symm)

theorem counts_fetchWord : Counts p (fetchWord p) Prod.snd :=
  counts_readWord (p.postIncrement Register.pc).2 .extension _

theorem counts_index (r : Register) : Counts p (index p r) Prod.snd :=
  (counts_fetchWord p).return rfl

theorem counts_follow (purpose : Purpose) (a : Address) :
    Counts p (follow p purpose a) Prod.snd :=
  (counts_readWord p purpose a).return rfl

theorem counts_resolve (o : Operand) : Counts p (resolve p o) Prod.snd := by
  obtain ⟨mode, r⟩ := o
  cases mode with
  | register | registerIndirect => exact counts_pure rfl
  | postIncrement | preDecrement => exact counts_pure rfl
  | indexed => exact (counts_index p r).return rfl
  | postIncrementIndirect => exact counts_follow (p.postIncrement r).2 _ _
  | preDecrementIndirect => exact counts_follow (p.preDecrement r).2 _ _
  | indexedIndirect => exact (counts_index p r).bind (counts_follow _ _ _)

theorem counts_load (o : Operand) (place : Place) : Counts p (load p o place) Prod.snd := by
  cases place with
  | register r => exact counts_pure rfl
  | memory a => exact counts_readWord p _ a

theorem counts_read (o : Operand) : Counts p (read p o) (·.2.2) :=
  (counts_resolve p o).bind ((counts_load _ o _).return rfl)

theorem counts_store (place : Place) (w : Word) : Counts p (store p place w) id := by
  cases place with
  | register r => exact counts_pure rfl
  | memory a => exact counts_writeWord p _ a w

theorem counts_jump (target : Operand) : Counts p (jump p target) id := by
  refine (counts_resolve p target).bind ?_
  generalize (resolve p target).value = resolved
  obtain ⟨place, q⟩ := resolved
  cases place <;> exact counts_pure rfl

theorem counts_call (link : Register) (target : Operand) : Counts p (call p link target) id := by
  refine (counts_resolve p target).bind ?_
  generalize (resolve p target).value = resolved
  obtain ⟨place, q⟩ := resolved
  cases place with
  | register r => exact counts_pure rfl
  | memory a =>
    refine (counts_writeWord (q.preDecrement Register.sp).2 .saved _ _).return ?_
    split <;> rfl

theorem counts_leave (link : Register) : Counts p (leave p link) id := by
  let q := if link = Register.pc then p else p.setPc (p.get link)
  have same : q.memory = p.memory := by
    dsimp only [q]
    split <;> rfl
  have popped : Counts q (leave p link) id :=
    (counts_readWord (q.postIncrement Register.sp).2 .saved _).return rfl
  rwa [Counts, same] at popped

theorem counts_unary (op : UnaryOp) (o : Operand) : Counts p (unary p op o) id := by
  refine (counts_read p o).bind ?_
  dsimp only
  split
  · exact counts_store _ _ _
  · exact counts_pure rfl

theorem counts_binary (op : BinaryOp) (source destination : Operand) :
    Counts p (binary p op source destination) id :=
  (counts_read p source).bind ((counts_read _ destination).bind (counts_store _ _ _))

theorem counts_execute (i : Instruction) : Counts p (execute p i) Prod.snd := by
  cases i with
  | jmp target => exact (counts_jump p target).return rfl
  | jsr link target => exact (counts_call p link target).return rfl
  | rts link => exact (counts_leave p link).return rfl
  | unary op o => exact (counts_unary p op o).return rfl
  | binary op source destination => exact (counts_binary p op source destination).return rfl
  | branch c offset => exact counts_pure (congrArg Memory.accesses (p.memory_branch c offset))
  | sob counter offset =>
    exact counts_pure (congrArg Memory.accesses (p.memory_countDown counter offset))
  | _ => exact counts_pure rfl

end Recorded

namespace Processor

/-- How many bytes are fetched one at a time: the one or two of the instruction, as far as they lie
below the topmost address. -/
def fetchedBytes (p : Processor) : Nat := min p.current.baseSize (65535 - p.pc.toNat)

theorem fetchedBytes_of_complete {p : Processor} (complete : p.Complete) :
    p.fetchedBytes = p.current.baseSize := by
  rw [Complete] at complete
  exact Nat.min_eq_left (by omega)

theorem fetchedBytes_of_not_complete {p : Processor} (short : ¬p.Complete) :
    p.fetchedBytes = 65535 - p.pc.toNat := by
  rw [Complete] at short
  exact Nat.min_eq_right (by omega)

variable (p : Processor)

theorem fetchedBytes_le : p.fetchedBytes ≤ 2 :=
  (Nat.min_le_left _ _).trans p.current.baseSize_le

theorem accesses_step :
    p.step.2.memory.accesses =
      p.memory.accesses + p.fetchedBytes + Memory.widths p.wordsUsed := by
  rw [step_eq, wordsUsed]
  by_cases complete : p.Complete
  · have counted := Recorded.counts_execute p.fetched p.current
    rw [Recorded.Counts, Recorded.value_execute, Recorded.words_execute] at counted
    rw [if_pos complete, if_pos complete, counted, fetchedBytes_of_complete complete]
    rfl
  · rw [if_neg complete, if_neg complete, fetchedBytes_of_not_complete complete]
    rfl

theorem pc_fetch : p.fetch.2.pc = p.pc + UInt16.ofNat p.fetchedBytes := by
  by_cases complete : p.Complete
  · rw [p.fetch_of_complete complete, fetchedBytes_of_complete complete]
    exact pc_setPc _ _
  · rw [p.fetch_of_not_complete complete, fetchedBytes_of_not_complete complete]
    have below := p.pc.toNat_lt
    refine (pc_setPc _ _).trans (UInt16.toNat_inj.mp ?_)
    simp only [UInt16.toNat_add, UInt16.toNat_ofNat', UInt16.reduceToNat]
    omega

theorem resolve_displaced {r : Register} (other : r ≠ Register.pc) :
    (p.resolve ⟨.indexedIndirect, r⟩).1 =
      .memory (p.memory.wordAt (p.get r + p.memory.wordAt p.pc)) := by
  have base : (p.setPc (p.pc + 2)).get r = p.get r := p.get_set_of_ne _ other.symm
  rw [← base]
  rfl

theorem loadWords_displaced {r : Register} (other : r ≠ Register.pc) :
    Operand.loadWords p ⟨.indexedIndirect, r⟩ =
      [p.pc, p.get r + p.memory.wordAt p.pc,
        p.memory.wordAt (p.get r + p.memory.wordAt p.pc)] := by
  rw [Operand.loadWords, p.resolve_displaced other, Operand.wayWords, if_neg other]
  rfl

end Processor

namespace Machine

/-- What is added to the count of accesses by executing an instruction, by stopping at the
breakpoint and by what only looks at the memory. -/
theorem access_count_exact (m : Machine) :
    let p := m.processor
    (p.fetch.2.pc = p.pc + UInt16.ofNat p.fetchedBytes ∧ (Recorded.step p).value = p.step ∧
        (Recorded.step p).accesses.map (·.address) = p.wordsUsed) ∧
      m.stepOver.2.memory.accesses = m.memory.accesses + p.fetchedBytes +
        (p.wordsUsed.map fun a => if 0xFFDA ≤ a then 1 else 2).sum ∧
      m.stepOver.2.memory.accesses ≤ m.memory.accesses + 16 ∧
      (m.step.1 = .breakPoint → m.step.2.memory.accesses = m.memory.accesses) ∧
      m.sync.memory.accesses = m.memory.accesses ∧
      (∀ start full, (m.refresh start full).2.memory.accesses = m.memory.accesses) ∧
      ∀ a, (m.memory.apply (.peekByte a)).accesses = m.memory.accesses ∧
        (m.memory.apply (.peekWord a)).accesses = m.memory.accesses := by
  have counted : m.stepOver.2.memory.accesses =
      m.memory.accesses + m.processor.fetchedBytes + Memory.widths m.processor.wordsUsed :=
    m.processor.accesses_step
  have width : Memory.width = fun a => if 0xFFDA ≤ a then 1 else 2 := funext Memory.width_eq
  refine ⟨⟨m.processor.pc_fetch, Recorded.value_step _, m.processor.words_step⟩, ?_, ?_, ?_, rfl,
    fun _ _ => rfl, fun _ => ⟨rfl, rfl⟩⟩
  · rw [counted, Memory.widths, width]
  · have bytes := m.processor.fetchedBytes_le
    have words := Memory.widths_le m.processor.wordsUsed
    have few := m.processor.length_wordsUsed_le
    omega
  · intro stopped
    by_cases here : m.breakpoint = some m.pc
    · rw [m.step_at_breakpoint here]
    · rw [m.step_elsewhere here] at stopped
      exact absurd stopped m.outcome_stepOver_ne_breakPoint

def deepMove : Machine := (initial.setByte 0 0x9E).setByte 1 0x7A

theorem bus_deepMove : deepMove.bus = (initial.bus.setByte 0 0x9E).setByte 1 0x7A := rfl

theorem wordAt_deepMove : deepMove.memory.wordAt 0 = 0x9E7A ∧
    deepMove.memory.wordAt 2 = 0 ∧ deepMove.memory.wordAt 4 = 0 := by
  have byte (c : Address) :
      deepMove.memory.byte c = if 1 = c then 0x7A else if 0 = c then 0x9E else 0 := by
    have zero : initial.bus.byte c = 0 := AddressMap.get_fill 0 c
    rw [← zero, ← Bus.byte_setByte, ← Bus.byte_setByte, ← bus_deepMove]
    rfl
  refine ⟨?_, ?_, ?_⟩ <;> rw [Memory.wordAt_eq, byte, byte] <;> decide

theorem fetch_deepMove : deepMove.processor.fetch =
    (some (.binary .mov ⟨.indexedIndirect, 1⟩ ⟨.indexedIndirect, 2⟩),
      deepMove.processor.fetched) := by
  have first : deepMove.bus.byte 0 = 0x9E := by simp [bus_deepMove, Bus.byte_setByte]
  have second : deepMove.bus.byte (0 + 1) = 0x7A := by simp [bus_deepMove, Bus.byte_setByte]
  exact fetch_of_bytes rfl first second (by decide)

theorem wordsUsed_deepMove : deepMove.processor.wordsUsed =
    [2, 0, 0x9E7A, 4, 0, 0x9E7A, 0x9E7A] := by
  obtain ⟨complete, current, fetched⟩ := Processor.fetched_of_fetch fetch_deepMove
  obtain ⟨first, second, third⟩ := wordAt_deepMove
  rw [Processor.wordsUsed, if_pos complete, current]
  generalize same : deepMove.processor.fetched = p
  have word : p.memory.wordAt = deepMove.memory.wordAt := by rw [← same]; rfl
  have pc : p.pc = 2 := by rw [← same, Processor.fetched, current]; rfl
  have source : p.get 1 = 0 := by rw [← same]; rfl
  -- the destination is found behind the displacement of the source
  generalize after : p.afterRead ⟨.indexedIndirect, 1⟩ = q
  have word' : q.memory.wordAt = deepMove.memory.wordAt := by rw [← after, ← word]; rfl
  have pc' : q.pc = 4 := by rw [← after, p.pc_afterRead (by decide), pc]; rfl
  have destination : q.get 2 = 0 := by rw [← after, ← same]; rfl
  rw [Instruction.words, after, p.loadWords_displaced (by decide),
    q.loadWords_displaced (by decide), q.resolve_displaced (by decide), word, word', pc, pc',
    source, destination, second, third]
  simp only [UInt16.add_zero, first]
  rfl

/-- An instruction can add as much as sixteen, and nothing is added where it is stopped at. -/
theorem access_count_exact_of_deepMove :
    deepMove.stepOver.2.memory.accesses = deepMove.memory.accesses + 16 ∧
      ({ deepMove with breakpoint := some 0 } : Machine).step.2.memory.accesses =
        deepMove.memory.accesses := by
  constructor
  · obtain ⟨_, counted, _⟩ := access_count_exact deepMove
    obtain ⟨complete, current, _⟩ := Processor.fetched_of_fetch fetch_deepMove
    rw [counted, wordsUsed_deepMove, Processor.fetchedBytes_of_complete complete, current]
    rfl
  · generalize same : ({ deepMove with breakpoint := some 0 } : Machine) = m
    have here : m.breakpoint = some m.pc := by rw [← same]; rfl
    obtain ⟨_, _, _, stopped, _⟩ := access_count_exact m
    rw [stopped (congrArg Prod.fst (m.step_at_breakpoint here)), ← same]
    rfl

end Machine

end TeachingCpu
