import TeachingCpu.Console
import TeachingCpu.Proofs.Mnemonics.Resync
import TeachingCpu.Proofs.Processor.WriteLog
import TeachingCpu.Proofs.Run.Invariant

/-!
The machines that can come about: from the initial one by its operations, in any order and number.
Their mnemonic tables depend on the contents of their memories alone. Between two operations the
log of written addresses is empty and the table is tiled by the lines of the memory; an operation
that writes logs every change and follows the log, and a bulk operation is followed by a full pass.
-/

namespace TeachingCpu.Machine

inductive Reachable : Machine → Prop
  | initial : Reachable Machine.initial
  | setRegister {m : Machine} (h : Reachable m) (r : Register) (w : Word) :
      Reachable (m.setRegister r w)
  | setPc {m : Machine} (h : Reachable m) (a : Address) : Reachable (m.setPc a)
  | setFlags {m : Machine} (h : Reachable m) (flags : Flags) : Reachable (m.setFlags flags)
  | setBreakpoint {m : Machine} (h : Reachable m) (a : Option Address) :
      Reachable (m.setBreakpoint a)
  | readByte {m : Machine} (h : Reachable m) (a : Address) : Reachable (m.readByte a).2
  | readWord {m : Machine} (h : Reachable m) (a : Address) : Reachable (m.readWord a).2
  | setByte {m : Machine} (h : Reachable m) (a : Address) (b : Byte) : Reachable (m.setByte a b)
  | setWord {m : Machine} (h : Reachable m) (a : Address) (w : Word) : Reachable (m.setWord a w)
  | load {m : Machine} (h : Reachable m) (source : Array Byte) : Reachable (m.load source)
  | loadRange {m : Machine} (h : Reachable m) (source : Array Byte)
      (start stop target : Address) : Reachable (m.loadRange source start stop target)
  | zero {m : Machine} (h : Reachable m) (start stop : Address) : Reachable (m.zero start stop)
  | copy {m : Machine} (h : Reachable m) (start stop target : Address) :
      Reachable (m.copy start stop target)
  | restore {m : Machine} (h : Reachable m) : Reachable m.restore
  | refresh {m : Machine} (h : Reachable m) (start : Address) (full : Bool) :
      Reachable (m.refresh start full).2
  | pressKey {m : Machine} (h : Reachable m) (key : Byte) :
      Reachable (Console.pressKey m key).2
  | step {m : Machine} (h : Reachable m) : Reachable m.step.2
  | stepOver {m : Machine} (h : Reachable m) : Reachable m.stepOver.2
  | run {m : Machine} {σ : Type} (h : Reachable m) (fuel : Nat) (config : RunConfig)
      (running : Bool) (observer : Run.Observer σ) (notes : σ) {report : Run.Report σ}
      (ended : m.run fuel config running observer notes = some report) : Reachable report.machine

/-- Nothing is left to be followed. -/
structure Synced (m : Machine) : Prop where
  tiled : m.table.Tiled (Table.Fresh m.bus) 0
  written : m.memory.written = []

namespace Synced

variable {m : Machine}

theorem initial : Machine.initial.Synced := ⟨Table.tiled_ofBus _, rfl⟩

theorem sync (h : m.Synced) (p : Processor) (logs : m.memory.Logs p.memory) :
    (Machine.sync { m with processor := p }).Synced := by
  obtain ⟨more, grows, covers⟩ := logs
  rw [h.written, List.nil_append] at grows
  have rule : m.bus.byteWide = p.memory.bus.byteWide := rfl
  have followed := Table.tiled_resyncAll_of_fresh h.tiled rule covers
  rw [← grows] at followed
  exact ⟨followed, rfl⟩

theorem withWrites (h : m.Synced) (change : Memory → Memory)
    (logs : m.memory.Logs (change m.memory)) : (m.withWrites change).Synced :=
  h.sync { m.processor with memory := change m.memory } logs

theorem setByte (h : m.Synced) (a : Address) (b : Byte) : (m.setByte a b).Synced :=
  h.withWrites _ (m.memory.logs_writeByte a b)

theorem setWord (h : m.Synced) (a : Address) (w : Word) : (m.setWord a w).Synced :=
  h.withWrites _ (m.memory.logs_writeWord a w)

theorem refresh (h : m.Synced) (start : Address) (full : Bool) : (m.refresh start full).2.Synced :=
  ⟨(Table.tiled_refresh h.tiled (Table.admits_fresh _) start full).mono fun _ _ _ _ fine => fine.1,
    h.written⟩

theorem withBulk (h : m.Synced) (change : Memory → Memory) (logs : (change m.memory).written = []) :
    (m.withBulk change).Synced :=
  ⟨Table.tiled_refresh_full h.tiled.instructionStart_zero, logs⟩

theorem load (h : m.Synced) (source : Array Byte) : (m.load source).Synced :=
  h.withBulk (·.load source) rfl

theorem loadRange (h : m.Synced) (source : Array Byte) (start stop target : Address) :
    (m.loadRange source start stop target).Synced :=
  h.withBulk (fun memory => (memory.loadRange source start stop target).2)
    ((m.memory.written_loadRange source start stop target).trans h.written)

theorem zero (h : m.Synced) (start stop : Address) : (m.zero start stop).Synced :=
  h.withBulk (·.zero start stop) ((m.memory.written_zero start stop).trans h.written)

theorem copy (h : m.Synced) (start stop target : Address) : (m.copy start stop target).Synced :=
  h.withBulk (·.copy start stop target)
    ((m.memory.written_copy start stop target).trans h.written)

theorem restore (h : m.Synced) : m.restore.Synced :=
  h.withBulk (·.restore) h.written

theorem pressKey (h : m.Synced) (key : Byte) : (Console.pressKey m key).2.Synced := by
  unfold Console.pressKey
  split
  · exact (h.setByte _ _).setByte _ _
  · exact h

theorem stepOver (h : m.Synced) : m.stepOver.2.Synced :=
  h.sync m.processor.step.2 m.processor.logs_step

theorem step (h : m.Synced) : m.step.2.Synced := by
  unfold Machine.step
  split
  · exact h
  · exact h.stepOver

theorem start (h : m.Synced) (config : RunConfig) : (Run.start config m).Synced where
  tiled := by
    rw [Run.table_start, bus, Run.memory_start]
    exact h.tiled
  written := by
    rw [Run.memory_start]
    exact h.written

end Synced

theorem synced_of_reachable {m : Machine} (h : Reachable m) : m.Synced := by
  induction h with
  | initial => exact Synced.initial
  | setRegister _ _ _ ih => exact ⟨ih.tiled, ih.written⟩
  | setPc _ _ ih => exact ⟨ih.tiled, ih.written⟩
  | setFlags _ _ ih => exact ⟨ih.tiled, ih.written⟩
  | setBreakpoint _ _ ih => exact ⟨ih.tiled, ih.written⟩
  | readByte _ _ ih => exact ⟨ih.tiled, ih.written⟩
  | readWord _ _ ih => exact ⟨ih.tiled, ih.written⟩
  | setByte _ a b ih => exact ih.setByte a b
  | setWord _ a w ih => exact ih.setWord a w
  | load _ source ih => exact ih.load source
  | loadRange _ source start stop target ih => exact ih.loadRange source start stop target
  | zero _ start stop ih => exact ih.zero start stop
  | copy _ start stop target ih => exact ih.copy start stop target
  | restore _ ih => exact ih.restore
  | refresh _ start full ih => exact ih.refresh start full
  | pressKey _ key ih => exact ih.pressKey key
  | step _ ih => exact ih.step
  | stepOver _ ih => exact ih.stepOver
  | run _ fuel config running observer notes ended ih =>
    exact Run.machine_loop (fun _ synced => synced.stepOver) (ih.start config) ended

/-- The table of a machine is the one that a full pass over its memory gives, whatever the machine
has been through. -/
theorem rows_of_reachable {m : Machine} (h : Reachable m) :
    m.table.rows = (Table.ofBus m.bus).rows ∧
      ∀ n : Machine, Reachable n → n.memory.bytes = m.memory.bytes →
        n.table.rows = m.table.rows := by
  have rows : ∀ n : Machine, Reachable n → n.table.rows = (Table.ofBus n.bus).rows :=
    fun n reached => (Table.rows_eq_ofBus_iff n.table n.bus).mpr (synced_of_reachable reached).tiled
  refine ⟨rows m h, fun n reached same => ?_⟩
  have bus : n.bus = m.bus := by
    rw [Machine.bus, Memory.bus, same]
    rfl
  rw [rows n reached, rows m h, bus]

theorem bytes_setByte (m : Machine) (a : Address) (b : Byte) :
    (m.setByte a b).memory.bytes = m.memory.bytes.set a b := rfl

/-- A branch at the very top takes its offset from address zero; either may be written first. -/
theorem rows_of_reachable_wrapped_branch :
    let m := (initial.setByte 65535 0x30).setByte 0 5
    m.table.rows = (Table.ofBus m.bus).rows ∧
      ((initial.setByte 0 5).setByte 65535 0x30).table.rows = m.table.rows ∧
      m.table.row 65535 = .start "BR 5" := by
  intro m
  have reached := (Reachable.initial.setByte 65535 0x30).setByte 0 5
  have other := (Reachable.initial.setByte 0 5).setByte 65535 0x30
  have same : ((initial.setByte 0 5).setByte 65535 0x30).memory.bytes =
      ((initial.setByte 65535 0x30).setByte 0 5).memory.bytes := by
    ext a
    rw [bytes_setByte, bytes_setByte, bytes_setByte, bytes_setByte]
    simp only [AddressMap.get_set]
    by_cases zero : 0 = a
    · rw [← zero]
      rfl
    · rw [if_neg zero, if_neg zero]
  obtain ⟨current, alike⟩ := rows_of_reachable reached
  have empty (a : Address) : initial.bus.byte a = 0 := AddressMap.get_fill 0 a
  have tiled := (Table.rows_eq_ofBus_iff m.table m.bus).mp current
  exact ⟨current, alike _ other same, Table.row_wrapped_branch empty tiled⟩

end TeachingCpu.Machine
