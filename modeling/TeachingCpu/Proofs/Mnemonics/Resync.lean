import TeachingCpu.Proofs.Mnemonics.Starts

/-!
Following several writes one after the other. Each call sees all the bytes as they are in the end,
so that while one address is followed the rows around the others are out of date, and a pass may
stop at a row in front of them, among them or behind them. What holds between the calls is that
every instruction that is out of date takes a byte from an address still to be followed. When none
is left the table is the one that depends on the bus alone, in whatever order they came.
-/

namespace TeachingCpu.Table

/-- The lines of a table that is still to follow writes to the pending addresses. -/
structure Pending (bus : Bus) (pending : List Address) (a : Address) (line : Line) : Prop where
  disassembled : ∃ old : Bus, line = old.disassemble a
  due : Fresh bus a line ∨ ∃ d ∈ pending, Spans a line.size d

theorem admits_pending (bus : Bus) (pending : List Address) : Admits (Pending bus pending) bus :=
  .of_disassembled (fun _ => ⟨⟨bus, rfl⟩, .inl rfl⟩) fun _ _ fine => fine.disassembled

theorem tiled_pending_of_fresh {t : Table} {old bus : Bus} (tiled : t.Tiled (Fresh old) 0)
    (rule : old.byteWide = bus.byteWide) {pending : List Address}
    (covers : ∀ d, old.byte d ≠ bus.byte d → d ∈ pending) : t.Tiled (Pending bus pending) 0 := by
  refine tiled.mono fun a line _ _ fresh => ⟨⟨old, fresh⟩, ?_⟩
  obtain rfl : line = old.disassemble a := fresh
  by_cases same : ∀ d, Spans a (old.disassemble a).size d → old.byte d = bus.byte d
  · exact .inl (Bus.disassemble_congr rule same)
  · simp only [Classical.not_forall] at same
    obtain ⟨d, spans, changed⟩ := same
    exact .inr ⟨d, covers d changed, spans⟩

theorem tiled_resync_pending {t : Table} {bus : Bus} {d : Address} {rest : List Address}
    (tiled : t.Tiled (Pending bus (d :: rest)) 0) :
    (t.resync bus d).2.Tiled (Pending bus rest) 0 := by
  refine (tiled_resync tiled (admits_pending bus _) d).mono fun a line _ _ fine => ?_
  obtain ⟨old, followed⟩ := fine
  refine ⟨old.disassembled, ?_⟩
  rcases old.due with fresh | ⟨e, member, spans⟩
  · exact .inl fresh
  · rcases List.mem_cons.mp member with rfl | later
    · exact .inl (followed spans)
    · exact .inr ⟨e, later, spans⟩

theorem tiled_resyncAll {t : Table} {bus : Bus} {pending : List Address}
    (tiled : t.Tiled (Pending bus pending) 0) :
    (t.resyncAll bus pending).Tiled (Fresh bus) 0 := by
  induction pending generalizing t with
  | nil =>
    refine tiled.mono fun a line _ _ fine => ?_
    rcases fine.due with fresh | ⟨e, member, _⟩
    · exact fresh
    · contradiction
  | cons d rest ih => exact ih (tiled_resync_pending tiled)

theorem tiled_resyncAll_of_fresh {t : Table} {old bus : Bus} (tiled : t.Tiled (Fresh old) 0)
    (rule : old.byteWide = bus.byteWide) {written : List Address}
    (covers : ∀ d, old.byte d ≠ bus.byte d → d ∈ written) :
    (t.resyncAll bus written).Tiled (Fresh bus) 0 :=
  tiled_resyncAll (tiled_pending_of_fresh tiled rule covers)

/-- Following every changed address, in any order and among any others, gives the table of the
new bytes. -/
theorem rows_resyncAll (t : Table) (old bus : Bus) (rule : old.byteWide = bus.byteWide)
    (current : t.rows = (ofBus old).rows) (written : List Address)
    (covers : ∀ d, old.byte d ≠ bus.byte d → d ∈ written) :
    (t.resyncAll bus written).rows = (ofBus bus).rows ∧
      ∀ order : List Address, (∀ d, d ∈ order ↔ d ∈ written) →
        (t.resyncAll bus order).rows = (t.resyncAll bus written).rows := by
  have tiled := (rows_eq_ofBus_iff t old).mp current
  have followed : ∀ order : List Address, (∀ d, d ∈ order ↔ d ∈ written) →
      (t.resyncAll bus order).Tiled (Fresh bus) 0 := fun order same =>
    tiled_resyncAll_of_fresh tiled rule fun d changed => (same d).mpr (covers d changed)
  have reference := followed written fun _ => Iff.rfl
  refine ⟨(rows_eq_ofBus_iff _ bus).mpr reference, fun order same => ?_⟩
  exact rows_eq_of_tiled (followed order same) reference

/-- A branch at the very top of zeros is written with the offset that it takes from around the end,
behind which the zeros are no-operations. -/
theorem row_wrapped_branch {zeros : Bus} (empty : ∀ a, zeros.byte a = 0) {t : Table}
    (tiled : t.Tiled (Fresh ((zeros.setByte 65535 0x30).setByte 0 5)) 0) :
    t.row 65535 = .start "BR 5" := by
  have byte (a : Address) : ((zeros.setByte 65535 0x30).setByte 0 5).byte a =
      if 0 = a then 5 else if 65535 = a then 0x30 else 0 := by
    rw [Bus.byte_setByte, Bus.byte_setByte, empty]
  generalize (zeros.setByte 65535 0x30).setByte 0 5 = bus at tiled byte
  have short : ∀ a < 65535, (bus.disassemble a).size = 1 := by
    intro a below
    have idle : Opcode.ofByte (bus.byte a) = .nop := by
      rw [byte, if_neg (UInt16.ne_of_lt below).symm]
      split <;> rfl
    rw [Bus.disassemble_of_nop idle]
  have text : (bus.disassemble 65535).text = "BR 5" := by
    have decoded : bus.instructionAt 65535 = .branch .br 5 := by
      rw [Bus.instructionAt, byte, byte]
      rfl
    rw [Bus.disassemble, decoded]
    show Condition.br.mnemonic ++ " " ++ Numeral.integer (signedByte 5) = "BR 5"
    decide
  rw [row_of_mem_startsFrom tiled (Bus.mem_startsFrom_of_size_one (Nat.zero_le _) fun a _ => short a),
    text]

/-- A branch put at the very top takes its offset from address zero, which is followed first. -/
theorem rows_resyncAll_wrapped_branch :
    let zeros := Bus.plain (AddressMap.fill 0)
    let bus := (zeros.setByte 65535 0x30).setByte 0 5
    ((ofBus zeros).resyncAll bus [0, 7, 65535, 0]).rows = (ofBus bus).rows ∧
      ((ofBus zeros).resyncAll bus [0, 7, 65535, 0]).row 65535 = .start "BR 5" := by
  intro zeros bus
  have followed : ((ofBus zeros).resyncAll bus [0, 7, 65535, 0]).rows = (ofBus bus).rows := by
    refine (rows_resyncAll (ofBus zeros) zeros bus rfl rfl _ fun d changed => ?_).1
    rw [Bus.byte_setByte, Bus.byte_setByte] at changed
    by_cases zero : 0 = d
    · simp [← zero]
    · rw [if_neg zero] at changed
      by_cases top : 65535 = d
      · simp [← top]
      · rw [if_neg top] at changed
        contradiction
  have empty (a : Address) : zeros.byte a = 0 := AddressMap.get_fill 0 a
  refine ⟨followed, row_wrapped_branch empty ?_⟩
  exact (rows_eq_ofBus_iff _ bus).mp followed

end TeachingCpu.Table
