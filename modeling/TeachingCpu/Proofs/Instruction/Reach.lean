import TeachingCpu.Proofs.Instruction.Locality

/-!
How far an instruction reaches. It takes the bytes at the distances below its size, so that a write
elsewhere leaves its line alone. Near the top these bytes wrap to the lowest addresses. An address
is reached in this way only if it is one of the lowest five, and from no row further below the top
than the longest instruction allows; from all rows that remain it can be reached.
-/

namespace TeachingCpu

instance (a : Address) (size : Nat) (d : Address) : Decidable (Spans a size d) :=
  inferInstanceAs (Decidable ((d - a).toNat < size))

theorem spans_iff {a d : Address} {size : Nat} (small : size ≤ 65536) :
    Spans a size d ↔ ∃ i < size, d = a + UInt16.ofNat i := by
  constructor
  · intro spans
    refine ⟨(d - a).toNat, spans, ?_⟩
    rw [UInt16.ofNat_toNat, UInt16.add_comm, UInt16.sub_add_cancel]
  · rintro ⟨i, inside, rfl⟩
    exact spans_add inside small

theorem spans_maxSize_iff {a d : Address} (wraps : d < a) :
    Spans a Instruction.maxSize d ↔ d < 5 ∧ 0xFFFB + d ≤ a := by
  have top := a.toNat_lt
  have below := UInt16.lt_iff_toNat_lt.mp wraps
  simp only [Spans, toNat_distance, Instruction.maxSize, UInt16.lt_iff_toNat_lt,
    UInt16.le_iff_toNat_le, UInt16.toNat_add, UInt16.reduceToNat]
  rw [if_neg (by omega)]
  omega

theorem Spans.mono {a d : Address} {size larger : Nat} (spans : Spans a size d)
    (le : size ≤ larger) : Spans a larger d :=
  Nat.lt_of_lt_of_le spans le

namespace Bus

variable (bus : Bus) {a d : Address}

theorem near_top_of_spans (wraps : d < a) (spans : Spans a (bus.disassemble a).size d) :
    d < 5 ∧ 0xFFFB + d ≤ a :=
  (spans_maxSize_iff wraps).mp (spans.mono (bus.disassemble_size_le a))

/-- The bus with an addition put at `a` both of whose operands bring a word. -/
def withLongest (a : Address) : Bus := (bus.setByte a 0xA6).setByte (a + 1) 0xBB

theorem size_withLongest (a : Address) :
    ((bus.withLongest a).disassemble a).size = Instruction.maxSize := by
  have apart : a + 1 ≠ a := by simp
  have first : (bus.withLongest a).byte a = 0xA6 := by
    rw [withLongest, byte_setByte, if_neg apart, byte_setByte, if_pos rfl]
  have second : (bus.withLongest a).byte (a + 1) = 0xBB := by
    rw [withLongest, byte_setByte, if_pos rfl]
  have decoded : (bus.withLongest a).instructionAt a = Instruction.decode 0xA6 0xBB := by
    rw [instructionAt, first, second]
  show ((bus.withLongest a).instructionAt a).size = _
  rw [decoded]
  rfl

theorem exists_spans (low : d < 5) (near : 0xFFFB + d ≤ a) :
    ∃ c : Bus, c.byteWide = bus.byteWide ∧ Spans a (c.disassemble a).size d := by
  have wraps : d < a := by
    simp only [UInt16.lt_iff_toNat_lt, UInt16.le_iff_toNat_le, UInt16.toNat_add,
      UInt16.reduceToNat] at *
    omega
  refine ⟨bus.withLongest a, rfl, ?_⟩
  rw [size_withLongest]
  exact (spans_maxSize_iff wraps).mpr ⟨low, near⟩

section Write

variable {bus}

theorem disassemble_setByte (outside : ¬Spans a (bus.disassemble a).size d) (x : Byte) :
    (bus.setByte d x).disassemble a = bus.disassemble a := by
  refine (disassemble_congr (bus.byteWide_setByte d x).symm fun e spans => ?_).symm
  have other : d ≠ e := by
    rintro rfl
    exact outside spans
  rw [byte_setByte, if_neg other]

theorem disassemble_setWord (high : ¬Spans a (bus.disassemble a).size d)
    (low : bus.byteWide d = false → ¬Spans a (bus.disassemble a).size (d + 1)) (w : Word) :
    (bus.setWord d w).disassemble a = bus.disassemble a := by
  unfold setWord
  cases wide : bus.byteWide d with
  | true => exact disassemble_setByte high _
  | false =>
    have first := disassemble_setByte high (highByte w)
    exact (disassemble_setByte (first ▸ low wide) _).trans first

end Write

end Bus

end TeachingCpu
