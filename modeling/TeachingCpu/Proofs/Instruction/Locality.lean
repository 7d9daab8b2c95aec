import TeachingCpu.Instruction

/-!
Disassembly is local. The line of an address depends on the bytes from there on, as many as the
line has, counted around the top of the address space; all other bytes may change without changing
the line. The distance from one address to another is their wrapped difference, so that an
instruction near the top also spans the lowest addresses.
-/

namespace TeachingCpu

/-- Whether an instruction of this size at `a` takes a byte from `d`. -/
def Spans (a : Address) (size : Nat) (d : Address) : Prop := (d - a).toNat < size

theorem toNat_distance (a d : Address) :
    (d - a).toNat = if a.toNat ≤ d.toNat then d.toNat - a.toNat
      else 65536 + d.toNat - a.toNat := by
  have ha := a.toNat_lt
  have hd := d.toNat_lt
  rw [UInt16.toNat_sub]
  split <;> omega

theorem spans_add {a : Address} {size n : Nat} (h : n < size) (small : size ≤ 65536) :
    Spans a size (a + UInt16.ofNat n) := by
  have ha := a.toNat_lt
  rw [Spans, toNat_distance, UInt16.toNat_add, UInt16.toNat_ofNat']
  split <;> omega

namespace Operand

theorem extraBytes_of_hasExtension {o : Operand} (h : o.hasExtension = true) :
    o.extraBytes = 2 := if_pos h

theorem text_congr (o : Operand) {v w : Word} (h : o.hasExtension = true → v = w) :
    o.text v = o.text w := by
  cases follows : o.hasExtension with
  | true => rw [h follows]
  | false => exact o.text_of_not_hasExtension follows v w

end Operand

namespace Instruction

theorem decode_congr {first second third : Byte}
    (h : (Opcode.ofByte first).hasSecondByte = false) :
    decode first second = decode first third := by
  unfold decode
  split <;> simp_all [Opcode.hasSecondByte]

theorem baseSize_decode (first second : Byte) :
    (decode first second).baseSize = if (Opcode.ofByte first).hasSecondByte then 2 else 1 := by
  rw [baseSize, opcode_decode]

theorem text_congr (i : Instruction) {f g : Nat → Word}
    (h : ∀ n, n + 2 ≤ i.size → f n = g n) : i.text f = i.text g := by
  cases i <;> simp only [text]
  case jmp o | jsr _ o | unary _ o =>
    have word := o.text_congr (v := f 2) (w := g 2) fun follows => h 2 (by
      simp [size, baseSize, opcode, Opcode.hasSecondByte, operands, extensionSize,
        Operand.extraBytes_of_hasExtension follows])
    rw [word]
  case binary op o p =>
    have size : (binary op o p).size = 2 + (o.extraBytes + p.extraBytes) := rfl
    rw [size] at h
    have source := o.text_congr (v := f 2) (w := g 2) fun follows => h 2 (by
      rw [Operand.extraBytes_of_hasExtension follows]
      omega)
    have destination := p.text_congr (v := f (2 + o.extraBytes)) (w := g (2 + o.extraBytes))
      fun follows => h _ (by
        rw [Operand.extraBytes_of_hasExtension follows]
        omega)
    rw [source, destination]

end Instruction

namespace Bus

theorem wordAt_congr {b c : Bus} (a : Address) (rule : b.byteWide = c.byteWide)
    (first : b.byte a = c.byte a) (second : b.byte (a + 1) = c.byte (a + 1)) :
    b.wordAt a = c.wordAt a := by
  rw [wordAt, wordAt, rule, first, second]

theorem instructionAt_congr {b c : Bus} {a : Address}
    (same : ∀ d, Spans a (b.disassemble a).size d → b.byte d = c.byte d) :
    b.instructionAt a = c.instructionAt a := by
  have first : b.byte a = c.byte a := by
    apply same
    rw [Spans, UInt16.sub_self]
    exact b.disassemble_size_pos a
  unfold instructionAt
  rw [← first]
  cases second : (Opcode.ofByte (b.byte a)).hasSecondByte with
  | false => exact Instruction.decode_congr second
  | true =>
    have size : 2 ≤ (b.disassemble a).size := by
      have base := Instruction.baseSize_decode (b.byte a) (b.byte (a + 1))
      rw [if_pos second] at base
      exact base ▸ Nat.le_add_right _ _
    have next := same (a + 1) (spans_add (n := 1) size (by
      have := b.disassemble_size_le a
      simp only [Instruction.maxSize] at this
      omega))
    rw [next]

theorem disassemble_congr {b c : Bus} {a : Address} (rule : b.byteWide = c.byteWide)
    (same : ∀ d, Spans a (b.disassemble a).size d → b.byte d = c.byte d) :
    b.disassemble a = c.disassemble a := by
  have instruction := instructionAt_congr same
  have small := b.disassemble_size_le a
  simp only [Instruction.maxSize] at small
  have text := (b.instructionAt a).text_congr
    (f := fun n => b.wordAt (a + UInt16.ofNat n)) (g := fun n => c.wordAt (a + UInt16.ofNat n))
    fun n within => by
      have within : n + 2 ≤ (b.disassemble a).size := within
      apply wordAt_congr _ rule (same _ (spans_add (by omega) (by omega)))
      have next : a + UInt16.ofNat n + 1 = a + UInt16.ofNat (n + 1) := by
        rw [UInt16.ofNat_add, ← UInt16.add_assoc]
        rfl
      rw [next]
      exact same _ (spans_add (by omega) (by omega))
  rw [disassemble, disassemble, ← instruction, text]

end Bus

end TeachingCpu
