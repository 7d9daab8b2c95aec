/-!
Bytes and words as numbers. A word holds its more significant byte first, is read either as a
number below 65536 or as a signed number, and its additions and subtractions wrap. The three tests
at the end say what a wrapping addition or subtraction lost: the carry or borrow out of the top
bit, and the sign.
-/

namespace TeachingCpu

abbrev Byte := UInt8

abbrev Word := UInt16

abbrev Address := UInt16

def word (high low : Byte) : Word := high.toUInt16 * 256 + low.toUInt16

theorem word_toNat (high low : Byte) :
    (word high low).toNat = 256 * high.toNat + low.toNat := by
  have h := high.toNat_lt
  have l := low.toNat_lt
  simp only [word, UInt16.toNat_add, UInt16.toNat_mul, UInt8.toNat_toUInt16, UInt16.reduceToNat]
  omega

def highByte (w : Word) : Byte := (w / 256).toUInt8

theorem highByte_toNat (w : Word) : (highByte w).toNat = w.toNat / 256 := by
  have h := w.toNat_lt
  simp only [highByte, UInt16.toNat_toUInt8, UInt16.toNat_div, UInt16.reduceToNat]
  omega

def lowByte (w : Word) : Byte := w.toUInt8

theorem lowByte_toNat (w : Word) : (lowByte w).toNat = w.toNat % 256 := by
  simp only [lowByte, UInt16.toNat_toUInt8]

theorem word_highByte_lowByte (w : Word) : word (highByte w) (lowByte w) = w := by
  apply UInt16.toNat_inj.mp
  rw [word_toNat, highByte_toNat, lowByte_toNat]
  omega

theorem highByte_word (high low : Byte) : highByte (word high low) = high := by
  have l := low.toNat_lt
  apply UInt8.toNat_inj.mp
  rw [highByte_toNat, word_toNat]
  omega

theorem lowByte_word (high low : Byte) : lowByte (word high low) = low := by
  have l := low.toNat_lt
  apply UInt8.toNat_inj.mp
  rw [lowByte_toNat, word_toNat]
  omega

def signed (w : Word) : Int :=
  if w < 32768 then (w.toNat : Int) else (w.toNat : Int) - 65536

theorem signed_bounds (w : Word) : -32768 ≤ signed w ∧ signed w < 32768 := by
  have h := w.toNat_lt
  simp only [signed, UInt16.lt_iff_toNat_lt, UInt16.reduceToNat]
  split <;> omega

theorem signed_emod (w : Word) : signed w % 65536 = w.toNat := by
  have h := w.toNat_lt
  simp only [signed, UInt16.lt_iff_toNat_lt, UInt16.reduceToNat]
  split <;> omega

theorem signed_inj {v w : Word} : signed v = signed w ↔ v = w := by
  refine ⟨fun same => ?_, congrArg signed⟩
  have first := signed_emod v
  have second := signed_emod w
  rw [same] at first
  apply UInt16.toNat_inj.mp
  omega

def signedByte (b : Byte) : Int :=
  if b < 128 then (b.toNat : Int) else (b.toNat : Int) - 256

theorem signedByte_inj {b c : Byte} : signedByte b = signedByte c ↔ b = c := by
  refine ⟨fun same => ?_, congrArg signedByte⟩
  have first := b.toNat_lt
  have second := c.toNat_lt
  simp only [signedByte, UInt8.lt_iff_toNat_lt, UInt8.reduceToNat] at same
  apply UInt8.toNat_inj.mp
  split at same <;> split at same <;> omega

def signExtend (b : Byte) : Word :=
  if b < 128 then b.toUInt16 else b.toUInt16 + 65280

def carries (a b : Word) : Bool := 65536 ≤ a.toNat + b.toNat

def borrows (a b : Word) : Bool := a < b

/-- Two numbers of one sign whose wrapped sum has the other sign. A zero operand or a zero result
has no sign, so it never overflows. -/
def overflows (a b : Int) (result : Word) : Bool :=
  (0 < a && 0 < b && signed result < 0) || (a < 0 && b < 0 && 0 < signed result)

end TeachingCpu
