import TeachingCpu.Console
import TeachingCpu.Memory

/-!
Words that share bytes. What is written as a word at one address is seen by the words read there,
one address below and one address above, as far as they share a byte. Which bytes a word has depends
on its address: the address below the byte-wide ones is still an ordinary one, so that its word ends
in the first of them, and the topmost address is byte-wide, so that no word goes on at address zero.
-/

namespace TeachingCpu

theorem word_zero (b : Byte) : word 0 b = b.toUInt16 := by
  apply UInt16.toNat_inj.mp
  rw [word_toNat, UInt8.toNat_toUInt16]
  exact Nat.zero_add _

namespace Memory

theorem add_one_ne (a : Address) : a + 1 ≠ a := by
  have h := a.toNat_lt
  simp only [Ne, ← UInt16.toNat_inj, UInt16.toNat_add, UInt16.reduceToNat]
  omega

theorem byteWide_eq_false_iff (a : Address) : byteWide a = false ↔ a < firstByteWide := by
  rw [byteWide, decide_eq_false_iff_not, UInt16.not_le]

theorem byteWide_iff (a : Address) : byteWide a = true ↔ 0xFFDA ≤ a := decide_eq_true_iff

theorem le_add_one {a : Address} (ordinary : ¬0xFFDA ≤ a) : a ≤ a + 1 := by
  simp only [UInt16.le_iff_toNat_le, UInt16.reduceToNat] at ordinary
  simp only [UInt16.le_iff_toNat_le, UInt16.toNat_add, UInt16.reduceToNat]
  omega

/-- The byte that a written word leaves at an address, if it takes that address. -/
def writtenByte (a : Address) (w : Word) (c : Address) : Option Byte :=
  if 0xFFDA ≤ a then
    if c = a then some (lowByte w) else none
  else if c = a then some (highByte w)
  else if c = a + 1 then some (lowByte w)
  else none

/-- What a word written at `a` makes of an old word at `b`. -/
def overwritten (a : Address) (w : Word) (b : Address) (old : Word) : Word :=
  if 0xFFDA ≤ b then word 0 ((writtenByte a w b).getD (lowByte old))
  else
    word ((writtenByte a w b).getD (highByte old)) ((writtenByte a w (b + 1)).getD (lowByte old))

section Written

variable (m : Memory) (a : Address) (w : Word)

theorem writtenByte_of_ne {c : Address} (high : c ≠ a) (low : a < 0xFFDA → c ≠ a + 1) :
    writtenByte a w c = none := by
  rw [writtenByte, if_neg high, if_neg high]
  split
  · rfl
  · next ordinary => exact if_neg (low (UInt16.not_le.mp ordinary))

theorem writtenByte_of_lt {c : Address} (below : c < a) : writtenByte a w c = none := by
  refine writtenByte_of_ne a w (UInt16.ne_of_lt below) fun ordinary => ?_
  have next := le_add_one (UInt16.not_le.mpr ordinary)
  exact UInt16.ne_of_lt (UInt16.lt_of_lt_of_le below next)

theorem byte_writeWord (c : Address) :
    (m.writeWord a w).byte c = (writtenByte a w c).getD (m.byte c) := by
  rw [writeWord, writtenByte]
  by_cases wide : byteWide a = true
  · rw [if_pos wide, if_pos ((byteWide_iff a).mp wide), byte_writeByte]
    by_cases here : c = a
    · rw [if_pos here, if_pos here.symm, Option.getD_some]
    · rw [if_neg here, if_neg (Ne.symm here), Option.getD_none]
  · rw [if_neg wide, if_neg (mt (byteWide_iff a).mpr wide), byte_writeByte, byte_writeByte]
    by_cases here : c = a
    · rw [here, if_neg (add_one_ne a), if_pos rfl, if_pos rfl, Option.getD_some]
    · rw [if_neg here, if_neg (Ne.symm here)]
      by_cases next : c = a + 1
      · rw [if_pos next, if_pos next.symm, Option.getD_some]
      · rw [if_neg next, if_neg (Ne.symm next), Option.getD_none]

theorem byte_writeWord_of_ne {a b : Address} (high : a ≠ b) (low : a + 1 ≠ b) :
    (m.writeWord a w).byte b = m.byte b := by
  rw [byte_writeWord, writtenByte_of_ne a w high.symm fun _ => low.symm, Option.getD_none]

end Written

section Read

variable (m : Memory) (b : Address)

theorem wordAt_eq : m.wordAt b =
    if 0xFFDA ≤ b then word 0 (m.byte b) else word (m.byte b) (m.byte (b + 1)) := by
  have wide : m.bus.byteWide b = true ↔ 0xFFDA ≤ b := byteWide_iff b
  simp only [wordAt, Bus.wordAt, wide, word_zero]
  rfl

theorem wordAt_eq_of_bytes {m n : Memory} {a : Address} (high : m.byte a = n.byte a)
    (low : m.byte (a + 1) = n.byte (a + 1)) : m.wordAt a = n.wordAt a := by
  rw [wordAt_eq, wordAt_eq, high, low]

theorem wordAt_congr {n : Memory} (same : ∀ c, b ≤ c → n.byte c = m.byte c) :
    n.wordAt b = m.wordAt b := by
  rw [wordAt_eq, wordAt_eq, same b (UInt16.le_refl b)]
  split
  · rfl
  · next ordinary => rw [same (b + 1) (le_add_one ordinary)]

theorem wordAt_writeWord_eq (a : Address) (w : Word) :
    (m.writeWord a w).wordAt b = overwritten a w b (m.wordAt b) := by
  rw [wordAt_eq, overwritten, byte_writeWord, byte_writeWord, wordAt_eq]
  split
  · rw [lowByte_word]
  · rw [highByte_word, lowByte_word]

theorem overwritten_self (a : Address) (w old : Word) :
    overwritten a w a old = if a < 0xFFDA then w else word 0 (lowByte w) := by
  simp only [overwritten, writtenByte, ← UInt16.not_lt]
  by_cases ordinary : a < 0xFFDA
  · simp [ordinary, word_highByte_lowByte]
  · simp [ordinary]

theorem wordAt_writeWord {a : Address} (wide : byteWide a = false) (w : Word) :
    (m.writeWord a w).wordAt a = w := by
  have ordinary : a < 0xFFDA := (byteWide_eq_false_iff a).mp wide
  rw [wordAt_writeWord_eq, overwritten_self, if_pos ordinary]

end Read

/-- Writing a word at `a` and reading one at `b`, for all pairs of addresses. A word takes no
address below its own. -/
theorem word_access_exact (m : Memory) (a b : Address) (w : Word) :
    let n := m.writeWord a w
    (∀ c, c ≠ a → (a < 0xFFDA → c ≠ a + 1) → n.byte c = m.byte c) ∧
      (n.readWord b).1 = n.wordAt b ∧
      (b = a → (n.readWord b).1 = if a < 0xFFDA then w else word 0 (lowByte w)) ∧
      (b ≠ a → (n.readWord b).1 = overwritten a w b (m.readWord b).1) ∧
      ((m.readWord 0xFFD9).1 = word (m.byte 0xFFD9) (m.byte Console.keyState) ∧
        (m.writeWord 0xFFD9 w).byte 0xFFD9 = highByte w ∧
        (m.writeWord 0xFFD9 w).byte Console.keyState = lowByte w) ∧
      (∀ c < a, n.byte c = m.byte c) ∧
      ∀ l : Memory, (∀ c, b ≤ c → l.byte c = m.byte c) → (l.readWord b).1 = (m.readWord b).1 := by
  refine ⟨fun c high low => ?_, rfl, ?_, fun _ => m.wordAt_writeWord_eq b a w, ⟨?_, ?_, ?_⟩,
    fun c below => ?_, fun l same => m.wordAt_congr b same⟩
  · rw [byte_writeWord, writtenByte_of_ne a w high low, Option.getD_none]
  · rintro rfl
    exact (m.wordAt_writeWord_eq b b w).trans (overwritten_self b w _)
  · exact m.wordAt_eq 0xFFD9
  · exact m.byte_writeWord 0xFFD9 w 0xFFD9
  · exact m.byte_writeWord 0xFFD9 w Console.keyState
  · rw [byte_writeWord, writtenByte_of_lt a w below, Option.getD_none]

/-- The word below the byte-wide addresses seen from the addresses around it, and a word at the top,
which leaves address zero alone. -/
theorem word_access_exact_at_border :
    ((empty.writeWord 0xFFD9 0x1234).readWord 0xFFD8).1 = 0x0012 ∧
      ((empty.writeWord 0xFFD9 0x1234).readWord 0xFFD9).1 = 0x1234 ∧
      ((empty.writeWord 0xFFD9 0x1234).readWord 0xFFDA).1 = 0x0034 ∧
      ((empty.writeWord 0xFFFF 0x1234).readWord 0xFFFF).1 = 0x0034 ∧
      (empty.writeWord 0xFFFF 0x1234).byte 0 = empty.byte 0 := by
  have zero (b : Address) : (empty.readWord b).1 = 0 := by
    have byte (c : Address) : empty.byte c = 0 := AddressMap.get_fill 0 c
    refine (empty.wordAt_eq b).trans ?_
    rw [byte, byte]
    split <;> rfl
  obtain ⟨_, _, _, below, _⟩ := word_access_exact empty 0xFFD9 0xFFD8 0x1234
  obtain ⟨_, _, same, _⟩ := word_access_exact empty 0xFFD9 0xFFD9 0x1234
  obtain ⟨_, _, _, above, _⟩ := word_access_exact empty 0xFFD9 0xFFDA 0x1234
  obtain ⟨_, _, top, _, _, under, _⟩ := word_access_exact empty 0xFFFF 0xFFFF 0x1234
  refine ⟨(below (by decide)).trans ?_, (same rfl).trans (by decide),
    (above (by decide)).trans ?_, (top rfl).trans (by decide), under 0 (by decide)⟩
  · rw [zero]
    decide
  · rw [zero]
    decide

end Memory

end TeachingCpu
