import TeachingCpu.Mnemonics.Refresh
import TeachingCpu.Proofs.Instruction.Locality
import TeachingCpu.Proofs.Instruction.Notation
import TeachingCpu.Proofs.Memory.WordAccess

/-!
What the byte-wide addresses change about disassembly. Two buses over the same bytes decode the same
instruction at every address, whichever of its addresses are byte-wide, so only the words that it
shows can differ. A pass goes by the sizes and not by the texts: over both buses it stores its
instructions at the same rows, and tables that had one structure before it have one structure
behind it.
-/

namespace TeachingCpu

namespace Bus

def operandWords (bus : Bus) (a : Address) : List Address :=
  ((bus.instructionAt a).layout.filter (·.1.hasExtension)).map fun entry =>
    a + UInt16.ofNat entry.2

theorem text_eq_lead_append (bus : Bus) (a : Address) :
    (bus.disassemble a).text = (bus.instructionAt a).lead ++
      ", ".intercalate ((bus.instructionAt a).layout.map fun entry =>
        entry.1.text (bus.wordAt (a + UInt16.ofNat entry.2))) := by
  rw [text_disassemble, Instruction.text_eq_lead_append]

section SameBytes

variable {b c : Bus}

theorem instructionAt_eq_of_bytes (same : b.bytes = c.bytes) (a : Address) :
    b.instructionAt a = c.instructionAt a := by
  rw [instructionAt, instructionAt, byte, byte, byte, byte, same]

theorem size_eq_of_bytes (same : b.bytes = c.bytes) (a : Address) :
    (b.disassemble a).size = (c.disassemble a).size := by
  rw [size_disassemble, size_disassemble, instructionAt_eq_of_bytes same]

theorem text_eq_iff_of_bytes (same : b.bytes = c.bytes) (a : Address) :
    (b.disassemble a).text = (c.disassemble a).text ↔
      ∀ d ∈ c.operandWords a, b.wordAt d = c.wordAt d := by
  have words : (∀ d ∈ c.operandWords a, b.wordAt d = c.wordAt d) ↔
      ∀ entry ∈ (c.instructionAt a).layout, entry.1.hasExtension = true →
        b.wordAt (a + UInt16.ofNat entry.2) = c.wordAt (a + UInt16.ofNat entry.2) := by
    simp only [operandWords, List.forall_mem_map, List.mem_filter, and_imp]
  rw [words, text_disassemble, text_disassemble, instructionAt_eq_of_bytes same]
  constructor
  · exact fun texts => (Instruction.eq_of_text_eq texts).2
  · intro shown
    rw [Instruction.text_eq_lead_append, Instruction.text_eq_lead_append]
    have operands := List.map_congr_left fun entry member =>
      Operand.text_congr entry.1 (shown entry member)
    rw [operands]

end SameBytes

end Bus

namespace Memory

variable (m : Memory) (a : Address)

theorem word_zero_eq_iff (x y : Byte) : word 0 x = word x y ↔ x = 0 ∧ y = 0 := by
  have hx := x.toNat_lt
  have hy := y.toNat_lt
  simp only [← UInt16.toNat_inj, ← UInt8.toNat_inj, word_toNat, UInt8.reduceToNat]
  omega

theorem wordAt_plain : (Bus.plain m.bytes).wordAt a = word (m.byte a) (m.byte (a + 1)) := rfl

theorem wordAt_eq_plain_iff : m.wordAt a = (Bus.plain m.bytes).wordAt a ↔
    a < 0xFFDA ∨ m.byte a = 0 ∧ m.byte (a + 1) = 0 := by
  rw [wordAt_eq, wordAt_plain, ← UInt16.not_le]
  by_cases wide : 0xFFDA ≤ a
  · rw [if_pos wide, word_zero_eq_iff]
    simp [wide]
  · simp [wide]

end Memory

def Row.outer? : Row → Option Address
  | .start _ => none
  | .inside first => some first

namespace Table

theorem instructionStart_eq_getD (t : Table) (a : Address) :
    t.instructionStart a = (t.row a).outer?.getD a := by
  unfold instructionStart
  cases t.row a <;> rfl

/-- Every row begins an instruction in both tables, or lies inside the same one. -/
def SameStructure (t u : Table) : Prop :=
  ∀ a, (t.row a).outer? = (u.row a).outer?

namespace SameStructure

variable {t u : Table}

theorem instructionStart_eq (same : t.SameStructure u) (a : Address) :
    t.instructionStart a = u.instructionStart a := by
  rw [instructionStart_eq_getD, instructionStart_eq_getD, same a]

theorem put (same : t.SameStructure u) (a : Address) {line other : Line}
    (size : line.size = other.size) : (t.put a line).SameStructure (u.put a other) := by
  intro d
  rw [row_put, row_put, size]
  split
  · rfl
  split
  · rfl
  · exact same d

variable {b c : Bus}

/-- A full pass looks at no text, so passes over buses with the same sizes go side by side. -/
theorem refreshFrom (same : t.SameStructure u)
    (sizes : ∀ a, (b.disassemble a).size = (c.disassemble a).size) (last : Address) (n : Nat) :
    (t.refreshFrom b true last n).2.SameStructure (u.refreshFrom c true last n).2 := by
  fun_induction Table.refreshFrom t b true last n generalizing u
  case case1 t last n _ a line stop => simp at stop
  case case2 t last n h a line _ ih =>
    have stored : (t.put a line).SameStructure (u.put a (c.disassemble a)) := put same a (sizes a)
    have size : line.size = (c.disassemble a).size := sizes a
    rw [refreshFrom_next u c true last h (.inl rfl), ← size]
    exact ih stored
  case case3 t last n h =>
    rw [refreshFrom_top u c true last (by omega)]
    exact same

theorem refresh (same : t.SameStructure u)
    (sizes : ∀ a, (b.disassemble a).size = (c.disassemble a).size) (start : Address) :
    (t.refresh b start true).2.SameStructure (u.refresh c start true).2 := by
  have pass := same.refreshFrom sizes (t.instructionStart start) (t.instructionStart start).toNat
  intro d
  rw [row_refresh, row_refresh, ← same.instructionStart_eq]
  exact pass d

end SameStructure

end Table

namespace Memory

/-- The rule about byte-wide addresses concerns texts only. Over a memory and over the plain bus
with its contents an instruction has one size and is written alike, except that a word from 0xFFDA
up is the one byte there. So the texts differ where such a word does not consist of zeros, and a
full pass gives both tables the same structure. -/
theorem byteWide_rule_exact (m : Memory) (a : Address) :
    let plain := Bus.plain m.bytes
    let i := plain.instructionAt a
    let pair := fun d => word (m.byte d) (m.byte (d + 1))
    let shown := fun d => if 0xFFDA ≤ d then word 0 (m.byte d) else pair d
    (m.bus.disassemble a).size = (plain.disassemble a).size ∧
      (plain.disassemble a).text =
        i.lead ++ ", ".intercalate (i.layout.map fun entry =>
          entry.1.text (pair (a + UInt16.ofNat entry.2))) ∧
      (m.bus.disassemble a).text =
        i.lead ++ ", ".intercalate (i.layout.map fun entry =>
          entry.1.text (shown (a + UInt16.ofNat entry.2))) ∧
      ((m.bus.disassemble a).text = (plain.disassemble a).text ↔
        ∀ d ∈ plain.operandWords a, d < 0xFFDA ∨ m.byte d = 0 ∧ m.byte (d + 1) = 0) ∧
      ∀ (t u : Table) (start : Address), t.SameStructure u →
        (t.refresh m.bus start true).2.SameStructure (u.refresh plain start true).2 := by
  intro plain i pair shown
  have bytes : m.bus.bytes = plain.bytes := rfl
  have sizes := Bus.size_eq_of_bytes bytes
  refine ⟨sizes a, plain.text_eq_lead_append a, ?_, ?_, fun t u start same =>
    same.refresh sizes start⟩
  · have words : ∀ d, m.bus.wordAt d = shown d := fun d => m.wordAt_eq d
    rw [Bus.text_eq_lead_append, Bus.instructionAt_eq_of_bytes bytes]
    simp only [words]
    rfl
  · rw [Bus.text_eq_iff_of_bytes bytes]
    exact forall₂_congr fun d _ => m.wordAt_eq_plain_iff d

/-- A move whose words begin in front of the byte-wide addresses and among them. -/
def borderMove : Memory :=
  (empty.loadRange #[0x93, 0xD9, 0x12, 0x34, 0, 5] 0 5 0xFFD7).2

theorem byte_borderMove : [0xFFD7, 0xFFD8, 0xFFD9, 0xFFDA, 0xFFDB, 0xFFDC].map borderMove.byte =
    [0x93, 0xD9, 0x12, 0x34, 0, 5] := by
  simp only [borderMove, List.map, byte_loadRange]
  rfl

theorem instructionAt_borderMove : (Bus.plain borderMove.bytes).instructionAt 0xFFD7 =
    .binary .mov ⟨.postIncrement, Register.pc⟩ ⟨.indexed, 1⟩ := by
  have bytes := byte_borderMove
  simp only [List.map, List.cons.injEq] at bytes
  obtain ⟨first, second, _⟩ := bytes
  exact congrArg₂ Instruction.decode first second

/-- The first word reaches among the byte-wide addresses and is shown as it is; of the second word,
which begins there, only the first byte is shown. -/
theorem byteWide_rule_exact_of_borderMove :
    ((Bus.plain borderMove.bytes).disassemble 0xFFD7).text = "MOV #4660, 5(R1)" ∧
      (borderMove.bus.disassemble 0xFFD7).text = "MOV #4660, 0(R1)" ∧
      (Table.ofBus borderMove.bus).SameStructure
        (Table.ofBus (Bus.plain borderMove.bytes)) := by
  obtain ⟨_, plain, shown, _, passes⟩ := byteWide_rule_exact borderMove 0xFFD7
  have bytes := byte_borderMove
  simp only [List.map, List.cons.injEq] at bytes
  obtain ⟨_, _, third, fourth, fifth, sixth, _⟩ := bytes
  rw [instructionAt_borderMove] at plain shown
  rw [Table.ofBus, Table.ofBus]
  refine ⟨plain.trans ?_, shown.trans ?_, passes Table.blank Table.blank 0 fun _ => rfl⟩
  · show "MOV " ++ ", ".intercalate
      [Operand.text ⟨.postIncrement, Register.pc⟩
        (word (borderMove.byte 0xFFD9) (borderMove.byte 0xFFDA)),
      Operand.text ⟨.indexed, 1⟩ (word (borderMove.byte 0xFFDB) (borderMove.byte 0xFFDC))] = _
    rw [third, fourth, fifth, sixth]
    decide
  · show "MOV " ++ ", ".intercalate
      [Operand.text ⟨.postIncrement, Register.pc⟩
        (word (borderMove.byte 0xFFD9) (borderMove.byte 0xFFDA)),
      Operand.text ⟨.indexed, 1⟩ (word 0 (borderMove.byte 0xFFDB))] = _
    rw [third, fourth, fifth]
    decide

end Memory

end TeachingCpu
