import TeachingCpu.Proofs.Instruction.Locality
import TeachingCpu.Proofs.Instruction.Notation

/-!
The disassembly is faithful. Two addresses, of one memory or of two, have one text exactly if their
bytes decode alike: in every field that the kind of instruction has, and in the words that follow.
The bits that no field uses do not show.
-/

namespace TeachingCpu

namespace Opcode

def namesFlags : Opcode → Bool
  | ccc | scc => true
  | _ => false

def namesRegister : Opcode → Bool
  | sob | jsr | rts => true
  | _ => false

def hasOffset : Opcode → Bool
  | branch _ | sob => true
  | _ => false

end Opcode

namespace Instruction

/-- Bytes with the same fields, so far as the kind of instruction has them. -/
structure SameFields (first second first' second' : Byte) : Prop where
  opcode : Opcode.ofByte first = Opcode.ofByte first'
  flags : (Opcode.ofByte first).namesFlags = true → Flags.ofBits first = Flags.ofBits first'
  register : (Opcode.ofByte first).namesRegister = true →
    Register.select first.toNat = Register.select first'.toNat
  offset : (Opcode.ofByte first).hasOffset = true → second = second'
  operands : (decode first second).operands = (decode first' second').operands

theorem decode_eq_iff {first second first' second' : Byte} :
    decode first second = decode first' second' ↔ SameFields first second first' second' := by
  constructor
  · intro same
    have kind : Opcode.ofByte first = Opcode.ofByte first' := by
      rw [← opcode_decode first second, same, opcode_decode]
    have operands := congrArg Instruction.operands same
    rw [decode, decode, ← kind] at same
    constructor
    case opcode => exact kind
    case operands => exact operands
    all_goals
      intro has
      generalize Opcode.ofByte first = o at has same
    case flags =>
      cases o <;> cases has
      case ccc => exact ccc.inj same
      case scc => exact scc.inj same
    case register =>
      cases o <;> cases has
      case sob => exact (sob.inj same).1
      case jsr => exact (jsr.inj same).1
      case rts => exact rts.inj same
    case offset =>
      cases o <;> cases has
      case branch => exact (branch.inj same).2
      case sob => exact (sob.inj same).2
  · rintro ⟨kind, flags, register, offset, operands⟩
    rw [decode, decode, ← kind] at operands ⊢
    generalize Opcode.ofByte first = o at flags register offset operands ⊢
    cases o with
    | nop | rti | hlt => rfl
    | ccc | scc => rw [flags rfl]
    | branch c => rw [offset rfl]
    | sob => rw [register rfl, offset rfl]
    | rts => rw [register rfl]
    | jmp => exact congrArg jmp (List.cons.inj operands).1
    | jsr => rw [register rfl, (List.cons.inj operands).1]
    | unary op => exact congrArg (unary op) (List.cons.inj operands).1
    | binary op =>
      obtain ⟨source, destinations⟩ := List.cons.inj operands
      rw [source, (List.cons.inj destinations).1]

theorem text_eq_of_words (i : Instruction) {f g : Nat → Word}
    (h : ∀ entry ∈ i.layout, entry.1.hasExtension = true → f entry.2 = g entry.2) :
    i.text f = i.text g := by
  rw [text_eq_lead_append, text_eq_lead_append]
  congr 2
  exact List.map_congr_left fun entry member => entry.1.text_congr (h entry member)

end Instruction

namespace Bus

/-- Addresses whose bytes decode alike: the fields of the instruction, and the word of each operand
that has one. -/
structure DecodesAlike (b c : Bus) (a d : Address) : Prop where
  fields : Instruction.SameFields (b.byte a) (b.byte (a + 1)) (c.byte d) (c.byte (d + 1))
  words : ∀ entry ∈ (b.instructionAt a).layout, entry.1.hasExtension = true →
    b.wordAt (a + UInt16.ofNat entry.2) = c.wordAt (d + UInt16.ofNat entry.2)

/-- The text of a disassembled instruction shows all that decoding takes from the bytes, and nothing
else. -/
theorem text_eq_iff_decodesAlike (b c : Bus) (a d : Address) :
    (b.disassemble a).text = (c.disassemble d).text ↔
      (b.disassemble a).size = (c.disassemble d).size ∧ b.DecodesAlike c a d := by
  constructor
  · intro same
    rw [text_disassemble, text_disassemble] at same
    obtain ⟨instruction, words⟩ := Instruction.eq_of_text_eq same
    refine ⟨?_, Instruction.decode_eq_iff.mp instruction, words⟩
    rw [size_disassemble, size_disassemble, instruction]
  · rintro ⟨-, fields, words⟩
    have instruction : b.instructionAt a = c.instructionAt d := Instruction.decode_eq_iff.mpr fields
    rw [text_disassemble, text_disassemble, ← instruction]
    exact Instruction.text_eq_of_words _ words

end Bus

end TeachingCpu
