import TeachingCpu.Instruction
import TeachingCpu.Proofs.Instruction.OperandNotation

/-!
What can be read back from the notation of an instruction. The text before the first space is the
mnemonic of its kind, and what follows is told apart by commas, which stand nowhere inside an
operand. So two instructions with one text are one instruction, with one size, and the words that
they show are the same too.
-/

namespace TeachingCpu

namespace Opcode

def mnemonic : Opcode → String
  | nop => "NOP"
  | ccc => "CCC"
  | scc => "SCC"
  | branch c => c.mnemonic
  | jmp => "JMP"
  | sob => "SOB"
  | jsr => "JSR"
  | rts => "RTS"
  | rti => "RTI"
  | unary op => op.mnemonic
  | binary op => op.mnemonic
  | hlt => "HLT"

def all : List Opcode := (List.range 256).map fun n => ofByte (UInt8.ofNat n)

def ofMnemonic? (s : String) : Option Opcode := all.find? (·.mnemonic == s)

theorem ofMnemonic?_mnemonic (o : Opcode) : ofMnemonic? o.mnemonic = some o := by
  cases o with
  | branch c => cases c <;> decide +kernel
  | unary op => cases op <;> decide +kernel
  | binary op => cases op <;> decide +kernel
  | _ => decide +kernel

theorem mnemonic_injective : Function.Injective mnemonic := by
  intro o p same
  have found := ofMnemonic?_mnemonic o
  rw [same, ofMnemonic?_mnemonic] at found
  exact (Option.some.inj found).symm

theorem all_mnemonic_ne_space (o : Opcode) : o.mnemonic.toList.all (· != ' ') = true := by
  cases o with
  | branch c => cases c <;> decide
  | unary op => cases op <;> decide
  | binary op => cases op <;> decide
  | _ => decide

end Opcode

namespace Instruction

def layoutFrom (n : Nat) : List Operand → List (Operand × Nat)
  | [] => []
  | o :: os => (o, n) :: layoutFrom (n + o.extraBytes) os

def layout (i : Instruction) : List (Operand × Nat) := layoutFrom i.baseSize i.operands

def lead : Instruction → String
  | jmp _ => "JMP "
  | jsr link _ => "JSR " ++ Operand.registerText link ++ ", "
  | unary op _ => op.mnemonic ++ " "
  | binary op _ _ => op.mnemonic ++ " "
  | i => i.text fun _ => 0

theorem text_eq_lead_append (i : Instruction) (wordAt : Nat → Word) :
    i.text wordAt =
      i.lead ++ ", ".intercalate (i.layout.map fun entry => entry.1.text (wordAt entry.2)) := by
  cases i <;>
    simp [text, lead, layout, layoutFrom, operands, baseSize, opcode, Opcode.hasSecondByte,
      String.intercalate_cons_cons, String.append_assoc]

def arguments (i : Instruction) (wordAt : Nat → Word) : String :=
  match i with
  | nop | rti | hlt => ""
  | ccc mask | scc mask => if mask.letters = "" then "" else " " ++ mask.letters
  | branch _ offset => " " ++ Numeral.integer (signedByte offset)
  | jmp target => " " ++ target.text (wordAt 2)
  | sob r offset => " " ++ Operand.registerText r ++ ", " ++ Numeral.decimal offset.toNat
  | jsr link target => " " ++ Operand.registerText link ++ ", " ++ target.text (wordAt 2)
  | rts link => " " ++ Operand.registerText link
  | unary _ operand => " " ++ operand.text (wordAt 2)
  | binary _ source destination =>
    " " ++ source.text (wordAt 2) ++ ", " ++ destination.text (wordAt (2 + source.extraBytes))

theorem maskText_eq (mnemonic : String) (mask : Flags) :
    maskText mnemonic mask =
      mnemonic ++ if mask.letters = "" then "" else " " ++ mask.letters := by
  unfold maskText
  split <;> simp [*, String.append_assoc]

theorem text_eq_mnemonic_append (i : Instruction) (wordAt : Nat → Word) :
    i.text wordAt = i.opcode.mnemonic ++ i.arguments wordAt := by
  cases i <;> simp [text, opcode, Opcode.mnemonic, arguments, maskText_eq]
  all_goals simp [← String.toList_inj]

theorem takeWhile_arguments (i : Instruction) (wordAt : Nat → Word) :
    (i.arguments wordAt).toList.takeWhile (· != ' ') = [] := by
  cases i <;> simp only [arguments]
  case ccc | scc => split <;> simp
  all_goals simp

theorem takeWhile_text (i : Instruction) (wordAt : Nat → Word) :
    (i.text wordAt).toList.takeWhile (· != ' ') = i.opcode.mnemonic.toList := by
  rw [text_eq_mnemonic_append, String.toList_append,
    List.takeWhile_append_of_pos (List.all_eq_true.mp i.opcode.all_mnemonic_ne_space),
    takeWhile_arguments, List.append_nil]

theorem opcode_eq_of_text_eq {i j : Instruction} {f g : Nat → Word} (h : i.text f = j.text g) :
    i.opcode = j.opcode := by
  apply Opcode.mnemonic_injective
  rw [← String.toList_inj, ← takeWhile_text i f, h, takeWhile_text]

theorem arguments_eq_of_text_eq {i j : Instruction} {f g : Nat → Word}
    (h : i.text f = j.text g) : i.arguments f = j.arguments g := by
  have kind := opcode_eq_of_text_eq h
  rw [text_eq_mnemonic_append, text_eq_mnemonic_append, kind] at h
  simpa [← String.toList_inj] using h

theorem eq_of_text_eq {i j : Instruction} {f g : Nat → Word} (h : i.text f = j.text g) :
    i = j ∧ ∀ entry ∈ i.layout, entry.1.hasExtension = true → f entry.2 = g entry.2 := by
  have kind := opcode_eq_of_text_eq h
  have arguments := arguments_eq_of_text_eq h
  have one {o : Operand} (words : o.hasExtension = true → f 2 = g 2) :
      ∀ entry ∈ [(o, 2)], entry.1.hasExtension = true → f entry.2 = g entry.2 :=
    List.forall_mem_singleton.mpr words
  cases i <;> cases j <;> simp only [opcode, reduceCtorEq, Opcode.branch.injEq,
    Opcode.unary.injEq, Opcode.binary.injEq] at kind <;>
    simp only [Instruction.arguments, String.append_assoc, String.append_right_inj] at arguments
  case nop.nop | rti.rti | hlt.hlt => simp [layout, layoutFrom, operands]
  case ccc.ccc mask mask' | scc.scc mask mask' =>
    have letters : mask.letters = mask'.letters := by
      split at arguments <;> split at arguments <;> simp_all
    obtain rfl := Flags.letters_inj.mp letters
    simp [layout, layoutFrom, operands]
  case branch.branch =>
    obtain rfl := kind
    obtain rfl := signedByte_inj.mp (Numeral.integer_injective arguments)
    simp [layout, layoutFrom, operands]
  case sob.sob =>
    obtain ⟨rfl, rest⟩ := Operand.registerText_append_inj arguments
    have offset := Numeral.decimal_injective ((String.append_right_inj _).mp rest)
    obtain rfl := UInt8.toNat_inj.mp offset
    simp [layout, layoutFrom, operands]
  case rts.rts =>
    obtain rfl := Operand.registerText_injective arguments
    simp [layout, layoutFrom, operands]
  case jmp.jmp =>
    obtain ⟨rfl, words⟩ := Operand.eq_of_text_eq arguments
    exact ⟨rfl, one words⟩
  case unary.unary =>
    obtain rfl := kind
    obtain ⟨rfl, words⟩ := Operand.eq_of_text_eq arguments
    exact ⟨rfl, one words⟩
  case jsr.jsr =>
    obtain ⟨rfl, rest⟩ := Operand.registerText_append_inj arguments
    obtain ⟨rfl, words⟩ := Operand.eq_of_text_eq ((String.append_right_inj _).mp rest)
    exact ⟨rfl, one words⟩
  case binary.binary =>
    obtain rfl := kind
    obtain ⟨first, second⟩ := Operand.pair_text_inj arguments
    obtain ⟨rfl, words⟩ := Operand.eq_of_text_eq first
    obtain ⟨rfl, words'⟩ := Operand.eq_of_text_eq second
    exact ⟨rfl, List.forall_mem_cons.mpr ⟨words, List.forall_mem_singleton.mpr words'⟩⟩

theorem size_eq_of_text_eq {i j : Instruction} {f g : Nat → Word} (h : i.text f = j.text g) :
    i.size = j.size := by
  rw [(eq_of_text_eq h).1]

theorem text_ne_empty (i : Instruction) (wordAt : Nat → Word) : i.text wordAt ≠ "" := by
  intro empty
  have named := takeWhile_text i wordAt
  rw [empty] at named
  have unnamed : Opcode.ofMnemonic? "" = none := by decide +kernel
  have found := Opcode.ofMnemonic?_mnemonic i.opcode
  rw [← String.toList_inj.mp (show "".toList = _ from named), unnamed] at found
  contradiction

end Instruction

namespace Bus

theorem size_disassemble (b : Bus) (a : Address) :
    (b.disassemble a).size = (b.instructionAt a).size := rfl

theorem text_disassemble (b : Bus) (a : Address) :
    (b.disassemble a).text =
      (b.instructionAt a).text fun distance => b.wordAt (a + UInt16.ofNat distance) := rfl

theorem text_disassemble_ne_empty (b : Bus) (a : Address) : (b.disassemble a).text ≠ "" := by
  rw [text_disassemble]
  exact Instruction.text_ne_empty _ _

theorem disassemble_eq_of_text_eq {b c : Bus} {a d : Address}
    (h : (b.disassemble a).text = (c.disassemble d).text) :
    b.disassemble a = c.disassemble d := by
  have sizes : (b.disassemble a).size = (c.disassemble d).size := by
    rw [text_disassemble, text_disassemble] at h
    rw [size_disassemble, size_disassemble, Instruction.size_eq_of_text_eq h]
  generalize b.disassemble a = line at h sizes
  generalize c.disassemble d = other at h sizes
  obtain ⟨size, text⟩ := line
  obtain ⟨size', text'⟩ := other
  rw [Line.mk.injEq]
  exact ⟨sizes, h⟩

end Bus

end TeachingCpu
