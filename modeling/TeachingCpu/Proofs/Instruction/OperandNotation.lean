import Mathlib.Data.List.Basic
import TeachingCpu.Operand

/-!
What can be read back from the notation of an operand. What follows the opening parentheses and
minus signs is the name of a register, unless a word of the operand follows the instruction. Apart
from its digits, the text of an operand consists of the marks of its mode. With the mode known, the
register and the word stand between marks that are known too, so the text determines both.
-/

namespace TeachingCpu

namespace Numeral

theorem isDigit_of_mem_decimal {n : Nat} {c : Char} (h : c ∈ (decimal n).toList) :
    c.isDigit = true := by
  rw [decimal, Nat.toList_repr] at h
  exact Nat.isDigit_of_mem_toDigits (by decide) (by decide) h

theorem notMem_decimal {c : Char} (other : c.isDigit = false) (n : Nat) :
    c ∉ (decimal n).toList := by
  intro member
  rw [isDigit_of_mem_decimal member] at other
  contradiction

theorem decimal_eq_cons (n : Nat) :
    ∃ d ds, (decimal n).toList = d :: ds ∧ d.isDigit = true := by
  have nonempty : (decimal n).toList ≠ [] := by
    rw [decimal, Nat.toList_repr]
    exact Nat.toDigits_ne_nil
  obtain ⟨d, ds, same⟩ := List.exists_cons_of_ne_nil nonempty
  exact ⟨d, ds, same, isDigit_of_mem_decimal (by rw [same]; exact List.mem_cons_self)⟩

theorem decimal_injective : Function.Injective decimal := by
  intro m n same
  have digits : Nat.toDigits 10 m = Nat.toDigits 10 n := by
    rw [← Nat.toList_repr, ← Nat.toList_repr]
    exact congrArg String.toList same
  have numbers := congrArg (Nat.ofDigitChars 10 · 0) digits
  simpa using numbers

theorem minus_append_ne_decimal (s : String) (n : Nat) : "-" ++ s ≠ decimal n := by
  intro same
  have minus : '-' ∈ (decimal n).toList := by
    rw [← same, String.toList_append]
    exact List.mem_cons_self
  exact notMem_decimal (by decide) n minus

theorem integer_injective : Function.Injective integer := by
  intro i j same
  unfold integer at same
  split at same <;> split at same
  · have absolute := decimal_injective ((String.append_right_inj "-").mp same)
    omega
  · exact absurd same (minus_append_ne_decimal _ _)
  · exact absurd same.symm (minus_append_ne_decimal _ _)
  · have absolute := decimal_injective same
    omega

theorem comma_notMem_integer (i : Int) : ',' ∉ (integer i).toList := by
  have digits := notMem_decimal (c := ',') (by decide)
  unfold integer
  split <;> simp [digits]

/-- What is left of a text without its digits. -/
def marks (s : String) : List Char := s.toList.filter fun c => !c.isDigit

theorem marks_append (s t : String) : marks (s ++ t) = marks s ++ marks t := by
  rw [marks, String.toList_append, List.filter_append, marks, marks]

theorem marks_decimal (n : Nat) : marks (decimal n) = [] :=
  List.filter_eq_nil_iff.mpr fun c member => by simp [isDigit_of_mem_decimal member]

theorem marks_integer (i : Int) : marks (integer i) = if i < 0 then ['-'] else [] := by
  unfold integer
  split
  · rw [marks_append, marks_decimal]
    rfl
  · exact marks_decimal _

end Numeral

namespace Operand

open Numeral

section Register

variable {r r' : Register} {s s' : String}

theorem registerText_injective : Function.Injective registerText := by
  intro r s same
  rw [registerText, registerText, String.append_right_inj] at same
  exact Fin.ext (decimal_injective same)

theorem length_registerText (r : Register) : (registerText r).toList.length = 2 := by
  decide +revert

theorem marks_registerText (r : Register) : marks (registerText r) = ['R'] := by
  rw [registerText, marks_append, marks_decimal]
  rfl

theorem registerText_append_inj (h : registerText r ++ s = registerText r' ++ s') :
    r = r' ∧ s = s' := by
  rw [← String.toList_inj, String.toList_append, String.toList_append] at h
  obtain ⟨name, rest⟩ := List.append_inj h
    ((length_registerText r).trans (length_registerText r').symm)
  exact ⟨registerText_injective (String.toList_inj.mp name), String.toList_inj.mp rest⟩

theorem append_registerText_inj (h : s ++ registerText r = s' ++ registerText r') :
    s = s' ∧ r = r' := by
  rw [← String.toList_inj, String.toList_append, String.toList_append] at h
  obtain ⟨rest, name⟩ := List.append_inj' h
    ((length_registerText r).trans (length_registerText r').symm)
  exact ⟨String.toList_inj.mp rest, registerText_injective (String.toList_inj.mp name)⟩

end Register

def opens (c : Char) : Bool := c == '(' || c == '-'

def namesRegister (cs : List Char) : Bool := (cs.dropWhile opens).head? == some 'R'

theorem namesRegister_cons_of_opens {c : Char} (h : opens c = true) (cs : List Char) :
    namesRegister (c :: cs) = namesRegister cs := by
  rw [namesRegister, List.dropWhile_cons_of_pos h, namesRegister]

theorem namesRegister_registerText (r : Register) (cs : List Char) :
    namesRegister ((registerText r).toList ++ cs) = true := by
  rw [registerText, String.toList_append]
  rfl

theorem namesRegister_digit {d : Char} (digit : d.isDigit = true) (cs : List Char) :
    namesRegister (d :: cs) = false := by
  have plain : opens d = false := by
    simp only [opens, Bool.or_eq_false_iff, beq_eq_false_iff_ne]
    constructor <;> rintro rfl <;> contradiction
  have other : d ≠ 'R' := by
    rintro rfl
    contradiction
  rw [namesRegister, List.dropWhile_cons_of_neg (by simp [plain])]
  simpa using other

theorem namesRegister_decimal (n : Nat) (cs : List Char) :
    namesRegister ((decimal n).toList ++ cs) = false := by
  obtain ⟨d, ds, same, digit⟩ := decimal_eq_cons n
  rw [same]
  exact namesRegister_digit digit _

theorem namesRegister_integer (i : Int) (cs : List Char) :
    namesRegister ((integer i).toList ++ cs) = false := by
  unfold integer
  split
  · rw [String.toList_append, List.append_assoc]
    exact (namesRegister_cons_of_opens rfl _).trans (namesRegister_decimal _ _)
  · exact namesRegister_decimal _ _

theorem namesRegister_text (o : Operand) (w : Word) :
    namesRegister (o.text w).toList = !o.hasExtension := by
  obtain ⟨mode, r⟩ := o
  have opened : ∀ cs, namesRegister ('(' :: cs) = namesRegister cs :=
    namesRegister_cons_of_opens rfl
  have negated : ∀ cs, namesRegister ('-' :: cs) = namesRegister cs :=
    namesRegister_cons_of_opens rfl
  have named := namesRegister_registerText r
  have bare : namesRegister (registerText r).toList = true := by simpa using named []
  have number : namesRegister (decimal w.toNat).toList = false := by
    simpa using namesRegister_decimal w.toNat []
  have sharp : ∀ cs, namesRegister ('#' :: cs) = false := fun _ => rfl
  cases mode <;> simp only [text, hasExtension]
  case postIncrement | postIncrementIndirect =>
    by_cases counter : r = Register.pc <;>
      simp [counter, opened, named, number, sharp]
  all_goals
    simp [opened, negated, named, bare, namesRegister_integer]

/-- The mode with these marks. A word behind the instruction stands in place of a register, or in
front of it with a minus sign of its own. -/
def modeOfMarks (extended : Bool) (marks : List Char) : Mode :=
  match extended, marks with
  | false, ['R'] => .register
  | false, ['(', 'R', ')', '+'] => .postIncrement
  | false, ['-', '(', 'R', ')'] => .preDecrement
  | false, ['(', 'R', ')'] => .registerIndirect
  | false, ['(', '(', 'R', ')', '+', ')'] => .postIncrementIndirect
  | false, _ => .preDecrementIndirect
  | true, ['#'] => .postIncrement
  | true, [] => .postIncrementIndirect
  | true, ['(', 'R', ')'] => .indexed
  | true, ['-', '(', 'R', ')'] => .indexed
  | true, _ => .indexedIndirect

theorem modeOfMarks_text (o : Operand) (w : Word) :
    modeOfMarks o.hasExtension (marks (o.text w)) = o.mode := by
  obtain ⟨mode, r⟩ := o
  cases mode <;> simp only [text, hasExtension]
  case postIncrement | postIncrementIndirect =>
    by_cases counter : r = Register.pc
    · simp only [counter, if_true, beq_self_eq_true, marks_append, marks_decimal]
      rfl
    · simp only [counter, if_false, beq_eq_false_iff_ne.mpr counter, marks_append,
        marks_registerText]
      rfl
  case indexed | indexedIndirect =>
    simp only [marks_append, marks_integer, marks_registerText]
    split <;> rfl
  all_goals
    simp only [marks_append, marks_registerText]
    rfl

section Text

variable {o p : Operand} {v w : Word}

theorem hasExtension_eq_of_text_eq (h : o.text v = p.text w) :
    o.hasExtension = p.hasExtension := by
  apply Bool.not_inj
  rw [← namesRegister_text o v, h, namesRegister_text]

theorem mode_eq_of_text_eq (h : o.text v = p.text w) : o.mode = p.mode := by
  rw [← modeOfMarks_text o v, hasExtension_eq_of_text_eq h, h, modeOfMarks_text]

theorem eq_of_text_eq (h : o.text v = p.text w) : o = p ∧ (o.hasExtension = true → v = w) := by
  have extended := hasExtension_eq_of_text_eq h
  have modes := mode_eq_of_text_eq h
  obtain ⟨mode, r⟩ := o
  obtain ⟨mode', s⟩ := p
  obtain rfl : mode = mode' := modes
  cases mode <;> simp only [text, hasExtension, String.append_left_inj, String.append_right_inj]
    at h extended
  case postIncrement | postIncrementIndirect =>
    by_cases counter : r = Register.pc
    · obtain rfl : s = Register.pc := by simpa [counter] using extended
      subst counter
      simp only [if_true, String.append_right_inj] at h
      exact ⟨rfl, fun _ => UInt16.toNat_inj.mp (decimal_injective h)⟩
    · have other : s ≠ Register.pc := by simpa [counter] using extended
      simp only [counter, other, if_false, String.append_left_inj, String.append_right_inj] at h
      obtain rfl := registerText_injective h
      simp [hasExtension, counter]
  case indexed | indexedIndirect =>
    obtain ⟨number, rfl⟩ := append_registerText_inj h
    simp only [String.append_left_inj, String.append_right_inj] at number
    exact ⟨rfl, fun _ => signed_inj.mp (integer_injective number)⟩
  all_goals
    obtain rfl := registerText_injective h
    simp [hasExtension]

end Text

theorem comma_notMem_text (o : Operand) (w : Word) : ',' ∉ (o.text w).toList := by
  obtain ⟨mode, r⟩ := o
  have number := notMem_decimal (c := ',') (by decide)
  have signedNumber := comma_notMem_integer
  have named : ',' ∉ (registerText r).toList := by simp [registerText, number]
  cases mode <;> simp only [text]
  case postIncrement | postIncrementIndirect =>
    split <;> simp [named, number]
  all_goals
    simp [named, signedNumber]

/-- Two operands with a comma between them can be told apart, since there is none inside them. -/
theorem pair_text_inj {o p o' p' : Operand} {v w v' w' : Word}
    (h : o.text v ++ (", " ++ p.text w) = o'.text v' ++ (", " ++ p'.text w')) :
    o.text v = o'.text v' ∧ p.text w = p'.text w' := by
  have comma : ", ".toList = [',', ' '] := rfl
  simp only [← String.toList_inj, String.toList_append, comma, List.cons_append,
    List.nil_append] at h
  obtain ⟨first, -, second⟩ := (List.append_cons_inj_of_notMem (o.comma_notMem_text v)
    (by simp [comma_notMem_text])).mp h
  exact ⟨String.toList_inj.mp first, String.toList_inj.mp (List.cons.inj second).2⟩

end Operand

end TeachingCpu
