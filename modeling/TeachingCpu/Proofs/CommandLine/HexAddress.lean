import Mathlib.Data.List.Forall2
import Mathlib.Tactic.IntervalCases
import TeachingCpu.CommandLine
import TeachingCpu.Proofs.CommandLine.Numbers

/-!
The texts that the command line takes for an address. Two kinds of marks stand in front of the
digits, `0x` before `0X`, and each as often as one likes. Dropping them greedily loses nothing,
since neither a sign nor a digit is the letter of a mark. The length of a text does not count, only
the value of its digits.
-/

namespace TeachingCpu

namespace Numeral

/-- The character is the digit of the value, in lower case or in upper case. -/
def IsHexDigit (c : Char) (d : Nat) : Prop :=
  "0123456789abcdef".toList[d]? = some c ∨ "0123456789ABCDEF".toList[d]? = some c

instance (c : Char) (d : Nat) : Decidable (IsHexDigit c d) :=
  inferInstanceAs (Decidable (_ ∨ _))

/-- One or more digits, the most significant first, and their value. -/
def Hexadecimal (cs : List Char) (n : Nat) : Prop :=
  cs ≠ [] ∧ ∃ values : List Nat, List.Forall₂ IsHexDigit cs values ∧
    n = Nat.ofDigits 16 values.reverse

def leadingMarks (letter : Char) (copies : Nat) : List Char :=
  (List.replicate copies ['0', letter]).flatten

/-- Any number of `0x`, then any number of `0X`, a plus sign or none, and digits. -/
def AddressForm (cs : List Char) (n : Nat) : Prop :=
  ∃ (lower upper : Nat) (sign digits : List Char),
    cs = leadingMarks 'x' lower ++ (leadingMarks 'X' upper ++ (sign ++ digits)) ∧
    (sign = [] ∨ sign = ['+']) ∧ Hexadecimal digits n

section Digits

theorem toNat_of_digitValue {c : Char} {d : Nat} (value : digitValue c = some d) :
    (d < 10 ∧ c.toNat = d + 48) ∨ (10 ≤ d ∧ (c.toNat = d + 87 ∨ c.toNat = d + 55)) := by
  have digit : ('0'.toNat, '9'.toNat) = (48, 57) := rfl
  have lower : ('a'.toNat, 'z'.toNat) = (97, 122) := rfl
  have upper : ('A'.toNat, 'Z'.toNat) = (65, 90) := rfl
  have ordered (a b : Char) : a ≤ b ↔ a.toNat ≤ b.toNat := Iff.rfl
  rw [Prod.mk.injEq] at digit lower upper
  simp only [digitValue, ordered, digit, lower, upper] at value
  split_ifs at value <;> rw [Option.some.injEq] at value <;> omega

theorem digitOf_eq_some_iff {c : Char} {d : Nat} : digitOf 16 c = some d ↔ IsHexDigit c d := by
  constructor
  · intro digit
    obtain ⟨value, bound⟩ := Option.filter_eq_some_iff.mp digit
    have small : d < 16 := of_decide_eq_true bound
    have decimal : ∀ d < 10, IsHexDigit (Char.ofNat (d + 48)) d := by decide
    have lower : ∀ d < 16, 10 ≤ d → IsHexDigit (Char.ofNat (d + 87)) d := by decide
    have upper : ∀ d < 16, 10 ≤ d → IsHexDigit (Char.ofNat (d + 55)) d := by decide
    rw [← Char.ofNat_toNat c]
    obtain ⟨below, code⟩ | ⟨above, code | code⟩ := toNat_of_digitValue value <;> rw [code]
    · exact decimal d below
    · exact lower d small above
    · exact upper d small above
  · rintro (listed | listed) <;>
    · have small : d < 16 := (List.getElem?_eq_some_iff.mp listed).1
      interval_cases d <;> obtain rfl := Option.some.inj listed <;> rfl

theorem hexadecimal_iff {cs : List Char} {n : Nat} : Hexadecimal cs n ↔ Denotes 16 cs n := by
  have same (values : List Nat) :
      cs.map (digitOf 16) = values.map some ↔ List.Forall₂ IsHexDigit cs values := by
    rw [← List.forall₂_eq_eq_eq, List.forall₂_map_left_iff, List.forall₂_map_right_iff]
    simp only [digitOf_eq_some_iff]
  constructor
  · rintro ⟨nonempty, values, digits, value⟩
    refine ⟨values, ?_, (same values).mpr digits, value⟩
    rintro rfl
    exact nonempty (List.forall₂_nil_right_iff.mp digits)
  · rintro ⟨values, nonempty, digits, value⟩
    refine ⟨?_, values, (same values).mp digits, value⟩
    rintro rfl
    exact nonempty (List.map_eq_nil_iff.mp digits.symm)

theorem not_mem_of_hexadecimal {c : Char} {cs : List Char} {n : Nat} (digits : Hexadecimal cs n)
    (other : digitOf 16 c = none) : c ∉ cs := by
  intro mem
  obtain ⟨values, -, read, -⟩ := hexadecimal_iff.mp digits
  have known : digitOf 16 c ∈ values.map some := read ▸ List.mem_map_of_mem mem
  rw [other] at known
  simp at known

theorem forall₂_hexDigits (width n : Nat) :
    ∃ values : List Nat, List.Forall₂ IsHexDigit (hexDigits width n) values ∧
      n % 16 ^ width = Nat.ofDigits 16 values.reverse := by
  induction width generalizing n with
  | zero => exact ⟨[], .nil, Nat.mod_one n⟩
  | succ width ih =>
    obtain ⟨values, digits, value⟩ := ih (n / 16)
    have written : ∀ d < 16, IsHexDigit (Nat.digitChar d) d := by decide
    have last := written (n % 16) (Nat.mod_lt n (by decide))
    refine ⟨values ++ [n % 16], List.rel_append digits (.cons last .nil), ?_⟩
    rw [List.reverse_append, List.reverse_singleton, List.singleton_append, Nat.ofDigits_cons,
      ← value, Nat.pow_succ', Nat.mod_mul]

theorem hexadecimal_hexWord (w : Word) : Hexadecimal (hexWord w).toList w.toNat := by
  obtain ⟨values, digits, value⟩ := forall₂_hexDigits 4 w.toNat
  rw [Nat.mod_eq_of_lt (show w.toNat < 16 ^ 4 from w.toNat_lt)] at value
  rw [hexWord, String.toList_ofList]
  refine ⟨?_, values, digits, value⟩
  exact List.ne_nil_of_length_pos (by rw [length_hexDigits]; decide)

end Digits

section Marks

theorem leadingMarks_succ (letter : Char) (copies : Nat) :
    leadingMarks letter (copies + 1) = '0' :: letter :: leadingMarks letter copies := rfl

theorem not_mem_leadingMarks {c letter : Char} (zero : c ≠ '0') (other : c ≠ letter)
    (copies : Nat) : c ∉ leadingMarks letter copies := by
  induction copies with
  | zero => exact List.not_mem_nil
  | succ copies ih => simp [leadingMarks_succ, zero, other, ih]

theorem exists_leadingMarks (letter : Char) (cs : List Char) :
    ∃ copies, cs = leadingMarks letter copies ++ dropMarks letter cs := by
  fun_induction dropMarks letter cs with
  | case1 => exact ⟨0, rfl⟩
  | case2 => exact ⟨0, rfl⟩
  | case3 c d cs mark ih =>
    obtain ⟨rfl, rfl⟩ := mark
    obtain ⟨copies, split⟩ := ih
    refine ⟨copies + 1, ?_⟩
    rw [leadingMarks_succ, List.cons_append, List.cons_append, ← split]
  | case4 => exact ⟨0, rfl⟩

theorem dropMarks_of_not_mem {letter : Char} {cs : List Char} (absent : letter ∉ cs) :
    dropMarks letter cs = cs := by
  unfold dropMarks
  split
  · rfl
  · rfl
  · rename_i c d cs
    have different : d ≠ letter := by
      rintro rfl
      simp at absent
    rw [if_neg fun mark => different mark.2]

theorem dropMarks_leadingMarks {letter : Char} {rest : List Char} (absent : letter ∉ rest)
    (copies : Nat) : dropMarks letter (leadingMarks letter copies ++ rest) = rest := by
  induction copies with
  | zero => exact dropMarks_of_not_mem absent
  | succ copies ih =>
    rw [leadingMarks_succ, List.cons_append, List.cons_append, dropMarks, if_pos ⟨rfl, rfl⟩, ih]

end Marks

/-- The signs and the digits of an address hold no letter of a mark, so nothing but the marks is
dropped. -/
theorem dropMarks_addressForm {lower upper n : Nat} {sign digits : List Char}
    (signed : sign = [] ∨ sign = ['+']) (hexadecimal : Hexadecimal digits n) :
    dropMarks 'X' (dropMarks 'x'
      (leadingMarks 'x' lower ++ (leadingMarks 'X' upper ++ (sign ++ digits)))) =
        sign ++ digits := by
  have absent {c : Char} (other : digitOf 16 c = none) (plain : c ≠ '+') : c ∉ sign ++ digits := by
    rw [List.mem_append, not_or]
    refine ⟨?_, not_mem_of_hexadecimal hexadecimal other⟩
    obtain rfl | rfl := signed
    · exact List.not_mem_nil
    · simpa using plain
  have unmarked : 'x' ∉ leadingMarks 'X' upper ++ (sign ++ digits) := by
    rw [List.mem_append, not_or]
    exact ⟨not_mem_leadingMarks (by decide) (by decide) upper, absent (by decide) (by decide)⟩
  rw [dropMarks_leadingMarks unmarked, dropMarks_leadingMarks (absent (by decide) (by decide))]

theorem reads_iff_exists {cs : List Char} {n : Nat} :
    Reads 16 cs n ↔ ∃ sign digits, cs = sign ++ digits ∧ (sign = [] ∨ sign = ['+']) ∧
      Hexadecimal digits n := by
  constructor
  · rintro (digits | ⟨rest, rfl, digits⟩)
    · exact ⟨[], cs, rfl, .inl rfl, hexadecimal_iff.mpr digits⟩
    · exact ⟨['+'], rest, rfl, .inr rfl, hexadecimal_iff.mpr digits⟩
  · rintro ⟨sign, digits, rfl, rfl | rfl, hexadecimal⟩
    · exact .inl (hexadecimal_iff.mp hexadecimal)
    · exact .inr ⟨digits, rfl, hexadecimal_iff.mp hexadecimal⟩

theorem addressForm_iff {cs : List Char} {n : Nat} :
    AddressForm cs n ↔ Reads 16 (dropMarks 'X' (dropMarks 'x' cs)) n := by
  rw [reads_iff_exists]
  constructor
  · rintro ⟨lower, upper, sign, digits, rfl, signed, hexadecimal⟩
    exact ⟨sign, digits, dropMarks_addressForm signed hexadecimal, signed, hexadecimal⟩
  · rintro ⟨sign, digits, left, signed, hexadecimal⟩
    obtain ⟨lower, lowerMarks⟩ := exists_leadingMarks 'x' cs
    obtain ⟨upper, upperMarks⟩ := exists_leadingMarks 'X' (dropMarks 'x' cs)
    rw [left] at upperMarks
    rw [upperMarks] at lowerMarks
    exact ⟨lower, upper, sign, digits, lowerMarks, signed, hexadecimal⟩

theorem address?_eq_some_iff {text : String} {a : Address} :
    address? text = some a ↔ AddressForm text.toList a.toNat := by
  rw [addressForm_iff, address?, Option.map_eq_some_iff]
  constructor
  · rintro ⟨n, read, rfl⟩
    obtain ⟨bound, reads⟩ := read?_eq_some_iff.mp read
    rwa [UInt16.toNat_ofNat_of_lt' (by show n < 65536; omega)]
  · intro reads
    have bound := a.toNat_lt
    exact ⟨a.toNat, read?_eq_some_iff.mpr ⟨by omega, reads⟩, UInt16.ofNat_toNat⟩

theorem isSome_address?_iff (text : String) :
    (address? text).isSome ↔ ∃ n ≤ 65535, AddressForm text.toList n := by
  rw [Option.isSome_iff_exists]
  constructor
  · rintro ⟨a, read⟩
    have bound := a.toNat_lt
    exact ⟨a.toNat, by omega, address?_eq_some_iff.mp read⟩
  · rintro ⟨n, bound, form⟩
    refine ⟨UInt16.ofNat n, address?_eq_some_iff.mpr ?_⟩
    rwa [UInt16.toNat_ofNat_of_lt' (by show n < 65536; omega)]

end Numeral

namespace Command

theorem address_eq_ok_iff {text : String} {a : Address} :
    address text = .ok a ↔ Numeral.AddressForm text.toList a.toNat := by
  rw [← Numeral.address?_eq_some_iff, address]
  cases Numeral.address? text <;> simp

theorem address_eq_error_iff {text : String} :
    address text = .error (.argument (.notAnAddress text)) ↔
      ¬∃ n ≤ 65535, Numeral.AddressForm text.toList n := by
  rw [← Numeral.isSome_address?_iff, address]
  cases Numeral.address? text <;> simp

theorem address_leadingMarks_hexWord (lower upper : Nat) (a : Address) :
    address (String.ofList (Numeral.leadingMarks 'x' lower ++ Numeral.leadingMarks 'X' upper) ++
      Numeral.hexWord a) = .ok a := by
  rw [address_eq_ok_iff, String.toList_append, String.toList_ofList, List.append_assoc]
  exact ⟨lower, upper, [], _, rfl, .inl rfl, Numeral.hexadecimal_hexWord a⟩

/-- A text is an address exactly if it has the form of one and its value fits into a word. Any other
text is refused under its own name. The four digits that an address is written with are read back,
behind either mark and without. -/
theorem address_exact (text : String) (a : Address) :
    (address text = .ok a ↔ Numeral.AddressForm text.toList a.toNat) ∧
    (address text = .error (.argument (.notAnAddress text)) ↔
      ¬∃ n ≤ 65535, Numeral.AddressForm text.toList n) ∧
    address (Numeral.hexWord a) = .ok a ∧
    address ("0x" ++ Numeral.hexWord a) = .ok a ∧
    address ("0X" ++ Numeral.hexWord a) = .ok a := by
  have unmarked : String.ofList (Numeral.leadingMarks 'x' 0 ++ Numeral.leadingMarks 'X' 0) = "" :=
    rfl
  have plain := address_leadingMarks_hexWord 0 0 a
  rw [unmarked, String.empty_append] at plain
  have lower := address_leadingMarks_hexWord 1 0 a
  have upper := address_leadingMarks_hexWord 0 1 a
  exact ⟨address_eq_ok_iff, address_eq_error_iff, plain, lower, upper⟩

example : address "0x0x0X+00000fFda" = .ok 0xFFDA := by decide

end Command

end TeachingCpu
