import TeachingCpu.Proofs.Processor.Computing

/-!
The arithmetic instructions against the integers. The number that an instruction is to compute is
known exactly, once with its words read as unsigned numbers and once as signed ones. The result is
that number modulo 65536, the carry says that the unsigned one does not fit, and the overflow that
the signed one does not fit. The rule for the overflow asks for two operands and a result with a
sign, and zero has none: three pairs of words overflow without being noticed.
-/

namespace TeachingCpu

def unsigned (w : Word) : Int := w.toNat

theorem unsigned_bounds (w : Word) : 0 ≤ unsigned w ∧ unsigned w < 65536 := by
  have h := w.toNat_lt
  simp only [unsigned]
  omega

theorem unsigned_add (a b : Word) : unsigned (a + b) = (unsigned a + unsigned b) % 65536 := by
  simp only [unsigned, UInt16.toNat_add]
  omega

theorem unsigned_sub (a b : Word) : unsigned (a - b) = (unsigned a - unsigned b) % 65536 := by
  have ha := a.toNat_lt
  have hb := b.toNat_lt
  simp only [unsigned, UInt16.toNat_sub]
  omega

theorem signed_eq (w : Word) :
    signed w = if unsigned w < 32768 then unsigned w else unsigned w - 65536 := by
  have small : w < 32768 ↔ unsigned w < 32768 := by
    simp only [UInt16.lt_iff_toNat_lt, UInt16.reduceToNat, unsigned]
    omega
  simp only [signed, small]
  rfl

theorem eq_iff_unsigned (a b : Word) : a = b ↔ unsigned a = unsigned b := by
  rw [← UInt16.toNat_inj]
  simp only [unsigned]
  omega

theorem signed_neg_iff (w : Word) : signed w < 0 ↔ 32768 ≤ unsigned w := by
  have bounds := unsigned_bounds w
  rw [signed_eq]
  split <;> omega

theorem unsigned_eq (w : Word) : unsigned w = signed w % 65536 := (signed_emod w).symm

theorem eq_lowest_iff (w : Word) : w = 32768 ↔ signed w = -32768 := by
  have bounds := unsigned_bounds w
  have number : unsigned 32768 = 32768 := rfl
  rw [eq_iff_unsigned, signed_eq]
  split <;> omega

theorem eq_zero_iff (w : Word) : w = 0 ↔ signed w = 0 := by
  have bounds := unsigned_bounds w
  have number : unsigned 0 = 0 := rfl
  rw [eq_iff_unsigned, signed_eq]
  split <;> omega

theorem isNegative_eq (w : Word) : Flags.isNegative w = w.toNat.testBit 15 := by
  have bounds := w.toNat_lt
  have top : signed w < 0 ↔ w.toNat / 2 ^ 15 % 2 = 1 := by
    rw [signed_neg_iff, unsigned]
    omega
  rw [Flags.isNegative, Nat.testBit_eq_decide_div_mod_eq]
  simp only [top]

theorem isZero_iff (w : Word) : Flags.isZero w = true ↔ w = 0 := beq_iff_eq

theorem carries_iff (a b : Word) : carries a b = true ↔ 65535 < unsigned a + unsigned b := by
  simp only [carries, decide_eq_true_eq, unsigned]
  omega

theorem borrows_iff (a b : Word) : borrows a b = true ↔ unsigned a - unsigned b < 0 := by
  simp only [borrows, decide_eq_true_eq, UInt16.lt_iff_toNat_lt, unsigned]
  omega

/-- A sum of signed numbers is seen not to fit, except where an operand or the result is zero. -/
theorem overflows_iff {a b : Int} {result : Word} (first : -32768 ≤ a ∧ a ≤ 32767)
    (second : -32768 ≤ b ∧ b ≤ 32768) (sum : unsigned result = (a + b) % 65536) :
    overflows a b result = true ↔ ¬(-32768 ≤ a + b ∧ a + b ≤ 32767) ∧
      ¬(a = -32768 ∧ b = -32768 ∨ a = 0 ∧ b = 32768) := by
  have reading := signed_eq result
  have bounds := unsigned_bounds result
  simp only [overflows, Bool.or_eq_true, Bool.and_eq_true, decide_eq_true_eq]
  split at reading <;> omega

/-- What is left of a number in a word and the flags. The number is `u` with words read as unsigned
and `v` with words read as signed. An overflow may be missed. -/
structure Leaves (u v : Int) (missed : Prop) (w : Word) (flags : Flags) : Prop where
  result : unsigned w = u % 65536
  negative : flags.negative = w.toNat.testBit 15
  zero : flags.zero = true ↔ w = 0
  carry : flags.carry = true ↔ ¬(0 ≤ u ∧ u ≤ 65535)
  overflow : flags.overflow = true ↔ ¬(-32768 ≤ v ∧ v ≤ 32767) ∧ ¬missed

theorem Leaves.congr {u v : Int} {missed missed' : Prop} {w : Word} {flags : Flags}
    (h : Leaves u v missed w flags) (same : missed' ↔ missed) : Leaves u v missed' w flags :=
  ⟨h.result, h.negative, h.zero, h.carry, by rw [same]; exact h.overflow⟩

theorem Leaves.negative_iff {u v : Int} {missed : Prop} {w : Word} {flags : Flags}
    (h : Leaves u v missed w flags) : flags.negative = true ↔ 32768 ≤ unsigned w := by
  rw [h.negative, ← isNegative_eq, Flags.isNegative, decide_eq_true_eq, signed_neg_iff]

theorem leaves_sum (f : Flags) (a b : Word) :
    Leaves (unsigned a + unsigned b) (signed a + signed b) (a = 32768 ∧ b = 32768) (a + b)
      (Computed.ofSum f (a + b) (signed a) (signed b) (carries a b)).flags where
  result := unsigned_add a b
  negative := isNegative_eq (a + b)
  zero := isZero_iff (a + b)
  carry := by
    have first := unsigned_bounds a
    have second := unsigned_bounds b
    refine (carries_iff a b).trans ?_
    omega
  overflow := by
    have first := signed_bounds a
    have second := signed_bounds b
    have sum : unsigned (a + b) = (signed a + signed b) % 65536 := by
      rw [unsigned_add, unsigned_eq, unsigned_eq]
      omega
    refine (overflows_iff (by omega) (by omega) sum).trans ?_
    rw [eq_lowest_iff, eq_lowest_iff]
    omega

theorem leaves_difference (f : Flags) (a b : Word) :
    Leaves (unsigned a - unsigned b) (signed a - signed b) (a = 0 ∧ b = 32768) (a - b)
      (Computed.ofSum f (a - b) (signed a) (-signed b) (borrows a b)).flags where
  result := unsigned_sub a b
  negative := isNegative_eq (a - b)
  zero := isZero_iff (a - b)
  carry := by
    have first := unsigned_bounds a
    have second := unsigned_bounds b
    refine (borrows_iff a b).trans ?_
    omega
  overflow := by
    have first := signed_bounds a
    have second := signed_bounds b
    have sum : unsigned (a - b) = (signed a + -signed b) % 65536 := by
      rw [unsigned_sub, unsigned_eq, unsigned_eq]
      omega
    refine (overflows_iff (by omega) (by omega) sum).trans ?_
    rw [eq_zero_iff, eq_lowest_iff]
    omega

/-- The overflow of a negation is not taken from the rule for sums and is not missed. -/
theorem leaves_negation (f : Flags) (w : Word) :
    Leaves (-unsigned w) (-signed w) False (0 - w) (UnaryOp.neg.apply f w).flags where
  result := by
    have zero : unsigned 0 = 0 := rfl
    rw [unsigned_sub, zero]
    omega
  negative := isNegative_eq (0 - w)
  zero := isZero_iff (0 - w)
  carry := by
    have bounds := unsigned_bounds w
    have zero : unsigned 0 = 0 := rfl
    refine (borrows_iff 0 w).trans ?_
    omega
  overflow := by
    have bounds := signed_bounds w
    refine beq_iff_eq.trans ((eq_lowest_iff w).trans ?_)
    rw [not_false_eq_true, and_true]
    omega

namespace UnaryOp

def exactValue (d carry : Int) : UnaryOp → Option Int
  | inc => some (d + 1)
  | dec => some (d - 1)
  | neg => some (-d)
  | adc => some (d + carry)
  | sbc => some (d - carry)
  | _ => none

theorem stores_of_exact {op : UnaryOp} {d carry n : Int} (h : op.exactValue d carry = some n) :
    op.stores = true := by
  cases op with
  | tst => contradiction
  | _ => rfl

theorem leaves {op : UnaryOp} {f : Flags} {w : Word} {u v : Int}
    (hu : op.exactValue (unsigned w) f.carryInt = some u)
    (hv : op.exactValue (signed w) f.carryInt = some v) :
    Leaves u v False (op.apply f w).result (op.apply f w).flags := by
  have carry : f.carryInt = unsigned f.carryWord := f.carryInt_eq
  have carry' : f.carryInt = signed f.carryWord := by
    unfold Flags.carryInt Flags.carryWord
    split <;> rfl
  have small : f.carryWord ≠ 32768 := by
    unfold Flags.carryWord
    split <;> decide
  cases op with
  | inc =>
    cases hu
    cases hv
    exact (leaves_sum f w 1).congr (by simp)
  | dec =>
    cases hu
    cases hv
    exact (leaves_difference f w 1).congr (by simp)
  | neg =>
    cases hu
    cases hv
    exact leaves_negation f w
  | adc =>
    cases hu
    cases hv
    rw [apply]
    have sum := leaves_sum f w f.carryWord
    rw [← carry, ← carry'] at sum
    exact sum.congr (by simp [small])
  | sbc =>
    cases hu
    cases hv
    have difference := leaves_difference f w f.carryWord
    rw [← carry, ← carry'] at difference
    exact difference.congr (by simp [small])
  | _ => contradiction

end UnaryOp

namespace BinaryOp

def exactValue (source destination : Int) : BinaryOp → Option Int
  | add => some (destination + source)
  | sub => some (destination - source)
  | cmp => some (source - destination)
  | _ => none

/-- The operands whose overflow goes unnoticed: the lowest number is added to itself or subtracted
from zero. -/
def Misses (source destination : Word) : BinaryOp → Prop
  | add => source = 32768 ∧ destination = 32768
  | sub => destination = 0 ∧ source = 32768
  | cmp => source = 0 ∧ destination = 32768
  | _ => False

theorem leaves {op : BinaryOp} {f : Flags} {s d : Word} {u v : Int}
    (hu : op.exactValue (unsigned s) (unsigned d) = some u)
    (hv : op.exactValue (signed s) (signed d) = some v) :
    ∃ w, Leaves u v (op.Misses s d) w (op.apply f s d).flags ∧
      (op.apply f s d).result = if op = .cmp then d else w := by
  cases op with
  | add =>
    cases hu
    cases hv
    exact ⟨_, (leaves_sum f d s).congr And.comm, rfl⟩
  | sub =>
    cases hu
    cases hv
    exact ⟨_, leaves_difference f d s, rfl⟩
  | cmp =>
    cases hu
    cases hv
    exact ⟨_, leaves_difference f s d, rfl⟩
  | _ => contradiction

end BinaryOp

namespace Instruction

variable (p : Processor)

/-- The number that an arithmetic instruction is to compute once it has been fetched, with words
read in the given way. -/
def exactValue (value : Word → Int) : Instruction → Option Int
  | unary op o => op.exactValue (value (p.operandWord o)) p.flags.carryInt
  | binary op source destination =>
    op.exactValue (value (p.operandWord source))
      (value ((p.afterRead source).operandWord destination))
  | _ => none

def Misses : Instruction → Prop
  | binary op source destination =>
    op.Misses (p.operandWord source) ((p.afterRead source).operandWord destination)
  | _ => False

/-- Whether `q` has the result of the instruction at its last operand, where a comparison leaves the
word that it found. -/
def Stores (q : Processor) (w : Word) : Instruction → Prop
  | unary _ o => p.Puts q (p.resolve o).1 w
  | binary op source destination =>
    p.Puts q ((p.afterRead source).resolve destination).1
      (if op = .cmp then (p.afterRead source).operandWord destination else w)
  | _ => False

variable {p}

theorem leaves_execute {i : Instruction} {u v : Int} (hu : i.exactValue p unsigned = some u)
    (hv : i.exactValue p signed = some v) :
    (p.execute i).1 = .ok ∧
      ∃ w, Leaves u v (i.Misses p) w (p.execute i).2.flags ∧ i.Stores p (p.execute i).2 w := by
  cases i with
  | unary op o =>
    refine ⟨rfl, _, ?_, p.puts_unary (UnaryOp.stores_of_exact hu) o⟩
    rw [Processor.execute, Processor.flags_unary]
    exact UnaryOp.leaves hu hv
  | binary op source destination =>
    obtain ⟨w, leaves, stored⟩ := BinaryOp.leaves (f := p.flags) hu hv
    have puts := p.puts_binary op source destination
    rw [Processor.binaryResult, stored] at puts
    refine ⟨rfl, w, ?_, puts⟩
    rw [Processor.execute, Processor.flags_binary]
    exact leaves
  | _ => contradiction

end Instruction

namespace Machine

/-- An arithmetic instruction computes its number as far as a word and the flags can hold it. -/
theorem arithmetic_is_exact {m : Machine} {i : Instruction} {p : Processor}
    (fetches : m.processor.fetch = (some i, p)) {u v : Int}
    (asUnsigned : i.exactValue p unsigned = some u) (asSigned : i.exactValue p signed = some v) :
    m.stepOver.1 = .ok ∧
      ∃ w, Leaves u v (i.Misses p) w m.stepOver.2.flags ∧
        i.Stores p m.stepOver.2.processor w := by
  have executed := Instruction.leaves_execute asUnsigned asSigned
  rw [← Processor.step_of_fetch fetches] at executed
  exact executed

/-- About to compare R1 with R0, and then to branch to six if it is less. -/
def comparing (s d : Word) : Machine :=
  (((((initial.setByte 0 0xC0).setByte 1 0x40).setByte 2 0x3A).setByte 3 2).setRegister (.select 1)
    s).setRegister (.select 0) d

theorem byte_comparing (s d : Word) (a : Address) : (comparing s d).bus.byte a =
    if 3 = a then 2 else if 2 = a then 0x3A else if 1 = a then 0x40 else if 0 = a then 0xC0
    else 0 := by
  have bus : (comparing s d).bus =
      (((initial.bus.setByte 0 0xC0).setByte 1 0x40).setByte 2 0x3A).setByte 3 2 := rfl
  have zeros : initial.bus.byte a = 0 := AddressMap.get_fill 0 a
  rw [bus, Bus.byte_setByte, Bus.byte_setByte, Bus.byte_setByte, Bus.byte_setByte, zeros]

theorem fetch_comparing (s d : Word) : (comparing s d).processor.fetch =
    (some (.binary .cmp ⟨.register, 1⟩ ⟨.register, 0⟩), (comparing s d).processor.fetched) := by
  have pc : (comparing s d).pc = 0 := rfl
  exact fetch_of_bytes pc (byte_comparing s d 0) (byte_comparing s d 1) (by decide)

theorem operandWord_comparing (s d : Word) :
    (comparing s d).processor.fetched.operandWord ⟨.register, 1⟩ = s ∧
      ((comparing s d).processor.fetched.afterRead ⟨.register, 1⟩).operandWord ⟨.register, 0⟩ = d :=
  ⟨rfl, rfl⟩

/-- The lowest number taken from zero is too great by one, and the overflow is clear. -/
theorem arithmetic_is_exact_of_lowest :
    (comparing 0 32768).stepOver.1 = .ok ∧
      ∃ w, Leaves (-32768) 32768 True w (comparing 0 32768).stepOver.2.flags ∧
        (comparing 0 32768).stepOver.2.flags.overflow = false ∧
        (comparing 0 32768).stepOver.2.register 0 = 32768 := by
  obtain ⟨first, second⟩ := operandWord_comparing 0 32768
  obtain ⟨outcome, w, leaves, stores⟩ := arithmetic_is_exact (fetch_comparing 0 32768)
    (u := -32768) (v := 32768) (by rw [Instruction.exactValue, first, second]; rfl)
    (by rw [Instruction.exactValue, first, second]; rfl)
  have missed : Leaves (-32768) 32768 True w (comparing 0 32768).stepOver.2.flags :=
    leaves.congr (iff_of_true trivial ⟨first, second⟩)
  refine ⟨outcome, w, missed, ?_, stores.1.trans second⟩
  exact Bool.eq_false_iff.mpr fun set => (missed.overflow.mp set).2 trivial

end Machine

end TeachingCpu
