import Mathlib.Data.Nat.Digits.Defs
import Mathlib.Tactic.LinearCombination
import Mathlib.Tactic.Ring
import TeachingCpu.Proofs.Arithmetic.Exact

/-!
Numbers of several words. One instruction computes on one word and leaves in the carry what belongs
to the next one, so a number of any length is computed on word by word: upwards when something is
added, subtracted or shifted to the left, downwards when it is shifted to the right. Word and carry
satisfy one linear equation at each word. The equations add up to one for the whole number, in
which no carry but the first and the last is left.
-/

namespace TeachingCpu

theorem Flags.carryInt_bounds (f : Flags) : 0 ≤ f.carryInt ∧ f.carryInt ≤ 1 := by
  unfold carryInt
  split <;> decide

theorem Flags.carry_iff (f : Flags) : f.carry = true ↔ f.carryInt = 1 := by
  unfold carryInt
  split <;> simp_all

theorem Leaves.carryInt {u v : Int} {missed : Prop} {w : Word} {flags : Flags}
    (h : Leaves u v missed w flags) :
    flags.carryInt = if 0 ≤ u ∧ u ≤ 65535 then 0 else 1 := by
  rw [Flags.carryInt]
  by_cases fits : 0 ≤ u ∧ u ≤ 65535
  · rw [if_pos fits, if_neg fun set => h.carry.mp set fits]
  · rw [if_neg fits, if_pos (h.carry.mpr fits)]

def number (ws : List Word) : Nat := Nat.ofDigits 65536 (ws.map UInt16.toNat)

def signedNumber (ws : List Word) : Int :=
  if 2 * number ws < 65536 ^ ws.length then number ws
  else number ws - (65536 ^ ws.length : Nat)

@[simp] theorem number_nil : number [] = 0 := rfl

theorem number_cons (w : Word) (ws : List Word) :
    number (w :: ws) = w.toNat + 65536 * number ws := by
  rw [number, number, List.map_cons, Nat.ofDigits_cons]

theorem number_append (vs ws : List Word) :
    number (vs ++ ws) = number vs + 65536 ^ vs.length * number ws := by
  rw [number, List.map_append, Nat.ofDigits_append, List.length_map]
  rfl

theorem number_reverse_cons (w : Word) (ws : List Word) :
    number (w :: ws).reverse = number ws.reverse + 65536 ^ ws.length * w.toNat := by
  rw [List.reverse_cons, number_append, List.length_reverse, number_cons, number_nil, Nat.mul_zero,
    Nat.add_zero]

theorem number_lt (ws : List Word) : number ws < 65536 ^ ws.length := by
  have digits : ∀ d ∈ ws.map UInt16.toNat, d < 65536 := fun d member => by
    obtain ⟨w, -, rfl⟩ := List.mem_map.mp member
    exact w.toNat_lt
  rw [← List.length_map UInt16.toNat]
  exact Nat.ofDigits_lt_base_pow_length (by decide) digits

theorem two_pow_bits (n : Nat) : 2 ^ (16 * n) = 65536 ^ n := pow_mul 2 16 n

theorem testBit_top {n k : Nat} (h : n < 2 ^ (k + 1)) : n.testBit k = true ↔ 2 ^ k ≤ n := by
  refine ⟨fun set => ?_, fun high => Nat.testBit_of_two_pow_le_and_two_pow_add_one_gt high h⟩
  by_contra low
  rw [Nat.testBit_lt_two_pow (Nat.lt_of_not_le low)] at set
  contradiction

def UnaryOp.applyAll (f : Flags) : List (UnaryOp × Word) → List Word × Flags
  | [] => ([], f)
  | (op, w) :: rest =>
    let computed := op.apply f w
    let (results, final) := applyAll computed.flags rest
    (computed.result :: results, final)

theorem UnaryOp.applyAll_cons (f : Flags) (op : UnaryOp) (w : Word) (rest : List (UnaryOp × Word)) :
    applyAll f ((op, w) :: rest) =
      ((op.apply f w).result :: (applyAll (op.apply f w).flags rest).1,
        (applyAll (op.apply f w).flags rest).2) := rfl

inductive Chain where
  | increment
  | decrement
  | double
  | halve
  deriving DecidableEq, Repr

namespace Chain

def first : Chain → UnaryOp
  | increment => .inc
  | decrement => .dec
  | double => .asl
  | halve => .asr

def next : Chain → UnaryOp
  | increment => .adc
  | decrement => .sbc
  | double => .rol
  | halve => .ror

/-- Each word, or each operand, with the operation on it. A number is halved from its most
significant word downwards, all else is done from the least significant one upwards. -/
def steps {α : Type} (c : Chain) : List α → List (UnaryOp × α)
  | [] => []
  | x :: xs => (c.first, x) :: xs.map fun y => (c.next, y)

/-- What is to come of a number, with its words in the order of the steps, and the carry that is to
come with it. -/
def Exact (before after : List Word) (carry : Bool) : Chain → Prop
  | increment =>
    number after = (number before + 1) % 2 ^ (16 * before.length) ∧
      (carry = true ↔ number before = 2 ^ (16 * before.length) - 1)
  | decrement =>
    (number after : Int) = ((number before : Int) - 1) % 2 ^ (16 * before.length) ∧
      (carry = true ↔ number before = 0)
  | double =>
    number after = 2 * number before % 2 ^ (16 * before.length) ∧
      carry = (number before).testBit (16 * before.length - 1)
  | halve =>
    signedNumber after.reverse = signedNumber before.reverse / 2 ∧
      carry = (number before.reverse).testBit 0

/-- The carry that the first operation does without. -/
def seed (w : Word) : Chain → Bool
  | increment | decrement => true
  | double => false
  | halve => 32768 ≤ w

theorem apply_first (c : Chain) (f : Flags) (w : Word) :
    c.first.apply f w = c.next.apply { f with carry := c.seed w } w := by
  cases c with
  | increment | decrement | halve => rfl
  | double => exact congrArg (Computed.ofShift f · _) (UInt16.add_zero _).symm

theorem stores_steps {α : Type} (c : Chain) (xs : List α) :
    ∀ s ∈ c.steps xs, s.1.stores = true := by
  cases xs with
  | nil => exact fun _ member => nomatch member
  | cons x xs =>
    intro s member
    rcases List.mem_cons.mp member with rfl | later
    · cases c <;> rfl
    · obtain ⟨y, -, rfl⟩ := List.mem_map.mp later
      cases c <;> rfl

@[simp] theorem length_steps {α : Type} (c : Chain) (xs : List α) :
    (c.steps xs).length = xs.length := by
  cases xs with
  | nil => rfl
  | cons x xs => rw [steps, List.length_cons, List.length_cons, List.length_map]

theorem zip_steps {α β : Type} (c : Chain) {xs : List α} {ys : List β}
    (same : ys.length = xs.length) : ((c.steps xs).map Prod.fst).zip ys = c.steps ys := by
  refine (List.zip_of_prod ?_ ?_).symm
  · cases xs with
    | nil => rw [List.length_eq_zero_iff.mp same]; rfl
    | cons x xs =>
      obtain ⟨y, ys, rfl⟩ := List.exists_cons_of_length_eq_add_one same
      have same := Nat.succ.inj same
      simp [steps, Function.comp_def, List.map_const', same]
  · cases ys <;> simp [steps, Function.comp_def]

theorem applyAll_steps (c : Chain) (f : Flags) (w : Word) (ws : List Word) :
    UnaryOp.applyAll f (c.steps (w :: ws)) =
      UnaryOp.applyAll { f with carry := c.seed w } ((w :: ws).map fun x => (c.next, x)) := by
  rw [steps, List.map_cons, UnaryOp.applyAll_cons, UnaryOp.applyAll_cons, apply_first]

end Chain

namespace UnaryOp

theorem length_applyAll (f : Flags) (steps : List (UnaryOp × Word)) :
    (applyAll f steps).1.length = steps.length := by
  induction steps generalizing f with
  | nil => rfl
  | cons s steps ih =>
    rw [applyAll_cons, List.length_cons, List.length_cons, ih]

/-- The equation of an operation that hands its carry to the next more significant word, where it
counts with the given sign. -/
def Upwards (op : UnaryOp) (scale sign : Int) : Prop :=
  ∀ f w, unsigned (op.apply f w).result + sign * 65536 * (op.apply f w).flags.carryInt =
    scale * unsigned w + sign * f.carryInt

def Downwards (op : UnaryOp) : Prop :=
  ∀ f w, 2 * unsigned (op.apply f w).result + (op.apply f w).flags.carryInt =
    unsigned w + 65536 * f.carryInt

theorem upwards_adc : adc.Upwards 1 1 := by
  intro f w
  have exactly : Leaves (unsigned w + f.carryInt) (signed w + f.carryInt) False
      (adc.apply f w).result (adc.apply f w).flags := leaves rfl rfl
  have word := unsigned_bounds w
  have carry := f.carryInt_bounds
  rw [exactly.result, exactly.carryInt]
  split <;> omega

theorem upwards_sbc : sbc.Upwards 1 (-1) := by
  intro f w
  have exactly : Leaves (unsigned w - f.carryInt) (signed w - f.carryInt) False
      (sbc.apply f w).result (sbc.apply f w).flags := leaves rfl rfl
  have word := unsigned_bounds w
  have carry := f.carryInt_bounds
  rw [exactly.result, exactly.carryInt]
  split <;> omega

theorem upwards_rol : rol.Upwards 2 1 := by
  intro f w
  have word := w.toNat_lt
  have carry := f.carryInt_bounds
  have result : (rol.apply f w).result = w * 2 + f.carryWord := rfl
  have out : (rol.apply f w).flags.carryInt = if 32768 ≤ w.toNat then 1 else 0 := by
    simp only [apply, Computed.ofShift, Flags.carryInt, decide_eq_true_eq, UInt16.le_iff_toNat_le,
      UInt16.reduceToNat]
  rw [f.carryInt_eq] at carry
  simp only [result, out, f.carryInt_eq, unsigned, UInt16.toNat_add, UInt16.toNat_mul,
    UInt16.reduceToNat]
  split <;> omega

theorem downwards_ror : ror.Downwards := by
  intro f w
  have word := w.toNat_lt
  have result : (ror.apply f w).result = w / 2 + topBit f.carry := rfl
  have top : (topBit f.carry).toNat = 32768 * f.carryInt := by
    rw [topBit, Flags.carryInt]
    split <;> rfl
  have carry := f.carryInt_bounds
  have out : (ror.apply f w).flags.carryInt = w.toNat % 2 := by
    have odd : (w % 2 == 1) = true ↔ w.toNat % 2 = 1 := by
      rw [beq_iff_eq, ← UInt16.toNat_inj, UInt16.toNat_mod]
      rfl
    simp only [apply, Computed.ofShift, Flags.carryInt, odd]
    split <;> omega
  simp only [result, out, unsigned, UInt16.toNat_add, UInt16.toNat_div, UInt16.reduceToNat]
  omega

theorem total_upwards {op : UnaryOp} {scale sign : Int} (h : op.Upwards scale sign) (f : Flags)
    (ws : List Word) :
    (number (applyAll f (ws.map fun w => (op, w))).1 : Int) +
        sign * (65536 ^ ws.length : Nat) * (applyAll f (ws.map fun w => (op, w))).2.carryInt =
      scale * number ws + sign * f.carryInt := by
  induction ws generalizing f with
  | nil => simp [applyAll]
  | cons w ws ih =>
    have here := h f w
    have rest := ih (op.apply f w).flags
    simp only [unsigned] at here
    rw [List.map_cons, applyAll_cons, number_cons, number_cons, List.length_cons, pow_succ]
    push_cast at rest ⊢
    linear_combination here + 65536 * rest

theorem total_downwards {op : UnaryOp} (h : op.Downwards) (f : Flags) (ws : List Word) :
    2 * (number (applyAll f (ws.map fun w => (op, w))).1.reverse : Int) +
        (applyAll f (ws.map fun w => (op, w))).2.carryInt =
      number ws.reverse + (65536 ^ ws.length : Nat) * f.carryInt := by
  induction ws generalizing f with
  | nil => simp [applyAll]
  | cons w ws ih =>
    have here := h f w
    have rest := ih (op.apply f w).flags
    simp only [unsigned] at here
    rw [List.map_cons, applyAll_cons, number_reverse_cons, number_reverse_cons, length_applyAll,
      List.length_map, List.length_cons, pow_succ]
    push_cast at rest ⊢
    linear_combination rest + 65536 ^ ws.length * here

end UnaryOp

namespace Chain

theorem number_applyAll_lt (f : Flags) (c : Chain) (ws : List Word) :
    number (UnaryOp.applyAll f (c.steps ws)).1 < 65536 ^ ws.length := by
  have below := number_lt (UnaryOp.applyAll f (c.steps ws)).1
  rwa [UnaryOp.length_applyAll, length_steps] at below

theorem wraps {c : Chain} {scale sign : Int} (upwards : c.next.Upwards scale sign)
    (unit : sign = 1 ∨ sign = -1) (f : Flags) (w : Word) (ws : List Word) {v : Int}
    (value : v = scale * number (w :: ws) + sign * { f with carry := c.seed w }.carryInt) :
    (number (UnaryOp.applyAll f (c.steps (w :: ws))).1 : Int) =
        v % (65536 ^ (w :: ws).length : Nat) ∧
      ((UnaryOp.applyAll f (c.steps (w :: ws))).2.carry = true ↔
        ¬(0 ≤ v ∧ v < (65536 ^ (w :: ws).length : Nat))) := by
  have total := UnaryOp.total_upwards upwards { f with carry := c.seed w } (w :: ws)
  have below := number_applyAll_lt f c (w :: ws)
  rw [← applyAll_steps, ← value] at total
  generalize 65536 ^ (w :: ws).length = size at total below ⊢
  generalize UnaryOp.applyAll f (c.steps (w :: ws)) = left at total below ⊢
  have modulo : v / size = sign * left.2.carryInt ∧ v % size = number left.1 :=
    (Int.ediv_emod_unique (by omega)).mpr ⟨by linear_combination total, by omega, by omega⟩
  refine ⟨modulo.2.symm, ?_⟩
  rw [Flags.carryInt] at total
  cases carry : left.2.carry with
  | false =>
    rw [carry, if_neg Bool.false_ne_true, mul_zero] at total
    simp only [Bool.false_eq_true, false_iff]
    omega
  | true =>
    rw [carry, if_pos rfl, mul_one] at total
    simp only [true_iff]
    rcases unit with rfl | rfl <;> omega

theorem exact_increment (f : Flags) (w : Word) (ws : List Word) :
    increment.Exact (w :: ws) (UnaryOp.applyAll f (increment.steps (w :: ws))).1
      (UnaryOp.applyAll f (increment.steps (w :: ws))).2.carry := by
  have start := number_lt (w :: ws)
  obtain ⟨modulo, carry⟩ := wraps (c := increment) UnaryOp.upwards_adc (.inl rfl) f w ws
    (v := number (w :: ws) + 1) (by simp [seed, Flags.carryInt])
  rw [Exact, two_pow_bits]
  refine ⟨by exact_mod_cast modulo, carry.trans ?_⟩
  omega

theorem exact_decrement (f : Flags) (w : Word) (ws : List Word) :
    decrement.Exact (w :: ws) (UnaryOp.applyAll f (decrement.steps (w :: ws))).1
      (UnaryOp.applyAll f (decrement.steps (w :: ws))).2.carry := by
  have start := number_lt (w :: ws)
  obtain ⟨modulo, carry⟩ := wraps (c := decrement) UnaryOp.upwards_sbc (.inr rfl) f w ws
    (v := number (w :: ws) - 1) (by simp [seed, Flags.carryInt, Int.sub_eq_add_neg])
  rw [← two_pow_bits, Nat.cast_pow, Nat.cast_ofNat] at modulo
  refine ⟨modulo, carry.trans ?_⟩
  omega

theorem exact_double (f : Flags) (w : Word) (ws : List Word) :
    double.Exact (w :: ws) (UnaryOp.applyAll f (double.steps (w :: ws))).1
      (UnaryOp.applyAll f (double.steps (w :: ws))).2.carry := by
  have start := number_lt (w :: ws)
  obtain ⟨modulo, carry⟩ := wraps (c := double) UnaryOp.upwards_rol (.inl rfl) f w ws
    (v := 2 * number (w :: ws)) (by simp [seed, Flags.carryInt])
  obtain ⟨k, bits⟩ : ∃ k, 16 * (w :: ws).length = k + 1 :=
    Nat.exists_eq_add_one.mpr (by rw [List.length_cons]; omega)
  rw [← two_pow_bits, bits] at start carry
  rw [Exact, bits, Nat.add_sub_cancel, ← bits, two_pow_bits]
  refine ⟨by exact_mod_cast modulo, ?_⟩
  rw [Bool.eq_iff_iff, testBit_top start, carry, pow_succ]
  omega

theorem halved {before after : List Word} {inward outward : Flags} (nonempty : before ≠ [])
    (same : after.length = before.length)
    (sign : inward.carry = true ↔ 65536 ^ before.length ≤ 2 * number before)
    (total : 2 * (number after : Int) + outward.carryInt =
      number before + (65536 ^ before.length : Nat) * inward.carryInt) :
    signedNumber after = signedNumber before / 2 ∧
      outward.carry = (number before).testBit 0 := by
  have below := number_lt after
  have even : 65536 ^ before.length % 2 = 0 := by
    obtain ⟨w, ws, rfl⟩ := List.exists_cons_of_ne_nil nonempty
    rw [List.length_cons, pow_succ]
    omega
  have carry := outward.carryInt_bounds
  have sign' := inward.carry_iff
  have bounds := inward.carryInt_bounds
  rw [same] at below
  rw [signedNumber, signedNumber, same, Nat.testBit_zero, Bool.eq_iff_iff, decide_eq_true_eq,
    outward.carry_iff]
  generalize 65536 ^ before.length = size at *
  rw [sign] at sign'
  by_cases negative : size ≤ 2 * number before
  · have one := sign'.mp negative
    rw [one, mul_one] at total
    rw [if_neg (by omega), if_neg (by omega)]
    omega
  · have zero : inward.carryInt = 0 := by omega
    rw [zero, mul_zero] at total
    rw [if_pos (by omega), if_pos (by omega)]
    omega

theorem seed_halve_iff (w : Word) (ws : List Word) :
    halve.seed w = true ↔ 65536 ^ (w :: ws).length ≤ 2 * number (w :: ws).reverse := by
  have rest := number_lt ws.reverse
  rw [List.length_reverse] at rest
  simp only [seed, decide_eq_true_eq, UInt16.le_iff_toNat_le, UInt16.reduceToNat]
  rw [number_reverse_cons, List.length_cons, pow_succ]
  generalize 65536 ^ ws.length = size at rest ⊢
  constructor
  · intro high
    nlinarith
  · intro high
    by_contra low
    nlinarith

theorem exact_halve (f : Flags) (w : Word) (ws : List Word) :
    halve.Exact (w :: ws) (UnaryOp.applyAll f (halve.steps (w :: ws))).1
      (UnaryOp.applyAll f (halve.steps (w :: ws))).2.carry := by
  have total := UnaryOp.total_downwards UnaryOp.downwards_ror { f with carry := halve.seed w }
    (w :: ws)
  have left := applyAll_steps halve f w ws
  rw [next] at left
  rw [← left, ← List.length_reverse] at total
  refine halved (by simp) ?_ ?_ total
  · rw [List.length_reverse, List.length_reverse, UnaryOp.length_applyAll, length_steps]
  · rw [List.length_reverse]
    exact seed_halve_iff w ws

theorem exact_applyAll (c : Chain) (f : Flags) {ws : List Word} (nonempty : ws ≠ []) :
    c.Exact ws (UnaryOp.applyAll f (c.steps ws)).1 (UnaryOp.applyAll f (c.steps ws)).2.carry := by
  obtain ⟨w, rest, rfl⟩ := List.exists_cons_of_ne_nil nonempty
  cases c with
  | increment => exact exact_increment f w rest
  | decrement => exact exact_decrement f w rest
  | double => exact exact_double f w rest
  | halve => exact exact_halve f w rest

example : (UnaryOp.applyAll Flags.cleared (decrement.steps [0, 0, 1])).1 = [65535, 65535, 0] := by
  decide

end Chain

end TeachingCpu
