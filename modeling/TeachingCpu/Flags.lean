import TeachingCpu.Word

/-!
The four condition flags. They are packed into the low bits of a byte as N, Z, V, C, which is also
how the instructions that clear and set flags name them.
-/

namespace TeachingCpu

structure Flags where
  negative : Bool
  zero : Bool
  overflow : Bool
  carry : Bool
  deriving DecidableEq, Repr

namespace Flags

def cleared : Flags := ⟨false, false, false, false⟩

def bits (f : Flags) : Byte :=
  (if f.negative then 8 else 0) + (if f.zero then 4 else 0) +
    (if f.overflow then 2 else 0) + (if f.carry then 1 else 0)

def ofBits (b : Byte) : Flags :=
  ⟨b &&& 8 != 0, b &&& 4 != 0, b &&& 2 != 0, b &&& 1 != 0⟩

theorem ofBits_bits (f : Flags) : ofBits f.bits = f := by
  obtain ⟨n, z, v, c⟩ := f
  cases n <;> cases z <;> cases v <;> cases c <;> rfl

def clear (f mask : Flags) : Flags :=
  ⟨f.negative && !mask.negative, f.zero && !mask.zero,
    f.overflow && !mask.overflow, f.carry && !mask.carry⟩

def raise (f mask : Flags) : Flags :=
  ⟨f.negative || mask.negative, f.zero || mask.zero,
    f.overflow || mask.overflow, f.carry || mask.carry⟩

theorem bits_clear (f mask : Flags) : (f.clear mask).bits = f.bits &&& ~~~mask.bits := by
  obtain ⟨n, z, v, c⟩ := f
  obtain ⟨n', z', v', c'⟩ := mask
  cases n <;> cases z <;> cases v <;> cases c <;>
    cases n' <;> cases z' <;> cases v' <;> cases c' <;> rfl

theorem bits_raise (f mask : Flags) : (f.raise mask).bits = f.bits ||| mask.bits := by
  obtain ⟨n, z, v, c⟩ := f
  obtain ⟨n', z', v', c'⟩ := mask
  cases n <;> cases z <;> cases v <;> cases c <;>
    cases n' <;> cases z' <;> cases v' <;> cases c' <;> rfl

def letters (f : Flags) : String :=
  (if f.negative then "N" else "") ++ (if f.zero then "Z" else "") ++
    (if f.overflow then "V" else "") ++ (if f.carry then "C" else "")

theorem letters_inj {f g : Flags} : f.letters = g.letters ↔ f = g := by
  refine ⟨fun same => ?_, congrArg letters⟩
  obtain ⟨n, z, v, c⟩ := f
  obtain ⟨n', z', v', c'⟩ := g
  revert n z v c n' z' v' c'
  decide

def columns (f : Flags) : String :=
  (if f.negative then "N" else "-") ++ (if f.zero then "Z" else "-") ++
    (if f.overflow then "V" else "-") ++ (if f.carry then "C" else "-")

def carryWord (f : Flags) : Word := if f.carry then 1 else 0

def carryInt (f : Flags) : Int := if f.carry then 1 else 0

theorem carryInt_eq (f : Flags) : f.carryInt = f.carryWord.toNat := by
  unfold carryInt carryWord
  split <;> rfl

def isNegative (w : Word) : Bool := signed w < 0

def isZero (w : Word) : Bool := w == 0

def ofSign (f : Flags) (result : Word) : Flags := { f with negative := isNegative result }

def ofZero (f : Flags) (result : Word) : Flags := { f with zero := isZero result }

def ofResult (f : Flags) (result : Word) : Flags := (f.ofSign result).ofZero result

def ofSum (f : Flags) (a b : Int) (result : Word) : Flags :=
  { f with overflow := overflows a b result }

end Flags

end TeachingCpu
