import TeachingCpu.Word

/-!
Eight general registers. Register 6 is the stack pointer and register 7 the program counter;
nothing else sets the two apart from the others.
-/

namespace TeachingCpu

abbrev Register := Fin 8

namespace Register

def sp : Register := 6

def pc : Register := 7

/-- The register selected by a number of any size: only its low three bits count. -/
def select (n : Nat) : Register := Fin.ofNat 8 n

end Register

structure Registers where
  words : Vector Word 8

namespace Registers

def zero : Registers := ⟨Vector.replicate 8 0⟩

def get (r : Registers) (n : Register) : Word := r.words[n]

def set (r : Registers) (n : Register) (w : Word) : Registers :=
  ⟨r.words.set n.val w n.isLt⟩

def pc (r : Registers) : Address := r.get Register.pc

def sp (r : Registers) : Address := r.get Register.sp

theorem get_set (r : Registers) (m n : Register) (w : Word) :
    (r.set m w).get n = if m = n then w else r.get n := by
  simp only [get, set, Fin.getElem_fin, Vector.getElem_set, Fin.ext_iff]

@[simp] theorem get_set_self (r : Registers) (n : Register) (w : Word) :
    (r.set n w).get n = w := by
  simp [get_set]

theorem get_set_of_ne (r : Registers) {m n : Register} (w : Word) (h : m ≠ n) :
    (r.set m w).get n = r.get n := by
  simp [get_set, h]

@[simp] theorem get_zero (n : Register) : zero.get n = 0 := by
  simp [get, zero]

@[ext] theorem ext {r s : Registers} (h : ∀ n, r.get n = s.get n) : r = s := by
  obtain ⟨r⟩ := r
  obtain ⟨s⟩ := s
  congr 1
  apply Vector.ext
  intro i hi
  simpa [get] using h ⟨i, hi⟩

def toList (r : Registers) : List Word := r.words.toList

end Registers

end TeachingCpu
