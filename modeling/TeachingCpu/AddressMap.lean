import TeachingCpu.Word

/-!
Total maps from the 65536 addresses. Reading needs no bound and writing changes one address, so a
map is the function it answers with: two maps that agree at every address are equal.
-/

namespace TeachingCpu

structure AddressMap (α : Type) where
  cells : Vector α 65536

namespace AddressMap

variable {α : Type}

def get (m : AddressMap α) (a : Address) : α :=
  have := a.toNat_lt
  m.cells[a.toNat]

def set (m : AddressMap α) (a : Address) (x : α) : AddressMap α :=
  ⟨m.cells.set a.toNat x a.toNat_lt⟩

def ofFn (f : Address → α) : AddressMap α :=
  ⟨Vector.ofFn fun i => f (UInt16.ofNat i.val)⟩

def fill (x : α) : AddressMap α :=
  ⟨Vector.replicate 65536 x⟩

def toArray (m : AddressMap α) : Array α := m.cells.toArray

def ofArray (xs : Array α) (rest : α) : AddressMap α :=
  ofFn fun a => xs.getD a.toNat rest

theorem get_set (m : AddressMap α) (a b : Address) (x : α) :
    (m.set a x).get b = if a = b then x else m.get b := by
  simp only [get, set, Vector.getElem_set, UInt16.toNat_inj]

@[simp] theorem get_set_self (m : AddressMap α) (a : Address) (x : α) :
    (m.set a x).get a = x := by
  simp [get_set]

theorem get_set_of_ne (m : AddressMap α) {a b : Address} (x : α) (h : a ≠ b) :
    (m.set a x).get b = m.get b := by
  simp [get_set, h]

@[simp] theorem get_ofFn (f : Address → α) (a : Address) : (ofFn f).get a = f a := by
  simp [get, ofFn]

@[simp] theorem get_fill (x : α) (a : Address) : (fill x).get a = x := by
  simp [get, fill]

@[simp] theorem get_ofArray (xs : Array α) (rest : α) (a : Address) :
    (ofArray xs rest).get a = xs.getD a.toNat rest := by
  simp [ofArray]

@[simp] theorem size_toArray (m : AddressMap α) : m.toArray.size = 65536 := by
  simp [toArray]

theorem getD_toArray (m : AddressMap α) (a : Address) (x : α) :
    m.toArray.getD a.toNat x = m.get a := by
  have h : a.toNat < 65536 := a.toNat_lt
  simp [toArray, get, Array.getD, h]

@[ext] theorem ext {m n : AddressMap α} (h : ∀ a, m.get a = n.get a) : m = n := by
  obtain ⟨m⟩ := m
  obtain ⟨n⟩ := n
  congr 1
  apply Vector.ext
  intro i hi
  have hn : i < 2 ^ 16 := hi
  simpa [get, UInt16.toNat_ofNat_of_lt' hn] using h (UInt16.ofNat i)

/-- Replaces the values at `n` addresses from `target` upwards, as far as the address space goes.
-/
def overlay (m : AddressMap α) (target : Address) (n : Nat) (f : Nat → α) : AddressMap α :=
  ofFn fun a =>
    if target.toNat ≤ a.toNat ∧ a.toNat < target.toNat + n then f (a.toNat - target.toNat)
    else m.get a

theorem get_overlay (m : AddressMap α) (target : Address) (n : Nat) (f : Nat → α)
    (a : Address) :
    (m.overlay target n f).get a =
      if target.toNat ≤ a.toNat ∧ a.toNat < target.toNat + n then f (a.toNat - target.toNat)
      else m.get a := by
  simp [overlay]

@[simp] theorem overlay_zero (m : AddressMap α) (target : Address) (f : Nat → α) :
    m.overlay target 0 f = m := by
  ext a
  rw [get_overlay, if_neg (by omega)]

theorem ofArray_toArray (m : AddressMap α) (x : α) : ofArray m.toArray x = m := by
  ext a
  rw [get_ofArray, getD_toArray]

attribute [irreducible] get set ofFn fill toArray

end AddressMap

end TeachingCpu
