import TeachingCpu.AddressMap

/-!
The contents of the address space together with the rule that says which addresses are byte-wide.
A word at an ordinary address is two bytes, the second one address further on and wrapping from
the top to zero; a word at a byte-wide address is the one byte there, with a high byte of zero.
-/

namespace TeachingCpu

structure Bus where
  bytes : AddressMap Byte
  byteWide : Address → Bool

namespace Bus

def byte (bus : Bus) (a : Address) : Byte := bus.bytes.get a

def wordAt (bus : Bus) (a : Address) : Word :=
  if bus.byteWide a then (bus.byte a).toUInt16 else word (bus.byte a) (bus.byte (a + 1))

def setByte (bus : Bus) (a : Address) (b : Byte) : Bus :=
  { bus with bytes := bus.bytes.set a b }

/-- Writes a word; a byte-wide address takes its low byte only. -/
def setWord (bus : Bus) (a : Address) (w : Word) : Bus :=
  if bus.byteWide a then bus.setByte a (lowByte w)
  else (bus.setByte a (highByte w)).setByte (a + 1) (lowByte w)

def plain (bytes : AddressMap Byte) : Bus := ⟨bytes, fun _ => false⟩

theorem byte_setByte (bus : Bus) (a b : Address) (x : Byte) :
    (bus.setByte a x).byte b = if a = b then x else bus.byte b := by
  simp [byte, setByte, AddressMap.get_set]

@[simp] theorem byteWide_setByte (bus : Bus) (a : Address) (x : Byte) :
    (bus.setByte a x).byteWide = bus.byteWide := rfl

end Bus

end TeachingCpu
