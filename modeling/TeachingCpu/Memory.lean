import TeachingCpu.Bus

/-!
The memory of the machine. The addresses from 0xFFDA up are byte-wide: they belong to the keyboard
and the display. Reads and writes are counted, one for each byte; looking at memory through its
bus is free. Each written address is remembered, last and in a log that its owner takes away.

A second copy keeps what was loaded, so that the memory can be put back. The bulk operations count
nothing, log nothing and stop at the top of the address space.
-/

namespace TeachingCpu

structure Memory where
  bytes : AddressMap Byte
  loaded : AddressMap Byte
  /-- Counts without end. The counter it stands for has 64 bits, and what comes after `2 ^ 64`
  accesses is left out. -/
  accesses : Nat
  lastChanged : Option Address
  /-- The written addresses, oldest first. -/
  written : List Address

namespace Memory

def firstByteWide : Address := 0xFFDA

def byteWide (a : Address) : Bool := firstByteWide ≤ a

def empty : Memory := ⟨AddressMap.fill 0, AddressMap.fill 0, 0, none, []⟩

def bus (m : Memory) : Bus := ⟨m.bytes, byteWide⟩

def byte (m : Memory) (a : Address) : Byte := m.bus.byte a

def wordAt (m : Memory) (a : Address) : Word := m.bus.wordAt a

def width (a : Address) : Nat := if byteWide a then 1 else 2

def count (m : Memory) (n : Nat) : Memory := { m with accesses := m.accesses + n }

def readByte (m : Memory) (a : Address) : Byte × Memory := (m.byte a, m.count 1)

def readWord (m : Memory) (a : Address) : Word × Memory := (m.wordAt a, m.count (width a))

def writeByte (m : Memory) (a : Address) (b : Byte) : Memory :=
  { m with
    bytes := m.bytes.set a b
    accesses := m.accesses + 1
    lastChanged := some a
    written := m.written ++ [a] }

def writeWord (m : Memory) (a : Address) (w : Word) : Memory :=
  if byteWide a then m.writeByte a (lowByte w)
  else (m.writeByte a (highByte w)).writeByte (a + 1) (lowByte w)

theorem bus_writeByte (m : Memory) (a : Address) (b : Byte) :
    (m.writeByte a b).bus = m.bus.setByte a b := rfl

theorem bus_writeWord (m : Memory) (a : Address) (w : Word) :
    (m.writeWord a w).bus = m.bus.setWord a w := by
  simp only [writeWord, Bus.setWord, show m.bus.byteWide a = byteWide a from rfl]
  split
  · rw [bus_writeByte]
  · rw [bus_writeByte, bus_writeByte]

theorem byte_writeByte (m : Memory) (a b : Address) (x : Byte) :
    (m.writeByte a x).byte b = if a = b then x else m.byte b := by
  simp [byte, bus_writeByte, Bus.byte_setByte]

theorem written_writeWord (m : Memory) (a : Address) (w : Word) :
    (m.writeWord a w).written = m.written ++ if byteWide a then [a] else [a, a + 1] := by
  unfold writeWord
  split <;> simp [writeByte]

theorem lastChanged_writeWord (m : Memory) (a : Address) (w : Word) :
    (m.writeWord a w).lastChanged = some (if byteWide a then a else a + 1) := by
  unfold writeWord
  split <;> rfl

theorem accesses_writeWord (m : Memory) (a : Address) (w : Word) :
    (m.writeWord a w).accesses = m.accesses + width a := by
  unfold writeWord width
  split <;> rfl

@[simp] theorem loaded_writeWord (m : Memory) (a : Address) (w : Word) :
    (m.writeWord a w).loaded = m.loaded := by
  unfold writeWord
  split <;> rfl

def takeWritten (m : Memory) : List Address × Memory := (m.written, { m with written := [] })

/-- Replaces the whole memory; addresses past the end of the bytes become zero. -/
def load (m : Memory) (source : Array Byte) : Memory :=
  let contents := AddressMap.ofArray source 0
  { m with bytes := contents, loaded := contents, written := [] }

theorem byte_load (m : Memory) (source : Array Byte) (a : Address) :
    (m.load source).byte a = source.getD a.toNat 0 := by
  simp [load, byte, Bus.byte, bus]

theorem loaded_load (m : Memory) (source : Array Byte) :
    (m.load source).loaded = (m.load source).bytes := rfl

def room (n : Nat) (target : Address) : Nat := min n (65536 - target.toNat)

def rangeSize (source : Array Byte) (start stop target : Address) : Nat :=
  room (min (stop.toNat + 1) source.size - start.toNat) target

/-- Copies the bytes numbered `start` to `stop` to `target` and upwards, and answers how many
there were. -/
def loadRange (m : Memory) (source : Array Byte) (start stop target : Address) : Nat × Memory :=
  let n := rangeSize source start stop target
  let part := fun i => source.getD (start.toNat + i) 0
  (n, { m with
    bytes := m.bytes.overlay target n part
    loaded := m.loaded.overlay target n part })

theorem byte_loadRange (m : Memory) (source : Array Byte) (start stop target a : Address) :
    (m.loadRange source start stop target).2.byte a =
      if target.toNat ≤ a.toNat ∧
          a.toNat < target.toNat + rangeSize source start stop target then
        source.getD (start.toNat + (a.toNat - target.toNat)) 0
      else m.byte a := by
  simp only [loadRange, byte, bus, Bus.byte, AddressMap.get_overlay]

theorem loaded_loadRange (m : Memory) (source : Array Byte) (start stop target a : Address) :
    (m.loadRange source start stop target).2.loaded.get a =
      if target.toNat ≤ a.toNat ∧
          a.toNat < target.toNat + rangeSize source start stop target then
        source.getD (start.toNat + (a.toNat - target.toNat)) 0
      else m.loaded.get a := by
  simp only [loadRange, AddressMap.get_overlay]

def zero (m : Memory) (start stop : Address) : Memory :=
  { m with bytes := m.bytes.overlay start (stop.toNat + 1 - start.toNat) fun _ => 0 }

theorem byte_zero (m : Memory) (start stop a : Address) :
    (m.zero start stop).byte a =
      if start.toNat ≤ a.toNat ∧ a.toNat ≤ stop.toNat then 0 else m.byte a := by
  simp only [zero, byte, bus, Bus.byte, AddressMap.get_overlay]
  congr 1
  simp only [eq_iff_iff]
  omega

/-- Copies the addresses from `start` to `stop` to `target` and upwards. Every byte that is read
is the one from before the copy, also where the two ranges overlap. -/
def copy (m : Memory) (start stop target : Address) : Memory :=
  let old := m.bytes
  let n := room (stop.toNat + 1 - start.toNat) target
  { m with bytes := old.overlay target n fun i => old.get (UInt16.ofNat (start.toNat + i)) }

theorem byte_copy (m : Memory) (start stop target a : Address) :
    (m.copy start stop target).byte a =
      if target.toNat ≤ a.toNat ∧
          a.toNat < target.toNat + room (stop.toNat + 1 - start.toNat) target then
        m.byte (UInt16.ofNat (start.toNat + (a.toNat - target.toNat)))
      else m.byte a := by
  simp only [copy, byte, bus, Bus.byte, AddressMap.get_overlay]

def restore (m : Memory) : Memory := { m with bytes := m.loaded }

theorem byte_restore (m : Memory) (a : Address) : m.restore.byte a = m.loaded.get a := rfl

end Memory

end TeachingCpu
