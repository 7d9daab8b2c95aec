import TeachingCpu.Machine

/-!
A listing of the instructions in memory, one line for each: its address, its bytes and its text.
The instruction at the top of memory can show bytes from the lowest addresses.
-/

namespace TeachingCpu

structure ListingLine where
  address : Address
  bytes : List Byte
  text : String
  deriving DecidableEq, Repr

namespace ListingLine

def padRight (width : Nat) (s : String) : String := s.pushn ' ' (width - s.length)

/-- The columns of a line; the widest instruction leaves one of the eighteen places for bytes
free. -/
def columns (line : ListingLine) : String :=
  Numeral.hexWord line.address ++ ": " ++
    padRight 18 (" ".intercalate (line.bytes.map Numeral.hexByte)) ++ " " ++ line.text

end ListingLine

namespace Machine

def instructionBytes (m : Machine) (a : Address) : List Byte :=
  (List.range (m.bus.disassemble a).size).map fun n => m.bus.byte (a + UInt16.ofNat n)

/-- At most `count` lines, from the first instruction that begins at `start` or above. -/
def listing (m : Machine) (start : Address) (count : Nat) : List ListingLine :=
  ((m.table.instructions start 65535).take count).map fun (a, text) =>
    ⟨a, m.instructionBytes a, text⟩

end Machine

end TeachingCpu
