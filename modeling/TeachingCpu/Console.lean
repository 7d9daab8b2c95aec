import TeachingCpu.Machine

/-!
The keyboard and the display, which programs reach through the byte-wide addresses at the top of
memory. A key is handed over through a state byte and a data byte: the program clears the state
when it has taken the key, and only then is there room for the next one.
-/

namespace TeachingCpu.Console

def keyState : Address := 0xFFDA

def keyInput : Address := 0xFFDB

def keyReady : Byte := 0x80

def displayStart : Address := 0xFFDC

def displayCells : Nat := 36

def pressKey (m : Machine) (key : Byte) : Bool × Machine :=
  if m.bus.byte keyState = 0 then (true, (m.setByte keyInput key).setByte keyState keyReady)
  else (false, m)

theorem pressKey_waiting (m : Machine) (key : Byte) (h : m.bus.byte keyState ≠ 0) :
    pressKey m key = (false, m) := if_neg h

theorem pressKey_free (m : Machine) (key : Byte) (h : m.bus.byte keyState = 0) :
    pressKey m key = (true, (m.setByte keyInput key).setByte keyState keyReady) := if_pos h

def glyph (b : Byte) : Char :=
  if 0x20 ≤ b ∧ b < 0x7F then Char.ofNat b.toNat else ' '

def displayText (m : Machine) : String :=
  String.ofList ((List.range displayCells).map fun n =>
    glyph (m.bus.byte (displayStart + UInt16.ofNat n)))

end TeachingCpu.Console
