import TeachingCpu.Word

/-!
Numbers as text. Decimal numbers are written without padding, negative ones behind a minus sign.
Hexadecimal numbers are written in lower case with a fixed number of digits. A number that is read
may have a plus sign in front, any number of leading zeros and digits of either case, but neither
spaces nor a value above its limit.
-/

namespace TeachingCpu.Numeral

def decimal (n : Nat) : String := n.repr

def integer (i : Int) : String :=
  if i < 0 then "-" ++ decimal i.natAbs else decimal i.natAbs

def hexDigits : (width : Nat) → Nat → List Char
  | 0, _ => []
  | width + 1, n => hexDigits width (n / 16) ++ [Nat.digitChar (n % 16)]

theorem length_hexDigits (width n : Nat) : (hexDigits width n).length = width := by
  induction width generalizing n with
  | zero => rfl
  | succ width ih => simp [hexDigits, ih]

def hexByte (b : Byte) : String := String.ofList (hexDigits 2 b.toNat)

def hexWord (w : Word) : String := String.ofList (hexDigits 4 w.toNat)

def digitValue (c : Char) : Option Nat :=
  if '0' ≤ c ∧ c ≤ '9' then some (c.toNat - '0'.toNat)
  else if 'a' ≤ c ∧ c ≤ 'z' then some (c.toNat - 'a'.toNat + 10)
  else if 'A' ≤ c ∧ c ≤ 'Z' then some (c.toNat - 'A'.toNat + 10)
  else none

def digitOf (base : Nat) (c : Char) : Option Nat :=
  (digitValue c).filter (· < base)

/-- The number that digits denote, continuing from a value already read. -/
def accumulate (base : Nat) : Nat → List Char → Option Nat
  | n, [] => some n
  | n, c :: cs =>
    match digitOf base c with
    | none => none
    | some d => accumulate base (n * base + d) cs

def withoutPlus : List Char → List Char
  | '+' :: cs => cs
  | cs => cs

/-- Reads an optional plus sign and at least one digit; refuses a value above the limit. -/
def read? (base limit : Nat) (cs : List Char) : Option Nat :=
  match withoutPlus cs with
  | [] => none
  | c :: cs => (accumulate base 0 (c :: cs)).filter (· ≤ limit)

/-- Drops every leading copy of a zero followed by the given letter. -/
def dropMarks (mark : Char) : List Char → List Char
  | [] => []
  | [c] => [c]
  | c :: d :: cs => if c = '0' ∧ d = mark then dropMarks mark cs else c :: d :: cs

/-- Reads an address in hexadecimal, behind any number of `0x` and then any number of `0X`. -/
def address? (s : String) : Option Address :=
  (read? 16 65535 (dropMarks 'X' (dropMarks 'x' s.toList))).map UInt16.ofNat

def count? (s : String) : Option Nat :=
  read? 10 18446744073709551615 s.toList

end TeachingCpu.Numeral
