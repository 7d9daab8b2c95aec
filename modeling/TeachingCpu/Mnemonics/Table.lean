import TeachingCpu.Instruction

/-!
The mnemonic table: one row for every address. A row either begins an instruction and holds its
text, or lies inside an instruction and names the row where that one begins. Storing an
instruction changes its own rows and no others, clipped at the top of the address space.
-/

namespace TeachingCpu

inductive Row where
  | start (text : String)
  | inside (start : Address)
  deriving DecidableEq, Repr

structure Table where
  rows : AddressMap Row
  lastRow : Address

namespace Table

/-- The table before any pass: every row begins an instruction without a text. -/
def blank : Table := ⟨AddressMap.fill (.start ""), 0⟩

def row (t : Table) (a : Address) : Row := t.rows.get a

def text (t : Table) (a : Address) : String :=
  match t.row a with
  | .start text => text
  | .inside _ => ""

def isInside (t : Table) (a : Address) : Bool :=
  match t.row a with
  | .start _ => false
  | .inside _ => true

def instructionStart (t : Table) (a : Address) : Address :=
  match t.row a with
  | .start _ => a
  | .inside start => start

def holds (t : Table) (a : Address) (text : String) : Bool :=
  match t.row a with
  | .start old => old == text
  | .inside _ => false

theorem holds_iff (t : Table) (a : Address) (text : String) :
    t.holds a text = true ↔ t.row a = .start text := by
  unfold holds
  split <;> simp_all

def reach (t : Table) (a : Address) : Table := { t with lastRow := a }

@[simp] theorem row_reach (t : Table) (a b : Address) : (t.reach a).row b = t.row b := rfl

@[simp] theorem holds_reach (t : Table) (a b : Address) (text : String) :
    (t.reach a).holds b text = t.holds b text := rfl

def instructions (t : Table) (first last : Address) : List (Address × String) :=
  (List.range' first.toNat (last.toNat + 1 - first.toNat)).filterMap fun n =>
    match t.row (UInt16.ofNat n) with
    | .start text => some (UInt16.ofNat n, text)
    | .inside _ => none

def cover (rows : AddressMap Row) (a : Address) : Nat → AddressMap Row
  | 0 => rows
  | n + 1 => cover (rows.set (a + UInt16.ofNat (n + 1)) (.inside a)) a n

theorem get_cover (rows : AddressMap Row) (a b : Address) (n : Nat)
    (fits : a.toNat + n < 65536) :
    (cover rows a n).get b =
      if a.toNat < b.toNat ∧ b.toNat ≤ a.toNat + n then .inside a else rows.get b := by
  induction n generalizing rows with
  | zero =>
    rw [cover, if_neg (by omega)]
  | succ n ih =>
    have above : (a + UInt16.ofNat (n + 1)).toNat = a.toNat + (n + 1) := by
      simp only [UInt16.toNat_add, UInt16.toNat_ofNat']
      omega
    rw [cover, ih _ (by omega), AddressMap.get_set]
    simp only [← UInt16.toNat_inj, above]
    by_cases inner : a.toNat < b.toNat ∧ b.toNat ≤ a.toNat + n
    · rw [if_pos inner, if_pos (by omega)]
    · rw [if_neg inner]
      by_cases top : a.toNat + (n + 1) = b.toNat
      · rw [if_pos top, if_pos (by omega)]
      · rw [if_neg top, if_neg (by omega)]

def put (t : Table) (a : Address) (line : Line) : Table :=
  { t with
    rows := cover (t.rows.set a (.start line.text)) a
      (min (line.size - 1) (65536 - 1 - a.toNat)) }

theorem row_put (t : Table) (a b : Address) (line : Line) :
    (t.put a line).row b =
      if a = b then .start line.text
      else if a.toNat < b.toNat ∧ b.toNat < a.toNat + line.size then .inside a
      else t.row b := by
  have ha := a.toNat_lt
  have hb := b.toNat_lt
  simp only [row, put]
  rw [get_cover _ _ _ _ (by omega), AddressMap.get_set]
  by_cases same : a = b
  · rw [if_pos same, if_pos same, if_neg (by rw [same]; omega)]
  · rw [if_neg same, if_neg same]
    congr 1
    simp only [eq_iff_iff]
    omega

end Table

end TeachingCpu
