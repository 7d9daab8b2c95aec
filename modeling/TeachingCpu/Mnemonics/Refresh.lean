import TeachingCpu.Mnemonics.Table

/-!
Bringing the mnemonic table up to date with the contents of a bus. A pass starts at the
instruction that owns a row and goes from instruction to instruction towards the top. A full pass
stores every instruction on its way; any other pass ends at the first row that already begins an
instruction with the right text, because the rows from there on agree with the bus as they are.

An instruction near the top takes its last bytes from the lowest addresses, so a write there also
concerns the rows at the top.
-/

namespace TeachingCpu.Table

/-- The rest of a pass, from the row with this number on: the last row that the pass has reached,
which is `last` as long as it reaches no other, and the table. -/
def refreshFrom (t : Table) (bus : Bus) (full : Bool) (last : Address) (n : Nat) :
    Address × Table :=
  if n < 65536 then
    let a := UInt16.ofNat n
    let line := bus.disassemble a
    if !full && t.holds a line.text then (a, t)
    else (t.put a line).refreshFrom bus full a (n + line.size)
  else (last, t)
termination_by 65536 - n
decreasing_by
  have := bus.disassemble_size_pos (UInt16.ofNat n)
  omega

theorem refreshFrom_top (t : Table) (bus : Bus) (full : Bool) (last : Address) {n : Nat}
    (h : 65536 ≤ n) : t.refreshFrom bus full last n = (last, t) := by
  rw [refreshFrom, if_neg (by omega)]

theorem refreshFrom_next (t : Table) (bus : Bus) (full : Bool) (last : Address) {n : Nat}
    (h : n < 65536)
    (differs : full = true ∨
      t.row (UInt16.ofNat n) ≠ .start (bus.disassemble (UInt16.ofNat n)).text) :
    t.refreshFrom bus full last n =
      (t.put (UInt16.ofNat n) (bus.disassemble (UInt16.ofNat n))).refreshFrom bus full
        (UInt16.ofNat n) (n + (bus.disassemble (UInt16.ofNat n)).size) := by
  rw [refreshFrom, if_pos h]
  refine if_neg ?_
  simp only [Bool.and_eq_true, Bool.not_eq_true', holds_iff]
  rintro ⟨partly, same⟩
  rcases differs with differs | differs
  · rw [partly] at differs
    contradiction
  · exact differs same

/-- Makes a pass from the instruction that owns row `start`. Returns the last row that it reached,
which the table notes as well. -/
def refresh (t : Table) (bus : Bus) (start : Address) (full : Bool) : Address × Table :=
  let first := t.instructionStart start
  let pass := t.refreshFrom bus full first first.toNat
  (pass.1, pass.2.reach pass.1)

theorem row_refresh (t : Table) (bus : Bus) (start : Address) (full : Bool) (b : Address) :
    (t.refresh bus start full).2.row b =
      (t.refreshFrom bus full (t.instructionStart start)
        (t.instructionStart start).toNat).2.row b := rfl

theorem refresh_fst (t : Table) (bus : Bus) (start : Address) (full : Bool) :
    (t.refresh bus start full).1 = (t.refresh bus start full).2.lastRow := rfl

/-- The rows from which an instruction can reach past the top. -/
def topRows : List Address :=
  (List.range' (65536 - (Instruction.maxSize - 1)) (Instruction.maxSize - 1)).map UInt16.ofNat

def refreshTop (t : Table) (bus : Bus) : Table :=
  topRows.foldl (fun t a => if t.isInside a then t else (t.refresh bus a false).2) t

/-- Follows a write to one address of the bus. Returns the last row that its last pass reached. -/
def resync (t : Table) (bus : Bus) (a : Address) : Address × Table :=
  let t := if a.toNat < Instruction.maxSize - 1 then t.refreshTop bus else t
  t.refresh bus a false

theorem resync_fst (t : Table) (bus : Bus) (a : Address) :
    (t.resync bus a).1 = (t.resync bus a).2.lastRow := rfl

def resyncAll (t : Table) (bus : Bus) (written : List Address) : Table :=
  written.foldl (fun t a => (t.resync bus a).2) t

/-- The table that depends on the bus alone. -/
def ofBus (bus : Bus) : Table := (blank.refresh bus 0 true).2

end TeachingCpu.Table
