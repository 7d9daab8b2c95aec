import TeachingCpu.Proofs.Mnemonics.Pass

/-!
The rows of a table always divide the address space among instructions. This needs no agreement
between table and bus: the bytes may change in any way between the passes, and each pass may start
anywhere. What a row says about the size of its instruction is what some bus said when the row was
stored, and the text of the row is enough to tell it.
-/

namespace TeachingCpu.Table

inductive Pass where
  | refresh (start : Address) (full : Bool)
  | resync (a : Address)
  deriving DecidableEq, Repr

def Pass.apply (pass : Pass) (bus : Bus) (t : Table) : Table :=
  match pass with
  | refresh start full => (t.refresh bus start full).2
  | resync a => (t.resync bus a).2

def replay (calls : List (Bus × Pass)) : Table :=
  calls.foldl (fun t call => call.2.apply call.1 t) blank

/-- The `n` rows above row `a` lie inside its instruction, and the one above them does not. -/
structure FollowedBy (t : Table) (a : Address) (n : Nat) : Prop where
  inside : ∀ b : Address, a.toNat < b.toNat → b.toNat ≤ a.toNat + n → t.row b = .inside a
  ends : ∀ b : Address, b.toNat = a.toNat + n + 1 → t.isInside b = false

structure Partitions (t : Table) (calls : List (Bus × Pass)) : Prop where
  first : ∃ text, t.row 0 = .start text
  inside : ∀ a s : Address, t.row a = .inside s →
    s < a ∧ a.toNat ≤ s.toNat + 5 ∧ (∃ text, t.row s = .start text) ∧
      ∀ b, s < b → b < a → t.row b = .inside s
  disassembled : ∀ (r : Address) (text : String), t.row r = .start text → text ≠ "" →
    ∃ call ∈ calls, (call.1.disassemble r).text = text
  sized : ∀ (r : Address) (text : String), t.row r = .start text → text ≠ "" →
    ∀ (bus : Bus) (a : Address), (bus.disassemble a).text = text →
      t.FollowedBy r (min (bus.disassemble a).size (65536 - r.toNat) - 1)

/-- The line of a row that no pass has reached, or one that some pass has found there. -/
def Replayed (calls : List (Bus × Pass)) (a : Address) (line : Line) : Prop :=
  line = ⟨1, ""⟩ ∨ ∃ call ∈ calls, line = call.1.disassemble a

theorem admits_replayed {calls : List (Bus × Pass)} {call : Bus × Pass} (member : call ∈ calls) :
    Admits (Replayed calls) call.1 where
  fresh a := .inr ⟨call, member, rfl⟩
  current a line fine same := by
    rcases fine with rfl | ⟨old, _, rfl⟩
    · exact absurd same.symm (call.1.text_disassemble_ne_empty a)
    · exact Bus.disassemble_eq_of_text_eq same
  size_le a line fine := by
    rcases fine with rfl | ⟨old, _, rfl⟩
    · simp [Instruction.maxSize]
    · exact old.1.disassemble_size_le a

theorem tiled_apply {t : Table} {good : Address → Line → Prop} {bus : Bus} (pass : Pass)
    (tiled : t.Tiled good 0) (admits : Admits good bus) : (pass.apply bus t).Tiled good 0 := by
  cases pass with
  | refresh start full =>
    exact (tiled_refresh tiled admits start full).mono fun _ _ _ _ fine => fine.1
  | resync a => exact (tiled_resync tiled admits a).mono fun _ _ _ _ fine => fine.1

theorem tiled_blank (n : Nat) : blank.Tiled (fun _ line => line = ⟨1, ""⟩) n := by
  by_cases small : n < 65536
  · have here : (UInt16.ofNat n).toNat = n := UInt16.toNat_ofNat_of_lt' small
    have alone : blank.Owns (UInt16.ofNat n) ⟨1, ""⟩ := by
      refine ⟨Nat.one_pos, AddressMap.get_fill _ _, ?_⟩
      intro b above below
      simp only at below
      omega
    exact .next here alone rfl (tiled_blank (n + 1))
  · exact .top (by omega)
termination_by 65536 - n

theorem tiled_foldl_apply {good : Address → Line → Prop} (calls : List (Bus × Pass)) (t : Table)
    (tiled : t.Tiled good 0) (admits : ∀ call ∈ calls, Admits good call.1) :
    (calls.foldl (fun t call => call.2.apply call.1 t) t).Tiled good 0 := by
  induction calls generalizing t with
  | nil => exact tiled
  | cons call calls ih =>
    rw [List.foldl_cons]
    apply ih
    · exact tiled_apply call.2 tiled (admits call List.mem_cons_self)
    · exact fun later member => admits later (List.mem_cons_of_mem _ member)

theorem tiled_replay (calls : List (Bus × Pass)) : (replay calls).Tiled (Replayed calls) 0 := by
  apply tiled_foldl_apply calls blank
  · exact (tiled_blank 0).mono fun _ _ _ _ same => .inl same
  · exact fun call member => admits_replayed member

namespace Tiled

variable {t : Table} {good : Address → Line → Prop}

theorem followedBy {a : Address} {line : Line} (owns : t.Owns a line)
    (rest : t.Tiled good (a.toNat + line.size)) :
    t.FollowedBy a (min line.size (65536 - a.toNat) - 1) where
  inside b above below := by
    have pos := owns.pos
    exact owns.inner b above (by omega)
  ends b here := by
    have pos := owns.pos
    have ha := a.toNat_lt
    have hb := b.toNat_lt
    have next : b.toNat = a.toNat + line.size := by omega
    rw [← next] at rest
    obtain ⟨line, owns, _⟩ := rest.head
    rw [isInside, owns.begins]

theorem exists_line {a : Address} {text : String} (h : t.Tiled good 0)
    (begins : t.row a = .start text) :
    ∃ line, line.text = text ∧ good a line ∧
      t.FollowedBy a (min line.size (65536 - a.toNat) - 1) := by
  obtain ⟨line, owns, fine, rest⟩ := (h.from_begin (Nat.zero_le _) begins).head
  exact ⟨line, Row.start.inj (owns.begins.symm.trans begins), fine, followedBy owns rest⟩

end Tiled

theorem partitions_replay (calls : List (Bus × Pass)) : (replay calls).Partitions calls := by
  have tiled := tiled_replay calls
  constructor
  case first =>
    obtain ⟨line, owns, _⟩ := Tiled.head (a := 0) tiled
    exact ⟨line.text, owns.begins⟩
  case inside =>
    intro a s row
    obtain ⟨c, line, owns, fine, _, low, high⟩ := tiled.exists_owner a (Nat.zero_le _)
    have owner := owns.instructionStart_eq low high
    rw [instructionStart, row] at owner
    obtain rfl : s = c := owner
    have size : line.size ≤ 6 := by
      rcases fine with rfl | ⟨call, _, rfl⟩
      · decide
      · exact call.1.disassemble_size_le s
    have above : s.toNat ≠ a.toNat := by
      intro same
      obtain rfl : s = a := UInt16.toNat_inj.mp same
      rw [owns.begins] at row
      contradiction
    refine ⟨UInt16.lt_iff_toNat_lt.mpr (by omega), by omega, ⟨_, owns.begins⟩, ?_⟩
    intro b low' high'
    rw [UInt16.lt_iff_toNat_lt] at low' high'
    exact owns.inner b low' (by omega)
  case disassembled =>
    intro r text row nonempty
    obtain ⟨line, same, fine, _⟩ := tiled.exists_line row
    rcases fine with rfl | ⟨call, member, rfl⟩
    · exact absurd same.symm nonempty
    · exact ⟨call, member, same⟩
  case sized =>
    intro r text row nonempty bus a other
    obtain ⟨line, same, fine, follows⟩ := tiled.exists_line row
    rcases fine with rfl | ⟨call, member, rfl⟩
    · exact absurd same.symm nonempty
    · rwa [Bus.disassemble_eq_of_text_eq (same.trans other.symm)] at follows

end TeachingCpu.Table
