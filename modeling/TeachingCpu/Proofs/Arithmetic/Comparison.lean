import TeachingCpu.Proofs.Arithmetic.Exact

/-!
Comparing and branching. A comparison leaves flags from which the conditional branches tell how the
two words are related, as unsigned or as signed numbers. The signed conditions put the overflow
right where the sign alone is wrong, so they fail where the overflow goes unnoticed: when zero is
compared with the lowest number, each of the four says the opposite.
-/

namespace TeachingCpu

namespace Condition

/-- The relation between the words of a comparison that a branch is named for. -/
def relation? : Condition → Option (Word → Word → Prop)
  | beq => some fun s d => s = d
  | bne => some fun s d => s ≠ d
  | blt => some fun s d => signed s < signed d
  | ble => some fun s d => signed s ≤ signed d
  | bgt => some fun s d => signed s > signed d
  | bge => some fun s d => signed s ≥ signed d
  | bcs => some fun s d => unsigned s < unsigned d
  | bls => some fun s d => unsigned s ≤ unsigned d
  | bhi => some fun s d => unsigned s > unsigned d
  | bcc => some fun s d => unsigned s ≥ unsigned d
  | _ => none

def isSigned : Condition → Bool
  | blt | ble | bgt | bge => true
  | _ => false

end Condition

section Flags

variable {s d w : Word} {f : Flags}
  (h : Leaves (unsigned s - unsigned d) (signed s - signed d) (s = 0 ∧ d = 32768) w f)

include h

theorem zero_iff_of_comparison : f.zero = true ↔ s = d := by
  have first := unsigned_bounds s
  have second := unsigned_bounds d
  have number : unsigned 0 = 0 := rfl
  have result := h.result
  rw [h.zero, eq_iff_unsigned, eq_iff_unsigned, number]
  omega

theorem carry_iff_of_comparison : f.carry = true ↔ unsigned s < unsigned d := by
  have first := unsigned_bounds s
  have second := unsigned_bounds d
  rw [h.carry]
  omega

theorem sign_iff_of_comparison :
    f.negative = f.overflow ↔ (signed d ≤ signed s ↔ ¬(s = 0 ∧ d = 32768)) := by
  have first := signed_bounds s
  have second := signed_bounds d
  have result : unsigned w = (signed s - signed d) % 65536 := by
    rw [h.result, unsigned_eq, unsigned_eq]
    omega
  rw [Bool.eq_iff_iff, h.negative_iff, h.overflow, eq_zero_iff, eq_lowest_iff]
  omega

theorem holds_iff_of_unsigned {c : Condition} {relation : Word → Word → Prop}
    (named : c.relation? = some relation) (kind : c.isSigned = false) :
    c.holds f = true ↔ relation s d := by
  have equal := zero_iff_of_comparison h
  have zero : f.zero = true ↔ unsigned s = unsigned d := equal.trans (eq_iff_unsigned s d)
  have carry := carry_iff_of_comparison h
  cases c <;> cases named
  case beq => exact equal
  case bne => simp only [Condition.holds, Bool.not_eq_true', ← Bool.not_eq_true, equal, ne_eq]
  case bcs => exact carry
  case bcc =>
    simp only [Condition.holds, Bool.not_eq_true', ← Bool.not_eq_true, carry]
    omega
  case bls =>
    simp only [Condition.holds, Bool.or_eq_true, carry, zero]
    omega
  case bhi =>
    simp only [Condition.holds, Bool.and_eq_true, Bool.not_eq_true', ← Bool.not_eq_true, carry,
      zero]
    omega
  all_goals contradiction

theorem holds_iff_of_signed {c : Condition} {relation : Word → Word → Prop}
    (named : c.relation? = some relation) (kind : c.isSigned = true) :
    c.holds f = true ↔ (relation s d ↔ ¬(s = 0 ∧ d = 32768)) := by
  have zero : f.zero = true ↔ signed s = signed d :=
    (zero_iff_of_comparison h).trans signed_inj.symm
  have sign := sign_iff_of_comparison h
  rw [eq_zero_iff, eq_lowest_iff] at sign ⊢
  cases c <;> cases named
  case blt =>
    simp only [Condition.holds, bne_iff_ne, ne_eq, sign]
    omega
  case ble =>
    simp only [Condition.holds, Bool.or_eq_true, bne_iff_ne, ne_eq, sign, zero]
    omega
  case bgt =>
    simp only [Condition.holds, Bool.and_eq_true, beq_iff_eq, sign, Bool.not_eq_true',
      ← Bool.not_eq_true, zero]
    omega
  case bge => simp only [Condition.holds, beq_iff_eq, sign, ge_iff_le]
  all_goals contradiction

end Flags

namespace Machine

theorem leaves_comparison {m : Machine} {source destination : Operand} {p : Processor}
    (fetches : m.processor.fetch = (some (.binary .cmp source destination), p)) {s d : Word}
    (first : p.operandWord source = s)
    (second : (p.afterRead source).operandWord destination = d) :
    ∃ w, Leaves (unsigned s - unsigned d) (signed s - signed d) (s = 0 ∧ d = 32768) w
      m.stepOver.2.flags := by
  subst first second
  obtain ⟨-, w, leaves, -⟩ :=
    Instruction.leaves_execute (p := p) (i := .binary .cmp source destination) rfl rfl
  rw [← Processor.step_of_fetch fetches] at leaves
  exact ⟨w, leaves⟩

theorem stepOver_branch {n : Machine} {c : Condition} {offset : Byte} {q : Processor}
    (fetches : n.processor.fetch = (some (.branch c offset), q)) :
    n.stepOver.1 = .ok ∧
      n.stepOver.2.pc = if c.holds n.flags then n.pc + 2 + signExtend offset else n.pc + 2 := by
  obtain ⟨-, current, rfl⟩ := Processor.fetched_of_fetch fetches
  have place : n.processor.fetched.pc = n.pc + 2 := by
    rw [Processor.fetched, current]
    exact Processor.pc_setPc _ _
  have step := Processor.step_of_fetch fetches
  refine ⟨congrArg Prod.fst step, (congrArg (·.2.pc) step).trans ?_⟩
  have flags : n.processor.fetched.flags = n.flags := rfl
  simp only [Processor.execute, Processor.branch, flags, place]
  split
  · exact Processor.pc_setPc _ _
  · exact place

/-- A branch on the flags of a comparison is taken exactly if its relation holds between the words
compared. Only when zero is compared with the lowest number, the signed branches do the opposite. -/
theorem comparison_decides_branch {m n : Machine} {source destination : Operand} {c : Condition}
    {offset : Byte} {p q : Processor} {relation : Word → Word → Prop}
    (compares : m.processor.fetch = (some (.binary .cmp source destination), p))
    (branches : n.processor.fetch = (some (.branch c offset), q))
    (flags : n.flags = m.stepOver.2.flags) (named : c.relation? = some relation) {s d : Word}
    (first : p.operandWord source = s)
    (second : (p.afterRead source).operandWord destination = d) :
    (c.isSigned = false ∨ ¬(s = 0 ∧ d = 32768) → (c.holds n.flags = true ↔ relation s d)) ∧
      (c.isSigned = true ∧ s = 0 ∧ d = 32768 → (c.holds n.flags = true ↔ ¬relation s d)) ∧
      n.stepOver.1 = .ok ∧
      n.stepOver.2.pc = if c.holds n.flags then n.pc + 2 + signExtend offset else n.pc + 2 := by
  obtain ⟨w, leaves⟩ := leaves_comparison compares first second
  rw [← flags] at leaves
  refine ⟨fun ordinary => ?_, fun ⟨kind, lowest⟩ => ?_, stepOver_branch branches⟩
  · cases kind : c.isSigned with
    | false => exact holds_iff_of_unsigned leaves named kind
    | true =>
      have other : ¬(s = 0 ∧ d = 32768) := ordinary.resolve_left (by simp [kind])
      rw [holds_iff_of_signed leaves named kind, iff_true_right other]
  · rw [holds_iff_of_signed leaves named kind, iff_false_right (not_not_intro lowest)]

theorem stepOver_comparing (s d : Word) :
    (comparing s d).stepOver.2.bus = (comparing s d).bus ∧ (comparing s d).stepOver.2.pc = 2 := by
  have step := Processor.step_of_fetch (fetch_comparing s d)
  obtain ⟨-, current, -⟩ := Processor.fetched_of_fetch (fetch_comparing s d)
  constructor
  · refine (congrArg (·.2.memory.bus) step).trans ?_
    exact ((comparing s d).processor.fetched.puts_binary .cmp ⟨.register, 1⟩ ⟨.register, 0⟩).2
  · refine (congrArg (·.2.pc) step).trans ?_
    refine (Processor.pc_execute _ (i := .binary .cmp ⟨.register, 1⟩ ⟨.register, 0⟩) (by decide)
      (Or.inl rfl)).trans ?_
    rw [Processor.fetched, current, Processor.pc_setPc]
    rfl

theorem fetch_branch_comparing (s d : Word) : (comparing s d).stepOver.2.processor.fetch =
    (some (.branch .blt 2), (comparing s d).stepOver.2.processor.fetched) := by
  obtain ⟨bus, pc⟩ := stepOver_comparing s d
  have byte (a : Address) := (congrArg (·.byte a) bus).trans (byte_comparing s d a)
  exact fetch_of_bytes pc (byte 2) (byte 3) (by decide)

/-- One less than zero is less than one, though not as an unsigned number. -/
theorem comparison_decides_branch_of_minusOne :
    signed 0xFFFF < signed 1 ∧ (comparing 0xFFFF 1).stepOver.2.stepOver.2.pc = 6 := by
  obtain ⟨first, second⟩ := operandWord_comparing 0xFFFF 1
  obtain ⟨ordinary, -, -, goes⟩ := comparison_decides_branch (fetch_comparing 0xFFFF 1)
    (fetch_branch_comparing 0xFFFF 1) rfl rfl first second
  have less : Condition.blt.holds (comparing 0xFFFF 1).stepOver.2.flags = true :=
    (ordinary (.inr (by decide))).mpr (by decide)
  refine ⟨by decide, ?_⟩
  rw [goes, if_pos less, (stepOver_comparing 0xFFFF 1).2]
  rfl

/-- Zero is not less than the lowest number, but the branch for less is taken. -/
theorem branch_misled_by_lowest :
    (comparing 0 32768).processor.fetch =
        (some (.binary .cmp ⟨.register, 1⟩ ⟨.register, 0⟩), (comparing 0 32768).processor.fetched) ∧
      (comparing 0 32768).processor.fetched.operandWord ⟨.register, 1⟩ = 0 ∧
      ((comparing 0 32768).processor.fetched.afterRead ⟨.register, 1⟩).operandWord
        ⟨.register, 0⟩ = 32768 ∧
      (comparing 0 32768).stepOver.2.processor.fetch =
        (some (.branch .blt 2), (comparing 0 32768).stepOver.2.processor.fetched) ∧
      ¬signed 0 < signed 32768 ∧
      (comparing 0 32768).stepOver.2.pc = 2 ∧
      (comparing 0 32768).stepOver.2.stepOver.2.pc = 6 := by
  obtain ⟨first, second⟩ := operandWord_comparing 0 32768
  obtain ⟨w, leaves⟩ := leaves_comparison (fetch_comparing 0 32768) first second
  have taken : Condition.blt.holds (comparing 0 32768).stepOver.2.flags = true :=
    (holds_iff_of_signed leaves rfl rfl).mpr (by decide)
  have goes := (stepOver_branch (fetch_branch_comparing 0 32768)).2
  have next := (stepOver_comparing 0 32768).2
  refine ⟨fetch_comparing 0 32768, first, second, fetch_branch_comparing 0 32768, by decide, next,
    ?_⟩
  rw [goes, if_pos taken, next]
  rfl

end Machine

end TeachingCpu
