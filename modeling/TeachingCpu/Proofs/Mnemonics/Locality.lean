import TeachingCpu.Proofs.Instruction.Reach
import TeachingCpu.Proofs.Mnemonics.Effect
import TeachingCpu.Proofs.Mnemonics.Resync

/-!
What the table owes to disassembly being local. A line depends on no more bytes than it has, so the
rows of an instruction stay as they are when other bytes are written, as long as the instruction
still begins there. A line has at least one byte, so every pass gets further with each of its turns
and ends; which rows it has looked at by then is settled.
-/

namespace TeachingCpu

namespace Table

inductive Turns (bus : Bus) (full : Bool) : Table → Nat → List Address → Table → Prop
  | top {t : Table} {n : Nat} (h : 65536 ≤ n) : Turns bus full t n [] t
  | last {t : Table} {n : Nat} {a : Address} (here : a.toNat = n)
      (ends : t.endsAt bus full a = true) : Turns bus full t n [a] (t.reach a)
  | next {t u : Table} {n : Nat} {a : Address} {rows : List Address} (here : a.toNat = n)
      (goes : t.endsAt bus full a = false)
      (rest : Turns bus full ((t.reach a).put a (bus.disassemble a))
        (n + (bus.disassemble a).size) rows u) : Turns bus full t n (a :: rows) u

section Turns

variable {t u v : Table} {bus : Bus} {full : Bool} {n : Nat} {rows others : List Address}

theorem exists_turns_of_reach (t : Table) (bus : Bus) (full : Bool) (last : Address) (n : Nat) :
    ∃ rows, Turns bus full (t.reach last) n rows ((t.refreshFrom bus full last n).2.reach
      (t.refreshFrom bus full last n).1) := by
  fun_induction refreshFrom t bus full last n with
  | case1 t last n h a line stop =>
    exact ⟨[a], .last (t := t.reach last) (UInt16.toNat_ofNat_of_lt' h) stop⟩
  | case2 t last n h a line goes ih =>
    obtain ⟨rows, rest⟩ := ih
    exact ⟨a :: rows, .next (t := t.reach last) (UInt16.toNat_ofNat_of_lt' h)
      (Bool.eq_false_iff.mpr goes) rest⟩
  | case3 t last n h => exact ⟨[], .top (by omega)⟩

theorem Turns.of_reach {a b : Address} (h : Turns bus full (t.reach b) a.toNat rows u) :
    Turns bus full t a.toNat rows u := by
  cases h with
  | top top =>
    have below := a.toNat_lt
    omega
  | last here ends => exact .last here ends
  | next here goes rest => exact .next here goes rest

theorem exists_turns (t : Table) (bus : Bus) (start : Address) (full : Bool) :
    ∃ rows, Turns bus full t (t.instructionStart start).toNat rows
      (t.refresh bus start full).2 := by
  obtain ⟨rows, turns⟩ := t.exists_turns_of_reach bus full (t.instructionStart start)
    (t.instructionStart start).toNat
  exact ⟨rows, turns.of_reach⟩

theorem Turns.length_le (h : Turns bus full t n rows u) : rows.length ≤ 65536 - n := by
  -- each instruction has a byte, so the next turn is on a higher row
  induction h with
  | top h => exact Nat.zero_le _
  | @last t n a here ends =>
    have below := a.toNat_lt
    rw [List.length_singleton]
    omega
  | @next t u n a rows here goes rest ih =>
    have below := a.toNat_lt
    have pos := bus.disassemble_size_pos a
    rw [List.length_cons]
    omega

theorem Turns.unique (h : Turns bus full t n rows u) (h' : Turns bus full t n others v) :
    others = rows ∧ v = u := by
  induction h generalizing others v with
  | top h =>
    cases h' with
    | top => exact ⟨rfl, rfl⟩
    | @last _ _ b there | @next _ _ _ b _ there =>
      have below := b.toNat_lt
      omega
  | @last t n a here ends =>
    cases h' with
    | top top =>
      have below := a.toNat_lt
      omega
    | last there =>
      obtain rfl := UInt16.toNat_inj.mp (here.trans there.symm)
      exact ⟨rfl, rfl⟩
    | next there goes =>
      obtain rfl := UInt16.toNat_inj.mp (here.trans there.symm)
      rw [ends] at goes
      contradiction
  | @next t u n a rows here goes rest ih =>
    cases h' with
    | top top =>
      have below := a.toNat_lt
      omega
    | last there ends =>
      obtain rfl := UInt16.toNat_inj.mp (here.trans there.symm)
      rw [ends] at goes
      contradiction
    | next there _ rest' =>
      obtain rfl := UInt16.toNat_inj.mp (here.trans there.symm)
      obtain ⟨rfl, rfl⟩ := ih rest'
      exact ⟨rfl, rfl⟩

theorem refresh_ends (t : Table) (bus : Bus) (start : Address) (full : Bool) :
    ∃ rows, rows.length ≤ 65536 - (t.instructionStart start).toNat ∧
      ∀ others u, Turns bus full t (t.instructionStart start).toNat others u ↔
        others = rows ∧ u = (t.refresh bus start full).2 := by
  obtain ⟨rows, turns⟩ := t.exists_turns bus start full
  refine ⟨rows, turns.length_le, fun others u => ⟨turns.unique, ?_⟩⟩
  rintro ⟨rfl, rfl⟩
  exact turns

end Turns

section Rows

variable {t u : Table} {good : Address → Line → Prop} {b c : Bus} {a r : Address}

theorem Tiled.owns_of_not_isInside (tiled : t.Tiled good 0) (begins : t.isInside a = false) :
    ∃ line, t.Owns a line ∧ good a line := by
  cases stored : t.row a with
  | start text =>
    obtain ⟨line, owns, fine, _⟩ := (tiled.from_begin (Nat.zero_le _) stored).head
    exact ⟨line, owns, fine⟩
  | inside s => simp [isInside, stored] at begins

theorem row_eq_of_disassemble_eq (tiled : t.Tiled (Fresh b) 0) (tiled' : u.Tiled (Fresh c) 0)
    (same : c.disassemble a = b.disassemble a) (begins : t.isInside a = false)
    (begins' : u.isInside a = false) (above : a ≤ r)
    (inside : r.toNat < a.toNat + (b.disassemble a).size) : u.row r = t.row r := by
  obtain ⟨_, owns, rfl⟩ := tiled.owns_of_not_isInside begins
  obtain ⟨_, owns', rfl⟩ := tiled'.owns_of_not_isInside begins'
  rw [same] at owns'
  exact owns'.row_eq owns (UInt16.le_iff_toNat_le.mp above) inside

/-- Following a write leaves the rows of an instruction alone that has no byte there, as long as it
still begins where it did. -/
theorem row_resync_of_not_spans {d : Address} {x : Byte} (current : t.rows = (ofBus b).rows)
    (outside : ¬Spans a (b.disassemble a).size d) (begins : t.isInside a = false)
    (begins' : (t.resync (b.setByte d x) d).2.isInside a = false) (above : a ≤ r)
    (inside : r.toNat < a.toNat + (b.disassemble a).size) :
    (t.resync (b.setByte d x) d).2.row r = t.row r := by
  have tiled := (rows_eq_ofBus_iff t b).mp current
  have rule := (b.byteWide_setByte d x).symm
  have followed : (t.resyncAll (b.setByte d x) [d]).Tiled (Fresh (b.setByte d x)) 0 := by
    refine tiled_resyncAll_of_fresh tiled rule fun e changed => ?_
    rw [Bus.byte_setByte] at changed
    split at changed
    · next same => exact List.mem_singleton.mpr same.symm
    · contradiction
  exact row_eq_of_disassemble_eq tiled followed (Bus.disassemble_setByte outside x) begins begins'
    above inside

end Rows

end Table

namespace Bus

/-- Disassembly is local: a line has one to six bytes, and none but the bytes from its address on,
counted around the top, have a part in it. So a write elsewhere leaves the line alone, and in a
table that follows the write also the rows of the instruction, as long as it begins there. From
above, an address is reached only if it is one of the lowest five and only by the rows that are as
near to the top as is said here, and each of these can reach it. Every pass takes as many turns as
there are rows left at most, and then it has ended. -/
theorem disassembly_is_local (bus : Bus) (a : Address) :
    let line := bus.disassemble a
    (1 ≤ line.size ∧ line.size ≤ Instruction.maxSize) ∧
      (∀ c : Bus, c.byteWide = bus.byteWide →
        (∀ i < line.size, c.byte (a + UInt16.ofNat i) = bus.byte (a + UInt16.ofNat i)) →
        c.disassemble a = line) ∧
      (∀ d, ¬Spans a line.size d →
        (∀ x, (bus.setByte d x).disassemble a = line) ∧
        ((bus.byteWide d = false → ¬Spans a line.size (d + 1)) →
          ∀ w, (bus.setWord d w).disassemble a = line) ∧
        ∀ (t : Table) (x : Byte), t.rows = (Table.ofBus bus).rows →
          t.isInside a = false → (t.resync (bus.setByte d x) d).2.isInside a = false →
          ∀ r, a ≤ r → r.toNat < a.toNat + line.size →
            (t.resync (bus.setByte d x) d).2.row r = t.row r) ∧
      (∀ b < a, Spans a line.size b → b < 5 ∧ 0xFFFB + b ≤ a) ∧
      (∀ b < 5, 0xFFFB + b ≤ a →
        ∃ c : Bus, c.byteWide = bus.byteWide ∧ Spans a (c.disassemble a).size b) ∧
      ∀ (t : Table) (start : Address) (full : Bool),
        ∃ rows, rows.length ≤ 65536 - (t.instructionStart start).toNat ∧
          ∀ others u, Table.Turns bus full t (t.instructionStart start).toNat others u ↔
            others = rows ∧ u = (t.refresh bus start full).2 := by
  intro line
  have size : line.size ≤ Instruction.maxSize := bus.disassemble_size_le a
  refine ⟨⟨bus.disassemble_size_pos a, size⟩, fun c rule agree => ?_, fun d outside => ⟨?_, ?_, ?_⟩,
    fun b wraps spans => bus.near_top_of_spans wraps spans,
    fun b low near => bus.exists_spans low near,
    fun t start full => t.refresh_ends bus start full⟩
  · refine (disassemble_congr rule.symm fun d spans => ?_).symm
    obtain ⟨i, inside, rfl⟩ := (spans_iff (Nat.le_trans size (by decide))).mp spans
    exact (agree i inside).symm
  · exact fun x => disassemble_setByte outside x
  · exact fun low w => disassemble_setWord outside low w
  · exact fun t x current begins begins' r above inside =>
      Table.row_resync_of_not_spans current outside begins begins' above inside

/-- Zeros, but for an addition that begins two bytes below the top and has its words at the lowest
addresses. -/
def aroundTop : Bus := ((plain (AddressMap.fill 0)).withLongest 0xFFFE).setByte 3 7

theorem byte_aroundTop :
    [0xFFFE, 0xFFFF, 0, 1, 2, 3].map aroundTop.byte = [0xA6, 0xBB, 0, 0, 0, 7] := by
  have zero (a : Address) : (plain (AddressMap.fill 0)).byte a = 0 := AddressMap.get_fill 0 a
  simp only [aroundTop, withLongest, List.map, byte_setByte, zero]
  rfl

theorem disassemble_aroundTop : aroundTop.disassemble 0xFFFE = ⟨6, "ADD 0(R2), (7(R3))"⟩ := by
  have bytes := byte_aroundTop
  simp only [List.map, List.cons.injEq] at bytes
  obtain ⟨first, second, third, fourth, fifth, sixth, _⟩ := bytes
  have decoded : aroundTop.instructionAt 0xFFFE = Instruction.decode 0xA6 0xBB :=
    congrArg₂ Instruction.decode first second
  have low : aroundTop.wordAt 0 = 0 := congrArg₂ word third fourth
  have next : aroundTop.wordAt 2 = 7 := congrArg₂ word fifth sixth
  rw [disassemble, decoded]
  show (⟨6, "ADD " ++ Operand.text ⟨.indexed, 2⟩ (aroundTop.wordAt 0) ++ ", " ++
    Operand.text ⟨.indexedIndirect, 3⟩ (aroundTop.wordAt 2)⟩ : Line) = _
  rw [low, next]
  decide

theorem disassembly_is_local_around_top :
    (∀ x, (aroundTop.setByte 4 x).disassemble 0xFFFE = ⟨6, "ADD 0(R2), (7(R3))"⟩) ∧
      (3 : Address) < 5 ∧ (0xFFFB : Address) + 3 ≤ 0xFFFE := by
  obtain ⟨_, _, writes, near, _⟩ := disassembly_is_local aroundTop 0xFFFE
  rw [disassemble_aroundTop] at writes near
  exact ⟨(writes 4 (by decide)).1, near 3 (by decide) (by decide)⟩

end Bus

end TeachingCpu
