import TeachingCpu.Proofs.Instruction.Locality
import TeachingCpu.Proofs.Instruction.Notation
import TeachingCpu.Proofs.Mnemonics.Tiling

/-!
What the passes over a tiled table leave. After a pass from row `d` the instruction that owns row
`d` is the one on the bus, and after following a write to `d` so is every instruction that takes a
byte from `d`, also one at the top that takes it from around the end. All other instructions are
old ones or those on the bus.

A table is the one that depends on the bus alone exactly if it is tiled by the lines of the bus.
-/

namespace TeachingCpu.Table

/-- Good lines among which a pass over the bus can stop at the right row and no other. -/
structure Admits (good : Address → Line → Prop) (bus : Bus) : Prop where
  fresh : ∀ a, good a (bus.disassemble a)
  current : ∀ a line, good a line → line.text = (bus.disassemble a).text →
    line = bus.disassemble a
  size_le : ∀ a line, good a line → line.size ≤ Instruction.maxSize

namespace Admits

variable {good extra : Address → Line → Prop} {bus : Bus}

theorem and (h : Admits good bus) (fresh : ∀ a, extra a (bus.disassemble a)) :
    Admits (fun a line => good a line ∧ extra a line) bus where
  fresh a := ⟨h.fresh a, fresh a⟩
  current a line fine := h.current a line fine.1
  size_le a line fine := h.size_le a line fine.1

theorem of_disassembled (fresh : ∀ a, good a (bus.disassemble a))
    (origin : ∀ a line, good a line → ∃ old : Bus, line = old.disassemble a) :
    Admits good bus where
  fresh := fresh
  current a line fine same := by
    obtain ⟨old, rfl⟩ := origin a line fine
    exact Bus.disassemble_eq_of_text_eq same
  size_le a line fine := by
    obtain ⟨old, rfl⟩ := origin a line fine
    exact old.disassemble_size_le a

end Admits

section Passes

variable {t : Table} {good : Address → Line → Prop} {bus : Bus}

theorem tiled_refresh (tiled : t.Tiled good 0) (admits : Admits good bus) (d : Address)
    (full : Bool) :
    (t.refresh bus d full).2.Tiled (fun a line => good a line ∧
      (a.toNat ≤ d.toNat → d.toNat < a.toNat + line.size → line = bus.disassemble a)) 0 := by
  obtain ⟨s, old, owns, oldGood, _, above, below⟩ := tiled.exists_owner d (Nat.zero_le _)
  have first : t.instructionStart d = s := owns.instructionStart_eq above below
  refine Tiled.congr ?_ fun b _ => row_refresh t bus d full b
  rw [first]
  refine tiled.splice (Nat.zero_le _) owns.begins ?_ ?_ ?_
  · exact fun c before => row_refreshFrom_of_lt _ _ _ _ _ before
  · exact fun a line fine before => ⟨fine, fun _ _ => by omega⟩
  refine tiled_refreshFrom s (fun a => ⟨admits.fresh a, fun _ _ => rfl⟩) ?_
  intro a after _ same
  -- Only the first instruction of the pass can own row `d`, and if the pass stops behind it,
  -- then row `d` has been stored.
  refine (tiled.from_begin (Nat.zero_le _) same).mono fun b line beyond stands fine => ⟨fine, ?_⟩
  intro low high
  obtain rfl : s = b := first.symm.trans (stands.instructionStart_eq low high)
  have here : a = s := UInt16.toNat_inj.mp (Nat.le_antisymm beyond after)
  rw [here, stands.begins, Row.start.injEq] at same
  exact admits.current s line fine same

theorem tiled_foldl_refresh (tiled : t.Tiled good 0) (admits : Admits good bus)
    (rows : List Address) :
    (rows.foldl (fun t a => if t.isInside a then t else (t.refresh bus a false).2) t).Tiled
      (fun a line => good a line ∧ (a ∈ rows → line = bus.disassemble a)) 0 := by
  induction rows generalizing t good with
  | nil => exact tiled.mono fun a line _ _ fine => ⟨fine, fun member => by simp at member⟩
  | cons r rows ih =>
    rw [List.foldl_cons]
    have head : (if t.isInside r then t else (t.refresh bus r false).2).Tiled
        (fun a line => good a line ∧ (a = r → line = bus.disassemble a)) 0 := by
      split
      · refine tiled.mono fun a line _ owns fine => ⟨fine, ?_⟩
        rintro rfl
        simp_all [isInside, owns.begins]
      · refine (tiled_refresh tiled admits r false).mono fun a line _ owns fine => ⟨fine.1, ?_⟩
        rintro rfl
        exact fine.2 (Nat.le_refl _) (Nat.lt_add_of_pos_right owns.pos)
    refine (ih head (admits.and fun _ _ => rfl)).mono fun a line _ _ fine => ⟨fine.1.1, ?_⟩
    intro member
    rcases List.mem_cons.mp member with here | later
    · exact fine.1.2 here
    · exact fine.2 later

theorem mem_topRows {a : Address} (top : 65536 < a.toNat + Instruction.maxSize) :
    a ∈ topRows := by
  have ha := a.toNat_lt
  refine List.mem_map.mpr ⟨a.toNat, ?_, UInt16.ofNat_toNat⟩
  rw [List.mem_range'_1]
  rw [Instruction.maxSize] at top ⊢
  omega

theorem tiled_refreshTop (tiled : t.Tiled good 0) (admits : Admits good bus) :
    (t.refreshTop bus).Tiled (fun a line => good a line ∧
      (65536 < a.toNat + Instruction.maxSize → line = bus.disassemble a)) 0 :=
  (tiled_foldl_refresh tiled admits topRows).mono fun _ _ _ _ fine =>
    ⟨fine.1, fun top => fine.2 (mem_topRows top)⟩

/-- Following a write brings every instruction up to date that takes a byte from there. -/
theorem tiled_resync (tiled : t.Tiled good 0) (admits : Admits good bus) (d : Address) :
    (t.resync bus d).2.Tiled (fun a line => good a line ∧
      (Spans a line.size d → line = bus.disassemble a)) 0 := by
  unfold resync
  by_cases low : d.toNat < Instruction.maxSize - 1
  · have passed := tiled_refresh (tiled_refreshTop tiled admits)
      (admits.and fun _ _ => rfl) d false
    rw [if_pos low]
    refine passed.mono fun a line _ _ fine => ⟨fine.1.1, fun spans => ?_⟩
    have size := admits.size_le a line fine.1.1
    rw [Spans, toNat_distance] at spans
    split at spans
    · exact fine.2 (by omega) (by omega)
    · exact fine.1.2 (by omega)
  · rw [if_neg low]
    refine (tiled_refresh tiled admits d false).mono fun a line _ _ fine => ⟨fine.1, fun spans => ?_⟩
    have size := admits.size_le a line fine.1
    have ha := a.toNat_lt
    rw [Spans, toNat_distance] at spans
    split at spans
    · exact fine.2 (by omega) (by omega)
    · omega

end Passes

def Fresh (bus : Bus) (a : Address) (line : Line) : Prop := line = bus.disassemble a

theorem admits_fresh (bus : Bus) : Admits (Fresh bus) bus :=
  .of_disassembled (fun _ => rfl) fun _ _ fine => ⟨bus, fine⟩

theorem tiled_full_pass (t : Table) (bus : Bus) (last : Address) {n : Nat} :
    (t.refreshFrom bus true last n).2.Tiled (Fresh bus) n :=
  tiled_refreshFrom last (fun _ => rfl) fun _ _ part => by contradiction

theorem tiled_refresh_full {t : Table} {bus : Bus} (first : t.instructionStart 0 = 0) :
    (t.refresh bus 0 true).2.Tiled (Fresh bus) 0 := by
  refine Tiled.congr ?_ fun b _ => row_refresh t bus 0 true b
  rw [first]
  exact tiled_full_pass t bus 0

theorem tiled_ofBus (bus : Bus) : (ofBus bus).Tiled (Fresh bus) 0 :=
  tiled_refresh_full (by simp [instructionStart, blank, row])

theorem rows_eq_of_tiled {t u : Table} {bus : Bus} (h : t.Tiled (Fresh bus) 0)
    (h' : u.Tiled (Fresh bus) 0) : t.rows = u.rows :=
  AddressMap.ext fun b => h.rows_eq h' b (Nat.zero_le _)

theorem rows_eq_ofBus_iff (t : Table) (bus : Bus) :
    t.rows = (ofBus bus).rows ↔ t.Tiled (Fresh bus) 0 := by
  constructor
  · intro same
    refine (tiled_ofBus bus).congr fun b _ => ?_
    rw [row, same, row]
  · exact fun tiled => rows_eq_of_tiled tiled (tiled_ofBus bus)

end TeachingCpu.Table
