import Mathlib.Data.List.Find
import Mathlib.Data.List.TakeWhile
import TeachingCpu.Proofs.Mnemonics.Partition
import TeachingCpu.Proofs.Mnemonics.Starts

/-!
Exactly what a pass changes. It goes through the starts from its first row on and ends at one whose
row is already right, which is judged by the table as it was before the pass: what the pass stores
on its way never reaches a row that it still has to look at. Rows in front of the first start and
from the last one on are kept; the rows between belong to the instructions of the bus.

A pass that is not a full one saves work, and only that, where the rows it leaves alone are right.
-/

namespace TeachingCpu.Table

def endsAt (t : Table) (bus : Bus) (full : Bool) (a : Address) : Bool :=
  !full && t.holds a (bus.disassemble a).text

/-- Where a pass from row `n` on ends, unless it goes up to the top. -/
def endOf? (t : Table) (bus : Bus) (full : Bool) (n : Nat) : Option Address :=
  (bus.startsFrom n).find? (t.endsAt bus full)

def stored (t : Table) (bus : Bus) (full : Bool) (n : Nat) : List Address :=
  (bus.startsFrom n).takeWhile fun a => !t.endsAt bus full a

def visited (t : Table) (bus : Bus) (full : Bool) (n : Nat) : List Address :=
  t.stored bus full n ++ (t.endOf? bus full n).toList

section Visited

variable {t u : Table} {bus : Bus} {full : Bool} {n : Nat} {a : Address}

theorem endsAt_iff : t.endsAt bus full a = true ↔
    full = false ∧ t.row a = .start (bus.disassemble a).text := by
  rw [endsAt, Bool.and_eq_true, Bool.not_eq_true', holds_iff]

theorem mem_startsFrom_of_mem_stored (h : a ∈ t.stored bus full n) : a ∈ bus.startsFrom n :=
  (List.takeWhile_sublist _).mem h

theorem mem_startsFrom_of_endOf? (h : t.endOf? bus full n = some a) : a ∈ bus.startsFrom n :=
  List.mem_of_find?_eq_some h

theorem endsAt_of_endOf? (h : t.endOf? bus full n = some a) : t.endsAt bus full a = true :=
  List.find?_some h

theorem endsAt_congr (same : ∀ b : Address, n ≤ b.toNat → u.row b = t.row b) :
    ∀ a ∈ bus.startsFrom n, u.endsAt bus full a = t.endsAt bus full a := by
  intro a member
  have row := same a (Bus.le_of_mem_startsFrom member)
  rw [endsAt, endsAt, holds, holds, row]

theorem endOf?_congr (same : ∀ b : Address, n ≤ b.toNat → u.row b = t.row b) :
    u.endOf? bus full n = t.endOf? bus full n :=
  List.find?_congr (endsAt_congr same)

theorem stored_congr (same : ∀ b : Address, n ≤ b.toNat → u.row b = t.row b) :
    u.stored bus full n = t.stored bus full n := by
  have ends : ∀ a ∈ bus.startsFrom n, u.endsAt bus full a = t.endsAt bus full a := endsAt_congr same
  unfold stored
  generalize bus.startsFrom n = as at ends
  induction as with
  | nil => rfl
  | cons a as ih =>
    have rest := ih fun b member => ends b (List.mem_cons_of_mem _ member)
    rw [List.takeWhile_cons, List.takeWhile_cons, ends a List.mem_cons_self, rest]

theorem stored_top (h : 65536 ≤ n) : t.stored bus full n = [] := by
  rw [stored, Bus.startsFrom_top h, List.takeWhile_nil]

theorem endOf?_top (h : 65536 ≤ n) : t.endOf? bus full n = none := by
  rw [endOf?, Bus.startsFrom_top h, List.find?_nil]

theorem stored_of_ends (ends : t.endsAt bus full a = true) : t.stored bus full a.toNat = [] := by
  rw [stored, Bus.startsFrom_next, List.takeWhile_cons_of_neg (by simp [ends])]

theorem endOf?_of_ends (ends : t.endsAt bus full a = true) :
    t.endOf? bus full a.toNat = some a := by
  rw [endOf?, Bus.startsFrom_next, List.find?_cons_of_pos ends]

theorem stored_next (goes : t.endsAt bus full a = false) :
    t.stored bus full a.toNat = a :: t.stored bus full (a.toNat + (bus.disassemble a).size) := by
  rw [stored, Bus.startsFrom_next, List.takeWhile_cons_of_pos (by simp [goes]), stored]

theorem endOf?_next (goes : t.endsAt bus full a = false) :
    t.endOf? bus full a.toNat = t.endOf? bus full (a.toNat + (bus.disassemble a).size) := by
  rw [endOf?, Bus.startsFrom_next, List.find?_cons_of_neg (by simp [goes]), endOf?]

theorem endOf?_full : t.endOf? bus true n = none :=
  List.find?_eq_none.mpr fun _ _ => by simp [endsAt]

theorem stored_full : t.stored bus true n = bus.startsFrom n :=
  List.takeWhile_eq_self_iff.mpr fun _ _ => by simp [endsAt]

theorem visited_eq_cons : ∃ rest, t.visited bus full a.toNat = a :: rest := by
  cases ends : t.endsAt bus full a with
  | true => exact ⟨[], by rw [visited, stored_of_ends ends, endOf?_of_ends ends]; rfl⟩
  | false => exact ⟨_, by rw [visited, stored_next ends]; rfl⟩

end Visited

/-- What a pass over the bus from row `n` on makes of a table. -/
structure Passed (t u : Table) (bus : Bus) (full : Bool) (n : Nat) : Prop where
  before : ∀ b : Address, b.toNat < n → u.row b = t.row b
  after : ∀ s ∈ t.endOf? bus full n, ∀ b, s ≤ b → u.row b = t.row b
  owns : ∀ a ∈ t.stored bus full n, u.Owns a (bus.disassemble a)
  between : ∀ b : Address, n ≤ b.toNat → (∀ s ∈ t.endOf? bus full n, b < s) →
    ∃ a ∈ t.stored bus full n, a ≤ b ∧ b.toNat < a.toNat + (bus.disassemble a).size
  last : u.lastRow = (t.visited bus full n).getLastD t.lastRow

section Passed

variable {t u : Table} {bus : Bus} {full : Bool} {n : Nat} {a : Address}

theorem passed_of_ends (ends : t.endsAt bus full a = true) :
    t.Passed (t.reach a) bus full a.toNat := by
  constructor
  case before => exact fun _ _ => rfl
  case after => exact fun _ _ _ _ => rfl
  case owns =>
    rw [stored_of_ends ends]
    exact List.forall_mem_nil _
  case between =>
    intro b above below
    have early := below a (endOf?_of_ends ends)
    rw [UInt16.lt_iff_toNat_lt] at early
    omega
  case last =>
    rw [visited, stored_of_ends ends, endOf?_of_ends ends]
    rfl

theorem passed_top (top : 65536 ≤ n) : t.Passed t bus full n := by
  constructor
  case before => exact fun _ _ => rfl
  case after => exact fun _ _ _ _ => rfl
  case owns =>
    rw [stored_top top]
    exact List.forall_mem_nil _
  case between =>
    intro b above
    have := b.toNat_lt
    omega
  case last =>
    rw [visited, stored_top top, endOf?_top top]
    rfl

theorem Passed.next (goes : t.endsAt bus full a = false)
    (h : ((t.reach a).put a (bus.disassemble a)).Passed u bus full
      (a.toNat + (bus.disassemble a).size)) : t.Passed u bus full a.toNat := by
  have pos := bus.disassemble_size_pos a
  generalize same : (t.reach a).put a (bus.disassemble a) = t' at h
  -- the rest of the pass looks at rows that are as they were, so it ends where it would have ended
  have kept : ∀ b : Address, a.toNat + (bus.disassemble a).size ≤ b.toNat → t'.row b = t.row b :=
    fun b beyond => by rw [← same, row_put_of_le _ a pos beyond, row_reach]
  have front : ∀ b : Address, b.toNat < a.toNat → t'.row b = t.row b :=
    fun b below => by rw [← same, row_put_of_lt _ a _ below, row_reach]
  have rest := stored_next goes
  have ending := endOf?_next goes
  rw [← stored_congr kept] at rest
  rw [← endOf?_congr kept] at ending
  constructor
  case before =>
    intro b below
    rw [h.before b (by omega), front b below]
  case after =>
    intro s ends b above
    rw [ending] at ends
    have beyond := Bus.le_of_mem_startsFrom (mem_startsFrom_of_endOf? ends)
    have above' := UInt16.le_iff_toNat_le.mp above
    rw [h.after s ends b above, kept b (by omega)]
  case owns =>
    rw [rest]
    refine List.forall_mem_cons.mpr ⟨?_, h.owns⟩
    have stored : t'.Owns a (bus.disassemble a) := same ▸ (t.reach a).owns_put a pos
    exact stored.congr fun b _ below => h.before b below
  case between =>
    intro b above below
    rw [rest]
    rw [ending] at below
    by_cases inside : b.toNat < a.toNat + (bus.disassemble a).size
    · exact ⟨a, List.mem_cons_self, UInt16.le_iff_toNat_le.mpr above, inside⟩
    · obtain ⟨c, member, bounds⟩ := h.between b (by omega) below
      exact ⟨c, List.mem_cons_of_mem _ member, bounds⟩
  case last =>
    have reached : t'.lastRow = a := by
      rw [← same]
      rfl
    rw [h.last, visited, visited, rest, ending, List.cons_append, List.getLastD_cons, reached]

theorem Passed.of_reach {b : Address} (h : (t.reach b).Passed u bus full a.toNat) :
    t.Passed u bus full a.toNat where
  before := h.before
  after := h.after
  owns := h.owns
  between := h.between
  last := by
    -- a pass reaches its first row, so the one that was noted before does not count
    have last : u.lastRow = (t.visited bus full a.toNat).getLastD b := h.last
    obtain ⟨rest, reached⟩ := @visited_eq_cons t bus full a
    rw [last, reached, List.getLastD_cons, List.getLastD_cons]

end Passed

theorem passed_refreshFrom (t : Table) (bus : Bus) (full : Bool) (last : Address) (n : Nat) :
    (t.reach last).Passed ((t.refreshFrom bus full last n).2.reach
      (t.refreshFrom bus full last n).1) bus full n := by
  -- noting the returned row in the end is as good as noting each row on the way
  fun_induction refreshFrom t bus full last n with
  | case1 t last n h a line stop =>
    have here : a.toNat = n := UInt16.toNat_ofNat_of_lt' h
    rw [← here]
    exact passed_of_ends (t := t.reach last) stop
  | case2 t last n h a line goes ih =>
    have here : a.toNat = n := UInt16.toNat_ofNat_of_lt' h
    rw [← here] at ih ⊢
    exact Passed.next (t := t.reach last) (Bool.eq_false_iff.mpr goes) ih
  | case3 t last n h => exact passed_top (by omega)

section Refresh

variable {t : Table} {bus : Bus} {start : Address} {full : Bool}

theorem passed_refresh : t.Passed (t.refresh bus start full).2 bus full
    (t.instructionStart start).toNat :=
  (t.passed_refreshFrom bus full _ _).of_reach

theorem getLast?_visited : (t.visited bus full (t.instructionStart start).toNat).getLast? =
    some (t.refresh bus start full).1 := by
  have last := (@passed_refresh t bus start full).last
  obtain ⟨rest, reached⟩ := @visited_eq_cons t bus full (t.instructionStart start)
  rw [reached, List.getLastD_cons] at last
  rw [reached, List.getLast?_cons, ← List.getLastD_eq_getLast?, ← last, refresh_fst]

theorem rows_partial_eq_full {good : Address → Line → Prop} (tiled : t.Tiled good 0)
    (admits : Admits good bus)
    (current : ∀ s ∈ t.endOf? bus false (t.instructionStart start).toNat,
      ∀ (b : Address) (text : String), s ≤ b →
        t.row b = .start text → text = (bus.disassemble b).text) :
    (t.refresh bus start false).2.rows = (t.refresh bus start true).2.rows := by
  have passed := @passed_refresh t bus start false
  have full := @passed_refresh t bus start true
  have pass : (t.refresh bus start true).2.Tiled (Fresh bus) (t.instructionStart start).toNat :=
    (t.tiled_full_pass bus _).congr fun b _ => row_refresh t bus start true b
  generalize (t.refresh bus start true).2 = new at full pass ⊢
  generalize (t.instructionStart start).toNat = n at passed full pass current
  have owned : ∀ a ∈ bus.startsFrom n, new.Owns a (bus.disassemble a) := by
    rw [← t.stored_full]
    exact full.owns
  ext b
  by_cases front : b.toNat < n
  · exact (passed.before b front).trans (full.before b front).symm
  by_cases early : ∀ s ∈ t.endOf? bus false n, b < s
  · obtain ⟨a, member, above, inside⟩ := passed.between b (by omega) early
    have begins := mem_startsFrom_of_mem_stored member
    exact (passed.owns a member).row_eq (owned a begins) (UInt16.le_iff_toNat_le.mp above) inside
  · -- from the last row of the pass on, the old table is tiled by the lines of the bus
    simp only [Classical.not_forall, UInt16.not_lt] at early
    obtain ⟨s, ends, late⟩ := early
    have reached := mem_startsFrom_of_endOf? ends
    have old : t.Tiled (Fresh bus) s.toNat := by
      have begins := (endsAt_iff.mp (endsAt_of_endOf? ends)).2
      refine (tiled.from_begin (Nat.zero_le _) begins).mono fun a line above owns fine => ?_
      have low : s ≤ a := UInt16.le_iff_toNat_le.mpr above
      exact admits.current a line fine (current s ends a line.text low owns.begins)
    have fresh : new.Tiled (Fresh bus) s.toNat :=
      pass.from_begin (Bus.le_of_mem_startsFrom reached) (owned s reached).begins
    have late' := UInt16.le_iff_toNat_le.mp late
    exact (passed.after s ends b late).trans (old.rows_eq fresh b late')

theorem refresh_full_eq_ofBus {good : Address → Line → Prop} (tiled : t.Tiled good 0) :
    (t.refresh bus 0 true).2 = ofBus bus := by
  have first := tiled.instructionStart_zero
  have first' := (tiled_blank 0).instructionStart_zero
  have rows : (t.refresh bus 0 true).2.rows = (ofBus bus).rows :=
    rows_eq_of_tiled (tiled_refresh_full first) (tiled_ofBus bus)
  have lastRow : (t.refresh bus 0 true).2.lastRow = (ofBus bus).lastRow := by
    apply Option.some.inj
    rw [ofBus, ← refresh_fst, ← refresh_fst, ← getLast?_visited, ← getLast?_visited, first, first',
      visited, visited, stored_full, stored_full, endOf?_full, endOf?_full]
  generalize (t.refresh bus 0 true).2 = new at rows lastRow
  generalize ofBus bus = new' at rows lastRow
  obtain ⟨_, _⟩ := new
  obtain ⟨_, _⟩ := new'
  rw [Table.mk.injEq]
  exact ⟨rows, lastRow⟩

end Refresh

/-- What a pass leaves of a table with any past, and the row that it returns. -/
theorem refresh_effect (calls : List (Bus × Pass)) (bus : Bus) (start : Address) :
    let t := replay calls
    let first := t.instructionStart start
    (∃ line, t.Owns first line ∧ first ≤ start ∧ start.toNat < first.toNat + line.size) ∧
      (∀ full, t.Passed (t.refresh bus start full).2 bus full first.toNat ∧
        (t.refresh bus start full).1 = (t.refresh bus start full).2.lastRow ∧
        (t.visited bus full first.toNat).getLast? = some (t.refresh bus start full).1) ∧
      (t.refresh bus 0 true).2 = ofBus bus ∧
      ((∀ s ∈ t.endOf? bus false first.toNat, ∀ (b : Address) (text : String), s ≤ b →
          t.row b = .start text → text = (bus.disassemble b).text) →
        (t.refresh bus start false).2.rows = (t.refresh bus start true).2.rows) := by
  have tiled := tiled_replay calls
  refine ⟨?_, fun full => ⟨passed_refresh, refresh_fst _ bus start full, getLast?_visited⟩,
    refresh_full_eq_ofBus tiled, ?_⟩
  · obtain ⟨a, line, owns, _, _, above, below⟩ := tiled.exists_owner start (Nat.zero_le _)
    rw [owns.instructionStart_eq above below]
    exact ⟨line, owns, UInt16.le_iff_toNat_le.mpr above, below⟩
  · -- as if the pass had just been made over this bus as well
    have admits : Admits (Replayed ((bus, .refresh start false) :: calls)) bus :=
      admits_replayed List.mem_cons_self
    refine rows_partial_eq_full (tiled.mono fun a line _ _ fine => ?_) admits
    exact fine.imp_right fun ⟨call, member, same⟩ => ⟨call, List.mem_cons_of_mem _ member, same⟩

end TeachingCpu.Table
