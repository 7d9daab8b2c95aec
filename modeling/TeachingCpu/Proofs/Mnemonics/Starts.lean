import Mathlib.Data.List.Chain
import TeachingCpu.Proofs.Mnemonics.Pass

/-!
Where instructions begin. Disassembling from address zero upwards, each instruction begins right
behind the one before it; this says nothing about a table. The rows of a table that is up to date
begin instructions at these addresses and at no others. Seen from any address upwards, what is left
of the sequence is such a sequence again, which begins at the first start from there on.
-/

namespace TeachingCpu

namespace Bus

variable (bus : Bus)

/-- Where instructions begin from address `n` upwards, if one begins at `n`. -/
def startsFrom (n : Nat) : List Address :=
  if n < 65536 then
    UInt16.ofNat n :: startsFrom (n + (bus.disassemble (UInt16.ofNat n)).size)
  else []
termination_by 65536 - n
decreasing_by
  have := bus.disassemble_size_pos (UInt16.ofNat n)
  omega

def starts : List Address := bus.startsFrom 0

def Follows (a b : Address) : Prop := b.toNat = a.toNat + (bus.disassemble a).size

variable {bus}

theorem startsFrom_top {n : Nat} (h : 65536 ≤ n) : bus.startsFrom n = [] := by
  rw [startsFrom, if_neg (by omega)]

theorem startsFrom_below {n : Nat} (h : n < 65536) :
    bus.startsFrom n =
      UInt16.ofNat n :: bus.startsFrom (n + (bus.disassemble (UInt16.ofNat n)).size) := by
  rw [startsFrom, if_pos h]

theorem startsFrom_next (a : Address) :
    bus.startsFrom a.toNat = a :: bus.startsFrom (a.toNat + (bus.disassemble a).size) := by
  rw [startsFrom_below a.toNat_lt, UInt16.ofNat_toNat]

theorem le_of_mem_startsFrom {n : Nat} {a : Address} (h : a ∈ bus.startsFrom n) : n ≤ a.toNat := by
  fun_induction startsFrom bus n with
  | case1 n below ih =>
    rcases List.mem_cons.mp h with rfl | later
    · exact Nat.le_of_eq (UInt16.toNat_ofNat_of_lt' below).symm
    · have := ih later
      omega
  | case2 => contradiction

theorem le_of_head?_startsFrom {n : Nat} {a b : Address} (head : a ∈ (bus.startsFrom n).head?)
    (member : b ∈ bus.startsFrom n) : a ≤ b := by
  have above := le_of_mem_startsFrom member
  rw [startsFrom] at head
  split at head
  · next below =>
    cases head
    rwa [UInt16.le_iff_toNat_le, UInt16.toNat_ofNat_of_lt' below]
  · contradiction

theorem isChain_startsFrom (n : Nat) : (bus.startsFrom n).IsChain bus.Follows := by
  fun_induction startsFrom bus n with
  | case1 n below ih =>
    refine List.isChain_cons.mpr ⟨fun b next => ?_, ih⟩
    have here : (UInt16.ofNat n).toNat = n := UInt16.toNat_ofNat_of_lt' below
    rw [Follows, here]
    rw [startsFrom] at next
    split at next
    · next within =>
      cases next
      exact UInt16.toNat_ofNat_of_lt' within
    · contradiction
  | case2 => exact .nil

theorem getLast?_startsFrom {n : Nat} {a : Address} (h : a ∈ bus.startsFrom n)
    (reaches : 65536 < a.toNat + (bus.disassemble a).size) :
    (bus.startsFrom n).getLast? = some a := by
  fun_induction startsFrom bus n with
  | case1 n below ih =>
    have here : (UInt16.ofNat n).toNat = n := UInt16.toNat_ofNat_of_lt' below
    rcases List.mem_cons.mp h with rfl | later
    · rw [startsFrom_top (by omega)]
      rfl
    · rw [List.getLast?_cons, ih later]
      rfl
  | case2 => contradiction

theorem filter_startsFrom_of_le {n : Nat} {start : Address} (h : start.toNat ≤ n) :
    (bus.startsFrom n).filter (start ≤ ·) = bus.startsFrom n := by
  refine List.filter_eq_self.mpr fun a member => ?_
  have above := le_of_mem_startsFrom member
  simp only [decide_eq_true_eq, UInt16.le_iff_toNat_le]
  omega

theorem disassemble_of_nop {a : Address} (h : Opcode.ofByte (bus.byte a) = .nop) :
    bus.disassemble a = ⟨1, "NOP"⟩ := by
  rw [disassemble, instructionAt, Instruction.decode, h]
  rfl

theorem mem_startsFrom_of_size_one {n : Nat} {a : Address} (above : n ≤ a.toNat)
    (short : ∀ b : Address, n ≤ b.toNat → b < a → (bus.disassemble b).size = 1) :
    a ∈ bus.startsFrom n := by
  have top := a.toNat_lt
  by_cases here : n = a.toNat
  · rw [here, startsFrom_next]
    exact List.mem_cons_self
  · have room : n < 65536 := by omega
    have place : (UInt16.ofNat n).toNat = n := UInt16.toNat_ofNat_of_lt' room
    have below : UInt16.ofNat n < a := by
      rw [UInt16.lt_iff_toNat_lt]
      omega
    rw [startsFrom_below room, short _ (Nat.le_of_eq place.symm) below]
    refine List.mem_cons_of_mem _ (mem_startsFrom_of_size_one (by omega) fun b later => ?_)
    exact short b (by omega)
termination_by a.toNat - n

theorem filter_startsFrom_of_mem {n : Nat} {a : Address} (h : a ∈ bus.startsFrom n) :
    (bus.startsFrom n).filter (a ≤ ·) = bus.startsFrom a.toNat := by
  fun_induction startsFrom bus n with
  | case1 n below ih =>
    have here : (UInt16.ofNat n).toNat = n := UInt16.toNat_ofNat_of_lt' below
    rcases List.mem_cons.mp h with rfl | later
    · rw [here, ← startsFrom_below below, filter_startsFrom_of_le (Nat.le_of_eq here)]
    · have above := le_of_mem_startsFrom later
      have pos := bus.disassemble_size_pos (UInt16.ofNat n)
      have early : ¬a ≤ UInt16.ofNat n := by
        rw [UInt16.le_iff_toNat_le]
        omega
      rw [List.filter_cons, if_neg (by simpa using early)]
      exact ih later
  | case2 => contradiction

theorem exists_filter_startsFrom (n : Nat) (start : Address) :
    ∃ first, (bus.startsFrom n).filter (start ≤ ·) = bus.startsFrom first := by
  fun_induction startsFrom bus n with
  | case1 n below ih =>
    have here : (UInt16.ofNat n).toNat = n := UInt16.toNat_ofNat_of_lt' below
    by_cases reached : start.toNat ≤ n
    · rw [← startsFrom_below below]
      exact ⟨n, filter_startsFrom_of_le reached⟩
    · have early : ¬start ≤ UInt16.ofNat n := by
        rw [UInt16.le_iff_toNat_le]
        omega
      rw [List.filter_cons, if_neg (by simpa using early)]
      exact ih
  | case2 => exact ⟨65536, (startsFrom_top (Nat.le_refl _)).symm⟩

end Bus

namespace Table

variable {t : Table} {bus : Bus}

theorem row_of_mem_startsFrom {n : Nat} {a : Address} (tiled : t.Tiled (Fresh bus) n)
    (member : a ∈ bus.startsFrom n) : t.row a = .start (bus.disassemble a).text := by
  induction tiled with
  | @top n h =>
    rw [Bus.startsFrom_top h] at member
    contradiction
  | @next n b line here owns fine rest ih =>
    obtain rfl : line = bus.disassemble b := fine
    rw [← here, Bus.startsFrom_next] at member
    rcases List.mem_cons.mp member with rfl | later
    · exact owns.begins
    · exact ih (here ▸ later)

def entry (t : Table) (n : Nat) : Option (Address × String) :=
  match t.row (UInt16.ofNat n) with
  | .start text => some (UInt16.ofNat n, text)
  | .inside _ => none

theorem entry_of_begins {a : Address} {text : String} (h : t.row a = .start text) :
    t.entry a.toNat = some (a, text) := by
  rw [entry, UInt16.ofNat_toNat, h]

theorem address_of_entry {n : Nat} {listed : Address × String} (h : t.entry n = some listed) :
    listed.1 = UInt16.ofNat n := by
  rw [entry] at h
  split at h
  · cases h
    rfl
  · contradiction

theorem entries_inside {a : Address} {line : Line} (owns : t.Owns a line) {m : Nat}
    (within : m + 1 ≤ line.size) (room : a.toNat + 1 + m ≤ 65536) :
    (List.range' (a.toNat + 1) m).filterMap t.entry = [] := by
  refine List.filterMap_eq_nil_iff.mpr fun n member => ?_
  rw [List.mem_range'_1] at member
  have small : n < 65536 := by omega
  have place : (UInt16.ofNat n).toNat = n := UInt16.toNat_ofNat_of_lt' small
  rw [entry, owns.inner _ (by omega) (by omega)]

theorem entries_eq {n : Nat} (tiled : t.Tiled (Fresh bus) n) :
    (List.range' n (65536 - n)).filterMap t.entry =
      (bus.startsFrom n).map fun a => (a, (bus.disassemble a).text) := by
  induction tiled with
  | @top n h =>
    rw [Bus.startsFrom_top h, Nat.sub_eq_zero_of_le h]
    rfl
  | @next n a line here owns fine rest ih =>
    obtain rfl : line = bus.disassemble a := fine
    have pos := owns.pos
    have below := a.toNat_lt
    -- the rows of the instruction, clipped at the top, and the rows behind it
    obtain ⟨m, within, room, count⟩ : ∃ m, m + 1 ≤ (bus.disassemble a).size ∧
        n + 1 + m ≤ 65536 ∧
        65536 - n = 1 + (m + (65536 - (n + (bus.disassemble a).size))) ∧
        (n + (bus.disassemble a).size < 65536 → m + 1 = (bus.disassemble a).size) :=
      ⟨min ((bus.disassemble a).size - 1) (65535 - n), by omega⟩
    have behind : List.range' (n + 1 + m) (65536 - (n + (bus.disassemble a).size)) =
        List.range' (n + (bus.disassemble a).size) (65536 - (n + (bus.disassemble a).size)) := by
      by_cases more : n + (bus.disassemble a).size < 65536
      · rw [show n + 1 + m = n + (bus.disassemble a).size by have := count.2 more; omega]
      · rw [Nat.sub_eq_zero_of_le (by omega)]
        rfl
    rw [count.1, ← List.range'_append_1, ← List.range'_append_1, behind, List.filterMap_append,
      List.filterMap_append, ih]
    subst here
    rw [entries_inside owns within room, Bus.startsFrom_next, List.map_cons, List.range'_one,
      List.filterMap_cons_some (entry_of_begins owns.begins)]
    rfl

theorem instructions_of_tiled (tiled : t.Tiled (Fresh bus) 0) (start : Address) :
    t.instructions start 65535 =
      (bus.starts.filter (start ≤ ·)).map fun a => (a, (bus.disassemble a).text) := by
  have below : start.toNat < 65536 := start.toNat_lt
  have listed {s n : Nat} {l : Address × String} (room : s + n ≤ 65536)
      (h : l ∈ (List.range' s n).filterMap t.entry) : s ≤ l.1.toNat ∧ l.1.toNat < s + n := by
    obtain ⟨i, member, found⟩ := List.mem_filterMap.mp h
    rw [List.mem_range'_1] at member
    have small : i < 65536 := by omega
    rw [address_of_entry found, UInt16.toNat_ofNat_of_lt' small]
    exact member
  have before : ((List.range' 0 start.toNat).filterMap t.entry).filter (start ≤ ·.1) = [] := by
    refine List.filter_eq_nil_iff.mpr fun l member => ?_
    have := listed (by omega) member
    simp only [decide_eq_true_eq, UInt16.le_iff_toNat_le]
    omega
  have after : ((List.range' start.toNat (65536 - start.toNat)).filterMap t.entry).filter
      (start ≤ ·.1) = t.instructions start 65535 := by
    refine List.filter_eq_self.mpr fun l member => ?_
    have := listed (by omega) member
    simp only [decide_eq_true_eq, UInt16.le_iff_toNat_le]
    omega
  have whole := congrArg (List.filter fun l => decide (start ≤ l.1)) (entries_eq tiled)
  have parts : List.range' 0 (65536 - 0) =
      List.range' 0 start.toNat ++ List.range' start.toNat (65536 - start.toNat) := by
    rw [show 65536 - 0 = start.toNat + (65536 - start.toNat) by omega, ← List.range'_append_1,
      Nat.zero_add]
  rw [parts, List.filterMap_append, List.filter_append, before, after, List.nil_append,
    List.filter_map] at whole
  exact whole

end Table

end TeachingCpu
