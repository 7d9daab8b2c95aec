import TeachingCpu.Mnemonics.Refresh

/-!
Tables whose rows are divided among instructions. From some row on, a tiled table is a sequence of
instructions, each with its own row and the rows inside it, the last one clipped at the top; a
predicate says which lines may stand where. A tiling can be cut at every row that begins an
instruction, and continued there with the rows of another table; that is what a pass does, whose
rows are the lines of the bus up to the row where it stops and the old ones from there on.
-/

namespace TeachingCpu.Table

/-- Rows of an instruction, as they are when it has just been stored. -/
structure Owns (t : Table) (a : Address) (line : Line) : Prop where
  pos : 0 < line.size
  begins : t.row a = .start line.text
  inner : ∀ b : Address, a.toNat < b.toNat → b.toNat < a.toNat + line.size → t.row b = .inside a

namespace Owns

variable {t u : Table} {a b : Address} {line other : Line}

theorem congr (h : t.Owns a line)
    (same : ∀ b : Address, a.toNat ≤ b.toNat → b.toNat < a.toNat + line.size →
      u.row b = t.row b) : u.Owns a line where
  pos := h.pos
  begins := by
    have pos := h.pos
    rw [same a (by omega) (by omega), h.begins]
  inner b above below := by
    rw [same b (by omega) below, h.inner b above below]

theorem instructionStart_eq (h : t.Owns a line) (above : a.toNat ≤ b.toNat)
    (below : b.toNat < a.toNat + line.size) : t.instructionStart b = a := by
  unfold instructionStart
  by_cases same : a = b
  · rw [← same, h.begins]
  · have different : a.toNat ≠ b.toNat := fun equal => same (UInt16.toNat_inj.mp equal)
    rw [h.inner b (by omega) below]

theorem row_eq (h : t.Owns a line) (h' : u.Owns a line) (above : a.toNat ≤ b.toNat)
    (below : b.toNat < a.toNat + line.size) : t.row b = u.row b := by
  by_cases begin : a = b
  · rw [← begin, h.begins, h'.begins]
  · have different : a.toNat ≠ b.toNat := fun equal => begin (UInt16.toNat_inj.mp equal)
    rw [h.inner b (by omega) below, h'.inner b (by omega) below]

theorem le_of_begins (h : t.Owns a line) {text : String} (begins : t.row b = .start text)
    (above : a.toNat < b.toNat) : a.toNat + line.size ≤ b.toNat := by
  rcases Nat.lt_or_ge b.toNat (a.toNat + line.size) with inside | after
  · rw [h.inner b above inside] at begins
    contradiction
  · exact after

end Owns

theorem owns_put (t : Table) (a : Address) {line : Line} (pos : 0 < line.size) :
    (t.put a line).Owns a line where
  pos := pos
  begins := by rw [row_put, if_pos rfl]
  inner b above below := by
    have different : a ≠ b := by
      rintro rfl
      omega
    rw [row_put, if_neg different, if_pos ⟨above, below⟩]

theorem row_put_of_lt (t : Table) (a : Address) {b : Address} (line : Line)
    (below : b.toNat < a.toNat) : (t.put a line).row b = t.row b := by
  have different : a ≠ b := by
    rintro rfl
    omega
  rw [row_put, if_neg different, if_neg (by omega)]

theorem row_put_of_le (t : Table) (a : Address) {b : Address} {line : Line} (pos : 0 < line.size)
    (above : a.toNat + line.size ≤ b.toNat) : (t.put a line).row b = t.row b := by
  have different : a ≠ b := by
    rintro rfl
    omega
  rw [row_put, if_neg different, if_neg (by omega)]

/-- The rows from number `n` on belong to instructions with good lines. -/
inductive Tiled (t : Table) (good : Address → Line → Prop) : Nat → Prop
  | top {n : Nat} (h : 65536 ≤ n) : Tiled t good n
  | next {n : Nat} {a : Address} {line : Line} (here : a.toNat = n) (owns : t.Owns a line)
      (fine : good a line) (rest : Tiled t good (n + line.size)) : Tiled t good n

namespace Tiled

variable {t u : Table} {good fine : Address → Line → Prop} {n : Nat}

theorem congr (h : t.Tiled good n)
    (same : ∀ b : Address, n ≤ b.toNat → u.row b = t.row b) : u.Tiled good n := by
  induction h with
  | top h => exact .top h
  | next here owns good rest ih =>
    refine .next here (owns.congr fun b above _ => same b (by omega)) good ?_
    exact ih fun b above => same b (by omega)

theorem mono (h : t.Tiled good n)
    (weaker : ∀ a line, n ≤ a.toNat → t.Owns a line → good a line → fine a line) :
    t.Tiled fine n := by
  induction h with
  | top h => exact .top h
  | next here owns good rest ih =>
    refine .next here owns (weaker _ _ (by omega) owns good) ?_
    exact ih fun a line above => weaker a line (by omega)

theorem head {a : Address} (h : t.Tiled good a.toNat) :
    ∃ line, t.Owns a line ∧ good a line ∧ t.Tiled good (a.toNat + line.size) := by
  generalize number : a.toNat = n at h
  cases h with
  | top h =>
    have ha := a.toNat_lt
    omega
  | @next _ b line here owns fine rest =>
    obtain rfl : b = a := UInt16.toNat_inj.mp (here.trans number.symm)
    exact ⟨line, owns, fine, rest⟩

theorem instructionStart_zero (h : t.Tiled good 0) : t.instructionStart 0 = 0 := by
  obtain ⟨line, owns, _⟩ := head (a := 0) h
  rw [instructionStart, owns.begins]

theorem exists_owner (h : t.Tiled good n) (b : Address) (above : n ≤ b.toNat) :
    ∃ a line, t.Owns a line ∧ good a line ∧ n ≤ a.toNat ∧ a.toNat ≤ b.toNat ∧
      b.toNat < a.toNat + line.size := by
  induction h with
  | top h =>
    have hb := b.toNat_lt
    omega
  | @next n a line here owns good rest ih =>
    by_cases inside : b.toNat < n + line.size
    · exact ⟨a, line, owns, good, by omega, by omega, by omega⟩
    · obtain ⟨c, other, owns, good, bounds⟩ := ih (by omega)
      exact ⟨c, other, owns, good, by omega, by omega, by omega⟩

theorem from_begin (h : t.Tiled good n) {b : Address} {text : String} (above : n ≤ b.toNat)
    (begins : t.row b = .start text) : t.Tiled good b.toNat := by
  induction h with
  | top h =>
    have hb := b.toNat_lt
    omega
  | @next n a line here owns good rest ih =>
    by_cases same : a.toNat = b.toNat
    · exact .next same owns good (by rw [← same, here]; exact rest)
    · have after := owns.le_of_begins begins (by omega)
      exact ih (by omega)

theorem splice (h : t.Tiled good n) {b : Address} {text : String} (above : n ≤ b.toNat)
    (begins : t.row b = .start text)
    (keeps : ∀ c : Address, c.toNat < b.toNat → u.row c = t.row c)
    (front : ∀ a line, good a line → a.toNat + line.size ≤ b.toNat → fine a line)
    (back : u.Tiled fine b.toNat) : u.Tiled fine n := by
  induction h with
  | top h =>
    have hb := b.toNat_lt
    omega
  | @next n a line here owns good rest ih =>
    by_cases same : a.toNat = b.toNat
    · rw [← here, same]
      exact back
    · have after := owns.le_of_begins begins (by omega)
      refine .next here ?_ (front _ _ good after) (ih (by omega))
      exact owns.congr fun c _ below => keeps c (by omega)

theorem rows_eq {lines : Address → Line} (h : t.Tiled (fun a line => line = lines a) n)
    (h' : u.Tiled (fun a line => line = lines a) n) (b : Address) (above : n ≤ b.toNat) :
    t.row b = u.row b := by
  induction h with
  | top h =>
    have hb := b.toNat_lt
    omega
  | @next n a line here owns same rest ih =>
    cases h' with
    | top h =>
      have ha := a.toNat_lt
      omega
    | @next _ a' line' here' owns' same' rest' =>
      obtain rfl : a = a' := UInt16.toNat_inj.mp (here.trans here'.symm)
      obtain rfl : line = line' := same.trans same'.symm
      by_cases inside : b.toNat < n + line.size
      · exact owns.row_eq owns' (by omega) (by omega)
      · exact ih rest' (by omega)

end Tiled

theorem row_refreshFrom_of_lt (t : Table) (bus : Bus) (full : Bool) (last : Address) (n : Nat)
    {b : Address} (below : b.toNat < n) : (t.refreshFrom bus full last n).2.row b = t.row b := by
  fun_induction refreshFrom t bus full last n with
  | case1 => rfl
  | case2 t last n h a line stop ih =>
    have here : a.toNat = n := UInt16.toNat_ofNat_of_lt' h
    rw [ih (by omega), row_put_of_lt _ _ _ (by omega)]
  | case3 => rfl

/-- A pass from row `n` on tiles the rows from there. Where it can stop, the table must go on in a
good way. -/
theorem tiled_refreshFrom {t : Table} {bus : Bus} {full : Bool} {n : Nat}
    {good : Address → Line → Prop} (last : Address) (fresh : ∀ a, good a (bus.disassemble a))
    (stops : ∀ a : Address, n ≤ a.toNat → full = false →
      t.row a = .start (bus.disassemble a).text → t.Tiled good a.toNat) :
    (t.refreshFrom bus full last n).2.Tiled good n := by
  fun_induction refreshFrom t bus full last n with
  | case1 t last n h a line stop =>
    have here : a.toNat = n := UInt16.toNat_ofNat_of_lt' h
    simp only [Bool.and_eq_true, Bool.not_eq_true', holds_iff] at stop
    rw [← here] at stops ⊢
    exact stops a (Nat.le_refl _) stop.1 stop.2
  | case2 t last n h a line stop ih =>
    have here : a.toNat = n := UInt16.toNat_ofNat_of_lt' h
    have pos : 0 < line.size := bus.disassemble_size_pos a
    have stored := t.owns_put a pos
    refine .next here (stored.congr fun b _ below => ?_) (fresh a) (ih fun b above part same => ?_)
    · exact row_refreshFrom_of_lt _ _ _ _ _ (by omega)
    · have kept : ∀ c : Address, n + line.size ≤ c.toNat → (t.put a line).row c = t.row c :=
        fun c beyond => row_put_of_le t a pos (by omega)
      rw [kept b above] at same
      exact (stops b (by omega) part same).congr fun c beyond => kept c (by omega)
  | case3 t last n h => exact .top (by omega)

end TeachingCpu.Table
