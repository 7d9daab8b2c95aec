import Mathlib.Data.Nat.Digits.Defs
import TeachingCpu.Numeral

/-!
The numbers that a text is read as. A text denotes a number if each of its characters is a digit,
and it is read as that number with or without a plus sign in front.
-/

namespace TeachingCpu.Numeral

/-- The characters are the digits of the number, the most significant first, and there is one at
least. -/
def Denotes (base : Nat) (cs : List Char) (n : Nat) : Prop :=
  ∃ ds : List Nat, ds ≠ [] ∧ cs.map (digitOf base) = ds.map some ∧
    n = Nat.ofDigits base ds.reverse

def Reads (base : Nat) (cs : List Char) (n : Nat) : Prop :=
  Denotes base cs n ∨ ∃ rest, cs = '+' :: rest ∧ Denotes base rest n

theorem accumulate_eq_some_iff {base n v : Nat} {cs : List Char} :
    accumulate base n cs = some v ↔
      ∃ ds : List Nat, cs.map (digitOf base) = ds.map some ∧
        v = n * base ^ ds.length + Nat.ofDigits base ds.reverse := by
  induction cs generalizing n with
  | nil =>
    have empty : v = n * base ^ ([] : List Nat).length + Nat.ofDigits base ([] : List Nat).reverse ↔
        n = v := by simp [eq_comm]
    rw [accumulate, Option.some.injEq, ← empty]
    refine ⟨fun value => ⟨[], rfl, value⟩, ?_⟩
    rintro ⟨ds, digits, value⟩
    obtain rfl : ds = [] := List.map_eq_nil_iff.mp digits.symm
    exact value
  | cons c cs ih =>
    rw [accumulate]
    cases digit : digitOf base c with
    | none =>
      refine iff_of_false (by simp) ?_
      rintro ⟨ds, digits, -⟩
      cases ds <;> simp [digit] at digits
    | some d =>
      have shifted (ds : List Nat) :
          (n * base + d) * base ^ ds.length + Nat.ofDigits base ds.reverse =
          n * base ^ (d :: ds).length + Nat.ofDigits base (d :: ds).reverse := by
        rw [List.reverse_cons, Nat.ofDigits_append, Nat.ofDigits_singleton, List.length_reverse,
          List.length_cons]
        ring
      refine ih.trans ⟨?_, ?_⟩
      · rintro ⟨ds, digits, value⟩
        refine ⟨d :: ds, ?_, value.trans (shifted ds)⟩
        rw [List.map_cons, List.map_cons, digit, digits]
      · rintro ⟨ds, digits, value⟩
        cases ds with
        | nil => simp at digits
        | cons e ds =>
          rw [List.map_cons, List.map_cons, digit, List.cons.injEq] at digits
          obtain rfl : d = e := Option.some.inj digits.1
          exact ⟨ds, digits.2, value.trans (shifted ds).symm⟩

theorem denotes_iff {base n : Nat} {cs : List Char} :
    Denotes base cs n ↔ cs ≠ [] ∧ accumulate base 0 cs = some n := by
  rw [accumulate_eq_some_iff]
  constructor
  · rintro ⟨ds, nonempty, digits, value⟩
    refine ⟨?_, ds, digits, by rw [value, Nat.zero_mul, Nat.zero_add]⟩
    rintro rfl
    exact nonempty (List.map_eq_nil_iff.mp digits.symm)
  · rintro ⟨nonempty, ds, digits, value⟩
    refine ⟨ds, ?_, digits, by rw [value, Nat.zero_mul, Nat.zero_add]⟩
    rintro rfl
    exact nonempty (List.map_eq_nil_iff.mp digits)

theorem not_denotes_plus {base n : Nat} (cs : List Char) : ¬Denotes base ('+' :: cs) n := by
  rintro ⟨ds, -, digits, -⟩
  have sign : digitOf base '+' = none := rfl
  cases ds <;> simp [sign] at digits

theorem reads_iff {base n : Nat} {cs : List Char} :
    Reads base cs n ↔ Denotes base (withoutPlus cs) n := by
  by_cases signed : ∃ rest, cs = '+' :: rest
  · obtain ⟨rest, rfl⟩ := signed
    simp [Reads, not_denotes_plus, withoutPlus]
  · have unsigned : withoutPlus cs = cs := by
      unfold withoutPlus
      split
      · exact absurd ⟨_, rfl⟩ signed
      · rfl
    rw [unsigned]
    refine or_iff_left ?_
    rintro ⟨rest, same, -⟩
    exact signed ⟨rest, same⟩

theorem read?_eq_some_iff {base limit n : Nat} {cs : List Char} :
    read? base limit cs = some n ↔ n ≤ limit ∧ Reads base cs n := by
  rw [reads_iff, denotes_iff, read?]
  cases withoutPlus cs with
  | nil => simp
  | cons c cs => simp [Option.filter_eq_some_iff, and_comm]

theorem count?_eq_some_iff {text : String} {n : Nat} :
    count? text = some n ↔ n < 2 ^ 64 ∧ Reads 10 text.toList n := by
  refine read?_eq_some_iff.trans (and_congr_left' ?_)
  omega

end TeachingCpu.Numeral
