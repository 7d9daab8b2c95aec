import TeachingCpu.Processor.Basic
import TeachingCpu.Proofs.Memory.WordAccess

/-!
The stack below the stack pointer. Calls are nested if every pop is matched with an earlier push, as
brackets are: between the two, all that is pushed is taken back. Such calls find their words again
whatever lies in the slots from before, since a slot is written by the push that comes to it and not
read before that. A push moves the stack pointer before it writes and a pop reads where the stack
pointer was, so both use the slot that is the deepest in use while the word is there.
-/

namespace TeachingCpu

inductive StackCall where
  | push (w : Word)
  | pop
  deriving DecidableEq, Repr

namespace StackCall

/-- Calls that take back all they push, with the words that their pops return: what lies between a
push and the pop that is matched with it takes back all it pushes. -/
inductive Balanced : List StackCall → List Word → Prop
  | nil : Balanced [] []
  | nest {inner rest : List StackCall} {taken more : List Word} (w : Word)
      (inside : Balanced inner taken) (after : Balanced rest more) :
      Balanced (push w :: (inner ++ pop :: rest)) (taken ++ w :: more)

/-- Calls of which every pop is matched with an earlier push, with the words that the pops return
and the words of the pushes that are left unmatched, both in the order of the calls. -/
inductive Nested : List StackCall → List Word → List Word → Prop
  | nil : Nested [] [] []
  | keep {calls : List StackCall} {taken left : List Word} (w : Word)
      (before : Nested calls taken left) : Nested (calls ++ [push w]) taken (left ++ [w])
  | balanced {calls inner : List StackCall} {taken left more : List Word}
      (before : Nested calls taken left) (after : Balanced inner more) :
      Nested (calls ++ inner) (taken ++ more) left

/-- Which slot each call uses, if `n` are in use before the first. The topmost slot is number one; a
pop that finds no slot in use has number zero. -/
def depths : Nat → List StackCall → List Nat
  | _, [] => []
  | n, push _ :: calls => (n + 1) :: depths (n + 1) calls
  | n, pop :: calls => n :: depths (n - 1) calls

section Nesting

variable {calls inner more : List StackCall} {taken left other : List Word}

theorem Balanced.append (h : Balanced calls taken) (h' : Balanced more other) :
    Balanced (calls ++ more) (taken ++ other) := by
  induction h with
  | nil => exact h'
  | nest w inside _ _ ih =>
    simpa only [List.cons_append, List.append_assoc] using inside.nest w ih

theorem Nested.exists_last {w : Word} (h : Nested calls taken (left ++ [w])) :
    ∃ front inner taken' more, calls = front ++ push w :: inner ∧ taken = taken' ++ more ∧
      Nested front taken' left ∧ Balanced inner more := by
  generalize kept : left ++ [w] = words at h
  induction h with
  | nil => simp at kept
  | @keep calls taken _ _ before _ =>
    obtain ⟨rfl, rfl⟩ := List.append_singleton_inj.mp kept
    exact ⟨calls, [], taken, [], rfl, (List.append_nil _).symm, before, .nil⟩
  | balanced _ after ih =>
    obtain ⟨front, inner, taken', more, rfl, rfl, nested, balanced⟩ := ih kept
    refine ⟨front, _, taken', _, ?_, List.append_assoc _ _ _, nested, balanced.append after⟩
    rw [List.append_assoc, List.cons_append]

theorem Nested.pop {w : Word} (h : Nested calls taken (left ++ [w])) :
    Nested (calls ++ [pop]) (taken ++ [w]) left := by
  obtain ⟨front, inner, taken', more, rfl, rfl, nested, balanced⟩ := h.exists_last
  simpa only [List.append_assoc, List.cons_append] using nested.balanced (balanced.nest w .nil)

theorem Balanced.depths_append (h : Balanced calls taken) (n : Nat) (more : List StackCall) :
    depths n (calls ++ more) = depths n calls ++ depths n more := by
  induction h generalizing n more with
  | nil => rfl
  | nest w _ _ ihInside ihAfter =>
    simp only [List.cons_append, List.append_assoc, depths, ihInside, ihAfter, Nat.add_sub_cancel]

theorem Nested.depths_append (h : Nested calls taken left) (more : List StackCall) :
    depths 0 (calls ++ more) = depths 0 calls ++ depths left.length more := by
  induction h generalizing more with
  | nil => rfl
  | keep w _ ih =>
    rw [List.append_assoc, ih, ih, List.append_assoc, List.length_append, List.length_singleton]
    rfl
  | balanced _ after ih =>
    rw [List.append_assoc, ih, ih, after.depths_append, List.append_assoc]

theorem Balanced.zero_notMem_depths (h : Balanced calls taken) (n : Nat) : 0 ∉ depths n calls := by
  induction h generalizing n with
  | nil => exact List.not_mem_nil
  | nest w inside _ ihInside ihAfter =>
    simp [depths, inside.depths_append, ihInside, ihAfter]

theorem Nested.zero_notMem_depths (h : Nested calls taken left) : 0 ∉ depths 0 calls := by
  induction h with
  | nil => exact List.not_mem_nil
  | keep w before ih => simp [before.depths_append, depths, ih]
  | balanced before after ih =>
    rw [before.depths_append, List.mem_append, not_or]
    exact ⟨ih, after.zero_notMem_depths _⟩

theorem Nested.exists_append (h : Nested calls taken left) (own : 0 ∉ depths left.length more) :
    ∃ taken' left', Nested (calls ++ more) taken' left' := by
  induction more generalizing calls taken left with
  | nil => exact ⟨taken, left, by rwa [List.append_nil]⟩
  | cons call more ih =>
    cases call with
    | push w =>
      rw [depths, List.mem_cons, not_or] at own
      simpa using ih (h.keep w) (by simpa using own.2)
    | pop =>
      rw [depths, List.mem_cons, not_or] at own
      rcases List.eq_nil_or_concat left with rfl | ⟨rest, w, rfl⟩
      · exact absurd rfl own.1
      · rw [List.concat_eq_append] at h own
        simpa using ih h.pop (by simpa using own.2)

theorem exists_nested_iff : (∃ taken left, Nested calls taken left) ↔ 0 ∉ depths 0 calls := by
  constructor
  · rintro ⟨taken, left, nested⟩
    exact nested.zero_notMem_depths
  · exact Nested.nil.exists_append

end Nesting

end StackCall

def slot (s : Address) (d : Nat) : Address := s - UInt16.ofNat (2 * d)

/-- Whether a word can lie there: `d` is counted from one, the addresses do not go below zero, and
both bytes of the word are kept. -/
def HasSlot (s : Address) (d : Nat) : Prop :=
  1 ≤ d ∧ 2 * d ≤ s.toNat ∧ s.toNat - 2 * d < 0xFFDA

instance (s : Address) (d : Nat) : Decidable (HasSlot s d) :=
  inferInstanceAs (Decidable (_ ∧ _ ∧ _))

section Slot

variable {s : Address} {d n : Nat}

theorem slot_zero (s : Address) : slot s 0 = s := UInt16.sub_zero s

theorem toNat_slot (h : 2 * d ≤ s.toNat) : (slot s d).toNat = s.toNat - 2 * d := by
  have top := s.toNat_lt
  rw [slot, UInt16.toNat_sub, UInt16.toNat_ofNat']
  omega

theorem slot_sub_two (s : Address) (n : Nat) : slot s n - 2 = slot s (n + 1) := by
  have top := s.toNat_lt
  apply UInt16.toNat_inj.mp
  simp only [slot, UInt16.toNat_sub, UInt16.toNat_ofNat', UInt16.reduceToNat]
  omega

theorem slot_add_two (s : Address) (n : Nat) : slot s (n + 1) + 2 = slot s n := by
  rw [← slot_sub_two, UInt16.sub_add_cancel]

theorem byteWide_slot (h : HasSlot s d) : Memory.byteWide (slot s d) = false := by
  obtain ⟨_, within, below⟩ := h
  rw [Memory.byteWide_eq_false_iff, UInt16.lt_iff_toNat_lt, toNat_slot within]
  exact below

end Slot

namespace Memory

/-- The words in the first `n` slots below `s`, from the topmost one downwards. -/
def slots (m : Memory) (s : Address) (n : Nat) : List Word :=
  (List.range n).map fun i => m.wordAt (slot s (i + 1))

theorem slots_succ (m : Memory) (s : Address) (n : Nat) :
    m.slots s (n + 1) = m.slots s n ++ [m.wordAt (slot s (n + 1))] := by
  rw [slots, List.range_succ, List.map_append]
  rfl

theorem slots_writeWord (m : Memory) {s : Address} {n : Nat} (room : HasSlot s (n + 1))
    (w : Word) : (m.writeWord (slot s (n + 1)) w).slots s n = m.slots s n := by
  obtain ⟨_, within, _⟩ := room
  refine List.map_congr_left fun i member => ?_
  have above : i < n := List.mem_range.mp member
  refine wordAt_congr m _ fun c higher => m.byte_writeWord_of_ne w ?_ ?_
  all_goals
    rintro rfl
    simp only [UInt16.le_iff_toNat_le, UInt16.toNat_add, UInt16.reduceToNat] at higher
    rw [toNat_slot (by omega), toNat_slot within] at higher
    omega

end Memory

namespace Processor

def perform (p : Processor) : List StackCall → List Word × Processor
  | [] => ([], p)
  | .push w :: calls => (p.push w).perform calls
  | .pop :: calls =>
    let (w, p) := p.pop
    let (words, p) := p.perform calls
    (w :: words, p)

theorem perform_append (p : Processor) (calls more : List StackCall) :
    p.perform (calls ++ more) =
      ((p.perform calls).1 ++ ((p.perform calls).2.perform more).1,
        ((p.perform calls).2.perform more).2) := by
  induction calls generalizing p with
  | nil => rfl
  | cons call calls ih =>
    cases call with
    | push w => exact ih (p.push w)
    | pop =>
      show (p.pop.1 :: (p.pop.2.perform (calls ++ more)).1, (p.pop.2.perform (calls ++ more)).2) = _
      rw [ih]
      rfl

/-- The words are on the stack below `s`, the latest one last. -/
structure Holds (p : Processor) (s : Address) (words : List Word) : Prop where
  sp : p.get Register.sp = slot s words.length
  slots : p.memory.slots s words.length = words

structure KeepsRest (p q : Processor) (s : Address) (used : List Nat) : Prop where
  bytes : ∀ b, (∀ d ∈ used, b ≠ slot s d ∧ b ≠ slot s d + 1) → q.memory.byte b = p.memory.byte b
  loaded : q.memory.loaded = p.memory.loaded
  registers : ∀ r, r ≠ Register.sp → q.get r = p.get r
  flags : q.flags = p.flags

namespace KeepsRest

variable {p q r : Processor} {s : Address} {used more : List Nat}

theorem refl (p : Processor) (s : Address) : p.KeepsRest p s [] :=
  ⟨fun _ _ => rfl, rfl, fun _ _ => rfl, rfl⟩

theorem trans (h : p.KeepsRest q s used) (h' : q.KeepsRest r s more) :
    p.KeepsRest r s (used ++ more) where
  bytes b apart := by
    rw [List.forall_mem_append] at apart
    rw [h'.bytes b apart.2, h.bytes b apart.1]
  loaded := h'.loaded.trans h.loaded
  registers n other := (h'.registers n other).trans (h.registers n other)
  flags := h'.flags.trans h.flags

end KeepsRest

section Calls

variable {p : Processor} {s : Address} {words : List Word}

theorem Holds.next_slot (h : p.Holds s words) :
    p.get Register.sp - 2 = slot s (words.length + 1) := by
  rw [h.sp, slot_sub_two]

theorem Holds.push (h : p.Holds s words) (room : HasSlot s (words.length + 1)) (w : Word) :
    (p.push w).Holds s (words ++ [w]) := by
  rw [push_eq, h.next_slot]
  constructor
  · rw [List.length_append, List.length_singleton]
    exact p.get_set_self _ _
  · have above := p.memory.slots_writeWord room w
    have top := p.memory.wordAt_writeWord (byteWide_slot room) w
    rw [List.length_append, List.length_singleton, Memory.slots_succ]
    show (p.memory.writeWord _ w).slots s words.length ++ [(p.memory.writeWord _ w).wordAt _] = _
    rw [above, h.slots, top]

theorem Holds.keepsRest_push (h : p.Holds s words) (w : Word) :
    p.KeepsRest (p.push w) s [words.length + 1] := by
  rw [push_eq, h.next_slot]
  refine ⟨fun b apart => ?_, Memory.loaded_writeWord _ _ _, fun r other => ?_, rfl⟩
  · obtain ⟨high, low⟩ := apart _ (List.mem_singleton_self _)
    exact p.memory.byte_writeWord_of_ne w high.symm low.symm
  · exact p.get_set_of_ne _ other.symm

theorem Holds.pop {w : Word} (h : p.Holds s (words ++ [w])) :
    p.pop.1 = w ∧ p.pop.2.Holds s words := by
  obtain ⟨sp, slots⟩ := h
  rw [List.length_append, List.length_singleton] at sp slots
  rw [Memory.slots_succ] at slots
  obtain ⟨above, top⟩ := List.append_singleton_inj.mp slots
  refine ⟨?_, ?_, above⟩
  · rw [pop_eq, sp]
    exact top
  · rw [pop_eq, sp, slot_add_two]
    exact p.get_set_self _ _

theorem keepsRest_pop (p : Processor) (s : Address) (n : Nat) : p.KeepsRest p.pop.2 s [n] :=
  ⟨fun _ _ => rfl, rfl, fun _ other => p.get_set_of_ne _ other.symm, rfl⟩

end Calls

/-- Calls that find some words below `s` return the taken ones and leave the others there. -/
structure Performs (p : Processor) (s : Address) (words : List Word) (calls : List StackCall)
    (taken left : List Word) : Prop where
  taken : (p.perform calls).1 = taken
  holds : (p.perform calls).2.Holds s left
  rest : p.KeepsRest (p.perform calls).2 s (StackCall.depths words.length calls)

section Performs

open StackCall

variable {p : Processor} {s : Address} {words taken left other final : List Word}
  {calls more : List StackCall}

theorem Holds.performs_nil (h : p.Holds s words) : p.Performs s words [] [] words :=
  ⟨rfl, h, .refl p s⟩

theorem Holds.performs_push (h : p.Holds s words) (room : HasSlot s (words.length + 1))
    (w : Word) : p.Performs s words [.push w] [] (words ++ [w]) :=
  ⟨rfl, h.push room w, h.keepsRest_push w⟩

theorem Holds.performs_pop {w : Word} (h : p.Holds s (words ++ [w])) :
    p.Performs s (words ++ [w]) [.pop] [w] words :=
  ⟨congrArg (fun v => [v]) h.pop.1, h.pop.2, p.keepsRest_pop s _⟩

theorem Performs.append (h : p.Performs s words calls taken left)
    (h' : (p.perform calls).2.Performs s left more other final)
    (depth : depths words.length (calls ++ more) =
      depths words.length calls ++ depths left.length more) :
    p.Performs s words (calls ++ more) (taken ++ other) final where
  taken := by rw [perform_append, h.taken, h'.taken]
  holds := by
    rw [perform_append]
    exact h'.holds
  rest := by
    rw [perform_append, depth]
    exact h.rest.trans h'.rest

/-- Balanced calls leave the words that they find, and return their own. -/
theorem performs_of_balanced (balanced : Balanced calls taken) (h : p.Holds s words)
    (room : ∀ d ∈ depths words.length calls, HasSlot s d) :
    p.Performs s words calls taken words := by
  induction balanced generalizing p words with
  | nil => exact h.performs_nil
  | @nest inner rest taken more w inside after ihInside ihAfter =>
    have length : (words ++ [w]).length = words.length + 1 := List.length_append
    simp only [depths, inside.depths_append, Nat.add_sub_cancel, List.forall_mem_cons,
      List.forall_mem_append] at room
    obtain ⟨own, inner', _, rest'⟩ := room
    -- the word of the push is the last one again when its pop comes
    have pushed := h.performs_push own w
    have nested := ihInside pushed.holds (by rwa [length])
    have popped := nested.holds.performs_pop
    have done := popped.append (ihAfter popped.holds rest') (by rw [length]; rfl)
    refine pushed.append (nested.append done ?_) (by rw [length]; rfl)
    exact inside.depths_append _ _

theorem performs_of_nested (nested : Nested calls taken left) (h : p.Holds s [])
    (room : ∀ d ∈ depths 0 calls, HasSlot s d) : p.Performs s [] calls taken left := by
  induction nested with
  | nil => exact h.performs_nil
  | keep w before ih =>
    rw [before.depths_append, List.forall_mem_append] at room
    have earlier := ih room.1
    have pushed := earlier.holds.performs_push (room.2 _ (List.mem_singleton_self _)) w
    have all := earlier.append pushed (before.depths_append _)
    rwa [List.append_nil] at all
  | balanced before after ih =>
    rw [before.depths_append, List.forall_mem_append] at room
    have earlier := ih room.1
    exact earlier.append (performs_of_balanced after earlier.holds room.2) (before.depths_append _)

end Performs

/-- The stack is last in, first out. If every call has a slot below the stack pointer `s`, then each
pop is matched with an earlier push, and however the calls are nested, the pops return the words of
the pushes that they are matched with. The words of the pushes left unmatched lie below `s` in the
order in which they came, the stack pointer is at the last of them, and nothing else has changed
outside the slots in use. -/
theorem stack_is_lifo (p : Processor) (calls : List StackCall)
    (room : ∀ d ∈ StackCall.depths 0 calls, HasSlot (p.get Register.sp) d) :
    (∃ taken left, StackCall.Nested calls taken left) ∧
      ∀ taken left, StackCall.Nested calls taken left →
        let s := p.get Register.sp
        let q := (p.perform calls).2
        (p.perform calls).1 = taken ∧
        q.get Register.sp = s - UInt16.ofNat (2 * left.length) ∧
        (List.range left.length).map (fun i => q.memory.wordAt (slot s (i + 1))) = left ∧
        p.KeepsRest q s (StackCall.depths 0 calls) := by
  have own : 0 ∉ StackCall.depths 0 calls := fun member => absurd (room 0 member).1 (by decide)
  refine ⟨StackCall.exists_nested_iff.mpr own, fun taken left nested => ?_⟩
  have start : p.Holds (p.get Register.sp) [] := ⟨(slot_zero _).symm, rfl⟩
  have performed := performs_of_nested nested start room
  exact ⟨performed.taken, performed.holds.sp, performed.holds.slots, performed.rest⟩

/-- The first slot lies across the border to the byte-wide addresses. -/
def stackAtBorder : Processor := initial.set Register.sp 0xFFDB

theorem stack_is_lifo_at_border :
    let calls : List StackCall :=
      [.push 0xABCD, .push 2, .push 3, .pop, .pop, .push 4, .push 5, .pop]
    let q := (stackAtBorder.perform calls).2
    (stackAtBorder.perform calls).1 = [3, 2, 5] ∧
      q.get Register.sp = 0xFFD7 ∧
      q.memory.wordAt 0xFFD9 = 0xABCD ∧ q.memory.wordAt 0xFFD7 = 4 ∧
      q.memory.byte 0xFFDB = 0 := by
  intro calls q
  have pair : StackCall.Balanced [.push 2, .push 3, .pop, .pop] [3, 2] :=
    .nest 2 (.nest 3 .nil .nil) .nil
  have nested : StackCall.Nested calls [3, 2, 5] [0xABCD, 4] :=
    (((StackCall.Nested.nil.keep 0xABCD).balanced pair).keep 4).balanced (.nest 5 .nil .nil)
  have pointer : stackAtBorder.get Register.sp = 0xFFDB := get_set_self _ _ _
  obtain ⟨_, lifo⟩ := stack_is_lifo stackAtBorder calls (by rw [pointer]; decide)
  obtain ⟨taken, sp, words, rest⟩ := lifo _ _ nested
  rw [pointer] at sp words rest
  have slots : [q.memory.wordAt 0xFFD9, q.memory.wordAt 0xFFD7] = [0xABCD, 4] := words
  rw [List.cons.injEq, List.cons.injEq] at slots
  have kept := rest.bytes 0xFFDB (by decide)
  exact ⟨taken, sp, slots.1, slots.2.1, kept.trans (AddressMap.get_fill 0 _)⟩

end Processor

end TeachingCpu
