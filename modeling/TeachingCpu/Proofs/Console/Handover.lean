import TeachingCpu.Console
import TeachingCpu.Proofs.Processor.Agreement
import TeachingCpu.Proofs.Processor.Call
import TeachingCpu.Proofs.Processor.Operands

/-!
Handing over keys. Whoever presses keys and the program that takes them share two bytes and nothing
else, and their steps may come in any order. A key is taken only while the state byte is zero, and
the program makes it zero only when it has read the key before, so there is never more than one key
on its way.

The bytes are next to each other, and the program reads and writes words. That it gets no more than
the byte it asks for, and clears the one without the other, is due to their being byte-wide.
-/

namespace TeachingCpu

namespace Machine

/-- Reading the word at an address, from outside or by an instruction with an operand there. -/
inductive Reads (m : Machine) (a : Address) : Word → Machine → Prop
  | access : Reads m a (m.readWord a).1 (m.readWord a).2
  | instruction {w : Word} (operand : ⟨.operand, a, w⟩ ∈ (Recorded.step m.processor).accesses) :
      Reads m a w m.stepOver.2

/-- Writing a word to an address, from outside or by an instruction with its result there. -/
inductive Writes (m : Machine) (a : Address) (w : Word) : Machine → Prop
  | access : Writes m a w (m.setWord a w)
  | instruction (result : ⟨.result, a, w⟩ ∈ (Recorded.step m.processor).accesses) :
      Writes m a w m.stepOver.2

variable {m n : Machine} {a : Address} {w : Word}

theorem Reads.word_eq (h : m.Reads a w n) : w = m.bus.wordAt a := by
  cases h with
  | access => rfl
  | instruction operand => exact (Recorded.faithful_step m.processor _ operand).operand rfl

theorem Writes.bus_eq (h : m.Writes a w n) : n.bus = m.bus.setWord a w := by
  cases h with
  | access => exact Memory.bus_writeWord _ a w
  | instruction result => exact (Recorded.faithful_step m.processor _ result).result rfl

end Machine

namespace Console

/-- Nothing is stored to the keyboard, or what is there already. -/
structure Untouched (m n : Machine) : Prop where
  state : n.bus.byte keyState = m.bus.byte keyState
  input : n.bus.byte keyInput = m.bus.byte keyInput

theorem Untouched.of_bus {m n : Machine} (same : n.bus = m.bus) : Untouched m n :=
  ⟨by rw [same], by rw [same]⟩

inductive Phase where
  | polling
  | reading
  | clearing
  deriving DecidableEq, Repr

inductive Event where
  | press (key : Byte) (taken : Bool)
  | poll (w : Word)
  | read (w : Word)
  | clear
  | other
  deriving DecidableEq, Repr

/-- A step of either side, or one that has nothing to do with the keyboard. -/
inductive Step : Machine → Phase → Event → Machine → Phase → Prop
  | press (m : Machine) (phase : Phase) (key : Byte) :
      Step m phase (.press key (pressKey m key).1) (pressKey m key).2 phase
  | poll {m n : Machine} {w : Word} (reads : m.Reads keyState w n) (untouched : Untouched m n) :
      Step m .polling (.poll w) n (if w = 0 then .polling else .reading)
  | read {m n : Machine} {w : Word} (reads : m.Reads keyInput w n) (untouched : Untouched m n) :
      Step m .reading (.read w) n .clearing
  | clear {m n : Machine} (writes : m.Writes keyState 0 n) : Step m .clearing .clear n .polling
  | other {m n : Machine} (phase : Phase) (untouched : Untouched m n) :
      Step m phase .other n phase

/-- What can happen from `m` on, while the program polls at first. -/
inductive Exchange (m : Machine) : List Event → Machine → Phase → Prop
  | start : Exchange m [] m .polling
  | step {events : List Event} {l n : Machine} {phase phase' : Phase} {e : Event}
      (before : Exchange m events l phase) (next : Step l phase e n phase') :
      Exchange m (events ++ [e]) n phase'

def Event.accepted? : Event → Option Byte
  | press key true => some key
  | _ => none

def Event.word? : Event → Option Word
  | read w => some w
  | _ => none

def accepted (events : List Event) : List Byte := events.filterMap Event.accepted?

def received (events : List Event) : List Word := events.filterMap Event.word?

theorem accepted_concat (events : List Event) (e : Event) :
    accepted (events ++ [e]) = accepted events ++ e.accepted?.toList := by
  rw [accepted, List.filterMap_append, List.filterMap_cons]
  cases e.accepted? <;> rfl

theorem received_concat (events : List Event) (e : Event) :
    received (events ++ [e]) = received events ++ e.word?.toList := by
  rw [received, List.filterMap_append, List.filterMap_cons]
  cases e.word? <;> rfl

def unread (m : Machine) (phase : Phase) : List Byte :=
  if m.bus.byte keyState = 0 ∨ phase = .clearing then [] else [m.bus.byte keyInput]

theorem byteWide_keyState (m : Machine) : m.bus.byteWide keyState = true :=
  show Memory.byteWide keyState = true by decide

theorem byteWide_keyInput (m : Machine) : m.bus.byteWide keyInput = true :=
  show Memory.byteWide keyInput = true by decide

section Keyboard

variable {m n : Machine} {phase : Phase} {w : Word}

theorem wordAt_keyState (m : Machine) :
    m.bus.wordAt keyState = (m.bus.byte keyState).toUInt16 :=
  if_pos (byteWide_keyState m)

theorem wordAt_keyInput (m : Machine) :
    m.bus.wordAt keyInput = (m.bus.byte keyInput).toUInt16 :=
  if_pos (byteWide_keyInput m)

theorem bus_of_writes_keyState (h : m.Writes keyState w n) :
    n.bus = m.bus.setByte keyState (lowByte w) :=
  h.bus_eq.trans (if_pos (byteWide_keyState m))

theorem free_of_clear (h : m.Writes keyState 0 n) : n.bus.byte keyState = 0 := by
  rw [bus_of_writes_keyState h, Bus.byte_setByte, if_pos rfl]
  rfl

theorem unread_free (free : m.bus.byte keyState = 0) : unread m phase = [] := if_pos (.inl free)

theorem unread_clearing (m : Machine) : unread m .clearing = [] := if_pos (.inr rfl)

theorem unread_waiting (waits : m.bus.byte keyState ≠ 0) (other : phase ≠ .clearing) :
    unread m phase = [m.bus.byte keyInput] :=
  if_neg (not_or.mpr ⟨waits, other⟩)

theorem unread_untouched {phase' : Phase} (h : Untouched m n)
    (alike : phase' = .clearing ↔ phase = .clearing) : unread n phase' = unread m phase := by
  simp only [unread, h.state, h.input, alike]

theorem press_free (free : m.bus.byte keyState = 0) (key : Byte) :
    (pressKey m key).1 = true ∧ (pressKey m key).2.bus.byte keyState = keyReady ∧
      (pressKey m key).2.bus.byte keyInput = key := by
  rw [pressKey_free m key free]
  refine ⟨rfl, ?_, ?_⟩
  · rw [Machine.bus_setByte, Bus.byte_setByte, if_pos rfl]
  · rw [Machine.bus_setByte, Bus.byte_setByte, if_neg (by decide), Machine.bus_setByte,
      Bus.byte_setByte, if_pos rfl]

end Keyboard

/-- Tests the state, moves the key to a register and clears the state. -/
def takeKey : Array Byte :=
  #[0x85, 0x2F, 0xFF, 0xDA, 0x9B, 0xC0, 0xFF, 0xDB, 0x80, 0x2F, 0xFF, 0xDA]

def keyTaker : Machine := Machine.initial.load takeKey

structure TakesKey (m : Machine) (a : Address) : Prop where
  pc : m.pc = a
  bytes : ∀ b < keyState, m.bus.byte b = takeKey.getD b.toNat 0

namespace TakesKey

variable {m n : Machine} {a b : Address} {i : Operand → Instruction}

theorem start : TakesKey keyTaker 0 :=
  ⟨rfl, fun b _ => Memory.byte_load Machine.initial.memory takeKey b⟩

theorem press (h : TakesKey m a) (key : Byte) : TakesKey (pressKey m key).2 a := by
  by_cases free : m.bus.byte keyState = 0
  · rw [pressKey_free m key free]
    refine ⟨h.pc, fun b below => ?_⟩
    have state : keyState ≠ b := (UInt16.ne_of_lt below).symm
    have input : keyInput ≠ b := (UInt16.ne_of_lt (UInt16.lt_trans below (by decide))).symm
    rw [Machine.bus_setByte, Bus.byte_setByte, if_neg state, Machine.bus_setByte,
      Bus.byte_setByte, if_neg input]
    exact h.bytes b below
  · rw [pressKey_waiting m key free]
    exact h

theorem next (h : TakesKey m a) (bus : n.bus = m.bus) (pc : n.pc = m.pc + 4) :
    TakesKey n (a + 4) := by
  refine ⟨?_, fun b below => ?_⟩
  · rw [pc, h.pc]
  · rw [bus]
    exact h.bytes b below

theorem atAbsolute (h : TakesKey m a) (low : a ≤ 8)
    (decoded : Instruction.decode (takeKey.getD a.toNat 0) (takeKey.getD (a + 1).toNat 0) =
      i .absolute)
    (aims : word (takeKey.getD (a + 2).toNat 0) (takeKey.getD (a + 2 + 1).toNat 0) = b)
    (long : (i .absolute).baseSize = 2) : m.AtAbsolute i b := by
  have low' : a.toNat ≤ 8 := UInt16.le_iff_toNat_le.mp low
  have reach (k : Address) (few : k.toNat ≤ 3) : a + k < keyState := by
    rw [UInt16.lt_iff_toNat_lt, UInt16.toNat_add]
    simp only [keyState, UInt16.reduceToNat]
    omega
  have instruction : m.bus.instructionAt m.pc = i .absolute := by
    rw [h.pc, Bus.instructionAt, h.bytes _ (reach 1 (by decide)), h.bytes a ?_, decoded]
    have here := reach 0 (by decide)
    rwa [UInt16.add_zero] at here
  refine ⟨?_, instruction, ?_⟩
  · have size : m.processor.current.baseSize = 2 := (congrArg _ instruction).trans long
    have place : m.processor.pc = a := h.pc
    rw [Processor.Complete, size, place]
    omega
  · have narrow : m.bus.byteWide (a + 2) = false := by
      have below := reach 2 (by decide)
      exact (Memory.byteWide_eq_false_iff _).mpr below
    have last : a + 2 + 1 < keyState := by
      rw [UInt16.add_assoc]
      exact reach 3 (by decide)
    rw [h.pc, Bus.wordAt, narrow, if_neg Bool.false_ne_true, h.bytes _ (reach 2 (by decide)),
      h.bytes _ last, aims]

theorem test (h : TakesKey m 0) :
    TakesKey m.stepOver.2 4 ∧ m.stepOver.2.bus = m.bus ∧
      (m.stepOver.2.flags.zero = true ↔ m.bus.wordAt keyState = 0) ∧
      Step m .polling (.poll (m.bus.wordAt keyState)) m.stepOver.2
        (if m.bus.wordAt keyState = 0 then .polling else .reading) := by
  have tests : m.AtAbsolute (.unary .tst) keyState := h.atAbsolute (by decide) rfl rfl rfl
  obtain ⟨operand, bus, zero⟩ := tests.tst
  exact ⟨h.next bus (tests.pc_eq rfl (by decide) (.inl rfl)), bus, zero,
    .poll (.instruction operand) (.of_bus bus)⟩

theorem move (h : TakesKey m 4) :
    TakesKey m.stepOver.2 8 ∧ m.stepOver.2.register 0 = m.bus.wordAt keyInput ∧
      Step m .reading (.read (m.bus.wordAt keyInput)) m.stepOver.2 .clearing := by
  have moves : m.AtAbsolute (.binary .mov · ⟨.register, 0⟩) keyInput :=
    h.atAbsolute (by decide) rfl rfl rfl
  obtain ⟨operand, bus, register⟩ := moves.mov
  exact ⟨h.next bus (moves.pc_eq rfl (by decide) (.inr (by decide))), register,
    .read (.instruction operand) (.of_bus bus)⟩

theorem clear (h : TakesKey m 8) :
    m.stepOver.2.bus.byte keyState = 0 ∧ Step m .clearing .clear m.stepOver.2 .polling := by
  have clears : m.AtAbsolute (.unary .clr) keyState := h.atAbsolute (by decide) rfl rfl rfl
  have writes : m.Writes keyState 0 m.stepOver.2 := .instruction clears.clr
  exact ⟨free_of_clear writes, .clear writes⟩

theorem takes (h : TakesKey m 0) (waits : m.bus.wordAt keyState ≠ 0) {start : Machine}
    {events : List Event} (before : Exchange start events m .polling) :
    ∃ n, n.bus.byte keyState = 0 ∧
      Exchange start (events ++ [.poll (m.bus.wordAt keyState)] ++ [.read (m.bus.wordAt keyInput)] ++
        [.clear]) n .polling := by
  obtain ⟨atMove, bus, -, polled⟩ := h.test
  rw [if_neg waits] at polled
  obtain ⟨atClear, -, read⟩ := atMove.move
  rw [bus] at read
  obtain ⟨room, cleared⟩ := atClear.clear
  exact ⟨_, room, ((before.step polled).step read).step cleared⟩

theorem exchange (h : TakesKey m 0) (free : m.bus.byte keyState = 0) (key early later : Byte) :
    ∃ n, Exchange m [.press key true, .press early false, .poll 0x80, .read key.toUInt16, .clear,
      .press later true] n .polling := by
  obtain ⟨taken, state, input⟩ := press_free free key
  have place := h.press key
  have pressed := Step.press m .polling key
  rw [taken] at pressed
  generalize (pressKey m key).2 = l at pressed place state input
  have ready : l.bus.wordAt keyState = 0x80 := by
    rw [wordAt_keyState, state]
    rfl
  have word : l.bus.wordAt keyInput = key.toUInt16 := by
    rw [wordAt_keyInput, input]
  have waits : l.bus.byte keyState ≠ 0 := by
    rw [state]
    decide
  have refused := Step.press l .polling early
  rw [pressKey_waiting l early waits] at refused
  obtain ⟨n, room, exchanged⟩ := place.takes (by rw [ready]; decide)
    ((Exchange.start.step pressed).step refused)
  rw [ready, word] at exchanged
  have again := Step.press n .polling later
  rw [(press_free room later).1] at again
  exact ⟨_, exchanged.step again⟩

end TakesKey

/-- While the program is busy with a key the state byte stays set, and up to the unread key the words
read are the keys taken. -/
structure InOrder (events : List Event) (m : Machine) (phase : Phase) : Prop where
  busy : phase ≠ .polling → m.bus.byte keyState ≠ 0
  keys : received events ++ (unread m phase).map UInt8.toUInt16 =
    (accepted events).map UInt8.toUInt16

namespace InOrder

variable {events : List Event} {m n : Machine} {phase phase' : Phase} {e : Event} {w : Word}

theorem start (free : m.bus.byte keyState = 0) : InOrder [] m .polling where
  busy := fun other => absurd rfl other
  keys := by
    rw [unread_free free]
    rfl

/-- A step takes the word it reads off the front of what is unread and puts the key it takes on at
the back. -/
theorem concat (h : InOrder events m phase) (busy : phase' ≠ .polling → n.bus.byte keyState ≠ 0)
    (moves : e.word?.toList ++ (unread n phase').map UInt8.toUInt16 =
      (unread m phase ++ e.accepted?.toList).map UInt8.toUInt16) :
    InOrder (events ++ [e]) n phase' where
  busy := busy
  keys := calc
    received (events ++ [e]) ++ (unread n phase').map UInt8.toUInt16
      = received events ++ (e.word?.toList ++ (unread n phase').map UInt8.toUInt16) := by
        rw [received_concat, List.append_assoc]
    _ = received events ++ (unread m phase).map UInt8.toUInt16 ++
          e.accepted?.toList.map UInt8.toUInt16 := by
        rw [moves, List.map_append, List.append_assoc]
    _ = (accepted (events ++ [e])).map UInt8.toUInt16 := by
        rw [h.keys, accepted_concat, List.map_append]

theorem concat_other (h : InOrder events m phase)
    (busy : phase' ≠ .polling → n.bus.byte keyState ≠ 0) (word : e.word? = none)
    (key : e.accepted? = none) (same : unread n phase' = unread m phase) :
    InOrder (events ++ [e]) n phase' := by
  refine h.concat busy ?_
  rw [word, key, same]
  simp

theorem press (h : InOrder events m phase) (key : Byte) :
    InOrder (events ++ [.press key (pressKey m key).1]) (pressKey m key).2 phase := by
  by_cases free : m.bus.byte keyState = 0
  · obtain ⟨taken, state, input⟩ := press_free free key
    obtain rfl : phase = .polling := Decidable.byContradiction fun other => h.busy other free
    have waits : (pressKey m key).2.bus.byte keyState ≠ 0 := by
      rw [state]
      decide
    refine h.concat (fun other => absurd rfl other) ?_
    rw [taken, unread_free free, unread_waiting waits Phase.noConfusion, input]
    rfl
  · rw [pressKey_waiting m key free]
    exact h.concat_other h.busy rfl rfl rfl

theorem poll (h : InOrder events m .polling) (reads : m.Reads keyState w n)
    (untouched : Untouched m n) :
    InOrder (events ++ [.poll w]) n (if w = 0 then .polling else .reading) := by
  have alike : (if w = 0 then Phase.polling else .reading) = .clearing ↔
      Phase.polling = .clearing := by
    split <;> decide
  refine h.concat_other (fun goes free => ?_) rfl rfl (unread_untouched untouched alike)
  have found : w ≠ 0 := fun zero => goes (if_pos zero)
  rw [reads.word_eq, wordAt_keyState, ← untouched.state, free] at found
  contradiction

theorem read (h : InOrder events m .reading) (reads : m.Reads keyInput w n)
    (untouched : Untouched m n) : InOrder (events ++ [.read w]) n .clearing := by
  have waits : m.bus.byte keyState ≠ 0 := h.busy Phase.noConfusion
  refine h.concat (fun _ => untouched.state ▸ waits) ?_
  rw [unread_waiting waits Phase.noConfusion, unread_clearing, reads.word_eq, wordAt_keyInput]
  rfl

theorem clear (h : InOrder events m .clearing) (writes : m.Writes keyState 0 n) :
    InOrder (events ++ [.clear]) n .polling := by
  refine h.concat (fun other => absurd rfl other) ?_
  rw [unread_clearing, unread_free (free_of_clear writes)]
  rfl

theorem other (h : InOrder events m phase) (untouched : Untouched m n) :
    InOrder (events ++ [.other]) n phase :=
  h.concat_other (fun busy => untouched.state ▸ h.busy busy) rfl rfl
    (unread_untouched untouched Iff.rfl)

theorem step (h : InOrder events m phase)
    (next : Step m phase e n phase') : InOrder (events ++ [e]) n phase' := by
  cases next with
  | press _ key => exact h.press key
  | poll reads untouched => exact h.poll reads untouched
  | read reads untouched => exact h.read reads untouched
  | clear writes => exact h.clear writes
  | other _ untouched => exact h.other untouched

end InOrder

/-- Whatever the order of their steps, the program reads the keys that are taken, each once and as
they came, up to one that it has still to read. A key that is not taken leaves no trace. -/
theorem keys_read_in_order {m n : Machine} {events : List Event} {phase : Phase}
    (free : m.bus.byte keyState = 0) (exchanged : Exchange m events n phase) :
    received events ++ (unread n phase).map UInt8.toUInt16 =
        (accepted events).map UInt8.toUInt16 ∧
      (unread n phase).length ≤ 1 ∧
      ∀ (l : Machine) (key : Byte), (pressKey l key).1 = false → (pressKey l key).2 = l := by
  have inOrder : InOrder events n phase := by
    induction exchanged with
    | start => exact .start free
    | step _ next ih => exact ih.step next
  refine ⟨inOrder.keys, ?_, fun l key refused => ?_⟩
  · rw [unread]
    split
    · exact Nat.zero_le 1
    · exact Nat.le_refl 1
  · by_cases room : l.bus.byte keyState = 0
    · rw [pressKey_free l key room] at refused
      contradiction
    · rw [pressKey_waiting l key room]

theorem keys_read_in_order_of_keyTaker :
    ∃ n, keyTaker.bus.byte keyState = 0 ∧
      Exchange keyTaker [.press 0x78 true, .press 0x79 false, .poll 0x80, .read 0x78, .clear,
        .press 0x7A true] n .polling ∧
      [0x78] ++ (unread n .polling).map UInt8.toUInt16 = [0x78, 0x7A] := by
  have free : keyTaker.bus.byte keyState = 0 := by
    have loaded : keyTaker.bus.byte keyState = takeKey.getD keyState.toNat 0 :=
      Memory.byte_load Machine.initial.memory takeKey keyState
    rw [loaded]
    decide
  obtain ⟨n, exchanged⟩ := TakesKey.start.exchange free 0x78 0x79 0x7A
  exact ⟨n, free, exchanged, (keys_read_in_order free exchanged).1⟩

end Console

end TeachingCpu
