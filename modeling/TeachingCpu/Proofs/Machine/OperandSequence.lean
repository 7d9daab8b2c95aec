import TeachingCpu.Proofs.Arithmetic.CarryChain
import TeachingCpu.Proofs.Machine.Executed
import TeachingCpu.Proofs.Processor.Frame

/-!
One-operand instructions executed one after the other. Each of them reads the word of its operand
and leaves the result and the flags there, so the words and the flags that a sequence leaves are
those that its operations give if they are applied to the words that it reads. Where the operands
do not meet, the words that it reads are the ones before the sequence, and the words that it leaves
are there when it ends.
-/

namespace TeachingCpu

namespace Place

def HoldsWord : Place → Prop
  | register _ => True
  | memory a => a < Memory.firstByteWide

def Apart : Place → Place → Prop
  | register r, register s => r ≠ s
  | memory a, memory b => a ≠ b ∧ a + 1 ≠ b ∧ b + 1 ≠ a
  | _, _ => True

theorem Apart.symm {p q : Place} (h : p.Apart q) : q.Apart p := by
  cases p <;> cases q
  · exact fun same => h same.symm
  · trivial
  · trivial
  · exact ⟨h.1.symm, h.2.2, h.2.1⟩

theorem eq_memory_of_address? {p : Place} {a : Address} (h : p.address? = some a) :
    p = memory a := by
  cases p with
  | register r => contradiction
  | memory b => exact congrArg memory (Option.some.inj h)

/-- Whether finding an operand, and fetching the instruction before it, moves no register here. -/
def Steady (o : Operand) : Place → Prop
  | register r => r ≠ Register.pc ∧ o.drift r = 0
  | memory _ => True

end Place

namespace Machine

def held (m : Machine) : Place → Word
  | .register r => m.register r
  | .memory a => m.bus.wordAt a

def placeOf (m : Machine) (o : Operand) : Place := (m.processor.fetch.2.resolve o).1

def wordRead (m : Machine) (o : Operand) : Word := m.processor.fetch.2.operandWord o

def wordLeft (m : Machine) (o : Operand) : Word := m.stepOver.2.held (m.placeOf o)

def Executes (m : Machine) : List (UnaryOp × Operand) → Prop
  | [] => True
  | (op, o) :: rest =>
    m.processor.fetch.1 = some (.unary op o) ∧ m.stepOver.2.Executes rest

/-- What is said of each operand by the machine that is about to execute its instruction. -/
def along {α : Type} (f : Machine → Operand → α) (m : Machine) : List (UnaryOp × Operand) → List α
  | [] => []
  | (_, o) :: rest => f m o :: m.stepOver.2.along f rest

structure Separate (m : Machine) (steps : List (UnaryOp × Operand)) : Prop where
  apart : (m.along placeOf steps).Pairwise Place.Apart
  steady : ∀ place ∈ m.along placeOf steps, ∀ s ∈ steps, place.Steady s.2

variable {m : Machine} {op : UnaryOp} {o : Operand} {steps : List (UnaryOp × Operand)}

theorem length_along {α : Type} (f : Machine → Operand → α) (m : Machine)
    (steps : List (UnaryOp × Operand)) : (m.along f steps).length = steps.length := by
  induction steps generalizing m with
  | nil => rfl
  | cons s steps ih => rw [along, List.length_cons, List.length_cons, ih]

section Step

theorem stepOver_unary (fetched : m.processor.fetch.1 = some (.unary op o)) :
    m.stepOver.1 = .ok ∧
      m.stepOver.2.flags = (op.apply m.flags (m.wordRead o)).flags := by
  have step := Processor.step_eq_execute fetched
  refine ⟨congrArg Prod.fst step, (congrArg (·.2.flags) step).trans ?_⟩
  have flags := m.processor.fetch.2.flags_unary op o
  rw [Processor.unaryResult, m.processor.flags_fetch] at flags
  exact flags

theorem wordLeft_eq (fetched : m.processor.fetch.1 = some (.unary op o))
    (stores : op.stores = true) (room : (m.placeOf o).HoldsWord) :
    m.wordLeft o = (op.apply m.flags (m.wordRead o)).result := by
  have step := Processor.step_eq_execute fetched
  have puts := m.processor.fetch.2.puts_unary stores o
  have after : m.stepOver.2.processor.registers = (m.processor.fetch.2.unary op o).registers ∧
      m.stepOver.2.bus = (m.processor.fetch.2.unary op o).memory.bus :=
    ⟨congrArg (·.2.registers) step, congrArg (·.2.memory.bus) step⟩
  rw [Processor.unaryResult, m.processor.flags_fetch] at puts
  rw [wordLeft]
  change Processor.Puts _ _ (m.placeOf o) _ at puts
  cases place : m.placeOf o with
  | register r =>
    rw [place] at puts
    exact (congrArg (·.get r) after.1).trans puts.1
  | memory a =>
    rw [place] at puts room
    rw [held, after.2, puts, ← Memory.bus_writeWord]
    exact Memory.wordAt_writeWord _ ((Memory.byteWide_eq_false_iff a).mpr room) _

theorem wordRead_eq (steady : (m.placeOf o).Steady o) : m.wordRead o = m.held (m.placeOf o) := by
  rw [wordRead, Processor.operandWord]
  cases place : m.placeOf o with
  | register r =>
    obtain rfl := m.processor.fetch.2.resolve_eq_register place
    rw [place] at steady
    exact m.processor.get_fetch steady.1
  | memory a =>
    have bus : (m.processor.fetch.2.resolve o).2.memory.bus = m.bus :=
      (Recorded.bus_resolve _ o).trans m.processor.bus_fetch
    rw [placeOf] at place
    rw [place, held, ← bus]
    rfl

theorem placeOf_of_storesAt {a : Address}
    (h : (Instruction.unary op o).storesAt? m.processor.fetch.2 = some a) :
    m.placeOf o = .memory a := by
  rw [Instruction.storesAt?] at h
  split at h
  · exact Place.eq_memory_of_address? h
  · contradiction

theorem held_stepOver (fetched : m.processor.fetch.1 = some (.unary op o)) {place : Place}
    (apart : (m.placeOf o).Apart place) (steady : place.Steady o) :
    m.stepOver.2.held place = m.held place := by
  have frame := m.frame_stepOver
  cases place with
  | register r =>
    have free : (Instruction.unary op o).storesIn r = false := by
      refine Bool.and_eq_false_iff.mpr (.inr (beq_eq_false_iff_ne.mpr ?_))
      rintro rfl
      exact apart rfl
    have still : (Instruction.unary op o).drift r = 0 := (UInt16.add_zero _).trans steady.2
    rw [held, frame.registers _ r fetched steady.1 free, still, UInt16.add_zero]
    rfl
  | memory a =>
    have kept : ∀ b, b = a ∨ b = a + 1 → m.stepOver.2.bus.byte b = m.bus.byte b := by
      intro b within
      by_contra changed
      obtain ⟨i, t, fetched', stores, near⟩ := frame.bytes b changed
      obtain rfl := Option.some.inj (fetched.symm.trans fetched')
      rw [placeOf_of_storesAt stores] at apart
      obtain ⟨here, below, above⟩ := apart
      -- no byte of the stored word is one of the other word
      rcases within with rfl | rfl <;> rcases near with high | ⟨-, low⟩
      · exact here high.symm
      · exact below low.symm
      · exact above high
      · exact here ((UInt16.add_left_inj 1).mp low).symm
    exact Memory.wordAt_eq_of_bytes (kept a (.inl rfl)) (kept (a + 1) (.inr rfl))

end Step

section Run

theorem continues_of_executes (executes : m.Executes steps) : m.Continues steps.length := by
  induction steps generalizing m with
  | nil => exact fun i below => absurd below (Nat.not_lt_zero i)
  | cons s steps ih =>
    intro i below
    cases i with
    | zero =>
      rw [executed_zero, (stepOver_unary executes.1).1]
      rfl
    | succ i =>
      rw [← executed_stepOver]
      exact ih executes.2 i (Nat.lt_of_succ_lt_succ below)

theorem applyAll_along (executes : m.Executes steps) (stores : ∀ s ∈ steps, s.1.stores = true)
    (room : ∀ place ∈ m.along placeOf steps, place.HoldsWord) :
    UnaryOp.applyAll m.flags ((steps.map Prod.fst).zip (m.along wordRead steps)) =
      (m.along wordLeft steps, (m.executed steps.length).flags) := by
  induction steps generalizing m with
  | nil => rfl
  | cons s steps ih =>
    obtain ⟨op, o⟩ := s
    obtain ⟨fetched, executes⟩ := executes
    obtain ⟨here, later⟩ := List.forall_mem_cons.mp room
    obtain ⟨goesBack, stores⟩ := List.forall_mem_cons.mp stores
    have rest := ih executes stores later
    rw [(stepOver_unary fetched).2, executed_stepOver] at rest
    rw [along, along, List.map_cons, List.zip_cons_cons, UnaryOp.applyAll_cons, rest,
      wordLeft_eq fetched goesBack here]
    rfl

theorem held_executed (executes : m.Executes steps) {place : Place}
    (apart : ∀ q ∈ m.along placeOf steps, q.Apart place)
    (steady : ∀ s ∈ steps, place.Steady s.2) :
    (m.executed steps.length).held place = m.held place := by
  induction steps generalizing m with
  | nil => rfl
  | cons s steps ih =>
    obtain ⟨op, o⟩ := s
    obtain ⟨fetched, executes⟩ := executes
    obtain ⟨here, later⟩ := List.forall_mem_cons.mp apart
    obtain ⟨still, steady⟩ := List.forall_mem_cons.mp steady
    rw [List.length_cons, ← executed_stepOver, ih executes later steady,
      held_stepOver fetched here still]

theorem Separate.head {s : UnaryOp × Operand} (h : m.Separate (s :: steps)) :
    ∀ place ∈ m.stepOver.2.along placeOf steps, (m.placeOf s.2).Apart place :=
  (List.pairwise_cons.mp h.apart).1

theorem Separate.tail {s : UnaryOp × Operand} (h : m.Separate (s :: steps)) :
    m.stepOver.2.Separate steps where
  apart := (List.pairwise_cons.mp h.apart).2
  steady place member s' later :=
    h.steady place (List.mem_cons_of_mem _ member) s' (List.mem_cons_of_mem _ later)

theorem along_wordRead (executes : m.Executes steps) (separate : m.Separate steps) :
    m.along wordRead steps = (m.along placeOf steps).map m.held := by
  induction steps generalizing m with
  | nil => rfl
  | cons s steps ih =>
    obtain ⟨op, o⟩ := s
    obtain ⟨fetched, executes⟩ := executes
    have steady := separate.steady
    rw [along, along, List.map_cons, ih executes separate.tail,
      wordRead_eq (steady _ (.head _) _ (.head _))]
    refine congrArg (m.held (m.placeOf o) :: ·) (List.map_congr_left fun place member => ?_)
    exact held_stepOver fetched (separate.head place member)
      (steady place (List.mem_cons_of_mem _ member) _ (.head _))

theorem along_wordLeft (executes : m.Executes steps) (separate : m.Separate steps) :
    m.along wordLeft steps =
      (m.along placeOf steps).map (m.executed steps.length).held := by
  induction steps generalizing m with
  | nil => rfl
  | cons s steps ih =>
    obtain ⟨op, o⟩ := s
    obtain ⟨fetched, executes⟩ := executes
    -- what the first instruction leaves has to outlast the other ones
    have kept := held_executed executes (fun q member => (separate.head q member).symm)
      (fun s later => separate.steady _ (.head _) s (List.mem_cons_of_mem _ later))
    rw [along, along, List.map_cons, ih executes separate.tail, List.length_cons,
      ← executed_stepOver, kept]
    rfl

end Run

/-- Arithmetic on a number of several words, executed word by word, is exact: between the words that
the instructions read and the words that they leave, and where the operands do not meet, between
what is at their places before and after. -/
theorem carry_chain_is_exact {c : Chain} {os : List Operand} (nonempty : os ≠ [])
    (executes : m.Executes (c.steps os))
    (room : ∀ place ∈ m.along placeOf (c.steps os), place.HoldsWord) :
    m.Continues os.length ∧
      c.Exact (m.along wordRead (c.steps os)) (m.along wordLeft (c.steps os))
        (m.executed os.length).flags.carry ∧
      (m.Separate (c.steps os) →
        c.Exact ((m.along placeOf (c.steps os)).map m.held)
          ((m.along placeOf (c.steps os)).map (m.executed os.length).held)
          (m.executed os.length).flags.carry) := by
  have continues := continues_of_executes executes
  have left := applyAll_along executes (c.stores_steps os) room
  have length : (m.along wordRead (c.steps os)).length = os.length := by
    rw [length_along, Chain.length_steps]
  have some_word : m.along wordRead (c.steps os) ≠ [] := by
    rw [← List.length_pos_iff, length]
    exact List.length_pos_iff.mpr nonempty
  rw [c.zip_steps length, Chain.length_steps] at left
  rw [Chain.length_steps] at continues
  have exactly := c.exact_applyAll m.flags some_word
  rw [left] at exactly
  refine ⟨continues, exactly, fun separate => ?_⟩
  have after := along_wordLeft executes separate
  rw [Chain.length_steps] at after
  rw [← along_wordRead executes separate, ← after]
  exact exactly

/-- Two words of ones, R0 and the word that R1 points to, and the instructions that increment the
number. -/
def allOnes : Machine :=
  (((((((initial.setByte 0 0x82).setByte 1 0).setByte 2 0x8A).setByte 3 0x21).setByte 0x100
    0xFF).setByte 0x101 0xFF).setRegister (.select 0) 0xFFFF).setRegister (.select 1) 0x100

theorem bus_allOnes : allOnes.bus =
    (((((initial.bus.setByte 0 0x82).setByte 1 0).setByte 2 0x8A).setByte 3 0x21).setByte 0x100
      0xFF).setByte 0x101 0xFF := rfl

theorem fetch_allOnes : allOnes.processor.fetch =
    (some (.unary .inc ⟨.register, 0⟩), allOnes.processor.fetched) := by
  have first : allOnes.bus.byte 0 = 0x82 := by simp [bus_allOnes, Bus.byte_setByte]
  have second : allOnes.bus.byte (0 + 1) = 0 := by simp [bus_allOnes, Bus.byte_setByte]
  exact fetch_of_bytes rfl first second (by decide)

theorem stepOver_allOnes : allOnes.stepOver.2.bus = allOnes.bus ∧ allOnes.stepOver.2.pc = 2 := by
  have step := Processor.step_of_fetch fetch_allOnes
  obtain ⟨-, current, -⟩ := Processor.fetched_of_fetch fetch_allOnes
  constructor
  · refine (congrArg (·.2.memory.bus) step).trans ?_
    have stores : UnaryOp.inc.stores = true := rfl
    exact (allOnes.processor.fetched.puts_unary stores ⟨.register, 0⟩).2
  · refine (congrArg (·.2.pc) step).trans ?_
    refine (allOnes.processor.fetched.pc_unary rfl (.inr (by decide))).trans ?_
    rw [Processor.fetched, current, Processor.pc_setPc]
    rfl

theorem fetch_allOnes_next : allOnes.stepOver.2.processor.fetch =
    (some (.unary .adc ⟨.registerIndirect, 1⟩), allOnes.stepOver.2.processor.fetched) := by
  obtain ⟨bus, pc⟩ := stepOver_allOnes
  have first : allOnes.stepOver.2.bus.byte 2 = 0x8A := by simp [bus, bus_allOnes, Bus.byte_setByte]
  have second : allOnes.stepOver.2.bus.byte (2 + 1) = 0x21 := by
    simp [bus, bus_allOnes, Bus.byte_setByte]
  exact fetch_of_bytes pc first second (by decide)

theorem places_allOnes :
    allOnes.along placeOf (Chain.increment.steps [⟨.register, 0⟩, ⟨.registerIndirect, 1⟩]) =
      [.register 0, .memory 0x100] := by
  have pointer : allOnes.stepOver.2.processor.fetch.2.get 1 = 0x100 := by
    have frame := (frame_stepOver allOnes).registers _ 1 (congrArg Prod.fst fetch_allOnes)
      (by decide) rfl
    exact (allOnes.stepOver.2.processor.get_fetch (by decide)).trans frame
  exact congrArg (fun a => [Place.register 0, Place.memory a]) pointer

theorem carry_chain_is_exact_allOnes :
    number [(allOnes.executed 2).register 0, (allOnes.executed 2).bus.wordAt 0x100] = 0 ∧
      (allOnes.executed 2).flags.carry = true := by
  have executes : allOnes.Executes
      (Chain.increment.steps [⟨.register, 0⟩, ⟨.registerIndirect, 1⟩]) :=
    ⟨congrArg Prod.fst fetch_allOnes, congrArg Prod.fst fetch_allOnes_next, trivial⟩
  have separate : allOnes.Separate
      (Chain.increment.steps [⟨.register, 0⟩, ⟨.registerIndirect, 1⟩]) := by
    constructor <;> rw [places_allOnes] <;>
      simp [Place.Apart, Place.Steady, Chain.steps, Operand.drift, Register.pc]
  obtain ⟨-, -, exactly⟩ := carry_chain_is_exact (c := .increment) (List.cons_ne_nil _ _) executes
    (by rw [places_allOnes]; simp [Place.HoldsWord, Memory.firstByteWide])
  have exactly := exactly separate
  have high : allOnes.bus.wordAt 0x100 = 0xFFFF := by
    have first : allOnes.bus.byte 0x100 = 0xFF := by simp [bus_allOnes, Bus.byte_setByte]
    have second : allOnes.bus.byte (0x100 + 1) = 0xFF := by simp [bus_allOnes, Bus.byte_setByte]
    rw [Bus.wordAt, first, second]
    rfl
  rw [places_allOnes] at exactly
  have before : [Place.register 0, Place.memory 0x100].map allOnes.held = [0xFFFF, 0xFFFF] :=
    congrArg (fun w => [(0xFFFF : Word), w]) high
  rw [before] at exactly
  exact ⟨exactly.1, exactly.2.mpr rfl⟩

end Machine

end TeachingCpu
