import TeachingCpu.Machine

/-!
Running a machine until something stops it: a halt, the breakpoint, the end of memory, the step
limit or a cleared running flag. The first instruction of a run is executed even at the
breakpoint, so a run that stopped there can be continued.

An observer follows the run with a state of its own. It sees the machine after ordinary steps, if
the configuration asks for that, and once more when the run ends. Each time it may let the run go
on, clear the running flag, or abort: an aborted run ends on the spot and leaves the flag as the
observer left it.
-/

namespace TeachingCpu

structure RunConfig where
  breakpoint : Option Address := none
  observeSteps : Bool := false
  /-- The run ends when this many instructions have been executed. Limits and steps stand for
  numbers of 64 bits; a count beyond `2 ^ 64` is left out. -/
  maxSteps : Option Nat := none
  startPc : Option Address := none
  deriving DecidableEq, Repr

namespace Run

inductive Reaction where
  | proceed
  | cancel
  | abort (cancels : Bool)
  deriving DecidableEq, Repr

def Reaction.aborts : Reaction → Bool
  | proceed | cancel => false
  | abort _ => true

def Reaction.cancels : Reaction → Bool
  | proceed => false
  | cancel => true
  | abort cancels => cancels

abbrev Observer (σ : Type) := σ → Machine → Reaction × σ

def blind : Observer Unit := fun notes _ => (.proceed, notes)

structure Progress (σ : Type) where
  machine : Machine
  running : Bool
  /-- Without end, as in `RunConfig.maxSteps`. -/
  steps : Nat
  notes : σ

/-- How a run ended: with an outcome, or without one where the limit or the flag stopped it. -/
structure Summary where
  outcome : Option Outcome
  /-- Without end, as in `RunConfig.maxSteps`. -/
  steps : Nat
  deriving DecidableEq, Repr

structure Report (σ : Type) where
  machine : Machine
  running : Bool
  notes : σ
  summary : Option Summary

inductive Turn (σ : Type) where
  | again (progress : Progress σ)
  | stop (report : Report σ)

def start (config : RunConfig) (m : Machine) : Machine :=
  let m := match config.startPc with
    | none => m
    | some a => m.setPc a
  match config.breakpoint with
  | none => m
  | some a => m.setBreakpoint (some a)

section Start

variable (config : RunConfig) (m : Machine)

theorem start_eq : start config m = { m with
    processor := config.startPc.elim m.processor m.processor.setPc
    breakpoint := config.breakpoint.or m.breakpoint } := by
  unfold start
  cases config.startPc <;> cases config.breakpoint <;> rfl

theorem pc_start : (start config m).pc = config.startPc.getD m.pc := by
  rw [start_eq]
  cases config.startPc with
  | none => rfl
  | some a => exact Processor.pc_setPc m.processor a

theorem register_start {r : Register} (other : r ≠ Register.pc) :
    (start config m).register r = m.register r := by
  rw [start_eq]
  cases config.startPc with
  | none => rfl
  | some a => exact Processor.get_set_of_ne m.processor a other.symm

theorem flags_start : (start config m).flags = m.flags := by
  rw [start_eq]
  cases config.startPc <;> rfl

theorem memory_start : (start config m).memory = m.memory := by
  rw [start_eq]
  cases config.startPc <;> rfl

theorem table_start : (start config m).table = m.table := by
  rw [start_eq]

theorem breakpoint_start : (start config m).breakpoint = config.breakpoint.or m.breakpoint := by
  rw [start_eq]

end Start

def finish {σ : Type} (observer : Observer σ) (outcome : Option Outcome) (p : Progress σ) :
    Report σ :=
  let (reaction, notes) := observer p.notes p.machine
  ⟨p.machine, false, notes, if reaction.aborts then none else some ⟨outcome, p.steps⟩⟩

def observe {σ : Type} (observer : Observer σ) (p : Progress σ) : Turn σ :=
  let (reaction, notes) := observer p.notes p.machine
  let running := p.running && !reaction.cancels
  if reaction.aborts then .stop ⟨p.machine, running, notes, none⟩
  else .again ⟨p.machine, running, p.steps, notes⟩

def turn {σ : Type} (config : RunConfig) (observer : Observer σ) (p : Progress σ) : Turn σ :=
  if !p.running || config.maxSteps.any (· ≤ p.steps) then .stop (finish observer none p)
  else
    let ⟨machine, running, steps, notes⟩ := p
    let (outcome, machine) := if steps = 0 then machine.stepOver else machine.step
    match outcome with
    | .ok | .noop =>
      let p := ⟨machine, running, steps + 1, notes⟩
      if config.observeSteps then observe observer p else .again p
    | .halt => .stop (finish observer (some .halt) ⟨machine, running, steps + 1, notes⟩)
    | .breakPoint | .endOfMemory =>
      .stop (finish observer (some outcome) ⟨machine, running, steps, notes⟩)

/-- Takes at most `fuel` turns; there is no report if none of them ends the run. -/
def loop {σ : Type} (config : RunConfig) (observer : Observer σ) :
    Nat → Progress σ → Option (Report σ)
  | 0, _ => none
  | fuel + 1, p =>
    match turn config observer p with
    | .again p => loop config observer fuel p
    | .stop report => some report

theorem loop_again {σ : Type} {config : RunConfig} {observer : Observer σ} {p q : Progress σ}
    (h : turn config observer p = .again q) (fuel : Nat) :
    loop config observer (fuel + 1) p = loop config observer fuel q := by
  rw [loop, h]

theorem loop_stop {σ : Type} {config : RunConfig} {observer : Observer σ} {p : Progress σ}
    {report : Report σ} (h : turn config observer p = .stop report) (fuel : Nat) :
    loop config observer (fuel + 1) p = some report := by
  rw [loop, h]

end Run

namespace Machine

def run {σ : Type} (m : Machine) (fuel : Nat) (config : RunConfig) (running : Bool)
    (observer : Run.Observer σ) (notes : σ) : Option (Run.Report σ) :=
  Run.loop config observer fuel ⟨Run.start config m, running, 0, notes⟩

def spawn {σ : Type} (m : Machine) (fuel : Nat) (config : RunConfig) (running : Bool)
    (observer : Run.Observer σ) (notes : σ) : Task (Option (Run.Report σ)) :=
  Task.spawn fun _ => m.run fuel config running observer notes

end Machine

end TeachingCpu
