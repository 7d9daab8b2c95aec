import TeachingCpu.Run

/-!
What a run does to the machine, whatever its configuration and its observer. One turn of the loop
executes at most one instruction and the observer only looks, so what executing an instruction
preserves holds of the machine that a run leaves.
-/

namespace TeachingCpu.Run

variable {σ : Type}

def Turn.machine : Turn σ → Machine
  | again progress => progress.machine
  | stop report => report.machine

theorem machine_observe (observer : Observer σ) (p : Progress σ) :
    (observe observer p).machine = p.machine := by
  simp only [observe]
  split <;> rfl

def attempt (p : Progress σ) : Outcome × Machine :=
  if p.steps = 0 then p.machine.stepOver else p.machine.step

def advance (config : RunConfig) (observer : Observer σ) (p : Progress σ) :
    Outcome × Machine → Turn σ
  | (.ok, m) | (.noop, m) =>
    let next := { p with machine := m, steps := p.steps + 1 }
    if config.observeSteps then observe observer next else .again next
  | (.halt, m) =>
    .stop (finish observer (some .halt) { p with machine := m, steps := p.steps + 1 })
  | (outcome, m) => .stop (finish observer (some outcome) { p with machine := m })

theorem turn_eq (config : RunConfig) (observer : Observer σ) (p : Progress σ) :
    turn config observer p =
      if !p.running || config.maxSteps.any (· ≤ p.steps) then .stop (finish observer none p)
      else advance config observer p (attempt p) := by
  obtain ⟨machine, running, steps, notes⟩ := p
  simp only [turn, attempt]
  generalize (if steps = 0 then machine.stepOver else machine.step) = result
  obtain ⟨outcome, m⟩ := result
  cases outcome <;> rfl

theorem machine_advance (config : RunConfig) (observer : Observer σ) (p : Progress σ)
    (result : Outcome × Machine) : (advance config observer p result).machine = result.2 := by
  obtain ⟨outcome, m⟩ := result
  cases outcome with
  | ok | noop =>
    simp only [advance]
    split
    · exact machine_observe _ _
    · rfl
  | halt | breakPoint | endOfMemory => rfl

theorem machine_attempt (p : Progress σ) :
    (attempt p).2 = p.machine ∨ (attempt p).2 = p.machine.stepOver.2 := by
  unfold attempt Machine.step
  split
  · exact .inr rfl
  · split
    · exact .inl rfl
    · exact .inr rfl

theorem machine_turn (config : RunConfig) (observer : Observer σ) (p : Progress σ) :
    (turn config observer p).machine = p.machine ∨
      (turn config observer p).machine = p.machine.stepOver.2 := by
  rw [turn_eq]
  split
  · exact .inl rfl
  · rw [machine_advance]
    exact machine_attempt p

theorem loop_induction {config : RunConfig} {observer : Observer σ} {between : Progress σ → Prop}
    {after : Report σ → Prop}
    (again : ∀ p q, between p → turn config observer p = .again q → between q)
    (stop : ∀ p report, between p → turn config observer p = .stop report → after report)
    {fuel : Nat} {p : Progress σ} (start : between p) {report : Report σ}
    (ended : loop config observer fuel p = some report) : after report := by
  induction fuel generalizing p with
  | zero => contradiction
  | succ fuel ih =>
    cases turned : turn config observer p with
    | again q =>
      rw [loop_again turned] at ended
      exact ih (again p q start turned) ended
    | stop last =>
      rw [loop_stop turned] at ended
      cases ended
      exact stop p _ start turned

theorem machine_loop {config : RunConfig} {observer : Observer σ} {holds : Machine → Prop}
    (preserved : ∀ m, holds m → holds m.stepOver.2) {fuel : Nat} {p : Progress σ}
    (start : holds p.machine) {report : Report σ}
    (ended : loop config observer fuel p = some report) : holds report.machine := by
  have kept (q : Progress σ) (before : holds q.machine) :
      holds (turn config observer q).machine := by
    rcases machine_turn config observer q with same | next
    · rwa [same]
    · rw [next]
      exact preserved _ before
  have again (q next : Progress σ) (before : holds q.machine)
      (turned : turn config observer q = .again next) : holds next.machine := by
    have after := kept q before
    rwa [turned] at after
  have stop (q : Progress σ) (last : Report σ) (before : holds q.machine)
      (turned : turn config observer q = .stop last) : holds last.machine := by
    have after := kept q before
    rwa [turned] at after
  exact loop_induction again stop start ended

end TeachingCpu.Run
