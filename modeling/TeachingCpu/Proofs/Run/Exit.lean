import TeachingCpu.Proofs.Machine.Executed
import TeachingCpu.Proofs.Run.Invariant

/-!
Where a run ends. The machines that a run goes through are the ones after one instruction, two
instructions and so on, and it ends at the first of them that gives it a reason: the step limit, the
breakpoint, a halt or the end of memory, in this order. Only the breakpoint of the very first
machine is passed over. An observer sees the machines on the way if it is asked to, and the last one
in any case.
-/

namespace TeachingCpu.Run

/-- The number of instructions that a run has begun. The one that runs into the end of memory is no
step. -/
def Summary.executions (s : Summary) : Nat :=
  if s.outcome = some .endOfMemory then s.steps + 1 else s.steps

/-- How a run ends at the machine it has reached after `k` instructions, if it ends there. -/
def exit? (config : RunConfig) (m : Machine) (k : Nat) : Option (Summary × Machine) :=
  if config.maxSteps = some k then some (⟨none, k⟩, m)
  else if 1 ≤ k ∧ m.breakpoint = some m.pc then some (⟨some .breakPoint, k⟩, m)
  else
    match m.stepOver with
    | (.halt, n) => some (⟨some .halt, k + 1⟩, n)
    | (.endOfMemory, n) => some (⟨some .endOfMemory, k⟩, n)
    | _ => none

def Onward (config : RunConfig) (m : Machine) (k : Nat) : Prop :=
  ∀ i < k, exit? config (m.executed i) i = none

section Exit

variable {config : RunConfig} {m : Machine} {k : Nat}

theorem exit?_limit (h : config.maxSteps = some k) : exit? config m k = some (⟨none, k⟩, m) :=
  if_pos h

theorem exit?_breakpoint (h : config.maxSteps ≠ some k) (started : 1 ≤ k)
    (here : m.breakpoint = some m.pc) : exit? config m k = some (⟨some .breakPoint, k⟩, m) := by
  rw [exit?, if_neg h, if_pos ⟨started, here⟩]

theorem exit?_execution (h : config.maxSteps ≠ some k)
    (elsewhere : 1 ≤ k → m.breakpoint ≠ some m.pc) :
    exit? config m k =
      match m.stepOver with
      | (.halt, n) => some (⟨some .halt, k + 1⟩, n)
      | (.endOfMemory, n) => some (⟨some .endOfMemory, k⟩, n)
      | _ => none := by
  rw [exit?, if_neg h, if_neg fun both => elsewhere both.1 both.2]

theorem exit?_halt (h : config.maxSteps ≠ some k) (elsewhere : 1 ≤ k → m.breakpoint ≠ some m.pc)
    (halts : m.stepOver.1 = .halt) :
    exit? config m k = some (⟨some .halt, k + 1⟩, m.stepOver.2) := by
  rw [exit?_execution h elsewhere]
  generalize m.stepOver = result at halts
  obtain ⟨outcome, n⟩ := result
  cases halts
  rfl

theorem exit?_eq_none_iff : exit? config m k = none ↔
    config.maxSteps ≠ some k ∧ (1 ≤ k → m.breakpoint ≠ some m.pc) ∧
      m.stepOver.1.continues = true := by
  have possible := m.outcome_stepOver_ne_breakPoint
  by_cases limit : config.maxSteps = some k
  · simp [exit?_limit limit, limit]
  by_cases stops : 1 ≤ k ∧ m.breakpoint = some m.pc
  · simp [exit?_breakpoint limit stops.1 stops.2, stops]
  · have elsewhere : 1 ≤ k → m.breakpoint ≠ some m.pc := not_and.mp stops
    rw [exit?_execution limit elsewhere]
    generalize m.stepOver = result at possible
    obtain ⟨outcome, n⟩ := result
    cases outcome <;> simp_all [Outcome.continues]

theorem cases_of_exit {s : Summary} {n : Machine} (h : exit? config m k = some (s, n)) :
    (config.maxSteps = some k ∧ s = ⟨none, k⟩ ∧ n = m) ∨
      config.maxSteps ≠ some k ∧
        ((1 ≤ k ∧ m.breakpoint = some m.pc ∧ s = ⟨some .breakPoint, k⟩ ∧ n = m) ∨
          (1 ≤ k → m.breakpoint ≠ some m.pc) ∧ n = m.stepOver.2 ∧
            ((m.stepOver.1 = .halt ∧ s = ⟨some .halt, k + 1⟩) ∨
              (m.stepOver.1 = .endOfMemory ∧ s = ⟨some .endOfMemory, k⟩))) := by
  by_cases limit : config.maxSteps = some k
  · rw [exit?_limit limit] at h
    cases h
    exact .inl ⟨limit, rfl, rfl⟩
  refine .inr ⟨limit, ?_⟩
  by_cases stops : 1 ≤ k ∧ m.breakpoint = some m.pc
  · rw [exit?_breakpoint limit stops.1 stops.2] at h
    cases h
    exact .inl ⟨stops.1, stops.2, rfl, rfl⟩
  · have elsewhere : 1 ≤ k → m.breakpoint ≠ some m.pc := not_and.mp stops
    rw [exit?_execution limit elsewhere] at h
    refine .inr ⟨elsewhere, ?_⟩
    split at h
    · next last stepped =>
      cases h
      rw [stepped]
      exact ⟨rfl, .inl ⟨rfl, rfl⟩⟩
    · next last stepped =>
      cases h
      rw [stepped]
      exact ⟨rfl, .inr ⟨rfl, rfl⟩⟩
    · contradiction

end Exit

namespace Onward

variable {config : RunConfig} {m : Machine} {k : Nat}

theorem succ (h : Onward config m k) (next : exit? config (m.executed k) k = none) :
    Onward config m (k + 1) := by
  intro i below
  rcases Nat.lt_succ_iff_lt_or_eq.mp below with early | rfl
  · exact h i early
  · exact next

theorem le_limit (h : Onward config m k) {limit : Nat} (limited : config.maxSteps = some limit) :
    k ≤ limit := by
  by_contra beyond
  have reached := h limit (by omega)
  rw [exit?_limit limited] at reached
  contradiction

theorem continues (h : Onward config m k) : m.Continues k :=
  fun i below => (exit?_eq_none_iff.mp (h i below)).2.2

end Onward

theorem exists_first_exit {config : RunConfig} {m : Machine} {k : Nat}
    (h : exit? config (m.executed k) k ≠ none) :
    ∃ j ≤ k, Onward config m j ∧ ∃ s n, exit? config (m.executed j) j = some (s, n) := by
  induction k using Nat.strongRecOn with
  | ind k ih =>
    by_cases onward : Onward config m k
    · obtain ⟨⟨s, n⟩, exits⟩ := Option.ne_none_iff_exists'.mp h
      exact ⟨k, Nat.le_refl k, onward, s, n, exits⟩
    · obtain ⟨i, below, earlier⟩ : ∃ i < k, exit? config (m.executed i) i ≠ none := by
        simpa [Onward] using onward
      obtain ⟨j, early, first⟩ := ih i below earlier
      exact ⟨j, by omega, first⟩

variable {σ : Type}

def afterStep (config : RunConfig) (observer : Observer σ) (p : Progress σ) : Turn σ :=
  if config.observeSteps then observe observer p else .again p

theorem turn_cleared {config : RunConfig} {observer : Observer σ} {p : Progress σ}
    (h : p.running = false) : turn config observer p = .stop (finish observer none p) := by
  rw [turn_eq, h]
  rfl

theorem turn_running {config : RunConfig} {observer : Observer σ} {p : Progress σ}
    (running : p.running = true)
    (within : ∀ limit, config.maxSteps = some limit → p.steps ≤ limit) :
    turn config observer p =
      match exit? config p.machine p.steps with
      | some (s, n) => .stop (finish observer s.outcome ⟨n, true, s.steps, p.notes⟩)
      | none => afterStep config observer ⟨p.machine.stepOver.2, true, p.steps + 1, p.notes⟩ := by
  obtain ⟨m, flag, k, notes⟩ := p
  subst running
  rw [turn_eq]
  by_cases limit : config.maxSteps = some k
  · rw [exit?_limit limit, limit]
    simp
  · -- the loop would stop beyond the limit as well, but the run has not got past it
    have free : config.maxSteps.any (· ≤ k) = false := by
      cases bound : config.maxSteps with
      | none => rfl
      | some limit' =>
        have above := within limit' bound
        rw [bound, Option.some.injEq] at limit
        simp only at above
        simp only [Option.any_some, decide_eq_false_iff_not]
        omega
    rw [free]
    by_cases stops : 1 ≤ k ∧ m.breakpoint = some m.pc
    · have later : k ≠ 0 := by omega
      rw [exit?_breakpoint limit stops.1 stops.2]
      simp [attempt, later, m.step_at_breakpoint stops.2, advance]
    · have elsewhere : 1 ≤ k → m.breakpoint ≠ some m.pc := not_and.mp stops
      have executes : attempt (⟨m, true, k, notes⟩ : Progress σ) = m.stepOver := by
        rw [attempt]
        split
        · rfl
        · next later => exact m.step_elsewhere (elsewhere (Nat.one_le_iff_ne_zero.mpr later))
      have possible := m.outcome_stepOver_ne_breakPoint
      rw [executes, exit?_execution limit elsewhere]
      generalize m.stepOver = result at possible
      obtain ⟨outcome, n⟩ := result
      cases outcome with
      | ok | noop | halt | endOfMemory => rfl
      | breakPoint => contradiction

theorem machine_of_afterStep {config : RunConfig} {observer : Observer σ} {p q : Progress σ}
    (h : afterStep config observer p = .again q) : q.machine = p.machine ∧ q.steps = p.steps := by
  simp only [afterStep, observe] at h
  split at h
  · split at h
    · contradiction
    · cases h
      exact ⟨rfl, rfl⟩
  · cases h
    exact ⟨rfl, rfl⟩

theorem summary_of_afterStep {config : RunConfig} {observer : Observer σ} {p : Progress σ}
    {report : Report σ} (h : afterStep config observer p = .stop report) :
    report.summary = none := by
  simp only [afterStep, observe] at h
  split at h
  · split at h
    · cases h
      rfl
    · contradiction
  · contradiction

theorem summary_finish {observer : Observer σ} {outcome : Option Outcome} {p : Progress σ}
    {s : Summary} (h : (finish observer outcome p).summary = some s) :
    (observer p.notes p.machine).1.aborts = false ∧ s = ⟨outcome, p.steps⟩ := by
  simp only [finish] at h
  split at h
  · contradiction
  · next stays =>
    exact ⟨Bool.eq_false_iff.mpr stays, (Option.some.inj h).symm⟩

structure Reached (config : RunConfig) (m : Machine) (p : Progress σ) : Prop where
  machine : p.machine = m.executed p.steps
  onward : Onward config m p.steps

/-- How a run from `m` may end: where the flag has been cleared, or at the first exit. -/
inductive Ended (config : RunConfig) (m : Machine) : Summary → Machine → Prop
  | cleared {k : Nat} (onward : Onward config m k) : Ended config m ⟨none, k⟩ (m.executed k)
  | exited {k : Nat} {s : Summary} {n : Machine} (onward : Onward config m k)
      (exits : exit? config (m.executed k) k = some (s, n)) : Ended config m s n

namespace Reached

variable {config : RunConfig} {observer : Observer σ} {m : Machine} {p q : Progress σ}

theorem start (notes : σ) (running : Bool) :
    Reached config m (⟨m, running, 0, notes⟩ : Progress σ) :=
  ⟨rfl, fun _ below => absurd below (Nat.not_lt_zero _)⟩

theorem turn_running (h : Reached config m p) (running : p.running = true) :
    turn config observer p =
      match exit? config (m.executed p.steps) p.steps with
      | some (s, n) => .stop (finish observer s.outcome ⟨n, true, s.steps, p.notes⟩)
      | none => afterStep config observer ⟨m.executed (p.steps + 1), true, p.steps + 1, p.notes⟩ := by
  rw [Run.turn_running running fun limit => h.onward.le_limit, h.machine, m.executed_succ]

theorem again (h : Reached config m p) (turned : turn config observer p = .again q) :
    Reached config m q := by
  cases running : p.running with
  | false =>
    rw [turn_cleared running] at turned
    contradiction
  | true =>
    rw [h.turn_running running] at turned
    cases next : exit? config (m.executed p.steps) p.steps with
    | some exit =>
      rw [next] at turned
      contradiction
    | none =>
      rw [next] at turned
      obtain ⟨machine, steps⟩ := machine_of_afterStep turned
      have onward := h.onward.succ next
      refine ⟨?_, ?_⟩
      · rw [machine, steps]
      · rw [steps]
        exact onward

theorem stop (h : Reached config m p) {report : Report σ}
    (turned : turn config observer p = .stop report) {s : Summary}
    (reported : report.summary = some s) : Ended config m s report.machine := by
  cases running : p.running with
  | false =>
    rw [turn_cleared running] at turned
    cases turned
    obtain ⟨-, rfl⟩ := summary_finish reported
    have last : (finish observer none p).machine = m.executed p.steps := h.machine
    rw [last]
    exact .cleared h.onward
  | true =>
    rw [h.turn_running running] at turned
    cases next : exit? config (m.executed p.steps) p.steps with
    | some exit =>
      rw [next] at turned
      cases turned
      obtain ⟨-, rfl⟩ := summary_finish reported
      exact .exited h.onward next
    | none =>
      rw [next] at turned
      rw [summary_of_afterStep turned] at reported
      contradiction

end Reached

theorem ended_of_run {m : Machine} {fuel : Nat} {config : RunConfig} {running : Bool}
    {observer : Observer σ} {notes : σ} {report : Report σ}
    (ended : m.run fuel config running observer notes = some report) {s : Summary}
    (reported : report.summary = some s) : Ended config (start config m) s report.machine :=
  loop_induction (fun _ _ reached => reached.again) (fun _ _ reached => reached.stop)
    (Reached.start notes running) ended reported

end TeachingCpu.Run
