import TeachingCpu.Run

/-!
The machine as runs share it, behind a lock. The lock is held while the observer is shown the
machine, so an observer that aborts leaves it poisoned, and poisoned it stays. This must not put the
machine out of reach: whoever enters a poisoned lock gets the machine all the same.
-/

namespace TeachingCpu

structure Shared where
  machine : Machine
  poisoned : Bool

namespace Shared

def ofMachine (m : Machine) : Shared := ⟨m, false⟩

def lock (s : Shared) : Except Machine Machine :=
  if s.poisoned then .error s.machine else .ok s.machine

def enter (s : Shared) : Machine :=
  match s.lock with
  | .ok m => m
  | .error m => m

def run {σ : Type} (s : Shared) (fuel : Nat) (config : RunConfig) (running : Bool)
    (observer : Run.Observer σ) (notes : σ) : Option (Run.Report σ × Shared) := do
  let report ← s.enter.run fuel config running observer notes
  return (report, ⟨report.machine, s.poisoned || report.summary.isNone⟩)

theorem enter_eq (s : Shared) : s.enter = s.machine := by
  obtain ⟨m, poisoned⟩ := s
  cases poisoned <;> rfl

theorem map_run {σ : Type} (s : Shared) (fuel : Nat) (config : RunConfig) (running : Bool)
    (observer : Run.Observer σ) (notes : σ) :
    (s.run fuel config running observer notes).map Prod.fst =
      s.machine.run fuel config running observer notes := by
  rw [run, enter_eq]
  cases s.machine.run fuel config running observer notes <;> rfl

theorem run_eq_some_iff {σ : Type} {s t : Shared} {fuel : Nat} {config : RunConfig}
    {running : Bool} {observer : Run.Observer σ} {notes : σ} {report : Run.Report σ} :
    s.run fuel config running observer notes = some (report, t) ↔
      s.machine.run fuel config running observer notes = some report ∧
        t = ⟨report.machine, s.poisoned || report.summary.isNone⟩ := by
  rw [run, enter_eq]
  cases s.machine.run fuel config running observer notes with
  | none => simp
  | some other =>
    simp only [Option.bind_eq_bind, Option.bind_some, pure, Option.some.injEq, Prod.mk.injEq]
    constructor
    · rintro ⟨rfl, rfl⟩
      exact ⟨rfl, rfl⟩
    · rintro ⟨rfl, rfl⟩
      exact ⟨rfl, rfl⟩

end Shared

end TeachingCpu
