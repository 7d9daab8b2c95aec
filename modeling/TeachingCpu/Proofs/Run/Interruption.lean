import TeachingCpu.Proofs.Run.Observation
import TeachingCpu.Proofs.Run.Recorder
import TeachingCpu.Shared

/-!
Stopping a run from outside. An observer that clears the running flag when it is called for the
`k`th time ends the run as a limit of `k` steps would, report and all. One that aborts there leaves
the machine where the limit would have stopped it, with the flag set and the lock poisoned, and a
poisoned lock still gives out the machine.
-/

namespace TeachingCpu

def RunConfig.limitedTo (config : RunConfig) (k : Nat) : RunConfig :=
  { config with maxSteps := some (match config.maxSteps with
      | none => k
      | some limit => min limit k) }

theorem Shared.run_eq_map_recorder {σ : Type} (s : Shared) (fuel : Nat) (config : RunConfig)
    (running : Bool) (observer : Run.Observer σ) (notes : σ) :
    s.run fuel config running observer notes =
      (s.run fuel config running (Run.recorder (Run.reaction observer notes)) []).map
        (Prod.map (Run.Report.map (Run.noted observer notes)) id) := by
  rw [run, run, Run.run_eq_map_recorder]
  cases s.enter.run fuel config running (Run.recorder (Run.reaction observer notes)) [] <;> rfl

namespace Run

/-- The observer stays to the end. It clears the flag at its call number `k`, if it is called that
often, and not before. -/
structure ClearsAt (react : List Machine → Reaction) (k : Nat) (seen : List Machine) : Prop where
  stays : ∀ i, 1 ≤ i → i ≤ seen.length → (react (seen.take i)).aborts = false
  clears : ∀ i, 1 ≤ i → i ≤ k → i ≤ seen.length →
    (react (seen.take i)).cancels = decide (i = k)

/-- The observer lets the run go on until it aborts at its call number `k` and leaves the flag. -/
structure AbortsAt (react : List Machine → Reaction) (k : Nat) (seen : List Machine) : Prop where
  proceeds : ∀ i, 1 ≤ i → i < k → react (seen.take i) = .proceed
  aborts : react (seen.take k) = .abort false

section Limit

variable {σ : Type} {config : RunConfig} {observer : Observer σ} {p : Progress σ} {k : Nat}

theorem turn_limitedTo (below : p.steps < k) :
    turn (config.limitedTo k) observer p = turn config observer p := by
  have limit : (config.limitedTo k).maxSteps.any (· ≤ p.steps) =
      config.maxSteps.any (· ≤ p.steps) := by
    cases bound : config.maxSteps with
    | none => simp [RunConfig.limitedTo, bound, below]
    | some limit =>
      simp only [RunConfig.limitedTo, bound, Option.any_some, decide_eq_decide]
      omega
  have same (result : Outcome × Machine) :
      advance (config.limitedTo k) observer p result = advance config observer p result := by
    obtain ⟨outcome, m⟩ := result
    cases outcome <;> rfl
  rw [turn_eq, turn_eq, limit, same]

theorem turn_limitedTo_of_le (reached : k ≤ p.steps) :
    turn (config.limitedTo k) observer p = .stop (finish observer none p) := by
  have limit : (config.limitedTo k).maxSteps.any (· ≤ p.steps) = true := by
    cases bound : config.maxSteps with
    | none => simp [RunConfig.limitedTo, bound, reached]
    | some limit =>
      simp only [RunConfig.limitedTo, bound, Option.any_some, decide_eq_true_eq]
      omega
  rw [turn_eq, limit, Bool.or_true, if_pos rfl]

theorem turn_onlooker (asked : config.observeSteps = true) {p : Progress (List Machine)}
    (below : p.steps < k) {m : Machine}
    (steps : turn config onlooker p = afterStep config onlooker ⟨m, true, p.steps + 1, p.notes⟩) :
    turn (config.limitedTo k) onlooker p = .again ⟨m, true, p.steps + 1, p.notes ++ [m]⟩ := by
  rw [turn_limitedTo below, steps]
  exact afterStep_onlooker asked

end Limit

section Clears

variable {config : RunConfig} {react : List Machine → Reaction} {k : Nat}
  {report : Report (List Machine)}

namespace ClearsAt

variable {seen early : List Machine}

theorem stays_early (h : ClearsAt react k seen) (before : early <+: seen) (called : early ≠ []) :
    (react early).aborts = false := by
  rw [List.prefix_iff_eq_take.mp before]
  exact h.stays _ (List.length_pos_iff.mpr called) before.length_le

theorem clears_early (h : ClearsAt react k seen) (before : early <+: seen) (called : early ≠ [])
    (within : early.length ≤ k) : (react early).cancels = decide (early.length = k) := by
  have clears := h.clears _ (List.length_pos_iff.mpr called) within before.length_le
  rwa [← List.prefix_iff_eq_take.mp before] at clears

end ClearsAt

/-- At the end of a run the flag is cleared anyway, and an observer that stays does no more than
look. -/
theorem finish_eq_iff (h : ClearsAt react k report.notes) (outcome : Option Outcome) (m : Machine)
    (running running' : Bool) (steps : Nat) (seen : List Machine) :
    finish (recorder react) outcome ⟨m, running, steps, seen⟩ = report ↔
      finish onlooker outcome ⟨m, running', steps, seen⟩ = report := by
  have same (before : seen ++ [m] <+: report.notes) :
      finish (recorder react) outcome ⟨m, running, steps, seen⟩ =
        finish onlooker outcome ⟨m, running', steps, seen⟩ := by
    simp only [finish, recorder, onlooker, h.stays_early before (by simp)]
    rfl
  constructor
  · intro ends
    rw [← same (ends ▸ List.prefix_rfl)]
    exact ends
  · intro ends
    rw [same (ends ▸ List.prefix_rfl)]
    exact ends

theorem loop_limitedTo_iff (asked : config.observeSteps = true)
    (h : ClearsAt react k report.notes) {fuel : Nat} {p : Progress (List Machine)}
    (counted : p.steps = p.notes.length) (below : p.steps < k) :
    loop config (recorder react) fuel p = some report ↔
      loop (config.limitedTo k) onlooker fuel p = some report := by
  have limited : (config.limitedTo k).observeSteps = true := asked
  -- as often as steps have been done, the observer has been called
  induction fuel generalizing p with
  | zero => exact Iff.rfl
  | succ fuel ih =>
    rcases turn_cases config p with ⟨outcome, q, same, stops⟩ | ⟨m, steps⟩
    · rw [loop_stop (stops _), loop_stop ((turn_limitedTo below).trans (stops _)),
        Option.some.injEq, Option.some.injEq]
      exact finish_eq_iff h outcome _ _ _ _ _
    · have later := turn_onlooker asked below (steps onlooker)
      -- Only after this machine has been shown do the two runs differ, and both show it.
      suffices same : p.notes ++ [m] <+: report.notes →
          (loop config (recorder react) (fuel + 1) p = some report ↔
            loop (config.limitedTo k) onlooker (fuel + 1) p = some report) by
        constructor
        · intro ended
          have seen := notes_turn_of_loop asked ended
          rw [steps, notes_afterStep asked] at seen
          exact (same seen).mp ended
        · intro ended
          exact (same (notes_of_again limited later ended)).mpr ended
      intro seen
      have length : (p.notes ++ [m]).length = p.steps + 1 := by simp [counted]
      have stays := h.stays_early seen (by simp)
      have clears := h.clears_early seen (by simp) (by omega)
      have turned := (steps (recorder react)).trans (afterStep_recorder asked stays)
      rw [loop_again turned, loop_again later, clears, length, Bool.true_and]
      by_cases last : p.steps + 1 = k
      · rw [decide_eq_true last, Bool.not_true]
        cases fuel with
        | zero => exact Iff.rfl
        | succ fuel =>
          rw [loop_stop (turn_cleared rfl), loop_stop (turn_limitedTo_of_le (Nat.le_of_eq last.symm)),
            Option.some.injEq, Option.some.injEq]
          exact finish_eq_iff h none _ _ _ _ _
      · rw [decide_eq_false last, Bool.not_false]
        exact ih length.symm (by dsimp only; omega)

end Clears

section Aborts

variable {config : RunConfig} {react : List Machine → Reaction} {k : Nat}
  {limited : Report (List Machine)}

theorem onlooker_ends (asked : config.observeSteps = true) {d : Nat} {p : Progress (List Machine)}
    (enough : k ≤ p.steps + d) :
    ∃ report summary, loop (config.limitedTo k) onlooker (d + 1) p = some report ∧
      report.summary = some summary ∧ report.running = false := by
  induction d generalizing p with
  | zero => exact ⟨_, _, loop_stop (turn_limitedTo_of_le enough) 0, rfl, rfl⟩
  | succ d ih =>
    rcases turn_cases (config.limitedTo k) p with ⟨outcome, q, -, stops⟩ | ⟨m, steps⟩
    · exact ⟨_, _, loop_stop (stops _) _, rfl, rfl⟩
    · rw [loop_again ((steps _).trans (afterStep_onlooker asked))]
      exact ih (by dsimp only; omega)

theorem loop_of_aborts (asked : config.observeSteps = true) (h : AbortsAt react k limited.notes)
    (further : k < limited.notes.length) {d fuel : Nat} {p : Progress (List Machine)}
    (counted : p.steps = p.notes.length) (below : p.steps < k) (distance : p.steps + d = k)
    (ended : loop (config.limitedTo k) onlooker fuel p = some limited) :
    loop config (recorder react) d p =
        some ⟨limited.machine, true, limited.notes.take k, none⟩ ∧
      limited.summary = some ⟨none, k⟩ := by
  induction d generalizing p fuel with
  | zero => omega
  | succ d ih =>
    obtain ⟨fuel, rfl⟩ : ∃ more, fuel = more + 1 :=
      Nat.exists_eq_succ_of_ne_zero fun empty => by rw [empty] at ended; contradiction
    rcases turn_cases config p with ⟨outcome, q, same, stops⟩ | ⟨m, steps⟩
    · -- The run would end at this call, which is not beyond the `k`th.
      rw [loop_stop ((turn_limitedTo below).trans (stops _))] at ended
      cases ended
      have called : (q.notes ++ [q.machine]).length = p.steps + 1 := by simp [same, counted]
      have more : k < (q.notes ++ [q.machine]).length := further
      omega
    have later := turn_onlooker asked below (steps onlooker)
    have length : (p.notes ++ [m]).length = p.steps + 1 := by simp [counted]
    have seen : p.notes ++ [m] = limited.notes.take (p.steps + 1) := by
      have early : p.notes ++ [m] <+: limited.notes :=
        notes_of_again (show (config.limitedTo k).observeSteps = true from asked) later ended
      rw [← length]
      exact List.prefix_iff_eq_take.mp early
    rw [loop_again later] at ended
    by_cases last : p.steps + 1 = k
    · have aborts : react (p.notes ++ [m]) = .abort false := by
        rw [seen, last]
        exact h.aborts
      cases fuel with
      | zero => contradiction
      | succ fuel =>
        rw [loop_stop (turn_limitedTo_of_le (Nat.le_of_eq last.symm))] at ended
        cases ended
        refine ⟨?_, ?_⟩
        · rw [loop_stop ((steps _).trans (afterStep_recorder_abort asked aborts)), ← last, ← seen]
          rfl
        · rw [← last]
          rfl
    · have proceeds : react (p.notes ++ [m]) = .proceed := by
        rw [seen]
        exact h.proceeds _ (by omega) (by omega)
      have stays : (react (p.notes ++ [m])).aborts = false := by
        rw [proceeds]
        rfl
      rw [loop_again ((steps _).trans (afterStep_recorder asked stays))]
      simp only [proceeds, Reaction.cancels, Bool.not_false, Bool.and_true]
      exact ih length.symm (by dsimp only; omega) (by dsimp only; omega) ended

end Aborts

/-- Clearing the flag at the `k`th call of the observer ends a run just as a limit of `k` steps
does: the same reports come of it, with the same machines shown. If the `k`th call is not the last
one and the observer aborts there, the machine is left as by the limited run, with the flag set. The
lock is poisoned then, but later runs go on from that machine. All this is said of observers that
keep the machines they are shown; every other observer reacts like one of these, and what it keeps
can be told from the machines. -/
theorem interrupting_equals_limiting (s : Shared) {config : RunConfig}
    (asked : config.observeSteps = true) {k : Nat} (positive : 1 ≤ k) (running : Bool) :
    ∃ limited t summary,
      s.run (k + 1) (config.limitedTo k) running onlooker [] = some (limited, t) ∧
      limited.summary = some summary ∧ limited.running = false ∧
      (∀ (react : List Machine → Reaction) (fuel : Nat) (report : Report (List Machine))
          (u : Shared), ClearsAt react k report.notes →
        (s.run fuel config running (recorder react) [] = some (report, u) ↔
          s.run fuel (config.limitedTo k) running onlooker [] = some (report, u))) ∧
      (∀ react : List Machine → Reaction, AbortsAt react k limited.notes →
        k < limited.notes.length →
        summary = ⟨none, k⟩ ∧
        ∃ u, s.run k config running (recorder react) [] =
            some (⟨limited.machine, true, limited.notes.take k, none⟩, u) ∧
          u.lock = .error t.machine ∧ u.enter = t.enter ∧
          ∀ {σ : Type} (fuel : Nat) (later : RunConfig) (flag : Bool) (observer : Observer σ)
            (notes : σ), (u.run fuel later flag observer notes).map Prod.fst =
              limited.machine.run fuel later flag observer notes) ∧
      ∀ {σ : Type} (observer : Observer σ) (notes : σ) (fuel : Nat),
        s.run fuel config running observer notes =
          (s.run fuel config running (recorder (reaction observer notes)) []).map
            (Prod.map (Report.map (noted observer notes)) id) := by
  obtain ⟨limited, summary, ended, reported, cleared⟩ :=
    onlooker_ends (k := k) (p := ⟨start config s.machine, running, 0, []⟩) asked (Nat.le_add_left k 0)
  refine ⟨limited, ⟨limited.machine, s.poisoned || limited.summary.isNone⟩, summary,
    Shared.run_eq_some_iff.mpr ⟨ended, rfl⟩, reported, cleared, ?_, ?_,
    fun observer notes fuel => s.run_eq_map_recorder fuel config running observer notes⟩
  · intro react fuel report u clears
    rw [Shared.run_eq_some_iff, Shared.run_eq_some_iff]
    exact and_congr_left' (loop_limitedTo_iff asked clears rfl positive)
  · intro react aborts further
    obtain ⟨stopped, least⟩ := loop_of_aborts (p := ⟨start config s.machine, running, 0, []⟩)
      asked aborts further rfl positive (Nat.zero_add k) ended
    have poisons : (s.poisoned || (none : Option Summary).isNone) = true := Bool.or_true _
    refine ⟨Option.some.inj (reported.symm.trans least), ⟨limited.machine, true⟩,
      Shared.run_eq_some_iff.mpr ⟨stopped, by rw [poisons]⟩, rfl, ?_, ?_⟩
    · rw [Shared.enter_eq, Shared.enter_eq]
    · exact fun fuel later flag observer notes => Shared.map_run ⟨limited.machine, true⟩ ..

def stepByStep : RunConfig := { observeSteps := true }

def atSecond (reaction : Reaction) (seen : List Machine) : Reaction :=
  if seen.length = 2 then reaction else .proceed

/-- The second no-operation is the last thing executed, and the machine is shown once more. -/
def twoSteps : Report (List Machine) where
  machine := Machine.shortProgram.executed 2
  running := false
  notes := [Machine.shortProgram.executed 1, Machine.shortProgram.executed 2,
    Machine.shortProgram.executed 2]
  summary := some ⟨none, 2⟩

theorem run_twoSteps :
    Machine.shortProgram.run 3 (stepByStep.limitedTo 2) true onlooker [] = some twoSteps := by
  obtain ⟨-, -, continues⟩ := Machine.executed_shortProgram (Nat.le_refl 2)
  refine run_of_stopsAt (k := 2) (s := ⟨none, 2⟩) (fun _ _ => rfl) rfl ⟨fun i below => ?_, ?_, rfl, ?_⟩
  · rw [exit?_eq_none_iff]
    refine ⟨fun reached => ?_, fun _ => ?_, continues i below⟩
    · exact absurd (Option.some.inj reached) (Nat.ne_of_gt below)
    · have unset : ((start (stepByStep.limitedTo 2) Machine.shortProgram).executed i).breakpoint =
          none := Machine.breakpoint_executed _ i
      rw [unset]
      exact nofun
  · exact exit?_limit rfl
  · rfl

theorem interrupting_equals_limiting_of_shortProgram :
    ∃ t u, (Shared.ofMachine Machine.shortProgram).run 3 stepByStep true
        (recorder (atSecond .cancel)) [] = some (twoSteps, t) ∧
      (Shared.ofMachine Machine.shortProgram).run 2 stepByStep true
        (recorder (atSecond (.abort false))) [] =
          some (⟨twoSteps.machine, true, twoSteps.notes.take 2, none⟩, u) ∧
      u.lock = .error t.machine := by
  obtain ⟨limited, t, summary, ended, -, -, cancelled, aborted, -⟩ :=
    @interrupting_equals_limiting (Shared.ofMachine Machine.shortProgram) stepByStep rfl 2
      (by decide) true
  obtain rfl : limited = twoSteps :=
    Option.some.inj ((Shared.run_eq_some_iff.mp ended).1.symm.trans run_twoSteps)
  have clears : ClearsAt (atSecond .cancel) 2 twoSteps.notes := by
    constructor
    · intro i _ _
      unfold atSecond
      split <;> rfl
    · intro i first second _
      obtain rfl | rfl : i = 1 ∨ i = 2 := by omega
      · rfl
      · rfl
  have aborts : AbortsAt (atSecond (.abort false)) 2 twoSteps.notes := by
    constructor
    · intro i first below
      obtain rfl : i = 1 := by omega
      rfl
    · rfl
  obtain ⟨-, u, stopped, locked, -⟩ := aborted _ aborts (by decide)
  exact ⟨t, u, (cancelled _ 3 twoSteps t clears).mpr ended, stopped, locked⟩

end Run

end TeachingCpu
