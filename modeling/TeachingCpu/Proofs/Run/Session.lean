import Mathlib.Algebra.GroupWithZero.Nat
import TeachingCpu.Proofs.Run.Observation

/-!
Runs in pieces. A run that was stopped by a breakpoint, the step limit or its observer can be gone on
with, and nothing shows in the machine that it was stopped: after any number of runs it is the
machine after as many instructions as their summaries report together. Breakpoints only say where a
run stops, so they are left out of the comparison.
-/

namespace TeachingCpu.Run

/-- What a run is started with, once its flag is set. -/
structure Call where
  Notes : Type
  config : RunConfig
  observer : Observer Notes
  notes : Notes

/-- Runs one after the other, each from the machine that the one before has left, with the summaries
that they report. -/
inductive Session : Machine → List Call → List Summary → Machine → Prop
  | done (m : Machine) : Session m [] [] m
  | run {m n : Machine} {call : Call} {calls : List Call} {summaries : List Summary} {fuel : Nat}
      {report : Report call.Notes} {s : Summary}
      (ended : m.run fuel call.config true call.observer call.notes = some report)
      (reported : report.summary = some s) (rest : Session report.machine calls summaries n) :
      Session m (call :: calls) (s :: summaries) n

def Summary.Pauses (s : Summary) : Prop :=
  s.outcome ≠ some .halt ∧ s.outcome ≠ some .endOfMemory

/-- Several summaries as if of one run: all steps together and the last outcome. -/
def total (summaries : List Summary) : Summary :=
  ⟨summaries.getLast?.bind Summary.outcome, (summaries.map Summary.steps).sum⟩

theorem total_singleton (s : Summary) : total [s] = s := by
  simp [total]

theorem total_cons (s : Summary) {summaries : List Summary} (h : summaries ≠ []) :
    total (s :: summaries) = ⟨(total summaries).outcome, s.steps + (total summaries).steps⟩ := by
  obtain ⟨t, ts, rfl⟩ := List.exists_cons_of_ne_nil h
  simp [total]

inductive Accounts (m : Machine) : Summary → Prop
  | paused {s : Summary} (pauses : s.Pauses) (continues : m.Continues s.steps) : Accounts m s
  | halted {k : Nat} (continues : m.Continues k) (halts : (m.executed k).stepOver.1 = .halt) :
      Accounts m ⟨some .halt, k + 1⟩
  | ranOut {k : Nat} (continues : m.Continues k)
      (ends : (m.executed k).stepOver.1 = .endOfMemory) : Accounts m ⟨some .endOfMemory, k⟩

theorem executions_of_pauses {s : Summary} (h : s.Pauses) : s.executions = s.steps :=
  if_neg h.2

theorem executions_add (outcome : Option Outcome) (j k : Nat) :
    Summary.executions ⟨outcome, j + k⟩ = j + Summary.executions ⟨outcome, k⟩ := by
  unfold Summary.executions
  split
  · rfl
  · rfl

theorem Ended.accounts {config : RunConfig} {m n : Machine} {s : Summary} (h : Ended config m s n) :
    Accounts m s ∧ n = m.executed s.executions := by
  cases h with
  | cleared onward => exact ⟨.paused ⟨nofun, nofun⟩ onward.continues, rfl⟩
  | exited onward exits =>
    rcases cases_of_exit exits with ⟨-, rfl, rfl⟩ | ⟨-, ⟨-, -, rfl, rfl⟩ | ⟨-, rfl, last⟩⟩
    · exact ⟨.paused ⟨nofun, nofun⟩ onward.continues, rfl⟩
    · exact ⟨.paused ⟨nofun, nofun⟩ onward.continues, rfl⟩
    · rcases last with ⟨halts, rfl⟩ | ⟨ends, rfl⟩
      · exact ⟨.halted onward.continues halts, (m.executed_succ _).symm⟩
      · exact ⟨.ranOut onward.continues ends, (m.executed_succ _).symm⟩

namespace Accounts

variable {m : Machine} {s : Summary}

theorem of_setBreakpoint {a : Option Address} (h : Accounts (m.setBreakpoint a) s) :
    Accounts m s := by
  cases h with
  | paused pauses continues => exact .paused pauses (Machine.continues_setBreakpoint.mp continues)
  | halted continues halts =>
    rw [Machine.executed_setBreakpoint] at halts
    exact .halted (Machine.continues_setBreakpoint.mp continues) halts
  | ranOut continues ends =>
    rw [Machine.executed_setBreakpoint] at ends
    exact .ranOut (Machine.continues_setBreakpoint.mp continues) ends

theorem continues (h : Accounts m s) (pauses : s.Pauses) : m.Continues s.steps := by
  cases h with
  | paused _ continues => exact continues
  | halted => exact absurd rfl pauses.1
  | ranOut => exact absurd rfl pauses.2

theorem after {j : Nat} (before : m.Continues j) (h : Accounts (m.executed j) s) :
    Accounts m ⟨s.outcome, j + s.steps⟩ := by
  cases h with
  | paused pauses continues => exact .paused pauses (before.add continues)
  | halted continues halts =>
    rw [← Machine.executed_add] at halts
    exact .halted (before.add continues) halts
  | ranOut continues ends =>
    rw [← Machine.executed_add] at ends
    exact .ranOut (before.add continues) ends

theorem halts (h : Accounts m s) (outcome : s.outcome = some .halt) :
    ∃ k, s.steps = k + 1 ∧ m.Continues k ∧ (m.executed k).stepOver.1 = .halt := by
  cases h with
  | paused pauses => exact absurd outcome pauses.1
  | halted continues halts => exact ⟨_, rfl, continues, halts⟩
  | ranOut => cases outcome

end Accounts

theorem start_eq_setBreakpoint {config : RunConfig} (keeps : config.startPc = none) (m : Machine) :
    ∃ a, start config m = m.setBreakpoint a := by
  refine ⟨config.breakpoint.or m.breakpoint, ?_⟩
  rw [start_eq, keeps]
  rfl

theorem Session.accounts {m n : Machine} {calls : List Call} {summaries : List Summary}
    (h : Session m calls summaries n) (keeps : ∀ c ∈ calls, c.config.startPc = none)
    (pauses : ∀ s ∈ summaries.dropLast, s.Pauses) :
    Accounts m (total summaries) ∧
      n = (m.executed (total summaries).executions).setBreakpoint n.breakpoint := by
  induction h with
  | done m => exact ⟨.paused ⟨nofun, nofun⟩ (fun _ below => absurd below (Nat.not_lt_zero _)), rfl⟩
  | @run m n call calls summaries fuel report s ended reported rest ih =>
    obtain ⟨a, begun⟩ := start_eq_setBreakpoint (keeps call (List.mem_cons_self ..)) m
    obtain ⟨accounts, machine⟩ := (ended_of_run ended reported).accounts
    rw [begun] at accounts machine
    rw [Machine.executed_setBreakpoint] at machine
    have whole := accounts.of_setBreakpoint
    by_cases last : summaries = []
    · subst last
      cases rest
      rw [total_singleton, machine]
      exact ⟨whole, rfl⟩
    · rw [List.dropLast_cons_of_ne_nil last] at pauses
      have first : s.Pauses := pauses s (List.mem_cons_self ..)
      obtain ⟨further, final⟩ := ih (fun c known => keeps c (List.mem_cons_of_mem _ known))
        fun t known => pauses t (List.mem_cons_of_mem _ known)
      rw [executions_of_pauses first] at machine
      rw [machine] at further final
      rw [Machine.executed_setBreakpoint, ← Machine.executed_add] at final
      rw [total_cons s last, executions_add]
      exact ⟨further.of_setBreakpoint.after (whole.continues first), final⟩

/-- Nothing but the machine and its breakpoint ends a run of this call. -/
structure Call.Free (c : Call) : Prop where
  keepsPc : c.config.startPc = none
  unlimited : c.config.maxSteps = none
  proceeds : ∀ notes m, (c.observer notes m).1 = .proceed

theorem watch_of_proceeds {σ : Type} {observer : Observer σ}
    (proceeds : ∀ notes m, (observer notes m).1 = .proceed) (notes : σ) (ms : List Machine) :
    ∃ notes', watch observer notes ms = some notes' := by
  induction ms generalizing notes with
  | nil => exact ⟨notes, rfl⟩
  | cons m ms ih =>
    rw [watch, proceeds]
    exact ih _

theorem Call.Free.run_eq_some {c : Call} (free : c.Free) {m n : Machine} {k : Nat} {s : Summary}
    (onward : Onward c.config (start c.config m) k)
    (exits : exit? c.config ((start c.config m).executed k) k = some (s, n)) :
    ∃ fuel report, m.run fuel c.config true c.observer c.notes = some report ∧
      report.summary = some s ∧ report.machine = n := by
  obtain ⟨notes, watched⟩ := watch_of_proceeds free.proceeds c.notes
    (shown c.config (start c.config m) k ++ [n])
  have leaves : LeavesFlag c.observer := fun before m => by
    rw [free.proceeds]
    rfl
  let report : Report c.Notes := ⟨n, false, notes, some s⟩
  have stops : StopsAt c.config c.observer (start c.config m) c.notes k s report :=
    ⟨onward, exits, rfl, watched⟩
  exact ⟨k + 1, report, run_of_stopsAt leaves rfl stops, rfl, rfl⟩

theorem Call.Free.start_eq {c : Call} (free : c.Free) (unbroken : c.config.breakpoint = none)
    (m : Machine) : start c.config m = m := by
  rw [start, free.keepsPc, unbroken]

theorem Call.Free.run_to_halt {c : Call} (free : c.Free) (unbroken : c.config.breakpoint = none)
    {m : Machine} {k : Nat} (continues : m.Continues k)
    (halts : (m.executed k).stepOver.1 = .halt) :
    ∃ fuel report, (m.setBreakpoint none).run fuel c.config true c.observer c.notes = some report ∧
      report.summary = some ⟨some .halt, k + 1⟩ ∧
      report.machine = (m.executed (k + 1)).setBreakpoint none := by
  have begun := free.start_eq unbroken (m.setBreakpoint none)
  have nowhere (i : Nat) : 1 ≤ i → ((m.executed i).setBreakpoint none).breakpoint ≠
      some ((m.executed i).setBreakpoint none).pc := fun _ => nofun
  have unlimited (i : Nat) : c.config.maxSteps ≠ some i := by
    rw [free.unlimited]
    exact nofun
  refine free.run_eq_some (k := k) ?_ ?_
  · intro i below
    rw [begun, Machine.executed_setBreakpoint]
    exact exit?_eq_none_iff.mpr ⟨unlimited i, nowhere i, continues i below⟩
  · rw [begun, Machine.executed_setBreakpoint, Machine.executed_succ]
    exact exit?_halt (unlimited k) (nowhere k) halts

def ToHalt (summaries : List Summary) : Prop :=
  (∀ s ∈ summaries.dropLast, s.outcome = some .breakPoint) ∧
    (total summaries).outcome = some .halt

theorem ToHalt.ne_nil {summaries : List Summary} (h : ToHalt summaries) : summaries ≠ [] := by
  rintro rfl
  cases h.2

theorem ToHalt.cons {s : Summary} {summaries : List Summary} (stops : s.outcome = some .breakPoint)
    (h : ToHalt summaries) : ToHalt (s :: summaries) := by
  refine ⟨?_, ?_⟩
  · rw [List.dropLast_cons_of_ne_nil h.ne_nil, List.forall_mem_cons]
    exact ⟨stops, h.1⟩
  · rw [total_cons s h.ne_nil]
    exact h.2

theorem ToHalt.pauses {summaries : List Summary} (h : ToHalt summaries) :
    ∀ s ∈ summaries.dropLast, s.Pauses := by
  intro s known
  rw [Summary.Pauses, h.1 s known]
  exact ⟨nofun, nofun⟩

theorem Session.halts {m n : Machine} {calls : List Call} {summaries : List Summary}
    (h : Session m calls summaries n) (keeps : ∀ c ∈ calls, c.config.startPc = none)
    (toHalt : ToHalt summaries) :
    ∃ k, (total summaries).steps = k + 1 ∧ m.Continues k ∧ (m.executed k).stepOver.1 = .halt ∧
      n = (m.executed (k + 1)).setBreakpoint n.breakpoint := by
  obtain ⟨accounts, left⟩ := h.accounts keeps toHalt.pauses
  obtain ⟨k, steps, continues, halts⟩ := accounts.halts toHalt.2
  have executions : (total summaries).executions = k + 1 := by
    rw [Summary.executions, toHalt.2, steps]
    rfl
  rw [executions] at left
  exact ⟨k, steps, continues, halts, left⟩

theorem Call.Free.run_towards_halt {c : Call} (free : c.Free) {m : Machine} {k : Nat}
    (continues : m.Continues k) (halts : (m.executed k).stepOver.1 = .halt) :
    ∃ fuel report s, m.run fuel c.config true c.observer c.notes = some report ∧
      report.summary = some s ∧
      (s = ⟨some .halt, k + 1⟩ ∨
        ∃ j d a, k = j + d ∧ 1 ≤ j ∧ s = ⟨some .breakPoint, j⟩ ∧
          report.machine = (m.executed j).setBreakpoint a) := by
  obtain ⟨a, begun⟩ := start_eq_setBreakpoint free.keepsPc m
  have executed (i : Nat) : (start c.config m).executed i = (m.executed i).setBreakpoint a := by
    rw [begun, Machine.executed_setBreakpoint]
  have outcome (i : Nat) :
      ((start c.config m).executed i).stepOver.1 = (m.executed i).stepOver.1 := by
    rw [executed]
    rfl
  have ends : exit? c.config ((start c.config m).executed k) k ≠ none := by
    intro none
    have goes := (exit?_eq_none_iff.mp none).2.2
    rw [outcome, halts] at goes
    contradiction
  obtain ⟨j, early, onward, s, n, exits⟩ := exists_first_exit ends
  obtain ⟨fuel, report, ended, reported, rfl⟩ := free.run_eq_some onward exits
  refine ⟨fuel, report, s, ended, reported, ?_⟩
  have last (stays : ((start c.config m).executed j).stepOver.1.continues = false) : j = k := by
    rcases Nat.lt_or_eq_of_le early with below | same
    · rw [outcome, continues j below] at stays
      contradiction
    · exact same
  rcases cases_of_exit exits with ⟨limit, -, -⟩ | ⟨-, ⟨later, -, rfl, machine⟩ | ⟨-, -, final⟩⟩
  · rw [free.unlimited] at limit
    contradiction
  · obtain ⟨d, rfl⟩ := Nat.exists_eq_add_of_le early
    rw [executed] at machine
    exact .inr ⟨j, d, a, rfl, later, rfl, machine⟩
  · rcases final with ⟨stops, rfl⟩ | ⟨stops, rfl⟩
    · obtain rfl : j = k := last (by rw [stops]; rfl)
      exact .inl rfl
    · obtain rfl : j = k := last (by rw [stops]; rfl)
      rw [outcome, halts] at stops
      contradiction

theorem Call.Free.session_to_halt {c : Call} (free : c.Free) {m : Machine} {k : Nat}
    (continues : m.Continues k) (halts : (m.executed k).stepOver.1 = .halt) :
    ∃ summaries n, Session m (List.replicate summaries.length c) summaries n ∧
      ToHalt summaries ∧ (total summaries).steps = k + 1 := by
  induction k using Nat.strongRecOn generalizing m with
  | ind k ih =>
    obtain ⟨fuel, report, s, ended, reported, way⟩ := free.run_towards_halt continues halts
    rcases way with rfl | ⟨j, d, a, rfl, later, rfl, machine⟩
    · exact ⟨[⟨some .halt, k + 1⟩], report.machine, .run ended reported (.done _), ⟨nofun, rfl⟩, rfl⟩
    · -- after a stop at the breakpoint, fewer instructions are left
      have rest : report.machine.Continues d := by
        rw [machine, Machine.continues_setBreakpoint]
        exact continues.drop
      have halt : (report.machine.executed d).stepOver.1 = .halt := by
        rw [machine, Machine.executed_setBreakpoint, ← halts, Machine.executed_add]
        rfl
      obtain ⟨summaries, n, session, toHalt, steps⟩ := ih d (by omega) rest halt
      refine ⟨_ :: summaries, n, .run ended reported session, toHalt.cons rfl, ?_⟩
      rw [total_cons _ toHalt.ne_nil, steps]
      rfl

/-- Runs that pause leave the machine after as many instructions as they report together, and one
more if the last of them ran into the end of memory. Going on after every stop at a breakpoint comes
to a halt if and only if a run without breakpoints does, after the same number of steps and at the
same machine. -/
theorem run_in_pieces (m : Machine) :
    (∀ calls summaries n, Session m calls summaries n →
      (∀ c ∈ calls, c.config.startPc = none) → (∀ s ∈ summaries.dropLast, s.Pauses) →
      n = (m.executed (total summaries).executions).setBreakpoint n.breakpoint) ∧
    (∀ calls summaries n, Session m calls summaries n →
      (∀ c ∈ calls, c.config.startPc = none) → ToHalt summaries →
      ∀ c : Call, c.Free → c.config.breakpoint = none →
        ∃ fuel report,
          (m.setBreakpoint none).run fuel c.config true c.observer c.notes = some report ∧
          report.summary = some ⟨some .halt, (total summaries).steps⟩ ∧
          n = report.machine.setBreakpoint n.breakpoint) ∧
    (∀ c : Call, c.Free → c.config.breakpoint = none → ∀ fuel report steps,
      (m.setBreakpoint none).run fuel c.config true c.observer c.notes = some report →
      report.summary = some ⟨some .halt, steps⟩ →
      ∀ d : Call, d.Free →
        ∃ summaries n, Session m (List.replicate summaries.length d) summaries n ∧
          ToHalt summaries ∧ (total summaries).steps = steps ∧
          n = report.machine.setBreakpoint n.breakpoint) := by
  refine ⟨fun calls summaries n session keeps pauses => (session.accounts keeps pauses).2, ?_, ?_⟩
  · intro calls summaries n session keeps toHalt c free unbroken
    obtain ⟨k, steps, continues, halts, left⟩ := session.halts keeps toHalt
    obtain ⟨fuel, report, ended, reported, machine⟩ := free.run_to_halt unbroken continues halts
    rw [← steps] at reported
    refine ⟨fuel, report, ended, reported, ?_⟩
    rw [left, machine]
    rfl
  · intro c free unbroken fuel report steps ended reported d free'
    obtain ⟨accounts, machine⟩ := (ended_of_run ended reported).accounts
    rw [free.start_eq unbroken] at accounts machine
    obtain ⟨k, rfl, continues, halts⟩ := accounts.of_setBreakpoint.halts rfl
    obtain ⟨summaries, n, session, toHalt, same⟩ := free'.session_to_halt continues halts
    have keeps : ∀ e ∈ List.replicate summaries.length d, e.config.startPc = none := by
      intro e known
      rw [List.eq_of_mem_replicate known]
      exact free'.keepsPc
    obtain ⟨k', steps, -, -, left⟩ := session.halts keeps toHalt
    obtain rfl : k' = k := by omega
    refine ⟨summaries, n, session, toHalt, same, ?_⟩
    rw [left, machine, Machine.executed_setBreakpoint]
    rfl

def stopAtOne : Call where
  Notes := Unit
  config := { breakpoint := some 1 }
  observer := blind
  notes := ()

def unstopped : Call where
  Notes := Unit
  config := {}
  observer := blind
  notes := ()

theorem free_stopAtOne : stopAtOne.Free := ⟨rfl, rfl, fun _ _ => rfl⟩

theorem session_shortProgram :
    ∃ n, Session Machine.shortProgram [stopAtOne, stopAtOne]
      [⟨some .breakPoint, 1⟩, ⟨some .halt, 2⟩] n := by
  have unlimited (k : Nat) : stopAtOne.config.maxSteps ≠ some k := nofun
  obtain ⟨-, one, begun⟩ := Machine.executed_shortProgram (n := 1) (by omega)
  obtain ⟨-, two, continues⟩ := Machine.executed_shortProgram (Nat.le_refl 2)
  obtain ⟨halts, -⟩ := Machine.stepOver_shortProgram
  have first : Onward stopAtOne.config (start stopAtOne.config Machine.shortProgram) 1 := by
    intro i below
    obtain rfl : i = 0 := by omega
    exact exit?_eq_none_iff.mpr ⟨unlimited 0, nofun, begun 0 below⟩
  have stops : exit? stopAtOne.config
      ((start stopAtOne.config Machine.shortProgram).executed 1) 1 =
        some (⟨some .breakPoint, 1⟩, (Machine.shortProgram.executed 1).setBreakpoint (some 1)) :=
    exit?_breakpoint (unlimited 1) (Nat.le_refl 1) (congrArg some one.symm)
  obtain ⟨fuel, report, ended, reported, machine⟩ := free_stopAtOne.run_eq_some first stops
  have second : Onward stopAtOne.config (start stopAtOne.config report.machine) 1 := by
    intro i below
    obtain rfl : i = 0 := by omega
    rw [machine]
    exact exit?_eq_none_iff.mpr ⟨unlimited 0, nofun, continues 1 (by omega)⟩
  have elsewhere : ((Machine.shortProgram.executed 2).setBreakpoint (some 1)).breakpoint ≠
      some ((Machine.shortProgram.executed 2).setBreakpoint (some 1)).pc := by
    have place : ((Machine.shortProgram.executed 2).setBreakpoint (some 1)).pc =
        UInt16.ofNat 2 := two
    rw [place]
    decide
  have halt : exit? stopAtOne.config
      ((start stopAtOne.config report.machine).executed 1) 1 =
        some (⟨some .halt, 2⟩, ((Machine.shortProgram.executed 2).setBreakpoint (some 1)).stepOver.2)
      := by
    rw [machine]
    exact exit?_halt (unlimited 1) (fun _ => elsewhere) halts
  obtain ⟨fuel', report', ended', reported', -⟩ := free_stopAtOne.run_eq_some second halt
  exact ⟨report'.machine, .run ended reported (.run ended' reported' (.done _))⟩

theorem run_in_pieces_of_shortProgram :
    ∃ n, Session Machine.shortProgram [stopAtOne, stopAtOne]
        [⟨some .breakPoint, 1⟩, ⟨some .halt, 2⟩] n ∧
      n = (Machine.shortProgram.executed 3).setBreakpoint n.breakpoint ∧
      ∃ fuel report,
        (Machine.shortProgram.setBreakpoint none).run fuel {} true blind () = some report ∧
        report.summary = some ⟨some .halt, 3⟩ ∧
        n = report.machine.setBreakpoint n.breakpoint ∧
        ∃ summaries n', Session Machine.shortProgram (List.replicate summaries.length stopAtOne)
          summaries n' ∧ ToHalt summaries ∧ (total summaries).steps = 3 := by
  obtain ⟨n, session⟩ := session_shortProgram
  obtain ⟨pieces, once, again⟩ := run_in_pieces Machine.shortProgram
  have free : unstopped.Free := ⟨rfl, rfl, fun _ _ => rfl⟩
  have keeps : ∀ c ∈ [stopAtOne, stopAtOne], c.config.startPc = none := by
    simp [free_stopAtOne.keepsPc]
  have toHalt : ToHalt [⟨some .breakPoint, 1⟩, ⟨some .halt, 2⟩] := ⟨by simp, rfl⟩
  have whole := pieces _ _ n session keeps toHalt.pauses
  obtain ⟨fuel, report, ended, reported, same⟩ := once _ _ n session keeps toHalt unstopped free rfl
  obtain ⟨summaries, n', session', toHalt', steps, -⟩ :=
    again unstopped free rfl fuel report 3 ended reported stopAtOne free_stopAtOne
  exact ⟨n, session, whole, fuel, report, ended, reported, same, summaries, n', session', toHalt',
    steps⟩

end TeachingCpu.Run
