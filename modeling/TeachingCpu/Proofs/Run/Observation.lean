import TeachingCpu.Proofs.Machine.Idle
import TeachingCpu.Proofs.Run.Exit

/-!
Runs whose observer leaves the running flag alone. Such a run is decided by its machine and its
configuration: it stops at the first exit, and what the observer has noted then comes from the
machines it was shown, one after the other.
-/

namespace TeachingCpu.Run

variable {σ : Type}

/-- The observer never clears the running flag. It may still abort. -/
def LeavesFlag (observer : Observer σ) : Prop := ∀ notes m, (observer notes m).1.cancels = false

/-- The notes after the observer has seen these machines, if it has not aborted at one of them. -/
def watch (observer : Observer σ) : σ → List Machine → Option σ
  | notes, [] => some notes
  | notes, m :: ms =>
    if (observer notes m).1.aborts then none else watch observer (observer notes m).2 ms

theorem watch_append (observer : Observer σ) (notes : σ) (first second : List Machine) :
    watch observer notes (first ++ second) =
      (watch observer notes first).bind fun notes => watch observer notes second := by
  induction first generalizing notes with
  | nil => rfl
  | cons m ms ih =>
    rw [List.cons_append, watch, watch]
    split
    · rfl
    · exact ih _

theorem watch_singleton_eq_some {observer : Observer σ} {notes notes' : σ} {m : Machine} :
    watch observer notes [m] = some notes' ↔
      (observer notes m).1.aborts = false ∧ (observer notes m).2 = notes' := by
  rw [watch, watch]
  split <;> simp_all

def shown (config : RunConfig) (m : Machine) (k : Nat) : List Machine :=
  if config.observeSteps then (List.range k).map fun i => m.executed (i + 1) else []

theorem shown_succ (config : RunConfig) (m : Machine) (k : Nat) :
    shown config m (k + 1) =
      shown config m k ++ if config.observeSteps then [m.executed (k + 1)] else [] := by
  unfold shown
  split
  · rw [List.range_succ, List.map_append]
    rfl
  · rfl

theorem watch_shown_of_le {config : RunConfig} {observer : Observer σ} {m : Machine} {notes : σ}
    {j k : Nat} (early : j ≤ k) {notes' : σ}
    (h : watch observer notes (shown config m k) = some notes') :
    ∃ notes'', watch observer notes (shown config m j) = some notes'' := by
  induction early generalizing notes' with
  | refl => exact ⟨notes', h⟩
  | step _ ih =>
    rw [shown_succ, watch_append, Option.bind_eq_some_iff] at h
    obtain ⟨before, followed, -⟩ := h
    exact ih followed

section AfterStep

variable {config : RunConfig} {observer : Observer σ} {p q : Progress σ}

theorem afterStep_of_watch (leaves : LeavesFlag observer) {notes : σ}
    (h : watch observer p.notes (if config.observeSteps then [p.machine] else []) = some notes) :
    afterStep config observer p = .again { p with notes := notes } := by
  obtain ⟨m, running, k, before⟩ := p
  cases asked : config.observeSteps with
  | true =>
    rw [asked, if_pos rfl, watch_singleton_eq_some] at h
    obtain ⟨stays, rfl⟩ := h
    simp [afterStep, asked, observe, stays, leaves before m]
  | false =>
    rw [asked] at h
    cases h
    simp [afterStep, asked]

theorem watch_of_afterStep (leaves : LeavesFlag observer)
    (h : afterStep config observer p = .again q) :
    q.running = p.running ∧
      watch observer p.notes (if config.observeSteps then [p.machine] else []) = some q.notes := by
  obtain ⟨m, running, k, before⟩ := p
  cases asked : config.observeSteps with
  | true =>
    cases stays : (observer before m).1.aborts with
    | true => simp [afterStep, asked, observe, stays] at h
    | false =>
      have followed : watch observer before [m] = some (observer before m).2 :=
        watch_singleton_eq_some.mpr ⟨stays, rfl⟩
      rw [afterStep_of_watch leaves (by rw [asked]; exact followed)] at h
      cases h
      exact ⟨rfl, followed⟩
  | false =>
    rw [afterStep, asked] at h
    cases h
    exact ⟨rfl, rfl⟩

end AfterStep

/-- The machine that a run begins with. The program counter and the breakpoint are those of the
configuration where it has any, and everything else is as it was. -/
structure BeginsWith (config : RunConfig) (m first : Machine) : Prop where
  pc : first.pc = config.startPc.getD m.pc
  register : ∀ r, r ≠ Register.pc → first.register r = m.register r
  flags : first.flags = m.flags
  memory : first.memory = m.memory
  table : first.table = m.table
  breakpoint : first.breakpoint = config.breakpoint.or m.breakpoint

theorem beginsWith_start (config : RunConfig) (m : Machine) :
    BeginsWith config m (start config m) where
  pc := pc_start config m
  register _ other := register_start config m other
  flags := flags_start config m
  memory := memory_start config m
  table := table_start config m
  breakpoint := breakpoint_start config m

/-- A report at the first exit, of a run that its observer has followed. -/
structure StopsAt (config : RunConfig) (observer : Observer σ) (m : Machine) (notes : σ) (k : Nat)
    (s : Summary) (report : Report σ) : Prop where
  onward : Onward config m k
  exits : exit? config (m.executed k) k = some (s, report.machine)
  cleared : report.running = false
  watched : watch observer notes (shown config m k ++ [report.machine]) = some report.notes

structure Live (config : RunConfig) (observer : Observer σ) (m : Machine) (notes : σ)
    (p : Progress σ) : Prop extends Reached config m p where
  running : p.running = true
  watched : watch observer notes (shown config m p.steps) = some p.notes

namespace Live

variable {config : RunConfig} {observer : Observer σ} {m : Machine} {notes : σ} {p q : Progress σ}

theorem start (config : RunConfig) (observer : Observer σ) (m : Machine) (notes : σ) :
    Live config observer m notes ⟨m, true, 0, notes⟩ where
  toReached := Reached.start notes true
  running := rfl
  watched := by
    unfold shown
    split <;> rfl

theorem turn_onward (h : Live config observer m notes p)
    (next : exit? config (m.executed p.steps) p.steps = none) :
    turn config observer p =
      afterStep config observer ⟨m.executed (p.steps + 1), true, p.steps + 1, p.notes⟩ := by
  rw [h.turn_running h.running, next]

theorem again (h : Live config observer m notes p) (leaves : LeavesFlag observer)
    (turned : turn config observer p = .again q) : Live config observer m notes q := by
  have reached := h.toReached.again turned
  cases next : exit? config (m.executed p.steps) p.steps with
  | some exit =>
    rw [h.turn_running h.running, next] at turned
    contradiction
  | none =>
    rw [h.turn_onward next] at turned
    obtain ⟨running, followed⟩ := watch_of_afterStep leaves turned
    obtain ⟨-, steps⟩ := machine_of_afterStep turned
    refine ⟨reached, running, ?_⟩
    rw [steps, shown_succ, watch_append, h.watched]
    exact followed

theorem stop (h : Live config observer m notes p) {report : Report σ}
    (turned : turn config observer p = .stop report) {s : Summary}
    (reported : report.summary = some s) :
    ∃ k, StopsAt config observer m notes k s report := by
  rw [h.turn_running h.running] at turned
  cases next : exit? config (m.executed p.steps) p.steps with
  | some exit =>
    rw [next] at turned
    cases turned
    obtain ⟨stays, rfl⟩ := summary_finish reported
    refine ⟨p.steps, h.onward, next, rfl, ?_⟩
    rw [watch_append, h.watched]
    exact watch_singleton_eq_some.mpr ⟨stays, rfl⟩
  | none =>
    rw [next] at turned
    rw [summary_of_afterStep turned] at reported
    contradiction

theorem loop_eq_some (h : Live config observer m notes p) (leaves : LeavesFlag observer) {d : Nat}
    {s : Summary} {report : Report σ} (reported : report.summary = some s)
    (stops : StopsAt config observer m notes (p.steps + d) s report) :
    loop config observer (d + 1) p = some report := by
  obtain ⟨before, followed, last⟩ := Option.bind_eq_some_iff.mp
    ((watch_append _ _ _ _).symm.trans stops.watched)
  induction d generalizing p with
  | zero =>
    obtain rfl : p.notes = before := Option.some.inj (h.watched.symm.trans followed)
    obtain ⟨stays, noted⟩ := watch_singleton_eq_some.mp last
    refine loop_stop ?_ 0
    have exits : exit? config (m.executed p.steps) p.steps = some (s, report.machine) := stops.exits
    obtain ⟨machine, running, notes', summary⟩ := report
    obtain rfl : running = false := stops.cleared
    obtain rfl : summary = some s := reported
    rw [h.turn_running h.running, exits]
    simp_all [finish]
  | succ d ih =>
    have next : exit? config (m.executed p.steps) p.steps = none :=
      stops.onward p.steps (by omega)
    obtain ⟨notes', shows⟩ := watch_shown_of_le (j := p.steps + 1) (by omega) followed
    rw [shown_succ, watch_append, h.watched, Option.bind_some] at shows
    have turned := h.turn_onward next
    rw [afterStep_of_watch leaves shows] at turned
    rw [loop_again turned]
    have place : p.steps + (d + 1) = p.steps + 1 + d := by omega
    rw [place] at stops followed
    exact ih (h.again leaves turned) stops followed

end Live

namespace StopsAt

variable {config : RunConfig} {observer : Observer σ} {m : Machine} {notes : σ} {k : Nat}
  {s : Summary} {report : Report σ}

theorem steps_le (h : StopsAt config observer m notes k s report) {limit : Nat}
    (limited : config.maxSteps = some limit) : s.steps ≤ limit := by
  have within := h.onward.le_limit limited
  rcases cases_of_exit h.exits with ⟨-, rfl, -⟩ | ⟨free, ⟨-, -, rfl, -⟩ | ⟨-, -, halts | ends⟩⟩
  · exact within
  · exact within
  · obtain ⟨-, rfl⟩ := halts
    have other : limit ≠ k := fun same => free (limited.trans (congrArg some same))
    exact Nat.lt_of_le_of_ne within other.symm
  · obtain ⟨-, rfl⟩ := ends
    exact within

theorem breakpoint_ne (h : StopsAt config observer m notes k s report) {i : Nat} (later : 1 ≤ i)
    (begun : i < s.executions) : m.breakpoint ≠ some (m.executed i).pc := by
  rw [← m.breakpoint_executed i]
  have earlier : i < k → (m.executed i).breakpoint ≠ some (m.executed i).pc :=
    fun below => (exit?_eq_none_iff.mp (h.onward i below)).2.1 later
  rcases cases_of_exit h.exits with ⟨-, rfl, -⟩ | ⟨-, ⟨-, -, rfl, -⟩ | ⟨elsewhere, -, last⟩⟩
  · exact earlier begun
  · exact earlier begun
  · have final : s.executions = k + 1 := by
      rcases last with ⟨-, rfl⟩ | ⟨-, rfl⟩ <;> rfl
    rcases Nat.lt_succ_iff_lt_or_eq.mp (final ▸ begun) with below | rfl
    · exact earlier below
    · exact elsewhere later

end StopsAt

section Run

variable {config : RunConfig} {observer : Observer σ} {m : Machine} {notes : σ} {s : Summary}
  {report : Report σ}

theorem stopsAt_of_run (leaves : LeavesFlag observer) {fuel : Nat}
    (ended : m.run fuel config true observer notes = some report)
    (reported : report.summary = some s) :
    ∃ k, StopsAt config observer (start config m) notes k s report :=
  loop_induction (fun _ _ live => live.again leaves) (fun _ _ live => live.stop)
    (Live.start config observer (start config m) notes) ended reported

theorem run_of_stopsAt (leaves : LeavesFlag observer) (reported : report.summary = some s) {k : Nat}
    (stops : StopsAt config observer (start config m) notes k s report) :
    m.run (k + 1) config true observer notes = some report := by
  have live := Live.start config observer (start config m) notes
  refine live.loop_eq_some leaves reported ?_
  rw [Nat.zero_add]
  exact stops

end Run

/-- A run that its observer leaves alone begins where the configuration says and is the executions
up to the first exit, which it reports; it stays within the step limit, and after its first
instruction it executes none at the breakpoint. The observer has seen the machines after ordinary
steps if it was asked to, and then the last one. -/
theorem run_stops_at_first_exit (m : Machine) (config : RunConfig) {observer : Observer σ}
    (notes : σ) (leaves : LeavesFlag observer) {report : Report σ} {s : Summary}
    (reported : report.summary = some s) :
    BeginsWith config m (start config m) ∧
    ((∃ fuel, m.run fuel config true observer notes = some report) ↔
      ∃ k, StopsAt config observer (start config m) notes k s report) ∧
    ((∃ fuel, m.run fuel config true observer notes = some report) →
      (∀ limit, config.maxSteps = some limit → s.steps ≤ limit) ∧
        ∀ i, 1 ≤ i → i < s.executions →
          (start config m).breakpoint ≠ some ((start config m).executed i).pc) := by
  have stops : (∃ fuel, m.run fuel config true observer notes = some report) →
      ∃ k, StopsAt config observer (start config m) notes k s report := by
    rintro ⟨fuel, ended⟩
    exact stopsAt_of_run leaves ended reported
  refine ⟨beginsWith_start config m, ⟨stops, ?_⟩, fun ended => ?_⟩
  · rintro ⟨k, stopped⟩
    exact ⟨k + 1, run_of_stopsAt leaves reported stopped⟩
  · obtain ⟨k, stopped⟩ := stops ended
    exact ⟨fun _ => stopped.steps_le, fun _ => stopped.breakpoint_ne⟩

def notePlaces : Observer (List Address) := fun places m => (.proceed, places ++ [m.pc])

/-- A machine that stands far from its program, with a breakpoint inside. -/
def parked : Machine := (Machine.shortProgram.setPc 0x100).setBreakpoint (some 1)

/-- Goes to the program and has the breakpoint on the halt at its end. -/
def traced : RunConfig :=
  { startPc := some 0, breakpoint := some 2, observeSteps := true, maxSteps := some 3 }

def tracedReport : Report (List Address) where
  machine := (Machine.shortProgram.executed 2).setBreakpoint (some 2)
  running := false
  notes := [1, 2, 2]
  summary := some ⟨some .breakPoint, 2⟩

theorem start_parked : start traced parked = Machine.shortProgram.setBreakpoint (some 2) := by
  have home : (Machine.shortProgram.processor.setPc 0x100).setPc 0 =
      Machine.shortProgram.processor := by
    rw [Processor.setPc, Processor.setPc, Processor.set_set]
    exact Processor.set_get _ Register.pc
  show ({ Machine.shortProgram with
    processor := (Machine.shortProgram.processor.setPc 0x100).setPc 0
    breakpoint := some 2 } : Machine) = _
  rw [home]
  rfl

theorem stopsAt_parked :
    StopsAt traced notePlaces (start traced parked) [] 2 ⟨some .breakPoint, 2⟩ tracedReport := by
  have executed (n : Nat) : (start traced parked).executed n =
      (Machine.shortProgram.executed n).setBreakpoint (some 2) := by
    rw [start_parked, Machine.executed_setBreakpoint]
  have pc (n : Nat) : ((Machine.shortProgram.executed n).setBreakpoint (some 2)).pc =
      (Machine.shortProgram.executed n).pc := rfl
  obtain ⟨-, first, -⟩ := Machine.executed_shortProgram (n := 1) (by omega)
  obtain ⟨-, second, continues⟩ := Machine.executed_shortProgram (Nat.le_refl 2)
  refine ⟨fun i below => ?_, ?_, rfl, ?_⟩
  · rw [exit?_eq_none_iff, executed]
    refine ⟨?_, fun later => ?_, continues i below⟩
    · rw [traced, Ne, Option.some.injEq]
      omega
    · obtain rfl : i = 1 := by omega
      rw [pc, first]
      decide
  · rw [executed]
    exact exit?_breakpoint (by decide) (by decide) (congrArg some second.symm)
  · have seen : shown traced (start traced parked) 2 =
        [(start traced parked).executed 1, (start traced parked).executed 2] := rfl
    rw [seen, executed, executed]
    simp only [List.cons_append, List.nil_append, watch, notePlaces, Reaction.aborts, pc, first,
      second, tracedReport]
    rfl

theorem run_stops_at_first_exit_of_parked :
    (start traced parked).pc = 0 ∧ (start traced parked).breakpoint = some 2 ∧
      (∃ fuel, parked.run fuel traced true notePlaces [] = some tracedReport) ∧
      tracedReport.machine.pc = 2 ∧
      ∀ i, 1 ≤ i → i < 2 →
        (start traced parked).breakpoint ≠ some ((start traced parked).executed i).pc := by
  have leaves : LeavesFlag notePlaces := fun _ _ => rfl
  have reported : tracedReport.summary = some ⟨some .breakPoint, 2⟩ := rfl
  obtain ⟨begins, ends, bounds⟩ := run_stops_at_first_exit parked traced [] leaves reported
  have stopped := ends.mpr ⟨2, stopsAt_parked⟩
  obtain ⟨-, second, -⟩ := Machine.executed_shortProgram (Nat.le_refl 2)
  exact ⟨begins.pc, begins.breakpoint, stopped, second, (bounds stopped).2⟩

end TeachingCpu.Run
