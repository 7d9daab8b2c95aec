import TeachingCpu.Proofs.Run.Exit

/-!
Observers that keep what they see. An observer can go by nothing but the machines it has been shown,
so every observer acts like one that keeps them all and reacts to that list. What such a one has seen
during a run only grows, and it has the machine after every step as soon as the step is made.
-/

namespace TeachingCpu.Run

/-- Keeps the machines it is shown. All that an observer can go by is what it has seen so far, the
present machine included. -/
def recorder (react : List Machine → Reaction) : Observer (List Machine) := fun seen m =>
  (react (seen ++ [m]), seen ++ [m])

def onlooker : Observer (List Machine) := recorder fun _ => .proceed

section Map

variable {σ τ : Type}

def Progress.map (f : σ → τ) (p : Progress σ) : Progress τ :=
  ⟨p.machine, p.running, p.steps, f p.notes⟩

def Report.map (f : σ → τ) (r : Report σ) : Report τ :=
  ⟨r.machine, r.running, f r.notes, r.summary⟩

def Turn.map (f : σ → τ) : Turn σ → Turn τ
  | again progress => .again (progress.map f)
  | stop report => .stop (report.map f)

/-- What the one observer keeps can be told from what the other one does, and they react alike. -/
def Follows (observer : Observer τ) (f : σ → τ) (other : Observer σ) : Prop :=
  ∀ notes m, observer (f notes) m = ((other notes m).1, f (other notes m).2)

variable {observer : Observer τ} {f : σ → τ} {other : Observer σ}

theorem finish_map (h : Follows observer f other) (outcome : Option Outcome) (p : Progress σ) :
    finish observer outcome (p.map f) = (finish other outcome p).map f := by
  simp only [finish, Progress.map, h p.notes p.machine, Report.map]

theorem observe_map (h : Follows observer f other) (p : Progress σ) :
    observe observer (p.map f) = (observe other p).map f := by
  simp only [observe, Progress.map, h p.notes p.machine]
  split <;> rfl

theorem turn_map (h : Follows observer f other) (config : RunConfig) (p : Progress σ) :
    turn config observer (p.map f) = (turn config other p).map f := by
  have advances (result : Outcome × Machine) :
      advance config observer (p.map f) result = (advance config other p result).map f := by
    obtain ⟨outcome, m⟩ := result
    cases outcome with
    | ok | noop =>
      simp only [advance]
      split
      · exact observe_map h ⟨m, p.running, p.steps + 1, p.notes⟩
      · rfl
    | halt => exact congrArg Turn.stop (finish_map h _ ⟨m, p.running, p.steps + 1, p.notes⟩)
    | breakPoint | endOfMemory =>
      exact congrArg Turn.stop (finish_map h _ ⟨m, p.running, p.steps, p.notes⟩)
  by_cases stopped : (!p.running || config.maxSteps.any (· ≤ p.steps)) = true
  · rw [turn_eq config other p, if_pos stopped, turn_eq, if_pos (by exact stopped)]
    exact congrArg Turn.stop (finish_map h none p)
  · rw [turn_eq config other p, if_neg stopped, turn_eq, if_neg (by exact stopped)]
    exact advances (attempt p)

theorem loop_map (h : Follows observer f other) (config : RunConfig) (fuel : Nat)
    (p : Progress σ) :
    loop config observer fuel (p.map f) = (loop config other fuel p).map (Report.map f) := by
  induction fuel generalizing p with
  | zero => rfl
  | succ fuel ih =>
    have turned := turn_map h config p
    cases next : turn config other p with
    | again q =>
      rw [next] at turned
      rw [loop_again turned, loop_again next]
      exact ih q
    | stop report =>
      rw [next] at turned
      rw [loop_stop turned, loop_stop next]
      rfl

def noted (observer : Observer τ) (notes : τ) (seen : List Machine) : τ :=
  seen.foldl (fun notes m => (observer notes m).2) notes

def reaction (observer : Observer τ) (notes : τ) (seen : List Machine) : Reaction :=
  match seen.getLast? with
  | none => .proceed
  | some m => (observer (noted observer notes seen.dropLast) m).1

/-- Every observer is a recorder, up to what it keeps of the machines. -/
theorem run_eq_map_recorder (m : Machine) (fuel : Nat) (config : RunConfig) (running : Bool)
    (observer : Observer τ) (notes : τ) :
    m.run fuel config running observer notes =
      (m.run fuel config running (recorder (reaction observer notes)) []).map
        (Report.map (noted observer notes)) := by
  have follows :
      Follows observer (noted observer notes) (recorder (reaction observer notes)) := by
    intro seen m
    simp [recorder, reaction, noted]
  exact loop_map follows config fuel ⟨start config m, running, 0, []⟩

end Map

def Turn.notes {σ : Type} : Turn σ → σ
  | again progress => progress.notes
  | stop report => report.notes

theorem notes_observe {σ : Type} (observer : Observer σ) (p : Progress σ) :
    (observe observer p).notes = (observer p.notes p.machine).2 := by
  simp only [observe]
  split <;> rfl

theorem turn_cases {σ : Type} (config : RunConfig) (p : Progress σ) :
    (∃ (outcome : Option Outcome) (q : Progress σ), q.notes = p.notes ∧
      ∀ observer, turn config observer p = .stop (finish observer outcome q)) ∨
    ∃ m, ∀ observer,
      turn config observer p = afterStep config observer ⟨m, true, p.steps + 1, p.notes⟩ := by
  by_cases stopped : (!p.running || config.maxSteps.any (· ≤ p.steps)) = true
  · refine .inl ⟨none, p, rfl, fun observer => ?_⟩
    rw [turn_eq, if_pos stopped]
  · have flag : p.running = true := by
      simp only [Bool.or_eq_true, not_or, Bool.not_eq_true, Bool.not_eq_false'] at stopped
      exact stopped.1
    have goes (observer : Observer σ) :
        turn config observer p = advance config observer p (attempt p) := by
      rw [turn_eq, if_neg stopped]
    obtain ⟨machine, running, steps, notes⟩ := p
    obtain rfl : running = true := flag
    simp only [goes]
    obtain ⟨outcome, m⟩ := attempt (⟨machine, true, steps, notes⟩ : Progress σ)
    cases outcome with
    | ok | noop => exact .inr ⟨m, fun _ => rfl⟩
    | halt => exact .inl ⟨some .halt, ⟨m, true, steps + 1, notes⟩, rfl, fun _ => rfl⟩
    | breakPoint => exact .inl ⟨some .breakPoint, ⟨m, true, steps, notes⟩, rfl, fun _ => rfl⟩
    | endOfMemory => exact .inl ⟨some .endOfMemory, ⟨m, true, steps, notes⟩, rfl, fun _ => rfl⟩

section Recorder

variable {config : RunConfig} {react : List Machine → Reaction} {k : Nat}
  {p : Progress (List Machine)} {report : Report (List Machine)}

theorem afterStep_recorder (asked : config.observeSteps = true)
    (stays : (react (p.notes ++ [p.machine])).aborts = false) :
    afterStep config (recorder react) p =
      .again ⟨p.machine, p.running && !(react (p.notes ++ [p.machine])).cancels, p.steps,
        p.notes ++ [p.machine]⟩ := by
  simp [afterStep, asked, observe, recorder, stays]

theorem afterStep_recorder_abort (asked : config.observeSteps = true)
    (aborts : react (p.notes ++ [p.machine]) = .abort false) :
    afterStep config (recorder react) p =
      .stop ⟨p.machine, p.running, p.notes ++ [p.machine], none⟩ := by
  simp [afterStep, asked, observe, recorder, aborts, Reaction.aborts, Reaction.cancels]

theorem afterStep_onlooker (asked : config.observeSteps = true) :
    afterStep config onlooker p =
      .again ⟨p.machine, p.running, p.steps, p.notes ++ [p.machine]⟩ := by
  have turned : afterStep config onlooker p =
      .again ⟨p.machine, p.running && !Reaction.proceed.cancels, p.steps, p.notes ++ [p.machine]⟩ :=
    afterStep_recorder asked rfl
  rw [turned, show Reaction.proceed.cancels = false from rfl, Bool.not_false, Bool.and_true]

theorem notes_afterStep (asked : config.observeSteps = true) :
    (afterStep config (recorder react) p).notes = p.notes ++ [p.machine] := by
  rw [afterStep, if_pos asked]
  exact notes_observe _ p

theorem notes_turn (asked : config.observeSteps = true) :
    p.notes <+: (turn config (recorder react) p).notes := by
  rcases turn_cases config p with ⟨outcome, q, same, stops⟩ | ⟨m, steps⟩
  · rw [stops, ← same]
    exact List.prefix_append _ _
  · rw [steps, notes_afterStep asked]
    exact List.prefix_append _ _

theorem notes_turn_of_loop (asked : config.observeSteps = true) {fuel : Nat}
    (ended : loop config (recorder react) fuel p = some report) :
    (turn config (recorder react) p).notes <+: report.notes := by
  induction fuel generalizing p with
  | zero => contradiction
  | succ fuel ih =>
    cases turned : turn config (recorder react) p with
    | again q =>
      rw [loop_again turned] at ended
      exact (notes_turn asked).trans (ih ended)
    | stop last =>
      rw [loop_stop turned] at ended
      cases ended
      exact List.prefix_rfl

theorem notes_of_again (asked : config.observeSteps = true) {q : Progress (List Machine)}
    (turned : turn config (recorder react) p = .again q) {fuel : Nat}
    (ended : loop config (recorder react) fuel p = some report) : q.notes <+: report.notes := by
  have seen := notes_turn_of_loop asked ended
  rwa [turned] at seen

end Recorder

end TeachingCpu.Run
