import Mathlib.Data.List.Induction
import WaveBus.Fit

/-! # Moves of searches side by side

What one move changes: the search that moves, and nothing of the others. A search can
make only so many moves: each of them brings it nearer to its end, for behind the gate
there are only so many candidates left, and none if the signal is up.
-/

namespace WaveBus

theorem Runner.isOver_iff {runner : Runner} : runner.isOver = true ↔ runner.phase = .over := by
  obtain ⟨search, phase⟩ := runner
  cases phase <;> simp [isOver]

namespace Fit

variable {fit : Fit} {i j : Nat} {runner : Runner} {written : Bool} {accepts : Nat → Bool}

theorem move_of_none (h : fit.runners[i]? = none) : fit.move i written = fit := by
  simp only [move, h]

theorem block?_of_some (h : fit.runners[i]? = some runner) :
    fit.block? i = runner.block?.map (framed fit.tagged runner.search.wave) := by
  simp only [block?, h]
  rfl

theorem runners_move (h : fit.runners[i]? = some runner) :
    (fit.move i written).runners =
      fit.runners.set i (runner.move fit.stopped written).runner := by
  simp only [move, h]

theorem stopped_move (h : fit.runners[i]? = some runner) :
    (fit.move i written).stopped = (fit.stopped || (runner.move fit.stopped written).raises) := by
  simp only [move, h]

theorem blocks_move (h : fit.runners[i]? = some runner) :
    (fit.move i written).blocks = fit.blocks ++ if written then (fit.block? i).toList else [] := by
  simp only [move, h]

theorem writes_move (h : fit.runners[i]? = some runner) :
    (fit.move i written).writes = fit.writes + (fit.block? i).toList.length := by
  simp only [move, h]

theorem events_move (h : fit.runners[i]? = some runner) :
    (fit.move i written).events = fit.events ++ (runner.move fit.stopped written).events := by
  simp only [move, h]

@[simp] theorem length_runners_move : (fit.move i written).runners.length = fit.runners.length := by
  cases h : fit.runners[i]? with
  | none => rw [move_of_none h]
  | some runner => simp [runners_move h]

theorem runner_move_self (h : fit.runners[i]? = some runner) :
    (fit.move i written).runners[i]? = some (runner.move fit.stopped written).runner := by
  obtain ⟨inside, -⟩ := List.getElem?_eq_some_iff.1 h
  simp [runners_move h, inside]

theorem runner_move_of_ne (ne : i ≠ j) : (fit.move i written).runners[j]? = fit.runners[j]? := by
  cases h : fit.runners[i]? with
  | none => rw [move_of_none h]
  | some runner => simp [runners_move h, ne]

theorem stopped_move_of_stopped (h : fit.stopped = true) : (fit.move i written).stopped = true := by
  cases there : fit.runners[i]? with
  | none => rwa [move_of_none there]
  | some runner => simp [stopped_move there, h]

theorem move_of_over (h : fit.isOver i = true) : fit.move i written = fit := by
  cases there : fit.runners[i]? with
  | none => exact move_of_none there
  | some runner =>
      obtain ⟨search, phase⟩ := runner
      obtain rfl : phase = .over := by simpa [isOver, there, Runner.isOver_iff] using h
      have same : fit.runners.set i ⟨search, .over⟩ = fit.runners := by
        obtain ⟨inside, here⟩ := List.getElem?_eq_some_iff.1 there
        rw [← here, List.set_getElem_self]
      simp [move, there, Fit.block?, Runner.block?, Runner.move, same]

theorem follow_append (first second : List Step) :
    fit.follow accepts (first ++ second) = (fit.follow accepts first).follow accepts second :=
  List.foldl_append

/-- What every step keeps is kept along a schedule. -/
theorem follow_induction {P : Fit → Prop}
    (move : ∀ fit i, P fit → P (fit.move i (accepts fit.writes)))
    (expire : ∀ fit, P fit → P fit.expire) (schedule : List Step) (h : P fit) :
    P (fit.follow accepts schedule) := by
  induction schedule generalizing fit with
  | nil => exact h
  | cons next schedule ih =>
      cases next with
      | move i => exact ih (move fit i h)
      | expire => exact ih (expire fit h)

/-- As long as the time is not up it is enough that every move keeps something. -/
theorem follow_moves_induction {P : Fit → Prop}
    (move : ∀ fit i, P fit → P (fit.move i (accepts fit.writes))) (schedule : List ℕ) (h : P fit) :
    P (fit.follow accepts (schedule.map .move)) := by
  induction schedule generalizing fit with
  | nil => exact h
  | cons i schedule ih => exact ih (move fit i h)

theorem length_runners_follow (accepts : Nat → Bool) (fit : Fit) (schedule : List Step) :
    (fit.follow accepts schedule).runners.length = fit.runners.length :=
  follow_induction (P := fun later => later.runners.length = fit.runners.length)
    (fun _ _ same => length_runners_move.trans same) (fun _ same => same) schedule rfl

theorem stopped_follow (h : fit.stopped = true) (schedule : List Step) :
    (fit.follow accepts schedule).stopped = true :=
  follow_induction (P := fun later => later.stopped = true)
    (fun _ _ => stopped_move_of_stopped) (fun _ _ => rfl) schedule h

theorem follow_replicate (accepts : Nat → Bool) (i moves : Nat) (fit : Fit) :
    fit.follow accepts (List.replicate moves (.move i)) = exhaust accepts i moves fit := by
  induction moves generalizing fit with
  | zero => rfl
  | succ moves ih =>
      have first : fit.follow accepts (List.replicate (moves + 1) (.move i)) =
          exhaust accepts i moves (fit.step accepts (.move i)) := ih _
      rw [first, exhaust]
      split
      next ended =>
        rw [step, move_of_over ended]
        cases moves <;> simp [exhaust, ended]
      next => rfl

/-- The schedule of searches that run one after the other. -/
def turns (runners : List Runner) : List Step :=
  runners.zipIdx.flatMap fun (runner, i) => List.replicate (enoughMoves runner.search) (.move i)

theorem runAll_eq_follow (accepts : Nat → Bool) (fit : Fit) :
    fit.runAll accepts = fit.follow accepts (turns fit.runners) := by
  rw [runAll, turns]
  generalize fit.runners.zipIdx = places
  induction places generalizing fit with
  | nil => rfl
  | cons place places ih =>
      rw [List.foldl_cons, ih, List.flatMap_cons, follow_append, follow_replicate]

theorem mem_turns {runners : List Runner} (h : i < runners.length) :
    .move i ∈ turns runners := by
  rw [turns, List.mem_flatMap]
  refine ⟨(runners[i], i), ?_, ?_⟩
  · simp [List.mem_zipIdx_iff_getElem?, h]
  · simp [enoughMoves]

/-- What its own moves keep of a search, and a raised signal too, is kept along a schedule.
    `P` may speak of the number of its own moves. -/
theorem runner_follow {P : Nat → Bool → Runner → Prop}
    (raise : ∀ moves runner, P moves false runner → P moves true runner)
    (own : ∀ moves stopped write runner, P moves stopped runner →
      P (moves + 1) (stopped || (runner.move stopped (accepts write)).raises)
        (runner.move stopped (accepts write)).runner)
    (schedule : List Step) (there : fit.runners[i]? = some runner) (h : P 0 fit.stopped runner) :
    ∃ later, (fit.follow accepts schedule).runners[i]? = some later ∧
      P (schedule.count (.move i)) (fit.follow accepts schedule).stopped later := by
  have raised : ∀ moves stopped later other, P moves stopped later → P moves (stopped || other) later := by
    intro moves stopped later other h
    cases stopped with
    | true => exact h
    | false =>
        cases other with
        | true => exact raise moves later h
        | false => exact h
  induction schedule using List.reverseRecOn with
  | nil => exact ⟨runner, there, h⟩
  | append_singleton schedule next ih =>
      obtain ⟨before, there, h⟩ := ih
      rw [follow_append]
      generalize fit.follow accepts schedule = fit at *
      cases next with
      | expire =>
          refine ⟨before, there, ?_⟩
          have up := raised _ _ before true h
          simpa [follow, step, expire] using up
      | move j =>
          change ∃ later, (fit.move j _).runners[i]? = some later ∧ P _ (fit.move j _).stopped later
          by_cases same : j = i
          · subst same
            refine ⟨_, runner_move_self there, ?_⟩
            simpa [stopped_move there] using own _ _ fit.writes _ h
          · refine ⟨before, (runner_move_of_ne same).trans there, ?_⟩
            have others : (schedule ++ [Step.move j]).count (.move i) = schedule.count (.move i) := by
              simp [same]
            rw [others]
            cases other : fit.runners[j]? with
            | none => rwa [move_of_none other]
            | some mover =>
                rw [stopped_move other]
                exact raised _ _ before _ h

end Fit

namespace Runner

variable {n : Nat} {stopped written : Bool} {runner : Runner}

theorem raises_move (runner : Runner) (stopped written : Bool) :
    (runner.move stopped written).raises = (runner.block?.isSome && !written) := by
  obtain ⟨search, phase⟩ := runner
  cases phase with
  | announcing | writing => cases written <;> rfl
  | checking =>
      simp only [move]
      split <;> rfl
  | _ => rfl

/-- How many candidates the search has tried when it comes to the gate next. -/
def reach (runner : Runner) : Nat :=
  match runner.phase with
  | .trying => runner.search.iterations + 1
  | _ => runner.search.iterations

/-- The gate lets no candidate behind number `n` through. -/
structure Bounded (n : Nat) (stopped : Bool) (runner : Runner) : Prop where
  gate : stopped = true ∨ runner.search.limit = some n
  reach_le : runner.reach ≤ n

/-- As many moves as a search can make that is bounded by `n`. -/
def movesLeft (n : Nat) (runner : Runner) : Nat :=
  match runner.phase with
  | .announcing | .writing _ => 3 * (n - runner.reach) + 2
  | .checking => 3 * (n - runner.reach) + 1
  | .trying => 3 * (n - runner.reach) + 3
  | .over => 0

theorem movesLeft_eq_zero_iff : runner.movesLeft n = 0 ↔ runner.isOver = true := by
  obtain ⟨search, phase⟩ := runner
  cases phase <;> simp [movesLeft, isOver]

theorem Bounded.raise (h : runner.Bounded n false) : runner.Bounded n true :=
  ⟨.inl rfl, h.reach_le⟩

/-- A search that is bounded stays so, and each move brings it nearer to its end. -/
theorem Bounded.move (h : runner.Bounded n stopped) (written : Bool) :
    (runner.move stopped written).runner.Bounded n
        (stopped || (runner.move stopped written).raises) ∧
      (runner.move stopped written).runner.movesLeft n ≤ runner.movesLeft n - 1 := by
  obtain ⟨search, phase⟩ := runner
  obtain ⟨gate, le⟩ := h
  cases phase with
  | announcing | writing =>
      cases written with
      | true => exact ⟨⟨by simpa [Runner.move, afterWrite] using gate, le⟩, Nat.le_refl _⟩
      | false => exact ⟨⟨by simp [Runner.move, afterWrite], le⟩, Nat.zero_le _⟩
  | checking =>
      simp only [Runner.move]
      split
      next => exact ⟨⟨by simpa using gate, le⟩, Nat.zero_le _⟩
      next opened =>
        simp only [Bool.or_eq_true, not_or, Bool.not_eq_true] at opened
        obtain ⟨open_, unspent⟩ := opened
        have limit : search.limit = some n := by simpa [open_] using gate
        have under : search.iterations < n := by simpa [Search.isSpent, limit] using unspent
        refine ⟨⟨by simpa using gate, under⟩, ?_⟩
        simp only [movesLeft, reach]
        omega
  | trying =>
      have left : ∀ phase, Runner.reach ⟨search.attempt.2, phase⟩ ≤ n →
          Runner.Bounded n (stopped || false) ⟨search.attempt.2, phase⟩ :=
        fun _ le => ⟨by simpa [Search.attempt] using gate, le⟩
      simp only [Runner.move]
      cases search.attempt.1.accepted with
      | true => exact ⟨left _ le, by simp [movesLeft, reach]⟩
      | false => exact ⟨left _ le, by simp [movesLeft, reach]⟩
  | _ => exact ⟨⟨by simpa [Runner.move] using gate, le⟩, Nat.zero_le _⟩

end Runner

/-- A bounded search stays bounded along a schedule, and is over after as many of its own
    moves as it had left. -/
theorem Fit.bounded_follow {n i : Nat} {fit : Fit} {runner : Runner} (accepts : Nat → Bool)
    (schedule : List Fit.Step) (there : fit.runners[i]? = some runner)
    (h : runner.Bounded n fit.stopped) :
    ∃ later, (fit.follow accepts schedule).runners[i]? = some later ∧
      later.Bounded n (fit.follow accepts schedule).stopped ∧
      later.movesLeft n ≤ runner.movesLeft n - schedule.count (.move i) := by
  refine runner_follow (P := fun moves stopped later =>
    later.Bounded n stopped ∧ later.movesLeft n ≤ runner.movesLeft n - moves) ?_ ?_ schedule there
    ⟨h, Nat.le_refl _⟩
  · rintro moves later ⟨bounded, le⟩
    exact ⟨bounded.raise, le⟩
  · rintro moves stopped write later ⟨bounded, le⟩
    obtain ⟨after, fewer⟩ := bounded.move (accepts write)
    exact ⟨after, by omega⟩

end WaveBus
