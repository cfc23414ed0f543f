import WaveBus.Proofs.Session.History

/-! # The trajectory of a search

Where a search is after `n` candidates does not depend on how it got there: limits,
stop signals and the cutting of the work into calls decide how far it goes, not
which way. The way is a recursion on the number of candidates, in which every
candidate has fifteen words of the stream to itself.
-/

namespace WaveBus

namespace Generator

/-- The words that step number `step` takes, and zeros behind them. -/
def ofStep (stream : Nat → UInt32) (step : Nat) : Generator where
  stream := fun i => if i < Params.wordsPerStep then stream (Params.wordsPerStep * step + i) else 0

theorem peek_ofStep (stream : Nat → UInt32) (step : Nat) {ahead : Nat}
    (h : ahead < Params.wordsPerStep) :
    (ofStep stream step).peek ahead = peek ⟨stream, Params.wordsPerStep * step⟩ ahead := by
  simp only [peek, ofStep, Nat.zero_add, if_pos h]

end Generator

/-- A step depends on no other words than those it takes. -/
theorem Params.perturb_ofStep (params : Params) (stream : Nat → UInt32) (step : Nat) :
    (params.perturb (.ofStep stream step)).1 =
      (params.perturb ⟨stream, wordsPerStep * step⟩).1 := by
  have factors : (fun field : Field => (Generator.ofStep stream step).factor
        (wordsPerFactor * field.rank)) =
      fun field => Generator.factor ⟨stream, wordsPerStep * step⟩ (wordsPerFactor * field.rank) := by
    funext field
    have inside : wordsPerFactor * field.rank + 2 < wordsPerStep := by
      cases field <;> decide
    unfold Generator.factor
    rw [Generator.peek_ofStep stream step (by omega), Generator.peek_ofStep stream step (by omega),
      Generator.peek_ofStep stream step inside]
  simp only [perturb, factors]

/-- What a search that nothing holds up goes through. -/
structure Trajectory where
  wave : Wave
  table : Table
  initial : Params
  stream : Nat → UInt32

namespace Trajectory

/-- The best after a number of candidates. -/
def best (path : Trajectory) : Nat → Standing
  | 0 => ⟨path.initial, score path.wave path.initial path.table⟩
  | n + 1 =>
      let before := path.best n
      let candidate := (before.params.perturb (.ofStep path.stream n)).1
      let reached := score path.wave candidate path.table
      if reached ≤ before.score then ⟨candidate, reached⟩ else before

/-- The trial of candidate `n + 1`. -/
def attempt (path : Trajectory) (n : Nat) : Attempt :=
  let candidate := ((path.best n).params.perturb (.ofStep path.stream n)).1
  { iteration := n + 1
    candidate
    score := score path.wave candidate path.table
    before := (path.best n).score }

/-- The first `n` candidates. -/
def attempts (path : Trajectory) (n : Nat) : List Attempt :=
  (List.range n).map path.attempt

theorem attempts_succ (path : Trajectory) (n : Nat) :
    path.attempts (n + 1) = path.attempts n ++ [path.attempt n] := by
  simp [attempts, List.range_succ]

/-- The accepted ones among the first `n` candidates. -/
def improvements (path : Trajectory) (n : Nat) : List Improvement :=
  ((path.attempts n).filter fun trial => trial.score ≤ trial.before).map fun trial =>
    ⟨trial.iteration, trial.candidate, trial.score⟩

/-- A search and its trials are on the trajectory, as far as the search has counted. -/
structure Reaches (path : Trajectory) (search : Search) (tried : List Attempt) : Prop where
  wave : search.wave = path.wave
  table : search.table = path.table
  best : search.best = path.best search.iterations
  generator : search.generator = ⟨path.stream, Params.wordsPerStep * search.iterations⟩
  tried : tried = path.attempts search.iterations

theorem attempt_of_reaches {path : Trajectory} {search : Search} {tried : List Attempt}
    (h : path.Reaches search tried) : search.attempt.1 = path.attempt search.iterations := by
  simp only [Search.attempt, attempt, Params.perturb_ofStep, h.wave, h.table, h.best, h.generator]

theorem best_of_reaches {path : Trajectory} {search : Search} {tried : List Attempt}
    (h : path.Reaches search tried) :
    search.attempt.2.best = path.best (search.iterations + 1) := by
  simp only [Search.attempt, best, Attempt.accepted, Params.perturb_ofStep, h.wave, h.table,
    h.best, h.generator, decide_eq_true_eq]

/-- One more candidate is one more step of the trajectory. -/
theorem kept (path : Trajectory) : History.Kept path.Reaches where
  attempt := by
    intro search tried h
    refine ⟨h.wave, h.table, best_of_reaches h, ?_, ?_⟩
    · rw [Search.iterations_attempt, Nat.mul_succ, ← Nat.add_zero (Params.wordsPerStep * _)]
      exact congrArg (Generator.skip · Params.wordsPerStep) h.generator
    · rw [Search.iterations_attempt, attempt_of_reaches h, h.tried, attempts_succ]
  limit := fun _ h => ⟨h.wave, h.table, h.best, h.generator, h.tried⟩

theorem reaches_start (wave : Wave) (table : Table) (initial : Params) (stream : Nat → UInt32) :
    (⟨wave, table, initial, stream⟩ : Trajectory).Reaches
      (History.start wave table initial stream).search [] :=
  ⟨rfl, rfl, rfl, rfl, rfl⟩

end Trajectory

namespace History

/-- After any operations in any order the search stands where its trajectory has it
    after as many candidates as it has counted. What it has returned are the accepted
    ones among them, and each of them has taken fifteen words. -/
theorem follows_trajectory (wave : Wave) (table : Table) (initial : Params)
    (stream : Nat → UInt32) (operations : List Operation) :
    let path : Trajectory := ⟨wave, table, initial, stream⟩
    let history := (start wave table initial stream).performAll operations
    let n := history.search.iterations
    history.search.best = path.best n ∧
      history.tried = path.attempts n ∧
      history.found = path.improvements n ∧
      history.search.generator = ⟨stream, 15 * n⟩ := by
  intro path history n
  have reached : path.Reaches history.search history.tried :=
    path.kept.performAll operations (Trajectory.reaches_start wave table initial stream)
  have returned : history.found = (history.tried.filter Attempt.accepted).map Attempt.improvement :=
    found_performAll operations rfl
  refine ⟨reached.best, reached.tried, ?_, reached.generator⟩
  rw [returned, reached.tried]
  rfl

end History

end WaveBus
