import WaveBus.Journal
import WaveBus.Params.Perturb
import WaveBus.Params.Text
import WaveBus.Score

/-! # The search

A greedy walk: take a random step from the best parameters so far, and stay there
if the score is no worse. Ties are taken, so the walk drifts over plateaus; it
can sit in a local optimum for ever and never ends by itself.

One candidate is tried by `attempt`, which always has a result. `next` tries
candidates until one is accepted or the search is halted.
-/

namespace WaveBus

/-- Parameters and their score. -/
structure Standing where
  params : Params
  score : Nat

/-- An accepted candidate. -/
structure Improvement where
  /-- How many candidates had been tried, this one included. -/
  iteration : Nat
  params : Params
  score : Nat

/-- How an improvement is written: its score as a remark, then the parameters. -/
def Improvement.text (improvement : Improvement) : String :=
  s!"// current score {improvement.score}\n" ++ improvement.params.text

/-- The trial of one candidate. -/
structure Attempt where
  /-- How many candidates had been tried, this one included. -/
  iteration : Nat
  candidate : Params
  score : Nat
  /-- The best score before. -/
  before : Nat

namespace Attempt

/-- A candidate is accepted if it is no worse than the best. -/
def accepted (attempt : Attempt) : Bool := attempt.score ≤ attempt.before

def improvement (attempt : Attempt) : Improvement :=
  ⟨attempt.iteration, attempt.candidate, attempt.score⟩

/-- What the attempt reports. -/
def event (wave : Wave) (attempt : Attempt) : Event :=
  if attempt.accepted then
    .candidateAccepted wave attempt.iteration attempt.before attempt.score
  else
    .candidateRejected wave attempt.iteration attempt.score

end Attempt

/-- A search for the parameters of one wave. -/
structure Search where
  wave : Wave
  table : Table
  generator : Generator
  best : Standing
  initialScore : Nat
  /-- How many candidates have been tried. -/
  iterations : Nat := 0
  /-- No more candidates than this are tried. -/
  limit : Option Nat := none

namespace Search

def start (wave : Wave) (table : Table) (initial : Params) (generator : Generator) : Search :=
  let score := score wave initial table
  { wave, table, generator, best := ⟨initial, score⟩, initialScore := score }

def startEvent (search : Search) : Event := .searchStarted search.wave search.initialScore

def isSpent (search : Search) : Bool :=
  search.limit.any (· ≤ search.iterations)

/-- Tries one candidate. -/
def attempt (search : Search) : Attempt × Search :=
  let (candidate, generator) := search.best.params.perturb search.generator
  let trial : Attempt :=
    { iteration := search.iterations + 1
      candidate
      score := score search.wave candidate search.table
      before := search.best.score }
  (trial,
    { search with
      generator
      iterations := search.iterations + 1
      best := if trial.accepted then ⟨candidate, trial.score⟩ else search.best })

@[simp] theorem iterations_attempt (search : Search) :
    search.attempt.2.iterations = search.iterations + 1 := rfl

@[simp] theorem position_attempt (search : Search) :
    search.attempt.2.generator.position = search.generator.position + Params.wordsPerStep := rfl

/-- How a call of `next` ends. -/
inductive Reply where
  | improved (improvement : Improvement)
  /-- The search is halted. -/
  | halted
  /-- As many candidates were tried as the caller allowed, and none accepted. -/
  | undecided

/-- A call of `next`: how it ends, what it tried in order, and the search after it. -/
structure Turn where
  reply : Reply
  attempts : List Attempt := []
  search : Search

/-- Tries candidates until one is accepted, but at most `patience`. The search is
    halted before a candidate if `stopped` holds or the limit is reached. -/
def next (stopped : Bool) : (patience : Nat) → Search → Turn
  | 0, search => { reply := .undecided, search }
  | patience + 1, search =>
      if stopped || search.isSpent then
        { reply := .halted, search }
      else
        let (trial, search) := search.attempt
        if trial.accepted then
          { reply := .improved trial.improvement, attempts := [trial], search }
        else
          let turn := next stopped patience search
          { turn with attempts := trial :: turn.attempts }

end Search

end WaveBus
