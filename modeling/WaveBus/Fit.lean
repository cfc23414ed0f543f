import WaveBus.Failure
import WaveBus.Search

/-! # Searches side by side

A fit runs one search for each of its waves. The searches share an output, to
which they write whole blocks, and a signal, which the first of them to fail at
writing raises for all, and which is raised as well when the time is up. They move
in small steps (look at the signal, try a candidate, write a block), and nothing is
said here about whose turn it is: a schedule is what happens, in order.
-/

namespace WaveBus

/-- What a search does when it moves next. -/
inductive Phase where
  /-- Write the initial score. -/
  | announcing
  /-- Look at the signal and at the limit. -/
  | checking
  /-- Try a candidate; the signal has been looked at. -/
  | trying
  /-- Write an improvement. -/
  | writing (improvement : Improvement)
  | over

/-- A search with its place among the steps. -/
structure Runner where
  search : Search
  phase : Phase := .announcing

namespace Runner

def isOver (runner : Runner) : Bool :=
  match runner.phase with
  | .over => true
  | _ => false

/-- The block that the next move writes. -/
def block? (runner : Runner) : Option String :=
  match runner.phase with
  | .announcing => some s!"// initial score {runner.search.initialScore}\n"
  | .writing improvement => some improvement.text
  | _ => none

/-- What the end of the search reports. -/
def endEvent (search : Search) : Event :=
  .searchEnded search.wave search.best.score search.iterations search.initialScore

/-- What a move leads to. -/
structure Move where
  runner : Runner
  events : List Event := []
  /-- The signal is raised for all searches. -/
  raises : Bool := false

/-- The move behind a write: on to the next check, or to the end if the write failed. -/
def afterWrite (search : Search) (written : Bool) : Move :=
  if written then
    { runner := { search, phase := .checking } }
  else
    { runner := { search, phase := .over }
      events := [.outputLost search.wave brokenPipe, endEvent search]
      raises := true }

/-- Makes one move. `stopped` is the state of the signal, `written` whether the
    block of this move could be written. -/
def move (runner : Runner) (stopped written : Bool) : Move :=
  let search := runner.search
  match runner.phase with
  | .announcing =>
      let next := afterWrite search written
      { next with events := search.startEvent :: next.events }
  | .checking =>
      if stopped || search.isSpent then
        { runner := { search, phase := .over }, events := [endEvent search] }
      else
        { runner := { search, phase := .trying } }
  | .trying =>
      let (trial, search) := search.attempt
      { runner :=
          { search
            phase := if trial.accepted then .writing trial.improvement else .checking }
        events := [trial.event search.wave] }
  | .writing _ => afterWrite search written
  | .over => { runner }

end Runner

/-- Searches that run side by side, and what they have brought about so far. -/
structure Fit where
  runners : List Runner
  /-- The signal that ends all searches. -/
  stopped : Bool := false
  /-- The blocks that were written, in order. -/
  blocks : List String := []
  /-- How many writes were tried. -/
  writes : Nat := 0
  events : List Event := []

namespace Fit

def start (searches : List Search) : Fit :=
  { runners := searches.map fun search => { search } }

/-- Blocks are tagged with their wave if there are several searches. -/
def tagged (fit : Fit) : Bool := fit.runners.length > 1

/-- A block as it is written: its tag, its text and a blank line. -/
def framed (tagged : Bool) (wave : Wave) (block : String) : String :=
  if tagged then s!"// wave {wave}\n{block}\n" else block ++ "\n"

/-- The block that search `i` writes when it moves next. -/
def block? (fit : Fit) (i : Nat) : Option String := do
  let runner ← fit.runners[i]?
  framed fit.tagged runner.search.wave <$> runner.block?

/-- Lets search `i` move. `written` tells whether the block of this move could be written. -/
def move (fit : Fit) (i : Nat) (written : Bool) : Fit :=
  match fit.runners[i]? with
  | none => fit
  | some runner =>
      let block? := fit.block? i
      let next := runner.move fit.stopped written
      { runners := fit.runners.set i next.runner
        stopped := fit.stopped || next.raises
        blocks := fit.blocks ++ if written then block?.toList else []
        writes := fit.writes + block?.toList.length
        events := fit.events ++ next.events }

/-- Raises the signal because the time is up. -/
def expire (fit : Fit) : Fit :=
  { fit with stopped := true, events := fit.events ++ [.timeUp] }

/-- What can happen next. -/
inductive Step where
  /-- Search `i` moves. -/
  | move (i : Nat)
  /-- The time is up. -/
  | expire
  deriving DecidableEq

/-- Takes one step; `accepts n` tells whether write number `n` succeeds. -/
def step (accepts : Nat → Bool) (fit : Fit) : Step → Fit
  | .move i => fit.move i (accepts fit.writes)
  | .expire => fit.expire

/-- Lets happen what a schedule says. -/
def follow (accepts : Nat → Bool) (fit : Fit) (schedule : List Step) : Fit :=
  schedule.foldl (step accepts) fit

/-- Whether search `i` has come to its end, or does not exist. -/
def isOver (fit : Fit) (i : Nat) : Bool :=
  fit.runners[i]?.all Runner.isOver

/-- Moves search `i` to its end, but at most `moves` times. -/
def exhaust (accepts : Nat → Bool) (i : Nat) : (moves : Nat) → Fit → Fit
  | 0, fit => fit
  | moves + 1, fit =>
      if fit.isOver i then fit else exhaust accepts i moves (fit.step accepts (.move i))

/-- A limit that no search reaches. -/
def farLimit : Nat := UInt64.size

/-- As many moves as a search with this limit can make: three for each candidate,
    one for the initial score and one for the end. -/
def enoughMoves (search : Search) : Nat :=
  3 * search.limit.getD farLimit + 2

/-- Runs the searches one after the other. -/
def runAll (accepts : Nat → Bool) (fit : Fit) : Fit :=
  fit.runners.zipIdx.foldl
    (fun fit (runner, i) => fit.exhaust accepts i (enoughMoves runner.search)) fit

def output (fit : Fit) : String := String.join fit.blocks

end Fit

end WaveBus
