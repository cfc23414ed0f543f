import WaveBus.Proofs.Bus.Used
import WaveBus.Proofs.Search.Next
import WaveBus.Proofs.Session.Signals

/-! # Searches from seeds that differ in unused fields

Two searches whose seeds agree on the fields that the wave uses go side by side for
ever. A step scales every field by a factor of its own, drawn at a place that does not
depend on any value, so candidates of sets that agree also agree; they have the same
score, so both are accepted or neither.
-/

namespace WaveBus

namespace Params

theorem Agree.scale {wave : Wave} {params other : Params} (h : Agree wave params other)
    (factor : Field → Float) : Agree wave (params.scale factor) (other.scale factor) := by
  intro field used
  have same := h field used
  cases field <;> simp only [get, Params.scale] at same ⊢ <;> rw [same]

theorem Agree.perturb {wave : Wave} {params other : Params} (h : Agree wave params other)
    (g : Generator) : Agree wave (params.perturb g).1 (other.perturb g).1 := by
  simp only [Params.perturb]
  exact h.scale _

end Params

/-- Trials that differ at most in unused fields of the candidate. -/
structure Attempt.Alike (wave : Wave) (trial other : Attempt) : Prop where
  iteration : trial.iteration = other.iteration
  candidate : Params.Agree wave trial.candidate other.candidate
  score : trial.score = other.score
  before : trial.before = other.before

theorem Attempt.Alike.accepted {wave : Wave} {trial other : Attempt}
    (h : trial.Alike wave other) : trial.accepted = other.accepted := by
  rw [Attempt.accepted, Attempt.accepted, h.score, h.before]

theorem Attempt.Alike.event {wave : Wave} {trial other : Attempt} (h : trial.Alike wave other) :
    trial.event wave = other.event wave := by
  rw [Attempt.event, Attempt.event, h.accepted, h.iteration, h.before, h.score]

/-- Improvements that differ at most in unused fields. -/
structure Improvement.Alike (wave : Wave) (improvement other : Improvement) : Prop where
  iteration : improvement.iteration = other.iteration
  params : Params.Agree wave improvement.params other.params
  score : improvement.score = other.score

theorem Attempt.Alike.improvement {wave : Wave} {trial other : Attempt}
    (h : trial.Alike wave other) : trial.improvement.Alike wave other.improvement :=
  ⟨h.iteration, h.candidate, h.score⟩

theorem Search.generator_attempt (search : Search) :
    search.attempt.2.generator = search.generator.skip Params.wordsPerStep := rfl

/-- Searches that differ at most in unused fields of their best parameters. -/
structure Search.Alike (search other : Search) : Prop where
  wave : search.wave = other.wave
  table : search.table = other.table
  generator : search.generator = other.generator
  best : Params.Agree search.wave search.best.params other.best.params
  bestScore : search.best.score = other.best.score
  initialScore : search.initialScore = other.initialScore
  iterations : search.iterations = other.iterations
  limit : search.limit = other.limit

/-- Replies that differ at most in unused fields of an improvement. -/
inductive Search.Reply.Alike (wave : Wave) : Search.Reply → Search.Reply → Prop
  | improved {improvement other : Improvement} (h : improvement.Alike wave other) :
      Alike wave (.improved improvement) (.improved other)
  | halted : Alike wave .halted .halted
  | undecided : Alike wave .undecided .undecided

namespace Search.Alike

variable {search other : Search}

theorem start {wave : Wave} {initial seed : Params} (h : Params.Agree wave initial seed)
    (table : Table) (generator : Generator) :
    (Search.start wave table initial generator).Alike (.start wave table seed generator) := by
  simp only [Search.start, h.score_eq table]
  exact ⟨rfl, rfl, rfl, h, rfl, rfl, rfl, rfl⟩

theorem isSpent (h : search.Alike other) : search.isSpent = other.isSpent := by
  rw [Search.isSpent, Search.isSpent, h.limit, h.iterations]

theorem trial (h : search.Alike other) :
    search.attempt.1.Alike search.wave other.attempt.1 := by
  have candidate := h.best.perturb search.generator
  refine ⟨congrArg (· + 1) h.iterations, ?_, ?_, h.bestScore⟩
  · simpa only [Search.attempt, ← h.generator] using candidate
  · simp only [Search.attempt, ← h.wave, ← h.table, ← h.generator]
    exact candidate.score_eq search.table

theorem attempt (h : search.Alike other) : search.attempt.2.Alike other.attempt.2 := by
  have trial := h.trial
  have best : Params.Agree search.wave search.attempt.2.best.params other.attempt.2.best.params ∧
      search.attempt.2.best.score = other.attempt.2.best.score := by
    rw [search.best_attempt, other.best_attempt, trial.accepted]
    split
    · dsimp only
      exact ⟨trial.candidate, trial.score⟩
    · exact ⟨h.best, h.bestScore⟩
  refine ⟨h.wave, h.table, ?_, best.1, best.2, h.initialScore, ?_, h.limit⟩
  · rw [Search.generator_attempt, Search.generator_attempt, h.generator]
  · rw [Search.iterations_attempt, Search.iterations_attempt, h.iterations]

/-- Calls on such searches try the same number of candidates and end in the same way. -/
theorem next (h : search.Alike other) (stopped : Bool) (patience : Nat) :
    (search.next stopped patience).reply.Alike search.wave (other.next stopped patience).reply ∧
      List.Forall₂ (Attempt.Alike search.wave) (search.next stopped patience).attempts
        (other.next stopped patience).attempts ∧
      (search.next stopped patience).search.Alike (other.next stopped patience).search := by
  induction patience generalizing search other with
  | zero => exact ⟨.undecided, .nil, h⟩
  | succ patience ih =>
      rw [Search.next, Search.next, h.isSpent]
      split
      · exact ⟨.halted, .nil, h⟩
      · dsimp only
        rw [h.trial.accepted]
        split
        · exact ⟨.improved h.trial.improvement, .cons h.trial .nil, h.attempt⟩
        · obtain ⟨reply, attempts, after⟩ := ih h.attempt
          exact ⟨reply, .cons h.trial attempts, after⟩

end Search.Alike

theorem Search.Reply.Alike.improvement? {wave : Wave} {reply other : Search.Reply}
    (h : reply.Alike wave other) :
    List.Forall₂ (Improvement.Alike wave) reply.improvement?.toList other.improvement?.toList := by
  cases h with
  | improved h => exact .cons h .nil
  | halted | undecided => exact .nil

theorem Attempt.Alike.map_event {wave : Wave} {tried others : List Attempt}
    (h : List.Forall₂ (Attempt.Alike wave) tried others) :
    tried.map (Attempt.event wave) = others.map (Attempt.event wave) := by
  induction h with
  | nil => rfl
  | cons first _ ih => rw [List.map_cons, List.map_cons, first.event, ih]

namespace History

/-- Histories that differ at most in unused fields of parameters. -/
structure Alike (wave : Wave) (history other : History) : Prop where
  wave_eq : history.search.wave = wave
  search : history.search.Alike other.search
  signals : history.session.signals = other.session.signals
  attached : history.session.attached = other.session.attached
  events : history.session.events = other.session.events
  tried : List.Forall₂ (Attempt.Alike wave) history.tried other.tried
  found : List.Forall₂ (Improvement.Alike wave) history.found other.found

namespace Alike

variable {wave : Wave} {history other : History}

theorem start {initial seed : Params} (h : Params.Agree wave initial seed) (table : Table)
    (stream : Nat → UInt32) :
    (History.start wave table initial stream).Alike wave (.start wave table seed stream) := by
  have search := Search.Alike.start h table { stream }
  refine ⟨rfl, search, rfl, rfl, ?_, .nil, .nil⟩
  simp only [History.start, Session.start, Search.startEvent, search.initialScore, search.wave]

theorem isStopped (h : history.Alike wave other) :
    history.session.isStopped = other.session.isStopped :=
  Session.isStopped_congr h.signals h.attached

theorem next (h : history.Alike wave other) (patience : Nat) :
    (history.perform (.next patience)).Alike wave (other.perform (.next patience)) := by
  have here : history.session.search.wave = wave := h.wave_eq
  have there : other.session.search.wave = wave := h.search.wave.symm.trans h.wave_eq
  obtain ⟨reply, attempts, search⟩ := h.search.next other.session.isStopped patience
  rw [h.wave_eq] at reply attempts
  have events := Attempt.Alike.map_event attempts
  refine ⟨?_, ?_, h.signals, h.attached, ?_, ?_, ?_⟩
  all_goals simp only [perform, Session.next, h.isStopped, here, there]
  · exact (Search.wave_next _ _ _).trans here
  · exact search
  · exact congrArg₂ (· ++ ·) h.events events
  · exact List.rel_append h.tried attempts
  · exact List.rel_append h.found reply.improvement?

theorem perform (h : history.Alike wave other) (operation : Operation) :
    (history.perform operation).Alike wave (other.perform operation) := by
  cases operation with
  | next patience => exact h.next patience
  | setLimit limit =>
      exact ⟨h.wave_eq, { h.search with limit := rfl }, h.signals, h.attached, h.events, h.tried,
        h.found⟩
  | attach signal =>
      refine ⟨?_, ?_, ?_, ?_, ?_, h.tried, h.found⟩
      all_goals simp only [History.perform, History.search, Session.search_attach,
        Session.events_attach, Session.signals_attach, Session.attached_attach]
      · exact h.wave_eq
      · exact h.search
      · rw [h.signals]
      · rw [h.signals]
      · exact h.events
  | stop signal =>
      exact ⟨h.wave_eq, h.search, congrArg (List.set · signal true) h.signals, h.attached, h.events,
        h.tried, h.found⟩

theorem performAll (h : history.Alike wave other) (operations : List Operation) :
    (history.performAll operations).Alike wave (other.performAll operations) := by
  induction operations generalizing history other with
  | nil => exact h
  | cons operation rest ih => exact ih (h.perform operation)

end Alike

/-- Searches for one table that read one stream and are asked for the same cannot be told
    apart by what their seeds hold in fields that the wave does not use. -/
theorem alike_performAll {wave : Wave} {initial seed : Params}
    (h : Params.Agree wave initial seed) (table : Table) (stream : Nat → UInt32)
    (operations : List Operation) :
    render wave initial = render wave seed ∧
      ((start wave table initial stream).performAll operations).Alike wave
        ((start wave table seed stream).performAll operations) :=
  ⟨h.render_eq, (Alike.start h table stream).performAll operations⟩

/-- A fold searches the same whether its seed has no number and an infinity or two zeros
    in the fields that only other waves use. -/
theorem alike_performAll_nan :
    let nan := Float32.ofBits 0x7FC00000
    let infinity := Float32.ofBits 0x7F800000
    let initial : Params := ⟨0.9161022, 1.879311, nan, 0.02331964, infinity⟩
    let seed : Params := ⟨0.9161022, 1.879311, 0.0, 0.02331964, 0.0⟩
    let table := render .pulseTriangle .zero
    let operations : List Operation := [.next 3, .attach 1, .stop 0, .setLimit 9, .next 20, .stop 1]
    Params.Agree .pulseTriangle initial seed ∧
      render .pulseTriangle initial = render .pulseTriangle seed ∧
      ((start .pulseTriangle table initial UInt32.ofNat).performAll operations).Alike .pulseTriangle
        ((start .pulseTriangle table seed UInt32.ofNat).performAll operations) := by
  intro nan infinity initial seed table operations
  have agree : Params.Agree .pulseTriangle initial seed := by
    intro field used
    cases field with
    | bias | pulseStrength | distance => rfl
    | topBit | stMix => exact absurd (by decide) used
  exact ⟨agree, alike_performAll agree table UInt32.ofNat operations⟩

end History

end WaveBus
