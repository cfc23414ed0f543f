import WaveBus.Proofs.Params.Walk
import WaveBus.Proofs.Session.History

/-! # The best of a search

The best score is never stale: it is the score of the best parameters and the least
of all scores so far. A candidate is accepted just when no score before it is lower,
so of two candidates with the same score the later one stays.
-/

namespace WaveBus

theorem Params.stMix_perturb_le_one (params : Params) (g : Generator) :
    (params.perturb g).1.stMix ≤ 1.0 :=
  capped_le_one _

/-- Trial number `k + 1` of the search for `initial`, with what had been tried before it. -/
structure Attempt.Sound (wave : Wave) (table : Table) (initial : Params)
    (earlier : List Attempt) (trial : Attempt) : Prop where
  iteration : trial.iteration = earlier.length + 1
  score : trial.score = WaveBus.score wave trial.candidate table
  before : (WaveBus.score wave initial table :: earlier.map Attempt.score).min? = some trial.before
  stMix : trial.candidate.stMix ≤ 1.0

theorem Attempt.Sound.accepted_iff_forall {wave : Wave} {table : Table} {initial : Params}
    {earlier : List Attempt} {trial : Attempt} (h : trial.Sound wave table initial earlier) :
    trial.accepted = true ↔
      trial.score ≤ WaveBus.score wave initial table ∧
        ∀ other ∈ earlier, trial.score ≤ other.score := by
  rw [Attempt.accepted_iff, List.le_min?_iff h.before]
  simp only [List.mem_cons, List.mem_map, forall_eq_or_imp, forall_exists_index, and_imp,
    forall_apply_eq_imp_iff₂]

/-- The improvements among some trials. -/
def Attempt.improvements (tried : List Attempt) : List Improvement :=
  (tried.filter accepted).map improvement

/-- The search for `initial` has the best of its trials. -/
structure Search.Accounts (wave : Wave) (table : Table) (initial : Params) (search : Search)
    (tried : List Attempt) : Prop where
  wave_eq : search.wave = wave
  table_eq : search.table = table
  initialScore : search.initialScore = score wave initial table
  count : tried.length = search.iterations
  bestScore : search.best.score = score wave search.best.params table
  least : (score wave initial table :: tried.map Attempt.score).min? = some search.best.score
  bestParams : search.best.params =
    ((Attempt.improvements tried).getLast?.map Improvement.params).getD initial
  sound : ∀ k (h : k < tried.length), tried[k].Sound wave table initial (tried.take k)

namespace Search.Accounts

variable {wave : Wave} {table : Table} {initial : Params} {search : Search} {tried : List Attempt}

theorem sound_attempt (h : search.Accounts wave table initial tried) :
    search.attempt.1.Sound wave table initial tried where
  iteration := congrArg (· + 1) h.count.symm
  score := by rw [search.score_attempt, h.wave_eq, h.table_eq]
  before := by rw [search.before_attempt, h.least]
  stMix := Params.stMix_perturb_le_one _ _

/-- The best after a trial is the lower of the best before it and its own score. -/
theorem score_best_attempt (search : Search) :
    search.attempt.2.best.score = min search.best.score search.attempt.1.score := by
  rw [search.best_attempt, ← search.before_attempt]
  split
  · next accepted =>
      rw [Attempt.accepted_iff] at accepted
      rw [Nat.min_eq_right accepted]
  · next rejected =>
      rw [Attempt.accepted_iff] at rejected
      rw [Nat.min_eq_left (Nat.le_of_not_le rejected), search.before_attempt]

theorem least_attempt (h : search.Accounts wave table initial tried) :
    (score wave initial table :: (tried ++ [search.attempt.1]).map Attempt.score).min? =
      some search.attempt.2.best.score := by
  have before := h.least
  rw [List.min?_cons', Option.some_inj] at before ⊢
  rw [List.map_append, List.foldl_append, before, score_best_attempt, List.map_singleton,
    List.foldl_cons, List.foldl_nil]

theorem bestParams_attempt (h : search.Accounts wave table initial tried) :
    search.attempt.2.best.params =
      ((Attempt.improvements (tried ++ [search.attempt.1])).getLast?.map
        Improvement.params).getD initial := by
  rw [search.best_attempt, Attempt.improvements, List.filter_append, List.map_append]
  split
  · next accepted =>
      rw [List.filter_cons_of_pos accepted, List.filter_nil, List.map_singleton,
        List.getLast?_concat, Option.map_some, Option.getD_some, Attempt.improvement]
  · next rejected =>
      rw [List.filter_cons_of_neg rejected, List.filter_nil, List.map_nil, List.append_nil]
      exact h.bestParams

theorem sound_append (h : search.Accounts wave table initial tried) (k : Nat)
    (inside : k < (tried ++ [search.attempt.1]).length) :
    (tried ++ [search.attempt.1])[k].Sound wave table initial
      ((tried ++ [search.attempt.1]).take k) := by
  rw [List.length_append, List.length_singleton] at inside
  rcases Nat.lt_succ_iff_lt_or_eq.1 inside with earlier | rfl
  · rw [List.getElem_append_left earlier, List.take_append_of_le_length (Nat.le_of_lt earlier)]
    exact h.sound k earlier
  · rw [List.getElem_concat_length rfl, List.take_left]
    exact h.sound_attempt

/-- A trial keeps the account, whether it is accepted or not. -/
theorem kept (wave : Wave) (table : Table) (initial : Params) :
    History.Kept (Search.Accounts wave table initial) where
  attempt := by
    intro search tried h
    refine ⟨h.wave_eq, h.table_eq, h.initialScore, ?_, ?_, h.least_attempt, h.bestParams_attempt,
      h.sound_append⟩
    · rw [List.length_append, h.count, List.length_singleton, Search.iterations_attempt]
    · rw [search.best_attempt]
      split
      · simpa only using h.sound_attempt.score
      · exact h.bestScore
  limit := fun _ h => ⟨h.wave_eq, h.table_eq, h.initialScore, h.count, h.bestScore, h.least,
    h.bestParams, h.sound⟩

theorem start (wave : Wave) (table : Table) (initial : Params) (stream : Nat → UInt32) :
    (History.start wave table initial stream).search.Accounts wave table initial [] := by
  refine ⟨rfl, rfl, ?_, rfl, ?_, ?_, rfl, fun _ inside => absurd inside (Nat.not_lt_zero _)⟩
  all_goals simp only [History.start, History.search, Session.start, Search.start]
  rw [List.map_nil, List.min?_singleton]

theorem iteration_getElem (h : search.Accounts wave table initial tried) (k : Nat)
    (inside : k < tried.length) : tried[k].iteration = k + 1 := by
  rw [(h.sound k inside).iteration, List.length_take_of_le (Nat.le_of_lt inside)]

/-- Trial `k` is accepted just when no score before it is lower. -/
theorem accepted_getElem_iff (h : search.Accounts wave table initial tried) (k : Nat)
    (inside : k < tried.length) :
    tried[k].accepted = true ↔
      tried[k].score ≤ search.initialScore ∧
        ∀ j (_ : j < k), tried[k].score ≤ tried[j].score := by
  rw [(h.sound k inside).accepted_iff_forall, h.initialScore]
  refine and_congr_right fun _ => ?_
  constructor
  · intro least j before
    exact least _ (List.mem_take_iff_getElem.2 ⟨j, by omega, rfl⟩)
  · intro least other member
    obtain ⟨j, before, rfl⟩ := List.mem_take_iff_getElem.1 member
    exact least j (by omega)

/-- An improvement tells which trial it was. -/
theorem improvement_mem_iff (h : search.Accounts wave table initial tried) (k : Nat)
    (inside : k < tried.length) :
    tried[k].improvement ∈ Attempt.improvements tried ↔ tried[k].accepted = true := by
  constructor
  · intro member
    obtain ⟨trial, kept, same⟩ := List.mem_map.1 member
    obtain ⟨tried_mem, accepted⟩ := List.mem_filter.1 kept
    obtain ⟨j, hj, rfl⟩ := List.getElem_of_mem tried_mem
    have iterations : tried[j].iteration = tried[k].iteration :=
      congrArg Improvement.iteration same
    rw [h.iteration_getElem j hj, h.iteration_getElem k inside] at iterations
    obtain rfl : j = k := by omega
    exact accepted
  · intro accepted
    exact List.mem_map_of_mem (List.mem_filter.2 ⟨List.getElem_mem inside, accepted⟩)

theorem iterations_increase (h : search.Accounts wave table initial tried) :
    (Attempt.improvements tried).Pairwise fun a b => a.iteration < b.iteration := by
  rw [Attempt.improvements, List.pairwise_map]
  refine List.Pairwise.sublist List.filter_sublist (List.pairwise_iff_getElem.2 ?_)
  intro i j hi hj before
  simp only [Attempt.improvement, h.iteration_getElem i hi, h.iteration_getElem j hj]
  omega

theorem scores_fall (h : search.Accounts wave table initial tried) :
    (Attempt.improvements tried).Pairwise fun a b => a.score ≥ b.score := by
  rw [Attempt.improvements, List.pairwise_map, List.pairwise_filter, List.pairwise_iff_getElem]
  intro i j hi hj before _ accepted
  exact ((h.accepted_getElem_iff j hj).1 accepted).2 i before

theorem stMix_le_one (h : search.Accounts wave table initial tried) :
    ∀ improvement ∈ Attempt.improvements tried, improvement.params.stMix ≤ 1.0 := by
  intro improvement member
  obtain ⟨trial, kept, rfl⟩ := List.mem_map.1 member
  obtain ⟨k, inside, rfl⟩ := List.getElem_of_mem (List.mem_filter.1 kept).1
  exact (h.sound k inside).stMix

end Search.Accounts

namespace History

/-- What holds of the search for `initial` whatever has been done to its session. -/
structure Consistent (wave : Wave) (table : Table) (initial : Params) (history : History) :
    Prop where
  initialScore : history.search.initialScore = score wave initial table
  bestScore : history.search.best.score = score wave history.search.best.params table
  /-- No score so far is below the best one, and it is one of them. -/
  least : (history.search.initialScore :: history.tried.map Attempt.score).min? =
    some history.search.best.score
  count : history.tried.length = history.search.iterations
  numbered : ∀ k (h : k < history.tried.length), history.tried[k].iteration = k + 1
  scored : ∀ trial ∈ history.tried, trial.score = score wave trial.candidate table
  /-- Nothing is returned that has not been tried, and nothing twice or out of order. -/
  fromTrials : history.found.Sublist (history.tried.map Attempt.improvement)
  accepted : ∀ k (h : k < history.tried.length),
    history.tried[k].improvement ∈ history.found ↔
      history.tried[k].score ≤ history.search.initialScore ∧
        ∀ j (_ : j < k), history.tried[k].score ≤ history.tried[j].score
  bestParams : history.search.best.params =
    (history.found.getLast?.map Improvement.params).getD initial
  iterationsIncrease : history.found.Pairwise fun a b => a.iteration < b.iteration
  scoresFall : history.found.Pairwise fun a b => a.score ≥ b.score
  stMix : ∀ improvement ∈ history.found,
    improvement.params.stMix.isNaN = false ∧ improvement.params.stMix ≤ 1.0

theorem consistent_performAll (wave : Wave) (table : Table) (initial : Params)
    (stream : Nat → UInt32) (operations : List Operation) :
    Consistent wave table initial
      ((start wave table initial stream).performAll operations) := by
  have h := (Search.Accounts.kept wave table initial).performAll operations
    (Search.Accounts.start wave table initial stream)
  have returned : ((start wave table initial stream).performAll operations).found =
      Attempt.improvements ((start wave table initial stream).performAll operations).tried :=
    found_performAll operations rfl
  generalize (start wave table initial stream).performAll operations = history at h returned
  refine
    { initialScore := h.initialScore
      bestScore := h.bestScore
      least := h.initialScore ▸ h.least
      count := h.count
      numbered := h.iteration_getElem
      scored := ?_
      fromTrials := ?_
      accepted := ?_
      bestParams := returned ▸ h.bestParams
      iterationsIncrease := returned ▸ h.iterations_increase
      scoresFall := returned ▸ h.scores_fall
      stMix := ?_ }
  · intro trial member
    obtain ⟨k, inside, rfl⟩ := List.getElem_of_mem member
    exact (h.sound k inside).score
  · rw [returned]
    exact List.filter_sublist.map _
  · intro k inside
    rw [returned, h.improvement_mem_iff k inside, h.accepted_getElem_iff k inside]
  · intro improvement member
    rw [returned] at member
    have below := h.stMix_le_one improvement member
    exact ⟨Single.isNaN_eq_false_of_le below, below⟩

end History

end WaveBus
