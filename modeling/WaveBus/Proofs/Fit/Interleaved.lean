import WaveBus.Proofs.Fit.Moves
import WaveBus.Proofs.Fit.Pieces
import WaveBus.Proofs.Fit.Planned
import WaveBus.Proofs.Session.Gate
import WaveBus.Proofs.Session.Trajectory

/-! # Searches that take turns

If nothing is lost and the time is not up, searches of different waves do not touch each other: whatever their
turns are, each of them goes along its trajectory to its limit, and among the blocks of
the output those with its tag are what it finds on its own.
-/

namespace WaveBus

namespace Trajectory

variable {path : Trajectory}

theorem improvements_eq (path : Trajectory) (n : Nat) :
    path.improvements n = ((path.attempts n).filter Attempt.accepted).map Attempt.improvement := rfl

theorem improvements_succ (path : Trajectory) (n : Nat) :
    path.improvements (n + 1) = path.improvements n ++
      if (path.attempt n).accepted then [(path.attempt n).improvement] else [] := by
  rw [improvements_eq, attempts_succ, List.filter_append, List.map_append, ← improvements_eq]
  cases accepted : (path.attempt n).accepted <;> simp [accepted]

theorem improvements_isPrefix (path : Trajectory) {k n : Nat} (le : k ≤ n) :
    path.improvements k <+: path.improvements n := by
  induction le with
  | refl => exact List.prefix_refl _
  | step _ ih =>
      rw [Nat.succ_eq_add_one, improvements_succ]
      exact ih.trans (List.prefix_append ..)

/-- A search is on a trajectory, with all candidates it has counted behind it. -/
def Holds (path : Trajectory) (search : Search) : Prop :=
  path.Reaches search (path.attempts search.iterations)

theorem Holds.attempt {search : Search} (h : path.Holds search) : path.Holds search.attempt.2 := by
  have next := path.kept.attempt h
  have tried := next.tried
  rwa [tried] at next

theorem Holds.returns {session after : Session} {result : Option Improvement}
    (h : path.Holds session.search) (returned : session.Returns result after) :
    path.Holds after.search ∧
      path.improvements after.search.iterations =
        path.improvements session.search.iterations ++ result.toList := by
  obtain ⟨patience, reply, called, -, rfl⟩ := returned.exists_decided
  have next := path.kept.next session.isStopped patience h
  have found := Search.next_accepted session.isStopped patience session.search
  simp only [Session.next, Prod.mk.injEq] at called
  obtain ⟨rfl, rfl⟩ := called
  have tried := next.tried
  refine ⟨by rwa [tried] at next, ?_⟩
  rw [found, improvements_eq, improvements_eq, ← tried, List.filter_append, List.map_append]

theorem Holds.drains {session after : Session} {found : List Improvement}
    (h : path.Holds session.search) (drained : session.Drains found after) :
    path.Holds after.search ∧
      path.improvements after.search.iterations =
        path.improvements session.search.iterations ++ found := by
  induction drained with
  | halted last => exact h.returns last
  | improved first _ ih =>
      obtain ⟨between, grown⟩ := h.returns first
      obtain ⟨after, rest⟩ := ih between
      exact ⟨after, by simp [rest, grown]⟩

end Trajectory

namespace Search

variable {search : Search} {n : Nat}

/-- Where a search goes from where it stands. -/
def path (search : Search) : Trajectory :=
  ⟨search.wave, search.table, search.best.params, search.generator.stream⟩

/-- A search that has not begun, and that will try `n` candidates. -/
structure Fresh (n : Nat) (search : Search) : Prop where
  untried : search.iterations = 0
  unread : search.generator.position = 0
  scored : search.best.score = score search.wave search.best.params search.table
  limit : search.limit = some n

theorem Fresh.holds (h : search.Fresh n) : search.path.Holds search where
  wave := rfl
  table := rfl
  best := by
    rw [h.untried, Trajectory.best]
    exact congrArg (Standing.mk search.best.params) h.scored
  generator := by
    rw [h.untried, Nat.mul_zero, ← h.unread]
    rfl
  tried := rfl

/-- What a search yields if nothing else is there: all that its trajectory accepts. -/
theorem Fresh.drains {after : Session} {found : List Improvement} (h : search.Fresh n)
    (drained : (Session.start search).Drains found after) :
    found = search.path.improvements n ∧ after.search.iterations = n ∧
      after.search.best = search.path.best n := by
  have counted : after.search.iterations = n := by
    have reached := drained.iterations h.limit rfl
    have untried : (Session.start search).search.iterations = 0 := h.untried
    simpa [untried] using reached
  have started : search.path.Holds (Session.start search).search := h.holds
  obtain ⟨holds, all⟩ := started.drains drained
  have none : search.path.improvements (Session.start search).search.iterations = [] := by
    have untried : (Session.start search).search.iterations = 0 := h.untried
    rw [untried]
    rfl
  refine ⟨?_, counted, ?_⟩
  · rw [← counted, all, none, List.nil_append]
  · rw [holds.best, counted]

end Search

namespace Runner

variable {first : Search} {runner : Runner} {n : Nat}

/-- What a search has written that began as `first`. An improvement that is about to be
    written is the last of those it has found. -/
def told (first : Search) (runner : Runner) : List Block :=
  let found := first.path.improvements runner.search.iterations
  match runner.phase with
  | .announcing => []
  | .writing _ => first.blocks found.dropLast
  | _ => first.blocks found

/-- A search that nothing has held up since it began as `first`. -/
structure OnCourse (first : Search) (n : Nat) (runner : Runner) : Prop where
  holds : first.path.Holds runner.search
  opening : runner.search.initialScore = first.initialScore
  bounded : runner.Bounded n false
  untried : runner.phase = .announcing → runner.search.iterations = 0
  pending : ∀ improvement, runner.phase = .writing improvement →
    (first.path.improvements runner.search.iterations).getLast? = some improvement
  spent : runner.phase = .over → runner.search.iterations = n

theorem movesLeft_start (n : Nat) (first : Search) :
    movesLeft n ⟨first, .announcing⟩ ≤ 3 * n + 2 := by
  simp only [movesLeft]
  omega

theorem OnCourse.start (h : first.Fresh n) : OnCourse first n ⟨first, .announcing⟩ where
  holds := h.holds
  opening := rfl
  bounded := ⟨.inr h.limit, by simp [reach, h.untried]⟩
  untried _ := h.untried
  pending := nofun
  spent := nofun

/-- Between two blocks a search is on its course if it is where its trajectory is. -/
theorem OnCourse.between (holds : first.path.Holds runner.search)
    (opening : runner.search.initialScore = first.initialScore) (bounded : runner.Bounded n false)
    (busy : runner.phase = .checking ∨ runner.phase = .trying) : OnCourse first n runner where
  holds := holds
  opening := opening
  bounded := bounded
  untried phase := by simp [phase] at busy
  pending _ phase := by simp [phase] at busy
  spent phase := by simp [phase] at busy

theorem OnCourse.found {improvement : Improvement} (holds : first.path.Holds runner.search)
    (opening : runner.search.initialScore = first.initialScore) (bounded : runner.Bounded n false)
    (phase : runner.phase = .writing improvement)
    (last : (first.path.improvements runner.search.iterations).getLast? = some improvement) :
    OnCourse first n runner where
  holds := holds
  opening := opening
  bounded := bounded
  untried other := by simp [phase] at other
  pending other same := by
    rw [phase, Phase.writing.injEq] at same
    rw [last, same]
  spent other := by simp [phase] at other

theorem OnCourse.ended (holds : first.path.Holds runner.search)
    (opening : runner.search.initialScore = first.initialScore) (bounded : runner.Bounded n false)
    (phase : runner.phase = .over) (spent : runner.search.iterations = n) :
    OnCourse first n runner where
  holds := holds
  opening := opening
  bounded := bounded
  untried other := by simp [phase] at other
  pending _ other := by simp [phase] at other
  spent _ := spent

/-- One move keeps a search on its course, and what it writes is what comes next. -/
theorem OnCourse.move (h : OnCourse first n runner) :
    OnCourse first n (runner.move false true).runner ∧
      (runner.move false true).raises = false ∧
      (runner.move false true).runner.told first = runner.told first ++ runner.pending?.toList := by
  have calm : (runner.move false true).raises = false := by
    rw [raises_move, Bool.not_true, Bool.and_false]
  have bounded := (h.bounded.move true).1
  rw [calm] at bounded
  obtain ⟨search, phase⟩ := runner
  cases phase with
  | announcing =>
      have untried : search.iterations = 0 := h.untried rfl
      have opening : search.initialScore = first.initialScore := h.opening
      refine ⟨.between h.holds h.opening bounded (.inl rfl), calm, ?_⟩
      show first.blocks (first.path.improvements search.iterations) =
        [] ++ [.opening search.initialScore]
      rw [untried, opening]
      rfl
  | writing improvement =>
      refine ⟨.between h.holds h.opening bounded (.inl rfl), calm, ?_⟩
      have last := List.dropLast_append_getLast? _ (h.pending improvement rfl)
      show first.blocks (first.path.improvements search.iterations) =
        first.blocks (first.path.improvements search.iterations).dropLast ++ [.improved improvement]
      nth_rewrite 1 [← last]
      simp [Search.blocks]
  | checking =>
      cases spent : search.isSpent with
      | true =>
          have moved : (Runner.mk search .checking).move false true =
              ⟨⟨search, .over⟩, [endEvent search], false⟩ := by
            simp [Runner.move, spent]
          have limit : search.limit = some n := by simpa using h.bounded.gate
          have all : n ≤ search.iterations := by simpa [Search.isSpent, limit] using spent
          rw [moved] at bounded ⊢
          exact ⟨.ended h.holds h.opening bounded rfl (Nat.le_antisymm h.bounded.reach_le all), rfl,
            by simp [told, pending?]⟩
      | false =>
          have moved : (Runner.mk search .checking).move false true =
              ⟨⟨search, .trying⟩, [], false⟩ := by
            simp [Runner.move, spent]
          rw [moved] at bounded ⊢
          exact ⟨.between h.holds h.opening bounded (.inr rfl), rfl, by simp [told, pending?]⟩
  | trying =>
      have onward : first.path.Holds search.attempt.2 := h.holds.attempt
      have same : search.attempt.1 = first.path.attempt search.iterations :=
        Trajectory.attempt_of_reaches h.holds
      have grown := first.path.improvements_succ search.iterations
      rw [← same] at grown
      cases accepted : search.attempt.1.accepted with
      | true =>
          have moved : (Runner.mk search .trying).move false true =
              ⟨⟨search.attempt.2, .writing search.attempt.1.improvement⟩,
                [search.attempt.1.event search.attempt.2.wave], false⟩ := by
            simp [Runner.move, accepted]
          rw [moved] at bounded ⊢
          refine ⟨.found onward h.opening bounded rfl ?_, rfl, ?_⟩
          · simp [grown, accepted]
          · simp [told, pending?, grown, accepted]
      | false =>
          have moved : (Runner.mk search .trying).move false true =
              ⟨⟨search.attempt.2, .checking⟩,
                [search.attempt.1.event search.attempt.2.wave], false⟩ := by
            simp [Runner.move, accepted]
          rw [moved] at bounded ⊢
          exact ⟨.between onward h.opening bounded (.inl rfl), rfl,
            by simp [told, pending?, grown, accepted]⟩
  | _ => exact ⟨h, rfl, by simp [told, pending?, Runner.move]⟩

theorem OnCourse.told_isPrefix (h : OnCourse first n runner) :
    runner.told first <+: first.blocks (first.path.improvements n) := by
  have le : runner.search.iterations ≤ n := by
    refine Nat.le_trans ?_ h.bounded.reach_le
    unfold reach
    split <;> simp
  have found : ∀ {found}, found <+: first.path.improvements runner.search.iterations →
      first.blocks found <+: first.blocks (first.path.improvements n) := by
    intro found early
    have late := early.trans (first.path.improvements_isPrefix le)
    exact (List.prefix_cons_inj _).2 (late.map _)
  unfold told
  split
  · exact List.nil_prefix
  · exact found (List.dropLast_prefix _)
  · exact found (List.prefix_refl _)

theorem OnCourse.told_of_isOver (h : OnCourse first n runner) (ended : runner.isOver = true) :
    runner.search.iterations = n ∧
      runner.told first = first.blocks (first.path.improvements n) := by
  have final := isOver_iff.1 ended
  have spent := h.spent final
  refine ⟨spent, ?_⟩
  simp only [told, final, spent]

end Runner

namespace Fit

variable {searches : List Search} {n : Nat} {fit : Fit} {log : List Entry}

/-- How far a search has come that began as `first`, and what stands in the log of it. -/
structure Follows (first : Search) (n : Nat) (log : List Entry) (runner : Runner) : Prop where
  onCourse : runner.OnCourse first n
  told : (log.filter (·.wave = first.wave)).map Entry.block = runner.told first

/-- A fit of several searches of which nothing has been lost, with the log of its blocks. -/
structure Apart (searches : List Search) (n : Nat) (fit : Fit) (log : List Entry) : Prop where
  running : fit.stopped = false
  tagged : fit.tagged = true
  length : fit.runners.length = searches.length
  blocks : fit.blocks = log.map Entry.text
  marked : ∀ entry ∈ log, entry.tagged = true ∧ ∃ first ∈ searches, entry.wave = first.wave
  follows : ∀ (i : Nat) (first : Search) (runner : Runner), searches[i]? = some first →
    fit.runners[i]? = some runner → Follows first n log runner

theorem apart_start (several : 1 < searches.length) (fresh : ∀ first ∈ searches, first.Fresh n) :
    Apart searches n (start searches) [] where
  running := rfl
  tagged := by simpa [tagged, start] using several
  length := by simp [start]
  blocks := rfl
  marked := nofun
  follows i first runner listed there := by
    obtain rfl : ⟨first, .announcing⟩ = runner := by simpa [start, listed] using there
    exact ⟨.start (fresh first (List.mem_of_getElem? listed)), rfl⟩

theorem filter_wave_self {wave : Wave} (blocks : List Block) :
    (blocks.map (Entry.mk true wave)).filter (·.wave = wave) = blocks.map (Entry.mk true wave) := by
  simp [List.filter_eq_self]

theorem filter_wave_of_ne {wave other : Wave} (ne : other ≠ wave) (blocks : List Block) :
    (blocks.map (Entry.mk true other)).filter (·.wave = wave) = [] := by
  simp [List.filter_eq_nil_iff, ne]

theorem Apart.move (h : Apart searches n fit log) (distinct : (searches.map Search.wave).Nodup)
    (i : Nat) : ∃ log, Apart searches n (fit.move i true) log := by
  cases there : fit.runners[i]? with
  | none =>
      rw [move_of_none there]
      exact ⟨log, h⟩
  | some runner =>
      have within : i < searches.length := by
        rw [← h.length]
        exact (List.getElem?_eq_some_iff.1 there).1
      obtain ⟨first, listed⟩ : ∃ first, searches[i]? = some first :=
        ⟨_, List.getElem?_eq_getElem within⟩
      obtain ⟨onCourse, told⟩ := h.follows i first runner listed there
      obtain ⟨onward, calm, more⟩ := onCourse.move
      rw [← h.running] at onward calm more
      have wave : runner.search.wave = first.wave := onCourse.holds.wave
      refine ⟨log ++ runner.pending?.toList.map (Entry.mk true first.wave), ?_, ?_, ?_, ?_, ?_, ?_⟩
      · rw [stopped_move there, calm, Bool.or_self, h.running]
      · have tagged := h.tagged
        simpa [Fit.tagged] using tagged
      · simp [h.length]
      · rw [blocks_move_eq there, h.blocks, h.tagged, wave, if_pos rfl, List.map_append]
      · intro entry inside
        rcases List.mem_append.1 inside with inside | inside
        · exact h.marked entry inside
        · obtain ⟨block, -, rfl⟩ := List.mem_map.1 inside
          exact ⟨rfl, first, List.mem_of_getElem? listed, rfl⟩
      · intro j other later listed' there'
        by_cases same : i = j
        · subst same
          obtain rfl := Option.some.inj (listed.symm.trans listed')
          obtain rfl := Option.some.inj ((runner_move_self there).symm.trans there')
          refine ⟨onward, ?_⟩
          rw [List.filter_append, filter_wave_self, List.map_append, told, more]
          simp [Function.comp_def]
        · rw [runner_move_of_ne same] at there'
          obtain ⟨onCourse', told'⟩ := h.follows j other later listed' there'
          have ne : first.wave ≠ other.wave := by
            intro equal
            refine same ((List.getElem?_inj (by simpa using within) distinct).1 ?_)
            simp [listed, listed', equal]
          refine ⟨onCourse', ?_⟩
          rw [List.filter_append, filter_wave_of_ne ne, List.append_nil, told']

theorem apart_follow (several : 1 < searches.length) (fresh : ∀ first ∈ searches, first.Fresh n)
    (distinct : (searches.map Search.wave).Nodup) (schedule : List Nat) :
    ∃ log, Apart searches n ((start searches).follow (fun _ => true) (schedule.map .move)) log := by
  refine follow_moves_induction (P := fun fit => ∃ log, Apart searches n fit log)
    (fun fit i h => ?_) schedule ⟨[], apart_start several fresh⟩
  obtain ⟨_, apart⟩ := h
  exact apart.move distinct i

theorem Apart.output_eq (h : Apart searches n fit log) : fit.output = transcript log := by
  rw [output, h.blocks]
  rfl

/-- Cutting the output gives back what was written. -/
theorem Apart.pieces (h : Apart searches n fit log) :
    (pieces fit.output).map pieceText = fit.blocks := by
  rw [h.output_eq, h.blocks]
  exact Entry.map_pieceText_transcript fun entry inside => (h.marked entry inside).1

theorem Apart.hasTag {piece : List (List Char)} (h : Apart searches n fit log)
    (inside : piece ∈ Fit.pieces fit.output) :
    ∃ first ∈ searches, Fit.hasTag first.wave piece = true := by
  have tagged : ∀ entry ∈ log, entry.tagged = true := fun entry inside => (h.marked entry inside).1
  rw [h.output_eq, Entry.pieces_transcript tagged] at inside
  obtain ⟨entry, logged, rfl⟩ := List.mem_map.1 inside
  obtain ⟨_, first, among, wave⟩ := h.marked entry logged
  exact ⟨first, among, by simp [Entry.hasTag_rows _ (tagged entry logged), wave]⟩

theorem Apart.blocksOf (h : Apart searches n fit log) (wave : Wave) :
    blocksOf wave fit.output =
      ((log.filter (·.wave = wave)).map Entry.block).map
        fun block => Entry.text ⟨true, wave, block⟩ := by
  rw [h.output_eq, Entry.blocksOf_transcript wave fun entry inside => (h.marked entry inside).1,
    List.map_map]
  refine List.map_congr_left fun entry inside => ?_
  obtain ⟨inside, wave⟩ := List.mem_filter.1 inside
  obtain ⟨tagged, -⟩ := h.marked entry inside
  obtain ⟨_, _, block⟩ := entry
  simp only [decide_eq_true_eq] at wave tagged
  rw [Function.comp_apply, tagged, wave]

end Fit

/-- A search for one wave with a seed and a limit of its own. -/
def Search.seeded (wave : Wave) (table : Table) (initial : Params) (seed : UInt64) (limit : Nat) :
    Search :=
  { Search.start wave table initial (.seeded seed) with limit := some limit }

/-- The blocks that a search writes under the tag of its wave. -/
def Search.tagged (search : Search) (found : List Improvement) : List String :=
  (search.blocks found).map fun block => Entry.text ⟨true, search.wave, block⟩

/-- How a search fares among others, next to what it yields alone. -/
structure Fares (alone : Search) (n : Nat) (runner : Runner) (output : String) : Prop where
  yields : ∃ found after, (Session.start alone).Drains found after
  early : ∀ found after, (Session.start alone).Drains found after →
    Fit.blocksOf alone.wave output <+: alone.tagged found
  whole : runner.isOver = true → ∀ found after, (Session.start alone).Drains found after →
    Fit.blocksOf alone.wave output = alone.tagged found ∧
      runner.search.iterations = n ∧ runner.search.best = after.search.best

theorem fares_of_follows {alone : Search} {n : Nat} {log : List Entry} {runner : Runner}
    {output : String} (fresh : alone.Fresh n) (h : Fit.Follows alone n log runner)
    (own : Fit.blocksOf alone.wave output =
      ((log.filter (·.wave = alone.wave)).map Entry.block).map
        fun block => Entry.text ⟨true, alone.wave, block⟩) :
    Fares alone n runner output := by
  obtain ⟨onCourse, told⟩ := h
  rw [told] at own
  refine ⟨Session.exists_drains fresh.limit rfl, ?_, ?_⟩
  · intro found after drained
    obtain ⟨rfl, -, -⟩ := fresh.drains drained
    rw [own]
    exact onCourse.told_isPrefix.map _
  · intro ended found after drained
    obtain ⟨rfl, -, best⟩ := fresh.drains drained
    obtain ⟨spent, all⟩ := onCourse.told_of_isOver ended
    refine ⟨by rw [own, all]; rfl, spent, ?_⟩
    rw [onCourse.holds.best, spent, best]

/-- Searches for several waves that do not disturb each other, whatever their turns. -/
structure Undisturbed (read : ReadFile) (options : FitOptions) (base : UInt64) (n : Nat)
    (schedule : List Nat) (fit : Fit) (outcome : Outcome) : Prop where
  exit : outcome.exit = 0
  running : fit.stopped = false
  /-- The output, cut before every tag, is the blocks that were written. -/
  cut : (Fit.pieces outcome.output).map Fit.pieceText = fit.blocks
  tags : ∀ piece ∈ Fit.pieces outcome.output, ∃ wave ∈ options.waves, Fit.hasTag wave piece = true
  fares : ∀ i wave, options.waves[i]? = some wave →
    ∃ table params runner, options.Loads read wave (.ok table) ∧
      options.Seeds read wave (.ok params) ∧ fit.runners[i]? = some runner ∧
      (3 * n + 2 ≤ schedule.count i → runner.isOver = true) ∧
      Fares (.seeded wave table params (base + UInt64.ofNat wave.code) n) n runner outcome.output

theorem fresh_search {options : FitOptions} {n : Nat} (limited : options.iterations? = some n)
    (key : ChaCha.Key) (job : Job) : (options.search key job).Fresh n where
  untried := rfl
  unread := by
    rw [FitOptions.search, FitOptions.generator]
    cases options.seed? <;> rfl
  scored := by simp only [FitOptions.search, Search.start]
  limit := limited

theorem searches_undisturbed {world : World} {options : FitOptions} {base : UInt64} {n : Nat}
    (several : 2 ≤ options.waves.length) (distinct : options.waves.Nodup)
    (seeded : options.seed? = some base) (limited : options.iterations? = some n)
    (untimed : options.seconds? = none) (unnamed : options.paramsPath? = none)
    (loadable : ∀ wave ∈ options.waves, ∃ table,
      options.Loads world.files.read wave (.ok table)) :
    ∃ searches, options.Accepted world.files.read world.entropy searches ∧
      ∀ schedule, Undisturbed world.files.read options base n schedule
        ((Fit.start searches).follow (fun _ => true) (schedule.map .move))
        ((Command.fit options).runBy (·.follow (fun _ => true) (schedule.map .move)) world) := by
  have sound := FitOptions.not_defective_of_loaded unnamed untimed loadable
  obtain ⟨searches, accepted⟩ :=
    (options.accepted_or_refused world.files.read world.entropy).resolve_right
      fun ⟨_, refused⟩ => sound refused.defective
  have fresh : ∀ first ∈ searches, first.Fresh n := by
    intro first inside
    obtain ⟨key, job, rfl⟩ := accepted.exists_of_mem inside
    exact fresh_search limited key job
  have waves := accepted.map_wave
  have count : searches.length = options.waves.length := by simp [← waves]
  refine ⟨searches, accepted, fun schedule => ?_⟩
  obtain ⟨log, apart⟩ := Fit.apart_follow (by omega) fresh (by rwa [waves]) schedule
  obtain ⟨_, -, ran⟩ := runBy_fit_of_accepted
    (·.follow (fun _ => true) (schedule.map .move)) accepted
  rw [ran]
  refine ⟨rfl, apart.running, apart.pieces, fun piece inside => ?_, fun i wave listed => ?_⟩
  · obtain ⟨first, among, marked⟩ := apart.hasTag inside
    exact ⟨first.wave, waves ▸ List.mem_map_of_mem among, marked⟩
  · obtain ⟨table, params, loaded, seeds, there⟩ := accepted.search_at listed
    have alone : options.search (world.entropy i) ⟨wave, table, params⟩ =
        .seeded wave table params (base + UInt64.ofNat wave.code) n := by
      rw [FitOptions.search, FitOptions.generator, seeded, limited]
      rfl
    rw [alone] at there
    refine ⟨table, params, ?_⟩
    generalize Search.seeded wave table params (base + UInt64.ofNat wave.code) n = first at there ⊢
    have ready := fresh first (List.mem_of_getElem? there)
    have begun : (Fit.start searches).runners[i]? = some ⟨first, .announcing⟩ := by
      simp [Fit.start, there]
    obtain ⟨runner, found, -, left⟩ := Fit.bounded_follow (fun _ => true) (schedule.map .move) begun
      (Runner.OnCourse.start ready).bounded
    rw [List.count_map_of_injective schedule _ fun _ _ => Fit.Step.move.inj] at left
    refine ⟨runner, loaded, seeds, found, fun often => ?_, ?_⟩
    · have most := Runner.movesLeft_start n first
      have none : runner.movesLeft n = 0 := by omega
      exact Runner.movesLeft_eq_zero_iff.1 none
    · have follows := apart.follows i first runner there found
      exact fares_of_follows ready follows (apart.blocksOf first.wave)

theorem searches_undisturbed_pair :
    let world : World := { files := .captures fun wave => render wave .zero }
    let options := FitOptions.pair
    2 ≤ options.waves.length ∧ options.waves.Nodup ∧ options.seed? = some 1 ∧
      options.iterations? = some 4 ∧ options.seconds? = none ∧ options.paramsPath? = none ∧
      (∀ wave ∈ options.waves, ∃ table, options.Loads world.files.read wave (.ok table)) ∧
      ∃ searches, options.Accepted world.files.read world.entropy searches ∧
        ∀ schedule, Undisturbed world.files.read options 1 4 schedule
          ((Fit.start searches).follow (fun _ => true) (schedule.map .move))
          ((Command.fit options).runBy (·.follow (fun _ => true) (schedule.map .move)) world) := by
  intro world options
  have several : 2 ≤ options.waves.length := by decide
  have distinct : options.waves.Nodup := by decide
  have loadable : ∀ wave ∈ options.waves, ∃ table,
      options.Loads world.files.read wave (.ok table) :=
    fun wave _ => ⟨_, loads_captures _ wave⟩
  exact ⟨several, distinct, rfl, rfl, rfl, rfl, loadable,
    searches_undisturbed several distinct rfl rfl rfl rfl loadable⟩

end WaveBus
