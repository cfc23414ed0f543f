import WaveBus.Proofs.Fit.Moves
import WaveBus.Proofs.Fit.Planned

/-! # Fits whose output is lost

The first write that fails raises the signal, as the end of the time does, and nothing
takes it back. A search that has passed its check by then tries the candidate it has been
let through for, and no other; a search that has not tries none. So all of them end, and
the fit succeeds.
-/

namespace WaveBus

namespace Runner

variable {runner before : Runner}

/-- How a search looks that has moved under a raised signal. It has tried no candidate
    but one for which it had already been let through. -/
inductive Halts (before : Runner) : Runner → Prop
  | idle {phase : Phase} (h : phase = .trying → before.phase = .trying) :
      Halts before ⟨before.search, phase⟩
  | tried {phase : Phase} (passed : before.phase = .trying) (done : phase ≠ .trying) :
      Halts before ⟨before.search.attempt.2, phase⟩

theorem Halts.move (h : before.Halts runner) (written : Bool) :
    before.Halts (runner.move true written).runner := by
  cases h with
  | @idle phase h =>
      cases phase with
      | announcing | writing => cases written <;> exact .idle nofun
      | trying =>
          refine .tried (h rfl) ?_
          simp only [ne_eq]
          split <;> nofun
      | _ => exact .idle nofun
  | @tried phase passed done =>
      cases phase with
      | announcing | writing => cases written <;> exact .tried passed nofun
      | trying => exact absurd rfl done
      | _ => exact .tried passed nofun

theorem Halts.iterations_le (h : before.Halts runner) :
    runner.search.iterations ≤ before.reach := by
  cases h with
  | idle =>
      unfold reach
      split <;> simp
  | tried passed => simp [reach, passed]

/-- A search is bounded by the candidates that it has been let through for. -/
theorem bounded_reach (runner : Runner) : runner.Bounded runner.reach true :=
  ⟨.inl rfl, Nat.le_refl _⟩

theorem movesLeft_reach_le (runner : Runner) : runner.movesLeft runner.reach ≤ 3 := by
  unfold movesLeft
  split <;> simp

end Runner

namespace Fit

variable {fit : Fit} {accepts : Nat → Bool}

/-- The signal is raised exactly if the time was up or a write has failed. -/
def Raised (accepts : Nat → Bool) (schedule : List Step) (fit : Fit) : Prop :=
  fit.stopped = true ↔ .expire ∈ schedule ∨ ∃ write < fit.writes, accepts write = false

theorem Raised.move {schedule : List Step} (h : Raised accepts schedule fit) (i : Nat) :
    Raised accepts (schedule ++ [.move i]) (fit.move i (accepts fit.writes)) := by
  have same : .expire ∈ schedule ++ [Step.move i] ↔ .expire ∈ schedule := by simp
  unfold Raised at *
  rw [same]
  cases there : fit.runners[i]? with
  | none => rwa [move_of_none there]
  | some runner =>
      rw [stopped_move there, writes_move there, Runner.raises_move, block?_of_some there]
      cases runner.block? with
      | none => simpa using h
      | some block =>
          have more := @Nat.exists_lt_succ_right fit.writes fun write => accepts write = false
          simp only [Option.isSome_some, Bool.true_and, Bool.or_eq_true, Bool.not_eq_true', h]
          rw [or_assoc]
          exact or_congr_right more.symm

theorem raised_follow (accepts : Nat → Bool) (searches : List Search) (schedule : List Step) :
    Raised accepts schedule ((start searches).follow accepts schedule) := by
  induction schedule using List.reverseRecOn with
  | nil => simp [Raised, follow, start]
  | append_singleton schedule next ih =>
      rw [follow_append]
      cases next with
      | move i => exact ih.move i
      | expire => exact iff_of_true rfl (.inl (by simp))

theorem halts_follow {i : Nat} {runner : Runner} (accepts : Nat → Bool)
    (stopped : fit.stopped = true) (more : List Step)
    (there : fit.runners[i]? = some runner) :
    ∃ later, (fit.follow accepts more).runners[i]? = some later ∧ runner.Halts later ∧
      (3 ≤ more.count (.move i) → later.isOver = true) := by
  have own : ∀ (moves : Nat) stopped write later, stopped = true ∧ runner.Halts later →
      (stopped || (Runner.move later stopped (accepts write)).raises) = true ∧
        runner.Halts (later.move stopped (accepts write)).runner := by
    rintro _ _ write later ⟨rfl, h⟩
    exact ⟨rfl, h.move (accepts write)⟩
  obtain ⟨later, found, -, halts⟩ := runner_follow
    (P := fun _ stopped later => stopped = true ∧ runner.Halts later)
    (fun _ _ h => nomatch h.1) own more there ⟨stopped, .idle id⟩
  obtain ⟨_, found', -, fewer⟩ := bounded_follow accepts more there (stopped ▸ runner.bounded_reach)
  obtain rfl := Option.some.inj (found.symm.trans found')
  refine ⟨later, found, halts, fun often => ?_⟩
  have few := runner.movesLeft_reach_le
  have none : later.movesLeft runner.reach = 0 := by omega
  exact Runner.movesLeft_eq_zero_iff.1 none

/-- A search that cannot write anything tries nothing, and its first move is its last. -/
theorem silent_follow {i : Nat} {search : Search} (lost : ∀ write, accepts write = false)
    (schedule : List Step) (there : fit.runners[i]? = some ⟨search, .announcing⟩) :
    ∃ later, (fit.follow accepts schedule).runners[i]? = some later ∧ later.search = search ∧
      (.move i ∈ schedule → later.isOver = true) := by
  have own : ∀ moves stopped write (later : Runner),
      later = ⟨search, .announcing⟩ ∧ moves = 0 ∨ later = ⟨search, .over⟩ →
      (later.move stopped (accepts write)).runner = ⟨search, .announcing⟩ ∧ moves + 1 = 0 ∨
        (later.move stopped (accepts write)).runner = ⟨search, .over⟩ := by
    rintro moves stopped write later (⟨rfl, -⟩ | rfl)
    · exact .inr (by rw [lost]; rfl)
    · exact .inr rfl
  obtain ⟨later, found, h⟩ := runner_follow
    (P := fun moves _ later =>
      later = ⟨search, .announcing⟩ ∧ moves = 0 ∨ later = ⟨search, .over⟩)
    (fun _ _ h => h) own schedule there (.inl ⟨rfl, rfl⟩)
  rcases h with ⟨rfl, never⟩ | rfl
  · exact ⟨_, found, rfl, fun moved => absurd moved (List.count_eq_zero.1 never)⟩
  · exact ⟨_, found, rfl, fun _ => rfl⟩

theorem blocks_follow_of_lost (lost : ∀ write, accepts write = false) (schedule : List Step)
    (h : fit.blocks = []) : (fit.follow accepts schedule).blocks = [] := by
  refine follow_induction (P := fun later => later.blocks = []) (fun later i h => ?_)
    (fun _ h => h) schedule h
  cases there : later.runners[i]? with
  | none => rwa [move_of_none there]
  | some runner => simp [blocks_move there, lost, h]

end Fit

/-- How the searches of a fit end when the output is lost. -/
structure EndsWhenLost (world : World) (options : FitOptions) (searches : List Search) : Prop where
  /-- Whatever is lost, the fit succeeds. -/
  exit : ∀ accepts schedule,
    ((Command.fit options).runBy (·.follow accepts schedule) world).exit = 0
  /-- Nothing else raises the signal, and nothing takes it back. -/
  raised : ∀ accepts schedule,
    Fit.Raised accepts schedule ((Fit.start searches).follow accepts schedule)
  /-- From any moment on at which the signal is up. -/
  halts : ∀ accepts schedule more,
    let fit := (Fit.start searches).follow accepts schedule
    fit.stopped = true →
    let later := fit.follow accepts more
    later.stopped = true ∧
      ∀ i runner, fit.runners[i]? = some runner →
        ∃ after, later.runners[i]? = some after ∧ runner.Halts after ∧
          after.search.iterations ≤ runner.reach ∧ (3 ≤ more.count (.move i) → after.isOver = true)
  /-- If nothing can be written at all. -/
  silent : ∀ accepts schedule, (∀ write, accepts write = false) →
    ((Command.fit options).runBy (·.follow accepts schedule) world).output = "" ∧
      ∀ i wave, options.waves[i]? = some wave →
        ∃ table params after, options.Loads world.files.read wave (.ok table) ∧
          options.Seeds world.files.read wave (.ok params) ∧
          ((Fit.start searches).follow accepts schedule).runners[i]? = some after ∧
          after.search.iterations = 0 ∧ after.search.best = ⟨params, score wave params table⟩ ∧
          (.move i ∈ schedule → after.isOver = true)

theorem ends_when_lost {world : World} {options : FitOptions} {searches : List Search}
    (accepted : options.Accepted world.files.read world.entropy searches) :
    EndsWhenLost world options searches where
  exit accepts schedule := by
    obtain ⟨_, -, ran⟩ := runBy_fit_of_accepted (·.follow accepts schedule) accepted
    rw [ran]
  raised accepts schedule := Fit.raised_follow accepts searches schedule
  halts accepts schedule more := by
    intro fit stopped later
    refine ⟨Fit.stopped_follow stopped more, fun i runner there => ?_⟩
    obtain ⟨after, found, halts, ends⟩ := Fit.halts_follow accepts stopped more there
    exact ⟨after, found, halts, halts.iterations_le, ends⟩
  silent accepts schedule lost := by
    obtain ⟨_, -, ran⟩ := runBy_fit_of_accepted (·.follow accepts schedule) accepted
    refine ⟨?_, fun i wave listed => ?_⟩
    · have none : ((Fit.start searches).follow accepts schedule).blocks = [] :=
        Fit.blocks_follow_of_lost lost schedule rfl
      simp [ran, Fit.output, none]
    · obtain ⟨table, params, loaded, seeds, there⟩ := accepted.search_at listed
      have begun : (Fit.start searches).runners[i]? =
          some ⟨options.search (world.entropy i) ⟨wave, table, params⟩, .announcing⟩ := by
        simp [Fit.start, there]
      obtain ⟨after, found, same, ends⟩ := Fit.silent_follow lost schedule begun
      refine ⟨table, params, after, loaded, seeds, found, ?_, ?_, ends⟩
      · rw [same]
        rfl
      · rw [same]
        rfl

theorem ends_when_lost_pair :
    let world : World := { files := .captures fun wave => render wave .zero }
    ∃ searches, FitOptions.pair.Accepted world.files.read world.entropy searches ∧
      EndsWhenLost world .pair searches := by
  intro world
  obtain ⟨searches, accepted⟩ := accepted_pair (fun wave => render wave .zero) world.entropy
  exact ⟨searches, accepted, ends_when_lost accepted⟩

end WaveBus
