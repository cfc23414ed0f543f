import WaveBus.Search

/-! # Calls of a search

A call looks at the gate before every candidate: is the search stopped, has it reached
its limit? Behind a closed gate it returns at once with the search as it was; behind an
open one it tries a candidate, and a rejected candidate leads back to the gate. A limit
leaves only so many candidates, so under a limit every call is decided.
-/

namespace WaveBus

namespace Search

/-- Whether the search may try another candidate. -/
def isOpen (search : Search) (stopped : Bool) : Bool := !(stopped || search.isSpent)

variable {search : Search} {stopped : Bool} {patience : Nat}

theorem isSpent_iff (search : Search) :
    search.isSpent = true ↔ ∃ limit, search.limit = some limit ∧ limit ≤ search.iterations := by
  rw [isSpent, Option.any_eq_true]
  simp only [decide_eq_true_eq]

theorem isSpent_of_not_isOpen (h : search.isOpen false = false) : search.isSpent = true := by
  simpa [isOpen] using h

theorem lt_of_isOpen {limit : Nat} (limited : search.limit = some limit)
    (h : search.isOpen stopped = true) : search.iterations < limit := by
  have spent : ¬ search.isSpent = true := by
    intro spent
    simp [isOpen, spent] at h
  rw [isSpent_iff] at spent
  exact Nat.lt_of_not_le fun le => spent ⟨limit, limited, le⟩

theorem next_closed (h : search.isOpen stopped = false) (patience : Nat) :
    search.next stopped (patience + 1) = { reply := .halted, search } := by
  rw [isOpen, Bool.not_eq_false'] at h
  rw [next, if_pos h]

theorem next_accepted_first (h : search.isOpen stopped = true)
    (accepted : search.attempt.1.accepted = true) (patience : Nat) :
    search.next stopped (patience + 1) =
      { reply := .improved search.attempt.1.improvement
        attempts := [search.attempt.1], search := search.attempt.2 } := by
  rw [isOpen, Bool.not_eq_true'] at h
  rw [next, if_neg (Bool.eq_false_iff.1 h)]
  exact if_pos accepted

/-- A rejected candidate leads back to the gate. -/
theorem next_rejected_first (h : search.isOpen stopped = true)
    (rejected : ¬ search.attempt.1.accepted = true) (patience : Nat) :
    search.next stopped (patience + 1) =
      { search.attempt.2.next stopped patience with
        attempts := search.attempt.1 :: (search.attempt.2.next stopped patience).attempts } := by
  rw [isOpen, Bool.not_eq_true'] at h
  rw [next, if_neg (Bool.eq_false_iff.1 h)]
  exact if_neg rejected

/-- What holds of a call that is cut short, is held back, or finds an improvement at once,
    and is kept by a rejected candidate in front, holds of every call. -/
theorem next_induction {P : Search → Turn → Prop} (stopped : Bool)
    (undecided : ∀ search, P search { reply := .undecided, search })
    (halted : ∀ search, search.isOpen stopped = false → P search { reply := .halted, search })
    (improved : ∀ search, search.isOpen stopped = true →
      P search
        { reply := .improved search.attempt.1.improvement
          attempts := [search.attempt.1], search := search.attempt.2 })
    (rejected : ∀ search turn, search.isOpen stopped = true → P search.attempt.2 turn →
      P search { turn with attempts := search.attempt.1 :: turn.attempts })
    (patience : Nat) (search : Search) : P search (search.next stopped patience) := by
  induction patience generalizing search with
  | zero => exact undecided search
  | succ patience ih =>
      cases gate : search.isOpen stopped with
      | false =>
          rw [next_closed gate]
          exact halted search gate
      | true =>
          by_cases accepted : search.attempt.1.accepted = true
          · rw [next_accepted_first gate accepted]
            exact improved search gate
          · rw [next_rejected_first gate accepted]
            exact rejected search _ gate (ih search.attempt.2)

/-- What more patience cannot change. -/
theorem next_of_le (decided : (search.next stopped patience).reply ≠ .undecided)
    {more : Nat} (le : patience ≤ more) :
    search.next stopped more = search.next stopped patience := by
  induction patience generalizing search more with
  | zero => exact absurd rfl decided
  | succ patience ih =>
      obtain ⟨more, rfl⟩ : ∃ less, more = less + 1 := ⟨more - 1, by omega⟩
      cases gate : search.isOpen stopped with
      | false => rw [next_closed gate, next_closed gate]
      | true =>
          by_cases accepted : search.attempt.1.accepted = true
          · rw [next_accepted_first gate accepted, next_accepted_first gate accepted]
          · rw [next_rejected_first gate accepted] at decided ⊢
            rw [next_rejected_first gate accepted, ih decided (by omega)]

/-- Every rejected candidate brings the count nearer to the limit, so with patience for one
    more than are left a call is decided. -/
theorem next_decided {limit : Nat} (limited : search.limit = some limit)
    (enough : limit - search.iterations < patience) :
    (search.next stopped patience).reply ≠ .undecided := by
  induction patience generalizing search with
  | zero => exact absurd enough (Nat.not_lt_zero _)
  | succ patience ih =>
      cases gate : search.isOpen stopped with
      | false =>
          rw [next_closed gate]
          nofun
      | true =>
          by_cases accepted : search.attempt.1.accepted = true
          · rw [next_accepted_first gate accepted]
            nofun
          · have left := lt_of_isOpen limited gate
            rw [next_rejected_first gate accepted]
            refine ih limited ?_
            rw [iterations_attempt]
            omega

@[simp] theorem limit_next (stopped : Bool) (patience : Nat) (search : Search) :
    (search.next stopped patience).search.limit = search.limit :=
  next_induction (P := fun search turn => turn.search.limit = search.limit) stopped
    (fun _ => rfl) (fun _ _ => rfl) (fun _ _ => rfl) (fun _ _ _ ih => ih) patience search

@[simp] theorem wave_next (stopped : Bool) (patience : Nat) (search : Search) :
    (search.next stopped patience).search.wave = search.wave :=
  next_induction (P := fun search turn => turn.search.wave = search.wave) stopped
    (fun _ => rfl) (fun _ _ => rfl) (fun _ _ => rfl) (fun _ _ _ ih => ih) patience search

theorem iterations_le_next (stopped : Bool) (patience : Nat) (search : Search) :
    search.iterations ≤ (search.next stopped patience).search.iterations :=
  next_induction (P := fun search turn => search.iterations ≤ turn.search.iterations) stopped
    (fun _ => Nat.le_refl _) (fun _ _ => Nat.le_refl _) (fun _ _ => Nat.le_succ _)
    (fun _ _ _ ih => Nat.le_trans (Nat.le_succ _) ih) patience search

/-- The count stays within any bound that the limit keeps. -/
theorem iterations_next_le {limit bound : Nat} (limited : search.limit = some limit)
    (within : limit ≤ bound) (below : search.iterations ≤ bound) (stopped : Bool)
    (patience : Nat) : (search.next stopped patience).search.iterations ≤ bound := by
  have step : ∀ search : Search, search.isOpen stopped = true → search.limit = some limit →
      search.attempt.2.iterations ≤ bound := by
    intro search gate limited
    have left := lt_of_isOpen limited gate
    rw [iterations_attempt]
    omega
  refine next_induction (P := fun search turn => search.limit = some limit →
      search.iterations ≤ bound → turn.search.iterations ≤ bound) stopped
    ?_ ?_ ?_ ?_ patience search limited below
  · intro search _ below
    exact below
  · intro search _ _ below
    exact below
  · intro search gate limited _
    exact step search gate limited
  · intro search turn gate ih limited _
    exact ih limited (step search gate limited)

/-- A call that is not stopped returns nothing only when the limit is reached. -/
theorem isSpent_of_halted (h : (search.next false patience).reply = .halted) :
    (search.next false patience).search.isSpent = true := by
  refine next_induction (P := fun _ turn => turn.reply = .halted → turn.search.isSpent = true)
    false ?_ ?_ ?_ ?_ patience search h
  · intro search halted
    cases halted
  · intro search gate _
    exact isSpent_of_not_isOpen gate
  · intro search _ halted
    cases halted
  · intro search turn _ ih
    exact ih

theorem iterations_lt_next (h : search.isOpen stopped = true) (patience : Nat) :
    search.iterations < (search.next stopped (patience + 1)).search.iterations := by
  by_cases accepted : search.attempt.1.accepted = true
  · rw [next_accepted_first h accepted]
    exact Nat.lt_succ_self _
  · rw [next_rejected_first h accepted]
    exact iterations_le_next stopped patience search.attempt.2

/-- Behind an open gate the first thing a call does is trying a candidate. -/
theorem attempts_next_open (h : search.isOpen stopped = true) (patience : Nat) :
    [search.attempt.1] <+: (search.next stopped (patience + 1)).attempts := by
  by_cases accepted : search.attempt.1.accepted = true
  · have only := congrArg Turn.attempts (next_accepted_first h accepted patience)
    exact ⟨[], only.symm⟩
  · have more := congrArg Turn.attempts (next_rejected_first h accepted patience)
    exact ⟨_, more.symm⟩

end Search

end WaveBus
