import WaveBus.Text.Blank

/-! # Trimming

A trimmed text is the core of a text that has nothing but blanks around it, and that core
neither begins nor ends with a blank. What is so already is not changed.
-/

namespace WaveBus.Text

/-- Of the characters from `!` to `~` none is blank. -/
theorem isBlank_eq_false {c : Char} (lower : 33 ≤ c.toNat) (upper : c.toNat ≤ 126) :
    isBlank c = false := by
  rw [isBlank, List.any_eq_false]
  intro range inside
  simp only [blankRanges, List.mem_cons, List.not_mem_nil, or_false] at inside
  rw [Bool.and_eq_true, decide_eq_true_eq, decide_eq_true_eq]
  rcases inside with rfl | rfl | rfl | rfl | rfl | rfl | rfl | rfl | rfl | rfl <;> dsimp only <;> omega

theorem dropWhile_eq_self {p : Char → Bool} {text : List Char}
    (h : ∀ c ∈ text.head?, p c = false) : text.dropWhile p = text := by
  cases text with
  | nil => rfl
  | cons c rest => exact List.dropWhile_cons_of_neg (by rw [h c rfl]; exact Bool.false_ne_true)

theorem dropWhile_cons_eq_self {p : Char → Bool} {c : Char} (kept : p c = false)
    (text : List Char) : (c :: text).dropWhile p = c :: text :=
  dropWhile_eq_self (by rintro d ⟨⟩; exact kept)

theorem dropEndWhile_eq_self {p : Char → Bool} {text : List Char}
    (h : ∀ c ∈ text.getLast?, p c = false) : dropEndWhile p text = text := by
  rw [dropEndWhile, dropWhile_eq_self, List.reverse_reverse]
  rw [List.head?_reverse]
  exact h

theorem trim_eq_self {text : List Char} (first : ∀ c ∈ text.head?, isBlank c = false)
    (last : ∀ c ∈ text.getLast?, isBlank c = false) : trim text = text := by
  rw [trim, dropWhile_eq_self first, dropEndWhile_eq_self last]

theorem trim_cons {c : Char} (blank : isBlank c = true) (text : List Char) :
    trim (c :: text) = trim text := by
  rw [trim, List.dropWhile_cons_of_pos blank, trim]

/-- What does not satisfy `p` at the front is kept, whatever is dropped at the end. -/
theorem dropEndWhile_cons {p : Char → Bool} {c : Char} (kept : p c = false) (text : List Char) :
    dropEndWhile p (c :: text) = c :: dropEndWhile p text := by
  rw [dropEndWhile, List.reverse_cons, List.dropWhile_append, dropWhile_cons_eq_self kept,
    dropEndWhile]
  split
  next none =>
    rw [List.isEmpty_iff] at none
    rw [none]
    rfl
  next =>
    rw [List.reverse_append]
    rfl

theorem trim_cons_of_not_blank {c : Char} (kept : isBlank c = false) (text : List Char) :
    trim (c :: text) = c :: dropEndWhile isBlank text := by
  rw [trim, dropWhile_cons_eq_self kept, dropEndWhile_cons kept]

theorem dropWhile_eq_iff {p : Char → Bool} {text rest : List Char} :
    text.dropWhile p = rest ↔ ∃ before, text = before ++ rest ∧ (∀ c ∈ before, p c = true) ∧
      ∀ c ∈ rest.head?, p c = false := by
  constructor
  · rintro rfl
    refine ⟨text.takeWhile p, List.takeWhile_append_dropWhile.symm,
      List.all_eq_true.1 List.all_takeWhile, ?_⟩
    intro c first
    have stop := List.head?_dropWhile_not p text
    rw [Option.mem_def.1 first] at stop
    exact stop
  · rintro ⟨before, rfl, dropped, kept⟩
    rw [List.dropWhile_append_of_pos dropped, dropWhile_eq_self kept]

theorem dropEndWhile_eq_iff {p : Char → Bool} {text rest : List Char} :
    dropEndWhile p text = rest ↔ ∃ after, text = rest ++ after ∧ (∀ c ∈ after, p c = true) ∧
      ∀ c ∈ rest.getLast?, p c = false := by
  rw [dropEndWhile, List.reverse_eq_iff, dropWhile_eq_iff, List.head?_reverse]
  constructor
  · rintro ⟨before, split, dropped, kept⟩
    refine ⟨before.reverse, ?_, by simpa using dropped, kept⟩
    simpa using congrArg List.reverse split
  · rintro ⟨after, rfl, dropped, kept⟩
    exact ⟨after.reverse, List.reverse_append, by simpa using dropped, kept⟩

/-- A text with blanks around a core that neither begins nor ends with one. -/
structure Padded (text core : List Char) : Prop where
  around : ∃ before after, text = before ++ (core ++ after) ∧ (∀ c ∈ before, isBlank c = true) ∧
    ∀ c ∈ after, isBlank c = true
  first : ∀ c ∈ core.head?, isBlank c = false
  last : ∀ c ∈ core.getLast?, isBlank c = false

theorem trim_eq_iff {text core : List Char} : trim text = core ↔ Padded text core := by
  constructor
  · intro h
    obtain ⟨before, split, blank, first⟩ := dropWhile_eq_iff.1 (Eq.refl (text.dropWhile isBlank))
    obtain ⟨after, split', blank', last⟩ := dropEndWhile_eq_iff.1 h
    rw [split'] at split first
    refine ⟨⟨before, after, split, blank, blank'⟩, ?_, last⟩
    cases core with
    | nil => nofun
    | cons c core => exact first
  · rintro ⟨⟨before, after, rfl, blank, blank'⟩, first, last⟩
    rw [trim, List.dropWhile_append_of_pos blank]
    cases core with
    | nil =>
        rw [List.nil_append, ← List.append_nil after, List.dropWhile_append_of_pos blank']
        rfl
    | cons c core =>
        rw [List.cons_append, dropWhile_cons_eq_self (first c rfl)]
        exact dropEndWhile_eq_iff.2 ⟨after, rfl, blank', last⟩

theorem padded_trim (text : List Char) : Padded text (trim text) := trim_eq_iff.1 rfl

/-- More blanks around a text leave its core as it is. -/
theorem Padded.append {text core before after : List Char} (h : Padded text core)
    (blank : ∀ c ∈ before, isBlank c = true) (blank' : ∀ c ∈ after, isBlank c = true) :
    Padded (before ++ (text ++ after)) core := by
  obtain ⟨⟨front, rest, rfl, blank_front, blank_rest⟩, first, last⟩ := h
  refine ⟨⟨before ++ front, rest ++ after, by simp, ?_, ?_⟩, first, last⟩
  · exact List.forall_mem_append.2 ⟨blank, blank_front⟩
  · exact List.forall_mem_append.2 ⟨blank_rest, blank'⟩

theorem padded_of_visible {text : List Char} (visible : ∀ c ∈ text, isBlank c = false) :
    Padded text text :=
  trim_eq_iff.1 (trim_eq_self (fun c first => visible c (List.mem_of_mem_head? first))
    (fun c last => visible c (List.mem_of_mem_getLast? last)))

/-- A text is its own core if its two ends are. -/
theorem Padded.span {front back : List Char} (h : Padded front front) (h' : Padded back back)
    (filled : front ≠ []) (filled' : back ≠ []) (middle : List Char) :
    Padded (front ++ (middle ++ back)) (front ++ (middle ++ back)) := by
  refine trim_eq_iff.1 (trim_eq_self ?_ ?_)
  · obtain ⟨c, rest, rfl⟩ := List.exists_cons_of_ne_nil filled
    exact h.first
  · have last := h'.last
    rw [← List.append_assoc, List.getLast?_append]
    rw [List.getLast?_eq_some_getLast filled'] at last ⊢
    exact last

/-- Spaces and tabs only. -/
def Gap (text : List Char) : Prop := ∀ c ∈ text, c = ' ' ∨ c = '\t'

instance : DecidablePred Gap := fun text => List.decidableBAll _ text

theorem Gap.isBlank {text : List Char} (h : Gap text) : ∀ c ∈ text, isBlank c = true := by
  intro c inside
  rcases h c inside with rfl | rfl <;> rfl

theorem Gap.append {text more : List Char} (h : Gap text) (h' : Gap more) : Gap (text ++ more) := by
  intro c inside
  rcases List.mem_append.1 inside with inside | inside
  · exact h c inside
  · exact h' c inside

theorem Gap.notMem {text : List Char} (h : Gap text) {c : Char} (space : c ≠ ' ') (tab : c ≠ '\t') :
    c ∉ text := by
  intro inside
  rcases h c inside with same | same
  · exact space same
  · exact tab same

end WaveBus.Text
