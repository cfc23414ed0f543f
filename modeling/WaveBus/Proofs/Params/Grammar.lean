import WaveBus.Proofs.Params.Line

/-! # Texts of parameters

A text of parameters is read if all its lines are sound. Then each field has the number of the
last line that gives it one. Otherwise the first line that is not sound decides, and nothing
behind it is looked at.
-/

namespace WaveBus.Params

open Text

/-- What a field has behind these lines: the number of the last line that gives it one, or what
    it had at the start. -/
inductive Given (lines : List (List Char)) (field : Field) (start : Float32) : Float32 → Prop where
  | assigned {before after : List (List Char)} {line : List Char} {number : Float32}
      (split : lines = before ++ line :: after) (assigns : Assigns line field number)
      (last : ∀ later ∈ after, ∀ other, ¬ Assigns later field other) :
      Given lines field start number
  | untouched (none : ∀ line ∈ lines, ∀ number, ¬ Assigns line field number) :
      Given lines field start start

/-- The first faulty line is named by its number, the first line being number one. -/
inductive FirstFault (lines : List (List Char)) : Fault → Prop where
  | intro {before after : List (List Char)} {line : List Char} {defect : Defect}
      (split : lines = before ++ line :: after) (sound : ∀ earlier ∈ before, Sound earlier)
      (faulty : Faulty line defect) : FirstFault lines (.malformed (before.length + 1) defect)

variable {line : List Char} {lines : List (List Char)} {field : Field} {start : Float32}

/-- Of two places in a list, one is behind the other or they are the same. -/
theorem same_or_behind {α : Type} {before after before' after' : List α} {x x' : α}
    (h : before ++ x :: after = before' ++ x' :: after') : x = x' ∨ x' ∈ after ∨ x ∈ after' := by
  rcases List.append_eq_append_iff.1 h with ⟨between, -, shift⟩ | ⟨between, -, shift⟩
  · cases between with
    | nil => exact .inl (List.cons.inj shift).1
    | cons y between =>
        rw [(List.cons.inj shift).2]
        exact .inr (.inl List.mem_append_cons_self)
  · cases between with
    | nil => exact .inl (List.cons.inj shift).1.symm
    | cons y between =>
        rw [(List.cons.inj shift).2]
        exact .inr (.inr List.mem_append_cons_self)

namespace Given

theorem remark {number : Float32} (remark : Remark line) (h : Given lines field start number) :
    Given (line :: lines) field start number := by
  cases h with
  | assigned split assigns last =>
      rw [split, ← List.cons_append]
      exact .assigned rfl assigns last
  | untouched none =>
      apply untouched
      intro other inside number
      rcases List.mem_cons.1 inside with rfl | inside
      · exact remark.not_assigns
      · exact none other inside number

theorem assign {assigned : Field} {value number : Float32} (assigns : Assigns line assigned value)
    (h : Given lines field (if field = assigned then value else start) number) :
    Given (line :: lines) field start number := by
  cases h with
  | assigned split assigns last =>
      rw [split, ← List.cons_append]
      exact .assigned rfl assigns last
  | untouched none =>
      by_cases same : field = assigned
      · subst same
        rw [if_pos rfl]
        exact .assigned (List.nil_append _).symm assigns none
      · rw [if_neg same]
        apply untouched
        intro other inside number assigns'
        rcases List.mem_cons.1 inside with rfl | inside
        · exact same (assigns'.unique assigns).1
        · exact none other inside number assigns'

/-- The line that gives a field its last number is at one place. -/
theorem unique {number number' : Float32} (h : Given lines field start number)
    (h' : Given lines field start number') : number = number' := by
  cases h with
  | untouched none =>
      cases h' with
      | untouched => rfl
      | assigned split' assigns' =>
          exact absurd assigns' (none _ (split' ▸ List.mem_append_cons_self) _)
  | assigned split assigns last =>
      cases h' with
      | untouched none' => exact absurd assigns (none' _ (split ▸ List.mem_append_cons_self) _)
      | assigned split' assigns' last' =>
          rcases same_or_behind (split.symm.trans split') with rfl | behind | behind
          · exact (assigns.unique assigns').2
          · exact absurd assigns' (last _ behind _)
          · exact absurd assigns (last' _ behind _)

end Given

/-! ## Runs over lines -/

theorem readLines_of_sound (params : Params) (number : Nat) (sound : ∀ line ∈ lines, Sound line) :
    ∃ after, params.readLines number lines = .ok after ∧
      ∀ field, Given lines field (params.get field) (after.get field) := by
  -- The other lines start with what the first has left, and for its field that is its number.
  induction lines generalizing params number with
  | nil => exact ⟨params, rfl, fun field => .untouched nofun⟩
  | cons line lines ih =>
      have rest : ∀ line ∈ lines, Sound line := fun line inside =>
        sound line (List.mem_cons_of_mem _ inside)
      rcases sound line List.mem_cons_self with remark | ⟨assigned, value, assigns⟩
      · obtain ⟨after, reads, given⟩ := ih params (number + 1) rest
        refine ⟨after, ?_, fun field => (given field).remark remark⟩
        rw [readLines, readLine_of_remark params remark]
        exact reads
      · obtain ⟨after, reads, given⟩ := ih (params.set assigned value) (number + 1) rest
        simp only [get_set] at given
        refine ⟨after, ?_, fun field => (given field).assign assigns⟩
        rw [readLines, readLine_of_assigns params assigns]
        exact reads

theorem readLines_of_faulty (params : Params) (number : Nat) {before after : List (List Char)}
    {defect : Defect} (sound : ∀ earlier ∈ before, Sound earlier) (faulty : Faulty line defect) :
    params.readLines number (before ++ line :: after) =
      .error (.malformed (number + before.length) defect) := by
  induction before generalizing params number with
  | nil =>
      rw [List.nil_append, readLines, readLine_of_faulty params faulty]
      rfl
  | cons earlier before ih =>
      have rest := fun params => ih params (number + 1) fun line inside =>
        sound line (List.mem_cons_of_mem _ inside)
      have count : number + 1 + before.length = number + (earlier :: before).length := by
        rw [List.length_cons]
        omega
      rw [count] at rest
      rcases sound earlier List.mem_cons_self with remark | ⟨assigned, value, assigns⟩
      · rw [List.cons_append, readLines, readLine_of_remark params remark]
        exact rest params
      · rw [List.cons_append, readLines, readLine_of_assigns params assigns]
        exact rest (params.set assigned value)

/-- Either there is nothing wrong, or some line is the first that is. -/
theorem sound_or_faulty (lines : List (List Char)) : (∀ line ∈ lines, Sound line) ∨
    ∃ before line after defect, lines = before ++ line :: after ∧
      (∀ earlier ∈ before, Sound earlier) ∧ Faulty line defect := by
  induction lines with
  | nil => exact .inl nofun
  | cons line lines ih =>
      rcases judged line with sound | ⟨defect, faulty⟩
      · rcases ih with rest | ⟨before, later, after, defect, rfl, earlier, faulty⟩
        · exact .inl (List.forall_mem_cons.2 ⟨sound, rest⟩)
        · exact .inr ⟨line :: before, later, after, defect, rfl,
            List.forall_mem_cons.2 ⟨sound, earlier⟩, faulty⟩
      · exact .inr ⟨[], line, lines, defect, rfl, nofun, faulty⟩

/-! ## Texts -/

variable {text : List Char}

theorem parse_of_sound (sound : ∀ line ∈ Text.lines text, Sound line) :
    ∃ params, parse text = .ok params ∧
      ∀ field, Given (Text.lines text) field (.ofBits 0) (params.get field) := by
  obtain ⟨params, reads, given⟩ := readLines_of_sound zero 1 sound
  refine ⟨params, reads, fun field => ?_⟩
  have zero : zero.get field = .ofBits 0 := by cases field <;> rfl
  exact zero ▸ given field

theorem parse_of_firstFault {fault : Fault} (h : FirstFault (Text.lines text) fault) :
    parse text = .error fault := by
  cases h with
  | @intro before after line defect split sound faulty =>
      rw [parse, split, readLines_of_faulty zero 1 sound faulty, Nat.add_comm]

/-- A text is either sound throughout or has a first fault. -/
theorem sound_or_firstFault (lines : List (List Char)) :
    (∀ line ∈ lines, Sound line) ∨ ∃ fault, FirstFault lines fault := by
  rcases sound_or_faulty lines with sound | ⟨before, line, after, defect, split, sound, faulty⟩
  · exact .inl sound
  · exact .inr ⟨_, .intro split sound faulty⟩

theorem parse_eq_ok_iff {params : Params} : parse text = .ok params ↔
    (∀ line ∈ Text.lines text, Sound line) ∧
      ∀ field, Given (Text.lines text) field (.ofBits 0) (params.get field) := by
  constructor
  · intro h
    rcases sound_or_firstFault (Text.lines text) with sound | ⟨fault, first⟩
    · obtain ⟨read, reads, given⟩ := parse_of_sound sound
      cases h.symm.trans reads
      exact ⟨sound, given⟩
    · cases h.symm.trans (parse_of_firstFault first)
  · rintro ⟨sound, given⟩
    obtain ⟨read, reads, given'⟩ := parse_of_sound sound
    rw [reads, ext_get fun field => (given' field).unique (given field)]

theorem parse_eq_error_iff {fault : Fault} :
    parse text = .error fault ↔ FirstFault (Text.lines text) fault := by
  refine ⟨fun h => ?_, parse_of_firstFault⟩
  rcases sound_or_firstFault (Text.lines text) with sound | ⟨fault', first⟩
  · obtain ⟨read, reads, -⟩ := parse_of_sound sound
    cases h.symm.trans reads
  · cases h.symm.trans (parse_of_firstFault first)
    exact first

/-- The lines up to the first fault decide. -/
theorem FirstFault.of_take {number : Nat} {defect : Defect} {others : List (List Char)}
    (h : FirstFault lines (.malformed number defect)) (same : others.take number = lines.take number) :
    FirstFault others (.malformed number defect) := by
  cases h with
  | @intro before after line defect split sound faulty =>
      rw [split, List.take_length_add_append] at same
      have split' : others = before ++ line :: others.drop (before.length + 1) := by
        rw [← List.take_append_drop (before.length + 1) others, same]
        simp
      exact .intro split' sound faulty

/-- A text is accepted if every line is a remark or assigns a number to a field, and the last
    assignment counts. Else the first faulty line is reported, whatever follows it. -/
theorem parse_accepts_grammar (text : List Char) :
    ((∃ params, parse text = .ok params) ↔ ∀ line ∈ Text.lines text, Sound line) ∧
      (∀ params, parse text = .ok params ↔ (∀ line ∈ Text.lines text, Sound line) ∧
        ∀ field, Given (Text.lines text) field (.ofBits 0) (params.get field)) ∧
      (∀ fault, parse text = .error fault ↔ FirstFault (Text.lines text) fault) ∧
      ∀ number defect, parse text = .error (.malformed number defect) →
        ∀ other, (Text.lines other).take number = (Text.lines text).take number →
          parse other = parse text := by
  refine ⟨?_, fun params => parse_eq_ok_iff, fun fault => parse_eq_error_iff, ?_⟩
  · constructor
    · rintro ⟨params, reads⟩
      exact (parse_eq_ok_iff.1 reads).1
    · intro sound
      obtain ⟨params, reads, -⟩ := parse_of_sound sound
      exact ⟨params, reads⟩
  · intro number defect fails other same
    have first := parse_eq_error_iff.1 fails
    rw [fails, parse_of_firstFault (first.of_take same)]

/-- Of the three lines at fault the first is reported, and of its two faults the left one. -/
example : parse "// best so far\n\nbais = x\nbias 1\nbias = x".toList =
    .error (.malformed 3 (.unknownParameter "bais")) := by
  rfl

end WaveBus.Params
