import WaveBus.Proofs.Params.Reading

/-! # Parameters in the source of an emulator

The source of an emulator assigns to each parameter in a line of its own, perhaps behind
`bestparams.`, with the suffix of a literal and with semicolons. A finite number ends in a
digit, so the suffix can be told from it, and every such text is read as the parameters it
was written for.
-/

namespace WaveBus.Params

open Text

/-! ## Spellings -/

/-- A name of a field, perhaps with `bestparams.` in front of it. -/
inductive Field.Called (field : Field) : List Char → Prop where
  | bare {name : String} (known : name ∈ field.spellings) : field.Called name.toList
  | qualified {name : String} (known : name ∈ field.spellings) :
      field.Called (scope ++ name.toList)

/-- A line for a field with a number, as the source of an emulator may have it. The number may be
    laid out in any style that gives no exponent to a zero. -/
inductive Field.Spelled (field : Field) (x : Float32) : List Char → Prop where
  | intro {key before behind suffix gap trail : List Char} (style : Style)
      (bare : style.positional 0 = true) (semicolons : Nat) (called : field.Called key)
      (gap_before : Gap before) (gap_behind : Gap behind) (suffixed : suffix = [] ∨ suffix = ['f'])
      (gap_value : Gap gap) (gap_trail : Gap trail) :
      field.Spelled x (key ++ (before ++ '=' :: (behind ++ (style.write x ++ (suffix ++
        (gap ++ (List.replicate semicolons ';' ++ trail)))))))

/-- The end of a line. -/
inductive LineEnd : List Char → Prop where
  | feed : LineEnd ['\n']
  | returned : LineEnd ['\r', '\n']

/-- A text with a line for each of some fields, in this order, and with any remarks. -/
inductive Source (params : Params) : List Field → List Char → Prop where
  | nil : Source params [] []
  | remark {fields : List Field} {line ending text : List Char} (remark : Remark line)
      (whole : '\n' ∉ line) (ends : LineEnd ending) (rest : Source params fields text) :
      Source params fields (line ++ (ending ++ text))
  | field {field : Field} {fields : List Field} {line ending text : List Char}
      (spelled : field.Spelled (params.get field) line) (ends : LineEnd ending)
      (rest : Source params fields text) :
      Source params (field :: fields) (line ++ (ending ++ text))

/-! ## The parts of a line -/

/-- What closes an assignment: semicolons behind a gap, or nothing. -/
inductive Closing : List Char → Prop where
  | none : Closing []
  | semicolons {gap : List Char} (blank : Gap gap) (more : Nat) :
      Closing (gap ++ List.replicate (more + 1) ';')

/-- A gap with no semicolon behind it belongs to the end of the line. -/
theorem exists_closing {gap trail : List Char} (blank : Gap gap) (blank' : Gap trail) (n : Nat) :
    ∃ closing rest, gap ++ (List.replicate n ';' ++ trail) = closing ++ rest ∧
      Closing closing ∧ Gap rest := by
  cases n with
  | zero => exact ⟨[], gap ++ trail, rfl, .none, blank.append blank'⟩
  | succ more =>
      exact ⟨_, trail, (List.append_assoc ..).symm, .semicolons blank more, blank'⟩

namespace Field.Called

variable {field : Field} {key : List Char}

/-- No character of a name has a meaning of its own. -/
theorem ordinary (h : field.Called key) :
    ∀ c ∈ key, isBlank c = false ∧ c ≠ '=' ∧ c ≠ '/' ∧ c ≠ '\n' := by
  have all : key.all (fun c => !isBlank c && c != '=' && c != '/' && c != '\n') = true := by
    cases h with
    | bare known | qualified known =>
      cases field
      all_goals
        simp only [spellings, List.mem_cons, List.not_mem_nil, or_false] at known
        rcases known with rfl | rfl <;> rfl
  intro c inside
  simpa [and_assoc] using List.all_eq_true.1 all c inside

theorem ne_nil (h : field.Called key) : key ≠ [] := by
  cases h with
  | bare known =>
    cases field
    all_goals
      simp only [spellings, List.mem_cons, List.not_mem_nil, or_false] at known
      rcases known with rfl | rfl <;> decide
  | qualified known => exact List.append_ne_nil_of_left_ne_nil (by decide) _

theorem padded (h : field.Called key) : Padded key key :=
  padded_of_visible fun c inside => (h.ordinary c inside).1

/-- No name begins with what may stand in front of one. -/
theorem exists_names (h : field.Called key) {before : List Char} (gap : Gap before) :
    ∃ name, Names (key ++ before) name ∧ String.ofList name ∈ field.spellings := by
  have padded : Padded (key ++ before) key := by
    simpa using h.padded.append (List.forall_mem_nil _) gap.isBlank
  cases h with
  | @bare name known =>
      refine ⟨name.toList, .bare padded ?_, by rwa [String.ofList_toList]⟩
      rw [← List.isPrefixOf_iff_prefix]
      cases field
      all_goals
        simp only [spellings, List.mem_cons, List.not_mem_nil, or_false] at known
        rcases known with rfl | rfl <;> decide
  | @qualified name known =>
      exact ⟨name.toList, .qualified padded, by rwa [String.ofList_toList]⟩

end Field.Called

/-! ## Values -/

/-- A finite number ends in a digit, however it is written. -/
theorem endsInFigure_of_isFinite {x : Float32} (finite : x.isFinite = true) {text : List Char}
    (h : Written x text) : EndsInFigure text := by
  change x.toModel.unpack.isFinite = true at finite
  cases h with
  | notANumber h => rw [h] at finite; cases finite
  | infinity sign h => rw [h] at finite; cases finite
  | finite sign layout h =>
      have ends : Layout.EndsInDigit (Style.signed sign layout.text) := by
        cases sign with
        | positive => exact layout.endsInDigit_text
        | negative => exact layout.endsInDigit_text.append ['-']
      obtain ⟨before, c, split, digit⟩ := ends
      exact ⟨c, by rw [split]; simp, .inl digit⟩

section Value

variable {x : Float32} {value suffix : List Char}

theorem unsuffixed_of_isFinite (finite : x.isFinite = true) (h : Written x value)
    (suffixed : suffix = [] ∨ suffix = ['f']) : Unsuffixed (value ++ suffix) value := by
  rcases suffixed with rfl | rfl
  · rw [List.append_nil]
    exact dropSuffix_eq_iff.1 (dropSuffix_written h)
  · exact .suffixed (endsInFigure_of_isFinite finite h)

theorem isPlain_suffixed (h : Written x value) (suffixed : suffix = [] ∨ suffix = ['f']) :
    ∀ c ∈ value ++ suffix, Layout.isPlain c = true := by
  intro c inside
  rcases List.mem_append.1 inside with inside | inside
  · exact h.isPlain c inside
  · rcases suffixed with rfl | rfl
    · cases inside
    · rw [List.mem_singleton.1 inside]
      rfl

/-- Semicolons end an assignment, a gap alone does not. -/
theorem Closing.padded {core closing : List Char} (closes : Closing closing)
    (alone : Padded core core) (filled : core ≠ []) : Padded (core ++ closing) (core ++ closing) := by
  cases closes with
  | none => rwa [List.append_nil]
  | semicolons _ more =>
      have run : Padded (List.replicate (more + 1) ';') (List.replicate (more + 1) ';') := by
        apply padded_of_visible
        intro c inside
        rw [List.eq_of_mem_replicate inside]
        rfl
      exact alone.span run filled (List.cons_ne_nil _ _) _

/-- Neither the gaps nor the semicolons nor the suffix belong to the value. -/
theorem values_of_isFinite (finite : x.isFinite = true) (h : Written x value)
    (suffixed : suffix = [] ∨ suffix = ['f']) {behind closing : List Char} (gap : Gap behind)
    (closes : Closing closing) : Values (behind ++ (value ++ suffix ++ closing)) value := by
  have plain := isPlain_suffixed h suffixed
  have unsuffixed := unsuffixed_of_isFinite finite h suffixed
  have filled : value ++ suffix ≠ [] := List.append_ne_nil_of_left_ne_nil h.ne_nil _
  generalize value ++ suffix = core at plain unsuffixed filled ⊢
  have alone : Padded core core := padded_of_visible fun c inside => isBlank_of_isPlain (plain c inside)
  have whole : Padded (behind ++ (core ++ closing)) (core ++ closing) := by
    simpa using (closes.padded alone filled).append gap.isBlank (List.forall_mem_nil _)
  cases closes with
  | none =>
      refine .intro whole nofun ?_ alone unsuffixed
      intro c last
      exact ne_semicolon_of_isPlain (plain c (List.mem_of_mem_getLast? last))
  | @semicolons space blank more =>
      have inner : Padded (core ++ space) core := by
        simpa using alone.append (List.forall_mem_nil _) blank.isBlank
      rw [← List.append_assoc core] at whole ⊢
      refine .intro whole (fun c => List.eq_of_mem_replicate) ?_ inner unsuffixed
      intro c last
      rcases List.mem_append.1 (List.mem_of_mem_getLast? last) with inside | inside
      · exact ne_semicolon_of_isPlain (plain c inside)
      · rintro rfl
        exact blank.notMem (by decide) (by decide) inside

end Value

/-! ## Lines -/

namespace Field.Spelled

variable {field : Field} {x : Float32} {line : List Char}

theorem newline_notMem (h : field.Spelled x line) : '\n' ∉ line := by
  cases h with
  | @intro key before behind suffix gap trail style bare semicolons called gap_before gap_behind
      suffixed gap_value gap_trail =>
    have name : '\n' ∉ key := fun inside => (called.ordinary _ inside).2.2.2 rfl
    have value : '\n' ∉ style.write x ++ suffix := by
      intro inside
      exact absurd (isPlain_suffixed (Written.write style bare x) suffixed _ inside) (by decide)
    have run : '\n' ∉ List.replicate semicolons ';' := by
      intro inside
      exact absurd (List.eq_of_mem_replicate inside) (by decide)
    have space {text : List Char} (h : Gap text) : '\n' ∉ text := h.notMem (by decide) (by decide)
    rw [List.mem_append, not_or] at value
    simp [name, value, run, space gap_before, space gap_behind, space gap_value, space gap_trail]

/-- A spelled line gives the number to the field, to the bit. -/
theorem assigns (h : field.Spelled x line) (finite : x.isFinite = true) :
    Assigns line field x := by
  cases h with
  | @intro key before behind suffix gap trail style bare semicolons called gap_before gap_behind
      suffixed gap_value gap_trail =>
    obtain ⟨closing, rest, ending, closes, blank⟩ := exists_closing gap_value gap_trail semicolons
    have written := Written.write style bare x
    obtain ⟨literal, reads, number⟩ := written.read?
    obtain ⟨name, names, known⟩ := called.exists_names gap_before
    rw [ending]
    generalize style.write x = value at written reads ⊢
    have plain := isPlain_suffixed written suffixed
    have filled : value ++ suffix ≠ [] := List.append_ne_nil_of_left_ne_nil written.ne_nil _
    have values := values_of_isFinite finite written suffixed gap_behind closes
    have back := closes.padded
      (padded_of_visible fun c inside => isBlank_of_isPlain (plain c inside)) filled
    have core := called.padded.span back called.ne_nil (List.append_ne_nil_of_left_ne_nil filled _)
      (before ++ '=' :: behind)
    have splits : Splits (key ++ (before ++ '=' :: (behind ++ (value ++ (suffix ++
        (closing ++ rest)))))) (key ++ before) (behind ++ (value ++ suffix ++ closing)) := by
      refine ⟨⟨?_, ?_, ?_⟩, ?_⟩
      · simpa using core.append (List.forall_mem_nil _) blank.isBlank
      · simp
      · intro comment
        obtain ⟨c, rest, rfl⟩ := List.exists_cons_of_ne_nil called.ne_nil
        obtain ⟨rfl, -⟩ := List.cons_prefix_cons.1 comment
        exact (called.ordinary '/' List.mem_cons_self).2.2.1 rfl
      · rw [List.mem_append, not_or]
        exact ⟨fun inside => (called.ordinary '=' inside).2.1 rfl,
          gap_before.notMem (by decide) (by decide)⟩
    exact number ▸ .intro splits names known values (Literal.read?_eq_some_iff.1 reads)

end Field.Spelled

/-! ## Texts -/

/-- A carriage return at the end of a line is trimmed away. -/
theorem readLine_returned (params : Params) (line : List Char) :
    params.readLine (line ++ ['\r']) = params.readLine line := by
  have blank : ∀ c ∈ ['\r'], isBlank c = true := by
    intro c inside
    rw [List.mem_singleton.1 inside]
    rfl
  have trimmed : trim (line ++ ['\r']) = trim line :=
    trim_eq_iff.2 ((padded_trim line).append (List.forall_mem_nil _) blank)
  rw [readLine, trimmed, readLine]

theorem Reads.ended {before after : Params} {line ending : List Char} (whole : '\n' ∉ line)
    (h : before.readLine line = .ok after) (ends : LineEnd ending) :
    Reads before after (line ++ ending) := by
  cases ends with
  | feed => exact .line whole h
  | returned =>
      rw [← readLine_returned] at h
      simpa using Reads.line (by simpa using whole) h

/-- The parameters with the numbers that others have in some fields. -/
def adopt (params : Params) (start : Params) (fields : List Field) : Params :=
  fields.foldl (fun read field => read.set field (params.get field)) start

theorem get_adopt (params start : Params) (fields : List Field) (other : Field) :
    (params.adopt start fields).get other =
      if other ∈ fields then params.get other else start.get other := by
  induction fields generalizing start with
  | nil => rfl
  | cons field fields ih =>
      rw [adopt, List.foldl_cons, ← adopt, ih, get_set]
      by_cases later : other ∈ fields
      · simp [later]
      · by_cases same : other = field
        · simp [same]
        · simp [later, same]

theorem Source.reads {params : Params} {fields : List Field} {text : List Char}
    (source : Source params fields text)
    (finite : ∀ field ∈ fields, (params.get field).isFinite = true) (start : Params) :
    Reads start (params.adopt start fields) text := by
  induction source generalizing start with
  | nil => exact .nil start
  | remark remark whole ends rest ih =>
      rw [← List.append_assoc]
      exact (Reads.ended whole (readLine_of_remark start remark) ends).append (ih finite start)
  | @field field fields line ending text spelled ends rest ih =>
      obtain ⟨first, others⟩ := List.forall_mem_cons.1 finite
      have reads := readLine_of_assigns start (spelled.assigns first)
      rw [← List.append_assoc]
      exact (Reads.ended spelled.newline_notMem reads ends).append (ih others _)

/-- However the five lines are spelled and ordered, the parameters are read back, bit for bit. -/
theorem parse_source {params : Params} (finite : ∀ field, (params.get field).isFinite = true)
    {fields : List Field} (order : fields.Perm Field.all) {text : List Char}
    (source : Source params fields text) : parse text = .ok params := by
  have whole : params.adopt zero fields = params := by
    apply ext_get
    intro field
    have listed : field ∈ fields := order.mem_iff.2 (by cases field <;> decide)
    rw [get_adopt, if_pos listed]
  exact (whole ▸ source.reads (fun field _ => finite field) zero).parse

/-- The largest number, the least above zero and a negative zero, in two styles. -/
theorem parse_source_of_extremes :
    parse ("// best so far\r\n\n" ++ "bestparams.topbit\t= -0f;\r\n" ++ "stmix=1e-45\n" ++
      "pulse_strength =3.4028235e38f ;;; \r\n" ++ " // and the rest\n" ++
      "distance = 0.125;\n" ++ "bestparams.bias  =  -1.5\r\n").toList =
    .ok ⟨-1.5, .ofBits 0x7F7FFFFF, -0.0, 0.125, .ofBits 1⟩ := by
  let params : Params := ⟨-1.5, .ofBits 0x7F7FFFFF, -0.0, 0.125, .ofBits 1⟩
  have none : Gap [] := by decide
  have one : Gap [' '] := by decide
  have two : Gap [' ', ' '] := by decide
  have tab : Gap ['\t'] := by decide
  have topBit : Field.topBit.Spelled (params.get .topBit) _ :=
    .intro .plain rfl 1 (@Field.Called.qualified _ "topbit" (by decide))
      tab one (.inr rfl) none none
  have stMix : Field.stMix.Spelled (params.get .stMix) _ :=
    .intro style rfl 0 (@Field.Called.bare _ "stmix" (by decide))
      none none (.inl rfl) none none
  have pulse : Field.pulseStrength.Spelled (params.get .pulseStrength) _ :=
    .intro style rfl 3 (@Field.Called.bare _ "pulse_strength" (by decide))
      one none (.inr rfl) one one
  have distance : Field.distance.Spelled (params.get .distance) _ :=
    .intro style rfl 1 (@Field.Called.bare _ "distance" (by decide))
      one one (.inl rfl) none none
  have bias : Field.bias.Spelled (params.get .bias) _ :=
    .intro .plain rfl 0 (@Field.Called.qualified _ "bias" (by decide))
      two two (.inl rfl) none none
  have blank : Remark [] := ⟨[], trim_eq_iff.1 rfl, .inl rfl⟩
  have indented : Remark " // and the rest".toList := remark_iff.2 (by decide +kernel)
  have source : Source params [.topBit, .stMix, .pulseStrength, .distance, .bias] _ :=
    .remark (remark_comment " best so far".toList) (by decide) .returned <|
    .remark blank (by decide) .feed <| .field topBit .returned <| .field stMix .feed <|
    .field pulse .returned <| .remark indented (by decide) .feed <| .field distance .feed <|
    .field bias .returned .nil
  have finite : ∀ field, (params.get field).isFinite = true := by
    intro field
    cases field <;> decide +kernel
  refine Eq.trans (congrArg parse ?_) (parse_source finite (by decide) source)
  decide +kernel

end WaveBus.Params
