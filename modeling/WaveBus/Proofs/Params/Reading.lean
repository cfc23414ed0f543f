import WaveBus.Proofs.Number.Written
import WaveBus.Proofs.Params.Line

/-! # Parameters read back

Reading takes parameters from one set to the next, line by line. The line of a field
sets this field to the number that was written, and a remark changes nothing.
-/

namespace WaveBus.Params

open Text

theorem toNat_of_isPlain {c : Char} (h : Layout.isPlain c = true) :
    45 ≤ c.toNat ∧ c.toNat ≤ 122 := by
  simp only [Layout.isPlain, Char.isAlphanum, Char.isAlpha, Char.isUpper, Char.isLower,
    Char.isDigit, Bool.or_eq_true, Bool.and_eq_true, decide_eq_true_eq, beq_iff_eq] at h
  rcases h with (((upper | lower) | digit) | rfl) | rfl
  · change 65 ≤ c.toNat ∧ c.toNat ≤ 90 at upper
    omega
  · change 97 ≤ c.toNat ∧ c.toNat ≤ 122 at lower
    omega
  · change 48 ≤ c.toNat ∧ c.toNat ≤ 57 at digit
    omega
  · decide
  · decide

theorem ne_semicolon_of_isPlain {c : Char} (h : Layout.isPlain c = true) : c ≠ ';' := by
  rintro rfl
  exact absurd h (by decide)

theorem isBlank_of_isPlain {c : Char} (h : Layout.isPlain c = true) : isBlank c = false := by
  obtain ⟨lower, upper⟩ := toNat_of_isPlain h
  exact isBlank_eq_false (by omega) (by omega)

theorem dropSuffix_of_endsInDigit {text : List Char} (h : Layout.EndsInDigit text) :
    dropSuffix text = text := by
  obtain ⟨before, c, rfl, digit⟩ := h
  have last : (before ++ [c]).reverse = c :: before.reverse := by
    rw [List.reverse_append, List.reverse_singleton, List.singleton_append]
  rw [dropSuffix, last]
  split
  next e =>
    rw [(List.cons.inj e).1] at digit
    exact absurd digit (by decide)
  next => rfl

/-- The suffix of a literal in a program is no part of a written single. -/
theorem dropSuffix_written {x : Float32} {text : List Char} (h : Written x text) :
    dropSuffix text = text := by
  cases h with
  | notANumber h => rfl
  | infinity sign h => cases sign <;> rfl
  | finite sign layout h =>
      have ends := layout.endsInDigit_text
      cases sign with
      | positive => exact dropSuffix_of_endsInDigit ends
      | negative => exact dropSuffix_of_endsInDigit (ends.append ['-'])

theorem bareValue_written {x : Float32} {text : List Char} (h : Written x text) :
    bareValue (' ' :: text) = text := by
  have plain := h.isPlain
  have trimmed : trim text = text :=
    trim_eq_self (fun c hc => isBlank_of_isPlain (plain c (List.mem_of_mem_head? hc)))
      (fun c hc => isBlank_of_isPlain (plain c (List.mem_of_mem_getLast? hc)))
  have bare : dropEndWhile (· == ';') text = text :=
    dropEndWhile_eq_self fun c hc =>
      beq_eq_false_iff_ne.2 (ne_semicolon_of_isPlain (plain c (List.mem_of_mem_getLast? hc)))
  rw [bareValue, trim_cons rfl, trimmed, bare, trimmed, dropSuffix_written h]

theorem bareName_name (field : Field) : bareName (field.name.toList ++ [' ']) = field.name.toList := by
  cases field <;> rfl

theorem ofName?_name (field : Field) : Field.ofName? field.name = some field := by
  cases field <;> rfl

/-- The line of a field, without its line end. -/
def Field.assign (field : Field) (text : List Char) : List Char :=
  field.name.toList ++ ' ' :: '=' :: ' ' :: text

theorem content_assign (field : Field) {x : Float32} {text : List Char} (h : Written x text) :
    Content (field.assign text) (field.assign text) := by
  have plain := h.isPlain
  have last : (field.assign text).getLast? = text.getLast? := by
    have whole : field.assign text = (field.name.toList ++ [' ', '=', ' ']) ++ text := by
      rw [List.append_assoc]
      rfl
    rw [whole, List.getLast?_append_of_ne_nil _ h.ne_nil]
  apply content_iff.2
  constructor
  · apply trim_eq_self
    · cases field <;> rintro c ⟨⟩ <;> rfl
    · intro c hc
      rw [last] at hc
      exact isBlank_of_isPlain (plain c (List.mem_of_mem_getLast? hc))
  · cases field <;> rfl

theorem assigns_assign (field : Field) {x : Float32} {text : List Char} (h : Written x text) :
    Assigns (field.assign text) field x := by
  obtain ⟨literal, reads, rfl⟩ := h.read?
  have split : field.assign text = (field.name.toList ++ [' ']) ++ '=' :: ' ' :: text := by
    rw [Field.assign, List.append_assoc]
    rfl
  have first : '=' ∉ field.name.toList ++ [' '] := by
    cases field <;> decide
  have known : Field.ofName? (String.ofList field.name.toList) = some field := by
    rw [String.ofList_toList, ofName?_name]
  exact .intro ⟨split ▸ content_assign field h, first⟩ (bareName_eq_iff.1 (bareName_name field))
    (ofName?_eq_some_iff.1 known) (bareValue_eq_iff.1 (bareValue_written h))
    (Literal.read?_eq_some_iff.1 reads)

theorem newline_notMem_assign (field : Field) {x : Float32} {text : List Char}
    (h : Written x text) : '\n' ∉ field.assign text := by
  intro inside
  rcases List.mem_append.1 inside with name | value
  · revert name
    cases field <;> decide
  · simp only [List.mem_cons] at value
    rcases value with e | e | e | value
    · exact absurd e (by decide)
    · exact absurd e (by decide)
    · exact absurd e (by decide)
    · exact absurd (h.isPlain _ value) (by decide)

theorem toList_line (field : Field) (value : Float32) :
    (field.line value).toList = field.assign (style.write value) ++ ['\n'] := by
  rw [Field.line, String.toList_append, String.toList_append, String.toList_append,
    String.toList_ofList, String.toList_ofList, Field.assign, List.append_assoc field.name.toList]
  rfl

/-- A remark that is trimmed is still a remark. -/
theorem remark_comment (text : List Char) : Remark ('/' :: '/' :: text) := by
  refine ⟨'/' :: '/' :: dropEndWhile isBlank text, trim_eq_iff.1 ?_, .inr ⟨_, rfl⟩⟩
  rw [trim_cons_of_not_blank rfl, dropEndWhile_cons rfl]

/-- Whole lines take the parameters from one set to the next, whatever follows them. -/
def Reads (before after : Params) (text : List Char) : Prop :=
  ∀ number rest, ∃ next,
    before.readLines number (lines (text ++ rest)) = after.readLines next (lines rest)

namespace Reads

theorem nil (params : Params) : Reads params params [] :=
  fun number _ => ⟨number, rfl⟩

theorem append {before between after : Params} {text more : List Char}
    (h : Reads before between text) (h' : Reads between after more) :
    Reads before after (text ++ more) := by
  intro number rest
  obtain ⟨next, first⟩ := h number (more ++ rest)
  obtain ⟨last, second⟩ := h' next rest
  exact ⟨last, by rw [List.append_assoc, first, second]⟩

theorem line {before after : Params} {line : List Char} (whole : '\n' ∉ line)
    (h : before.readLine line = .ok after) : Reads before after (line ++ ['\n']) := by
  intro number rest
  refine ⟨number + 1, ?_⟩
  rw [List.append_assoc, List.singleton_append, lines_line_append whole, readLines, h]

theorem blank (params : Params) : Reads params params ['\n'] :=
  @line params params [] (by decide) rfl

theorem remark (params : Params) {text : List Char} (whole : '\n' ∉ text) :
    Reads params params ('/' :: '/' :: text ++ ['\n']) := by
  apply line _ (readLine_of_remark params (remark_comment text))
  simpa using whole

theorem parse {params : Params} {text : List Char} (h : Reads zero params text) :
    Params.parse text = .ok params := by
  obtain ⟨next, last⟩ := h 1 []
  rw [List.append_nil] at last
  exact last

/-- The written line of a field sets this field. -/
theorem field_line (params : Params) (field : Field) (value : Float32) :
    Reads params (params.set field value) (field.line value).toList := by
  have written := Written.write style rfl value
  rw [toList_line]
  exact line (newline_notMem_assign field written)
    (readLine_of_assigns params (assigns_assign field written))

theorem field_lines (before params : Params) (fields : List Field) :
    Reads before (fields.foldl (fun read field => read.set field (params.get field)) before)
      ((fields.map fun field => field.line (params.get field)).flatMap String.toList) := by
  induction fields generalizing before with
  | nil => exact nil before
  | cons field fields ih =>
      exact (field_line before field (params.get field)).append
        (ih (before.set field (params.get field)))

/-- The text of a parameter set replaces whatever was read before. -/
theorem text (before params : Params) : Reads before params params.text.toList := by
  have lines := field_lines before params Field.all
  rw [← String.toList_join] at lines
  exact lines

end Reads

/-- A written parameter set is read back, bit for bit. -/
theorem parse_text (params : Params) : parse params.text.toList = .ok params :=
  (Reads.text zero params).parse

end WaveBus.Params
