import WaveBus.Proofs.Fit.Moves
import WaveBus.Proofs.Params.Reading

/-! # The transcript of a fit

What a fit writes is a sequence of blocks. All lines but those of parameters are
remarks, so reading the whole transcript gives the parameters of the last improvement.
Its score can be read off the last remark about a score.
-/

namespace WaveBus

/-- A block that a search writes. -/
inductive Block where
  | opening (score : Nat)
  | improved (improvement : Improvement)

namespace Block

def text : Block → String
  | opening score => s!"// initial score {score}\n"
  | improved improvement => improvement.text

def improvement? : Block → Option Improvement
  | opening _ => none
  | improved improvement => some improvement

end Block

/-- The block that the next move of a search writes, not yet as text. -/
def Runner.pending? (runner : Runner) : Option Block :=
  match runner.phase with
  | .announcing => some (.opening runner.search.initialScore)
  | .writing improvement => some (.improved improvement)
  | _ => none

theorem Runner.block?_eq (runner : Runner) : runner.block? = runner.pending?.map Block.text := by
  obtain ⟨search, phase⟩ := runner
  cases phase <;> rfl

/-- What a search writes that finds some improvements, from its initial score on. -/
def Search.blocks (search : Search) (found : List Improvement) : List Block :=
  .opening search.initialScore :: found.map .improved

/-- A block as it stands in an output, with or without the tag of its wave. -/
structure Entry where
  tagged : Bool
  wave : Wave
  block : Block

namespace Entry

def text (entry : Entry) : String :=
  Fit.framed entry.tagged entry.wave entry.block.text

end Entry

/-- The output that is made of some entries. -/
def transcript (entries : List Entry) : String :=
  String.join (entries.map Entry.text)

namespace Fit

variable {fit : Fit}

/-- A move that writes adds the block of the search that moves. -/
theorem blocks_move_eq {i : Nat} {runner : Runner} {written : Bool}
    (there : fit.runners[i]? = some runner) :
    (fit.move i written).blocks = fit.blocks ++ ((if written then runner.pending?.toList else []).map
      (Entry.mk fit.tagged runner.search.wave)).map Entry.text := by
  rw [blocks_move there, block?_of_some there, runner.block?_eq]
  cases written with
  | false => rfl
  | true => cases runner.pending? <;> rfl

/-- Nothing but entries is ever written. -/
theorem exists_transcript (accepts : Nat → Bool) (searches : List Search) (schedule : List Step) :
    ∃ entries, ((start searches).follow accepts schedule).output = transcript entries := by
  have logged : ∃ entries : List Entry,
      ((start searches).follow accepts schedule).blocks = entries.map Entry.text := by
    refine follow_induction (P := fun fit => ∃ entries : List Entry,
      fit.blocks = entries.map Entry.text) ?_ (fun _ h => h) schedule ⟨[], rfl⟩
    rintro fit i ⟨entries, blocks⟩
    cases there : fit.runners[i]? with
    | none => exact ⟨entries, by rw [move_of_none there, blocks]⟩
    | some runner => exact ⟨_, by rw [blocks_move_eq there, blocks, ← List.map_append]⟩
  obtain ⟨entries, blocks⟩ := logged
  exact ⟨entries, congrArg String.join blocks⟩

end Fit

def improvements (entries : List Entry) : List Improvement :=
  entries.filterMap fun entry => entry.block.improvement?

/-- The parameters of the last improvement; every number zero if there is none. -/
def latest (found : List Improvement) : Params :=
  match found.getLast? with
  | none => .zero
  | some improvement => improvement.params

/-- The score that a line remarks, if it is a remark about a current score. -/
def remarkedScore? (line : List Char) : Option Nat :=
  let opening := "// current score ".toList
  if opening.isPrefixOf line then Numeral.read? (line.drop opening.length) else none

/-- The number in the last remark about a current score. -/
def lastScore? (text : List Char) : Option Nat :=
  ((Text.lines text).filterMap remarkedScore?).getLast?

open Text

/-- Whole lines remark some scores in turn, whatever follows them. -/
def Remarks (scores : List Nat) (text : List Char) : Prop :=
  ∀ rest, (lines (text ++ rest)).filterMap remarkedScore? =
    scores ++ (lines rest).filterMap remarkedScore?

namespace Remarks

theorem nil : Remarks [] [] := fun _ => rfl

theorem append {scores more : List Nat} {text rest : List Char} (h : Remarks scores text)
    (h' : Remarks more rest) : Remarks (scores ++ more) (text ++ rest) := by
  intro behind
  rw [List.append_assoc, h, h', List.append_assoc]

theorem line {line : List Char} (whole : '\n' ∉ line) :
    Remarks (remarkedScore? line).toList (line ++ ['\n']) := by
  intro rest
  rw [List.append_assoc, List.singleton_append, lines_line_append whole, List.filterMap_cons]
  cases remarkedScore? line <;> rfl

theorem field_line (field : Params.Field) (value : Float32) :
    Remarks [] (field.line value).toList := by
  have written := Written.write Params.style rfl value
  have silent : remarkedScore? (field.assign (Params.style.write value)) = none := by
    cases field <;> rfl
  have whole := line (Params.newline_notMem_assign field written)
  rw [silent] at whole
  rw [Params.toList_line]
  exact whole

theorem field_lines (params : Params) (fields : List Params.Field) :
    Remarks []
      ((fields.map fun field => field.line (params.get field)).flatMap String.toList) := by
  induction fields with
  | nil => exact nil
  | cons field fields ih => exact (field_line field (params.get field)).append ih

theorem params (params : Params) : Remarks [] params.text.toList := by
  have lines := field_lines params Params.Field.all
  rw [← String.toList_join] at lines
  exact lines

theorem lastScore? {scores : List Nat} {text : List Char} (h : Remarks scores text) :
    lastScore? text = scores.getLast? := by
  have all := h []
  rw [List.append_nil] at all
  rw [WaveBus.lastScore?, all]
  exact congrArg List.getLast? (List.append_nil scores)

end Remarks

/-- What one part of a transcript does to a reader: the parameters, and the scores remarked. -/
structure Tells (text : List Char) (before after : Params) (scores : List Nat) : Prop where
  reads : Params.Reads before after text
  remarks : Remarks scores text

namespace Tells

theorem append {text more : List Char} {before between after : Params} {scores others : List Nat}
    (h : Tells text before between scores) (h' : Tells more between after others) :
    Tells (text ++ more) before after (scores ++ others) :=
  ⟨h.reads.append h'.reads, h.remarks.append h'.remarks⟩

theorem blank (params : Params) : Tells ['\n'] params params [] :=
  ⟨.blank params, @Remarks.line [] (by decide)⟩

theorem remark (params : Params) {text : List Char} (whole : '\n' ∉ text) :
    Tells ('/' :: '/' :: text ++ ['\n']) params params
      (remarkedScore? ('/' :: '/' :: text)).toList := by
  refine ⟨.remark params whole, Remarks.line ?_⟩
  simpa using whole

theorem numbered (params : Params) (words : List Char) (whole : '\n' ∉ words) (n : Nat) :
    Tells ('/' :: '/' :: words ++ Nat.toDigits 10 n ++ ['\n']) params params
      (remarkedScore? ('/' :: '/' :: words ++ Nat.toDigits 10 n)).toList := by
  refine remark params fun inside => ?_
  rcases List.mem_append.1 inside with inside | inside
  · exact whole inside
  · exact absurd (Layout.isDigit_toDigits n _ inside) (by decide)

theorem toList_numbered (words : String) (n : Nat) :
    (words ++ toString n ++ "\n").toList = words.toList ++ Nat.toDigits 10 n ++ ['\n'] := by
  rw [String.toList_append, String.toList_append, Nat.toString_eq_repr, Nat.toList_repr]
  rfl

theorem tag (params : Params) (wave : Wave) :
    Tells ("// wave " ++ toString wave.code ++ "\n").toList params params [] := by
  rw [toList_numbered]
  exact numbered params " wave ".toList (by decide) wave.code

theorem opening (params : Params) (score : Nat) :
    Tells (Block.opening score).text.toList params params [] := by
  show Tells ("// initial score " ++ toString score ++ "\n").toList params params []
  rw [toList_numbered]
  exact numbered params " initial score ".toList (by decide) score

theorem params (before params : Params) : Tells params.text.toList before params [] :=
  ⟨.text before params, .params params⟩

theorem remarkedScore?_current (n : Nat) :
    remarkedScore? ("// current score ".toList ++ Nat.toDigits 10 n) = some n := by
  have begins : "// current score ".toList.isPrefixOf
      ("// current score ".toList ++ Nat.toDigits 10 n) = true :=
    List.isPrefixOf_iff_prefix.2 (List.prefix_append _ _)
  rw [remarkedScore?, if_pos begins, List.drop_left]
  exact Numeral.read?_toDigits n

theorem improvement (before : Params) (improvement : Improvement) :
    Tells improvement.text.toList before improvement.params [improvement.score] := by
  have score : Tells ("// current score ".toList ++ Nat.toDigits 10 improvement.score ++ ['\n'])
      before before (remarkedScore? ("// current score ".toList ++
        Nat.toDigits 10 improvement.score)).toList :=
    numbered before " current score ".toList (by decide) improvement.score
  have split : improvement.text = ("// current score " ++ toString improvement.score ++ "\n") ++
      improvement.params.text := rfl
  rw [remarkedScore?_current] at score
  rw [split, String.toList_append, toList_numbered]
  exact score.append (params before improvement.params)

theorem framed (tagged : Bool) (wave : Wave) {block : String} {before after : Params}
    {scores : List Nat} (h : Tells block.toList before after scores) :
    Tells (Fit.framed tagged wave block).toList before after scores := by
  have ended := h.append (blank after)
  rw [List.append_nil] at ended
  cases tagged with
  | false =>
      show Tells (block ++ "\n").toList before after scores
      rw [String.toList_append]
      exact ended
  | true =>
      show Tells ("// wave " ++ toString wave.code ++ "\n" ++ block ++ "\n").toList before after scores
      rw [String.toList_append, String.toList_append, List.append_assoc]
      exact (tag before wave).append ended

end Tells

theorem improvements_append (entries more : List Entry) :
    improvements (entries ++ more) = improvements entries ++ improvements more :=
  List.filterMap_append

theorem latest_append_singleton (found : List Improvement) (improvement : Improvement) :
    latest (found ++ [improvement]) = improvement.params := by
  rw [latest, List.getLast?_concat]

theorem Entry.tells (found : List Improvement) (entry : Entry) :
    Tells entry.text.toList (latest found) (latest (found ++ improvements [entry]))
      ((improvements [entry]).map Improvement.score) := by
  obtain ⟨tagged, wave, block⟩ := entry
  cases block with
  | opening score =>
      show Tells _ (latest found) (latest (found ++ [])) []
      rw [List.append_nil]
      exact (Tells.opening (latest found) score).framed tagged wave
  | improved improvement =>
      show Tells _ (latest found) (latest (found ++ [improvement])) [improvement.score]
      rw [latest_append_singleton]
      exact (Tells.improvement (latest found) improvement).framed tagged wave

theorem tells_transcript (entries : List Entry) :
    Tells (transcript entries).toList .zero (latest (improvements entries))
      ((improvements entries).map Improvement.score) := by
  induction entries using List.reverseRecOn with
  | nil => exact ⟨.nil _, .nil⟩
  | append_singleton entries entry ih =>
      have more := ih.append (entry.tells (improvements entries))
      rw [improvements_append, List.map_append, transcript, List.map_append, String.join_append,
        List.map_singleton, String.join_cons, String.join_nil, String.append_empty,
        String.toList_append]
      exact more

/-- A transcript is read as the parameters of its last improvement. -/
theorem parse_transcript (entries : List Entry) :
    Params.parse (transcript entries).toList = .ok (latest (improvements entries)) :=
  (tells_transcript entries).reads.parse

theorem lastScore?_transcript (entries : List Entry) :
    lastScore? (transcript entries).toList =
      (improvements entries).getLast?.map Improvement.score := by
  rw [(tells_transcript entries).remarks.lastScore?, List.getLast?_map]

end WaveBus
