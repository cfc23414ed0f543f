import WaveBus.Files

/-! # Writing one file

A write needs a directory that is already there, and puts a file below it. So what
stands at any other place stays, and the path that was written leads to the new file.
-/

namespace WaveBus.Files

open Location

theorem bind_eq_ok {ε α β : Type} {first : Except ε α} {next : α → Except ε β} {result : β} :
    (first >>= next) = .ok result ↔ ∃ value, first = .ok value ∧ next value = .ok result := by
  cases first with
  | error fault =>
      constructor
      · rintro ⟨⟩
      · rintro ⟨value, ⟨⟩, -⟩
  | ok value =>
      constructor
      · exact fun h => ⟨value, rfl, h⟩
      · rintro ⟨_, ⟨⟩, h⟩
        exact h

/-- Whether a place is a directory, unless a file stands there. -/
def spans (fs : Files) (place : Location) : Bool :=
  place.encloses || fs.directories.any place.isPrefixOf
    || fs.files.any (fun (held, _) => place.isPrefixOf held)

theorem entry_of_lookup {fs : Files} {place : Location} {bytes : ByteArray}
    (held : fs.files.lookup place = some bytes) : fs.entry place = .file bytes := by
  rw [entry, held]

theorem entry_of_none {fs : Files} {place : Location} (free : fs.files.lookup place = none) :
    fs.entry place = if fs.spans place then .directory else .missing := by
  rw [entry, free]
  rfl

theorem spans_of_directory {fs : Files} {place : Location} (h : fs.entry place = .directory) :
    fs.spans place = true := by
  cases held : fs.files.lookup place with
  | some bytes =>
      rw [entry_of_lookup held] at h
      exact absurd h (by simp)
  | none =>
      rw [entry_of_none held] at h
      split at h
      next spanned => exact spanned
      next => exact absurd h (by simp)

theorem encloses_above {upper place : Location} (above : upper <+: place)
    (h : place.encloses = true) : upper.encloses = true := by
  rw [encloses, Bool.or_eq_true, beq_iff_eq] at h
  rcases h with out | rfl
  · rw [encloses, Bool.or_eq_true]
    left
    rw [List.all_eq_true] at out ⊢
    exact fun name inside => out name (above.subset inside)
  · have root : upper <+: [] ++ ["/"] := above
    rcases List.prefix_concat_iff.1 root with rfl | empty
    · rfl
    · rw [List.prefix_nil.1 empty]
      rfl

theorem spans_above {fs : Files} {upper place : Location} (above : upper <+: place)
    (h : fs.spans place = true) : fs.spans upper = true := by
  simp only [spans, Bool.or_eq_true, List.any_eq_true, List.isPrefixOf_iff_prefix] at h ⊢
  rcases h with (h | ⟨directory, held, below⟩) | ⟨file, held, below⟩
  · exact .inl (.inl (encloses_above above h))
  · exact .inl (.inr ⟨directory, held, above.trans below⟩)
  · exact .inr ⟨file, held, above.trans below⟩

section Put

variable {fs : Files} {place other : Location} {bytes : ByteArray}

theorem lookup_put_self : (fs.put place bytes).files.lookup place = some bytes :=
  List.lookup_cons_self

theorem lookup_put_of_ne (ne : other ≠ place) :
    (fs.put place bytes).files.lookup other = fs.files.lookup other := by
  have apart : (other == place) = false := beq_eq_false_iff_ne.2 ne
  rw [put, List.lookup_cons, apart]
  dsimp only
  induction fs.files with
  | nil => rfl
  | cons file files ih =>
      obtain ⟨held, text⟩ := file
      by_cases same : held = place
      · have skipped : (other == held) = false := by rw [same]; exact apart
        rw [List.filter_cons_of_neg (by simp [same]), List.lookup_cons, skipped, ih]
      · rw [List.filter_cons_of_pos (by simp [same]), List.lookup_cons, List.lookup_cons, ih]

theorem entry_put_self : (fs.put place bytes).entry place = .file bytes :=
  entry_of_lookup lookup_put_self

/-- A file below a directory that is there makes no place a directory that was none. -/
theorem spans_put {directory : Location} {name : String} (ready : fs.spans directory = true)
    (ne : other ≠ directory ++ [name]) :
    (fs.put (directory ++ [name]) bytes).spans other = fs.spans other := by
  rw [Bool.eq_iff_iff]
  simp only [spans, put, Bool.or_eq_true, List.any_eq_true, List.mem_cons, List.mem_filter,
    List.isPrefixOf_iff_prefix, bne_iff_ne]
  constructor
  · rintro (h | ⟨file, rfl | ⟨held, -⟩, above⟩)
    · exact .inl h
    · -- What lies above the new file lies above its directory, which was there.
      rcases List.prefix_concat_iff.1 above with same | above
      · exact absurd same ne
      · have reached := spans_above above ready
        simpa only [spans, Bool.or_eq_true, List.any_eq_true, List.isPrefixOf_iff_prefix]
          using reached
    · exact .inr ⟨file, held, above⟩
  · rintro (h | ⟨file, held, above⟩)
    · exact .inl h
    · by_cases same : file.1 = directory ++ [name]
      · exact .inr ⟨(directory ++ [name], bytes), .inl rfl, same ▸ above⟩
      · exact .inr ⟨file, .inr ⟨held, same⟩, above⟩

theorem entry_put_of_ne {directory : Location} {name : String} (ready : fs.spans directory = true)
    (ne : other ≠ directory ++ [name]) :
    (fs.put (directory ++ [name]) bytes).entry other = fs.entry other := by
  have kept : (fs.put (directory ++ [name]) bytes).files.lookup other = fs.files.lookup other :=
    lookup_put_of_ne ne
  cases held : fs.files.lookup other with
  | some text =>
      rw [held] at kept
      rw [entry_of_lookup held, entry_of_lookup kept]
  | none =>
      rw [held] at kept
      rw [entry_of_none held, entry_of_none kept, spans_put ready ne]

end Put

theorem enter_eq_ok {fs : Files} {place : Location} :
    fs.enter place = .ok () ↔ fs.entry place = .directory := by
  rw [enter]
  cases fs.entry place <;> simp

theorem follow_eq_ok {fs : Files} {place next : Location} {name : String} :
    fs.follow place name = .ok next ↔
      fs.entry place = .directory ∧ name.utf8ByteSize ≤ maxNameSize ∧ place.step name = next := by
  rw [follow, bind_eq_ok]
  constructor
  · rintro ⟨⟨⟩, entered, taken⟩
    split at taken
    next => exact absurd taken (by rintro ⟨⟩)
    next short => exact ⟨enter_eq_ok.1 entered, Nat.not_lt.1 short, Except.ok.inj taken⟩
  · rintro ⟨there, short, rfl⟩
    refine ⟨(), enter_eq_ok.2 there, ?_⟩
    rw [if_neg (Nat.not_lt.2 short)]
    rfl

theorem walk_append {fs : Files} {place : Location} {first last : List String} :
    fs.walk place (first ++ last) = fs.walk place first >>= fun reached => fs.walk reached last := by
  induction first generalizing place with
  | nil => rfl
  | cons name first ih =>
      rw [List.cons_append, walk, walk]
      cases fs.follow place name with
      | error cause => rfl
      | ok next => exact ih

/-- Where every directory stays one, every walk leads where it led. -/
theorem walk_of_directories {fs after : Files}
    (kept : ∀ place, fs.entry place = .directory → after.entry place = .directory)
    {place reached : Location} {names : List String} (h : fs.walk place names = .ok reached) :
    after.walk place names = .ok reached := by
  induction names generalizing place with
  | nil => exact h
  | cons name names ih =>
      rw [walk, bind_eq_ok] at h ⊢
      obtain ⟨next, followed, rest⟩ := h
      obtain ⟨there, short⟩ := follow_eq_ok.1 followed
      exact ⟨next, follow_eq_ok.2 ⟨kept place there, short⟩, ih rest⟩

/-- What a write has found when it succeeds: the last name of its path, in a directory. -/
structure Writable (fs : Files) (path : String) (directory : Location) (name : String) : Prop where
  checked : checkPath path = .ok ()
  walked : fs.walk (Location.start path) (Location.names path) = .ok (directory ++ [name])
  ready : fs.entry directory = .directory
  free : fs.entry (directory ++ [name]) ≠ .directory

theorem step_plainName {directory : Location} {name : String}
    (plain : name ≠ "" ∧ name ≠ "." ∧ name ≠ "..") : directory.step name = directory ++ [name] := by
  obtain ⟨some, dot, dots⟩ := plain
  rw [Location.step, if_neg (by simpa using ⟨some, dot⟩), if_neg (by simpa using dots)]

theorem exists_lastName {names : List String} (h : names.getLastD "" ≠ "") :
    ∃ front name, names = front ++ [name] ∧ name ≠ "" := by
  rcases List.eq_nil_or_concat names with rfl | ⟨front, name, rfl⟩
  · exact absurd rfl h
  · rw [List.concat_eq_append, List.getLastD_concat] at h
    exact ⟨front, name, List.concat_eq_append, h⟩

/-- Without a separator at its end a path keeps all its names. -/
theorem named_eq_self {front : List String} {name : String} (some : name ≠ "") :
    ((front ++ [name]).reverse.dropWhile String.isEmpty).reverse = front ++ [name] := by
  have filled : ¬ name.isEmpty = true := by simpa using some
  rw [List.reverse_append, List.reverse_singleton, List.singleton_append,
    List.dropWhile_cons_of_neg filled, List.reverse_cons, List.reverse_reverse]

theorem put_of_entry {fs after : Files} {place : Location} {bytes : ByteArray}
    (h : (match fs.entry place with
      | .directory => throw FileError.isDirectory
      | _ => pure (fs.put place bytes) : Except FileError Files) = .ok after) :
    fs.entry place ≠ .directory ∧ after = fs.put place bytes := by
  cases found : fs.entry place with
  | directory =>
      rw [found] at h
      exact absurd h (by rintro ⟨⟩)
  | file | missing =>
      rw [found] at h
      exact ⟨by rintro ⟨⟩, (Except.ok.inj h).symm⟩

theorem writable_of_write {fs after : Files} {path : String} {bytes : ByteArray}
    (h : fs.write path bytes = .ok after) :
    ∃ directory name, fs.Writable path directory name ∧
      after = fs.put (directory ++ [name]) bytes := by
  rw [write, bind_eq_ok] at h
  obtain ⟨⟨⟩, checked, h⟩ := h
  rw [bind_eq_ok] at h
  obtain ⟨directory, walked, h⟩ := h
  rw [bind_eq_ok] at h
  obtain ⟨⟨⟩, -, h⟩ := h
  split at h
  next => exact absurd h (by rintro ⟨⟩)
  next plain =>
    rw [bind_eq_ok] at h
    obtain ⟨place, followed, h⟩ := h
    simp only [Bool.or_eq_true, beq_iff_eq, not_or] at plain
    obtain ⟨⟨last, dot⟩, dots⟩ := plain
    obtain ⟨front, name, all, some⟩ := exists_lastName last
    rw [all, named_eq_self some, List.getLastD_concat] at followed dot dots
    rw [all, named_eq_self some, List.dropLast_concat] at walked
    have led : directory.step name = directory ++ [name] := step_plainName ⟨some, dot, dots⟩
    have ⟨ready, _, stepped⟩ := follow_eq_ok.1 followed
    obtain rfl : directory ++ [name] = place := led.symm.trans stepped
    obtain ⟨free, rfl⟩ := put_of_entry h
    have reached : fs.walk (Location.start path) (names path) = .ok (directory ++ [name]) := by
      rw [all, walk_append, bind_eq_ok]
      refine ⟨directory, walked, ?_⟩
      rw [walk, followed]
      rfl
    exact ⟨directory, name, ⟨checked, reached, ready, free⟩, rfl⟩

/-- A file that is written stands where its path leads, and all else stays. -/
theorem write_frame {fs after : Files} {path : String} {bytes : ByteArray}
    (h : fs.write path bytes = .ok after) :
    ∃ place, fs.walk (Location.start path) (Location.names path) = .ok place ∧
      after.entry place = .file bytes ∧
      ∀ other, other ≠ place → after.entry other = fs.entry other := by
  obtain ⟨directory, name, writable, rfl⟩ := writable_of_write h
  exact ⟨directory ++ [name], writable.walked, entry_put_self,
    fun _ => entry_put_of_ne (spans_of_directory writable.ready)⟩

theorem read_of_write {fs after : Files} {path : String} {bytes : ByteArray}
    (h : fs.write path bytes = .ok after) : after.read path = .ok bytes := by
  obtain ⟨directory, name, writable, rfl⟩ := writable_of_write h
  -- The walk passes directories only, and no directory stood where the file was put.
  have kept : ∀ place, fs.entry place = .directory →
      (fs.put (directory ++ [name]) bytes).entry place = .directory := by
    intro place there
    rw [entry_put_of_ne (spans_of_directory writable.ready) fun e => writable.free (e ▸ there)]
    exact there
  rw [read, writable.checked, bind_eq_ok]
  refine ⟨(), rfl, ?_⟩
  rw [walk_of_directories kept writable.walked, bind_eq_ok]
  refine ⟨directory ++ [name], rfl, ?_⟩
  rw [entry_put_self]
  rfl

theorem textOf_toUTF8 (text : String) : textOf text.toUTF8 = .ok text := by
  have valid : String.fromUTF8? text.toUTF8 = some text := by
    rw [String.fromUTF8?]
    exact dif_pos text.isValidUTF8
  rw [textOf, valid]

theorem readText_of_write {fs after : Files} {path text : String}
    (h : fs.write path text.toUTF8 = .ok after) : (after.read path >>= textOf) = .ok text := by
  rw [read_of_write h, bind_eq_ok]
  exact ⟨_, rfl, textOf_toUTF8 text⟩

end WaveBus.Files
