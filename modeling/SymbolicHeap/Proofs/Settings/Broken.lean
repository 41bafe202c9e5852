/-
Settings files that are not well formed.

A file that is there and can be read, but whose bytes do not spell out a
document, is passed over with a warning, and the settings that hold anyway
are answered (`broken_file_passed_over`).  There are two exceptions, and
in both no settings are answered at all: bytes that encode no text
(`settings_not_text`), and a text whose fault is a number too long to be
read.  The latter takes a row of digits of that length in the text
(`Toml.longRow_of_parse`).
-/
import SymbolicHeap.Proofs.FileTree
import SymbolicHeap.Proofs.Toml.Reading
import SymbolicHeap.Settings.File

namespace SymbolicHeap

theorem Toml.LongRow.length {chars : List Char} (h : Toml.LongRow chars) :
    Text.maxDigits < chars.length := by
  obtain ⟨row, here, -, long⟩ := h
  exact long.trans_le (List.countP_le_length.trans here.length_le)

namespace Settings

/-- The bytes spell out a document. -/
def WellFormed (content : ByteArray) : Prop :=
  ∃ text fields, content = String.toUTF8 text ∧ Toml.parse text = .ok fields

theorem fromUTF8?_toUTF8 (text : String) : String.fromUTF8? text.toUTF8 = some text := by
  unfold String.fromUTF8?
  rw [String.toUTF8_eq_toByteArray, dif_pos text.isValidUTF8]
  rfl

theorem eq_toUTF8_of_fromUTF8? {content : ByteArray} {text : String}
    (h : String.fromUTF8? content = some text) : content = text.toUTF8 := by
  unfold String.fromUTF8? at h
  split at h
  next =>
    cases h
    rfl
  next => cases h

section

variable {place : Place} {tree : FileTree} {file start : Option Path} {path : Path}
  {content : ByteArray}

/-- A file that is chosen and can be read is where the settings come from. -/
theorem load_of_read (log : Logger)
    (chosen : file = some path ∨ file = none ∧ find place start = .ok (some path))
    (readable : place.tree.read path = .ok content) :
    load place file start log
      = ((loadFile place.tree path log).1.mapError .unusable,
        (loadFile place.tree path log).2) := by
  have source : source? place file start = .ok (some path) := by
    have present := FileTree.contains_of_read readable
    unfold source?
    rcases chosen with rfl | ⟨rfl, found⟩
    · rw [Option.isSome_some, if_pos rfl]
      exact bind_eq_ok.2 ⟨some path, rfl, bind_eq_ok.2 ⟨true, present, rfl⟩⟩
    · rw [Option.isSome_none, if_neg Bool.false_ne_true]
      exact bind_eq_ok.2 ⟨some path, found, bind_eq_ok.2 ⟨true, present, rfl⟩⟩
  unfold load
  rw [source]

theorem readData_not_text (readable : tree.read path = .ok content)
    (h : ∀ text : String, content ≠ text.toUTF8) : readData tree path = .error .notText := by
  unfold readData
  rw [readable]
  dsimp only
  cases decoded : String.fromUTF8? content with
  | none => rfl
  | some text => exact absurd (eq_toUTF8_of_fromUTF8? decoded) (h text)

theorem readData_of_text {text : String} (readable : tree.read path = .ok text.toUTF8) :
    readData tree path = match Toml.parse text with
      | .ok fields => .ok (.ok (.record fields))
      | .error .tooManyDigits => .error .notANumber
      | .error fault => .ok (.error (.malformed fault)) := by
  unfold readData
  rw [readable]
  dsimp only
  split
  next undecoded =>
    rw [fromUTF8?_toUTF8] at undecoded
    cases undecoded
  next decoded =>
    rw [fromUTF8?_toUTF8] at decoded
    cases decoded
    rfl

theorem readData_parsed {text : String} {fields : Toml.Fields}
    (readable : tree.read path = .ok text.toUTF8) (parsed : Toml.parse text = .ok fields) :
    readData tree path = .ok (.ok (.record fields)) := by
  rw [readData_of_text readable, parsed]

theorem readData_malformed {text : String} {fault : Toml.Fault}
    (readable : tree.read path = .ok text.toUTF8) (broken : Toml.parse text = .error fault)
    (short : fault ≠ .tooManyDigits) :
    readData tree path = .ok (.error (.malformed fault)) := by
  rw [readData_of_text readable, broken]
  split
  next h => cases h
  next h =>
    cases h
    exact absurd rfl short
  next h =>
    cases h
    rfl

theorem readData_too_long {text : String} (readable : tree.read path = .ok text.toUTF8)
    (broken : Toml.parse text = .error .tooManyDigits) :
    readData tree path = .error .notANumber := by
  rw [readData_of_text readable, broken]

/-- A text that is not well formed leaves the settings that hold anyway. -/
theorem loadFile_malformed {text : String} {fault : Toml.Fault} (log : Logger)
    (readable : tree.read path = .ok text.toUTF8) (broken : Toml.parse text = .error fault)
    (short : fault ≠ .tooManyDigits) :
    loadFile tree path log = (.ok { file := some path, root := some path.parent },
      log.warning s!"Failed to parse config file {path.render}: {fault.message}") := by
  unfold loadFile
  rw [readData_malformed readable broken short]
  rfl

theorem loadFile_of_error {fault : Fault} (log : Logger)
    (h : readData tree path = .error fault) :
    loadFile tree path log = (.error fault, log) := by
  unfold loadFile
  rw [h]

end

/-- Whatever bytes a settings file holds that do not spell out a document:
if they encode a text in which no row of digits is too long, the settings
that hold anyway are answered, with the file and its directory, and a
warning is written; if they encode no text, there is no answer.  Other
than that there is none only where a row of digits is too long; without an
answer nothing is written. -/
theorem broken_file_passed_over (place : Place) (file start : Option Path) (log : Logger)
    {path : Path} {content : ByteArray}
    (chosen : file = some path ∨ file = none ∧ find place start = .ok (some path))
    (readable : place.tree.read path = .ok content) (broken : ¬ WellFormed content) :
    (∀ text : String, content = text.toUTF8 → ¬ Toml.LongRow text.toList →
      ∃ fault, Toml.parse text = .error fault ∧
        load place file start log = (.ok { file := some path, root := some path.parent },
          log.warning s!"Failed to parse config file {path.render}: {fault.message}")) ∧
    ((∀ text : String, content ≠ text.toUTF8) →
      load place file start log = (.error (.unusable .notText), log)) ∧
    ∀ fault, (load place file start log).1 = .error fault →
      (load place file start log).2 = log ∧ ((∀ text : String, content ≠ text.toUTF8) ∨
        ∃ text : String, content = text.toUTF8 ∧ Toml.LongRow text.toList) := by
  rw [load_of_read log chosen readable]
  have passed : ∀ (text : String) (fault : Toml.Fault), content = text.toUTF8 →
      Toml.parse text = .error fault → fault ≠ .tooManyDigits →
      loadFile place.tree path log = (.ok { file := some path, root := some path.parent },
        log.warning s!"Failed to parse config file {path.render}: {fault.message}") := by
    rintro text fault rfl failed short
    exact loadFile_malformed log readable failed short
  have faulty : ∀ text : String, content = text.toUTF8 →
      ∃ fault, Toml.parse text = .error fault := by
    intro text encoded
    cases parsed : Toml.parse text with
    | error fault => exact ⟨fault, rfl⟩
    | ok fields => exact absurd ⟨text, fields, encoded, parsed⟩ broken
  refine ⟨fun text encoded short => ?_, fun noText => ?_, fun fault failed => ?_⟩
  · obtain ⟨fault, parsed⟩ := faulty text encoded
    refine ⟨fault, parsed, ?_⟩
    rw [passed text fault encoded parsed]
    · rfl
    · rintro rfl
      exact short (Toml.longRow_of_parse parsed)
  · rw [loadFile_of_error log (readData_not_text readable noText)]
    rfl
  · by_cases noText : ∀ text : String, content ≠ text.toUTF8
    · rw [loadFile_of_error log (readData_not_text readable noText)]
      exact ⟨rfl, .inl noText⟩
    · obtain ⟨text, encoded⟩ := not_forall_not.1 noText
      obtain ⟨found, parsed⟩ := faulty text encoded
      by_cases long : found = .tooManyDigits
      · subst long encoded
        rw [loadFile_of_error log (readData_too_long readable parsed)]
        exact ⟨rfl, .inr ⟨text, rfl, Toml.longRow_of_parse parsed⟩⟩
      · rw [passed text found encoded parsed long] at failed
        cases failed

/-- A header that is not closed. -/
theorem broken_file_passed_over_header :
    let tree : FileTree := ⟨⟨[(["w"], .directory),
      (["w", "symir.toml"], .file (String.toUTF8 "[tool"))]⟩⟩
    load ⟨tree, ["home"], ["w"]⟩ none none {}
      = (.ok { file := some ["w", "symir.toml"], root := some ["w"] },
        Logger.warning {}
          "Failed to parse config file /w/symir.toml: unexpected end of the document") := by
  intro tree
  have failed : Toml.parse "[tool" = .error .unexpectedEnd := rfl
  have broken : ¬ WellFormed (String.toUTF8 "[tool") := by
    rintro ⟨text, fields, same, parsed⟩
    rw [← String.toByteArray_inj.1 same, failed] at parsed
    cases parsed
  obtain ⟨passed, -⟩ := broken_file_passed_over ⟨tree, ["home"], ["w"]⟩ none none {}
    (.inr ⟨rfl, rfl⟩) rfl broken
  obtain ⟨fault, parsed, loaded⟩ := passed "[tool" rfl fun long => absurd long.length (by decide)
  rw [failed] at parsed
  cases parsed
  exact loaded

/-- A file of one byte that encodes no text keeps all settings back. -/
theorem settings_not_text :
    let tree : FileTree := ⟨⟨[(["w"], .directory), (["w", "symir.toml"], .file ⟨#[0xff]⟩)]⟩⟩
    ¬ WellFormed ⟨#[0xff]⟩ ∧ tree.read ["w", "symir.toml"] = .ok ⟨#[0xff]⟩ ∧
      load ⟨tree, ["home"], ["w"]⟩ (some ["w", "symir.toml"]) none {}
        = (.error (.unusable .notText), {}) := by
  have undecoded : String.fromUTF8? ⟨#[0xff]⟩ = none := rfl
  refine ⟨?_, rfl, rfl⟩
  rintro ⟨text, fields, encoded, -⟩
  rw [encoded, fromUTF8?_toUTF8] at undecoded
  cases undecoded

end Settings

end SymbolicHeap
