/-
Settings that are written to a file and loaded again.

The lines that settings are written as lead a document from nothing to one
that says the same (`lines_lead`), as long as the time limit has not too
many digits and nothing in the level's name needs an escape, for texts are
written without any.  Settings of such a kind are loaded as they were, and
no others are (`settings_survive`): a level's name that is not plain is
broken, or is read as a text that is shorter than what was written.
-/
import SymbolicHeap.Proofs.Settings.Broken
import SymbolicHeap.Proofs.Toml.Keeps
import SymbolicHeap.Proofs.Toml.Line

namespace SymbolicHeap

namespace Settings

open Toml (Bare Line Lines lineChars Plain)

/-- Settings of the types that their use asks for. -/
def typed (timeout : Int) (assumeDistinct color verbose : Bool) (logLevel : String) : Settings where
  timeout := .int timeout
  assumeDistinct := .bool assumeDistinct
  color := .bool color
  verbose := .bool verbose
  logLevel := .text logLevel

/-- Settings show all that they are in their sections. -/
theorem sections_inj {settings other : Settings} (h : settings.sections = other.sections) :
    settings = other := by
  cases settings
  cases other
  simp only [sections, List.cons.injEq, Prod.mk.injEq, true_and, and_true] at h
  obtain ⟨rfl, rfl, rfl, rfl, rfl⟩ := h
  rfl

-- ================================================================== lines

section

variable (timeout : Int) (assumeDistinct color verbose : Bool) (logLevel : String)

/-- The header of a table of settings. -/
def headerLine (name : String) (path : List String) : String :=
  "[" ++ Toml.pathText (name :: path) ++ "]"

/-- A setting on its line. -/
def fieldLine (name : String) (value : Datum) : String := name ++ " = " ++ valueText value

/-- The lines of settings before the one of the time limit. -/
def firstLines : List String :=
  [headerLine "tool" ["symir"], "", headerLine "tool" ["symir", "solver"]]

/-- The lines that come then, before the one of the level's name. -/
def middleLines : List String :=
  [fieldLine "timeout_ms" (.int timeout), "",
    headerLine "tool" ["symir", "translation"],
    fieldLine "assume_distinct_objects" (.bool assumeDistinct), "",
    headerLine "tool" ["symir", "output"],
    fieldLine "color" (.bool color), fieldLine "verbose" (.bool verbose)]

theorem toToml_eq :
    toToml (typed timeout assumeDistinct color verbose logLevel) = "\n".intercalate
      (firstLines ++ middleLines timeout assumeDistinct color verbose
        ++ [fieldLine "log_level" (.text logLevel)] ++ [""]) :=
  rfl

/-- The table of a document with these settings, and some fields of output. -/
def table (output : Toml.Fields) : Toml.Fields :=
  [("tool", .record [("symir", .record
    [("solver", .record [("timeout_ms", .int timeout)]),
      ("translation", .record [("assume_distinct_objects", .bool assumeDistinct)]),
      ("output", .record output)])])]

/-- What the first lines lead to. -/
def opened : Toml.Document where
  fields := [("tool", .record [("symir", .record [("solver", .record [])])])]
  header := ["tool", "symir", "solver"]
  declared := [["tool", "symir", "solver"], ["tool", "symir"]]

/-- What the middle lines lead to, and that of the level. -/
def filled (output : Toml.Fields) : Toml.Document where
  fields := table timeout assumeDistinct output
  header := ["tool", "symir", "output"]
  declared := [["tool", "symir", "output"], ["tool", "symir", "translation"],
    ["tool", "symir", "solver"], ["tool", "symir"]]

end

section

variable {timeout : Int} {assumeDistinct color verbose : Bool} {logLevel : String}

theorem line_header {document after : Toml.Document} {name : String} {path : List String}
    (added : document.addHeader (name :: path) = .ok after)
    (bare : ∀ part ∈ name :: path, Bare part) : Line document (headerLine name path) after :=
  Toml.line_header bare added

theorem line_field {document after : Toml.Document} {name : String} {value : Datum}
    (spells : Toml.Spells (valueText value) value)
    (added : document.addValue [name] value = .ok after) (bare : Bare name) :
    Line document (fieldLine name value) after :=
  Toml.line_field bare spells added

theorem first_lead : Lines {} firstLines opened :=
  .cons (line_header rfl (by decide)) <|
    .cons (Toml.line_empty _) <|
      .cons (line_header rfl (by decide)) (.nil _)

theorem middle_lead (few : timeout.natAbs < 10 ^ Text.maxDigits) :
    Lines opened (middleLines timeout assumeDistinct color verbose)
      (filled timeout assumeDistinct [("color", .bool color), ("verbose", .bool verbose)]) :=
  .cons (line_field (Toml.spells_int few) rfl (by decide)) <|
    .cons (Toml.line_empty _) <|
      .cons (line_header rfl (by decide)) <|
        .cons (line_field (Toml.spells_bool assumeDistinct) rfl (by decide)) <|
          .cons (Toml.line_empty _) <|
            .cons (line_header rfl (by decide)) <|
              .cons (line_field (Toml.spells_bool color) rfl (by decide)) <|
                .cons (line_field (Toml.spells_bool verbose) rfl (by decide)) (.nil _)

theorem level_leads (plain : Plain logLevel.toList) :
    Lines (filled timeout assumeDistinct [("color", .bool color), ("verbose", .bool verbose)])
      [fieldLine "log_level" (.text logLevel)]
      (filled timeout assumeDistinct
        [("color", .bool color), ("verbose", .bool verbose), ("log_level", .text logLevel)]) :=
  .cons (line_field (Toml.spells_text plain) rfl (by decide)) (.nil _)

/-- The lines up to the one of the level's name. -/
theorem lines_lead (few : timeout.natAbs < 10 ^ Text.maxDigits) :
    Lines {} (firstLines ++ middleLines timeout assumeDistinct color verbose)
      (filled timeout assumeDistinct [("color", .bool color), ("verbose", .bool verbose)]) :=
  first_lead.append (middle_lead few)

-- ============================================================ line ends

theorem fieldLine_whole {name : String} {value : Datum} (plain : '\r' ∉ name.toList)
    (h : '\r' ∉ (valueText value).toList) : '\r' ∉ (fieldLine name value).toList := by
  unfold fieldLine
  rw [String.toList_append, String.toList_append]
  simp [plain, h]

theorem int_whole (n : Int) : '\r' ∉ (valueText (.int n)).toList := by
  have digits : ∀ n : Nat, '\r' ∉ Nat.toDigits 10 n := by
    intro n hmem
    exact absurd (Toml.isDigit_toDigits n _ hmem) (by decide)
  show '\r' ∉ (toString n).toList
  cases n with
  | ofNat n =>
      rw [Toml.toList_ofNat]
      exact digits n
  | negSucc n =>
      rw [Toml.toList_negSucc]
      exact List.not_mem_cons_of_ne_of_not_mem (by decide) (digits (n + 1))

theorem bool_whole (b : Bool) : '\r' ∉ (valueText (.bool b)).toList := by
  cases b with
  | false => decide
  | true => decide

theorem text_whole (plain : Plain logLevel.toList) :
    '\r' ∉ (valueText (.text logLevel)).toList := by
  have inside : '\r' ∉ logLevel.toList := fun hmem => absurd (plain _ hmem) (by decide)
  show '\r' ∉ ("\"" ++ logLevel ++ "\"").toList
  rw [String.toList_append, String.toList_append]
  simp [inside]

theorem firstLines_whole : ∀ line ∈ firstLines, '\r' ∉ line.toList := by
  decide

theorem middleLines_whole :
    ∀ line ∈ middleLines timeout assumeDistinct color verbose, '\r' ∉ line.toList := by
  simp only [middleLines, List.forall_mem_cons]
  exact ⟨fieldLine_whole (by decide) (int_whole timeout), by decide, by decide,
    fieldLine_whole (by decide) (bool_whole assumeDistinct), by decide, by decide,
    fieldLine_whole (by decide) (bool_whole color),
    fieldLine_whole (by decide) (bool_whole verbose), List.forall_mem_nil _⟩

-- ============================================================== documents

/-- Settings that are written plainly are what the document says. -/
theorem parse_toToml (few : timeout.natAbs < 10 ^ Text.maxDigits) (plain : Plain logLevel.toList) :
    Toml.parse (toToml (typed timeout assumeDistinct color verbose logLevel))
      = .ok (table timeout assumeDistinct
        [("color", .bool color), ("verbose", .bool verbose), ("log_level", .text logLevel)]) := by
  have whole : '\r' ∉ lineChars (firstLines ++ middleLines timeout assumeDistinct color verbose
      ++ [fieldLine "log_level" (.text logLevel)]) := by
    refine Toml.not_mem_lineChars (by decide) (List.forall_mem_append.2
      ⟨List.forall_mem_append.2 ⟨firstLines_whole, middleLines_whole⟩, ?_⟩)
    exact List.forall_mem_singleton.2 (fieldLine_whole (by decide) (text_whole plain))
  have split : (toToml (typed timeout assumeDistinct color verbose logLevel)).toList
      = lineChars (firstLines ++ middleLines timeout assumeDistinct color verbose
        ++ [fieldLine "log_level" (.text logLevel)]) ++ [] := by
    rw [toToml_eq, Toml.toList_intercalate_lines, List.append_nil]
  obtain ⟨fuel, same⟩ :=
    Toml.parse_of_lines ((lines_lead few).append (level_leads plain)) whole split
  rw [same]
  rfl

/-- A time limit with too many digits breaks the document. -/
theorem parse_toToml_too_long (many : ¬ timeout.natAbs < 10 ^ Text.maxDigits) :
    Toml.parse (toToml (typed timeout assumeDistinct color verbose logLevel))
      = .error .tooManyDigits := by
  obtain ⟨c, tail, first, starts⟩ := Toml.int_starts timeout
  obtain ⟨more, split⟩ : ∃ more,
      (toToml (typed timeout assumeDistinct color verbose logLevel)).toList = lineChars firstLines
        ++ ((fieldLine "timeout_ms" (.int timeout)).toList ++ '\n' :: more) := by
    refine ⟨lineChars ((middleLines timeout assumeDistinct color verbose).tail
      ++ [fieldLine "log_level" (.text logLevel)]), ?_⟩
    rw [toToml_eq, Toml.toList_intercalate_lines, List.append_assoc, Toml.lineChars_append]
    simp [middleLines, lineChars]
  obtain ⟨fuel, same⟩ := Toml.parse_of_lines first_lead
    (Toml.not_mem_lineChars (by decide) firstLines_whole) split
  have joined : Text.joinLineEnds ((fieldLine "timeout_ms" (.int timeout)).toList ++ '\n' :: more)
      = ("timeout_ms" ++ " = ").toList ++ c :: (tail ++ '\n' :: Text.joinLineEnds more) := by
    rw [Toml.joinLineEnds_append_of_not_mem (fieldLine_whole (by decide) (int_whole timeout))]
    show ("timeout_ms" ++ " = " ++ toString timeout).toList ++ '\n' :: Text.joinLineEnds more = _
    rw [String.toList_append, first, List.append_assoc, List.cons_append]
  have failed : Toml.value (2 * (tail ++ '\n' :: Text.joinLineEnds more).length + 6)
      (c :: (tail ++ '\n' :: Text.joinLineEnds more)) = .error .tooManyDigits := by
    rw [← List.cons_append, ← first, Toml.value_int, Toml.wholeNumber_too_long many]
    rfl
  rw [same, joined, Toml.Document.read, Toml.statement_field _ (by decide) starts, failed]
  rfl

/-- What a document that settings were written to says of the level, if it
says anything: a text that is the level's name only where that is plain. -/
theorem keeps_of_parse (few : timeout.natAbs < 10 ^ Text.maxDigits) {fields : Toml.Fields}
    (h : Toml.parse (toToml (typed timeout assumeDistinct color verbose logLevel)) = .ok fields) :
    ∃ text, Toml.Keeps ["tool", "symir", "output", "log_level"] text (.record fields) ∧
      (text = logLevel → Plain logLevel.toList) := by
  have split : (toToml (typed timeout assumeDistinct color verbose logLevel)).toList
      = lineChars (firstLines ++ middleLines timeout assumeDistinct color verbose)
        ++ (("log_level" ++ " = " ++ "\"").toList ++ (logLevel.toList ++ ['"', '\n'])) := by
    rw [toToml_eq, Toml.toList_intercalate_lines, Toml.lineChars_append]
    simp [fieldLine, valueText, lineChars]
  obtain ⟨fuel, same⟩ := Toml.parse_of_lines (lines_lead few)
    (Toml.not_mem_lineChars (by decide)
      (List.forall_mem_append.2 ⟨firstLines_whole, middleLines_whole⟩)) split
  have joined : Text.joinLineEnds
        (("log_level" ++ " = " ++ "\"").toList ++ (logLevel.toList ++ ['"', '\n']))
      = ("log_level" ++ " = ").toList
        ++ '"' :: (Text.joinLineEnds logLevel.toList ++ ['"', '\n']) := by
    rw [Toml.joinLineEnds_append_of_not_mem (by decide), Toml.joinLineEnds_append_cons (by decide)]
    rfl
  rw [same, joined] at h
  obtain ⟨document, lines, rfl⟩ := map_eq_ok.1 h
  obtain ⟨said, rest, line, further⟩ := Toml.Document.read_succ lines
  rw [Toml.statement_field _ (by decide) rfl] at line
  obtain ⟨⟨item, left⟩, read, next⟩ := bind_eq_ok.1 line
  obtain ⟨text, rfl, string⟩ := Toml.text_of_value read
  obtain ⟨added, field, same⟩ := bind_eq_ok.1 next
  have filling : (filled timeout assumeDistinct
        [("color", .bool color), ("verbose", .bool verbose)]).addValue ["log_level"]
          (.text (String.ofList text))
      = .ok (filled timeout assumeDistinct [("color", .bool color), ("verbose", .bool verbose),
          ("log_level", .text (String.ofList text))]) := rfl
  rw [filling] at field
  cases same
  have keeps : Toml.Keeps ["tool", "symir", "output", "log_level"] (String.ofList text)
      (.record (table timeout assumeDistinct [("color", .bool color), ("verbose", .bool verbose),
        ("log_level", .text (String.ofList text))])) := by
    simp [table, Toml.Keeps]
  refine ⟨String.ofList text, ?_, fun here => ?_⟩
  · rw [← Except.ok.inj field] at further
    rcases further with rfl | ⟨more, further⟩
    · exact keeps
    · exact Toml.Document.keeps_read keeps further
  · refine Toml.plain_of_string? string ?_
    rw [← here, String.toList_ofList]

-- ============================================================== applying

/-- A field that leads to a text is there, and is used. -/
theorem withField_of_keeps {name text : String} {path : List String} {data : Datum}
    (keeps : Toml.Keeps (name :: path) text data) (use : Datum → Run Unit) :
    ∃ inner, Toml.Keeps path text inner ∧
      ∀ settings, (withField name data use).run settings = (use inner).run settings := by
  obtain ⟨fields, rfl, -⟩ := id keeps
  obtain ⟨inner, found, inside⟩ := keeps.field?
  have there : has name (.record fields) = .ok true := by
    show Except.ok (Datum.field? name fields).isSome = _
    rw [found]
    rfl
  have value : get name (.record fields) = .ok inner := by
    unfold get
    dsimp only
    rw [found]
  refine ⟨inner, inside, fun settings => ?_⟩
  unfold withField
  rw [there, value]
  rfl

/-- A text that the data holds for the level is its name from then on. -/
theorem logLevel_of_apply {text : String} {data : Datum} {settings after : Settings}
    (keeps : Toml.Keeps ["output", "log_level"] text data)
    (h : (apply data).run settings = (.ok (), after)) : after.logLevel = .text text := by
  unfold apply at h
  obtain ⟨-, solved, -, h⟩ := run_bind_eq_ok.1 h
  obtain ⟨-, lowered, -, h⟩ := run_bind_eq_ok.1 h
  obtain ⟨output, inside, used⟩ := withField_of_keeps keeps _
  rw [used] at h
  obtain ⟨-, colored, -, h⟩ := run_bind_eq_ok.1 h
  obtain ⟨-, talking, -, h⟩ := run_bind_eq_ok.1 h
  obtain ⟨level, rfl, used⟩ := withField_of_keeps inside _
  rw [used] at h
  cases h
  rfl

theorem relevant_of_keeps {text : String} {path : List String} {data : Datum} (file : Path)
    (keeps : Toml.Keeps ("tool" :: "symir" :: path) text data) :
    ∃ inner, relevant file data = .ok inner ∧ Toml.Keeps path text inner := by
  obtain ⟨fields, rfl, -⟩ := id keeps
  obtain ⟨tools, foundTools, insideTools⟩ := keeps.field?
  obtain ⟨toolFields, rfl, -⟩ := id insideTools
  obtain ⟨inner, found, inside⟩ := insideTools.field?
  refine ⟨inner, bind_eq_ok.2 ⟨.record toolFields, ?_, ?_⟩, inside⟩
  · unfold fieldOr
    dsimp only
    rw [foundTools]
    rfl
  · unfold fieldOr
    dsimp only
    rw [found]
    rfl

-- =============================================================== loading

variable {tree : FileTree} {path : Path}

/-- A file whose document holds a text for the level is loaded with that, if
it is loaded at all. -/
theorem logLevel_of_loadFile {text level : String} {fields : Toml.Fields} {loaded : Loaded}
    {log : Logger} (readable : tree.read path = .ok text.toUTF8)
    (parsed : Toml.parse text = .ok fields)
    (keeps : Toml.Keeps ["tool", "symir", "output", "log_level"] level (.record fields))
    (h : (loadFile tree path log).1 = .ok loaded) : loaded.settings.logLevel = .text level := by
  obtain ⟨data, found, inside⟩ := relevant_of_keeps path keeps
  unfold loadFile at h
  rw [readData_parsed readable parsed] at h
  dsimp only at h
  rw [found] at h
  dsimp only at h
  split at h
  next after applied =>
    cases h
    exact logLevel_of_apply inside applied
  next => cases h

/-- Settings that are written plainly are loaded as they were. -/
theorem loadFile_toToml (few : timeout.natAbs < 10 ^ Text.maxDigits) (plain : Plain logLevel.toList)
    (readable : tree.read path
      = .ok (toToml (typed timeout assumeDistinct color verbose logLevel)).toUTF8) (log : Logger) :
    loadFile tree path log
      = (.ok { settings := typed timeout assumeDistinct color verbose logLevel, file := some path,
               root := some path.parent }, log) := by
  unfold loadFile
  rw [readData_parsed readable (parse_toToml few plain)]
  rfl

/-- Settings that are loaded as they were have been written plainly. -/
theorem plain_of_loadFile {loaded : Loaded} {log : Logger}
    (readable : tree.read path
      = .ok (toToml (typed timeout assumeDistinct color verbose logLevel)).toUTF8)
    (h : (loadFile tree path log).1 = .ok loaded)
    (same : loaded.settings.logLevel = .text logLevel) :
    timeout.natAbs < 10 ^ Text.maxDigits ∧ Plain logLevel.toList := by
  by_cases few : timeout.natAbs < 10 ^ Text.maxDigits
  · refine ⟨few, ?_⟩
    cases parsed : Toml.parse (toToml (typed timeout assumeDistinct color verbose logLevel)) with
    | ok fields =>
        obtain ⟨text, keeps, plain⟩ := keeps_of_parse few parsed
        have kept := logLevel_of_loadFile readable parsed keeps h
        rw [same] at kept
        cases kept
        exact plain rfl
    | error fault =>
        -- the settings that hold anyway have been answered, and their level is plain
        by_cases long : fault = .tooManyDigits
        · subst long
          rw [loadFile_of_error log (readData_too_long readable parsed)] at h
          cases h
        · rw [loadFile_malformed log readable parsed long] at h
          cases h
          cases same
          decide
  · have parsed : Toml.parse (toToml (typed timeout assumeDistinct color verbose logLevel))
        = .error .tooManyDigits := parse_toToml_too_long few
    rw [loadFile_of_error log (readData_too_long readable parsed)] at h
    cases h

end

/-- Whatever settings of these types are written to a file, in whatever
place and under whatever name: they are loaded as they were if the time
limit has no more digits than can be read and no character of the level's
name is a quote, a backslash or a control character other than the tab;
and if one of these fails, no settings are loaded that say the same. -/
theorem settings_survive (place : Place) (path : Path) (timeout : Int)
    (assumeDistinct color verbose : Bool) (logLevel : String) (log : Logger) {tree : FileTree}
    (written : place.tree.write path
      (toToml (typed timeout assumeDistinct color verbose logLevel)).toUTF8 = .ok tree) :
    let plain := timeout.natAbs < 10 ^ Text.maxDigits ∧
      ∀ c ∈ logLevel.toList, c ≠ '"' ∧ c ≠ '\\' ∧ Toml.isIllegal c = false
    let settings := typed timeout assumeDistinct color verbose logLevel
    let outcome := load { place with tree } (some path) none log
    (plain → outcome = (.ok ⟨settings, some path, some path.parent⟩, log)) ∧
      ∀ loaded, outcome.1 = .ok loaded → loaded.settings.sections = settings.sections → plain := by
  intro plain settings outcome
  have readable := FileTree.read_of_write written
  have found : outcome
      = ((loadFile tree path log).1.mapError .unusable, (loadFile tree path log).2) :=
    load_of_read log (.inl rfl) readable
  refine ⟨fun ⟨few, legal⟩ => ?_, fun loaded h same => ?_⟩
  · rw [found, loadFile_toToml few legal readable]
    rfl
  · rw [found] at h
    refine plain_of_loadFile readable (mapError_eq_ok.1 h) ?_
    rw [sections_inj same]
    rfl

/-- Settings of a project, with a level's name that is none. -/
theorem settings_survive_project :
    let place : Place := ⟨⟨⟨[(["w"], .directory)]⟩⟩, ["home"], ["w"]⟩
    let settings := typed (-5) true false true "tab\there"
    ∃ tree, place.tree.write ["w", "pyproject.toml"] settings.toToml.toUTF8 = .ok tree ∧
      load { place with tree } (some ["w", "pyproject.toml"]) none {}
        = (.ok ⟨settings, some ["w", "pyproject.toml"], some ["w"]⟩, {}) := by
  intro place settings
  obtain ⟨survive, -⟩ :=
    settings_survive place ["w", "pyproject.toml"] (-5) true false true "tab\there" {} rfl
  refine ⟨_, rfl, survive ⟨?_, show Plain "tab\there".toList by decide⟩⟩
  exact Nat.lt_of_lt_of_le (by decide) (Nat.pow_le_pow_right (by decide) (by decide : 1 ≤ _))

/-- A quote in the level's name is not escaped: it ends the text, and what
comes then breaks the document, so the settings that hold anyway are
loaded. -/
theorem settings_lost_behind_quote :
    let place : Place := ⟨⟨⟨[(["w"], .directory)]⟩⟩, ["home"], ["w"]⟩
    let settings := typed 10000 false true false "a\"b"
    ∃ tree, place.tree.write ["w", "symir.toml"] settings.toToml.toUTF8 = .ok tree ∧
      (load { place with tree } (some ["w", "symir.toml"]) none {}).1
        = .ok ⟨{}, some ["w", "symir.toml"], some ["w"]⟩ ∧
      Settings.sections {} ≠ settings.sections := by
  intro place settings
  have broken : ((Toml.parse settings.toToml).map fun _ => ())
      = .error (.unexpectedCharacter 'b') := by
    decide +kernel
  have written : place.tree.write ["w", "symir.toml"] settings.toToml.toUTF8 = .ok _ := rfl
  have readable := FileTree.read_of_write written
  refine ⟨_, written, ?_, fun same => ?_⟩
  · rw [load_of_read _ (.inl rfl) readable,
      loadFile_malformed _ readable (map_eq_error.1 broken) nofun]
    rfl
  · have level := Datum.text.inj (congrArg Settings.logLevel (sections_inj same))
    exact absurd level (by decide)

end Settings

end SymbolicHeap
