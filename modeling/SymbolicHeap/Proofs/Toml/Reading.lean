/-
What the readers of a document have in common.

A reader leaves an end of the characters it was given, and it finds a
number too long only where a row of digits is (`Reads`).  This is closed
under everything that readers are put together from, so each of them has
it because those it calls have it; the values, which nest, have it by
induction on how deep they do.

A document with no long row is thus read or is not well formed
(`longRow_of_parse`).
-/
import Mathlib.Data.List.Infix
import SymbolicHeap.Proofs.Outcome
import SymbolicHeap.Toml.Document

namespace SymbolicHeap.Toml

-- =============================================================== long rows

/-- A row of more digits than are read as a number stands in a text;
underscores may stand in it. -/
def LongRow (chars : List Char) : Prop :=
  ∃ row, row <:+: chars ∧ (∀ c ∈ row, c.isDigit ∨ c = '_') ∧
    Text.maxDigits < row.countP Char.isDigit

/-- A long row stays one in whatever ends in the text. -/
theorem LongRow.mono {chars more : List Char} (h : chars <:+ more) : LongRow chars → LongRow more :=
  fun ⟨row, here, only, long⟩ => ⟨row, here.trans h.isInfix, only, long⟩

-- ========================================================== reading, closed

/-- What is left behind an outcome is an end of what was given, and a
number was too long only if a long row is there. -/
structure Reads {α : Type} (left : α → List Char) (chars : List Char) (outcome : Except Fault α) :
    Prop where
  leaves : ∀ {a}, outcome = .ok a → left a <:+ chars
  long : outcome = .error .tooManyDigits → LongRow chars

namespace Reads

variable {α β : Type} {left : α → List Char} {left' : β → List Char} {chars more : List Char}
  {outcome : Except Fault α}

theorem ok {a : α} (h : left a <:+ chars) : Reads left chars (.ok a) where
  leaves h' := by cases h'; exact h
  long h' := by cases h'

theorem fault {fault : Fault} (h : fault ≠ .tooManyDigits) : Reads left chars (.error fault) where
  leaves h' := by cases h'
  long h' := by cases h'; exact absurd rfl h

theorem mono (reads : Reads left chars outcome) (h : chars <:+ more) : Reads left more outcome where
  leaves h' := (reads.leaves h').trans h
  long h' := (reads.long h').mono h

/-- One reader goes on where another has left off. -/
theorem bind {next : α → Except Fault β} (reads : Reads left chars outcome)
    (goes : ∀ a, Reads left' (left a) (next a)) : Reads left' chars (outcome >>= next) where
  leaves h := by
    obtain ⟨a, first, second⟩ := bind_eq_ok.1 h
    exact ((goes a).leaves second).trans (reads.leaves first)
  long h := by
    rcases bind_eq_error.1 h with first | ⟨a, first, second⟩
    · exact reads.long first
    · exact ((goes a).long second).mono (reads.leaves first)

/-- What was read may be taken for something else, if as much is left. -/
theorem map {f : α → β} (reads : Reads left chars outcome) (same : ∀ a, left' (f a) = left a) :
    Reads left' chars (outcome.map f) := by
  cases outcome with
  | error e =>
      exact ⟨fun h => (by cases h), fun h => reads.long (by cases h; rfl)⟩
  | ok a => exact .ok (by rw [same a]; exact reads.leaves rfl)

/-- A check that fails leaves what follows undone. -/
theorem guarded {p : Prop} [Decidable p] {fault : Fault} {next : Unit → Except Fault α}
    (h : fault ≠ .tooManyDigits) (reads : Reads left chars (next ())) :
    Reads left chars (if p then .error fault >>= next else next ()) := by
  split
  next => exact .fault h
  next => exact reads

end Reads

/-- A part that reads nothing, and so leaves what there is. -/
abbrev Quiet {α : Type} (outcome : Except Fault α) : Prop :=
  ∀ chars, Reads (fun _ => chars) chars outcome

-- ==================================================== blanks and comments

/-- Blanks are dropped from the front. -/
theorem skipBlanks_suffix (chars : List Char) : skipBlanks chars <:+ chars :=
  List.dropWhile_suffix _

/-- A check of the characters reads none of them. -/
theorem requireLegal_quiet (illegal : Char → Bool) (chars : List Char) :
    Quiet (requireLegal illegal chars) := by
  intro left
  unfold requireLegal
  split
  next => exact .fault nofun
  next => exact .ok List.suffix_rfl

/-- A comment ends at its line. -/
theorem skipComment_reads (chars : List Char) : Reads id chars (skipComment chars) := by
  unfold skipComment
  split
  next rest =>
    refine ((requireLegal_quiet _ _ rest).bind fun _ => .ok ?_).mono (List.suffix_cons _ _)
    exact List.dropWhile_suffix _
  next => exact .ok List.suffix_rfl

/-- Blanks, line ends and comments, in any order. -/
theorem skipLayout_reads (fuel : Nat) (chars : List Char) :
    Reads id chars (skipLayout fuel chars) := by
  induction fuel generalizing chars with
  | zero => exact .ok List.suffix_rfl
  | succ fuel ih =>
      have skipped := List.dropWhile_suffix (l := chars) isBlankOrLineEnd
      unfold skipLayout
      split
      next rest here =>
        rw [here] at skipped
        exact ((skipComment_reads _).bind ih).mono skipped
      next => exact .ok skipped

-- ================================================================ strings

/-- The digits of an escape name a character or do not; nothing further is
read. -/
theorem charOfHex_quiet (digits : List Char) : Quiet (charOfHex digits) := by
  intro chars
  unfold charOfHex
  split
  next =>
    dsimp only
    split
    next => exact .ok List.suffix_rfl
    next => exact .fault nofun
  next => exact .fault nofun

section

variable {chars more : List Char} {step : Read}

theorem prepend_reads (c : Char) (reads : Reads Prod.snd chars step) :
    Reads Prod.snd chars (prepend c step) :=
  reads.map fun _ => rfl

theorem prependEscaped_reads {c : Except Fault Char} (quiet : Quiet c)
    (reads : Reads Prod.snd chars step) : Reads Prod.snd chars (prependEscaped c step) :=
  (quiet chars).bind fun c => prepend_reads c reads

end

/-- An escape is read at once with all of its digits, so each clause drops
some characters from the front and goes on with the string. -/
theorem basicString_reads (chars : List Char) : Reads Prod.snd chars (basicString chars) := by
  fun_induction basicString chars with
  | case1 => exact .fault nofun
  | case2 rest => exact .ok (List.suffix_cons _ _)
  | case3 a b c d rest ih =>
      exact (prependEscaped_reads (charOfHex_quiet _) ih).mono
        (List.suffix_append ['\\', 'u', a, b, c, d] rest)
  | case4 a b c d e f g h rest ih =>
      exact (prependEscaped_reads (charOfHex_quiet _) ih).mono
        (List.suffix_append ['\\', 'U', a, b, c, d, e, f, g, h] rest)
  | case5 c rest _ _ _ _ ih =>
      exact (prepend_reads _ ih).mono (List.suffix_append ['\\', c] rest)
  | case6 => exact .fault nofun
  | case7 => exact .fault nofun
  | case8 c rest _ _ _ _ _ ih => exact (prepend_reads _ ih).mono (List.suffix_cons _ _)

/-- A literal string has no escapes: it goes up to the next quote. -/
theorem literalString_reads (chars : List Char) : Reads Prod.snd chars (literalString chars) := by
  have skipped := List.dropWhile_suffix (l := chars) (· ≠ '\'')
  unfold literalString
  dsimp only
  split
  next => exact .fault nofun
  next c rest here =>
    refine ((requireLegal_quiet _ _ rest).bind fun _ => .ok List.suffix_rfl).mono ?_
    rw [here] at skipped
    exact (List.suffix_cons _ _).trans skipped

/-- Of up to five quotes the last three close a string; two may be its own.
-/
theorem closing_suffix (quote : Char) (chars : List Char) : (closing quote chars).2 <:+ chars := by
  unfold closing
  split
  next c d rest =>
    split
    next =>
      split
      next => exact List.suffix_append [c, d] rest
      next => exact List.suffix_cons _ _
    next => exact List.suffix_rfl
  next =>
    split
    next => exact List.nil_suffix
    next => exact List.suffix_rfl
  next => exact List.suffix_rfl

/-- As of a string on one line, but quotes and line ends may stand in it. -/
theorem multilineString_reads (passing : Passing) (chars : List Char) :
    Reads Prod.snd chars (multilineString passing chars) := by
  fun_induction multilineString passing chars with
  | case1 | case4 | case13 | case14 | case15 => exact .fault nofun
  | case2 _ rest _ ih | case3 rest _ ih | case5 _ _ rest _ _ ih =>
      exact ih.mono (List.suffix_cons _ _)
  | case6 _ _ rest =>
      exact .ok ((closing_suffix _ _).trans (List.suffix_append ['"', '"', '"'] rest))
  | case7 _ _ a b c d rest _ ih =>
      exact (prependEscaped_reads (charOfHex_quiet _) ih).mono
        (List.suffix_append ['\\', 'u', a, b, c, d] rest)
  | case8 _ _ a b c d e f g h rest _ ih =>
      exact (prependEscaped_reads (charOfHex_quiet _) ih).mono
        (List.suffix_append ['\\', 'U', a, b, c, d, e, f, g, h] rest)
  | case9 _ _ rest _ ih | case10 _ _ rest _ ih | case11 _ _ rest _ ih =>
      exact ih.mono (List.suffix_append [_, _] rest)
  | case12 _ _ e rest _ _ _ _ _ _ _ _ ih =>
      exact (prepend_reads _ ih).mono (List.suffix_append ['\\', e] rest)
  | case16 _ _ c rest _ _ _ _ _ _ _ _ _ _ ih =>
      exact (prepend_reads _ ih).mono (List.suffix_cons _ _)

theorem multilineLiteral_reads (chars : List Char) :
    Reads Prod.snd chars (multilineLiteral chars) := by
  fun_induction multilineLiteral chars with
  | case1 | case3 => exact .fault nofun
  | case2 rest =>
      exact .ok ((closing_suffix _ _).trans (List.suffix_append ['\'', '\'', '\''] rest))
  | case4 c rest _ _ ih => exact (prepend_reads _ ih).mono (List.suffix_cons _ _)

theorem dropLineEnd_suffix (chars : List Char) : dropLineEnd chars <:+ chars := by
  unfold dropLineEnd
  split
  next => exact List.suffix_cons _ _
  next => exact List.suffix_rfl

/-- Which kind of string it is shows at its first characters. -/
theorem string?_reads {chars : List Char} {read : Read} (h : string? chars = some read) :
    Reads Prod.snd chars read := by
  unfold string? at h
  split at h
  next rest =>
    cases h
    exact (multilineString_reads _ _).mono
      ((dropLineEnd_suffix _).trans (List.suffix_append ['"', '"', '"'] rest))
  next =>
    cases h
    exact (basicString_reads _).mono (List.suffix_cons _ _)
  next rest =>
    cases h
    exact (multilineLiteral_reads _).mono
      ((dropLineEnd_suffix _).trans (List.suffix_append ['\'', '\'', '\''] rest))
  next =>
    cases h
    exact (literalString_reads _).mono (List.suffix_cons _ _)
  next => cases h

-- =================================================================== keys

/-- A part of a key is a string on one line or a bare word. -/
theorem keyPart_reads (chars : List Char) : Reads Prod.snd chars (keyPart chars) := by
  unfold keyPart
  split
  next rest =>
    exact Reads.mono ((basicString_reads rest).map fun _ => rfl) (List.suffix_cons _ _)
  next rest =>
    exact Reads.mono ((literalString_reads rest).map fun _ => rfl) (List.suffix_cons _ _)
  next =>
    split
    next =>
      refine .fault ?_
      cases chars.head? with
      | none => nofun
      | some c => nofun
    next => exact .ok (List.dropWhile_suffix _)

/-- More parts of a key, each behind a dot. -/
theorem keyTail_reads (fuel : Nat) (chars : List Char) :
    Reads Prod.snd chars (keyTail fuel chars) := by
  induction fuel generalizing chars with
  | zero => exact .ok List.suffix_rfl
  | succ fuel ih =>
      have skipped := skipBlanks_suffix chars
      unfold keyTail
      split
      next rest here =>
        rw [here] at skipped
        refine Reads.mono ?_ ((List.suffix_cons _ _).trans skipped)
        refine ((keyPart_reads _).mono (skipBlanks_suffix _)).bind fun read => ?_
        exact (ih _).bind fun _ => .ok List.suffix_rfl
      next => exact .ok skipped

theorem key_reads (chars : List Char) : Reads Prod.snd chars (key chars) :=
  (keyPart_reads _).bind fun _ => (keyTail_reads _ _).bind fun _ => .ok List.suffix_rfl

-- ================================================================ numbers

/-- A row of digits is read up to its end; the digits in it are those that
count. -/
theorem moreDigits_row {isDigit : Char → Bool} (chars : List Char) :
    ∃ row, chars = row ++ (moreDigits isDigit chars).2 ∧
      (∀ c ∈ row, isDigit c ∨ c = '_') ∧
      (isDigit '_' = false → (moreDigits isDigit chars).1 = row.filter isDigit) := by
  fun_induction moreDigits isDigit chars with
  | case1 c rest h digits left here ih =>
      obtain ⟨row, whole, only, counted⟩ := ih
      simp only [here] at whole counted
      refine ⟨'_' :: c :: row, by rw [List.cons_append, List.cons_append, ← whole], ?_,
        fun plain => ?_⟩
      · exact List.forall_mem_cons.2 ⟨.inr rfl, List.forall_mem_cons.2 ⟨.inl h, only⟩⟩
      · simp [plain, h, counted plain]
  | case3 c rest _ h digits left here ih =>
      obtain ⟨row, whole, only, counted⟩ := ih
      simp only [here] at whole counted
      refine ⟨c :: row, by rw [List.cons_append, ← whole], ?_, fun plain => ?_⟩
      · exact List.forall_mem_cons.2 ⟨.inl h, only⟩
      · simp [h, counted plain]
  | case2 | case4 | case5 => exact ⟨[], rfl, List.forall_mem_nil _, fun _ => rfl⟩

/-- The same of a row that begins with a digit. -/
theorem digitRow_row {isDigit : Char → Bool} {chars digits rest : List Char}
    (h : digitRow isDigit chars = some (digits, rest)) :
    ∃ row, chars = row ++ rest ∧ (∀ c ∈ row, isDigit c ∨ c = '_') ∧
      (isDigit '_' = false → digits = row.filter isDigit) := by
  unfold digitRow at h
  split at h
  next c more =>
    split at h
    next first =>
      obtain ⟨row, whole, only, counted⟩ := @moreDigits_row isDigit more
      simp only [Option.some.injEq, Prod.mk.injEq] at h
      obtain ⟨rfl, rfl⟩ := h
      refine ⟨c :: row, by rw [List.cons_append, ← whole], ?_, fun plain => ?_⟩
      · exact List.forall_mem_cons.2 ⟨.inl first, only⟩
      · simp [first, counted plain]
    next => cases h
  next => cases h

/-- What follows a row of digits. -/
theorem digitRow_suffix {isDigit : Char → Bool} {chars digits rest : List Char}
    (h : digitRow isDigit chars = some (digits, rest)) : rest <:+ chars := by
  obtain ⟨row, rfl, -⟩ := digitRow_row h
  exact List.suffix_append row rest

theorem sign_suffix (chars : List Char) : (sign chars).2 <:+ chars := by
  unfold sign
  split
  next => exact List.suffix_cons _ _
  next => exact List.suffix_cons _ _
  next => exact List.suffix_rfl

/-- A number in another base: a mark for the base, then a row of its digits.
No bound is set to it. -/
theorem basedNumber?_suffix {chars rest : List Char} {item : Datum}
    (h : basedNumber? chars = some (item, rest)) : rest <:+ chars := by
  unfold basedNumber? at h
  split at h
  next mark more =>
    obtain ⟨base, h⟩ : ∃ base : Nat,
        (digitRow (fun c => (hexValue? c).any (· < base)) more >>= fun read =>
          some (.int (valueInBase base read.1), read.2)) = some (item, rest) := by
      split at h
      · exact ⟨16, h⟩
      · exact ⟨8, h⟩
      · exact ⟨2, h⟩
      · cases h
    obtain ⟨⟨digits, left⟩, row, h⟩ := Option.bind_eq_some_iff.1 h
    cases h
    exact (digitRow_suffix row).trans (List.suffix_append ['0', mark] more)
  next => cases h

theorem fractionDigits_suffix {chars digits rest : List Char}
    (h : fractionDigits chars = some (digits, rest)) : rest <:+ chars := by
  unfold fractionDigits at h
  split at h
  next => exact (digitRow_suffix h).trans (List.suffix_cons _ _)
  next => cases h

/-- An exponent is read where digits follow the mark and the sign. -/
theorem exponent?_suffix {chars rest : List Char} {size : Int}
    (h : exponent? chars = some (size, rest)) : rest <:+ chars := by
  unfold exponent? at h
  split at h
  next c more =>
    split at h
    next =>
      obtain ⟨⟨digits, left⟩, row, h⟩ := Option.bind_eq_some_iff.1 h
      cases h
      exact (digitRow_suffix row).trans ((sign_suffix more).trans (List.suffix_cons _ _))
    next => cases h
  next => cases h

/-- The digits of a whole number are a row of its text. -/
theorem wholeDigits_row {chars digits rest : List Char}
    (h : wholeDigits chars = some (digits, rest)) :
    ∃ row, chars = row ++ rest ∧ (∀ c ∈ row, c.isDigit ∨ c = '_') ∧
      digits = row.filter Char.isDigit := by
  unfold wholeDigits at h
  split at h
  next =>
    cases h
    exact ⟨['0'], rfl, List.forall_mem_singleton.2 (.inl rfl), rfl⟩
  next =>
    obtain ⟨row, whole, only, counted⟩ := digitRow_row h
    exact ⟨row, whole, only, counted rfl⟩

/-- The one place where a number is found too long: the row just read has
too many digits. -/
theorem wholeNumber_reads {negative : Bool} {row rest : List Char}
    (only : ∀ c ∈ row, c.isDigit ∨ c = '_') :
    Reads (fun _ => rest) (row ++ rest) (wholeNumber negative (row.filter Char.isDigit)) := by
  unfold wholeNumber
  split
  next long =>
    refine ⟨fun h => (by cases h), fun _ => ⟨row, List.infix_append' [] row rest, only, ?_⟩⟩
    rwa [List.countP_eq_length_filter]
  next => exact .ok (List.suffix_append row rest)

/-- A number with a fraction or an exponent has no bound on its digits, so
only whole numbers can be too long. -/
theorem decimalNumber?_reads {chars : List Char} {read : Except Fault (Datum × List Char)}
    (h : decimalNumber? chars = some read) : Reads Prod.snd chars read := by
  have signed := sign_suffix chars
  unfold decimalNumber? at h
  revert signed h
  generalize sign chars = start
  obtain ⟨negative, start⟩ := start
  intro h signed
  obtain ⟨⟨digits, rest⟩, whole, h⟩ := Option.bind_eq_some_iff.1 h
  obtain ⟨row, rfl, only, rfl⟩ := wholeDigits_row whole
  refine Reads.mono ?_ signed
  have fraction : ((fractionDigits rest).getD ([], rest)).2 <:+ row ++ rest := by
    refine List.IsSuffix.trans ?_ (List.suffix_append row rest)
    cases here : fractionDigits rest with
    | none => exact List.suffix_rfl
    | some read => exact fractionDigits_suffix here
  dsimp only at h
  split at h
  next =>
    cases h
    exact (wholeNumber_reads only).map fun _ => rfl
  next =>
    cases h
    refine .ok (List.IsSuffix.trans ?_ fraction)
    cases here : exponent? ((fractionDigits rest).getD ([], rest)).2 with
    | none => exact List.suffix_rfl
    | some power => exact exponent?_suffix here

theorem specialFloat?_suffix {chars rest : List Char} {item : Datum}
    (h : specialFloat? chars = some (item, rest)) : rest <:+ chars := by
  have signed := sign_suffix chars
  unfold specialFloat? at h
  dsimp only at h
  split at h
  next here =>
    cases h
    rw [here] at signed
    exact (List.suffix_append ['i', 'n', 'f'] rest).trans signed
  next here =>
    cases h
    rw [here] at signed
    exact (List.suffix_append ['n', 'a', 'n'] rest).trans signed
  next => cases h

/-- The three kinds of numbers, tried in turn. -/
theorem number?_reads {chars : List Char} {read : Except Fault (Datum × List Char)}
    (h : number? chars = some read) : Reads Prod.snd chars read := by
  unfold number? at h
  split at h
  next based =>
    cases h
    exact .ok (basedNumber?_suffix based)
  next =>
    cases decimal : decimalNumber? chars with
    | some read' =>
        rw [decimal] at h
        cases h
        exact decimalNumber?_reads decimal
    | none =>
        rw [decimal] at h
        obtain ⟨⟨item, rest⟩, special, rfl⟩ := Option.map_eq_some_iff.1 h
        exact .ok (specialFloat?_suffix special)

-- ================================================================== dates

theorem twoDigits_suffix {low high : Nat} {chars rest : List Char} {n : Nat}
    (h : twoDigits low high chars = some (n, rest)) : rest <:+ chars := by
  unfold twoDigits at h
  split at h
  next a b more =>
    dsimp only at h
    split at h
    next =>
      cases h
      exact List.suffix_append [a, b] rest
    next => cases h
  next => cases h

theorem mark_suffix {c : Char} {chars rest : List Char} (h : mark c chars = some rest) :
    rest <:+ chars := by
  unfold mark at h
  split at h
  next =>
    split at h
    next =>
      cases h
      exact List.suffix_cons _ _
    next => cases h
  next => cases h

/-- Hours, minutes and seconds, and digits below the second as they come. -/
theorem timeOfDay?_suffix {chars rest : List Char} (h : timeOfDay? chars = some rest) :
    rest <:+ chars := by
  unfold timeOfDay? at h
  obtain ⟨⟨_, first⟩, hour, h⟩ := Option.bind_eq_some_iff.1 h
  obtain ⟨second, colon, h⟩ := Option.bind_eq_some_iff.1 h
  obtain ⟨⟨_, third⟩, minute, h⟩ := Option.bind_eq_some_iff.1 h
  obtain ⟨fourth, colon', h⟩ := Option.bind_eq_some_iff.1 h
  obtain ⟨⟨_, fifth⟩, seconds, h⟩ := Option.bind_eq_some_iff.1 h
  have whole : fifth <:+ chars :=
    (twoDigits_suffix seconds).trans <| (mark_suffix colon').trans <|
      (twoDigits_suffix minute).trans <| (mark_suffix colon).trans (twoDigits_suffix hour)
  dsimp only at h
  split at h
  next c more =>
    split at h
    next =>
      cases h
      exact (List.dropWhile_suffix _).trans ((List.drop_suffix _ _).trans whole)
    next =>
      cases h
      exact whole
  next =>
    cases h
    exact whole

/-- Nothing is read where nothing was found. -/
theorem getD_suffix {found : Option (List Char)} {chars : List Char}
    (h : ∀ rest, found = some rest → rest <:+ chars) : found.getD chars <:+ chars := by
  cases found with
  | none => exact List.suffix_rfl
  | some rest => exact h rest rfl

/-- The offset of a time, if there is one. -/
theorem skipOffset_suffix (chars : List Char) : skipOffset chars <:+ chars := by
  unfold skipOffset
  split
  next => exact List.suffix_rfl
  next c rest =>
    split
    next => exact List.suffix_cons _ _
    next =>
      split
      next =>
        refine getD_suffix fun left h => ?_
        obtain ⟨⟨_, first⟩, hours, h⟩ := Option.bind_eq_some_iff.1 h
        obtain ⟨second, colon, h⟩ := Option.bind_eq_some_iff.1 h
        obtain ⟨⟨_, third⟩, minutes, h⟩ := Option.bind_eq_some_iff.1 h
        cases h
        exact (twoDigits_suffix minutes).trans <| (mark_suffix colon).trans <|
          (twoDigits_suffix hours).trans (List.suffix_cons _ _)
      next => exact List.suffix_rfl

/-- A date is four groups of two digits with marks between them. -/
theorem date?_suffix {chars rest : List Char} {year month day : Nat}
    (h : date? chars = some (year, month, day, rest)) : rest <:+ chars := by
  unfold date? at h
  obtain ⟨⟨_, first⟩, century, h⟩ := Option.bind_eq_some_iff.1 h
  obtain ⟨⟨_, second⟩, years, h⟩ := Option.bind_eq_some_iff.1 h
  obtain ⟨third, dash, h⟩ := Option.bind_eq_some_iff.1 h
  obtain ⟨⟨_, fourth⟩, months, h⟩ := Option.bind_eq_some_iff.1 h
  obtain ⟨fifth, dash', h⟩ := Option.bind_eq_some_iff.1 h
  obtain ⟨⟨_, sixth⟩, days, h⟩ := Option.bind_eq_some_iff.1 h
  cases h
  exact (twoDigits_suffix days).trans <| (mark_suffix dash').trans <|
    (twoDigits_suffix months).trans <| (mark_suffix dash).trans <|
      (twoDigits_suffix years).trans (twoDigits_suffix century)

theorem skipTime_suffix (chars : List Char) : skipTime chars <:+ chars := by
  unfold skipTime
  split
  next c rest =>
    split
    next =>
      split
      next rest' time =>
        exact (skipOffset_suffix _).trans ((timeOfDay?_suffix time).trans (List.suffix_cons _ _))
      next => exact List.suffix_rfl
    next => exact List.suffix_rfl
  next => exact List.suffix_rfl

/-- A date, with a time or without, or a time by itself. -/
theorem moment?_reads {chars : List Char} {read : Except Fault (Datum × List Char)}
    (h : moment? chars = some read) : Reads Prod.snd chars read := by
  unfold moment? at h
  split at h
  next year month day rest date =>
    split at h
    next =>
      cases h
      exact .fault nofun
    next =>
      cases h
      exact .ok ((skipTime_suffix _).trans (date?_suffix date))
  next =>
    obtain ⟨rest, time, rfl⟩ := Option.map_eq_some_iff.1 h
    exact .ok (timeOfDay?_suffix time)

-- ================================================================= tables

/-- Tables are changed on the way down a path, which reads nothing. -/
theorem changeAt_quiet {enterArrays : Bool} {change : Fields → Except Fault Fields}
    (quiet : ∀ fields, Quiet (change fields)) (path : List String) (fields : Fields) :
    Quiet (changeAt enterArrays change path fields) := by
  intro chars
  induction path generalizing fields with
  | nil => exact quiet fields chars
  | cons name path ih =>
      unfold changeAt
      split
      next => exact (ih _).bind fun _ => .ok List.suffix_rfl
      next => exact (ih _).bind fun _ => .ok List.suffix_rfl
      next =>
        split
        next => exact (ih _).bind fun _ => .ok List.suffix_rfl
        next => exact .fault nofun
      next => exact .fault nofun

theorem addField_quiet (name : String) (item : Datum) (fields : Fields) :
    Quiet (addField name item fields) := by
  intro chars
  unfold addField
  split
  next => exact .fault nofun
  next => exact .ok List.suffix_rfl

theorem addTable_quiet (name : String) (fields : Fields) : Quiet (addTable name fields) := by
  intro chars
  unfold addTable
  split
  next => exact .ok List.suffix_rfl
  next => exact .ok List.suffix_rfl
  next => exact .fault nofun

-- ================================================================= values

section

variable {fuel : Nat}

/-- A value is a string, a word, a number or a date, or is made of values
that nest less deep. -/
theorem value_reads_succ (ofArray : ∀ chars, Reads Prod.snd chars (array fuel chars))
    (ofTable : ∀ fields closed chars, Reads Prod.snd chars (inlineTable fuel fields closed chars))
    (chars : List Char) : Reads Prod.snd chars (value (fuel + 1) chars) := by
  unfold value
  split
  next read here =>
    exact Reads.map (string?_reads here) fun _ => rfl
  next =>
    split
    next rest _ => exact .ok (List.suffix_append ['t', 'r', 'u', 'e'] rest)
    next rest _ => exact .ok (List.suffix_append ['f', 'a', 'l', 's', 'e'] rest)
    next => exact (ofArray _).mono (List.suffix_cons _ _)
    next rest _ =>
      have skipped := skipBlanks_suffix rest
      refine Reads.mono ?_ (List.suffix_cons _ _)
      split
      next here =>
        rw [here] at skipped
        exact .ok ((List.suffix_cons _ _).trans skipped)
      next => exact (ofTable _ _ _).mono skipped
    next =>
      cases moment : moment? chars with
      | some read => exact moment?_reads moment
      | none =>
          cases number : number? chars with
          | some read => exact number?_reads number
          | none => exact .fault nofun

/-- An array closes, or has a value in front of the rest of it. -/
theorem array_reads_succ (ofValue : ∀ chars, Reads Prod.snd chars (value fuel chars))
    (ofArray : ∀ chars, Reads Prod.snd chars (array fuel chars)) (chars : List Char) :
    Reads Prod.snd chars (array (fuel + 1) chars) := by
  unfold array
  refine (skipLayout_reads _ _).bind fun chars => ?_
  split
  next => exact .ok (List.suffix_cons _ _)
  next =>
    refine (ofValue _).bind fun read => ?_
    obtain ⟨item, rest⟩ := read
    refine (skipLayout_reads _ _).bind fun chars => ?_
    split
    next => exact .ok (List.suffix_cons _ _)
    next =>
      refine ((ofArray _).bind fun read => ?_).mono (List.suffix_cons _ _)
      split
      next => exact .ok List.suffix_rfl
      next => exact .fault nofun
    next => exact .fault nofun
    next => exact .fault nofun

/-- A table on one line has a key with its value in front of the rest of
it. -/
theorem inlineTable_reads_succ (ofValue : ∀ chars, Reads Prod.snd chars (value fuel chars))
    (ofTable : ∀ fields closed chars, Reads Prod.snd chars (inlineTable fuel fields closed chars))
    (fields : Fields) (closed : List (List String)) (chars : List Char) :
    Reads Prod.snd chars (inlineTable (fuel + 1) fields closed chars) := by
  unfold inlineTable
  refine (key_reads _).bind fun read => ?_
  obtain ⟨path, rest⟩ := read
  dsimp only
  split
  next rest =>
    refine Reads.mono ?_ (List.suffix_cons _ _)
    refine ((ofValue _).mono (skipBlanks_suffix rest)).bind fun read => ?_
    obtain ⟨item, rest⟩ := read
    have skipped := skipBlanks_suffix rest
    refine Reads.guarded nofun ?_
    refine (changeAt_quiet (addField_quiet _ _) _ _ _).bind fun fields => ?_
    split
    next here =>
      rw [here] at skipped
      exact .ok ((List.suffix_cons _ _).trans skipped)
    next here =>
      rw [here] at skipped
      exact (ofTable _ _ _).mono ((skipBlanks_suffix _).trans
        ((List.suffix_cons _ _).trans skipped))
    next => exact .fault nofun
    next => exact .fault nofun
  next => exact .fault nofun
  next => exact .fault nofun

end

/-- The three go round in a circle, a level less deep each time. -/
theorem values_read (fuel : Nat) :
    (∀ chars, Reads Prod.snd chars (value fuel chars)) ∧
    (∀ chars, Reads Prod.snd chars (array fuel chars)) ∧
    ∀ fields closed chars, Reads Prod.snd chars (inlineTable fuel fields closed chars) := by
  induction fuel with
  | zero => exact ⟨fun _ => .fault nofun, fun _ => .fault nofun, fun _ _ _ => .fault nofun⟩
  | succ fuel ih =>
      obtain ⟨ofValue, ofArray, ofTable⟩ := ih
      exact ⟨value_reads_succ ofArray ofTable, array_reads_succ ofValue ofArray,
        inlineTable_reads_succ ofValue ofTable⟩

/-- Of the three, what is needed of values. -/
theorem value_reads (fuel : Nat) (chars : List Char) : Reads Prod.snd chars (value fuel chars) :=
  (values_read fuel).1 chars

-- ============================================================== documents

namespace Document

/-- What was read of a line goes into the document without more being read.
-/
theorem addValue_quiet (document : Document) (path : List String) (item : Datum) :
    Quiet (document.addValue path item) := by
  intro chars
  unfold addValue
  dsimp only
  split
  next => exact .fault nofun
  next =>
    refine Reads.guarded nofun ?_
    exact (changeAt_quiet (addField_quiet _ _) _ _ _).bind fun _ => .ok List.suffix_rfl

theorem addHeader_quiet (document : Document) (path : List String) :
    Quiet (document.addHeader path) := by
  intro chars
  unfold addHeader
  refine Reads.guarded nofun (Reads.guarded nofun ?_)
  exact (changeAt_quiet (fun _ _ => .ok List.suffix_rfl) _ _ _).bind fun _ => .ok List.suffix_rfl

theorem addArrayHeader_quiet (document : Document) (path : List String) :
    Quiet (document.addArrayHeader path) := by
  intro chars
  unfold addArrayHeader
  refine Reads.guarded nofun ?_
  exact (changeAt_quiet (addTable_quiet _) _ _ _).bind fun _ => .ok List.suffix_rfl

/-- A line is empty, the header of a table, or a key with its value. -/
theorem statement_reads (document : Document) (chars : List Char) :
    Reads Prod.snd chars (document.statement chars) := by
  refine Reads.mono ?_ (skipBlanks_suffix chars)
  unfold statement
  generalize skipBlanks chars = chars
  split
  next => exact .ok List.suffix_rfl
  next => exact .ok List.suffix_rfl
  next => exact .ok List.suffix_rfl
  next rest =>
    refine ((key_reads _).bind fun read => ?_).mono
      ((skipBlanks_suffix rest).trans (List.suffix_append ['[', '['] rest))
    refine (addArrayHeader_quiet _ _ _).bind fun document => ?_
    split
    next here => exact .ok (by rw [here]; exact List.suffix_append [']', ']'] _)
    next => exact .fault nofun
    next => exact .fault nofun
  next rest _ =>
    refine ((key_reads _).bind fun read => ?_).mono
      ((skipBlanks_suffix rest).trans (List.suffix_cons _ _))
    refine (addHeader_quiet _ _ _).bind fun document => ?_
    split
    next here => exact .ok (by rw [here]; exact List.suffix_cons _ _)
    next => exact .fault nofun
    next => exact .fault nofun
  next =>
    refine (key_reads _).bind fun read => ?_
    obtain ⟨path, rest⟩ := read
    dsimp only
    split
    next rest =>
      refine ((value_reads _ _).bind fun read => ?_).mono
        ((skipBlanks_suffix rest).trans (List.suffix_cons _ _))
      exact (addValue_quiet _ _ _ _).bind fun _ => .ok List.suffix_rfl
    next => exact .fault nofun
    next => exact .fault nofun

/-- Lines are read one by one; nothing is left behind the last. -/
theorem read_reads (fuel : Nat) (document : Document) (chars : List Char) :
    Reads (fun _ => []) chars (read fuel document chars) := by
  induction fuel generalizing document chars with
  | zero => exact .ok List.nil_suffix
  | succ fuel ih =>
      unfold read
      refine (statement_reads _ _).bind fun line => ?_
      obtain ⟨document, rest⟩ := line
      refine ((skipComment_reads _).mono (skipBlanks_suffix rest)).bind fun rest => ?_
      split
      next => exact .ok List.nil_suffix
      next => exact (ih _ _).mono (List.suffix_cons _ _)
      next => exact .fault nofun

end Document

section

variable {row : List Char}

/-- What begins a text with its line ends joined, and has no line feed,
begins the text. -/
theorem prefix_of_joinLineEnds (plain : '\n' ∉ row) {chars : List Char}
    (h : row <+: Text.joinLineEnds chars) : row <+: chars := by
  fun_induction Text.joinLineEnds chars generalizing row with
  | case1 rest ih =>
      cases row with
      | nil => exact List.nil_prefix
      | cons c row =>
          obtain ⟨rfl, -⟩ := List.cons_prefix_cons.1 h
          exact absurd List.mem_cons_self plain
  | case2 c rest _ ih =>
      cases row with
      | nil => exact List.nil_prefix
      | cons c row =>
          obtain ⟨rfl, tail⟩ := List.cons_prefix_cons.1 h
          exact List.cons_prefix_cons.2 ⟨rfl, ih (List.not_mem_of_not_mem_cons plain) tail⟩
  | case3 => exact h

/-- And what stands anywhere in it stands in the text. -/
theorem infix_of_joinLineEnds (plain : '\n' ∉ row) {chars : List Char}
    (h : row <:+: Text.joinLineEnds chars) : row <:+: chars := by
  fun_induction Text.joinLineEnds chars with
  | case1 rest ih =>
      rcases List.infix_cons_iff.1 h with first | later
      · rw [← Text.joinLineEnds] at first
        exact (prefix_of_joinLineEnds plain first).isInfix
      · exact (ih later).trans (List.suffix_append ['\r', '\n'] rest).isInfix
  | case2 c rest other ih =>
      rcases List.infix_cons_iff.1 h with first | later
      · rw [← Text.joinLineEnds] at first
        exact (prefix_of_joinLineEnds plain first).isInfix
        exact other
      · exact List.infix_cons (ih later)
  | case3 => exact h

end

/-- A document is too long to be read only in a row of digits. -/
theorem longRow_of_parse {text : String} (h : parse text = .error .tooManyDigits) :
    LongRow text.toList := by
  have reads : Reads (fun _ => []) (Text.joinLineEnds text.toList) (parse text) :=
    Reads.map (Document.read_reads _ _ _) fun _ => rfl
  obtain ⟨row, here, only, long⟩ := reads.long h
  have plain : '\n' ∉ row := fun hmem => (only _ hmem).elim nofun nofun
  exact ⟨row, infix_of_joinLineEnds plain here, only, long⟩

end SymbolicHeap.Toml
