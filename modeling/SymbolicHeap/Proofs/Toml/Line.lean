/-
Lines written plainly, and how they are read.

A line is plain if its key or header is made of bare names and its value
is a truth value, a whole number, or a text between quotes in which
nothing has to be escaped.  Each of these is read up to its end
(`key_path`, `spells_bool`, `spells_int`, `spells_text`), so such lines
are read one after the other (`read_lines`).

A string that is not plain is never read as the characters that were
written (`plain_of_string?`): what it takes to write a character that
stands for itself is one character, and everything else takes more.
-/
import Mathlib.Data.Nat.Digits.Lemmas
import SymbolicHeap.Proofs.Toml.Reading

namespace SymbolicHeap.Toml

-- ================================================================ strings

/-- A character that stands for itself in a string on one line. -/
def IsPlain (c : Char) : Prop := c ≠ '"' ∧ c ≠ '\\' ∧ isIllegal c = false

instance (c : Char) : Decidable (IsPlain c) := inferInstanceAs (Decidable (_ ∧ _ ∧ _))

/-- A text that stands for itself in a string on one line. -/
def Plain (text : List Char) : Prop := ∀ c ∈ text, IsPlain c

instance (text : List Char) : Decidable (Plain text) :=
  decidable_of_iff (text.all fun c => decide (IsPlain c)) (by simp [Plain])

/-- A plain character stands for itself. -/
theorem basicString_cons_plain {c : Char} (plain : IsPlain c) (rest : List Char) :
    basicString (c :: rest) = prepend c (basicString rest) := by
  obtain ⟨quote, escape, legal⟩ := plain
  rw [basicString.eq_def]
  split <;> simp_all

/-- A plain text is read as it is written. -/
theorem basicString_plain {text : List Char} (plain : Plain text) (rest : List Char) :
    basicString (text ++ '"' :: rest) = .ok (text, rest) := by
  induction text with
  | nil => rfl
  | cons c text ih =>
      obtain ⟨here, more⟩ := List.forall_mem_cons.1 plain
      rw [List.cons_append, basicString_cons_plain here, ih more]
      rfl

/-- Two more quotes would begin a string of several lines. -/
theorem string?_quote {chars : List Char} (single : ∀ rest, chars ≠ '"' :: '"' :: rest) :
    string? ('"' :: chars) = some (basicString chars) := by
  unfold string?
  split
  next rest here => exact absurd (List.cons.inj here).2 (single rest)
  next here => rw [(List.cons.inj here).2]
  next here => exact absurd (List.cons.inj here).1 (by decide)
  next here => exact absurd (List.cons.inj here).1 (by decide)
  next quote _ _ => exact (quote chars rfl).elim

/-- A plain text between quotes is read back. -/
theorem string?_plain {text rest : List Char} (plain : Plain text) (ends : rest.head? ≠ some '"') :
    string? ('"' :: (text ++ '"' :: rest)) = some (.ok (text, rest)) := by
  rw [← basicString_plain plain rest]
  refine string?_quote fun more here => ?_
  cases text with
  | nil =>
      refine ends ?_
      rw [(List.cons.inj here).2]
      rfl
  | cons c text =>
      obtain ⟨rfl, -⟩ := List.cons.inj here
      exact (plain _ List.mem_cons_self).1 rfl

/-- What was read of a string: the characters as they stood there, all of
them plain, or fewer than stood there. -/
def Unescaped (body text : List Char) : Prop :=
  body = text ∧ Plain text ∨ text.length < body.length

theorem Unescaped.cons {body text : List Char} {c : Char} (plain : IsPlain c) :
    Unescaped body text → Unescaped (c :: body) (c :: text) := by
  rintro (⟨rfl, all⟩ | shorter)
  · exact .inl ⟨rfl, List.forall_mem_cons.2 ⟨plain, all⟩⟩
  · exact .inr (Nat.succ_lt_succ shorter)

/-- Escapes only make a text longer. -/
theorem Unescaped.length_le {body text : List Char} :
    Unescaped body text → text.length ≤ body.length := by
  rintro (⟨rfl, -⟩ | shorter)
  · exact Nat.le_refl _
  · exact shorter.le

theorem prepend_eq_ok {c : Char} {step : Read} {text rest : List Char} :
    prepend c step = .ok (text, rest) ↔ ∃ tail, text = c :: tail ∧ step = .ok (tail, rest) := by
  unfold prepend
  rw [map_eq_ok]
  constructor
  · rintro ⟨⟨tail, left⟩, read, same⟩
    cases same
    exact ⟨tail, rfl, read⟩
  · rintro ⟨tail, rfl, read⟩
    exact ⟨(tail, rest), read, rfl⟩

theorem prependEscaped_eq_ok {c : Except Fault Char} {step : Read} {text rest : List Char}
    (h : prependEscaped c step = .ok (text, rest)) :
    ∃ d tail, text = d :: tail ∧ step = .ok (tail, rest) := by
  obtain ⟨d, -, h⟩ := bind_eq_ok.1 h
  exact ⟨d, prepend_eq_ok.1 h⟩

/-- A string on one line ends with a quote; what stood in front of it was
read as it is, or is longer than what was read. -/
theorem basicString_unescaped {chars text rest : List Char}
    (h : basicString chars = .ok (text, rest)) :
    ∃ body, chars = body ++ '"' :: rest ∧ Unescaped body text := by
  fun_induction basicString chars generalizing text with
  | case1 | case6 | case7 => cases h
  | case2 rest =>
      cases h
      exact ⟨[], rfl, .inl ⟨rfl, List.forall_mem_nil _⟩⟩
  | case3 a b c d rest ih =>
      obtain ⟨e, tail, rfl, read⟩ := prependEscaped_eq_ok h
      obtain ⟨body, rfl, unescaped⟩ := ih read
      refine ⟨'\\' :: 'u' :: a :: b :: c :: d :: body, rfl, .inr ?_⟩
      have := unescaped.length_le
      simp only [List.length_cons]
      omega
  | case4 a b c d e f g h' rest ih =>
      obtain ⟨i, tail, rfl, read⟩ := prependEscaped_eq_ok h
      obtain ⟨body, rfl, unescaped⟩ := ih read
      refine ⟨'\\' :: 'U' :: a :: b :: c :: d :: e :: f :: g :: h' :: body, rfl, .inr ?_⟩
      have := unescaped.length_le
      simp only [List.length_cons]
      omega
  | case5 c rest _ _ _ _ ih =>
      obtain ⟨tail, rfl, read⟩ := prepend_eq_ok.1 h
      obtain ⟨body, rfl, unescaped⟩ := ih read
      refine ⟨'\\' :: c :: body, rfl, .inr ?_⟩
      have := unescaped.length_le
      simp only [List.length_cons]
      omega
  | case8 c rest quote _ _ escape legal ih =>
      obtain ⟨tail, rfl, read⟩ := prepend_eq_ok.1 h
      obtain ⟨body, rfl, unescaped⟩ := ih read
      refine ⟨c :: body, rfl, unescaped.cons ⟨quote, fun here => ?_, eq_false_of_ne_true legal⟩⟩
      cases body with
      | nil => exact escape _ _ here rfl
      | cons d body => exact escape _ _ here rfl

/-- What closes a string of several lines are quotes. -/
theorem closing_quotes (quote : Char) (chars : List Char) :
    ∃ n, (closing quote chars).1 = List.replicate n quote ∧
      chars = List.replicate n quote ++ (closing quote chars).2 := by
  unfold closing
  split
  next c d rest =>
    split
    next here =>
      subst here
      split
      next here =>
        subst here
        exact ⟨2, rfl, rfl⟩
      next => exact ⟨1, rfl, rfl⟩
    next => exact ⟨0, rfl, rfl⟩
  next c =>
    split
    next here =>
      subst here
      exact ⟨1, rfl, rfl⟩
    next => exact ⟨0, rfl, rfl⟩
  next => exact ⟨0, rfl, rfl⟩

/-- A string of several lines ends with three quotes at least, two of which
come before the last. -/
theorem multilineString_longer {passing : Passing} {chars text rest : List Char}
    (h : multilineString passing chars = .ok (text, rest)) :
    ∃ body, chars = body ++ '"' :: rest ∧ text.length + 2 ≤ body.length := by
  fun_induction multilineString passing chars generalizing text with
  | case1 | case4 | case13 | case14 | case15 => cases h
  | case2 c _ _ ih | case5 _ c _ _ _ ih =>
      obtain ⟨body, rfl, longer⟩ := ih h
      exact ⟨c :: body, rfl, longer.trans (Nat.le_succ _)⟩
  | case3 _ _ ih =>
      obtain ⟨body, rfl, longer⟩ := ih h
      exact ⟨'\n' :: body, rfl, longer.trans (Nat.le_succ _)⟩
  | case6 _ _ more =>
      obtain ⟨n, quotes, whole⟩ := closing_quotes '"' more
      rw [Except.ok.inj h] at quotes whole
      dsimp only at quotes whole
      refine ⟨List.replicate (n + 2) '"', ?_, ?_⟩
      · rw [whole, List.append_cons, ← List.replicate_succ']
        rfl
      · rw [quotes, List.length_replicate, List.length_replicate]
  | case7 _ _ a b c d _ _ ih =>
      obtain ⟨e, tail, rfl, read⟩ := prependEscaped_eq_ok h
      obtain ⟨body, rfl, longer⟩ := ih read
      refine ⟨'\\' :: 'u' :: a :: b :: c :: d :: body, rfl, ?_⟩
      simp only [List.length_cons]
      omega
  | case8 _ _ a b c d e f g h' _ _ ih =>
      obtain ⟨i, tail, rfl, read⟩ := prependEscaped_eq_ok h
      obtain ⟨body, rfl, longer⟩ := ih read
      refine ⟨'\\' :: 'U' :: a :: b :: c :: d :: e :: f :: g :: h' :: body, rfl, ?_⟩
      simp only [List.length_cons]
      omega
  | case9 _ _ _ _ ih | case10 _ _ _ _ ih | case11 _ _ _ _ ih =>
      obtain ⟨body, rfl, longer⟩ := ih h
      exact ⟨_ :: _ :: body, rfl, longer.trans (Nat.le_add_right _ 2)⟩
  | case12 _ _ e _ _ _ _ _ _ _ _ _ ih =>
      obtain ⟨tail, rfl, read⟩ := prepend_eq_ok.1 h
      obtain ⟨body, rfl, longer⟩ := ih read
      exact ⟨'\\' :: e :: body, rfl, (Nat.succ_le_succ longer).trans (Nat.le_succ _)⟩
  | case16 _ _ c _ _ _ _ _ _ _ _ _ _ _ ih =>
      obtain ⟨tail, rfl, read⟩ := prepend_eq_ok.1 h
      obtain ⟨body, rfl, longer⟩ := ih read
      exact ⟨c :: body, rfl, Nat.succ_le_succ longer⟩

/-- A string in double quotes, on one line or on several, ends with a
quote; what stood in front of it was read as it is, or is longer than what
was read. -/
theorem string?_unescaped {chars text rest : List Char}
    (h : string? ('"' :: chars) = some (.ok (text, rest))) :
    ∃ body, chars = body ++ '"' :: rest ∧ Unescaped body text := by
  unfold string? at h
  split at h
  next more here =>
    obtain ⟨-, rfl⟩ := List.cons.inj here
    obtain ⟨skipped, dropped⟩ := dropLineEnd_suffix more
    obtain ⟨body, whole, longer⟩ := multilineString_longer (Option.some.inj h)
    refine ⟨'"' :: '"' :: (skipped ++ body), ?_, .inr ?_⟩
    · rw [← dropped, whole]
      simp
    · simp only [List.length_cons, List.length_append]
      omega
  next here =>
    obtain ⟨-, rfl⟩ := List.cons.inj here
    exact basicString_unescaped (Option.some.inj h)
  next here => exact absurd (List.cons.inj here).1 (by decide)
  next here => exact absurd (List.cons.inj here).1 (by decide)
  next => cases h

theorem string?_quote_ne_none (chars : List Char) : string? ('"' :: chars) ≠ none := by
  unfold string?
  split
  next => nofun
  next => nofun
  next => nofun
  next => nofun
  next quote _ _ => exact (quote chars rfl).elim

/-- Where a string begins, the value is a text. -/
theorem value_of_string? {chars : List Char} {read : Read} (h : string? chars = some read)
    (fuel : Nat) :
    value (fuel + 1) chars = read.map fun read => (.text (String.ofList read.1), read.2) := by
  unfold value
  rw [h]

/-- What begins with a quote is a text. -/
theorem text_of_value {fuel : Nat} {chars rest : List Char} {item : Datum}
    (h : value fuel ('"' :: chars) = .ok (item, rest)) :
    ∃ text, item = .text (String.ofList text) ∧
      string? ('"' :: chars) = some (.ok (text, rest)) := by
  cases fuel with
  | zero => cases h
  | succ fuel =>
      cases here : string? ('"' :: chars) with
      | none => exact absurd here (string?_quote_ne_none chars)
      | some read =>
          rw [value_of_string? here] at h
          obtain ⟨⟨text, left⟩, rfl, same⟩ := map_eq_ok.1 h
          cases same
          exact ⟨text, rfl, rfl⟩

-- =================================================================== keys

/-- A name that needs no quotes in a key. -/
def Bare (name : String) : Prop := name ≠ "" ∧ ∀ c ∈ name.toList, isBare c

instance (name : String) : Decidable (Bare name) :=
  decidable_of_iff (name ≠ "" ∧ name.toList.all isBare) (by simp [Bare])

theorem Bare.head {name : String} (bare : Bare name) :
    ∃ c tail, name.toList = c :: tail ∧ isBare c := by
  obtain ⟨nonempty, all⟩ := bare
  cases here : name.toList with
  | nil => exact absurd (String.toList_eq_nil_iff.1 here) nonempty
  | cons c tail => exact ⟨c, tail, rfl, all c (by simp [here])⟩

/-- Nothing that begins so goes on a bare name. -/
def EndsName (chars : List Char) : Prop := ∀ c ∈ chars.head?, isBare c = false

theorem takeWhile_bare {name rest : List Char} (all : ∀ c ∈ name, isBare c) (ends : EndsName rest) :
    (name ++ rest).takeWhile isBare = name ∧ (name ++ rest).dropWhile isBare = rest := by
  rw [List.takeWhile_append_of_pos all, List.dropWhile_append_of_pos all]
  cases rest with
  | nil => simp
  | cons c rest =>
      have other : isBare c = false := ends c rfl
      simp [other]

/-- A bare name needs no quotes. -/
theorem keyPart_bare {name : String} (bare : Bare name) {rest : List Char} (ends : EndsName rest) :
    keyPart (name.toList ++ rest) = .ok (name, rest) := by
  obtain ⟨taken, dropped⟩ := takeWhile_bare bare.2 ends
  obtain ⟨c, tail, here, first⟩ := bare.head
  rw [here] at taken dropped ⊢
  unfold keyPart
  split
  next same =>
    rw [(List.cons.inj same).1] at first
    exact absurd first (by decide)
  next same =>
    rw [(List.cons.inj same).1] at first
    exact absurd first (by decide)
  next =>
    rw [taken, dropped]
    dsimp only
    rw [← here, String.ofList_toList]

theorem skipBlanks_of_head {c : Char} {rest : List Char} (h : isBlank c = false) :
    skipBlanks (c :: rest) = c :: rest :=
  List.dropWhile_cons_of_neg (by rw [h]; exact Bool.false_ne_true)

theorem isBlank_of_isBare {c : Char} (h : isBare c) : isBlank c = false := by
  unfold isBlank
  rw [Bool.or_eq_false_iff, decide_eq_false_iff_not, decide_eq_false_iff_not]
  constructor
  · rintro rfl
    exact absurd h (by decide)
  · rintro rfl
    exact absurd h (by decide)

/-- The parts of a key behind the first. -/
def tailText (path : List String) : List Char := path.flatMap fun name => '.' :: name.toList

theorem length_le_tailText (path : List String) : path.length ≤ (tailText path).length := by
  induction path with
  | nil => exact Nat.le_refl _
  | cons name path ih =>
      rw [tailText, List.flatMap_cons, ← tailText, List.length_append, List.length_cons,
        List.length_cons]
      omega

theorem endsName_tailText (path : List String) {rest : List Char} (ends : EndsName rest) :
    EndsName (tailText path ++ rest) := by
  cases path with
  | nil => exact ends
  | cons name path =>
      rintro c ⟨⟩
      rfl

theorem toList_pathText (name : String) (path : List String) :
    (pathText (name :: path)).toList = name.toList ++ tailText path := by
  induction path generalizing name with
  | nil => simp [pathText, tailText]
  | cons next path ih =>
      rw [pathText, String.intercalate_cons_of_ne_nil (List.cons_ne_nil _ _), ← pathText,
        String.toList_append, String.toList_append, ih, List.append_assoc]
      rfl

/-- Bare names behind dots are read back, with fuel for each. -/
theorem keyTail_bare {path : List String} (bare : ∀ name ∈ path, Bare name) {rest : List Char}
    (ends : EndsName rest) (last : (skipBlanks rest).head? ≠ some '.') {fuel : Nat}
    (enough : path.length < fuel) :
    keyTail fuel (tailText path ++ rest) = .ok (path, skipBlanks rest) := by
  induction path generalizing fuel with
  | nil =>
      obtain ⟨fuel, rfl⟩ := Nat.exists_eq_succ_of_ne_zero (Nat.ne_of_gt enough)
      unfold keyTail
      split
      next here => exact absurd (congrArg List.head? here) last
      next => rfl
  | cons name path ih =>
      obtain ⟨fuel, rfl⟩ := Nat.exists_eq_succ_of_ne_zero (Nat.ne_of_gt (Nat.zero_lt_of_lt enough))
      obtain ⟨here, further⟩ := List.forall_mem_cons.1 bare
      obtain ⟨c, tail, first, plain⟩ := here.head
      have whole : tailText (name :: path) ++ rest
          = '.' :: (name.toList ++ (tailText path ++ rest)) := by
        simp [tailText]
      have start : skipBlanks (name.toList ++ (tailText path ++ rest))
          = name.toList ++ (tailText path ++ rest) := by
        rw [first]
        exact skipBlanks_of_head (isBlank_of_isBare plain)
      rw [whole]
      unfold keyTail
      rw [skipBlanks_of_head rfl]
      refine bind_eq_ok.2 ⟨(name, tailText path ++ rest), ?_,
        bind_eq_ok.2 ⟨_, ih further (Nat.lt_of_succ_lt_succ enough), rfl⟩⟩
      rw [start]
      exact keyPart_bare here (endsName_tailText path ends)

/-- A path of bare names is read as it is written. -/
theorem key_path {name : String} {path : List String} (bare : ∀ part ∈ name :: path, Bare part)
    {rest : List Char} (ends : EndsName rest) (last : (skipBlanks rest).head? ≠ some '.') :
    key ((pathText (name :: path)).toList ++ rest) = .ok (name :: path, skipBlanks rest) := by
  obtain ⟨here, further⟩ := List.forall_mem_cons.1 bare
  obtain ⟨c, tail, first, -⟩ := here.head
  rw [toList_pathText, List.append_assoc]
  unfold key
  rw [keyPart_bare here (endsName_tailText path ends)]
  refine bind_eq_ok.2 ⟨_, rfl, bind_eq_ok.2 ⟨_, keyTail_bare further ends last ?_, rfl⟩⟩
  have := length_le_tailText path
  rw [first, List.cons_append, List.length_cons, List.length_append, List.length_append]
  omega

-- ================================================================ numbers

/-- A row of decimal digits up to the end of a line. -/
def Row (chars : List Char) : Prop :=
  ∃ digits more, (∀ c ∈ digits, c.isDigit) ∧ chars = digits ++ '\n' :: more

theorem Row.of_twoDigits {low high : Nat} {chars rest : List Char} {n : Nat} (row : Row chars)
    (h : twoDigits low high chars = some (n, rest)) : Row rest := by
  obtain ⟨digits, more, all, rfl⟩ := row
  unfold twoDigits at h
  split at h
  next a b left here =>
    dsimp only at h
    split at h
    next both =>
      obtain ⟨first, second, -⟩ := both
      cases h
      -- the two are no line feeds, so both of them are digits of the row
      cases digits with
      | nil =>
          rw [List.nil_append] at here
          rw [← (List.cons.inj here).1] at first
          exact absurd first (by decide)
      | cons d digits =>
          rw [List.cons_append] at here
          have here := (List.cons.inj here).2
          cases digits with
          | nil =>
              rw [List.nil_append] at here
              rw [← (List.cons.inj here).1] at second
              exact absurd second (by decide)
          | cons e digits =>
              rw [List.cons_append] at here
              have all := (List.forall_mem_cons.1 (List.forall_mem_cons.1 all).2).2
              exact ⟨digits, more, all, (List.cons.inj here).2.symm⟩
    next => cases h
  next => cases h

theorem Row.mark_eq_none {c : Char} {chars : List Char} (row : Row chars)
    (other : c.isDigit = false) (inLine : c ≠ '\n') : mark c chars = none := by
  obtain ⟨digits, more, all, rfl⟩ := row
  cases digits with
  | nil =>
      rw [List.nil_append, mark, if_neg (Ne.symm inLine)]
  | cons d digits =>
      rw [List.cons_append, mark, if_neg]
      rintro rfl
      have digit := all d List.mem_cons_self
      rw [other] at digit
      exact Bool.false_ne_true digit

/-- A row of digits is no date and no time of day. -/
theorem Row.moment?_eq_none {chars : List Char} (row : Row chars) : moment? chars = none := by
  have noDate : date? chars = none := by
    rw [Option.eq_none_iff_forall_ne_some]
    intro found h
    unfold date? at h
    obtain ⟨⟨_, first⟩, century, h⟩ := Option.bind_eq_some_iff.1 h
    obtain ⟨⟨_, second⟩, year, h⟩ := Option.bind_eq_some_iff.1 h
    obtain ⟨third, dash, -⟩ := Option.bind_eq_some_iff.1 h
    rw [((row.of_twoDigits century).of_twoDigits year).mark_eq_none rfl (by decide)] at dash
    cases dash
  have noTime : timeOfDay? chars = none := by
    rw [Option.eq_none_iff_forall_ne_some]
    intro found h
    unfold timeOfDay? at h
    obtain ⟨⟨_, first⟩, hour, h⟩ := Option.bind_eq_some_iff.1 h
    obtain ⟨second, colon, -⟩ := Option.bind_eq_some_iff.1 h
    rw [(row.of_twoDigits hour).mark_eq_none rfl (by decide)] at colon
    cases colon
  unfold moment?
  rw [noDate, noTime]
  rfl

/-- A row of digits is read up to the end of its line. -/
theorem moreDigits_row_end {digits : List Char} (all : ∀ c ∈ digits, c.isDigit) (more : List Char) :
    moreDigits Char.isDigit (digits ++ '\n' :: more) = (digits, '\n' :: more) := by
  induction digits with
  | nil =>
      rw [List.nil_append]
      rfl
  | cons c digits ih =>
      obtain ⟨digit, further⟩ := List.forall_mem_cons.1 all
      rw [List.cons_append, moreDigits.eq_def]
      split
      next here =>
        rw [(List.cons.inj here).1] at digit
        exact absurd digit (by decide)
      next here =>
        obtain ⟨rfl, rfl⟩ := List.cons.inj here
        rw [if_pos digit, ih further]
      next here => cases here

theorem isDigit_toDigits (n : Nat) : ∀ c ∈ Nat.toDigits 10 n, c.isDigit :=
  fun _ => Nat.isDigit_of_mem_toDigits (by decide) (by decide)

/-- No number but zero begins with a zero. -/
theorem eq_zero_of_toDigits {n : Nat} {digits : List Char} (h : Nat.toDigits 10 n = '0' :: digits) :
    n = 0 := by
  induction n using Nat.strongRecOn generalizing digits with
  | ind n ih =>
      by_cases small : n < 10
      · rw [Nat.toDigits_of_lt_base small] at h
        have zero : ∀ d < 10, Nat.digitChar d = '0' → d = 0 := by decide
        exact zero n small (List.cons.inj h).1
      · have large := Nat.le_of_not_lt small
        rw [Nat.toDigits_of_base_le (by decide) large] at h
        cases front : Nat.toDigits 10 (n / 10) with
        | nil => exact absurd front Nat.toDigits_ne_nil
        | cons c tail =>
            rw [front, List.cons_append] at h
            rw [(List.cons.inj h).1] at front
            have nothing := ih (n / 10) (Nat.div_lt_self (by omega) (by decide)) front
            omega

section

variable (n : Nat) (more : List Char)

/-- What a number is written with, up to the end of a line. -/
theorem toDigits_cases :
    (∃ c tail, Nat.toDigits 10 n = c :: tail ∧ c.isDigit ∧ (∀ d ∈ tail, d.isDigit) ∧ c ≠ '0') ∨
      Nat.toDigits 10 n = ['0'] := by
  cases here : Nat.toDigits 10 n with
  | nil => exact absurd here Nat.toDigits_ne_nil
  | cons c tail =>
      have all := isDigit_toDigits n
      rw [here] at all
      obtain ⟨first, further⟩ := List.forall_mem_cons.1 all
      by_cases zero : c = '0'
      · subst zero
        rw [eq_zero_of_toDigits here] at here
        exact .inr here.symm
      · exact .inl ⟨c, tail, rfl, first, further, zero⟩

/-- No number is written with a zero in front. -/
theorem wholeDigits_toDigits :
    wholeDigits (Nat.toDigits 10 n ++ '\n' :: more) = some (Nat.toDigits 10 n, '\n' :: more) := by
  rcases toDigits_cases n with ⟨c, tail, here, first, further, nonzero⟩ | zero
  · rw [here, List.cons_append]
    unfold wholeDigits
    split
    next same => exact absurd (List.cons.inj same).1 nonzero
    next =>
      rw [digitRow, if_pos first, moreDigits_row_end further]
  · rw [zero]
    rfl

theorem toDigits_head : ∃ c tail, Nat.toDigits 10 n = c :: tail ∧ c.isDigit := by
  rcases toDigits_cases n with ⟨c, tail, here, digit, -⟩ | zero
  · exact ⟨c, tail, here, digit⟩
  · exact ⟨'0', [], zero, rfl⟩

/-- Nor with the mark of a base. -/
theorem basedNumber?_toDigits : basedNumber? (Nat.toDigits 10 n ++ '\n' :: more) = none := by
  rcases toDigits_cases n with ⟨c, tail, here, first, further, nonzero⟩ | zero
  · rw [here, List.cons_append]
    unfold basedNumber?
    split
    next same => exact absurd (List.cons.inj same).1 nonzero
    next => rfl
  · rw [zero]
    rfl

theorem decimalNumber?_of_sign {chars : List Char} {negative : Bool}
    (h : sign chars = (negative, Nat.toDigits 10 n ++ '\n' :: more)) :
    decimalNumber? chars
      = some ((wholeNumber negative (Nat.toDigits 10 n)).map fun item => (item, '\n' :: more)) := by
  unfold decimalNumber?
  rw [h]
  dsimp only
  rw [wholeDigits_toDigits]
  rfl

/-- So what is written of a natural number is read as a whole number. -/
theorem number?_toDigits : number? (Nat.toDigits 10 n ++ '\n' :: more)
    = some ((wholeNumber false (Nat.toDigits 10 n)).map fun item => (item, '\n' :: more)) := by
  have unsigned : sign (Nat.toDigits 10 n ++ '\n' :: more)
      = (false, Nat.toDigits 10 n ++ '\n' :: more) := by
    obtain ⟨c, tail, here, digit⟩ := toDigits_head n
    rw [here, List.cons_append]
    unfold sign
    split
    next same =>
      rw [(List.cons.inj same).1] at digit
      exact absurd digit (by decide)
    next same =>
      rw [(List.cons.inj same).1] at digit
      exact absurd digit (by decide)
    next => rfl
  unfold number?
  rw [basedNumber?_toDigits, decimalNumber?_of_sign n more unsigned]
  rfl

/-- And with a minus in front as a negative one. -/
theorem number?_minus : number? ('-' :: (Nat.toDigits 10 n ++ '\n' :: more))
    = some ((wholeNumber true (Nat.toDigits 10 n)).map fun item => (item, '\n' :: more)) := by
  have based : basedNumber? ('-' :: (Nat.toDigits 10 n ++ '\n' :: more)) = none := rfl
  unfold number?
  rw [based, decimalNumber?_of_sign n more rfl]
  rfl

end

/-- What begins with a digit or a minus is a number, if it is no date. -/
theorem value_of_number {c : Char} {rest : List Char} {read : Except Fault (Datum × List Char)}
    (h : c.isDigit ∨ c = '-') (noDate : moment? (c :: rest) = none)
    (number : number? (c :: rest) = some read) (fuel : Nat) :
    value (fuel + 1) (c :: rest) = read := by
  have other : ∀ d : Char, d.isDigit = false → d ≠ '-' → ∀ more, c :: rest ≠ d :: more := by
    rintro d noDigit noMinus more ⟨⟩
    rcases h with digit | minus
    · rw [noDigit] at digit
      exact Bool.false_ne_true digit
    · exact noMinus minus
  have noString : string? (c :: rest) = none := by
    unfold string?
    split
    next here => exact absurd here (other _ rfl (by decide) _)
    next here => exact absurd here (other _ rfl (by decide) _)
    next here => exact absurd here (other _ rfl (by decide) _)
    next here => exact absurd here (other _ rfl (by decide) _)
    next => rfl
  unfold value
  rw [noString]
  dsimp only
  split
  next here => exact absurd here (other _ rfl (by decide) _)
  next here => exact absurd here (other _ rfl (by decide) _)
  next here => exact absurd here (other _ rfl (by decide) _)
  next here => exact absurd here (other _ rfl (by decide) _)
  next =>
    rw [noDate, number]
    rfl

/-- How whole numbers are written. -/
theorem toList_ofNat (n : Nat) : (toString (Int.ofNat n)).toList = Nat.toDigits 10 n := by
  show (toString n).toList = _
  rw [Nat.toString_eq_ofList_toDigits, String.toList_ofList]

theorem toList_negSucc (n : Nat) :
    (toString (Int.negSucc n)).toList = '-' :: Nat.toDigits 10 (n + 1) := by
  show ("-" ++ toString (n + 1)).toList = _
  rw [String.toList_append, Nat.toString_eq_ofList_toDigits, String.toList_ofList,
    String.toList_ofList]
  rfl

/-- A whole number is read up to the end of its line, if it has not too
many digits. -/
theorem value_int (fuel : Nat) (n : Int) (more : List Char) :
    value (fuel + 1) ((toString n).toList ++ '\n' :: more)
      = (wholeNumber (decide (n < 0)) (Nat.toDigits 10 n.natAbs)).map
          fun item => (item, '\n' :: more) := by
  cases n with
  | ofNat n =>
      have row : Row (Nat.toDigits 10 n ++ '\n' :: more) := ⟨_, more, isDigit_toDigits n, rfl⟩
      have noDate := row.moment?_eq_none
      have number := number?_toDigits n more
      obtain ⟨c, tail, here, digit⟩ := toDigits_head n
      rw [toList_ofNat]
      rw [here, List.cons_append] at noDate number ⊢
      rw [value_of_number (.inl digit) noDate number, ← here]
      rfl
  | negSucc n =>
      obtain ⟨c, tail, here, -⟩ := toDigits_head (n + 1)
      have noDate : moment? ('-' :: (Nat.toDigits 10 (n + 1) ++ '\n' :: more)) = none := by
        rw [here]
        rfl
      rw [toList_negSucc, List.cons_append,
        value_of_number (.inr rfl) noDate (number?_minus _ more), decide_eq_true (Int.negSucc_lt_zero n)]
      rfl

/-- It is the number that was written, if it has few enough digits. -/
theorem wholeNumber_toDigits {n : Int} (few : n.natAbs < 10 ^ Text.maxDigits) :
    wholeNumber (decide (n < 0)) (Nat.toDigits 10 n.natAbs) = .ok (.int n) := by
  have short : (Nat.toDigits 10 n.natAbs).length ≤ Text.maxDigits :=
    (Nat.length_toDigits_le_iff (by decide) (by decide)).2 few
  have size : Decimal.digitsValue (Nat.toDigits 10 n.natAbs) = n.natAbs :=
    Nat.ofDigitChars_ten_toDigits
  unfold wholeNumber
  rw [if_neg (Nat.not_lt_of_le short), size]
  dsimp only
  congr 2
  by_cases negative : n < 0
  · rw [if_pos (decide_eq_true negative)]
    omega
  · rw [if_neg (by rwa [decide_eq_true_eq])]
    omega

/-- With more digits it is refused. -/
theorem wholeNumber_too_long {n : Int} (many : ¬ n.natAbs < 10 ^ Text.maxDigits) :
    wholeNumber (decide (n < 0)) (Nat.toDigits 10 n.natAbs) = .error .tooManyDigits := by
  have long : Text.maxDigits < (Nat.toDigits 10 n.natAbs).length := by
    rw [← Nat.not_le, Nat.length_toDigits_le_iff (by decide) (by decide)]
    exact many
  unfold wholeNumber
  rw [if_pos long]

-- ================================================================== lines

/-- A text that a value is read from, up to the end of its line. -/
structure Spells (text : String) (item : Datum) : Prop where
  starts : ∃ c tail, text.toList = c :: tail ∧ isBlank c = false
  reads : ∀ fuel more, value (fuel + 1) (text.toList ++ '\n' :: more) = .ok (item, '\n' :: more)

theorem spells_bool (b : Bool) : Spells (if b then "true" else "false") (.bool b) := by
  cases b with
  | false => exact ⟨⟨'f', _, rfl, rfl⟩, fun _ _ => rfl⟩
  | true => exact ⟨⟨'t', _, rfl, rfl⟩, fun _ _ => rfl⟩

theorem int_starts (n : Int) : ∃ c tail, (toString n).toList = c :: tail ∧ isBlank c = false := by
  cases n with
  | ofNat n =>
      obtain ⟨c, tail, here, digit⟩ := toDigits_head n
      refine ⟨c, tail, by rw [toList_ofNat, here], isBlank_of_isBare ?_⟩
      rw [isBare, Char.isAlphanum, digit, Bool.or_true, Bool.true_or, Bool.true_or]
  | negSucc n => exact ⟨'-', _, toList_negSucc n, rfl⟩

theorem spells_int {n : Int} (few : n.natAbs < 10 ^ Text.maxDigits) :
    Spells (toString n) (.int n) where
  starts := int_starts n
  reads fuel more := by
    rw [value_int, wholeNumber_toDigits few]
    rfl

theorem spells_text {text : String} (plain : Plain text.toList) :
    Spells ("\"" ++ text ++ "\"") (.text text) := by
  have whole : ("\"" ++ text ++ "\"").toList = '"' :: (text.toList ++ ['"']) := by
    rw [String.toList_append, String.toList_append]
    rfl
  refine ⟨⟨'"', _, whole, rfl⟩, fun fuel more => ?_⟩
  rw [whole, List.cons_append, List.append_assoc, List.singleton_append,
    value_of_string? (string?_plain plain (by simp))]
  show Except.ok (Datum.text (String.ofList text.toList), '\n' :: more) = _
  rw [String.ofList_toList]

/-- A line that leads from one state of a document to another. -/
def Line (document : Document) (line : String) (after : Document) : Prop :=
  ∀ more, document.statement (line.toList ++ '\n' :: more) = .ok (after, '\n' :: more)

theorem line_empty (document : Document) : Line document "" document := fun _ => rfl

/-- A header opens its table for the lines that follow. -/
theorem line_header {document after : Document} {name : String} {path : List String}
    (bare : ∀ part ∈ name :: path, Bare part)
    (added : document.addHeader (name :: path) = .ok after) :
    Line document ("[" ++ pathText (name :: path) ++ "]") after := by
  intro more
  have whole : ("[" ++ pathText (name :: path) ++ "]").toList ++ '\n' :: more
      = '[' :: ((pathText (name :: path)).toList ++ ']' :: '\n' :: more) := by
    rw [String.toList_append, String.toList_append]
    simp
  have keyRead : key ((pathText (name :: path)).toList ++ ']' :: '\n' :: more)
      = .ok (name :: path, ']' :: '\n' :: more) :=
    key_path bare (by rintro c ⟨⟩; rfl) (by nofun)
  obtain ⟨c, tail, first, plain⟩ := (List.forall_mem_cons.1 bare).1.head
  rw [whole, Document.statement, skipBlanks_of_head rfl]
  rw [toList_pathText, first, List.cons_append, List.cons_append] at keyRead ⊢
  split
  next here => cases here
  next here => exact absurd (List.cons.inj here).1 (by decide)
  next here => exact absurd (List.cons.inj here).1 (by decide)
  next here =>
    rw [(List.cons.inj (List.cons.inj here).2).1] at plain
    exact absurd plain (by decide)
  next rest _ here =>
    rw [← (List.cons.inj here).2, skipBlanks_of_head (isBlank_of_isBare plain)]
    exact bind_eq_ok.2 ⟨_, keyRead, bind_eq_ok.2 ⟨_, added, rfl⟩⟩
  next _ noTable => exact (noTable _ rfl).elim

/-- Key and value on a line; the value may be whatever is read there. -/
theorem statement_field (document : Document) {name : String} (bare : Bare name) {c : Char}
    (starts : isBlank c = false) (rest : List Char) :
    document.statement ((name ++ " = ").toList ++ c :: rest) = (do
      let (item, rest) ← value (2 * rest.length + 6) (c :: rest)
      return (← document.addValue [name] item, rest)) := by
  have whole : (name ++ " = ").toList ++ c :: rest
      = name.toList ++ ' ' :: '=' :: ' ' :: c :: rest := by
    rw [String.toList_append]
    simp
  have keyRead : key (name.toList ++ ' ' :: '=' :: ' ' :: c :: rest)
      = .ok ([name], '=' :: ' ' :: c :: rest) :=
    key_path (List.forall_mem_singleton.2 bare) (by rintro c ⟨⟩; rfl) (by nofun)
  have valueStart : skipBlanks (' ' :: c :: rest) = c :: rest := skipBlanks_of_head starts
  obtain ⟨d, tail, first, plain⟩ := bare.head
  rw [whole, Document.statement]
  rw [first, List.cons_append] at keyRead ⊢
  rw [skipBlanks_of_head (isBlank_of_isBare plain)]
  have other : ∀ e : Char, isBare e = false →
      ∀ more, d :: (tail ++ ' ' :: '=' :: ' ' :: c :: rest) ≠ e :: more := by
    rintro e notBare more same
    rw [(List.cons.inj same).1, notBare] at plain
    exact Bool.false_ne_true plain
  split
  next here => cases here
  next here => exact absurd here (other _ rfl _)
  next here => exact absurd here (other _ rfl _)
  next here => exact absurd here (other _ rfl _)
  next here => exact absurd here (other _ rfl _)
  next =>
    rw [keyRead]
    show (value _ (skipBlanks (' ' :: c :: rest)) >>= _) = _
    rw [valueStart]
    rfl

/-- A line with a key adds its value to the open table. -/
theorem line_field {document after : Document} {name text : String} {item : Datum}
    (bare : Bare name) (spells : Spells text item) (added : document.addValue [name] item = .ok after) :
    Line document (name ++ " = " ++ text) after := by
  intro more
  obtain ⟨c, tail, first, starts⟩ := spells.starts
  have whole : (name ++ " = " ++ text).toList ++ '\n' :: more
      = (name ++ " = ").toList ++ c :: (tail ++ '\n' :: more) := by
    rw [String.toList_append, first]
    simp
  have read := spells.reads (2 * (tail ++ '\n' :: more).length + 5) more
  rw [first, List.cons_append] at read
  rw [whole, statement_field document bare starts]
  exact bind_eq_ok.2 ⟨_, read, bind_eq_ok.2 ⟨_, added, rfl⟩⟩

/-- Lines that lead one after the other from one state of a document to
another. -/
inductive Lines : Document → List String → Document → Prop
  | nil (document : Document) : Lines document [] document
  | cons {document between after : Document} {line : String} {lines : List String} :
      Line document line between → Lines between lines after → Lines document (line :: lines) after

theorem Lines.append {document between after : Document} {lines more : List String}
    (first : Lines document lines between) (later : Lines between more after) :
    Lines document (lines ++ more) after := by
  induction first with
  | nil => exact later
  | cons here _ ih => exact .cons here (ih later)

/-- The characters of lines, each with its end. -/
def lineChars (lines : List String) : List Char := lines.flatMap fun line => line.toList ++ ['\n']

/-- Lines are read one after the other, and what comes then is read from
there. -/
theorem read_lines {document after : Document} {lines : List String}
    (leads : Lines document lines after) (fuel : Nat) (more : List Char) :
    Document.read (lines.length + fuel) document (lineChars lines ++ more)
      = Document.read fuel after more := by
  induction leads with
  | nil => simp [lineChars]
  | @cons document between after line lines here _ ih =>
      have whole : lineChars (line :: lines) ++ more
          = line.toList ++ '\n' :: (lineChars lines ++ more) := by
        simp [lineChars]
      rw [whole, List.length_cons, Nat.succ_add, Document.read, here]
      exact ih

-- ================================================================== texts

/-- Lines without carriage returns are whole already. -/
theorem joinLineEnds_append_of_not_mem {chars : List Char} (plain : '\r' ∉ chars)
    (more : List Char) :
    Text.joinLineEnds (chars ++ more) = chars ++ Text.joinLineEnds more := by
  induction chars with
  | nil => rfl
  | cons c chars ih =>
      have other : c ≠ '\r' := fun here => plain (here ▸ List.mem_cons_self)
      have rest : '\r' ∉ chars := fun hmem => plain (List.mem_cons_of_mem _ hmem)
      rw [List.cons_append, Text.joinLineEnds.eq_def]
      split
      next here => exact absurd (List.cons.inj here).1 other
      next here =>
        obtain ⟨rfl, rfl⟩ := List.cons.inj here
        rw [ih rest, List.cons_append]
      next here => cases here

/-- Line ends are not joined over what is no line feed. -/
theorem joinLineEnds_append_cons {c : Char} (h : c ≠ '\n') (chars more : List Char) :
    Text.joinLineEnds (chars ++ c :: more)
      = Text.joinLineEnds chars ++ Text.joinLineEnds (c :: more) := by
  fun_induction Text.joinLineEnds chars with
  | case1 rest ih =>
      rw [List.cons_append, List.cons_append, Text.joinLineEnds, ih, List.cons_append]
  | case2 d rest other ih =>
      rw [List.cons_append, Text.joinLineEnds, ih, List.cons_append]
      rintro next rfl here
      cases rest with
      | nil => exact h (List.cons.inj here).1
      | cons e rest => exact other _ rfl (by rw [(List.cons.inj here).1])
  | case3 => rfl

theorem length_joinLineEnds_le (chars : List Char) :
    (Text.joinLineEnds chars).length ≤ chars.length := by
  fun_induction Text.joinLineEnds chars with
  | case1 rest ih =>
      simp only [List.length_cons]
      omega
  | case2 c rest _ ih => exact Nat.succ_le_succ ih
  | case3 => exact Nat.le_refl _

theorem length_le_lineChars (lines : List String) : lines.length ≤ (lineChars lines).length := by
  induction lines with
  | nil => exact Nat.le_refl _
  | cons line lines ih =>
      rw [lineChars, List.flatMap_cons, ← lineChars]
      simp only [List.length_cons, List.length_append]
      omega

/-- Only line ends are added to what the lines hold. -/
theorem not_mem_lineChars {c : Char} {lines : List String} (h : c ≠ '\n')
    (absent : ∀ line ∈ lines, c ∉ line.toList) : c ∉ lineChars lines := by
  intro hmem
  obtain ⟨line, hline, hc⟩ := List.mem_flatMap.1 hmem
  rcases List.mem_append.1 hc with inside | last
  · exact absent line hline inside
  · exact h (List.mem_singleton.1 last)

theorem lineChars_append (lines more : List String) :
    lineChars (lines ++ more) = lineChars lines ++ lineChars more :=
  List.flatMap_append

/-- The text that is put together from lines. -/
theorem toList_intercalate_lines (lines : List String) :
    ("\n".intercalate (lines ++ [""])).toList = lineChars lines := by
  induction lines with
  | nil => rfl
  | cons line lines ih =>
      rw [List.cons_append, String.intercalate_cons_of_ne_nil (by simp), String.toList_append,
        String.toList_append, ih]
      rfl

/-- What is read of a text that begins with lines is read from where they
lead to. -/
theorem parse_of_lines {document : Document} {lines : List String} (leads : Lines {} lines document)
    (plain : '\r' ∉ lineChars lines) {text : String} {more : List Char}
    (whole : text.toList = lineChars lines ++ more) :
    ∃ fuel, parse text
      = (Document.read (fuel + 1) document (Text.joinLineEnds more)).map Document.fields := by
  have joined : Text.joinLineEnds text.toList = lineChars lines ++ Text.joinLineEnds more := by
    rw [whole, joinLineEnds_append_of_not_mem plain]
  have enough := length_le_lineChars lines
  obtain ⟨fuel, same⟩ : ∃ fuel, (Text.joinLineEnds text.toList).length + 1
      = lines.length + (fuel + 1) := by
    refine ⟨(Text.joinLineEnds text.toList).length - lines.length, ?_⟩
    rw [joined, List.length_append]
    omega
  refine ⟨fuel, ?_⟩
  unfold parse
  dsimp only
  rw [same, joined, read_lines leads]

/-- A string that is read as the characters that were put between its quotes
is plain: the line end behind it is not part of it, and no character less
than was written is left for the text. -/
theorem plain_of_string? {written text rest : List Char}
    (h : string? ('"' :: (Text.joinLineEnds written ++ ['"', '\n'])) = some (.ok (text, rest)))
    (same : text = written) : Plain written := by
  subst same
  obtain ⟨body, whole, unescaped⟩ := string?_unescaped h
  have last : rest ≠ [] := by
    rintro rfl
    have ends := congrArg List.getLast? whole
    simp at ends
  have shorter := length_joinLineEnds_le text
  have lengths := congrArg List.length whole
  have some := List.length_pos_iff.2 last
  simp only [List.length_append, List.length_cons, List.length_nil] at lengths
  rcases unescaped with ⟨-, plain⟩ | longer
  · exact plain
  · omega

end SymbolicHeap.Toml
