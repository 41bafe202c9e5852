/-
Texts of any code points.

A text is a row of code points, in which a surrogate may stand although it
is no character.  A `String` is made of characters, so it holds a surrogate
as a mark with a private character behind it, and the mark itself as two
marks; every other code point is held as its character.  Any row of code
points can be held in this way, and is read back (`points_ofPoints`).

Only a text without surrogates can be encoded.
-/
namespace SymbolicHeap.Text

-- =============================================================== surrogates

def isSurrogate (point : Nat) : Bool :=
  0xd800 ≤ point && point < 0xe000

/-- The mark that does not stand for itself. -/
def mark : Char := '\uffff'

/-- How far the character behind a mark is from the surrogate it is for. -/
def shift : Nat := 0x800

/-- What holds a code point in a string. -/
def hold (point : Nat) : List Char :=
  if isSurrogate point then [mark, Char.ofNat (point + shift)]
  else if point = mark.toNat then [mark, mark]
  else [Char.ofNat point]

def ofPoints (points : List Nat) : String :=
  String.ofList (points.flatMap hold)

/-- The code points that characters hold.  A mark with anything else behind
it is taken as it is. -/
def points : List Char → List Nat
  | c :: d :: rest =>
      if c = mark ∧ d = mark then c.toNat :: points rest
      else if c = mark ∧ isSurrogate (d.toNat - shift) then (d.toNat - shift) :: points rest
      else c.toNat :: points (d :: rest)
  | [c] => [c.toNat]
  | [] => []

/-- A code point that is no surrogate has a character. -/
theorem toNat_ofNat {point : Nat} (valid : point < 0x110000)
    (plain : isSurrogate point = false) : (Char.ofNat point).toNat = point := by
  have scalar : point.isValidChar := by
    simp only [isSurrogate, Bool.and_eq_false_iff, decide_eq_false_iff_not] at plain
    unfold Nat.isValidChar
    omega
  rw [Char.ofNat, dif_pos scalar]
  rfl

theorem points_hold_append {point : Nat} (valid : point < 0x110000) (rest : List Char) :
    points (hold point ++ rest) = point :: points rest := by
  cases surrogate : isSurrogate point with
  | true =>
      have bounds : 0xd800 ≤ point ∧ point < 0xe000 := by simpa [isSurrogate] using surrogate
      have behind : (Char.ofNat (point + shift)).toNat = point + shift := by
        refine toNat_ofNat (by unfold shift; omega) ?_
        have above : ¬ point + shift < 0xe000 := by
          unfold shift
          omega
        simp [isSurrogate, above]
      have other : Char.ofNat (point + shift) ≠ mark := by
        intro same
        have same := behind.symm.trans (congrArg Char.toNat same)
        simp only [shift, show mark.toNat = 0xffff from rfl] at same
        omega
      simp [hold, points, surrogate, behind, other]
  | false =>
      by_cases marked : point = mark.toNat
      · subst marked
        simp [hold, points, surrogate]
      · have held := toNat_ofNat valid surrogate
        have other : Char.ofNat point ≠ mark :=
          fun same => marked (held.symm.trans (congrArg Char.toNat same))
        cases rest with
        | nil => simp [hold, points, surrogate, marked, held]
        | cons c rest => simp [hold, points, surrogate, marked, held, other]

/-- A row of code points is read as it was written. -/
theorem points_ofPoints {row : List Nat} (valid : ∀ point ∈ row, point < 0x110000) :
    points (ofPoints row).toList = row := by
  rw [ofPoints, String.toList_ofList]
  induction row with
  | nil => rfl
  | cons point rest ih =>
      rw [List.flatMap_cons, points_hold_append (valid point List.mem_cons_self),
        ih fun other among => valid other (List.mem_cons_of_mem _ among)]

-- ================================================================ encoding

/-- Whether a text can be encoded. -/
def encodes (text : String) : Bool :=
  (points text.toList).all fun point => !isSurrogate point

theorem encodes_ofPoints {row : List Nat} (valid : ∀ point ∈ row, point < 0x110000) :
    encodes (ofPoints row) = row.all fun point => !isSurrogate point := by
  rw [encodes, points_ofPoints valid]

end SymbolicHeap.Text
