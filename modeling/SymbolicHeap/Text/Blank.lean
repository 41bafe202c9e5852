/-
Blank characters and the trimming of blanks.
-/
namespace SymbolicHeap.Text

/-- The white space of every script. -/
def isSpace (c : Char) : Bool :=
  let code := c.toNat
  (0x09 ≤ code && code ≤ 0x0d) || code == 0x20 || code == 0x85 || code == 0xa0
    || code == 0x1680 || (0x2000 ≤ code && code ≤ 0x200a) || code == 0x2028
    || code == 0x2029 || code == 0x202f || code == 0x205f || code == 0x3000

/-- The four marks that separate units of information. -/
def isSeparator (c : Char) : Bool :=
  0x1c ≤ c.toNat && c.toNat ≤ 0x1f

/-- White space and separators. -/
def isBlank (c : Char) : Bool :=
  isSpace c || isSeparator c

/-- The characters between the outermost ones that are not passed over. -/
def trim (passed : Char → Bool) (chars : List Char) : List Char :=
  ((chars.dropWhile passed).reverse.dropWhile passed).reverse

end SymbolicHeap.Text
