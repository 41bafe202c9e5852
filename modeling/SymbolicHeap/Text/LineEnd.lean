/-
Line ends.

A line ends with a line feed, a carriage return, or both in this order.
Readers differ in which of these they take for line ends.
-/
namespace SymbolicHeap.Text

/-- The text with a line feed for every carriage return and line feed. -/
def joinLineEnds : List Char → List Char
  | '\r' :: '\n' :: rest => '\n' :: joinLineEnds rest
  | c :: rest => c :: joinLineEnds rest
  | [] => []

/-- The text with a line feed for every line end, be it a carriage return
alone. -/
def unifyLineEnds : List Char → List Char
  | '\r' :: '\n' :: rest => '\n' :: unifyLineEnds rest
  | '\r' :: rest => '\n' :: unifyLineEnds rest
  | c :: rest => c :: unifyLineEnds rest
  | [] => []

end SymbolicHeap.Text
