import LinOpt.Text.Ranges
/-!
# Blanks

The characters of the Unicode property White_Space, and texts with none of them at their ends. The four
information separators are not blanks: a numeral may not have one beside it. They count as blanks only at
the end of a printed line.
-/

namespace LinOpt

/-- The white-space characters. -/
def blankRanges : CodeRanges :=
  [(0x9, 0xd), (0x20, 0x20), (0x85, 0x85), (0xa0, 0xa0), (0x1680, 0x1680), (0x2000, 0x200a),
   (0x2028, 0x2029), (0x202f, 0x202f), (0x205f, 0x205f), (0x3000, 0x3000)]

/-- The information separators. -/
def separatorRanges : CodeRanges := [(0x1c, 0x1f)]

/-- Is this a white-space character? -/
def isBlank (c : Char) : Bool := blankRanges.has c

/-- Is this an information separator? -/
def isSeparator (c : Char) : Bool := separatorRanges.has c

theorem blankRanges_ascending : blankRanges.ascending = true := by decide

/-- The text without the characters of a class at its end. -/
def trimEndWhere (p : Char → Bool) (text : List Char) : List Char := (text.reverse.dropWhile p).reverse

/-- The text without blanks and separators at its end. -/
def trimLineEnd (text : String) : String :=
  String.ofList (trimEndWhere (fun c => isBlank c || isSeparator c) text.toList)

/-- The text without blanks at either end. -/
def trimBlanks (text : String) : List Char := trimEndWhere isBlank (text.toList.dropWhile isBlank)

end LinOpt
