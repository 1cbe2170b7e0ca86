/-!
# Blanks

The characters that stand for nothing but space, by the Unicode property
`White_Space`, and the trimming of them from both ends of a text. The
zero-width space and the control characters between the lines and the
blank are not among them.
-/

namespace PathStore
namespace Text

/-- **The characters of the property `White_Space`**, as ranges of code
points with both ends included, in order. -/
def blankRanges : List (Nat × Nat) :=
  [(0x0009, 0x000D), (0x0020, 0x0020), (0x0085, 0x0085), (0x00A0, 0x00A0),
   (0x1680, 0x1680), (0x2000, 0x200A), (0x2028, 0x2029), (0x202F, 0x202F),
   (0x205F, 0x205F), (0x3000, 0x3000)]

/-- Whether a character is a blank. -/
def isBlank (c : Char) : Bool :=
  blankRanges.any fun range => range.1 ≤ c.toNat && c.toNat ≤ range.2

/-- **A text without the blanks at its ends.** -/
def trim (text : String) : String :=
  String.ofList
    ((text.toList.dropWhile isBlank).reverse.dropWhile isBlank).reverse

end Text
end PathStore
