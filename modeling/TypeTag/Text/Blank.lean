import TypeTag.Text.Ranges

namespace TypeTag.Text

/-- The characters with the Unicode property `White_Space`. -/
def blankRanges : Ranges :=
  [(0x0009, 0x000D), (0x0020, 0x0020), (0x0085, 0x0085), (0x00A0, 0x00A0), (0x1680, 0x1680),
   (0x2000, 0x200A), (0x2028, 0x2029), (0x202F, 0x202F), (0x205F, 0x205F), (0x3000, 0x3000)]

def isBlank (c : Char) : Bool :=
  blankRanges.covers c.toNat

def trim (s : String) : String :=
  String.ofList <| ((s.toList.dropWhile isBlank).reverse.dropWhile isBlank).reverse

/-- Lowers `A` to `Z`. Of all other characters only U+212A has a lower case among `a` to `z`, which
is `k`; so comparing the result with a word without `k` is exact for all texts. -/
def lower (s : String) : String :=
  s.map Char.toLower

end TypeTag.Text
