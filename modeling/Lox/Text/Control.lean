import Lox.Text
import Lox.Text.Printable

/-!
# Control characters

The characters of the Unicode category "other": control and format characters, those for private use
and those that are not assigned. They are the characters that are neither printable nor separators.
-/

namespace Lox

namespace Text

/-- The ranges of separators, both ends included, in increasing order: spaces, the line separator and
the paragraph separator. -/
def separatorRanges : List (Nat × Nat) :=
  [(0x20, 0x20), (0xA0, 0xA0), (0x1680, 0x1680), (0x2000, 0x200A), (0x2028, 0x2029), (0x202F, 0x202F),
   (0x205F, 0x205F), (0x3000, 0x3000)]

/-- A code point is a separator if one of the ranges holds it. -/
def isSeparator (code : Nat) : Bool :=
  separatorRanges.any fun (first, last) => first ≤ code && code ≤ last

/-- A character of the category "other". -/
def isControl (code : Nat) : Bool := !isPrintable code && !isSeparator code

/-- Some character of a text is a control character. -/
def hasControl (t : Text) : Bool :=
  (pieces t).any fun
    | .character code _ => isControl code
    | .stray _ => false

end Text

end Lox
