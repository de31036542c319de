import Lox.Text
import Lox.Text.Printable

/-!
# Quoted text

A text between double quotes on one line: control characters, quotes, backslashes, characters that
are not printable and stray bytes are written as escapes, and everything else as it is.
-/

namespace Lox.Text

def hexDigit (n : Nat) : UInt8 :=
  let d := n % 16
  if d < 10 then 48 + d.toUInt8 else 87 + d.toUInt8

/-- A number in hexadecimal, in lower case, with a fixed number of digits. -/
def hex : (digits : Nat) → Nat → Text
  | 0, _ => []
  | k + 1, n => hex k (n / 16) ++ [hexDigit n]

/-- The letter after the backslash, for the characters that have an escape of their own. -/
def shortEscape? (code : Nat) : Option UInt8 :=
  match code with
  | 7 => some 97    -- a, bell
  | 8 => some 98    -- b, backspace
  | 9 => some 116   -- t, tab
  | 10 => some 110  -- n, line feed
  | 11 => some 118  -- v, vertical tab
  | 12 => some 102  -- f, form feed
  | 13 => some 114  -- r, carriage return
  | 34 => some 34   -- the quote
  | 92 => some 92   -- the backslash
  | _ => none

/-- A piece of a text as it stands between quotes. -/
def Piece.quoted : Piece → Text
  | .stray byte => text "\\x" ++ hex 2 byte.toNat
  | .character code bytes =>
    match shortEscape? code with
    | some letter => [92, letter]
    | none =>
      if isPrintable code then bytes
      else if code < 0x80 then text "\\x" ++ hex 2 code
      else if code < 0x10000 then text "\\u" ++ hex 4 code
      else text "\\U" ++ hex 8 code

def quoted (t : Text) : Text := 34 :: (pieces t).flatMap Piece.quoted ++ [34]

end Lox.Text
