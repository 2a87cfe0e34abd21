/-
# Quoted text

Characters and strings are written between quotes with everything escaped that
would not show as itself: the delimiter, the backslash, line breaks, and the
characters that cannot be seen in a place of their own (`isVisible`).
-/

import Graft.Text.DefaultIgnorable
import Graft.Text.GraphemeExtend
import Graft.Text.Unprintable

namespace Graft
namespace Text

/-- The two halfwidth sound marks extend the character before them, but are
as wide as a letter and shown like one. -/
def isHalfwidthSoundMark (c : Char) : Bool := c.toNat == 0xff9e || c.toNat == 0xff9f

/-- Whether a character is seen in a place of its own. -/
def isVisible (c : Char) : Bool :=
  isPrintable c && !isDefaultIgnorable c && (!isGraphemeExtend c || isHalfwidthSoundMark c)

/-- The code point of a character in hexadecimal, between braces. -/
def unicodeEscape (c : Char) : List Char :=
  ['\\', 'u', '\x7b'] ++ Nat.toDigits 16 c.toNat ++ ['\x7d']

/-- A character as it stands between two of the given delimiters. -/
def escape (delimiter c : Char) : List Char :=
  if c = '\x00' then ['\\', '0']
  else if c = '\t' then ['\\', 't']
  else if c = '\r' then ['\\', 'r']
  else if c = '\n' then ['\\', 'n']
  else if c = '\\' ∨ c = delimiter then ['\\', c]
  else if isVisible c then [c]
  else unicodeEscape c

/-- A text between two of the given delimiters. -/
def quote (delimiter : Char) (text : List Char) : String :=
  String.ofList (delimiter :: text.flatMap (escape delimiter) ++ [delimiter])

/-- A character between single quotes. -/
def quoteChar (c : Char) : String := quote '\x27' [c]

/-- A string between double quotes. -/
def quoteString (s : String) : String := quote '\x22' s.toList

end Text
end Graft
