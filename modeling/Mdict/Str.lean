import Mdict.Types

/-!
This module contains the string operations of the standard library that the program uses.
-/

namespace Mdict

/-- `char::is_ascii` -/
def isAscii (c : Char) : Bool := c.toNat < 128

/-- `char::is_whitespace`: the characters with the Unicode property White_Space. -/
def isWhitespace (c : Char) : Bool :=
  let n := c.toNat
  (9 ≤ n && n ≤ 13) || n == 0x20 || n == 0x85 || n == 0xA0 || n == 0x1680
    || (0x2000 ≤ n && n ≤ 0x200A) || n == 0x2028 || n == 0x2029 || n == 0x202F || n == 0x205F
    || n == 0x3000

namespace Str

/-- The bytes of a string. -/
abbrev utf8 (s : Str) : Bytes := Unicode.utf8 s

/-- `str::trim_matches` -/
def trimMatches (p : Char → Bool) (s : Str) : Str :=
  ((s.dropWhile p).reverse.dropWhile p).reverse

/-- `str::trim` -/
def trim (s : Str) : Str := trimMatches isWhitespace s

/-- `str::eq_ignore_ascii_case` -/
def eqIgnoreAsciiCase (s t : Str) : Bool := s.map Char.toLower == t.map Char.toLower

/-- `str::split` at a character. -/
def split (separator : Char) : Str → List Str
  | [] => [[]]
  | c :: s =>
    if c == separator then
      [] :: split separator s
    else
      match split separator s with
      | [] => [[c]]
      | head :: tail => (c :: head) :: tail

/-- `str::parse` for unsigned integers below `bound`: an optional plus sign and decimal digits. -/
def parseNat? (bound : Nat) (s : Str) : Option Nat :=
  let digits := match s with
    | '+' :: rest => rest
    | _ => s
  if digits ≠ [] ∧ digits.all Char.isDigit then
    let n := digits.foldl (fun n c => n * 10 + (c.toNat - '0'.toNat)) 0
    if n < bound then some n else none
  else
    none

end Str

end Mdict
