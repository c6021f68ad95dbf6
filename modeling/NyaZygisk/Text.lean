import Mathlib

/-!
# Text as the daemon reads it

The functions of Rust's `str` that `zygiskd` parses its files with. A text is
the list of its characters, and each function recurses on that list, so that
the parsers built from them evaluate.
-/

namespace NyaZygisk.Text

/-- `char::is_whitespace`: the Unicode property `White_Space`. -/
def isWhitespace (c : Char) : Bool :=
  let n := c.toNat
  (0x09 ≤ n && n ≤ 0x0D) || n == 0x20 || n == 0x85 || n == 0xA0 || n == 0x1680 ||
    (0x2000 ≤ n && n ≤ 0x200A) || n == 0x2028 || n == 0x2029 || n == 0x202F || n == 0x205F ||
    n == 0x3000

def trimStart (text : List Char) : List Char := text.dropWhile isWhitespace

def trimEnd (text : List Char) : List Char := (text.reverse.dropWhile isWhitespace).reverse

/-- `str::trim`. -/
def trim (text : List Char) : List Char := trimEnd (trimStart text)

/-- `str::strip_prefix`: the text after `pre`, if it starts with it. -/
def stripPrefix : List Char → List Char → Option (List Char)
  | [], text => some text
  | _ :: _, [] => none
  | p :: pre, c :: text => if p = c then stripPrefix pre text else none

/-- `str::split` at a character: one piece more than there are separators. -/
def split (sep : Char) (text : List Char) : List (List Char) := text.splitOn sep

/-- `str::split_whitespace`: the runs of characters between white space. -/
def splitWhitespace (text : List Char) : List (List Char) :=
  (text.splitOnP isWhitespace).filter fun piece => !piece.isEmpty

/-- The lines still to come, where `line` holds the current one backwards. A
line ended by a line feed loses one carriage return before it, an unended last
line keeps its own, and no empty line follows a final line feed. -/
def linesFrom (line : List Char) : List Char → List (List Char)
  | [] => if line.isEmpty then [] else [line.reverse]
  | c :: text =>
    if c = '\n' then
      (match line with
        | '\r' :: rest => rest.reverse
        | line => line.reverse) :: linesFrom [] text
    else linesFrom (c :: line) text

/-- `str::lines`. -/
def lines (text : List Char) : List (List Char) := linesFrom [] text

/-- The value of a digit string read after `acc`, if it has only digits. -/
def digitsFrom (acc : Nat) : List Char → Option Nat
  | [] => some acc
  | c :: text => if c.isDigit then digitsFrom (10 * acc + (c.toNat - '0'.toNat)) text else none

/-- `str::parse::<u32>`: digits, at least one, after an optional plus sign, of a
value that fits. -/
def parseU32 (text : List Char) : Option UInt32 :=
  let digits := match text with
    | '+' :: digits => digits
    | digits => digits
  if digits.isEmpty then none
  else match digitsFrom 0 digits with
    | some n => if n < 2 ^ 32 then some (UInt32.ofNat n) else none
    | none => none

end NyaZygisk.Text
