import ClassSort.Text.Basic

/-!
# Blank characters

A class list is divided at *blank* characters: the 25 code points with the
Unicode property `White_Space`. Markup and scripts have narrower notions of their
own, which live with their scanners.
-/

namespace ClassSort.Text

/-- The code points with the property `White_Space`, as inclusive ranges. -/
def blankRanges : List (Nat × Nat) :=
  [(0x09, 0x0D), (0x20, 0x20), (0x85, 0x85), (0xA0, 0xA0), (0x1680, 0x1680),
   (0x2000, 0x200A), (0x2028, 0x2029), (0x202F, 0x202F), (0x205F, 0x205F),
   (0x3000, 0x3000)]

/-- Whether a character separates classes. -/
def isBlank (c : Char) : Bool :=
  blankRanges.any fun (lo, hi) => lo ≤ c.toNat && c.toNat ≤ hi

/-- The text without the blanks it begins with. -/
def trimStart (cs : Text) : Text := cs.dropWhile isBlank

/-- The text without the blanks it ends with. -/
def trimEnd (cs : Text) : Text := (cs.reverse.dropWhile isBlank).reverse

/-- The text without the blanks on either side. -/
def trim (cs : Text) : Text := trimEnd (trimStart cs)

/-- Whether the text holds nothing but blanks. -/
def allBlank (cs : Text) : Bool := cs.all isBlank

/-- Whether the text begins with a blank. -/
def startsBlank : Text → Bool
  | [] => false
  | c :: _ => isBlank c

/-- Whether the text ends with a blank. -/
def endsBlank (cs : Text) : Bool := startsBlank cs.reverse

/-- Whether a character is a blank of the ASCII range, the only blanks that markup
and scripts know around their tokens. -/
def isAsciiBlank (c : Char) : Bool := c == ' ' || (0x09 ≤ c.toNat && c.toNat ≤ 0x0D)

end ClassSort.Text
