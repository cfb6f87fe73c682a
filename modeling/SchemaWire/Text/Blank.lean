/-!
# Blank characters

The characters with the Unicode property `White_Space`, as a table of ranges, and the text that is
left when blank characters are taken from both ends of a text (`Text.trim`).
-/

namespace SchemaWire

namespace Text

/-- The ranges of code points with the property `White_Space`, ends included. -/
def blankRanges : List (Nat × Nat) :=
  [(0x0009, 0x000d), (0x0020, 0x0020), (0x0085, 0x0085), (0x00a0, 0x00a0), (0x1680, 0x1680),
   (0x2000, 0x200a), (0x2028, 0x2029), (0x202f, 0x202f), (0x205f, 0x205f), (0x3000, 0x3000)]

/-- Whether a character is blank. -/
def isBlank (c : Char) : Bool := blankRanges.any fun r => r.1 ≤ c.toNat && c.toNat ≤ r.2

example : ((blankRanges.map fun r => r.2 + 1 - r.1).sum = 25) := by decide

/-- Takes blank characters from both ends. -/
def trim (cs : List Char) : List Char :=
  ((cs.dropWhile isBlank).reverse.dropWhile isBlank).reverse

end Text

end SchemaWire
