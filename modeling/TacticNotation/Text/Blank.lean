/-!
# Blank characters

The characters with the Unicode property `White_Space`.  They are the
characters that `\s` stands for in a pattern and the ones that a line may
consist of and still count as empty.  The blanks that separate the words of a
notation are only four of them; see `TacticNotation.isGap`.
-/

namespace TacticNotation

/-- The Unicode property `White_Space`. -/
def isBlank (c : Char) : Bool :=
  (9 ≤ c.toNat && c.toNat ≤ 13) || c.toNat == 0x20 || c.toNat == 0x85 ||
    c.toNat == 0xA0 || c.toNat == 0x1680 || (0x2000 ≤ c.toNat && c.toNat ≤ 0x200A) ||
    c.toNat == 0x2028 || c.toNat == 0x2029 || c.toNat == 0x202F ||
    c.toNat == 0x205F || c.toNat == 0x3000

end TacticNotation
