/-!
White space in program text. A character is blank when it has the Unicode property `White_Space`,
which 25 code points have; they form ten runs, listed here in increasing order. The class is wider
than ASCII blanks: a string literal made of no-break spaces alone is a blank string.
-/

namespace Pathwise.Text

/-- The runs of code points with the property `White_Space`, as first and last member. -/
def blankRuns : List (Nat × Nat) :=
  [(0x09, 0x0D), (0x20, 0x20), (0x85, 0x85), (0xA0, 0xA0), (0x1680, 0x1680), (0x2000, 0x200A),
   (0x2028, 0x2029), (0x202F, 0x202F), (0x205F, 0x205F), (0x3000, 0x3000)]

/-- Is the character white space? -/
def isBlank (c : Char) : Bool :=
  blankRuns.any fun run => run.1 ≤ c.toNat && c.toNat ≤ run.2

/-- The table holds the 25 code points of the property. -/
example : (blankRuns.map fun run => run.2 + 1 - run.1).sum = 25 := by decide

end Pathwise.Text
