import ChartParser.Text.CodePoints
/-!
# Characters that are not shown

The code points with the property Default_Ignorable_Code_Point. Some of them,
such as the Hangul fillers, are letters, yet leave no trace when printed. Data
of Unicode 17.0.
-/
namespace ChartParser.Text

/-- The ranges of ignorable code points, in increasing order. -/
def defaultIgnorableRanges : List (Nat × Nat) :=
  [(0xad, 0xad), (0x34f, 0x34f), (0x61c, 0x61c), (0x115f, 0x1160), (0x17b4, 0x17b5),
   (0x180b, 0x180f), (0x200b, 0x200f), (0x202a, 0x202e), (0x2060, 0x206f), (0x3164, 0x3164),
   (0xfe00, 0xfe0f), (0xfeff, 0xfeff), (0xffa0, 0xffa0), (0xfff0, 0xfff8), (0x1bca0, 0x1bca3),
   (0x1d173, 0x1d17a), (0xe0000, 0xe0fff)]

/-- A character that may be printed as nothing at all. -/
def isDefaultIgnorable (c : Char) : Bool := inRanges defaultIgnorableRanges c.toNat

theorem defaultIgnorableRanges_ascending : ascendingFrom 0 defaultIgnorableRanges = true := by decide +kernel

/-- The ignorable characters are those of the ranges. -/
theorem isDefaultIgnorable_iff (c : Char) :
    isDefaultIgnorable c = true ↔ ∃ r ∈ defaultIgnorableRanges, r.1 ≤ c.toNat ∧ c.toNat ≤ r.2 :=
  inRanges_iff defaultIgnorableRanges_ascending _

end ChartParser.Text
