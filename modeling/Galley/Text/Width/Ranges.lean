import Galley.Text.Table

/-!
Ranges of the character widths other than one column.
-/

namespace Galley.Text

/-- Characters that take one column whatever else is said of them. -/
def narrowRanges : List (Nat × Nat) := spacedRanges 0
  [32, 94, 36, 1, 2, 1, 6, 0, 3, 0, 10039, 7, 408, 1]

/-- Characters that are not shown. -/
def hiddenRanges : List (Nat × Nat) := spacedRanges 0
  [0, 31, 96, 32, 14, 0, 1634, 0, 4348, 3, 2045, 4, 25, 6, 60, 5, 46993, 2047, 7936, 0, 250, 2, 3,
   1]

/-- Characters drawn over the one before them. -/
def combiningRanges : List (Nat × Nat) := spacedRanges 0
  [768, 111, 276, 6, 866, 8, 1037, 0, 4, 0, 239, 0, 13, 1, 1628, 2, 1824, 0, 49, 30, 157, 8, 589,
   63, 721, 32, 3071, 2, 239, 31, 666, 1, 30165, 3, 2, 9, 33, 1, 81, 1, 495, 17, 21807, 15, 974, 0,
   377, 4, 2865, 1, 154, 10, 50, 3, 891, 1, 58, 1, 42, 6, 4, 4, 22396, 4, 25612, 45, 3, 22, 543, 4,
   4, 5, 9, 7, 3, 6, 31, 3, 149, 2, 3516, 6, 2, 16, 3, 6, 2, 1, 2, 4, 101, 0, 2113, 6]

/-- Characters that take two columns. -/
def wideRanges : List (Nat × Nat) := spacedRanges 0
  [4352, 95, 4539, 1, 14, 1, 191, 3, 4, 0, 3, 0, 522, 1, 22, 1, 51, 11, 44, 0, 20, 0, 14, 0, 9, 1,
   18, 1, 6, 1, 9, 0, 6, 0, 22, 0, 8, 1, 2, 0, 5, 0, 3, 0, 8, 0, 5, 1, 29, 0, 36, 0, 2, 0, 5, 2, 2,
   0, 62, 2, 25, 0, 15, 0, 860, 1, 52, 0, 5, 0, 811, 25, 2, 88, 13, 213, 27, 78, 3, 85, 3, 102, 6,
   42, 2, 93, 2, 83, 12, 47, 2, 39, 9, 7023, 65, 22156, 4, 54, 1178, 28, 644, 11171, 8541, 511,
   785, 9, 23, 34, 2, 18, 2, 3, 150, 95, 128, 6, 28666, 4, 12, 1, 15, 6135, 9, 1237, 43, 8, 8936,
   3, 2, 6, 2, 1, 2, 290, 16, 0, 30, 2, 3, 0, 15, 3, 9, 395, 15625, 0, 203, 0, 191, 0, 3, 9, 102,
   2, 14, 43, 5, 8, 8, 1, 15, 5, 155, 32, 13, 8, 2, 69, 2, 21, 13, 42, 5, 4, 13, 16, 4, 0, 4, 70,
   2, 0, 2, 186, 3, 62, 14, 3, 2, 23, 19, 0, 27, 1, 14, 0, 87, 84, 49, 69, 7, 0, 4, 2, 3, 2, 5, 3,
   12, 1, 8, 8, 228, 11, 5, 0, 284, 46, 2, 9, 2, 184, 113, 12, 4, 8, 8, 45, 2, 6, 9, 13, 5, 8, 8,
   8, 1288, 65533, 3, 65533]

end Galley.Text
