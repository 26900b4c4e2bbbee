import Galley.Text.Table

/-!
Ranges of the characters that a quoted text shows as they are.
-/

namespace Galley.Text

/-- The distances and spans of the ranges. -/
def printableSpans : List Nat :=
  [161, 11, 2, 713, 3, 5, 5, 6, 2, 0, 2, 19, 2, 396, 2, 37, 3, 49, 3, 2, 2, 54, 9, 26, 5, 5, 18,
   21, 2, 191, 2, 47, 3, 58, 3, 100, 15, 58, 3, 48, 3, 14, 2, 27, 3, 0, 2, 10, 6, 30, 10, 73, 2,
   160, 2, 7, 3, 1, 3, 21, 2, 6, 2, 0, 4, 3, 3, 8, 3, 1, 3, 3, 9, 0, 5, 1, 2, 4, 3, 24, 3, 2, 2,
   5, 5, 1, 3, 21, 2, 6, 2, 1, 2, 1, 2, 1, 3, 0, 2, 4, 5, 1, 3, 2, 4, 0, 8, 3, 2, 0, 8, 16, 11,
   2, 2, 8, 2, 2, 2, 21, 2, 6, 2, 1, 2, 4, 3, 9, 2, 2, 2, 2, 3, 0, 16, 3, 3, 11, 8, 6, 2, 2, 2,
   7, 3, 1, 3, 21, 2, 6, 2, 1, 2, 4, 3, 8, 3, 1, 3, 2, 8, 2, 5, 1, 2, 4, 3, 17, 11, 1, 2, 5, 4,
   2, 2, 3, 4, 1, 2, 0, 2, 1, 4, 1, 4, 2, 4, 11, 5, 4, 4, 2, 2, 3, 3, 0, 7, 0, 15, 20, 6, 12, 2,
   2, 2, 22, 2, 15, 3, 8, 2, 2, 2, 3, 8, 1, 2, 2, 3, 0, 3, 3, 3, 9, 8, 21, 2, 2, 2, 22, 2, 9, 2,
   4, 3, 8, 2, 2, 2, 3, 8, 1, 7, 1, 2, 3, 3, 9, 2, 2, 13, 12, 2, 2, 2, 50, 2, 2, 2, 5, 5, 15, 3,
   25, 2, 2, 2, 17, 4, 23, 2, 8, 2, 0, 3, 6, 4, 0, 5, 5, 2, 0, 2, 7, 7, 9, 3, 2, 13, 57, 5, 28,
   38, 1, 2, 0, 2, 4, 2, 23, 2, 0, 2, 22, 3, 4, 2, 0, 2, 6, 2, 9, 3, 3, 33, 71, 2, 35, 5, 38, 2,
   35, 2, 14, 2, 12, 38, 197, 2, 0, 6, 0, 3, 376, 2, 3, 3, 6, 2, 0, 2, 3, 3, 40, 2, 3, 3, 32, 2,
   3, 3, 6, 2, 0, 2, 3, 3, 14, 2, 56, 2, 3, 3, 66, 3, 31, 4, 25, 7, 85, 3, 5, 3, 639, 2, 27, 4,
   88, 8, 21, 10, 23, 10, 19, 13, 12, 2, 2, 2, 1, 13, 93, 3, 9, 7, 9, 7, 13, 2, 10, 7, 88, 8, 42,
   6, 69, 11, 30, 2, 11, 5, 11, 5, 0, 4, 41, 3, 4, 12, 43, 5, 25, 7, 10, 4, 61, 3, 64, 2, 28, 3,
   10, 7, 9, 7, 13, 3, 30, 50, 76, 4, 46, 2, 115, 9, 59, 4, 14, 4, 59, 8, 42, 3, 10, 9, 42, 6,
   533, 3, 5, 3, 37, 3, 5, 3, 7, 2, 0, 2, 0, 2, 0, 2, 30, 3, 52, 2, 14, 2, 13, 3, 5, 2, 18, 3, 2,
   2, 8, 18, 23, 9, 46, 18, 1, 3, 26, 2, 12, 4, 32, 16, 32, 16, 139, 5, 662, 26, 10, 22, 1811, 3,
   31, 2, 348, 6, 44, 2, 0, 6, 0, 3, 55, 8, 1, 15, 23, 10, 6, 2, 6, 2, 6, 2, 6, 2, 6, 2, 6, 2, 6,
   2, 6, 2, 125, 35, 25, 2, 88, 13, 213, 27, 11, 6, 62, 2, 85, 3, 102, 6, 42, 2, 93, 2, 83, 13,
   46, 2, 29292, 4, 54, 10, 347, 21, 183, 9, 202, 6, 1, 2, 0, 2, 4, 25, 58, 4, 9, 7, 55, 9, 69,
   9, 11, 7, 115, 12, 29, 4, 77, 2, 10, 5, 32, 2, 54, 10, 13, 3, 9, 3, 102, 25, 27, 11, 5, 3, 5,
   3, 5, 10, 6, 2, 6, 2, 59, 5, 125, 3, 9, 7, 11171, 13, 22, 5, 48, 8453, 365, 3, 105, 39, 6, 13,
   4, 6, 25, 2, 4, 2, 0, 2, 1, 2, 1, 2, 124, 17, 444, 3, 53, 8, 0, 33, 41, 7, 50, 2, 18, 2, 3, 5,
   4, 2, 134, 5, 189, 4, 5, 3, 5, 3, 5, 3, 2, 4, 6, 2, 6, 14, 1, 3, 11, 2, 25, 2, 18, 2, 1, 2,
   14, 3, 13, 35, 122, 6, 2, 5, 44, 4, 87, 2, 12, 4, 0, 48, 45, 131, 28, 4, 48, 16, 27, 5, 35,
   10, 29, 6, 42, 6, 29, 2, 36, 5, 13, 43, 157, 3, 9, 7, 35, 5, 35, 5, 39, 9, 51, 12, 11, 2, 14,
   2, 6, 2, 1, 2, 10, 2, 14, 2, 6, 2, 1, 68, 310, 10, 21, 11, 7, 25, 5, 2, 41, 2, 8, 70, 5, 3, 0,
   2, 43, 2, 1, 4, 0, 3, 22, 2, 71, 9, 8, 49, 18, 2, 1, 6, 32, 4, 26, 6, 0, 65, 55, 5, 19, 3, 49,
   2, 1, 6, 7, 2, 2, 2, 28, 3, 2, 5, 9, 8, 8, 8, 63, 33, 38, 5, 11, 10, 53, 4, 28, 3, 26, 6, 25,
   8, 3, 13, 6, 81, 72, 56, 50, 14, 50, 8, 45, 9, 9, 295, 30, 2, 41, 2, 2, 3, 1, 76, 42, 9, 41,
   23, 25, 39, 27, 21, 22, 10, 77, 5, 35, 10, 61, 2, 4, 14, 24, 8, 9, 7, 52, 2, 17, 9, 38, 10,
   95, 2, 19, 12, 17, 2, 46, 63, 6, 2, 0, 2, 3, 2, 14, 2, 10, 7, 58, 6, 9, 7, 3, 2, 7, 3, 1, 3,
   21, 2, 6, 2, 1, 2, 4, 2, 9, 3, 1, 3, 2, 3, 0, 7, 0, 6, 6, 3, 6, 4, 4, 140, 91, 2, 4, 31, 71,
   9, 9, 167, 53, 3, 37, 35, 68, 12, 9, 7, 12, 20, 57, 7, 9, 55, 26, 3, 14, 5, 22, 186, 59, 101,
   82, 13, 7, 3, 0, 3, 7, 2, 1, 2, 29, 2, 1, 3, 11, 10, 9, 71, 7, 3, 45, 3, 10, 28, 71, 9, 82,
   14, 72, 8, 9, 247, 8, 2, 44, 2, 13, 11, 28, 4, 31, 3, 21, 2, 13, 74, 6, 2, 1, 2, 43, 4, 0, 2,
   1, 2, 8, 9, 9, 7, 5, 2, 1, 2, 36, 2, 1, 2, 5, 8, 9, 311, 24, 8, 16, 2, 40, 4, 27, 87, 0, 16,
   49, 14, 922, 103, 110, 2, 4, 12, 195, 2637, 98, 14, 1071, 17, 21, 4011, 582, 8634, 568, 8, 30,
   2, 9, 5, 80, 2, 9, 7, 29, 3, 5, 11, 69, 11, 9, 2, 6, 2, 20, 6, 18, 689, 90, 102, 74, 5, 56, 8,
   16, 65, 4, 12, 1, 15, 6135, 9, 1237, 43, 8, 8936, 3, 2, 6, 2, 1, 2, 290, 16, 0, 30, 2, 3, 0,
   15, 3, 9, 395, 2309, 106, 6, 12, 4, 8, 8, 9, 3, 3, 4705, 45, 3, 22, 10, 115, 61, 245, 11, 38,
   3, 73, 9, 111, 22, 69, 123, 19, 13, 19, 13, 86, 10, 24, 136, 84, 2, 70, 2, 1, 3, 0, 3, 1, 3,
   3, 2, 11, 2, 0, 2, 6, 2, 64, 2, 3, 3, 7, 2, 6, 2, 27, 2, 3, 2, 4, 2, 0, 4, 6, 2, 339, 3, 291,
   3, 701, 16, 4, 2, 14, 1105, 30, 7, 5, 214, 6, 2, 16, 3, 6, 2, 1, 2, 4, 6, 61, 34, 0, 113, 44,
   4, 13, 3, 9, 5, 1, 321, 30, 18, 57, 6, 0, 465, 41, 743, 6, 2, 3, 2, 1, 2, 14, 2, 196, 3, 15,
   42, 75, 5, 9, 5, 1, 786, 67, 77, 60, 195, 3, 2, 26, 2, 1, 2, 0, 3, 0, 2, 9, 2, 3, 2, 0, 2, 0,
   7, 0, 5, 0, 2, 0, 2, 0, 2, 2, 2, 1, 2, 0, 3, 0, 2, 0, 2, 0, 2, 0, 2, 0, 2, 1, 2, 0, 3, 3, 2,
   6, 2, 3, 2, 3, 2, 0, 2, 9, 2, 16, 6, 2, 2, 4, 2, 16, 53, 1, 271, 43, 5, 99, 13, 14, 3, 14, 2,
   14, 2, 36, 11, 173, 57, 28, 14, 43, 5, 8, 8, 1, 15, 5, 155, 983, 5, 16, 4, 12, 4, 118, 5, 94,
   7, 11, 5, 0, 16, 11, 5, 55, 9, 9, 7, 39, 9, 29, 3, 1, 79, 339, 13, 13, 3, 12, 4, 8, 8, 45, 2,
   6, 9, 13, 5, 8, 8, 8, 8, 146, 2, 54, 38, 9, 1031, 42719, 33, 4153, 7, 221, 3, 5761, 15, 7472,
   3104, 541, 1507, 4938, 6, 4191, 712017, 239]

/-- Letters, marks, numbers, punctuation and symbols of version 15 of the character standard beyond
ASCII. -/
def printableRanges : List (Nat × Nat) := spacedRanges 0 printableSpans

end Galley.Text
