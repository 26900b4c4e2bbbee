import Galley.Text.Table

/-!
Ranges of the grapheme break classes of version 12 of the character standard. Classes that one
code point or one arithmetic rule describes are not listed here.
-/

namespace Galley.Text

/-- Format and other control characters; the ASCII controls are decided apart. -/
def controlRanges : List (Nat × Nat) := spacedRanges 0
  [127, 32, 14, 0, 1391, 0, 4594, 0, 2045, 0, 3, 1, 25, 6, 50, 15, 56976, 0, 241, 11, 13365, 8,
   34920, 3, 5328, 7, 798342, 31, 97, 127, 241, 3599]

/-- Characters that are read with the one after them. -/
def prependRanges : List (Nat × Nat) := spacedRanges 0
  [1536, 5, 216, 0, 50, 0, 467, 0, 1132, 0, 66415, 0, 16, 0, 245, 1, 2167, 0, 74, 5, 701, 0]

/-- Combining characters and other extenders. -/
def extendRanges : List (Nat × Nat) := spacedRanges 0
  [768, 111, 276, 6, 264, 44, 2, 0, 2, 1, 2, 1, 2, 0, 73, 10, 49, 20, 17, 0, 102, 6, 3, 5, 3, 1, 2,
   3, 36, 0, 31, 26, 92, 10, 59, 8, 10, 0, 25, 3, 2, 8, 2, 2, 2, 4, 44, 2, 120, 14, 2, 31, 56, 0,
   2, 0, 5, 7, 5, 0, 4, 6, 11, 1, 30, 0, 59, 0, 2, 0, 3, 3, 9, 0, 10, 0, 11, 1, 27, 0, 3, 1, 58, 0,
   5, 1, 5, 1, 3, 2, 4, 0, 31, 1, 4, 0, 12, 1, 58, 0, 5, 4, 2, 1, 5, 0, 21, 1, 23, 5, 2, 0, 59, 0,
   2, 1, 2, 3, 9, 0, 9, 1, 11, 1, 31, 0, 60, 0, 2, 0, 13, 0, 10, 0, 41, 0, 4, 0, 58, 2, 6, 2, 2, 3,
   8, 1, 12, 1, 30, 0, 59, 0, 3, 0, 3, 0, 4, 0, 6, 1, 8, 1, 12, 1, 29, 1, 58, 1, 2, 0, 3, 3, 9, 0,
   10, 0, 11, 1, 103, 0, 5, 0, 3, 2, 2, 0, 9, 0, 82, 0, 3, 6, 13, 7, 99, 0, 3, 8, 12, 5, 75, 1, 28,
   0, 2, 0, 2, 0, 56, 13, 2, 4, 2, 1, 6, 10, 2, 35, 10, 0, 103, 3, 2, 5, 2, 1, 3, 1, 26, 1, 5, 2,
   17, 3, 14, 0, 3, 1, 7, 0, 16, 0, 704, 2, 947, 2, 30, 2, 30, 1, 31, 1, 65, 1, 2, 6, 9, 0, 3, 10,
   10, 0, 46, 2, 120, 1, 35, 0, 119, 2, 5, 1, 10, 0, 7, 2, 220, 1, 3, 0, 59, 0, 2, 6, 2, 0, 2, 0,
   3, 7, 7, 9, 3, 0, 49, 14, 66, 3, 49, 6, 2, 0, 6, 0, 41, 8, 13, 1, 33, 3, 3, 1, 2, 2, 57, 0, 2,
   1, 4, 0, 2, 2, 59, 7, 3, 1, 153, 2, 2, 12, 2, 6, 5, 0, 7, 0, 4, 1, 199, 57, 2, 4, 525, 0, 196,
   32, 3071, 2, 142, 0, 97, 31, 555, 5, 106, 1, 30165, 3, 2, 9, 33, 1, 81, 1, 273, 0, 4, 0, 5, 0,
   26, 1, 158, 1, 27, 17, 14, 0, 39, 7, 26, 10, 47, 2, 49, 0, 3, 3, 3, 1, 40, 0, 68, 5, 3, 1, 3, 1,
   13, 0, 9, 0, 48, 0, 52, 0, 2, 2, 3, 1, 6, 1, 2, 0, 43, 1, 9, 0, 239, 0, 3, 0, 5, 0, 20273, 0,
   738, 15, 17, 15, 367, 1, 606, 0, 227, 0, 150, 4, 1671, 2, 2, 1, 6, 3, 41, 2, 5, 0, 166, 1, 574,
   3, 543, 10, 177, 0, 55, 14, 57, 2, 50, 3, 3, 1, 70, 2, 37, 4, 2, 7, 63, 0, 13, 1, 53, 8, 11, 3,
   99, 2, 3, 0, 2, 1, 7, 0, 161, 0, 4, 7, 22, 1, 58, 1, 2, 0, 2, 0, 23, 0, 15, 6, 4, 4, 196, 7, 3,
   2, 2, 0, 24, 0, 82, 0, 3, 5, 2, 0, 3, 0, 2, 1, 2, 1, 236, 0, 3, 3, 7, 1, 2, 1, 28, 1, 86, 7, 3,
   0, 2, 1, 107, 0, 2, 0, 3, 5, 2, 0, 102, 2, 3, 3, 2, 4, 260, 8, 2, 1, 410, 3, 3, 1, 5, 0, 33, 9,
   41, 5, 3, 3, 9, 0, 10, 5, 3, 2, 47, 12, 2, 1, 407, 6, 2, 5, 2, 0, 83, 21, 3, 6, 2, 1, 2, 1, 123,
   5, 4, 0, 2, 1, 2, 6, 2, 0, 73, 1, 4, 0, 2, 0, 348, 1, 19452, 4, 60, 6, 1049, 0, 64, 3, 19723, 1,
   5319, 0, 2, 2, 5, 4, 9, 7, 3, 6, 31, 3, 149, 2, 1980, 54, 5, 49, 9, 0, 15, 0, 23, 4, 2, 14,
   1361, 6, 2, 16, 3, 6, 2, 1, 2, 4, 262, 6, 438, 3, 1505, 6, 110, 6, 2737, 4, 789537, 95, 129, 239]

/-- Spacing combining marks. -/
def spacingMarkRanges : List (Nat × Nat) := spacedRanges 0
  [2307, 0, 56, 0, 3, 2, 9, 3, 2, 1, 51, 1, 60, 1, 7, 1, 3, 1, 55, 0, 59, 2, 67, 0, 59, 2, 9, 0, 2,
   1, 54, 1, 61, 0, 7, 1, 3, 1, 115, 0, 2, 1, 4, 2, 2, 2, 53, 2, 62, 3, 62, 1, 59, 0, 2, 1, 2, 1,
   3, 1, 2, 1, 55, 1, 60, 1, 6, 2, 2, 2, 54, 1, 77, 1, 7, 6, 20, 1, 64, 0, 128, 0, 139, 1, 64, 0,
   178, 0, 10, 1, 26, 1, 45, 0, 1842, 0, 8, 7, 2, 1, 347, 3, 3, 2, 5, 1, 2, 5, 225, 1, 59, 0, 2, 0,
   22, 5, 146, 0, 55, 0, 2, 4, 2, 1, 62, 0, 31, 0, 5, 1, 3, 0, 61, 0, 3, 2, 2, 0, 4, 1, 49, 7, 9,
   1, 172, 0, 22, 0, 35628, 1, 3, 0, 89, 1, 51, 15, 143, 1, 48, 0, 49, 1, 5, 1, 3, 2, 111, 1, 3, 1,
   25, 0, 158, 0, 3, 1, 6, 0, 238, 1, 2, 1, 2, 1, 2, 0, 25620, 0, 2, 0, 128, 0, 46, 2, 5, 1, 116,
   0, 25, 1, 60, 0, 49, 2, 10, 1, 108, 2, 4, 1, 2, 0, 171, 2, 32, 1, 60, 0, 2, 3, 3, 1, 3, 2, 21,
   1, 210, 2, 9, 1, 4, 0, 108, 1, 7, 0, 2, 1, 2, 0, 3, 0, 239, 1, 7, 3, 3, 0, 114, 2, 9, 1, 2, 0,
   110, 0, 2, 1, 7, 0, 112, 0, 262, 2, 10, 0, 409, 2, 9, 3, 5, 0, 85, 0, 30, 1, 63, 0, 408, 0, 15,
   0, 107, 0, 8, 0, 3, 0, 214, 4, 5, 1, 2, 0, 351, 1, 20571, 54, 25055, 0, 7, 0]

/-- Pictographs, the reserved ones included. -/
def pictographRanges : List (Nat × Nat) := spacedRanges 0
  [169, 0, 5, 0, 8078, 0, 13, 0, 217, 0, 23, 0, 91, 5, 16, 1, 368, 1, 13, 0, 96, 0, 71, 0, 26, 10,
   5, 2, 200, 0, 232, 1, 11, 0, 10, 0, 59, 3, 2, 5, 2, 11, 2, 113, 11, 117, 3, 10, 2, 0, 2, 0, 7,
   0, 4, 0, 7, 0, 11, 1, 16, 0, 3, 0, 5, 0, 2, 0, 5, 2, 2, 0, 12, 4, 46, 2, 10, 0, 15, 0, 15, 0,
   373, 1, 464, 2, 20, 1, 52, 0, 5, 0, 1243, 0, 13, 0, 602, 0, 2, 0, 114023, 255, 14, 2, 32, 0, 61,
   5, 13, 1, 15, 0, 3, 9, 19, 56, 28, 14, 11, 0, 21, 0, 3, 8, 2, 3, 10, 433, 6, 317, 9, 265, 49,
   127, 117, 11, 86, 42, 13, 3, 57, 7, 11, 5, 41, 7, 31, 81, 13, 46, 2, 9, 2, 1718]

end Galley.Text
