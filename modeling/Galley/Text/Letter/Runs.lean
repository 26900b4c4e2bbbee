import Galley.Text.Table

/-!
One-to-one case mappings of version 15 of the character standard beyond ASCII, as shifted runs of
code points.
-/

namespace Galley.Text

/-- Every `step`-th code point from `first` to `last` maps to itself moved by `shift`. -/
structure CaseRun where
  first : Nat
  last : Nat
  step : Nat
  shift : Int

/--
Runs from how far each starts after the start of the last one, how far it goes, the step and the shift. The shift
is doubled, and less one where it goes down.
-/
def caseRuns (last : Nat) : List Nat → List CaseRun
  | gap :: span :: step :: shift :: rest =>
    ⟨last + gap, last + gap + span, step, if shift % 2 = 0 then shift / 2 else -(shift / 2) - 1⟩
      :: caseRuns (last + gap) rest
  | _ => []

/-- The runs to upper case. -/
def upperLines : List String :=
  ["b5 0 1 5ce 2b 16 1 3f 18 6 1 3f 7 0 1 f2 2 2e 2 1 30 0 1 1cf 2 4 2 1 7 e 2 1 11 2c 2 1 2f 4 2 1 5 0 1 257 1 0 1",
   "186 3 2 2 1 5 0 1 1 4 0 1 1 6 0 1 1 3 0 1 c2 4 0 1 1 1 0 1 146 4 0 1 104 3 4 2 1 7 0 1 1 5 0 1 1 3 0 1 1 4 2 2 1",
   "5 0 1 1 4 0 1 1 2 0 1 70 6 0 1 1 1 0 1 3 2 0 1 1 1 0 1 3 2 0 1 1 1 0 1 3 2 e 2 1 f 0 1 9d 2 10 2 1 13 0 1 1 1 0 1",
   "3 2 0 1 1 4 26 2 1 2a 10 2 1 19 0 1 1 3 1 1 547e 3 0 1 1 5 8 2 1 9 0 1 543e 1 0 1 5438 1 0 1 543c 1 0 1 1a3 1 0 1",
   "19b 2 1 1 199 3 0 1 193 2 0 1 195 1 0 1 14a9e 4 0 1 199 1 0 1 14a96 2 0 1 19d 2 0 1 14a50 1 0 1 14a88 2 0 1 1a1 1",
   "0 1 1a5 1 0 1 14a88 1 0 1 53ee 1 0 1 14a82 3 0 1 1a5 2 0 1 53fa 1 0 1 1a9 3 0 1 1ab 8 0 1 53ce 3 0 1 1b3 2 0 1",
   "14a86 1 0 1 1b3 4 0 1 14a54 1 0 1 1b3 1 0 1 89 1 1 1 1b1 2 0 1 8d 6 0 1 1b5 b 0 1 14a2a 1 0 1 14a24 a7 0 1 a8 2c",
   "2 2 1 6 0 1 1 4 2 1 104 31 0 1 4b 1 2 1 49 4 10 1 3f 11 0 1 3d 1 8 1 3f 9 0 1 7f 1 1 1 7d 3 0 1 7b 1 0 1 71 4 0 1",
   "5d 1 0 1 6b 1 0 1 f 2 16 2 1 17 0 1 ab 1 0 1 9f 1 0 1 e 1 0 1 e7 2 0 1 bf 3 0 1 1 3 0 1 1 35 1f 1 3f 20 f 1 9f 11",
   "20 2 1 2a 34 2 1 37 c 2 1 d 0 1 1d 2 5e 2 1 90 25 1 5f b6f 2a 1 1780 2d 2 1 1780 2fb 5 1 f 888 0 1 30db 1 0 1",
   "30d9 1 0 1 30c7 1 1 1 30c3 2 0 1 30c5 1 0 1 30b7 1 0 1 3049 1 0 1 11384 f1 0 1 11408 4 0 1 1dcc 11 0 1 11470 73",
   "94 2 1 9a 0 1 75 6 5e 2 1 5f 7 1 10 10 5 1 10 10 7 1 10 10 7 1 10 10 5 1 10 11 6 2 10 f 7 1 10 10 1 1 94 2 3 1 ac",
   "4 1 1 c8 2 1 1 100 2 1 1 e0 2 1 1 fc 4 7 1 10 10 7 1 10 10 7 1 10 10 1 1 10 3 0 1 12 b 0 1 3849 5 0 1 12 d 1 1 10",
   "10 1 1 10 5 0 1 e e 0 1 12 15b 0 1 37 22 f 1 1f 14 0 1 1 34c 19 1 33 760 2f 1 5f 31 0 1 1 4 0 1 5455 1 0 1 544f 2",
   "4 2 1 b 0 1 1 3 0 1 1 b 62 2 1 6b 2 2 1 7 0 1 1 d 25 1 38bf 27 0 1 38bf 6 0 1 38bf 7914 2c 2 1 40 1a 2 1 a2 c 2 1",
   "10 3c 2 1 47 2 2 1 5 8 2 1 d 0 1 1 5 2 2 1 3 0 1 60 3 12 2 1 1e e 2 1 13 2 2 1 9 0 1 1 6 2 2 1 1f 0 1 1 35d 0 1",
   "73f 1d 4f 1 12f9f 53d1 19 1 3f 4e7 27 1 4f b0 23 1 4f bf 24 2 4d 1 8 2 4d c c 2 4d 10 4 2 4d 8 0 1 4d 704 32 1 7f",
   "c00 1f 1 3f 55a0 1f 1 3f 7ac2 21 1 43"]

/-- The runs to lower case. -/
def lowerLines : List String :=
  ["c0 16 1 40 18 6 1 40 28 2e 2 2 30 0 1 18d 2 4 2 2 7 e 2 2 11 2c 2 2 2e 0 1 f1 1 4 2 2 8 0 1 1a4 1 2 2 2 4 0 1 19c",
   "1 0 1 2 2 1 1 19a 2 0 1 2 3 0 1 9e 1 0 1 194 1 0 1 196 1 0 1 2 2 0 1 19a 1 0 1 19e 2 0 1 1a6 1 0 1 1a2 1 0 1 2 4",
   "0 1 1a6 1 0 1 1aa 2 0 1 1ac 1 4 2 2 6 0 1 1b4 1 0 1 2 2 0 1 1b4 3 0 1 2 2 0 1 1b4 1 0 1 2 2 1 1 1b2 2 2 2 2 4 0 1",
   "1b6 1 0 1 2 4 0 1 2 8 0 1 4 1 0 1 2 2 0 1 4 1 0 1 2 2 0 1 4 1 10 2 2 13 10 2 2 13 0 1 4 1 2 2 2 4 0 1 c1 1 0 1 6f",
   "1 26 2 2 28 0 1 103 2 10 2 2 18 0 1 5456 1 0 1 2 2 0 1 145 1 0 1 5450 3 0 1 2 2 0 1 185 1 0 1 8a 1 0 1 8e 1 8 2 2",
   "12a 2 2 2 6 0 1 2 9 0 1 e8 7 0 1 4c 2 2 1 4a 4 0 1 80 2 1 1 7e 3 10 1 40 12 8 1 40 2c 0 1 10 9 16 2 2 1c 0 1 77 3",
   "0 1 2 2 0 1 d 1 0 1 2 3 2 1 103 3 f 1 a0 10 1f 1 40 50 20 2 2 2a 34 2 2 36 0 1 1e 1 c 2 2 f 5e 2 2 61 25 1 60 b6f",
   "25 1 38c0 27 0 1 38c0 6 0 1 38c0 2d3 4f 1 12fa0 50 5 1 10 8a0 2a 1 177f 2d 2 1 177f 143 94 2 2 9e 0 1 3b7d 2 5e 2",
   "2 68 7 1 f 10 5 1 f 10 7 1 f 10 7 1 f 10 5 1 f 11 6 2 f f 7 1 f 20 7 1 f 10 7 1 f 10 7 1 f 10 1 1 f 2 1 1 93 2 0",
   "1 11 c 3 1 ab 4 0 1 11 c 1 1 f 2 1 1 c7 e 1 1 f 2 1 1 df 2 0 1 d c 1 1 ff 2 1 1 fb 2 0 1 11 12a 0 1 3ab9 4 0 1",
   "417d 1 0 1 408b 7 0 1 38 2e f 1 20 23 0 1 2 333 19 1 34 74a 2f 1 60 60 0 1 2 2 0 1 53ed 1 0 1 1dcb 1 0 1 53cd 3 4",
   "2 2 6 0 1 5437 1 0 1 53f9 1 0 1 543d 1 0 1 543b 2 0 1 2 3 0 1 2 9 1 1 547d 2 62 2 2 6b 2 2 2 7 0 1 2 794e 2c 2 2",
   "40 1a 2 2 a2 c 2 2 10 3c 2 2 47 2 2 2 4 0 1 11407 1 8 2 2 d 0 1 2 2 0 1 14a4f 3 2 2 2 6 12 2 2 14 0 1 14a87 1 0 1",
   "14a9d 1 0 1 14a95 1 0 1 14a81 1 0 1 14a87 2 0 1 14a23 1 0 1 14a53 1 0 1 14a29 1 0 1 740 1 e 2 2 10 0 1 5f 1 0 1",
   "14a85 1 0 1 1146f 1 2 2 2 9 0 1 2 6 2 2 2 1f 0 1 2 572c 19 1 40 4df 27 1 50 b0 23 1 50 c0 24 2 4e 1 8 2 4e c c 2",
   "4e 10 4 2 4e 8 0 1 4e 6eb 32 1 80 c20 1f 1 40 55a0 1f 1 40 7ac0 21 1 44"]

/-- To upper case. -/
def upperRuns : List CaseRun := caseRuns 0 (tableNumbers upperLines)

/-- To lower case. -/
def lowerRuns : List CaseRun := caseRuns 0 (tableNumbers lowerLines)

/-- To title case, where that is not upper case. -/
def titleRuns : List CaseRun :=
  [⟨0x1c4, 0x1c4, 1, 1⟩, ⟨0x1c5, 0x1c5, 1, 0⟩, ⟨0x1c6, 0x1c6, 1, -1⟩, ⟨0x1c7, 0x1c7, 1, 1⟩,
   ⟨0x1c8, 0x1c8, 1, 0⟩, ⟨0x1c9, 0x1c9, 1, -1⟩, ⟨0x1ca, 0x1ca, 1, 1⟩, ⟨0x1cb, 0x1cb, 1, 0⟩,
   ⟨0x1cc, 0x1cc, 1, -1⟩, ⟨0x1f1, 0x1f1, 1, 1⟩, ⟨0x1f2, 0x1f2, 1, 0⟩, ⟨0x1f3, 0x1f3, 1, -1⟩,
   ⟨0x10d0, 0x10fa, 1, 0⟩, ⟨0x10fd, 0x10ff, 1, 0⟩]

end Galley.Text
