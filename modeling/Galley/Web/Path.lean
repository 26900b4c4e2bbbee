import Galley.Text.Quoted

/-!
The paths of requests. A path is clean if it starts with a slash and has no empty segment and
none that stands for a directory itself or the one above it; one slash may stand at its end.
-/

namespace Galley.Web

/-- The segments of a path that are left when those that stand for a directory itself or the one
above it are worked out; `above` are the segments so far, the last one first. -/
def resolve (above : List Text) : List Text → List Text
  | [] => above.reverse
  | s :: rest =>
    if s.isEmpty || s = [0x2e] then resolve above rest
    else if s = [0x2e, 0x2e] then resolve above.tail rest
    else resolve (s :: above) rest

/-- The clean path that leads to the same place. -/
def cleanPath (path : Text) : Text :=
  let segments := resolve [] (Text.splitOn 0x2f path)
  let joined := segments.flatMap (0x2f :: ·)
  if segments.isEmpty || path.getLast? = some 0x2f then joined ++ [0x2f] else joined

/-- Whether a byte may stand in an address as it is. -/
def isPlain (b : UInt8) : Bool :=
  0x30 ≤ b && b ≤ 0x39 || 0x41 ≤ b && b ≤ 0x5a || 0x61 ≤ b && b ≤ 0x7a ||
    (Text.ofString "-_.~$&+,/:;=@").contains b

/-- A path as it is written in an address. -/
def escapePath (path : Text) : Text :=
  path.flatMap fun b => if isPlain b then [b] else 0x25 :: Text.hexUpper 2 b.toNat

/-- A byte as it is written on a page. -/
def markupByte (b : UInt8) : Text :=
  if b = 0x26 then "&amp;"
  else if b = 0x3c then "&lt;"
  else if b = 0x3e then "&gt;"
  else if b = 0x22 then "&#34;"
  else if b = 0x27 then "&#39;"
  else [b]

/-- A text as it is written on a page. -/
def markup (t : Text) : Text := t.flatMap markupByte

end Galley.Web
