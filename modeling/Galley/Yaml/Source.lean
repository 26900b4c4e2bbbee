import Galley.Text.Utf8

/-!
The characters of a YAML source. A source is UTF-8, or UTF-16 if a byte order mark says so, and is
taken in by the block: a fault of the encoding hides the whole block in which it is met, and is
reported when reading comes to that block.
-/

namespace Galley.Yaml

/-- What is wrong with the bytes of a source. -/
inductive Miscoding where
  | badLead
  | shortSequence
  | badTrail
  | overlong
  | noCharacter
  | shortUnit
  | strayLow
  | shortPair
  | missingLow
  | control
  deriving DecidableEq, Repr

/-- The wording of a fault. -/
def Miscoding.message : Miscoding → Text
  | .badLead => "invalid leading UTF-8 octet"
  | .shortSequence => "incomplete UTF-8 octet sequence"
  | .badTrail => "invalid trailing UTF-8 octet"
  | .overlong => "invalid length of a UTF-8 sequence"
  | .noCharacter => "invalid Unicode character"
  | .shortUnit => "incomplete UTF-16 character"
  | .strayLow => "unexpected low surrogate area"
  | .shortPair => "incomplete UTF-16 surrogate pair"
  | .missingLow => "expected low surrogate area"
  | .control => "control characters are not allowed"

/-- The characters of a source up to the block with a fault in it. -/
structure Source where
  chars : List Char
  fault : Option Miscoding

namespace Source

/-- What stands at the start of some bytes. -/
inductive Reading where
  /-- A character and the number of its bytes. -/
  | char (c : Char) (width : Nat)
  /-- A fault that shows in so many bytes. -/
  | fault (f : Miscoding) (width : Nat)
  /-- A character that is cut off by the end. -/
  | cut (f : Miscoding)

/-- Whether a code point may stand in a source. -/
def allowed (c : Nat) : Bool :=
  c == 0x09 || c == 0x0a || c == 0x0d || (0x20 ≤ c && c ≤ 0x7e) || c == 0x85 ||
    (0xa0 ≤ c && c ≤ 0xd7ff) || (0xe000 ≤ c && c ≤ 0xfffd) || (0x10000 ≤ c && c ≤ 0x10ffff)

/-- A code point, if it may stand in a source. -/
def acceptCode (c width : Nat) : Reading :=
  if allowed c then .char (Char.ofNat c) width else .fault .control width

/-- The number of bytes of the UTF-8 sequence that a byte starts. -/
def sequenceLength (b : UInt8) : Nat :=
  if b < 0x80 then 1
  else if 0xc0 ≤ b && b < 0xe0 then 2
  else if 0xe0 ≤ b && b < 0xf0 then 3
  else if 0xf0 ≤ b && b < 0xf8 then 4
  else 0

/-- The bits that the first byte of a sequence gives to its code point. -/
def leadBits (b : UInt8) : Nat :=
  match sequenceLength b with
  | 2 => b.toNat % 0x20
  | 3 => b.toNat % 0x10
  | 4 => b.toNat % 0x08
  | _ => b.toNat

/-- The least code point that needs a sequence of some length. -/
def leastOfLength : Nat → Nat
  | 2 => 0x80
  | 3 => 0x800
  | 4 => 0x10000
  | _ => 0

/-- Reads a character in UTF-8. -/
def readUtf8 (lead : UInt8) (rest : Text) : Reading :=
  let width := sequenceLength lead
  let trail := rest.take (width - 1)
  let code := trail.foldl (fun v b => v * 0x40 + b.toNat % 0x40) (leadBits lead)
  if width = 0 then .fault .badLead 1
  else if trail.length + 1 < width then .cut .shortSequence
  else if trail.any (fun b => b < 0x80 || 0xc0 ≤ b) then .fault .badTrail width
  else if code < leastOfLength width then .fault .overlong width
  else if (0xd800 ≤ code && code ≤ 0xdfff) || 0x10ffff < code then .fault .noCharacter width
  else acceptCode code width

/-- Reads a character in UTF-16, its units made of bytes by `unit`. -/
def readUtf16 (unit : UInt8 → UInt8 → Nat) (b : UInt8) : Text → Reading
  | [] => .cut .shortUnit
  | c :: rest =>
    let high := unit b c
    if high / 0x400 = 0x37 then .fault .strayLow 2
    else if high / 0x400 = 0x36 then
      match rest with
      | d :: e :: _ =>
        let low := unit d e
        if low / 0x400 = 0x37 then acceptCode (0x10000 + high % 0x400 * 0x400 + low % 0x400) 4
        else .fault .missingLow 4
      | _ => .cut .shortPair
    else acceptCode high 2

/-- The number of bytes in a block. -/
def blockSize : Nat := 512

/-- Reads characters, after the next `skip` bytes, which belong to the character before. The
characters of the block at hand, of which `room` bytes are left, are kept apart from those of the
blocks before it. Both are kept backwards. -/
def decode (read : UInt8 → Text → Reading) (skip room : Nat) (before block : List Char) :
    Text → Source
  | [] => ⟨(block ++ before).reverse, none⟩
  | b :: t =>
    match skip with
    | skip + 1 => decode read skip room before block t
    | 0 =>
      match read b t with
      | .cut f => ⟨(block ++ before).reverse, some f⟩
      | .fault f width =>
        ⟨(if width ≤ room then before else block ++ before).reverse, some f⟩
      | .char c width =>
        if width ≤ room then decode read (width - 1) (room - width) before (c :: block) t
        else decode read (width - 1) (blockSize - width) (block ++ before) [c] t

/-- The characters of a source, in the encoding that its byte order mark tells. -/
def ofText (t : Text) : Source :=
  match t with
  | 0xff :: 0xfe :: rest =>
    decode (readUtf16 fun lo hi => lo.toNat + hi.toNat * 0x100) 0 (blockSize - 2) [] [] rest
  | 0xfe :: 0xff :: rest =>
    decode (readUtf16 fun hi lo => lo.toNat + hi.toNat * 0x100) 0 (blockSize - 2) [] [] rest
  | 0xef :: 0xbb :: 0xbf :: rest => decode readUtf8 0 (blockSize - 3) [] [] rest
  | _ => decode readUtf8 0 blockSize [] [] t

end Source

end Galley.Yaml
