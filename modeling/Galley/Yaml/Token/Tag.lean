import Galley.Yaml.Token.Scalar

/-!
Directives, tags, anchors and references to them.
-/

namespace Galley.Yaml.Lex

/-! ## Anchors and references -/

/-- The characters that may follow a name at once. -/
def nameFollowers : List Char := ['?', ':', ',', ']', '\x7d', '%', '@', '\x60']

/-- Reads a name after its sign. -/
def named (kind : Text → TokenKind) : Lex Unit := do
  let start ← here
  skip 1
  let name ← takeWhile isNameChar
  let c ← peek 0
  if name.isEmpty || !(isGap c || nameFollowers.elem c) then
    fail start "did not find expected alphabetic or numeric character"
  addToken (kind name) start (← here)

/-! ## Tags -/

/-- The characters of a tag, names apart. -/
def tagSigns : List Char :=
  [';', '/', '?', ':', '@', '&', '=', '+', '$', ',', '.', '!', '~', '*', '\x27', '(', ')', '[', ']',
    '%']

/-- Whether a character may stand in a tag. -/
def isTagChar (c : Char) : Bool := isNameChar c || tagSigns.elem c

/-- Reads a byte written as `%` and two digits. -/
def tagByte (start : Mark) : Lex UInt8 := do
  match ← peek 0, hexDigit? (← peek 1), hexDigit? (← peek 2) with
  | '%', some a, some b =>
    skip 3
    return UInt8.ofNat (a * 16 + b)
  | _, _, _ => fail start "did not find URI escaped octet"

/-- Reads further bytes of a character. -/
def tagTrail (start : Mark) : Nat → Lex Text
  | 0 => return []
  | n + 1 => do
    let b ← tagByte start
    if b < 0x80 || 0xc0 ≤ b then
      fail start "found an incorrect trailing UTF-8 octet"
    return b :: (← tagTrail start n)

/-- Reads a character written in bytes of two digits each. -/
def tagEscape (start : Mark) : Lex Text := do
  let b ← tagByte start
  match Source.sequenceLength b with
  | 0 => fail start "found an incorrect leading UTF-8 octet"
  | n + 1 => return b :: (← tagTrail start n)

/-- Reads the characters of a tag. -/
def tagChars (start : Mark) : Nat → Text → Lex Text
  | 0, out => return out
  | n + 1, out => do
    let c ← peek 0
    if c == '%' then
      let t ← tagEscape start
      tagChars start n (out ++ t)
    else if isTagChar c then
      let t ← takeRun [c]
      tagChars start n (out ++ t)
    else return out

/-- Reads a tag after what was read of it already, the first sign of which is left out. -/
def tagRest (start : Mark) (head : Text) : Lex Text := do
  let out ← tagChars start ((← get).rest.length + 1) []
  if head.isEmpty && out.isEmpty then fail start "did not find expected tag URI"
  return head.drop 1 ++ out

/-- Reads the handle of a tag. A directive must close it. -/
def tagHandle (start : Mark) (directive : Bool) : Lex Text := do
  if (← peek 0) ≠ '!' then fail start "did not find expected '!'"
  let mark ← takeRun ['!']
  let name ← takeWhile isNameChar
  if (← peek 0) == '!' then
    let close ← takeRun ['!']
    return mark ++ name ++ close
  if directive && !name.isEmpty then fail start "did not find expected '!'"
  return mark ++ name

/-- Reads a tag. -/
def tag : Lex Unit := do
  let start ← here
  let (handle, suffix) ← do
    if (← peek 1) == '<' then
      skip 2
      let suffix ← tagRest start []
      if (← peek 0) ≠ '>' then fail start "did not find the expected '>'"
      skip 1
      pure ([], suffix)
    else
      let handle ← tagHandle start false
      if 1 < handle.length && handle.getLast? = some 0x21 then
        pure (handle, ← tagRest start [])
      else
        let suffix ← tagRest start handle
        pure (if suffix.isEmpty then ([], [0x21]) else ([0x21], suffix))
  if !isGap (← peek 0) then fail start "did not find expected whitespace or line break"
  addToken (.tag handle suffix) start (← here)

/-! ## Directives -/

/-- Reads a part of a version, of at most two digits. -/
def versionNumber (start : Mark) : Lex Nat := do
  let digits := (← get).rest.takeWhile (·.isDigit)
  if 2 < digits.length then
    skip 2
    fail start "found extremely long version number"
  if digits.isEmpty then fail start "did not find expected version number"
  skip digits.length
  return digits.foldl (fun v d => v * 10 + (d.toNat - 48)) 0

/-- Reads a version. -/
def version (start : Mark) : Lex TokenKind := do
  skipBlanks
  let major ← versionNumber start
  if (← peek 0) ≠ '.' then fail start "did not find expected digit or '.' character"
  skip 1
  return .version major (← versionNumber start)

/-- Reads what a handle stands for. -/
def shorthand (start : Mark) : Lex TokenKind := do
  skipBlanks
  let handle ← tagHandle start true
  if !isBlank (← peek 0) then fail start "did not find expected whitespace"
  skipBlanks
  let text ← tagRest start []
  if !isGap (← peek 0) then fail start "did not find expected whitespace or line break"
  return .shorthand handle text

/-- Reads a directive with the end of its line. -/
def directive : Lex Unit := do
  let start ← here
  skip 1
  let name ← takeWhile isNameChar
  if name.isEmpty then fail start "could not find expected directive name"
  if !isGap (← peek 0) then fail start "found unexpected non-alphabetical character"
  let kind ←
    if name = ("YAML" : Text) then version start
    else if name = ("TAG" : Text) then shorthand start
    else fail start "found unknown directive name"
  addToken kind start (← here)
  skipBlanks
  if (← peek 0) == '#' then skipLine
  if !isLineEnd (← peek 0) then fail start "did not find expected comment or line break"
  discard takeBreak

end Galley.Yaml.Lex
