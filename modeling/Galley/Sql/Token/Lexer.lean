import Galley.Sql.Name
import Galley.Sql.Token

/-!
SQL texts as tokens. Between tokens may stand white space, comments from `--` to the end of the
line, and comments between `/*` and `*/`, which may be nested.
-/

namespace Galley.Sql.Token

/-! ## Bytes -/

/-- A byte that starts a name. -/
def isNameStart (b : UInt8) : Bool :=
  (0x41 ≤ b && b ≤ 0x5a) || (0x61 ≤ b && b ≤ 0x7a) || b == 0x5f || 0x80 ≤ b

/-- A byte that goes on a name. -/
def isNamePart (b : UInt8) : Bool := isNameStart b || isDigit b || b == 0x24

/-- A space, tab, carriage return or form feed: white space inside a line. -/
def isBlank (b : UInt8) : Bool := b == 0x20 || b == 0x09 || b == 0x0d || b == 0x0c

/-- The value of a hexadecimal digit. -/
def hexDigit? (b : UInt8) : Option Nat :=
  if isDigit b then some (b.toNat - 0x30)
  else if 0x61 ≤ b && b ≤ 0x66 then some (b.toNat - 0x57)
  else if 0x41 ≤ b && b ≤ 0x46 then some (b.toNat - 0x37)
  else none

/-! ## Gaps -/

/-- The text after a comment that is closed by `*/`, inside which `depth` more are open. -/
def afterComment : Nat → Text → Option Text
  | _, [] => none
  | depth, 0x2a :: 0x2f :: t =>
    match depth with
    | 0 => some t
    | depth + 1 => afterComment depth t
  | depth, 0x2f :: 0x2a :: t => afterComment (depth + 1) t
  | depth, _ :: t => afterComment depth t

/-- The text after white space and comments, or nothing if a comment is not closed. -/
def skipGap : Nat → Text → Option Text
  | 0, t => some t
  | n + 1, t =>
    match t with
    | 0x2d :: 0x2d :: rest => skipGap n ((rest.dropWhile (· ≠ 0x0a)).drop 1)
    | 0x2f :: 0x2a :: rest =>
      match afterComment 0 rest with
      | some rest => skipGap n rest
      | none => none
    | b :: rest => if isBlank b || b == 0x0a then skipGap n rest else some t
    | [] => some t

/-! ## Strings -/

/-- Why a token cannot be read. -/
inductive Flaw where
  | unterminated
  | openComment
  | badEscape
  | badUtf8
  | badPlaceholder
  | hugePlaceholder (digits : Text)
  | badHexNumber
  | hugeFloat (digits : Text)
  | badFloat
  | trailingJunk (t : Text)
  | badHexBytes
  /-- A byte that is no binary digit, or the end of the text. -/
  | badBit (b : Option UInt8)

/-- The wording of a flaw. -/
def Flaw.message : Flaw → Text
  | .unterminated => "unterminated string"
  | .openComment => "unterminated comment"
  | .badEscape => "invalid syntax"
  | .badUtf8 => "invalid UTF-8 byte sequence"
  | .badPlaceholder => "placeholder index must be between 1 and 65536"
  | .hugePlaceholder t =>
    ("strconv.ParseUint: parsing " : Text) ++ t.quoted ++ (": value out of range" : Text)
  | .hugeFloat t => ("could not make constant float from literal " : Text) ++ t.quoted
  | .badHexNumber => "invalid hexadecimal numeric literal"
  | .badFloat => "invalid floating point literal"
  | .trailingJunk t => ("trailing junk after numeric literal at or near " : Text) ++ t.quoted
  | .badHexBytes => "invalid hexadecimal bytes literal"
  | .badBit b =>
    [0x22] ++ Text.encode (b.elim Text.replacement UInt8.toNat) ++
      ("\" is not a valid binary digit" : Text)

/-- The value of some digits in a base. -/
def digitsValue (base : Nat) (ds : List Nat) : Nat := ds.foldl (fun v d => v * base + d) 0

/-- The value of the first `n` bytes as hexadecimal digits. -/
def hexValue? (n : Nat) (t : Text) : Option Nat :=
  let ds := (t.take n).filterMap hexDigit?
  if ds.length = n then some (digitsValue 16 ds) else none

/-- The bytes that an escape stands for, read after its backslash, and the text after it. -/
def escape? : Text → Option (Text × Text)
  | [] => none
  | b :: t =>
    let single := [(0x61, 0x07), (0x62, 0x08), (0x66, 0x0c), (0x6e, 0x0a), (0x72, 0x0d),
      (0x74, 0x09), (0x76, 0x0b), (0x5c, 0x5c)].lookup b
    match single with
    | some c => some ([c], t)
    | none =>
      if b == 0x78 || b == 0x58 then
        (hexValue? 2 t).map fun v => ([UInt8.ofNat v], t.drop 2)
      else if b == 0x75 || b == 0x55 then
        let n := if b == 0x75 then 4 else 8
        match hexValue? n t with
        | some v =>
          if (0xd800 ≤ v && v ≤ 0xdfff) || 0x10ffff < v then none
          else some (Text.encode v, t.drop n)
        | none => none
      else
        let ds := ((b :: t).take 3).filter fun d => 0x30 ≤ d && d ≤ 0x37
        let v := digitsValue 8 (ds.map fun d => d.toNat - 0x30)
        if ds.length = 3 && v ≤ 255 then some ([UInt8.ofNat v], t.drop 2) else none

/-- The letters and digits after which a backslash means something. -/
def escapeSigns : List UInt8 := Text.ofString "abfnrtvxXuU\\01234567"

/-- The text after white space that holds a line end, if a string goes on there. -/
def continued? (t : Text) : Option Text :=
  let gap := t.takeWhile fun b => isBlank b || b == 0x0a
  match t.drop gap.length with
  | 0x27 :: rest => if gap.elem 0x0a then some rest else none
  | _ => none

/-- The value of a string, read after its opening quote, and the text after it. A doubled quote
stands for one. Strings with line ends between them are one, but names are not. -/
def stringValue (quote : UInt8) (escapes : Bool) : Nat → Text → Except Flaw (Text × Text)
  | 0, _ => .error .unterminated
  | _ + 1, [] => .error .unterminated
  | n + 1, b :: t => do
    if b == quote then
      match t with
      | c :: rest =>
        if c == quote then
          let (v, rest) ← stringValue quote escapes n rest
          return (quote :: v, rest)
      | [] => pure ()
      match if quote == 0x27 then continued? t else none with
      | some rest => stringValue quote escapes n rest
      | none => return ([], t)
    else if escapes && b == 0x5c then
      match t with
      | c :: rest =>
        if c == quote then
          let (v, rest) ← stringValue quote escapes n rest
          return (quote :: v, rest)
        else if escapeSigns.elem c then
          match escape? t with
          | some (w, rest) =>
            let (v, rest) ← stringValue quote escapes n rest
            return (w ++ v, rest)
          | none => throw .badEscape
        else stringValue quote escapes n t
      | [] => throw .unterminated
    else
      let (v, rest) ← stringValue quote escapes n t
      return (b :: v, rest)

/-- Asks for well-formed UTF-8. -/
def checked (v : Text) : Except Flaw Text := if v.wellFormed then .ok v else .error .badUtf8

/-- A string whose tag is `tag`, read after its opening tag, and the text after it. -/
def dollarValue (tag : Text) : Text → Except Flaw (Text × Text)
  | [] => .error .unterminated
  | b :: t => do
    if tag.isPrefixOf (b :: t) then return ([], (b :: t).drop tag.length)
    let (v, rest) ← dollarValue tag t
    return (b :: v, rest)

/-- The tag of a string after its first dollar sign, and the text after the tag. -/
def dollarTag? (t : Text) : Option (Text × Text) :=
  let tag := t.takeWhile fun b => isNameStart b
  match t.drop tag.length with
  | 0x24 :: rest => some ([0x24] ++ tag ++ [0x24], rest)
  | _ => none

/-- The digits of a bytes or bit string, read after its opening quote, and the text after it. What
is not a digit, or the end of the text, makes a flaw. Strings with line ends between them are one. -/
def digitString (isDigit : UInt8 → Bool) (flaw : Option UInt8 → Flaw) :
    Nat → Text → Except Flaw (Text × Text)
  | 0, _ => .error (flaw none)
  | _ + 1, [] => .error (flaw none)
  | n + 1, b :: t => do
    if b == 0x27 then
      match continued? t with
      | some rest => digitString isDigit flaw n rest
      | none => return ([], t)
    else if isDigit b then
      let (v, rest) ← digitString isDigit flaw n t
      return (b :: v, rest)
    else throw (flaw (some b))

/-- The bytes that hexadecimal digits spell. -/
def bytesOfHex? : Text → Option Text
  | [] => some []
  | a :: b :: t =>
    match hexDigit? a, hexDigit? b, bytesOfHex? t with
    | some x, some y, some rest => some (UInt8.ofNat (x * 16 + y) :: rest)
    | _, _, _ => none
  | [_] => none

/-! ## Numbers -/

/-- The number of bytes that an exponent takes up, after its letter. -/
def exponentLength (t : Text) : Option Nat :=
  let sign := match t with
    | b :: _ => if b == 0x2b || b == 0x2d then 1 else 0
    | [] => 0
  let digits := (t.drop sign).takeWhile isDigit
  if digits.isEmpty then none else some (sign + digits.length)

/-- The number of bytes that a decimal number takes up, and whether it has a point or an
exponent. -/
def decimalLength (t : Text) : Except Flaw (Nat × Bool) :=
  let whole := (t.takeWhile isDigit).length
  let (mantissa, point) := match t.drop whole with
    | 0x2e :: 0x2e :: _ => if whole = 0 then (1, true) else (whole, false)
    | 0x2e :: rest => (whole + 1 + (rest.takeWhile isDigit).length, true)
    | _ => (whole, false)
  match t.drop mantissa with
  | b :: rest =>
    if b == 0x65 || b == 0x45 then
      match exponentLength rest with
      | some n => .ok (mantissa + 1 + n, true)
      | none => .error .badFloat
    else .ok (mantissa, point)
  | [] => .ok (mantissa, point)

/-- A number without the zeros before it. -/
def stripZeros : Text → Text
  | 0x30 :: b :: t => stripZeros (b :: t)
  | t => t

/-- Whether a byte marks a hexadecimal number. -/
def isHexMark (b : UInt8) : Bool := b == 0x78 || b == 0x58

/-- The token that a number makes. -/
def numeral (kind : Numeral → TokenKind) (t : Text) : Except Flaw TokenKind :=
  match Numeral.ofText? t with
  | some n => .ok (kind n)
  | none => .error .badFloat

/-- A whole number, as it is kept. -/
def wholeNumber (t : Text) : Except Flaw TokenKind := numeral .integer (stripZeros t)

/-- The exponent of a number. -/
def exponentOf (t : Text) : Int :=
  let given := (t.dropWhile fun b => b != 0x65 && b != 0x45).drop 1
  let v : Nat := digitsValue 10 ((given.filter isDigit).map fun d => d.toNat - 0x30)
  if given.head? == some 0x2d then -(v : Int) else v

/-- Whether a number is out of range: its exponent must fit into 64 bits, and unless it is zero, so
must its binary exponent into 32 bits. -/
def isHuge (t : Text) : Bool :=
  let mantissa := t.takeWhile fun b => b != 0x65 && b != 0x45
  let fraction := ((mantissa.dropWhile (· != 0x2e)).drop 1).length
  let digits := stripZeros (mantissa.filter isDigit)
  let scale := exponentOf t - fraction
  if 9223372036854775807 < exponentOf t || exponentOf t < -9223372036854775808 then true
  else if digits.all (· == 0x30) then false
  else 646456993 < scale + digits.length || scale < -2147483648

/-- A number with a point or an exponent. -/
def decimalNumber (t : Text) : Except Flaw TokenKind :=
  if isHuge t then .error (.hugeFloat t) else numeral .decimal t

/-- The number of bytes that a number takes up, and the token that it makes. -/
def numberBody (t : Text) : Except Flaw (Nat × Except Flaw TokenKind) :=
  let decimal := (decimalLength t).map fun (n, exact) =>
    (n, if exact then decimalNumber (t.take n) else wholeNumber (t.take n))
  match t with
  | 0x30 :: x :: rest =>
    if isHexMark x then
      let n := 2 + (rest.takeWhile fun b => (hexDigit? b).isSome).length
      .ok (n, if n = 2 then .error .badHexNumber else numeral .integer (t.take n))
    else decimal
  | _ => decimal

/-- The digits of a number as they are shown. -/
def shownDigits : TokenKind → Text
  | .integer n | .decimal n => n.text
  | _ => []

/-- Reads a number. No name may follow it at once. -/
def number (t : Text) : Except Flaw (Token × Text) := do
  let (length, made) ← numberBody t
  let rest := t.drop length
  if rest.head?.any isHexMark then throw .badHexNumber
  if rest.head?.any isNameStart then throw (.trailingJunk (t.take (length + 1)))
  let kind ← made
  return (⟨kind, shownDigits kind⟩, rest)

/-! ## Signs -/

/-- The signs of more than one character, each before those that it starts with. -/
def longSigns : List String :=
  ["!~*", "!=", "!~", "??", "?|", "?&", "<<=", "<<", "<>", "<=", "<@", ">>=", ">>", ">=", ":::",
    "::", "||/", "||", "|/", "//", "~*", "@>", "@@", "&&", "->>", "->", "#>>", "#>", "#-", ".."]

/-- Reads a sign. -/
def sign (b : UInt8) (t : Text) : Token × Text :=
  match longSigns.find? fun s => (Text.ofString s).isPrefixOf (b :: t) with
  | some s => (⟨.sign s, [b]⟩, (b :: t).drop s.utf8ByteSize)
  | none => (⟨.sign (Text.toString [b]), [b]⟩, t)

/-! ## Tokens -/

/-- Words that stand for other words. -/
def standIns : List (String × String) :=
  [("experimental_ranges", "ranges"), ("testing_ranges", "ranges")]

/-- Reads a word. -/
def word (t : Text) : Token × Text :=
  let w : Text := t.takeWhile isNamePart
  let name := (folded w).toString
  let name := (standIns.lookup name).getD name
  (⟨.word name, Text.ofString name⟩, t.drop w.length)

/-- A token made of a value, which also shows it. -/
def valued (kind : Text → TokenKind) (r : Except Flaw (Text × Text)) : Except Flaw (Token × Text) :=
  r.map fun (v, rest) => (⟨kind v, v⟩, rest)

/-- Reads a placeholder after its dollar sign. -/
def placeholder (t : Text) : Except Flaw (Token × Text) :=
  let digits := t.takeWhile isDigit
  let v := digitsValue 10 (digits.map fun d => d.toNat - 0x30)
  if 18446744073709551615 < v then .error (.hugePlaceholder digits)
  else if v = 0 || 65536 < v then .error .badPlaceholder
  else .ok (⟨.placeholder v, digits⟩, t.drop digits.length)

/-- Reads a string in quotes. -/
def quoted (quote : UInt8) (escapes utf8 : Bool) (t : Text) : Except Flaw (Text × Text) := do
  let (v, rest) ← stringValue quote escapes (t.length + 1) t
  if utf8 then
    return (← checked v, rest)
  return (v, rest)

/-- Reads a token at the start of a text. -/
def read (b : UInt8) (t : Text) : Except Flaw (Token × Text) :=
  let next := t.headD 0
  if b == 0x24 then
    if isDigit next then placeholder t
    else
      match dollarTag? t with
      | some (tag, rest) => valued .string do
        let (v, rest) ← dollarValue tag rest
        return (← checked v, rest)
      | none => .ok (sign b t)
  else if b == 0x22 then
    valued .quotedName ((quoted b false true t).map fun (v, rest) => (v.composed, rest))
  else if b == 0x27 then valued .string (quoted b false true t)
  else if next == 0x27 && (b == 0x65 || b == 0x45) then
    valued .string (quoted next true true (t.drop 1))
  else if next == 0x27 && b == 0x62 then valued .bytes (quoted next true false (t.drop 1))
  else if next == 0x27 && b == 0x42 then
    valued .bits (digitString (fun d => d == 0x30 || d == 0x31) .badBit t.length (t.drop 1))
  else if next == 0x27 && (b == 0x78 || b == 0x58) then valued .bytes do
    let (v, rest) ← digitString (fun d => (hexDigit? d).isSome) (fun _ => .badHexBytes) t.length
      (t.drop 1)
    match bytesOfHex? v with
    | some v => return (v, rest)
    | none => throw .badHexBytes
  else if isDigit b || (b == 0x2e && isDigit next) then number (b :: t)
  else if isNameStart b then .ok (word (b :: t))
  else .ok (sign b t)

/-- What comes next in a text. -/
inductive Next where
  | token (t : Token) (rest : Text)
  | fault (f : Flaw)
  | done

/-- What comes next in a text. A zero byte ends it. -/
def next (t : Text) : Next :=
  match skipGap (t.length + 1) t with
  | none => .fault .openComment
  | some [] => .done
  | some (b :: rest) =>
    if b == 0 then .done
    else
      match read b rest with
      | .ok (t, rest) => .token t rest
      | .error f => .fault f

/-- Whether a token ends a statement. -/
def isSemicolon (t : Token) : Bool := t.kind == .sign ";"

/-- The tokens of a text up to the first that is none, which stands for itself. -/
def scan : Nat → Text → List Token
  | 0, _ => []
  | n + 1, t =>
    match next t with
    | .done => []
    | .fault f => [⟨.fault f.message, f.message⟩]
    | .token t rest => t :: scan n rest

/-- The tokens of a text. -/
def ofText (t : Text) : List Token := scan (t.length + 1) t

/-- The text after the first semicolon. -/
def afterSemicolon : Nat → Text → Option Text
  | 0, _ => none
  | n + 1, t =>
    match next t with
    | .token t rest => if t.isSemicolon then some rest else afterSemicolon n rest
    | _ => none

/-- The number of bytes up to the first semicolon, with it. -/
def split (t : Text) : Option Nat :=
  (afterSemicolon (t.length + 1) t).map fun rest => t.length - rest.length

/-- The tokens of the first statement of a text. -/
def statement (t : Text) : List Token :=
  ((ofText t).dropWhile isSemicolon).takeWhile fun t => !t.isSemicolon

end Galley.Sql.Token
