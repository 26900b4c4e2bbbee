import Galley.Yaml.Token

/-!
The state in which tokens are read: the characters that are left, the tokens read so far, the
indentation of the open blocks, and the places at which a key may turn out to have started.
-/

namespace Galley.Yaml

/-- Whether a character is a space or a tab. -/
def isBlank (c : Char) : Bool := c == ' ' || c == '\t'

/-- Whether a character ends a line. -/
def isBreak (c : Char) : Bool :=
  c == '\r' || c == '\n' || c == '\u0085' || c == '\u2028' || c == '\u2029'

/-- The character read past the end of a source. It cannot stand in one. -/
def endChar : Char := Char.ofNat 0

/-- Whether a line or the source ends here. -/
def isLineEnd (c : Char) : Bool := isBreak c || c == endChar

/-- Whether a word ends here. -/
def isGap (c : Char) : Bool := isBlank c || isLineEnd c

/-- Whether a character may stand in a name. -/
def isNameChar (c : Char) : Bool := c.isAlphanum || c == '_' || c == '-'

/-- A place at which a key may have started. -/
structure KeySite where
  possible : Bool := false
  /-- Whether what starts here must be a key. -/
  required : Bool := false
  /-- The number of the token that starts here. -/
  token : Nat := 0
  mark : Mark := {}

/-- Comments met between tokens. Lines of a comment are divided by newlines. -/
structure Remark where
  /-- Where the scan that met it started. -/
  scanStart : Mark := {}
  /-- The place it belongs to: the first token at or after this takes it. -/
  owner : Mark := {}
  start : Mark := {}
  stop : Mark := {}
  head : Text := []
  line : Text := []
  foot : Text := []

/-- The state in which tokens are read. -/
structure Lexer where
  rest : List Char
  fault : Option Miscoding
  mark : Mark := {}
  /-- The number of line ends since the last character that is not blank. -/
  newlines : Nat := 0
  /-- All tokens so far. -/
  tokens : Array Token := #[⟨.streamStart, {}, {}⟩]
  /-- How many of the tokens are used up. -/
  used : Nat := 0
  /-- The column of the innermost block, and of those around it. -/
  indent : Int := -1
  indents : List Int := []
  flowDepth : Nat := 0
  keyAllowed : Bool := true
  /-- The possible key of each flow level, the innermost last. -/
  sites : Array KeySite := #[{}]
  /-- The flow level of the possible key that starts with a token of some number. -/
  siteOf : List (Nat × Nat) := []
  remarks : Array Remark := #[]
  remarksUsed : Nat := 0

/-- Reading that may fail. -/
abbrev Lex := StateT Lexer (Except Problem)

namespace Lex

/-- The character `k` places ahead. -/
def peek (k : Nat) : Lex Char := do return (← get).rest.getD k endChar

/-- The place at hand. -/
def here : Lex Mark := do return (← get).mark

/-- Reports the fault of the block that comes next once the end of this one is near. -/
def lookAhead : Lex Unit := do
  let s ← get
  match s.fault with
  | some f => if s.rest.length < 4 then throw (.miscoded f)
  | none => return

/-- No token can be read here, after what started at `context`. -/
def fail {α : Type} (context : Mark) (cause : Text) : Lex α := do
  throw (.lexical cause context (← here))

/-- Moves past `n` characters of a line. -/
def skip (n : Nat) : Lex Unit :=
  modify fun s => { s with
    rest := s.rest.drop n
    mark := { s.mark with index := s.mark.index + n, column := s.mark.column + n }
    newlines := if (s.rest.take n).all isBlank then s.newlines else 0 }

/-- Moves past the end of a line, if one stands here, and returns how it reads. -/
def takeBreak : Lex Text := do
  let s ← get
  let pass := fun (n : Nat) (out : Text) => do
    set { s with
      rest := s.rest.drop n
      mark := ⟨s.mark.index + n, s.mark.line + 1, 0⟩
      newlines := s.newlines + 1 }
    return out
  match s.rest with
  | '\r' :: '\n' :: _ => pass 2 [0x0a]
  | c :: _ =>
    if c == '\u2028' || c == '\u2029' then pass 1 (Text.encode c.toNat)
    else if isBreak c then pass 1 [0x0a]
    else return []
  | [] => return []

/-- Moves past characters of a line and returns them. -/
def takeRun (run : List Char) : Lex Text := do
  skip run.length
  return run.flatMap fun c => Text.encode c.toNat

/-- Moves past the characters with some property and returns them. -/
def takeWhile (p : Char → Bool) : Lex Text := do
  takeRun ((← get).rest.takeWhile p)

/-- Moves past what is left of a line. -/
def skipLine : Lex Unit := do discard (takeWhile fun c => !isLineEnd c)

/-- Moves past spaces and tabs. -/
def skipBlanks : Lex Unit := do discard (takeWhile isBlank)

/-- Repeats a step until it says to stop, `n` times at most. -/
def loop : Nat → Lex Bool → Lex Unit
  | 0, _ => return
  | n + 1, step => do
    if ← step then loop n step

/-- Repeats a step that moves on until it says to stop. -/
def repeatStep (step : Lex Bool) : Lex Unit := do
  loop ((← get).rest.length + 2) step

/-- Adds a token after all others. -/
def addToken (kind : TokenKind) (start stop : Mark) : Lex Unit :=
  modify fun s => { s with tokens := s.tokens.push ⟨kind, start, stop⟩ }

/-- Adds a token before that of some number. -/
def insertToken (number : Nat) (kind : TokenKind) (place : Mark) : Lex Unit :=
  modify fun s => { s with tokens := s.tokens.insertIdxIfInBounds number ⟨kind, place, place⟩ }

/-- Adds a token of `n` characters. -/
def markToken (kind : TokenKind) (n : Nat) : Lex Unit := do
  let start ← here
  skip n
  addToken kind start (← here)

/-- Adds a remark. -/
def addRemark (r : Remark) : Lex Unit :=
  modify fun s => { s with remarks := s.remarks.push r }

/-- Whether a line of `---` or `...` starts here. -/
def atDocumentMark : Lex (Option TokenKind) := do
  let s ← get
  if s.mark.column ≠ 0 then return none
  match s.rest with
  | '-' :: '-' :: '-' :: r => return if isGap (r.headD endChar) then some .documentStart else none
  | '.' :: '.' :: '.' :: r => return if isGap (r.headD endChar) then some .documentEnd else none
  | _ => return none

end Lex

end Galley.Yaml
