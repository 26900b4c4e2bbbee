import Galley.Json.Token

/-!
Reading JSON documents, and where and why a text is not one.
-/

namespace Galley.Json

/-- Why a text is not a JSON document. -/
inductive Cause where
  | invalidToken
  | unexpectedEnd
  | trailing
  | missingKey
  | missingColon
  | missingObjectComma
  /-- An array element is followed by neither a comma nor the end; the open containers are given
  from the outside in, objects as `true`. -/
  | missingArrayComma (containers : List Bool)
  | commaForValue
  | commaForElement
  /-- A token that starts no value; `place` says where the value should stand. -/
  | unexpected (place : Text) (b : UInt8)
  | number (problem : Decimal.Problem)
  deriving DecidableEq, Repr

/-- The wording of a cause. -/
def Cause.message : Cause → Text
  | .invalidToken => "invalid JSON token"
  | .unexpectedEnd => "unexpected EOF"
  | .trailing => "trailing characters after JSON document"
  | .missingKey => "stateObjectString: missing string key"
  | .missingColon => "stateObjectColon: expecting colon"
  | .missingObjectComma => "stateObjectComma: expecting comma"
  | .missingArrayComma containers =>
    ("stateArrayComma: expected comma, [" : Text)
      ++ Text.join (" " : Text) (containers.map fun b => ((if b then "true" else "false" : String) : Text))
      ++ ("]" : Text)
  | .commaForValue => "stateValue: unexpected comma"
  | .commaForElement => "stateArrayValue: unexpected comma"
  | .unexpected place b => ("unexpected " : Text) ++ place ++ ("token " : Text) ++ Text.quoted [b]
  | .number problem => problem.message

/-- A cause and the offset where it was met. -/
structure Error where
  offset : Nat
  cause : Cause
  deriving DecidableEq, Repr

/-- Where a value stands. -/
inductive Place where
  | top
  | element
  | member
  deriving DecidableEq

/-- How errors name a place. -/
def Place.name : Place → Text
  | .top => []
  | .element => "array "
  | .member => "object "

/-- The next token, which has to be there. -/
def expectToken (c : Cursor) : Except Error (Token × Cursor) :=
  match nextToken c with
  | (some t, c) => .ok (t, c)
  | (none, c) => .error ⟨c.offset, if c.rest.all isSpace then .unexpectedEnd else .invalidToken⟩

/-- What is next to be read. -/
inductive Goal where
  /-- A value, of which the given token is the start. -/
  | value (place : Place) (first : Token)
  /-- The elements of an array, after the ones given, which are in reverse. -/
  | elements (done : List Json)
  /-- The members of an object, after the ones given, which are in reverse. -/
  | members (done : List (Text × Json))

/-- Reads what the goal says, inside the given open containers. At most two
steps of recursion read no byte in a row, so twice the length of the text is fuel enough. -/
def read (fuel : Nat) (containers : List Bool) (goal : Goal) (c : Cursor) :
    Except Error (Json × Cursor) :=
  match fuel with
  | 0 => .error ⟨c.offset, .unexpectedEnd⟩
  | fuel + 1 =>
    match goal with
    | .value place first =>
      match first with
      | .null => .ok (.null, c)
      | .bool b => .ok (.bool b, c)
      | .string s => .ok (.string s, c)
      | .number t =>
        match Decimal.ofText t with
        | .ok d => .ok (.number d, c)
        | .error problem => .error ⟨c.offset, .number problem⟩
      | .punctuation b =>
        if b = 0x7b then do
          let (t, c') ← expectToken c
          if t = .punctuation 0x7d then return (.object [], c')
          read fuel (containers ++ [true]) (.members []) c
        else if b = 0x5b then do
          let (t, c') ← expectToken c
          if t = .punctuation 0x5d then return (.array [], c')
          read fuel (containers ++ [false]) (.elements []) c
        else if b = 0x2c ∧ place = .top then .error ⟨c.offset, .commaForValue⟩
        else if b = 0x2c ∧ place = .element then .error ⟨c.offset, .commaForElement⟩
        else .error ⟨c.offset, .unexpected place.name b⟩
    | .elements done => do
      let (first, c) ← expectToken c
      if first = .punctuation 0x5d ∧ !done.isEmpty then
        throw ⟨c.offset - 2, .commaForElement⟩
      let (v, c) ← read fuel containers (.value .element first) c
      let (t, c) ← expectToken c
      match t with
      | .punctuation 0x5d => return (.array (v :: done).reverse, c)
      | .punctuation 0x2c => read fuel containers (.elements (v :: done)) c
      | _ => throw ⟨c.offset, .missingArrayComma containers⟩
    | .members done => do
      let (key, c) ← expectToken c
      match key with
      | .string name =>
        let (colon, c) ← expectToken c
        if colon ≠ .punctuation 0x3a then throw ⟨c.offset, .missingColon⟩
        let (first, c) ← expectToken c
        let (v, c) ← read fuel containers (.value .member first) c
        let (t, c) ← expectToken c
        match t with
        | .punctuation 0x7d => return (ofMembers ((name, v) :: done).reverse, c)
        | .punctuation 0x2c => read fuel containers (.members ((name, v) :: done)) c
        | _ => throw ⟨c.offset, .missingObjectComma⟩
      | .punctuation 0x7d => throw ⟨c.offset - 2, .missingKey⟩
      | _ => throw ⟨c.offset, .missingKey⟩

/-- Reads a whole document. -/
def parse (src : Text) : Except Error Json := do
  let (first, c) ← expectToken ⟨0, src⟩
  let (v, c) ← read (2 * src.length + 2) [] (.value .top first) c
  if c.rest.all isSpace then return v else throw ⟨c.offset + 1, .trailing⟩

/-- An error in words, with the text around it. -/
def Error.message (src : Text) (e : Error) : Text :=
  let lead : Text := "parse json: unable to decode JSON: while decoding "
  let place : Text :=
    if src.isEmpty then "empty string"
    else
      let left := min e.offset 16
      let around := (src.drop (e.offset - left)).take (left + 16)
      Text.ofNat src.length ++ (" bytes at offset " : Text) ++ Text.ofNat e.offset
        ++ (":\n...|" : Text) ++ Text.masked around ++ ("|...\n...|" : Text)
        ++ List.replicate left 0x2e ++ ("^" : Text)
        ++ List.replicate (around.length - left - 1) 0x2e ++ ("|..." : Text)
  lead ++ place ++ (": " : Text) ++ e.cause.message

end Galley.Json
