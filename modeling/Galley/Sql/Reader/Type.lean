import Galley.Sql.Reader

/-!
The names of types. A type has one spelling, whatever name it is given.
-/

namespace Galley.Sql.Read

/-! ## Types by name -/

/-- The spelling of types that are not named by keywords, and of which there are arrays. -/
def arrayedTypes : List (String × String) :=
  [("bit", "BIT"), ("bool", "BOOL"), ("box2d", "BOX2D"), ("bpchar", "CHAR"), ("bytea", "BYTES"),
    ("char", "\"char\""), ("date", "DATE"), ("float4", "FLOAT4"), ("float8", "FLOAT8"), ("geography", "GEOGRAPHY"),
    ("geometry", "GEOMETRY"), ("inet", "INET"), ("int2", "INT2"), ("int2vector", "INT2VECTOR"),
    ("int4", "INT4"), ("int8", "INT8"), ("interval", "INTERVAL"), ("json", "JSONB"),
    ("jsonb", "JSONB"), ("name", "NAME"), ("numeric", "DECIMAL"), ("oid", "OID"),
    ("oidvector", "OIDVECTOR"), ("pg_lsn", "PG_LSN"), ("record", "RECORD"),
    ("refcursor", "REFCURSOR"), ("regclass", "REGCLASS"), ("regnamespace", "REGNAMESPACE"),
    ("regproc", "REGPROC"), ("regprocedure", "REGPROCEDURE"), ("regrole", "REGROLE"),
    ("regtype", "REGTYPE"), ("text", "STRING"), ("time", "TIME"), ("timestamp", "TIMESTAMP"),
    ("timestamptz", "TIMESTAMPTZ"), ("timetz", "TIMETZ"), ("tsquery", "TSQUERY"),
    ("tsvector", "TSVECTOR"), ("uuid", "UUID"), ("varbit", "VARBIT"), ("varchar", "VARCHAR")]

/-- The spelling of further types that are not named by keywords. -/
def furtherTypes : List (String × String) :=
  [("anyarray", "ANYELEMENT[]"), ("anyelement", "ANYELEMENT"), ("bigserial", "SERIAL8"),
    ("blob", "BYTES"), ("bytes", "BYTES"), ("int64", "INT8"),
    ("serial", "SERIAL8"), ("serial2", "SERIAL2"), ("serial4", "SERIAL4"), ("serial8", "SERIAL8"),
    ("smallserial", "SERIAL2"), ("string", "STRING"), ("unknown", "UNKNOWN"), ("void", "VOID")]

/-- Types that are known, but have no meaning yet. -/
def missingTypes : List String :=
  ["box", "cidr", "circle", "jsonpath", "line", "lseg", "macaddr", "macaddr8", "money", "path",
    "txid_snapshot", "xml"]

/-- The spelling of a type that is not named by a keyword. A name with an underscore before it means
an array. -/
def namedType? (n : Text) : Option Text :=
  match (arrayedTypes ++ furtherTypes).lookup n.toString with
  | some t => some t
  | none =>
    match n with
    | 0x5f :: rest => (arrayedTypes.lookup (Text.toString rest)).map fun t => t ++ ("[]" : Text)
    | _ => none

/-- Whether a type is known, but has no meaning yet. -/
def isMissingType (n : Text) : Bool := missingTypes.elem n.toString

/-! ## Types by keyword -/

/-- A number in parentheses. -/
def sizeText (n : Nat) : Text := Expr.parens (Text.ofNat n)

/-- A number in parentheses, if one is given. -/
def size? : Read (Option Nat) := do
  if ← atSign "(" then return some (← inParens int32)
  return none

/-- A type of texts, with its length if one is given. A single character needs none. -/
def characters (type : Text) : Read Text := do
  match ← size? with
  | none => return type
  | some 0 => objectHere (.emptyLength type)
  | some n => return if n = 1 && type = Text.ofString "CHAR" then type else type ++ sizeText n

/-- A type of bits, with its length if one is given. A single bit needs none. -/
def bits (varying : Bool) : Read Text := do
  let type : Text := if varying then "VARBIT" else "BIT"
  match ← size? with
  | none => return type
  | some 0 => objectHere .emptyBits
  | some n => return if n = 1 && !varying then type else type ++ sizeText n

/-- Asks for a precision of a time that was read to be in range. -/
def precisionText (n : Option Nat) : Text := (n.map sizeText).getD []

/-- A precision of a time in parentheses, if one is given. -/
def precision? : Read (Option Nat) := do
  let n ← size?
  match n with
  | some n => if 6 < n then objectHere (.precision n)
  | none => pure ()
  return n

/-- Whether a time has a zone, and whether that is said. -/
def zone? : Read (Bool × Bool) := do
  if (← atWord "with") && (← wordAt 1) == some "time" then
    words ["with", "time", "zone"]
    return (true, true)
  if ← acceptWord "without" then
    words ["time", "zone"]
    return (false, true)
  return (false, false)

/-- A type of a time, with its precision and its zone. -/
def timeType (plain zoned : Text) : Read Text := do
  let size ← size?
  let (zone, said) ← zone?
  match size with
  | some n =>
    if 6 < n then if said then objectHere (.precision n) else objectNext (.precision n)
  | none => pure ()
  return (if zone then zoned else plain) ++ precisionText size

/-- The precision and scale of a decimal number. A scale of zero is left out, and so is a precision
of zero. -/
def decimalSize? : Read Text := do
  if !(← acceptSign "(") then return []
  let p ← int32
  let s ← if ← acceptSign "," then int32 else pure 0
  sign ")"
  if p < s then objectHere (.scale s p)
  if p = 0 then return []
  if s = 0 then return sizeText p
  return Expr.parens (Text.ofNat p ++ [0x2c] ++ Text.ofNat s)

/-- A floating-point type, by the number of its bits if that is given. -/
def floatType : Read Text := do
  if !(← acceptSign "(") then return "FLOAT8"
  let n ← integer
  sign ")"
  if 9223372036854775807 < n then objectHere .wideInt64
  if n = 0 then objectHere .shortFloat
  if 54 < n then objectHere .longFloat
  return if n ≤ 24 then "FLOAT4" else "FLOAT8"

/-- The shapes of places, each of which may have further measures. -/
def shapes : List String :=
  ["point", "linestring", "polygon", "multipoint", "multilinestring", "multipolygon",
    "geometrycollection", "geometry"].flatMap fun s => ["", "m", "z", "zm"].map (s ++ ·)

/-- A type of places, with a shape and a system of reference if they are given. -/
def placeType (type : Text) : Read Text := do
  if !(← acceptSign "(") then return type
  let shape := Text.upper (← oneOf shapes)
  if ← acceptSign "," then
    let negative ← acceptSign "-"
    if !negative then discard (acceptSign "+")
    let n ← integer
    sign ")"
    if 2147483647 < n && !(negative && n = 2147483648) then objectHere .wideInt32
    if n = 0 then return type ++ Expr.parens shape
    let id : Text := if negative then [0x2d] ++ Text.ofNat n else Text.ofNat n
    return type ++ Expr.parens (shape ++ [0x2c] ++ id)
  sign ")"
  return type ++ Expr.parens shape

/-- A type that is named by a keyword, and may stand before a string. -/
def keywordType? (w : String) : Option (Read Text) :=
  let after := fun (p : Read Text) => some do
    advance
    p
  match w with
  | "int" | "integer" | "bigint" => after (return "INT8")
  | "smallint" => after (return "INT2")
  | "real" => after (return "FLOAT4")
  | "float" => after floatType
  | "decimal" | "dec" | "numeric" => after do return ("DECIMAL" : Text) ++ (← decimalSize?)
  | "boolean" => after (return "BOOL")
  | "bit" => after do bits (← acceptWord "varying")
  | "varbit" => after (bits true)
  | "char" | "character" => after do
    characters (if ← acceptWord "varying" then "VARCHAR" else "CHAR")
  | "varchar" => after (characters "VARCHAR")
  | "string" => after (characters "STRING")
  | "time" => after (timeType "TIME" "TIMETZ")
  | "timestamp" => after (timeType "TIMESTAMP" "TIMESTAMPTZ")
  | "timetz" => after do return ("TIMETZ" : Text) ++ precisionText (← precision?)
  | "timestamptz" => after do return ("TIMESTAMPTZ" : Text) ++ precisionText (← precision?)
  | "geometry" => after (placeType "GEOMETRY")
  | "geography" => after (placeType "GEOGRAPHY")
  | "box2d" => after (return "BOX2D")
  | _ => none

/-- The keyword type that comes next, if one does. -/
def atKeywordType : Read (Option (Read Text)) := do
  match ← wordAt 0 with
  | some "double" =>
    if (← wordAt 1) == some "precision" then
      return some do
        words ["double", "precision"]
        return "FLOAT8"
    return none
  | some w => return keywordType? w
  | none => return none

/-! ## Intervals -/

/-- The seconds of an interval, with their precision. -/
def secondsField : Read Text := do
  word "second"
  return ("SECOND" : Text) ++ precisionText (← precision?)

/-- The last field of an interval after its first, which is one of some. -/
def lastField (first : Text) (last : List String) : Read Text := do
  if !(← acceptWord "to") then return first
  if last.elem "second" && (← atWord "second") then
    return first ++ (" TO " : Text) ++ (← secondsField)
  return first ++ (" TO " : Text) ++ Text.upper (← oneOf (last.filter (· ≠ "second")))

/-- The fields that an interval is cut to, after a space, if any are given. -/
def intervalFields? : Read Text := do
  match ← wordAt 0 with
  | some "year" =>
    advance
    return [0x20] ++ (← lastField "YEAR" ["month"])
  | some "month" =>
    advance
    return " MONTH"
  | some "day" =>
    advance
    return [0x20] ++ (← lastField "DAY" ["hour", "minute", "second"])
  | some "hour" =>
    advance
    return [0x20] ++ (← lastField "HOUR" ["minute", "second"])
  | some "minute" =>
    advance
    return [0x20] ++ (← lastField "MINUTE" ["second"])
  | some "second" => return [0x20] ++ (← secondsField)
  | _ => return []

/-- A type of intervals. -/
def intervalType : Read Text := do
  word "interval"
  if ← atSign "(" then return ("INTERVAL" : Text) ++ precisionText (← precision?)
  return ("INTERVAL" : Text) ++ (← intervalFields?)

/-! ## Types -/

/-- A type that is not named by a keyword, by a name of three parts at most. -/
def generalType : Read Text := do
  let first ← nameBut fun w => isReserved w || isColumnWord w || w = "family"
  let more ← moreParts 2
  if !more.isEmpty then return pathText (first :: more)
  if isMissingType first then objectNext .unsupported
  return (namedType? first).getD (nameText first)

/-- A type that is no array. -/
def simpleType : Read Text := do
  match ← atKeywordType with
  | some p => p
  | none =>
    match ← kindAt 0 with
    | some (.word "interval") => intervalType
    | some (.word "point") | some (.word "polygon") =>
      advance
      objectNext .unsupported
    | some (.sign "@") =>
      advance
      return [0x40] ++ Text.ofNat (← int32)
    | _ => generalType

/-- Refuses a further dimension of an array. -/
def noDimension : Read Unit := do
  if ← acceptSign "[" then objectNext .unsupported

/-- A type. The bounds of an array are not kept. -/
def typeName : Read Text := do
  let base ← simpleType
  if ← acceptSign "[" then
    let bound ← if ← atSign "]" then pure 0 else integer
    sign "]"
    noDimension
    if 2147483647 < bound then objectNext .wideInt32
    return base ++ ("[]" : Text)
  if ← acceptWord "array" then
    if ← acceptSign "[" then
      discard integer
      sign "]"
      noDimension
    return base ++ ("[]" : Text)
  return base

end Galley.Sql.Read
