import Galley.Text.Quoted

/-!
What may be wrong with a statement whose tokens fit.
-/

namespace Galley.Sql

/-- Why the frame of a window makes no sense. -/
inductive FrameFault where
  | startsAtEnd
  | endsAtStart
  | currentBeforePreceding
  | followingBeforePreceding
  | followingToCurrent
  deriving DecidableEq, Repr

/-- The wording of a fault of a frame. -/
def FrameFault.message : FrameFault → Text
  | .startsAtEnd => "frame start cannot be UNBOUNDED FOLLOWING"
  | .endsAtStart => "frame end cannot be UNBOUNDED PRECEDING"
  | .currentBeforePreceding => "frame starting from current row cannot have preceding rows"
  | .followingBeforePreceding => "frame starting from following row cannot have preceding rows"
  | .followingToCurrent => "frame starting from following row cannot end with current row"

/-- Why a reading of a statement is given up although its tokens fit. -/
inductive Objection where
  /-- The construct is known, but has no meaning yet. -/
  | unsupported
  /-- A quantifier follows an operator that makes no truth value. -/
  | notBoolean (operator quantifier : Text)
  | notUnary (operator : Text)
  | notBinary (operator : Text)
  | emptyLength (type : Text)
  | emptyBits
  | shortFloat
  | longFloat
  | precision (n : Nat)
  | scale (scale precision : Nat)
  | wideInt32
  | wideInt64
  | ordinal (n : Nat)
  | frame (f : FrameFault)
  | severalKeys
  | leftOverlap
  | rightOverlap
  | longName (name : Text)
  /-- A hint is given twice. -/
  | repeated (hint : Text)
  | mixedZigzag
  /-- Two hints exclude each other. -/
  | conflict (hint other : Text)
  | directionAlone
  deriving DecidableEq, Repr

/-- The wording of an objection. -/
def Objection.message : Objection → Text
  | .unsupported => "unimplemented: this syntax"
  | .notBoolean op q =>
    op ++ [0x20] ++ q ++ (" <array> is invalid because " : Text) ++ op.quoted ++
      (" is not a boolean operator" : Text)
  | .notUnary op => ("unknown unary operator " : Text) ++ op
  | .notBinary op => ("unknown binary operator " : Text) ++ op
  | .emptyLength type =>
    ("length for type " : Text) ++ type ++ (" must be at least 1" : Text)
  | .emptyBits => "length for type bit must be at least 1"
  | .shortFloat => "precision for type float must be at least 1 bit"
  | .longFloat => "precision for type float must be less than 54 bits"
  | .precision n => ("precision " : Text) ++ Text.ofNat n ++ (" out of range" : Text)
  | .scale s p =>
    ("scale (" : Text) ++ Text.ofNat s ++ (") must be between 0 and precision (" : Text) ++
      Text.ofNat p ++ (")" : Text)
  | .wideInt32 => "numeric constant out of int32 range"
  | .wideInt64 => "numeric constant out of int64 range"
  | .ordinal n => ("invalid column ordinal: @" : Text) ++ Text.ofNat n
  | .frame f => f.message
  | .severalKeys => "multiple ORDER BY clauses are not supported in this function"
  | .leftOverlap => "wrong number of parameters on left side of OVERLAPS expression"
  | .rightOverlap => "wrong number of parameters on right side of OVERLAPS expression"
  | .longName n => ("improper qualified name (too many dotted names): " : Text) ++ n
  | .repeated hint => hint ++ (" specified multiple times" : Text)
  | .mixedZigzag => "FORCE_ZIGZAG hints not distinct"
  | .conflict hint other =>
    hint ++ (" cannot be specified in conjunction with " : Text) ++ other
  | .directionAlone => "ASC/DESC must be specified in conjunction with an index"

end Galley.Sql
