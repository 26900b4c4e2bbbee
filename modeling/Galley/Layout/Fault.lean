import Galley.Layout.Ring

/-!
How a render can fail. A breach of the emission contract is the caller's doing; the other faults
would be the engine's own.
-/

namespace Galley.Layout

/-- A breach of the emission contract. -/
inductive Breach where
  | invalidConfig (margin unit : Int)
  /-- The end of the document comes while groups are open. -/
  | openGroups (count : Nat)
  /-- The document has already ended. -/
  | finished
  | indentUnderflow (indent : Int)
  | groupIndentUnderflow (indent : Int)
  | negativeIndentation (indent : Int)
  | negativeBreak (width : Int)
  | unknownBreaks (code : Int)
  | endWithoutStart
  | negativeIndent (delta : Int)
  | outdentWithoutIndent
  | unmatchedIndent (delta : Int)
  | unknownToken
  deriving DecidableEq, Repr

/-- The wording of a breach. -/
def Breach.message : Breach → Text
  | .invalidConfig margin unit =>
    ("invalid config: margin " : Text) ++ Text.ofInt margin ++ (", indent unit " : Text)
      ++ Text.ofInt unit
  | .openGroups count => ("eof with " : Text) ++ Text.ofNat count ++ (" open groups" : Text)
  | .finished => "printer used after eof"
  | .indentUnderflow n => ("indentation underflow: " : Text) ++ Text.ofInt n
  | .groupIndentUnderflow n => ("group indentation underflow: " : Text) ++ Text.ofInt n
  | .negativeIndentation n => ("negative indentation " : Text) ++ Text.ofInt n
  | .negativeBreak n => ("negative break width " : Text) ++ Text.ofInt n
  | .unknownBreaks code =>
    ("unknown breaking mode Breaks(" : Text) ++ Text.ofInt code ++ (")" : Text)
  | .endWithoutStart => "group end without group start"
  | .negativeIndent n => ("negative indent " : Text) ++ Text.ofInt n
  | .outdentWithoutIndent => "outdent without indent"
  | .unmatchedIndent n =>
    ("indent " : Text) ++ Text.ofIntSigned n ++ (" does not undo the last indent" : Text)
  | .unknownToken => "unknown token <nil>"

/-- Why a render stops. -/
inductive Fault where
  | contract (breach : Breach)
  | ring (misuse : Ring.Misuse)
  /-- There is no group left to write into. -/
  | noFrame
  /-- A document of a kind that has no layout. -/
  | unknownDoc (kind : Text)
  deriving DecidableEq, Repr

/-- The wording of a fault. -/
def Fault.message : Fault → Text
  | .contract breach => ("pretty: " : Text) ++ breach.message
  | .ring misuse => misuse.message
  | .noFrame => "pretty: no open group"
  | .unknownDoc kind => ("unknown type: " : Text) ++ kind

/-- Raises a breach of the emission contract. -/
def breach {α : Type} (b : Breach) : Except Fault α := .error (.contract b)

/-- The result of a queue operation, its misuse counted as a fault. -/
def queue {α : Type} : Except Ring.Misuse α → Except Fault α
  | .ok a => .ok a
  | .error m => .error (.ring m)

theorem queue_ok {α : Type} {x : Except Ring.Misuse α} {a : α} (ran : queue x = .ok a) : x = .ok a := by
  cases x with
  | error m => cases ran
  | ok b =>
    cases ran
    rfl

end Galley.Layout
