import Galley.Layout.Fault

/-!
Why a source cannot be formatted.
-/

namespace Galley

/-- Why a source cannot be formatted: it is at fault itself, or its layout is. -/
inductive Failure where
  | source (message : Text)
  | layout (fault : Layout.Fault)
  deriving DecidableEq, Repr

/-- A layout, its faults counted as failures. -/
def Failure.ofLayout {α : Type} : Except Layout.Fault α → Except Failure α
  | .ok a => .ok a
  | .error f => .error (.layout f)

end Galley
