import Galley.Text.Quoted
import Galley.Layout.Config

/-!
Layout instructions and their readable form.
-/

namespace Galley.Layout

/-- The breaking policy of a group. -/
inductive Breaks where
  /-- The group breaks at all of its own break points or at none. -/
  | consistent
  /-- The group breaks only where the next chunk would not fit. -/
  | inconsistent
  /-- No policy; printers refuse it. -/
  | unknown (code : Int)
  deriving DecidableEq, Repr

/-- The name of a policy. -/
def Breaks.name : Breaks → Text
  | .consistent => "consistent"
  | .inconsistent => "inconsistent"
  | .unknown code => ("Breaks(" : Text) ++ Text.ofInt code ++ (")" : Text)

/-- The kind of a break point. -/
inductive BreakKind where
  | space
  | zero
  | hard
  | unknown (code : Int)
  deriving DecidableEq, Repr

/-- The name of a kind. -/
def BreakKind.name : BreakKind → Text
  | .space => "space"
  | .zero => "zero"
  | .hard => "hard"
  | .unknown code => ("BreakKind(" : Text) ++ Text.ofInt code ++ (")" : Text)

variable {ι : Type} [Columns ι]

/-- An optional line break. -/
structure Break (ι : Type) where
  kind : BreakKind
  /-- The spaces written when the break stays flat. -/
  blank : ι
  /-- Columns added to the group's indentation when the break is taken. -/
  offset : ι
  /-- Written before the newline, and only when the break is taken. -/
  preBreak : Text
  deriving DecidableEq, Repr

/-- The columns of a break that stays flat. -/
def Break.width (b : Break ι) : ι := if b.kind = .hard then infiniteWidth else b.blank

/-- How a group is laid out. -/
structure Group (ι : Type) where
  breaks : Breaks
  /-- The indentation of the group's broken lines relative to its base. -/
  offset : ι
  /-- The base is the column where the group starts, not the enclosing indentation. -/
  align : Bool
  deriving DecidableEq, Repr

/-- A single layout instruction. -/
inductive Token (ι : Type) where
  /-- Text that is never split. -/
  | text (s : Text)
  | lineBreak (b : Break ι)
  | groupStart (g : Group ι)
  | groupEnd
  /-- Changes the indentation of the enclosing group for the breaks that follow. -/
  | indent (delta : ι)
  /-- No instruction at all; printers refuse it. -/
  | missing
  deriving DecidableEq, Repr

instance : Inhabited (Token ι) := ⟨.missing⟩

namespace Token

private def signedPart (n : ι) : Text :=
  if n = 0 then [] else (" " : Text) ++ Text.ofIntSigned (Columns.toInt n)

/-- A token in words. -/
def describe : Token ι → Text
  | .text s => s.quoted
  | .lineBreak b =>
    ("break(" : Text) ++ b.kind.name
      ++ (if b.kind ≠ .hard ∧ b.blank ≠ 1 then (" " : Text) ++ Text.ofInt (Columns.toInt b.blank)
          else [])
      ++ signedPart b.offset
      ++ (if b.preBreak.isEmpty then [] else (" " : Text) ++ b.preBreak.quoted) ++ (")" : Text)
  | .groupStart g =>
    ("begin(" : Text) ++ g.breaks.name ++ signedPart g.offset
      ++ (if g.align then (" align" : Text) else []) ++ (")" : Text)
  | .groupEnd => "end"
  | .indent delta =>
    ("indent(" : Text) ++ Text.ofIntSigned (Columns.toInt delta) ++ (")" : Text)
  | .missing => "<nil>"

/-- The lines of `outline`, from a nesting depth on. -/
private def outlineFrom (depth : Nat) : List (Token ι) → List Text
  | [] => []
  | t :: ts =>
    let here := if t = .groupEnd then depth - 1 else depth
    let next := match t with
      | .groupStart _ => here + 1
      | _ => here
    (Text.spaces (2 * here) ++ t.describe) :: outlineFrom next ts

/-- Tokens in words, one on a line, indented by their nesting. -/
def outline (ts : List (Token ι)) : Text := Text.join ("\n" : Text) (outlineFrom 0 ts)

end Token

end Galley.Layout
