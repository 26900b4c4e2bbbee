import Galley.Layout.Fault
import Galley.Layout.Token

/-!
The writing side of a render: tokens whose size is known are written out, flat or broken. The
sink owes indentation and flat blanks until the next text, so that no line ends in them.
-/

namespace Galley.Layout

variable {ι : Type} [Columns ι]

/-- What was written for one token. -/
inductive Mark (ι : Type) where
  /-- Text, after the blanks that were owed. -/
  | text (lead s : Text)
  /-- A break that stayed flat. -/
  | flat (blank : ι)
  /-- A break that was taken: its own text, after the blanks that were owed, and a new line. -/
  | taken (lead preBreak : Text) (indent : ι)
  /-- A group start, and whether the whole group stays on one line. -/
  | start (fits : Bool)
  | stop
  | shift (delta : ι)
  deriving DecidableEq, Repr

/-- The bytes of a mark. Blanks of flat breaks and indentation are owed: they are part of the
next text. -/
def Mark.spelling : Mark ι → Text
  | .text lead s => lead ++ s
  | .taken lead preBreak _ => lead ++ preBreak ++ [0x0a]
  | _ => []

/-- Where the text goes. -/
structure Sink (ι : Type) where
  config : Config ι
  /-- What has been written, last first. -/
  marks : List (Mark ι)
  /-- The columns left on the current line. -/
  space : ι
  /-- Leading indentation owed. -/
  indent : ι
  /-- Blanks owed. -/
  blank : ι

namespace Sink

/-- A sink at the start of its first line. -/
def ofConfig (c : Config ι) : Sink ι := ⟨c, [], c.margin, 0, 0⟩

/-- Everything written so far. -/
def text (s : Sink ι) : Text := s.marks.reverse.flatMap Mark.spelling

/-- The current column. -/
def column (s : Sink ι) : ι := s.config.margin - s.space

/-- The spelling of leading indentation. -/
def indentation (c : Config ι) (n : ι) : Text :=
  if n ≤ 0 then []
  else if c.tabs then
    List.replicate (Columns.toNat n / Columns.toNat c.unit) 0x09
      ++ Text.spaces (Columns.toNat n % Columns.toNat c.unit)
  else Text.spaces (Columns.toNat n)

/-- What is owed before a text. Empty text leaves the debt standing. -/
def lead (s : Sink ι) (t : Text) : Text :=
  if t.isEmpty then [] else indentation s.config s.indent ++ Text.spaces (Columns.toNat s.blank)

/-- Adds a mark that takes no columns. -/
def mark (s : Sink ι) (m : Mark ι) : Sink ι := { s with marks := m :: s.marks }

/-- Writes text, and before it what is owed. -/
def write (s : Sink ι) (t : Text) (width : ι) : Sink ι :=
  let marked := s.mark (.text (s.lead t) t)
  if t.isEmpty then marked
  else
    { marked with
      space := s.space - width
      indent := if 0 < s.indent then 0 else s.indent
      blank := if 0 < s.blank then 0 else s.blank }

/-- Owes the blanks of a flat break. -/
def owe (s : Sink ι) (n : ι) : Sink ι :=
  { s.mark (.flat n) with blank := s.blank + n, space := s.space - n }

/-- Starts a line, after the text of the break taken there, and owes its indentation. -/
def newline (s : Sink ι) (preBreak : Text) (indent : ι) : Except Fault (Sink ι) :=
  if indent < 0 then breach (.negativeIndentation (Columns.toInt indent))
  else
    .ok { s.mark (.taken (s.lead preBreak) preBreak indent) with
      indent := indent
      blank := 0
      space := s.config.margin - indent }

end Sink

/-- A group being written. -/
structure Frame (ι : Type) where
  /-- The indentation of its broken lines. -/
  indent : ι
  breaks : Breaks
  /-- The whole group stays on one line. -/
  fits : Bool
  deriving DecidableEq, Repr

/-- What has been written, and the groups still open there, innermost first. -/
structure Page (ι : Type) where
  sink : Sink ι
  frames : List (Frame ι)

namespace Page

/-- A blank page. The document itself counts as an inconsistent group. -/
def ofConfig (c : Config ι) : Page ι := ⟨Sink.ofConfig c, [⟨0, .inconsistent, false⟩]⟩

/-- Writes a group start: a group that does not fit is broken and gets its own indentation. -/
def startGroup (p : Page ι) (g : Group ι) (size : ι) : Except Fault (Page ι) :=
  match p.frames with
  | [] => .error .noFrame
  | top :: _ =>
    if size ≤ p.sink.space then
      .ok ⟨p.sink.mark (.start true), ⟨top.indent, g.breaks, true⟩ :: p.frames⟩
    else
      let indent := (if g.align then p.sink.column else top.indent) + g.offset
      if indent < 0 then breach (.groupIndentUnderflow (Columns.toInt indent))
      else .ok ⟨p.sink.mark (.start false), ⟨indent, g.breaks, false⟩ :: p.frames⟩

/-- Whether a break stays flat in the given group. -/
def staysFlat (p : Page ι) (top : Frame ι) (b : Break ι) (size : ι) : Bool :=
  b.kind ≠ .hard ∧ (top.fits ∨ top.breaks = .inconsistent ∧ size ≤ p.sink.space)

/-- Writes a break, as blanks or as a new line. -/
def writeBreak (p : Page ι) (b : Break ι) (size : ι) : Except Fault (Page ι) :=
  match p.frames with
  | [] => .error .noFrame
  | top :: _ =>
    if p.staysFlat top b size then .ok { p with sink := p.sink.owe b.blank }
    else do return { p with sink := ← p.sink.newline b.preBreak (top.indent + b.offset) }

/-- Writes a token of known size. -/
def write (p : Page ι) : Token ι → ι → Except Fault (Page ι)
  | .text s, size => .ok { p with sink := p.sink.write s size }
  | .lineBreak b, size => p.writeBreak b size
  | .groupStart g, size => p.startGroup g size
  | .groupEnd, _ =>
    match p.frames with
    | [] => .error .noFrame
    | _ :: rest => .ok ⟨p.sink.mark .stop, rest⟩
  | .indent delta, _ =>
    match p.frames with
    | [] => .error .noFrame
    | top :: rest =>
      let indent := top.indent + delta
      if indent < 0 then breach (.indentUnderflow (Columns.toInt indent))
      else .ok ⟨p.sink.mark (.shift delta), { top with indent := indent } :: rest⟩
  | .missing, _ => .ok p

end Page

end Galley.Layout
