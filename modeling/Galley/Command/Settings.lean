import Galley.Command.Flag
import Galley.Keyword.Case
import Galley.Options

/-!
What the command can be told on its command line.
-/

namespace Galley.Command

open Layout (Columns Config)

/-- The settings, as they are when no flag is given. -/
structure Settings where
  keywordCase : Text := "upper"
  color : Bool := false
  expanded : Bool := false
  help : Bool := false
  language : Text := "sql"
  maxBlankLines : Int := 1
  /-- The desired number of columns per line, or 0 for as many as the terminal has. -/
  printWidth : Int := 0
  statements : List Text := []
  tabWidth : Int := 4
  useSpaces : Bool := false
  version : Bool := false
  wrapComments : Int := 0
  /-- Results replace the files they are made from. -/
  write : Bool := false

namespace Settings

/-- The flags, by name. -/
def flags : List (Flag Settings) := [
  ⟨"case", none, .text (·.keywordCase) fun t s => { s with keywordCase := t },
    "keyword case: upper, lower, title or spongebob"⟩,
  ⟨"color", none, .switch fun b s => { s with color := b },
    "highlight keywords with terminal colors"⟩,
  ⟨"expanded", none, .switch fun b s => { s with expanded := b },
    "put every element of a broken list on its own line"⟩,
  ⟨"help", some 0x68, .switch fun b s => { s with help := b }, "display help"⟩,
  ⟨"lang", none, .text (·.language) fun t s => { s with language := t },
    "input language: sql, json or yaml"⟩,
  ⟨"max-blank-lines", none, .number (·.maxBlankLines) fun n s => { s with maxBlankLines := n },
    "longest run of blank lines kept between statements"⟩,
  ⟨"print-width", none, .number (·.printWidth) fun n s => { s with printWidth := n },
    "line length where boxfmt will try to wrap, 0 for the terminal width"⟩,
  ⟨"stmt", none, .texts fun t s => { s with statements := s.statements ++ [t] },
    "instead of reading from stdin, specify statements as arguments"⟩,
  ⟨"tab-width", none, .number (·.tabWidth) fun n s => { s with tabWidth := n },
    "number of spaces per indentation level"⟩,
  ⟨"use-spaces", none, .switch fun b s => { s with useSpaces := b },
    "indent with spaces instead of tabs"⟩,
  ⟨"version", some 0x76, .switch fun b s => { s with version := b }, "display version"⟩,
  ⟨"wrap-comments", none, .number (·.wrapComments) fun n s => { s with wrapComments := n },
    "re-wrap comments to this width, 0 to leave them alone"⟩,
  ⟨"write", some 0x77, .switch fun b s => { s with write := b },
    "write result to the named files instead of stdout"⟩]

/-- The name of the program. -/
def program : Text := "boxfmt"

/-- How the program is called. -/
def usage : Text :=
  ("Usage of " : Text) ++ program ++ (":\n" : Text) ++ Flag.usages {} flags

/-- What the program is for. -/
def explanation : Text :=
  ("\n\n" : Text) ++ program ++ Text.ofLines [
    " runs in one of two modes.",
    "",
    "1) It takes in SQL, JSON or YAML from stdin, the --stmt arguments or",
    "the named files and formats it to stdout. This mode is enabled if the",
    "webserver is unconfigured.",
    "",
    "2) It runs a webserver on a specified address. This is configured by",
    "setting the BOXFMT_ADDR env variable to a bindable address (like \":8080\"):",
    "",
    "BOXFMT_ADDR=\":8080\" "] ++ program ++ ("\n" : Text)

/-- The version of the program. -/
def versionLine : Text := program ++ (" dev (none, unknown)\n" : Text)

/-- The columns of the terminal, as far as they are known. -/
def terminalWidth (columns : Option Text) : Int :=
  match columns.map Text.readInt with
  | some (.ok n) => if 0 < n then n else 80
  | _ => 80

/-- The layout that is asked for. -/
def layout (ι : Type) [Columns ι] (columns : Option Text) (s : Settings) : Config ι :=
  { margin := Columns.ofInt (if 0 < s.printWidth then s.printWidth else terminalWidth columns)
    unit := Columns.ofInt s.tabWidth
    tabs := !s.useSpaces
    ansi := false }

/-- The options that are asked for. Files are written without colours. -/
def options (ι : Type) [Columns ι] (columns : Option Text) (s : Settings) :
    Except Text (Options ι) := do
  if s.printWidth < 0 then
    throw (("line length must be >= 0: " : Text) ++ Text.ofInt s.printWidth)
  let layout := s.layout ι columns
  layout.validate.mapError (·.message)
  let keywordCase ← Keyword.Case.ofName s.keywordCase
  if s.maxBlankLines < 0 then
    throw (("max blank lines must be >= 0: " : Text) ++ Text.ofInt s.maxBlankLines)
  return {
    layout
    keywordCase := some keywordCase.apply
    expanded := s.expanded
    color := s.color && !s.write
    comments := ⟨s.maxBlankLines, s.wrapComments⟩ }

end Settings

end Galley.Command
