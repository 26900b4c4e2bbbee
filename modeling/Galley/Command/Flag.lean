import Galley.Text.Directive
import Galley.Text.Numeral

/-!
The flags of a command line. A flag is named in full after two hyphens, or by a letter after one;
several letters may share a hyphen. Arguments that are no flags may stand anywhere, and two hyphens
alone make all that follows such arguments.
-/

namespace Galley.Command

/-- What a flag holds, as a part of the settings. -/
inductive Holds (σ : Type) where
  | switch (set : Bool → σ → σ)
  | number (get : σ → Int) (set : Int → σ → σ)
  | text (get : σ → Text) (set : Text → σ → σ)
  /-- Each use adds a text. -/
  | texts (add : Text → σ → σ)

/-- A flag. -/
structure Flag (σ : Type) where
  name : Text
  letter : Option UInt8
  holds : Holds σ
  usage : Text

/-- Why a command line is not understood. -/
inductive Misuse where
  /-- There is no name between two hyphens and the value. -/
  | noName (argument : Text)
  | unknownName (name : Text)
  | unknownLetter (letter : UInt8) (letters : Text)
  | noValue (argument : Text)
  | noValueForLetter (letter : UInt8) (letters : Text)
  | badValue (value flag cause : Text)

/-- The wording of a misuse. -/
def Misuse.message : Misuse → Text
  | .noName a => ("bad flag syntax: " : Text) ++ a
  | .unknownName n => ("unknown flag: --" : Text) ++ n
  | .unknownLetter c cs =>
    ("unknown shorthand flag: " : Text) ++ Text.quotedCode c.toNat ++ (" in -" : Text) ++ cs
  | .noValue a => ("flag needs an argument: " : Text) ++ a
  | .noValueForLetter c cs =>
    ("flag needs an argument: " : Text) ++ Text.quotedCode c.toNat ++ (" in -" : Text) ++ cs
  | .badValue value flag cause =>
    ("invalid argument " : Text) ++ value.quoted ++ (" for " : Text) ++ flag.quoted ++
      (" flag: " : Text) ++ cause

/-- The wording of a misuse above the usage. A value is taken for a message with directives. -/
def Misuse.notice : Misuse → Text
  | .badValue value flag cause => (Misuse.badValue value flag cause).message.unfilled
  | m => m.message

variable {σ : Type}

/-! ## Usage -/

namespace Flag

/-- What the values of a flag are called; a switch needs none. -/
def kind (f : Flag σ) : Text :=
  match f.holds with
  | .switch _ => []
  | .number _ _ => " int"
  | .text _ _ => " string"
  | .texts _ => " stringArray"

/-- A note on what a flag holds if it is not given, unless that is nothing. -/
def standardNote (standard : σ) (f : Flag σ) : Text :=
  match f.holds with
  | .switch _ | .texts _ => []
  | .number get _ =>
    let n := get standard
    if n = 0 then [] else (" (default " : Text) ++ Text.ofInt n ++ (")" : Text)
  | .text get _ =>
    let t := get standard
    if t.isEmpty then [] else (" (default " : Text) ++ t.quoted ++ (")" : Text)

/-- How a flag is given. -/
def title (f : Flag σ) : Text :=
  (match f.letter with
    | some c => ("-" : Text) ++ [c] ++ (", " : Text)
    | none => []) ++ ("--" : Text) ++ f.name

/-- The left column of the usage. -/
def label (f : Flag σ) : Text :=
  Text.spaces (if f.letter.isSome then 2 else 6) ++ f.title ++ f.kind

/-- The usage of flags, one on a line, their explanations below one another. -/
def usages (standard : σ) (flags : List (Flag σ)) : Text :=
  let width := (flags.map fun f => f.label.length).foldl max 0
  flags.flatMap fun f =>
    f.label ++ Text.spaces (width + 3 - f.label.length) ++ f.usage ++ f.standardNote standard ++ [0x0a]

end Flag

/-! ## Reading -/

namespace Flag

/-- Settings with a value given to a flag. -/
def set (f : Flag σ) (value : Text) (s : σ) : Except Misuse σ :=
  let refuse := Misuse.badValue value f.title
  match f.holds with
  | .switch set => (set · s) <$> (Text.readBool value).mapError refuse
  | .number _ set => (set · s) <$> (Text.readIntAnyBase value).mapError refuse
  | .text _ set => .ok (set value s)
  | .texts add => .ok (add value s)

/-- The value of a flag that is given without one. -/
def ownValue (f : Flag σ) : Option Text :=
  match f.holds with
  | .switch _ => some "true"
  | _ => none

end Flag

/-- A command line that has been read: the settings, and the arguments that are no flags. -/
structure Line (σ : Type) where
  settings : σ
  arguments : List Text

/-- Where the value of a flag comes from. -/
inductive Given (σ : Type) where
  /-- It stands with the flag, and the settings have it. -/
  | here (s : σ)
  /-- It is the next argument. If there is none, `missing` says so. -/
  | next (f : Flag σ) (s : σ) (missing : Misuse)

/-- Reads an argument that starts with two hyphens. -/
def readName (flags : List (Flag σ)) (argument : Text) (s : σ) : Except Misuse (Given σ) :=
  let t := argument.drop 2
  if t.isEmpty || t.head? = some 0x2d || t.head? = some 0x3d then .error (.noName argument)
  else
    let name := t.takeWhile (· ≠ 0x3d)
    match flags.find? (·.name = name) with
    | none => .error (.unknownName name)
    | some f =>
      match t.drop name.length, f.ownValue with
      | _ :: value, _ => .here <$> f.set value s
      | [], some value => .here <$> f.set value s
      | [], none => .ok (.next f s (.noValue argument))

/-- Reads letters after a hyphen. Flags of a test run start with `test.` and are passed over. -/
def readLetters (flags : List (Flag σ)) : Text → σ → Except Misuse (Given σ)
  | [], s => .ok (.here s)
  | c :: rest, s =>
    if Text.startsWith (c :: rest) "test." then .ok (.here s)
    else
      match flags.find? (·.letter = some c) with
      | none => .error (.unknownLetter c (c :: rest))
      | some f =>
        match rest, f.ownValue with
        | 0x3d :: b :: value, _ => .here <$> f.set (b :: value) s
        | rest, some value => do readLetters flags rest (← f.set value s)
        | [], none => .ok (.next f s (.noValueForLetter c [c]))
        | value, none => .here <$> f.set value s

/-- Reads arguments. -/
def Line.read (flags : List (Flag σ)) : List Text → σ → Except Misuse (Line σ)
  | [], s => .ok ⟨s, []⟩
  | a :: rest, s =>
    if a = [0x2d, 0x2d] then .ok ⟨s, rest⟩
    else if a.head? ≠ some 0x2d || a.length = 1 then do
      let line ← Line.read flags rest s
      return { line with arguments := a :: line.arguments }
    else do
      let given ←
        if Text.startsWith a "--" then readName flags a s else readLetters flags (a.drop 1) s
      match given, rest with
      | .here s, rest => Line.read flags rest s
      | .next f s _, value :: rest => do Line.read flags rest (← f.set value s)
      | .next _ _ missing, [] => .error missing

end Galley.Command
