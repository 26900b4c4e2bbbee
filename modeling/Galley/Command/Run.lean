import Galley.Command.Files
import Galley.Command.Service
import Galley.Command.Settings
import Galley.Language
import Galley.Web.Server

/-!
A run of the command: it formats statements, files or what it is given as input, or starts the
service.
-/

namespace Galley.Command

open Layout (Columns)

/-- How a run ends. -/
structure Outcome where
  status : Nat
  output : Text
  /-- What is said apart from the output. -/
  notes : Text
  deriving DecidableEq, Repr

namespace Outcome

/-- A run that does what it is asked. -/
def success (output : Text) : Outcome := ⟨0, output, []⟩

/-- A run that stops after some output; the output ends with why. -/
def failure (output message : Text) : Outcome := ⟨1, output ++ message ++ [0x0a], []⟩

/-- A run that stops because a source cannot be formatted. The message may be about one file. -/
def ofFailure (output about : Text) : Failure → Outcome
  | .source m => failure output (about ++ m)
  | .layout f => ⟨2, output, f.message ++ [0x0a]⟩

/-- A run whose command line is not understood. -/
def misuse (m : Misuse) : Outcome :=
  ⟨2, m.message ++ [0x0a], m.notice ++ [0x0a] ++ Settings.usage⟩

end Outcome

/-- What a run leads to. -/
inductive Ending where
  | exit (outcome : Outcome)
  /-- The service is to be run after it is announced. -/
  | serve (announcement : Text) (address : Text) (server : Web.Server)

/-- Starts the service. -/
def Service.start (s : Service) : Ending :=
  match Web.Server.ofCapacity s.capacity with
  | .ok server => .serve s.announcement s.address server
  | .error e => .exit ⟨1, s.announcement, e ++ [0x0a]⟩

variable {ι : Type} [Columns ι] {m : Type → Type} [Monad m]

/-- Formats files one after the other, after some output. The first that fails is the last. -/
def formatFiles (files : Files m) (s : Settings) (o : Options ι) : Text → List Text → m Outcome
  | output, [] => return .success output
  | output, name :: rest => do
    match ← files.read name with
    | .error e => return .failure output e
    | .ok source =>
      let about := name ++ (": " : Text)
      match format o s.language [source] with
      | .error e => return .ofFailure output about e
      | .ok t =>
        if s.write then
          match ← files.write name (t ++ [0x0a]) with
          | .error e => return .failure output (about ++ e)
          | .ok _ => formatFiles files s o output rest
        else formatFiles files s o (output ++ t ++ [0x0a]) rest

/-- Formats what the settings and the other arguments say. Input is read only if they give nothing
to format. -/
def formatAll (ι : Type) [Columns ι] (files : Files m) (input : m Text) (columns : Option Text)
    (s : Settings) (names : List Text) : m Outcome :=
  match s.options ι columns with
  | .error e => return .failure [] e
  | .ok o =>
    if s.write && names.isEmpty then return .failure [] "-w needs file arguments"
    else if !names.isEmpty then formatFiles files s o [] names
    else do
      let sources ← if s.statements.isEmpty then (fun t => [t]) <$> input else pure s.statements
      return match format o s.language sources with
        | .error e => .ofFailure [] [] e
        | .ok t => .success (t ++ [0x0a])

/-- The names of all that a run looks up in the environment. -/
def lookedUp : List Text :=
  ("COLUMNS" : Text) ::
    ["ADDR", "REDIR", "AUTOCERT", "DIRCACHE", "CACHESIZE"].map fun name : String =>
      Service.variableName name

/-- Runs the command. -/
def run (ι : Type) [Columns ι] (files : Files m) (input : m Text) (env : Text → Option Text)
    (arguments : List Text) : m Ending :=
  match Line.read Settings.flags arguments {} with
  | .error e => return .exit (.misuse e)
  | .ok line =>
    let s := line.settings
    if s.help then return .exit ⟨0, Settings.explanation, Settings.usage⟩
    else if s.version then return .exit (.success Settings.versionLine)
    else
      match Service.ofEnvironment env with
      | .error e => return .exit ⟨1, [], e ++ [0x0a]⟩
      | .ok service =>
        if !service.address.isEmpty then return service.start
        else .exit <$> formatAll ι files input (env "COLUMNS") s line.arguments

end Galley.Command
