import Galley.Text.Numeral
import Galley.Text.Space

/-!
The settings of the service. They stand in the environment, under names with a common start.
-/

namespace Galley.Command

/-- The settings of the service. -/
structure Service where
  address : Text
  redirection : Text
  /-- The hosts to get certificates for. -/
  hosts : Option (List Text)
  certificates : Text
  /-- How many results are kept. -/
  capacity : Int

namespace Service

/-- Where a setting stands in the environment. -/
def variableName (setting : Text) : Text := ("BOXFMT_" : Text) ++ setting

/-- The value of a setting. -/
def setting (env : Text → Option Text) (name : Text) : Option Text := env (variableName name)

/-- Reads a list: its parts stand between commas, and a blank list has none. -/
def readList (t : Text) : List Text := if t.isBlank then [] else Text.splitOn 0x2c t

/-- Reads the number of results to be kept. -/
def readCapacity : Option Text → Except Text Int
  | none => .ok 10000
  | some t =>
    (Text.readIntAnyBase t).mapError fun m =>
      ("envconfig.Process: assigning BOXFMT_CACHESIZE to CacheSize: converting '" : Text) ++ t ++
        ("' to type int. details: " : Text) ++ m

/-- Reads the settings. -/
def ofEnvironment (env : Text → Option Text) : Except Text Service := do
  let capacity ← readCapacity (setting env "CACHESIZE")
  return {
    address := (setting env "ADDR").getD []
    redirection := (setting env "REDIR").getD []
    hosts := (setting env "AUTOCERT").map readList
    certificates := (setting env "DIRCACHE").getD []
    capacity }

/-- The hosts as they are announced. -/
def hostsText : Option (List Text) → Text
  | none => "[]string(nil)"
  | some hosts =>
    ("[]string\x7b" : Text) ++ Text.join (", " : Text) (hosts.map Text.quoted) ++ ("\x7d" : Text)

/-- The line that announces the service. -/
def announcement (s : Service) : Text :=
  ("SPEC: main.Specification\x7bAddr:" : Text) ++ s.address.quoted ++ (", Redir:" : Text) ++
    s.redirection.quoted ++ (", Autocert:" : Text) ++ hostsText s.hosts ++
    (", DirCache:" : Text) ++ s.certificates.quoted ++ (", CacheSize:" : Text) ++
    Text.ofInt s.capacity ++ ("\x7d\n" : Text)

end Service

end Galley.Command
