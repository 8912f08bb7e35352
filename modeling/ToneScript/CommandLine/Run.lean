import ToneScript.CommandLine.Arguments
import ToneScript.CommandLine.Json
import ToneScript.CommandLine.Work
import ToneScript.Yaml.Settings

/-!
# A run of the command

A run reads its arguments and does its work, with settings in YAML.

## Main definitions

* `CommandLine.standardFormats` — the formats that the command is run with.
* `CommandLine.run` — what a run prints.
-/

namespace ToneScript.CommandLine

/-- The name of the command. -/
def commandName : String := "tonec"

/-- The version of the command. -/
def commandVersion : String := "0.1.0"

/-- The description of the command. -/
def helpText : String := lines [
  "Compile tone DSL programs into tone strings",
  "",
  "Usage: tonec [OPTIONS] [FILE]",
  "",
  "Arguments:",
  "  [FILE]  Source file; reads stdin when omitted",
  "",
  "Options:",
  "      --json           Print the result as JSON",
  "      --tree           Print the derivation tree",
  "      --tokens         Print the token stream and stop",
  "      --grammar        Print FIRST/FOLLOW/PREDICT for the grammar and stop",
  "      --config <PATH>  Config file (default ~/.tonec/config.yaml)",
  "  -h, --help           Print help",
  "  -V, --version        Print version"]

/-- The output for arguments that cannot be understood. -/
def usageFailure (e : UsageFault) : Output :=
  .failure ("error: " ++ e.message ++
    "\n\nUsage: tonec [OPTIONS] [FILE]\n\nFor more information, try '--help'.") 2

/-- The formats that the command is run with. -/
def standardFormats : Formats where
  settings := Settings.readYaml
  json c := .ok c.json

/-- What a run of the command prints. -/
def run {m : Type → Type} [Monad m] (around : Surroundings m) (arguments : List String) :
    m Output :=
  match Request.ofArguments arguments with
  | .error e => return usageFailure e
  | .ok .help => return { stdout := helpText }
  | .ok .version => return { stdout := commandName ++ " " ++ commandVersion ++ "\n" }
  | .ok (.work o) => work standardFormats around o

end ToneScript.CommandLine
