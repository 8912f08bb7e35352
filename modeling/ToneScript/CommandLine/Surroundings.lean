import ToneScript.CommandLine.Options
import ToneScript.Settings

/-!
# What is around a run

A run is given the files of a system, and the formats of settings and of JSON are those of other
programs.  So all of these are arguments here: a run is written for any system and for any formats,
whatever a path is made of and whatever it is that reading does.

## Main definitions

* `CommandLine.PathType` — what can be done with paths.
* `CommandLine.Surroundings` — the files around a run.
* `CommandLine.Formats` — the formats that a run reads and writes.
-/

namespace ToneScript.CommandLine

/-! ## Files -/

/-- What can be done with paths.  They need not be texts. -/
class PathType (Path : Type) where
  /-- The path of the current directory. -/
  here : Path
  /-- The path of the entry of a directory. -/
  entry (directory : Path) (name : String) : Path
  /-- A path as it is shown. -/
  display (path : Path) : String

instance : PathType String where
  here := "."
  entry directory name :=
    if directory.isEmpty || directory.endsWith "/" then directory ++ name
    else directory ++ "/" ++ name
  display path := path

/-- The files around a run.  In the monad, reading one may have an effect on what is read later. -/
structure Surroundings (m : Type → Type) (Path : Type := String) where
  /-- The file under a path. -/
  file : Path → m File
  /-- The standard input. -/
  input : m File
  /-- The path of the home directory, if there is one. -/
  home : Option Path

namespace Surroundings

variable {m : Type → Type} {Path : Type} [PathType Path]

/-- The standard place of the settings. -/
def standardSettings (around : Surroundings m Path) : Path :=
  PathType.entry (PathType.entry (around.home.getD PathType.here) ".tonec") "config.yaml"

/-- The file of settings that a run reads. -/
def settingsFile (around : Surroundings m Path) (o : Options Path) : m File :=
  around.file (o.settings.getD around.standardSettings)

/-- The file or input that a run takes its source from. -/
def sourceFile (around : Surroundings m Path) (o : Options Path) : m File :=
  o.source.elim around.input around.file

end Surroundings

/-! ## Formats -/

/-- The formats that a run reads and writes. -/
structure Formats where
  /-- The settings that a text makes, or what is wrong with it. -/
  settings : String → Except String Settings
  /-- A compilation as JSON, or why there is none. -/
  json : Compilation → Except String String

/-- The settings that a file makes.  Under a path that is given, a file has to be there. -/
def Formats.readSettings {Path : Type} [PathType Path] (f : Formats) (path : Option Path)
    (file : File) : Except String Settings :=
  match path, file with
  | some p, .missing _ => .error (PathType.display p ++ " not found")
  | _, file => Settings.load f.settings file

end ToneScript.CommandLine
