import ToneScript.CommandLine.Options

/-!
# Arguments of the command

The reader of arguments that the command is run with.  Every flag, option and path may be given
once, in any order; behind a double dash everything is a path.  The work of the command is written
for any options, and what is proved of it is proved for all of them.

## Main definitions

* `CommandLine.Request` — what is asked for.
* `CommandLine.Request.ofArguments` — reads the arguments.
-/

namespace ToneScript.CommandLine

/-- The name of a flag. -/
def Flag.name : Flag → String
  | json => "json"
  | tree => "tree"
  | tokens => "tokens"
  | grammar => "grammar"

/-- The flag with a name. -/
def Flag.ofName? (name : String) : Option Flag :=
  [json, tree, tokens, grammar].find? (·.name = name)

theorem Flag.ofName?_name (f : Flag) : ofName? f.name = some f := by
  cases f <;> decide

/-- What is asked for. -/
inductive Request where
  /-- The work of the command. -/
  | work (options : Options)
  /-- A description of the command. -/
  | help
  /-- The version of the command. -/
  | version
deriving DecidableEq, Repr

/-- What is wrong with the arguments. -/
inductive UsageFault where
  /-- There is no place for this argument. -/
  | unexpected (argument : String)
  /-- An option is given twice. -/
  | repeated (option : String)
  /-- A flag is given a value. -/
  | needlessValue (option value : String)
  /-- The value of an option or argument is missing or empty. -/
  | missingValue (option : String)
deriving DecidableEq, Repr

/-- The wording of a fault. -/
def UsageFault.message : UsageFault → String
  | unexpected a => "unexpected argument '" ++ a ++ "' found"
  | repeated x => "the argument '" ++ x ++ "' cannot be used multiple times"
  | needlessValue x v => "unexpected value '" ++ v ++ "' for '" ++ x ++ "' found"
  | missingValue x => "a value is required for '" ++ x ++ "' but none was supplied"

/-! ## Single arguments -/

/-- The form of an argument. -/
inductive Argument where
  /-- A path. -/
  | path (text : String)
  /-- The name of an option, possibly with a value behind an equals sign. -/
  | long (name : String) (value : Option String)
  /-- The letter of an option. -/
  | short (letter : Char)
  /-- The double dash, behind which everything is a path. -/
  | separator
deriving DecidableEq, Repr

/-- The form of an argument.  A single dash is a path. -/
def Argument.ofString (s : String) : Argument :=
  match s.toList with
  | ['-', '-'] => .separator
  | '-' :: '-' :: r =>
    let value := match r.dropWhile (· != '=') with
      | _ :: v => some (String.ofList v)
      | [] => none
    .long (String.ofList (r.takeWhile (· != '='))) value
  | '-' :: c :: _ => .short c
  | _ => .path s

example : Argument.ofString "--config=a=b" = .long "config" (some "a=b") := by decide

example : Argument.ofString "-" = .path "-" := by decide

namespace Options

/-- Raises a flag. -/
def raise (o : Options) (f : Flag) : Except UsageFault Options :=
  if o.has f then .error (.repeated ("--" ++ f.name)) else .ok { o with flags := f :: o.flags }

/-- Adds the path of the source. -/
def addSource (o : Options) (path : String) : Except UsageFault Options :=
  if o.source.isSome then .error (.unexpected path)
  else if path.isEmpty then .error (.missingValue "[FILE]")
  else .ok { o with source := some path }

/-- Adds the path of the settings. -/
def addSettings (o : Options) (path : String) : Except UsageFault Options :=
  if o.settings.isSome then .error (.repeated "--config <PATH>")
  else if path.isEmpty then .error (.missingValue "--config <PATH>")
  else .ok { o with settings := some path }

end Options

/-! ## All arguments -/

/-- The flags and options that take no value. -/
def takesNoValue (name : String) : Bool :=
  (Flag.ofName? name).isSome || name == "help" || name == "version"

namespace Request

/-- Reads the arguments from left to right, and nothing behind a call for help or for the
version. -/
def read (o : Options) : List String → Except UsageFault Request
  | [] => .ok (.work o)
  | a :: rest =>
    match Argument.ofString a with
    | .separator => (rest.foldlM Options.addSource o).map .work
    | .path p => do read (← o.addSource p) rest
    | .short c =>
      if c = 'h' then .ok .help
      else if c = 'V' then .ok .version
      else .error (.unexpected a)
    | .long name value =>
      if name = "config" then
        match value with
        | some p => do read (← o.addSettings p) rest
        | none => match rest with
          | [] => .error (.missingValue "--config <PATH>")
          | b :: rest => match Argument.ofString b with
            | .path p => do read (← o.addSettings p) rest
            | _ => .error (.missingValue "--config <PATH>")
      else if takesNoValue name then
        match value, Flag.ofName? name with
        | some v, _ => .error (.needlessValue ("--" ++ name) v)
        | none, some f => do read (← o.raise f) rest
        | none, none => .ok (if name = "help" then .help else .version)
      else .error (.unexpected a)

/-- Reads the arguments. -/
def ofArguments (arguments : List String) : Except UsageFault Request := read {} arguments

end Request

end ToneScript.CommandLine
