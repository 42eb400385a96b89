import PolicyMend.Violation

/-!
The command line. Arguments are read from left to right, and the first one that does not fit
decides. Options that apply to every command may stand before and after it; the one after it wins.
-/

namespace PolicyMend.Command

inductive LogLevel where
  | trace
  | debug
  | info
  | warn
  | error
  deriving DecidableEq, Inhabited

def LogLevel.ofName? : String → Option LogLevel
  | "trace" => some trace
  | "debug" => some debug
  | "info" => some info
  | "warn" => some warn
  | "error" => some error
  | _ => none

inductive Format where
  | text
  | json
  deriving DecidableEq, Inhabited

def Format.ofName? : String → Option Format
  | "text" => some text
  | "json" => some json
  | _ => none

structure Globals where
  workspace : Option String := none
  logLevel : Option LogLevel := none
  deriving DecidableEq, Inhabited

/-- The options of an inner level, completed by those of an outer one. -/
def Globals.within (inner outer : Globals) : Globals where
  workspace := inner.workspace.or outer.workspace
  logLevel := inner.logLevel.or outer.logLevel

structure FixArguments where
  globals : Globals := {}
  paths : List String := []
  violations : List Violation := []
  baseDir : Option String := none
  disabled : List String := []
  ignore : List String := []
  dryRun : Bool := false
  format : Option Format := none
  deriving DecidableEq, Inhabited

inductive Invocation where
  | fix (arguments : FixArguments)
  | fixers (globals : Globals)
  | version
  | help
  deriving DecidableEq

inductive UsageError where
  | missingCommand
  | unknownCommand (name : String)
  | unexpected (argument : String)
  | missingValue (option : String)
  | invalidValue (option value : String)
  | repeated (option : String)
  deriving DecidableEq

def UsageError.message : UsageError → String
  | missingCommand => "a command is required"
  | unknownCommand name => "unrecognized command '" ++ name ++ "'"
  | unexpected argument => "unexpected argument '" ++ argument ++ "'"
  | missingValue option => "a value is required for '--" ++ option ++ "'"
  | invalidValue option value => "invalid value '" ++ value ++ "' for '" ++ option ++ "'"
  | repeated option => "the argument '--" ++ option ++ "' cannot be used multiple times"

/-! ### Arguments -/

inductive Argument where
  | escape
  | long (name : String) (attached : Option String)
  | short (flags : List Char)
  | word (text : String)

/-- The form of an argument. A single dash is a word. -/
def Argument.ofText (text : String) : Argument :=
  match text.toList with
  | ['-', '-'] => .escape
  | '-' :: '-' :: rest =>
    let name := String.ofList (rest.takeWhile (· ≠ '='))
    match rest.dropWhile (· ≠ '=') with
    | _ :: value => .long name (some (String.ofList value))
    | [] => .long name none
  | '-' :: c :: rest => .short (c :: rest)
  | _ => .word text

/-- Whether a text can be the value of the option before it. -/
def isValue (text : String) : Bool :=
  match text.toList with
  | '-' :: _ :: _ => false
  | _ => true

/-- The value of an option: the one attached to it, or the next argument. -/
def takeValue (option : String) (attached : Option String) (rest : List String) :
    Except UsageError (String × List String) :=
  match attached, rest with
  | some value, _ => .ok (value, rest)
  | none, value :: rest =>
    if isValue value then .ok (value, rest) else .error (.missingValue option)
  | none, [] => .error (.missingValue option)

def pathValue (option value : String) : Except UsageError String :=
  if value.isEmpty then .error (.invalidValue option value) else .ok value

def namedValue {α : Type} (named : String → Option α) (option value : String) :
    Except UsageError α :=
  match named value with
  | some a => .ok a
  | none => .error (.invalidValue option value)

def setOnce {α : Type} (option : String) (known : Option α) (value : α) :
    Except UsageError (Option α) :=
  match known with
  | some _ => .error (.repeated option)
  | none => .ok (some value)

/-! ### Options -/

/-- Reads an option that applies to every command, if it is one. Returned are the options so far and
the arguments that follow. -/
def Globals.option? (g : Globals) (name : String) (attached : Option String)
    (rest : List String) : Option (Except UsageError (Globals × List String)) :=
  match name with
  | "workspace" => some do
    let (value, rest) ← takeValue name attached rest
    let known ← setOnce name g.workspace (← pathValue name value)
    return ({ g with workspace := known }, rest)
  | "log-level" => some do
    let (value, rest) ← takeValue name attached rest
    let known ← setOnce name g.logLevel (← namedValue LogLevel.ofName? name value)
    return ({ g with logLevel := known }, rest)
  | _ => none

def violationValue (option value : String) : Except UsageError Violation :=
  (Violation.parse value).mapError fun _ => .invalidValue option value

def FixArguments.option (a : FixArguments) (name : String) (attached : Option String)
    (rest : List String) : Except UsageError (FixArguments × List String) :=
  match name with
  | "violation" => do
    let (value, rest) ← takeValue name attached rest
    let violation ← violationValue name value
    return ({ a with violations := a.violations ++ [violation] }, rest)
  | "base-dir" => do
    let (value, rest) ← takeValue name attached rest
    let known ← setOnce name a.baseDir (← pathValue name value)
    return ({ a with baseDir := known }, rest)
  | "disable" => do
    let (value, rest) ← takeValue name attached rest
    return ({ a with disabled := a.disabled ++ [value] }, rest)
  | "ignore" => do
    let (value, rest) ← takeValue name attached rest
    return ({ a with ignore := a.ignore ++ [value] }, rest)
  | "dry-run" =>
    if attached.isSome then .error (.unexpected name)
    else if a.dryRun then .error (.repeated name)
    else .ok ({ a with dryRun := true }, rest)
  | "format" => do
    let (value, rest) ← takeValue name attached rest
    let known ← setOnce name a.format (← namedValue Format.ofName? name value)
    return ({ a with format := known }, rest)
  | _ =>
    match a.globals.option? name attached rest with
    | some step => step.map fun (globals, rest) => ({ a with globals }, rest)
    | none => .error (.unexpected ("--" ++ name))

def FixArguments.addPath (a : FixArguments) (path : String) : Except UsageError FixArguments :=
  (pathValue "paths" path).map fun path => { a with paths := a.paths ++ [path] }

/-! ### Commands -/

def asksForHelp : Argument → Bool
  | .long "help" none => true
  | .short ('h' :: _) => true
  | _ => false

def asksForVersion : Argument → Bool
  | .long "version" none => true
  | .short ('V' :: _) => true
  | _ => false

/-- Reads the arguments of the command that fixes files. Every step takes an argument, so their
number is fuel enough. -/
def fixArguments : Nat → FixArguments → List String → Except UsageError Invocation
  | _, a, [] => .ok (.fix a)
  | 0, a, _ :: _ => .ok (.fix a)
  | fuel + 1, a, argument :: rest => do
    let form := Argument.ofText argument
    if asksForHelp form then return .help
    else
      match form with
      | .escape => return .fix (← rest.foldlM FixArguments.addPath a)
      | .word path => fixArguments fuel (← a.addPath path) rest
      | .short _ => .error (.unexpected argument)
      | .long name attached =>
        let (a, rest) ← a.option name attached rest
        fixArguments fuel a rest

def fixersArguments : Nat → Globals → List String → Except UsageError Invocation
  | _, g, [] => .ok (.fixers g)
  | 0, g, _ :: _ => .ok (.fixers g)
  | fuel + 1, g, argument :: rest => do
    let form := Argument.ofText argument
    if asksForHelp form then return .help
    else
      match form with
      | .escape => if rest.isEmpty then return .fixers g else .error (.unexpected argument)
      | .long name attached =>
        match g.option? name attached rest with
        | some step =>
          let (g, rest) ← step
          fixersArguments fuel g rest
        | none => .error (.unexpected argument)
      | .short _ | .word _ => .error (.unexpected argument)

def commandNames : List String := ["fix", "fixers", "help"]

def command (g : Globals) (name : String) (rest : List String) : Except UsageError Invocation :=
  match name with
  | "fix" =>
    (fixArguments rest.length {} rest).map fun
      | .fix a => .fix { a with globals := a.globals.within g }
      | other => other
  | "fixers" =>
    (fixersArguments rest.length {} rest).map fun
      | .fixers inner => .fixers (inner.within g)
      | other => other
  | "help" =>
    match rest with
    | [] => .ok .help
    | [topic] => if topic ∈ commandNames then .ok .help else .error (.unknownCommand topic)
    | _ :: extra :: _ => .error (.unknownCommand extra)
  | _ => .error (.unknownCommand name)

def topArguments : Nat → Globals → List String → Except UsageError Invocation
  | _, _, [] => .error .missingCommand
  | 0, _, _ :: _ => .error .missingCommand
  | fuel + 1, g, argument :: rest => do
    let form := Argument.ofText argument
    if asksForHelp form then return .help
    else if asksForVersion form then return .version
    else
      match form with
      | .word name => command g name rest
      | .long name attached =>
        match g.option? name attached rest with
        | some step =>
          let (g, rest) ← step
          topArguments fuel g rest
        | none => .error (.unexpected argument)
      | .short _ | .escape => .error (.unexpected argument)

def Invocation.parse (arguments : List String) : Except UsageError Invocation :=
  topArguments arguments.length {} arguments

end PolicyMend.Command
