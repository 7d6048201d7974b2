import BuildGraph.Text.Cut

/-!
# Arguments

The command line has one command among its arguments. The options that every command has may stand in front of
it or behind it, those of a command only behind. An option with a value has it in the same argument or in the
next one; short options without a value may be joined to the one behind them. Two dashes alone end the options;
as a command takes nothing else, nothing may stand behind them.
-/

namespace BuildGraph.Cli

inductive OutputFormat
  | text
  | json
deriving DecidableEq, Repr

inductive Command
  | marshal (pretty : Bool)
  | plan (definition : Option String) (format : OutputFormat)
  | info (format : OutputFormat)
  | config
deriving DecidableEq, Repr

/-- A command with the options that every command has. -/
structure Invocation where
  verbose : Bool
  workspace : String
  config : Option String
  command : Command
deriving DecidableEq, Repr

inductive UsageError
  | missingCommand
  | unexpectedArgument (arg : String)
  | missingValue (option : String)
  | badValue (option value : String)
deriving DecidableEq, Repr

def UsageError.message : UsageError → String
  | missingCommand => "a command is required"
  | unexpectedArgument arg => "unexpected argument '" ++ arg ++ "'"
  | missingValue option => "a value is required for '" ++ option ++ "'"
  | badValue option value => "invalid value '" ++ value ++ "' for '" ++ option ++ "'"

structure Draft where
  verbose : Bool
  workspace : Option String
  config : Option String
  command : Option Command

def Draft.blank : Draft := ⟨false, none, none, none⟩

def command? : String → Option Command
  | "marshal" => some (.marshal false)
  | "plan" => some (.plan none .text)
  | "info" => some (.info .text)
  | "config" => some .config
  | _ => none

/-- An option by its long name, if it has no value and fits what has been read. -/
def Draft.flag? (d : Draft) (name : String) : Option Draft :=
  match name, d.command with
  | "verbose", _ => some { d with verbose := true }
  | "pretty", some (.marshal _) => some { d with command := some (.marshal true) }
  | _, _ => none

/-- Whether an option has a value and fits what has been read. -/
def Draft.takesValue (d : Draft) (name : String) : Bool :=
  match name, d.command with
  | "workspace", _ | "config", _ => true
  | "definition", some (.plan _ _) => true
  | "output", some (.plan _ _) | "output", some (.info _) => true
  | _, _ => false

def format? : String → Option OutputFormat
  | "text" => some .text
  | "json" => some .json
  | _ => none

/-- The draft with an option's value. Paths are not empty. -/
def Draft.setValue (d : Draft) (name value : String) : Except UsageError Draft :=
  match name, d.command with
  | "output", command =>
    match format? value, command with
    | some f, some (.plan definition _) => .ok { d with command := some (.plan definition f) }
    | some f, some (.info _) => .ok { d with command := some (.info f) }
    | _, _ => .error (.badValue name value)
  | _, command =>
    if value = "" then .error (.missingValue name)
    else
      match name, command with
      | "workspace", _ => .ok { d with workspace := some value }
      | "config", _ => .ok { d with config := some value }
      | "definition", some (.plan _ f) => .ok { d with command := some (.plan (some value) f) }
      | _, _ => .error (.unexpectedArgument name)

def longName? : Char → Option String
  | 'v' => some "verbose"
  | 'w' => some "workspace"
  | 'c' => some "config"
  | 'o' => some "output"
  | _ => none

/-- An argument that would be read as an option is not the value of one. -/
def isOption : List Char → Bool
  | '-' :: _ :: _ => true
  | _ => false

/-- What an argument says: it settles something, or an option waits for its value in the next one. -/
inductive Reading
  | settled (d : Draft)
  | waiting (d : Draft) (name : String)

def readShort (d : Draft) : List Char → Except UsageError Reading
  | [] => .ok (.settled d)
  | c :: cs =>
    match longName? c with
    | none => .error (.unexpectedArgument (String.ofList ['-', c]))
    | some name =>
      match d.flag? name with
      | some d => readShort d cs
      | none =>
        if d.takesValue name then
          match cs with
          | [] => .ok (.waiting d name)
          | '=' :: value | value => (d.setValue name (String.ofList value)).map .settled
        else .error (.unexpectedArgument (String.ofList ['-', c]))

/-- A long option, its name and value without the dashes. -/
def readLong (d : Draft) (text : List Char) : Except UsageError Reading :=
  let (name, value) := match Text.cutFirst? '=' text with
    | some (name, value) => (String.ofList name, some (String.ofList value))
    | none => (String.ofList text, none)
  match d.flag? name, value with
  | some d, none => .ok (.settled d)
  | some _, some _ => .error (.unexpectedArgument name)
  | none, value =>
    if d.takesValue name then
      match value with
      | some value => (d.setValue name value).map .settled
      | none => .ok (.waiting d name)
    else .error (.unexpectedArgument name)

/-- An argument that is not the value of an option. -/
def read (d : Draft) (arg : String) : Except UsageError Reading :=
  match arg.toList with
  | '-' :: '-' :: text => readLong d text
  | '-' :: c :: cs => readShort d (c :: cs)
  | _ =>
    match d.command, command? arg with
    | none, some command => .ok (.settled { d with command := some command })
    | _, _ => .error (.unexpectedArgument arg)

def endOfOptions : String := "--"

def readEnd (d : Draft) : List String → Except UsageError Draft
  | [] => .ok d
  | arg :: _ => .error (.unexpectedArgument arg)

def readAll : Reading → List String → Except UsageError Draft
  | .settled d, [] => .ok d
  | .settled d, arg :: args => if arg = endOfOptions then readEnd d args else do readAll (← read d arg) args
  | .waiting _ name, [] => .error (.missingValue name)
  | .waiting d name, arg :: args =>
    if isOption arg.toList then .error (.missingValue name)
    else do readAll (.settled (← d.setValue name arg)) args

def defaultWorkspace : String := "."

def Invocation.ofArgs (args : List String) : Except UsageError Invocation := do
  let d ← readAll (.settled .blank) args
  match d.command with
  | none => throw .missingCommand
  | some command => return ⟨d.verbose, d.workspace.getD defaultWorkspace, d.config, command⟩

end BuildGraph.Cli
