import BuildGraph.Cli.Machine
import BuildGraph.Cli.Run

/-!
# The program

The command line on the files of the machine. All that is decided is decided in `BuildGraph.Cli`; here files are
read, and what a command leaves behind is written.
-/

namespace BuildGraph.Cli

/-- The number of an operating system's error, which some of its interfaces report negated. -/
def errorNumber (code : UInt32) : UInt32 := if 0x80000000 ≤ code then 0 - code else code

/-- The reason that an operating system gives by a number. -/
def reason (code : UInt32) (details : String) : FileError :=
  match errorNumber code with
  | 2 => .notFound
  | 20 => .notDirectory
  | 21 => .isDirectory
  | 36 => .nameTooLong
  | 40 => .tooManyLinks
  | number => .other (details ++ " (os error " ++ toString number ++ ")")

/-- Why a file of the machine cannot be had. -/
def fileError : IO.Error → FileError
  | .noFileOrDirectory _ code details | .inappropriateType _ code details | .invalidArgument _ code details
  | .permissionDenied _ code details | .resourceExhausted _ code details | .noSuchThing _ code details
  | .otherError code details | .illegalOperation code details => reason code details
  | e => .other (toString e)

/-- Why a path that leads nowhere cannot be opened. What resolves a path does not tell. -/
def openFailure {α : Type} (path : String) : IO (Except FileError α) := do
  try IO.FS.withFile path .read fun _ => return .error .notFound
  catch e => return .error (fileError e)

/-- The files of the machine. -/
def machineFiles : Files IO where
  canonical path := do
    try return .ok (← IO.FS.realPath path).toString
    catch _ => openFailure path
  isDirectory path := do
    try (← IO.FS.realPath path).isDir
    catch _ => return false
  isFile path := do
    try return (← (← IO.FS.realPath path).metadata).type == .file
    catch _ => return false
  read path := do
    try return .ok (← IO.FS.readBinFile path).toList
    catch e => return .error (fileError e)

/-- The file of the running program. -/
def programFile : String := "/proc/self/exe"

/-- The platform of the machine. -/
def machinePlatform : IO (Option Platform) := do
  try
    let header ← IO.FS.withFile programFile .read fun file => file.read headerSize.toUSize
    return platformOfHeader? header.toList
  catch _ => return none

/-- The machine as a command sees it, from now on. -/
def machine : IO (Host IO) := do
  let start ← IO.monoMsNow
  return {
    files := machineFiles
    configVariable := ← IO.getEnv PipelineConfig.variableName
    elapsed := do return (← IO.monoMsNow) - start
    platform := ← machinePlatform }

/-- Writes what a command leaves behind. -/
def publish (e : Ended) : IO Unit := do
  e.before.forM IO.eprintln
  let stdout ← IO.getStdout
  stdout.write ⟨e.stdout.toArray⟩
  stdout.flush
  e.behind.forM IO.eprintln

/-- What the program ends with after arguments that are no invocation. -/
def usageCode : UInt32 := 2

/-- Runs the command that some arguments ask for. -/
def execute (args : List String) : IO UInt32 := do
  match Invocation.ofArgs args with
  | .error e =>
    IO.eprintln ("error: " ++ e.message)
    return usageCode
  | .ok inv =>
    let ended ← outcome (← machine) inv
    publish ended
    return ended.code

end BuildGraph.Cli

def main (args : List String) : IO UInt32 := BuildGraph.Cli.execute args
