/-
**The command line.**

Reads a request to order joins from a file, settings from another one if it is named, and prints the
answer. A failure is printed to the error stream.
-/

import Cascades.JoinRequest.Answer
import Cascades.Json.Reader
import Cascades.Json.Writer

namespace Cascades

/-! ### Arguments -/

/-- What the command line asks for. -/
structure Options where
  input : Option String := none
  config : Option String := none
  /-- The milliseconds after which the search is cancelled. -/
  timeout : Option Nat := none
  parallel : Bool := false
  deriving DecidableEq, Repr

namespace Options

/-- Takes an option with a value into account. -/
def withValue (options : Options) (name value : String) : Except String Options :=
  match name with
  | "--input" | "-i" => .ok { options with input := some value }
  | "--config" | "-c" => .ok { options with config := some value }
  | "--timeout-ms" =>
    match value.toNat? with
    | some milliseconds => .ok { options with timeout := some milliseconds }
    | none => .error ("invalid value '" ++ value ++ "' for '--timeout-ms'")
  | _ => .error ("unexpected argument '" ++ name ++ "' found")

/-- Takes arguments into account from left to right. -/
def ofArguments (options : Options) : List String → Except String Options
  | [] => .ok options
  | "--parallel" :: rest => ofArguments { options with parallel := true } rest
  | [name] => .error ("a value is required for '" ++ name ++ "'")
  | name :: value :: rest => do ofArguments (← options.withValue name value) rest

end Options

/-! ### Files -/

/-- Reads a value from a JSON file. -/
def readJson {α : Type} (path : String) (read : Json → Option α) : ExceptT String IO α := do
  match ← (IO.FS.readFile path).toBaseIO with
  | .error error => throw ("failed to read " ++ path ++ ": " ++ toString error)
  | .ok text =>
    match (Json.parse? text).bind read with
    | some value => return value
    | none => throw ("invalid JSON in " ++ path)

/-- Waits for a result until a number of milliseconds has passed. -/
def waitFor {α : Type} (task : Task α) : (milliseconds : Nat) → IO (Option α)
  | 0 => do
    if ← IO.hasFinished task then return some task.get else return none
  | milliseconds + 1 => do
    if ← IO.hasFinished task then return some task.get
    IO.sleep 1
    waitFor task milliseconds

/-- The answer to a request, cancelled where it takes too long. -/
def answerWithin (request : JoinRequest) (config : Config) :
    Option Nat → IO (Except RequestError JoinAnswer)
  | none => return request.answer config
  | some milliseconds => do
    let task := Task.spawn (fun _ => request.answer config) .dedicated
    match ← waitFor task milliseconds with
    | some result => return result
    | none => return .error (.failed (.abort .cancelled))

/-- Answers the request in the file that is named. -/
def run (arguments : List String) : ExceptT String IO Unit := do
  let options ← Options.ofArguments {} arguments
  let some input := options.input | throw "the argument '--input' is required"
  let request ← readJson input JoinRequest.ofJson?
  let config ←
    match options.config with
    | some path => readJson path Config.ofJson?
    | none => pure {}
  let config := { config with parallel := config.parallel || options.parallel }
  match ← answerWithin request config options.timeout with
  | .ok answer => IO.println answer.toJson.pretty
  | .error error => throw error.message

end Cascades

/-- Runs the command line; the exit code is one after a failure. -/
def main (arguments : List String) : IO UInt32 := do
  match ← (Cascades.run arguments).run with
  | .ok () => return 0
  | .error message =>
    IO.eprintln message
    return 1
