import TeachingCpu.CommandLine

/-!
The program: it reads the one file that its command names, answers the command and prints the
answer.
-/

namespace TeachingCpu

/-- The code of a failed operation, which some operations report negated. -/
def isCode (expected actual : UInt32) : Bool := actual == expected || actual == -expected

def readFile (path : String) : IO (Except FileProblem (Array Byte)) := do
  try
    let contents ← IO.FS.readBinFile path
    return .ok contents.data
  catch problem =>
    match problem with
    | .noFileOrDirectory .. => return .error .missing
    | .inappropriateType _ code _ =>
      return .error (if isCode 21 code then .directory else .notDirectory)
    | .invalidArgument _ code details =>
      return .error (if isCode 36 code then .nameTooLong else .other details)
    | .permissionDenied .. => return .error .denied
    | problem => return .error (.other (toString problem))

/-- Turns enough for any run that a user waits for. -/
def patience : Nat := 4611686018427387904

end TeachingCpu

def main (args : List String) : IO UInt32 := do
  let file ← match TeachingCpu.Command.ofArgs? args with
    | none => pure (.error .missing)
    | some command => TeachingCpu.readFile command.path
  match TeachingCpu.commandLine TeachingCpu.patience (fun _ => file) args with
  | none => return 1
  | some exit =>
    IO.print exit.output
    IO.eprint exit.errors
    return UInt32.ofNat exit.code
