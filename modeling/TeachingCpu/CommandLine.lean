import TeachingCpu.Console
import TeachingCpu.Image
import TeachingCpu.Listing
import TeachingCpu.Shared

/-!
The command line. One command loads an image, runs it and reports the machine that is left; the
other lists instructions. A command reads a single file, so its meaning is a function of its
arguments and of what reading that file gave. Arguments are looked at from left to right, the
first fault is the one reported, and whatever follows the last argument of a command is ignored.
-/

namespace TeachingCpu

inductive Command where
  | run (path : String) (pc breakpoint : Option String)
  | list (path start count : String)
  deriving DecidableEq, Repr

structure Exit where
  code : Nat
  output : String
  errors : String
  deriving DecidableEq, Repr

def Exit.ofResult : Except Fault String → Exit
  | .ok output => ⟨0, output, ""⟩
  | .error fault => ⟨1, "", fault.message ++ "\n"⟩

def Outcome.name : Outcome → String
  | ok => "Ok"
  | noop => "Noop"
  | halt => "Halt"
  | breakPoint => "BreakPoint"
  | endOfMemory => "EndOfMemory"

def Run.Summary.text (s : Run.Summary) : String :=
  let steps := " after " ++ Numeral.decimal s.steps ++ " steps"
  match s.outcome with
  | some outcome => outcome.name ++ steps
  | none => "stopped" ++ steps

def Machine.report (m : Machine) (summary : Run.Summary) : String :=
  summary.text ++ "\n" ++ m.stateLine ++ "\n" ++
    "accesses: " ++ Numeral.decimal m.memory.accesses ++ "\n" ++
    "display: [" ++ Console.displayText m ++ "]\n"

namespace Command

def ofArgs? : List String → Option Command
  | [] => none
  | path :: rest =>
    if path = "--disasm" then
      match rest with
      | path :: start :: count :: _ => some (list path start count)
      | _ => none
    else some (run path rest[0]? rest[1]?)

def path : Command → String
  | run path _ _ => path
  | list path _ _ => path

def address (text : String) : Except Fault Address :=
  match Numeral.address? text with
  | some a => .ok a
  | none => .error (.argument (.notAnAddress text))

def optionalAddress : Option String → Except Fault (Option Address)
  | none => .ok none
  | some text => (address text).map some

def count (text : String) : Except Fault Nat :=
  match Numeral.count? text with
  | some n => .ok n
  | none => .error (.argument (.notACount text))

def prepareRun (file : Except FileProblem (Array Byte)) (pc breakpoint : Option String) :
    Except Fault (Machine × RunConfig) := do
  let machine ← Image.machine file
  let startPc ← optionalAddress pc
  let breakpoint ← optionalAddress breakpoint
  return (machine, { startPc, breakpoint })

def listLines (file : Except FileProblem (Array Byte)) (start lines : String) :
    Except Fault String := do
  let machine ← Image.machine file
  let start ← address start
  let lines ← count lines
  return String.join ((machine.listing start lines).map (·.columns ++ "\n"))

def runReport (fuel : Nat) (m : Machine) (config : RunConfig) : Option String := do
  let (report, shared) ← (Shared.ofMachine m).run fuel config true Run.blind ()
  let summary ← report.summary
  return shared.enter.report summary

/-- What a command answers, unless it runs longer than its fuel lasts. -/
def answer (fuel : Nat) (file : Except FileProblem (Array Byte)) :
    Command → Option (Except Fault String)
  | run _ pc breakpoint =>
    match prepareRun file pc breakpoint with
    | .error fault => some (.error fault)
    | .ok (m, config) => (runReport fuel m config).map .ok
  | list _ start lines => some (listLines file start lines)

end Command

/-- The whole command line, over a way to look files up. -/
def commandLine (fuel : Nat) (files : String → Except FileProblem (Array Byte))
    (args : List String) : Option Exit :=
  match Command.ofArgs? args with
  | none => some (Exit.ofResult (.error (.argument .usage)))
  | some command => (command.answer fuel (files command.path)).map Exit.ofResult

end TeachingCpu
