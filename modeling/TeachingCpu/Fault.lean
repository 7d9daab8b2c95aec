import TeachingCpu.Numeral

/-!
What can go wrong around the machine: with files, with the size of an image and with the arguments
of the command line. Each fault is a cause; its message is what a user reads.
-/

namespace TeachingCpu

inductive FileProblem where
  | missing
  | directory
  | notDirectory
  | nameTooLong
  | denied
  | other (reason : String)
  deriving DecidableEq, Repr

def FileProblem.message : FileProblem → String
  | missing => "No such file or directory (os error 2)"
  | directory => "Is a directory (os error 21)"
  | notDirectory => "Not a directory (os error 20)"
  | nameTooLong => "File name too long (os error 36)"
  | denied => "Permission denied (os error 13)"
  | other reason => reason

inductive ArgumentProblem where
  | usage
  | notAnAddress (text : String)
  | notACount (text : String)
  deriving DecidableEq, Repr

def usageText : String :=
  "usage: cesar <image.mem> [pc-hex] [breakpoint-hex]\n" ++
    "       cesar --disasm <image.mem> <start-hex> <count>"

def ArgumentProblem.message : ArgumentProblem → String
  | usage => usageText
  | notAnAddress text => "not a hex address: " ++ text
  | notACount text => "not a count: " ++ text

inductive Fault where
  | file (problem : FileProblem)
  | imageSize (expected actual : Nat)
  | argument (problem : ArgumentProblem)
  deriving DecidableEq, Repr

def Fault.message : Fault → String
  | file problem => "I/O error: " ++ problem.message
  | imageSize expected actual =>
    "invalid memory image size: expected " ++ Numeral.decimal expected ++ " bytes, got " ++
      Numeral.decimal actual
  | argument problem => "invalid argument: " ++ problem.message

end TeachingCpu
