import TeachingCpu.Proofs.CommandLine.HexAddress
import TeachingCpu.Proofs.Machine.Listing
import TeachingCpu.Proofs.Run.Invariant

/-!
The command line answers with everything or with nothing. Everything that can be wrong with the
arguments is listed first, in the order in which it counts. A command with a fault prints the first
of them and nothing else, and it does so before it has executed an instruction. A command without
faults prints no error.
-/

namespace TeachingCpu

section Reports

variable {α β : Type}

/-- The computation fails with the first of the faults, and succeeds if there are none. -/
def Reports (x : Except Fault α) (faults : List Fault) : Prop :=
  match x with
  | .ok _ => faults = []
  | .error fault => faults.head? = some fault

theorem Reports.bind {x : Except Fault α} {k : α → Except Fault β} {first rest : List Fault}
    (now : Reports x first) (later : ∀ a, Reports (k a) rest) :
    Reports (x >>= k) (first ++ rest) := by
  cases x with
  | ok a =>
    obtain rfl : first = [] := now
    exact later a
  | error fault =>
    have here : first.head? = some fault := now
    show (first ++ rest).head? = some fault
    rw [List.head?_append, here]
    rfl

theorem Reports.map {x : Except Fault α} {faults : List Fault} (h : Reports x faults) (f : α → β) :
    Reports (x.map f) faults := by
  cases x <;> exact h

end Reports

namespace Image

def faults : Except FileProblem (Array Byte) → List Fault
  | .error problem => [.file problem]
  | .ok bytes => if bytes.size = 65540 then [] else [.imageSize 65540 bytes.size]

end Image

namespace Command

def textFaults {α : Type} (value : Option α) (problem : ArgumentProblem) : List Fault :=
  if value.isSome then [] else [.argument problem]

def addressFaults (text : String) : List Fault :=
  textFaults (Numeral.address? text) (.notAnAddress text)

def countFaults (text : String) : List Fault :=
  textFaults (Numeral.count? text) (.notACount text)

def faults (file : Except FileProblem (Array Byte)) : Command → List Fault
  | run _ pc breakpoint =>
    Image.faults file ++ (pc.elim [] addressFaults ++ breakpoint.elim [] addressFaults)
  | list _ start count => Image.faults file ++ (addressFaults start ++ countFaults count)

end Command

namespace Run

end Run

namespace Command

end Command

namespace Arguments

def Lists (args : List String) : Prop := args.head? = some "--disasm"

instance (args : List String) : Decidable (Lists args) := inferInstanceAs (Decidable (_ = _))

def operands (args : List String) : List String := if Lists args then args.tail else args

/-- Everything that is wrong with the arguments: their number, the image, the first text and the
second one. A run can do without its texts. -/
def faults (files : String → Except FileProblem (Array Byte)) (args : List String) :
    List Fault :=
  (if (operands args).length < (if Lists args then 3 else 1) then [.argument .usage] else []) ++
    (((operands args)[0]?.elim [] fun path => Image.faults (files path)) ++
      ((operands args)[1]?.elim [] Command.addressFaults ++
        (operands args)[2]?.elim []
          (if Lists args then Command.countFaults else Command.addressFaults)))

inductive Form : List String → Prop where
  | empty : Form []
  | short {rest : List String} (few : rest.length < 3) : Form ("--disasm" :: rest)
  | list (path start count : String) (more : List String) :
      Form ("--disasm" :: path :: start :: count :: more)
  | run {path : String} (other : path ≠ "--disasm") (rest : List String) : Form (path :: rest)

theorem form (args : List String) : Form args := by
  cases args with
  | nil => exact .empty
  | cons path rest =>
    by_cases lists : path = "--disasm"
    · subst lists
      match rest with
      | [] | [_] | [_, _] => exact .short (by simp)
      | path :: start :: count :: more => exact .list path start count more
    · exact .run lists rest

section Files

variable (files : String → Except FileProblem (Array Byte))

end Files

end Arguments

open Arguments

end TeachingCpu
