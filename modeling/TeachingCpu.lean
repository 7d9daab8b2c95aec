import TeachingCpu.Main
import TeachingCpu.Proofs.Arithmetic.CarryChain
import TeachingCpu.Proofs.Arithmetic.Comparison
import TeachingCpu.Proofs.Arithmetic.Exact
import TeachingCpu.Proofs.CommandLine.AllOrNothing
import TeachingCpu.Proofs.CommandLine.HexAddress
import TeachingCpu.Proofs.CommandLine.Numbers
import TeachingCpu.Proofs.Console.Handover
import TeachingCpu.Proofs.Image.RoundTrip
import TeachingCpu.Proofs.Instruction.Faithful
import TeachingCpu.Proofs.Instruction.Locality
import TeachingCpu.Proofs.Instruction.Notation
import TeachingCpu.Proofs.Instruction.OperandNotation
import TeachingCpu.Proofs.Instruction.Reach
import TeachingCpu.Proofs.Machine.AccessCount
import TeachingCpu.Proofs.Machine.CountingLoop
import TeachingCpu.Proofs.Machine.Executed
import TeachingCpu.Proofs.Machine.Idle
import TeachingCpu.Proofs.Machine.Instrumentation
import TeachingCpu.Proofs.Machine.Listing
import TeachingCpu.Proofs.Machine.OperandSequence
import TeachingCpu.Proofs.Machine.OutOfMemory
import TeachingCpu.Proofs.Machine.Reachable
import TeachingCpu.Proofs.Machine.WriteBack
import TeachingCpu.Proofs.Memory.Bulk
import TeachingCpu.Proofs.Memory.Records
import TeachingCpu.Proofs.Memory.WordAccess
import TeachingCpu.Proofs.Mnemonics.ByteWideRule
import TeachingCpu.Proofs.Mnemonics.Effect
import TeachingCpu.Proofs.Mnemonics.Locality
import TeachingCpu.Proofs.Mnemonics.Partition
import TeachingCpu.Proofs.Mnemonics.Pass
import TeachingCpu.Proofs.Mnemonics.Resync
import TeachingCpu.Proofs.Mnemonics.Starts
import TeachingCpu.Proofs.Processor.Agreement
import TeachingCpu.Proofs.Processor.Call
import TeachingCpu.Proofs.Processor.Computing
import TeachingCpu.Proofs.Processor.Fetch
import TeachingCpu.Proofs.Processor.Frame
import TeachingCpu.Proofs.Processor.Operands
import TeachingCpu.Proofs.Processor.Stack
import TeachingCpu.Proofs.Processor.WriteLog
import TeachingCpu.Proofs.Run.Exit
import TeachingCpu.Proofs.Run.Interruption
import TeachingCpu.Proofs.Run.Observation
import TeachingCpu.Proofs.Run.Recorder
import TeachingCpu.Proofs.Run.Session
