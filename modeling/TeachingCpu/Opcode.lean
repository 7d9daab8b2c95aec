import TeachingCpu.Flags

/-!
The kind of an instruction, which its first byte decides. The high half of the byte selects a
group; in three groups the low half selects within it. Bytes without a meaning are no-operations,
so every byte has a kind.
-/

namespace TeachingCpu

inductive Condition where
  | br | bne | beq | bpl | bmi | bvc | bvs | bcc | bcs | bge | blt | bgt | ble | bhi | bls
  deriving DecidableEq, Repr

namespace Condition

def ofCode? : Nat → Option Condition
  | 0 => some br
  | 1 => some bne
  | 2 => some beq
  | 3 => some bpl
  | 4 => some bmi
  | 5 => some bvc
  | 6 => some bvs
  | 7 => some bcc
  | 8 => some bcs
  | 9 => some bge
  | 10 => some blt
  | 11 => some bgt
  | 12 => some ble
  | 13 => some bhi
  | 14 => some bls
  | _ => none

def mnemonic : Condition → String
  | br => "BR"
  | bne => "BNE"
  | beq => "BEQ"
  | bpl => "BPL"
  | bmi => "BMI"
  | bvc => "BVC"
  | bvs => "BVS"
  | bcc => "BCC"
  | bcs => "BCS"
  | bge => "BGE"
  | blt => "BLT"
  | bgt => "BGT"
  | ble => "BLE"
  | bhi => "BHI"
  | bls => "BLS"

def holds (c : Condition) (f : Flags) : Bool :=
  match c with
  | br => true
  | bne => !f.zero
  | beq => f.zero
  | bpl => !f.negative
  | bmi => f.negative
  | bvc => !f.overflow
  | bvs => f.overflow
  | bcc => !f.carry
  | bcs => f.carry
  | bge => f.negative == f.overflow
  | blt => f.negative != f.overflow
  | bgt => f.negative == f.overflow && !f.zero
  | ble => f.negative != f.overflow || f.zero
  | bhi => !f.carry && !f.zero
  | bls => f.carry || f.zero

end Condition

inductive UnaryOp where
  | clr | not | inc | dec | neg | tst | ror | rol | asr | asl | adc | sbc
  deriving DecidableEq, Repr

namespace UnaryOp

def ofCode? : Nat → Option UnaryOp
  | 0 => some clr
  | 1 => some not
  | 2 => some inc
  | 3 => some dec
  | 4 => some neg
  | 5 => some tst
  | 6 => some ror
  | 7 => some rol
  | 8 => some asr
  | 9 => some asl
  | 10 => some adc
  | 11 => some sbc
  | _ => none

def mnemonic : UnaryOp → String
  | clr => "CLR"
  | not => "NOT"
  | inc => "INC"
  | dec => "DEC"
  | neg => "NEG"
  | tst => "TST"
  | ror => "ROR"
  | rol => "ROL"
  | asr => "ASR"
  | asl => "ASL"
  | adc => "ADC"
  | sbc => "SBC"

end UnaryOp

inductive BinaryOp where
  | mov | add | sub | cmp | and | or
  deriving DecidableEq, Repr

namespace BinaryOp

def mnemonic : BinaryOp → String
  | mov => "MOV"
  | add => "ADD"
  | sub => "SUB"
  | cmp => "CMP"
  | and => "AND"
  | or => "OR"

end BinaryOp

inductive Opcode where
  | nop
  | ccc
  | scc
  | branch (condition : Condition)
  | jmp
  | sob
  | jsr
  | rts
  | rti
  | unary (op : UnaryOp)
  | binary (op : BinaryOp)
  | hlt
  deriving DecidableEq, Repr

namespace Opcode

def ofHalves (high low : Nat) : Opcode :=
  match high with
  | 0 => nop
  | 1 => ccc
  | 2 => scc
  | 3 => (Condition.ofCode? low).elim nop branch
  | 4 => jmp
  | 5 => sob
  | 6 => jsr
  | 7 => if low < 8 then rts else rti
  | 8 => (UnaryOp.ofCode? low).elim nop unary
  | 9 => binary .mov
  | 10 => binary .add
  | 11 => binary .sub
  | 12 => binary .cmp
  | 13 => binary .and
  | 14 => binary .or
  | _ => hlt

def ofByte (b : Byte) : Opcode := ofHalves (b.toNat / 16) (b.toNat % 16)

def hasSecondByte : Opcode → Bool
  | branch _ | jmp | sob | jsr | unary _ | binary _ => true
  | nop | ccc | scc | rts | rti | hlt => false

end Opcode

end TeachingCpu
