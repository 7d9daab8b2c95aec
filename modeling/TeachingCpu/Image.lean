import TeachingCpu.Fault
import TeachingCpu.Machine

/-!
Image files: four header bytes and then the whole memory. Writing puts the header of this format
in front; reading checks the size alone, so an image with another header is accepted as well.
-/

namespace TeachingCpu.Image

def header : Array Byte := #[0x03, 0x52, 0x4D, 0x53]

def size : Nat := 65540

def parse (file : Array Byte) : Except Fault (Array Byte) :=
  if file.size = size then .ok (file.extract header.size file.size)
  else .error (.imageSize size file.size)

theorem parse_of_size (file : Array Byte) (h : file.size = size) :
    parse file = .ok (file.extract header.size file.size) := if_pos h

theorem parse_of_size_ne (file : Array Byte) (h : file.size ≠ size) :
    parse file = .error (.imageSize size file.size) := if_neg h

def encode (m : Machine) : Array Byte := header ++ m.memory.bytes.toArray

theorem size_encode (m : Machine) : (encode m).size = size := by
  rw [encode, Array.size_append, AddressMap.size_toArray]
  rfl

theorem parse_encode (m : Machine) : parse (encode m) = .ok m.memory.bytes.toArray := by
  rw [parse, if_pos (size_encode m), encode]
  simp

def read (file : Except FileProblem (Array Byte)) : Except Fault (Array Byte) :=
  match file with
  | .ok bytes => parse bytes
  | .error problem => .error (.file problem)

def machine (file : Except FileProblem (Array Byte)) : Except Fault Machine :=
  (read file).map Machine.initial.load

end TeachingCpu.Image
