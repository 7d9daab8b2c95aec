import TeachingCpu.Image
import TeachingCpu.Proofs.Machine.Reachable

/-!
Image files and the machines that they hold. Saving a machine and loading the file gives the same
memory and the same mnemonic table again, whatever the machine has been through: the table of the
saved machine has grown with it, the table of the loaded one comes from a full pass, and both depend
on the memory alone. Loading a file and saving the machine gives the same file again, except for the
header, which loading does not look at.
-/

namespace TeachingCpu

namespace AddressMap

variable {α : Type}

theorem toList_toArray (m : AddressMap α) :
    m.toArray.toList = (List.range 65536).map fun n => m.get (UInt16.ofNat n) := by
  apply List.ext_getElem
  · rw [Array.length_toList, size_toArray, List.length_map, List.length_range]
  · intro n inArray inRange
    have below : n < 65536 := by simpa using inRange
    have place : (UInt16.ofNat n).toNat = n := UInt16.toNat_ofNat_of_lt' below
    have value := m.getD_toArray (UInt16.ofNat n) (m.get 0)
    rw [place, Array.getD_eq_getD_getElem?, Array.getElem?_eq_getElem inArray] at value
    rw [Array.getElem_toList, List.getElem_map, List.getElem_range]
    exact value

theorem toArray_ofArray {xs : Array α} (h : xs.size = 65536) (x : α) :
    (ofArray xs x).toArray = xs := by
  apply Array.toList_inj.mp
  rw [toList_toArray]
  apply List.ext_getElem
  · rw [List.length_map, List.length_range, Array.length_toList, h]
  · intro n inRange inArray
    have below : n < 65536 := by simpa using inRange
    have place : (UInt16.ofNat n).toNat = n := UInt16.toNat_ofNat_of_lt' below
    rw [List.getElem_map, List.getElem_range, get_ofArray, place, Array.getElem_toList,
      Array.getD_eq_getD_getElem?, Array.getElem?_eq_getElem (h ▸ below), Option.getD_some]

end AddressMap

namespace Image

def contents (m : Machine) : List Byte :=
  (List.range 65536).map fun n => m.bus.byte (UInt16.ofNat n)

theorem contents_eq (m : Machine) : (contents m).toArray = m.memory.bytes.toArray := by
  rw [← Array.toList_inj, List.toList_toArray, AddressMap.toList_toArray]
  exact List.map_congr_left fun _ _ => rfl

theorem toList_encode (m : Machine) : (encode m).toList = header.toList ++ contents m := by
  rw [encode, Array.toList_append, ← contents_eq]

theorem bytes_load_contents (n m : Machine) :
    (n.load (contents m).toArray).memory.bytes = m.memory.bytes := by
  have loaded : (n.load (contents m).toArray).memory.bytes =
      AddressMap.ofArray (contents m).toArray 0 := rfl
  rw [loaded, contents_eq, AddressMap.ofArray_toArray]

theorem rows_load_contents {m : Machine} (reached : m.Reachable) :
    (Machine.initial.load (contents m).toArray).table.rows = m.table.rows :=
  (Machine.rows_of_reachable reached).2 _ (Machine.Reachable.initial.load _)
    (bytes_load_contents Machine.initial m)

theorem parse_eq_ok_iff (file : Array Byte) :
    (∃ body, parse file = .ok body) ↔ file.size = size := by
  constructor
  · rintro ⟨body, accepted⟩
    by_contra other
    rw [parse_of_size_ne file other] at accepted
    contradiction
  · exact fun sized => ⟨_, parse_of_size file sized⟩

theorem machine_of_parse {file body : Array Byte} (h : parse file = .ok body) :
    machine (.ok file) = .ok (Machine.initial.load body) := by
  rw [machine, read, h]
  rfl

theorem encode_load {file : Array Byte} (sized : file.size = size) (n : Machine) :
    encode (n.load (file.extract header.size file.size)) =
      header ++ file.extract header.size file.size := by
  have loaded : (n.load (file.extract header.size file.size)).memory.bytes =
      AddressMap.ofArray (file.extract header.size file.size) 0 := rfl
  have whole : (file.extract header.size file.size).size = 65536 := by
    rw [Array.size_extract, sized]
    rfl
  rw [encode, loaded, AddressMap.toArray_ofArray whole]

theorem toList_extract_size (file : Array Byte) (n : Nat) :
    (file.extract n file.size).toList = file.toList.drop n := by
  rw [Array.toList_extract, List.extract_eq_take_drop, ← Array.length_toList, ← List.length_drop,
    List.take_length]

theorem header_append_eq_iff (file : Array Byte) :
    header ++ file.extract header.size file.size = file ↔ header.toList <+: file.toList := by
  rw [← Array.toList_inj, Array.toList_append, toList_extract_size, List.prefix_iff_eq_append]
  rfl

/-- The file of a machine is the header and its memory, and loading it gives the machine's memory and
mnemonic table back. Loading accepts every file of the right size and no others; saving what it
holds gives the file back, with the header in place of the first four bytes. -/
theorem image_files_round_trip :
    (∀ m : Machine, m.Reachable →
      (encode m).toList = [0x03, 0x52, 0x4D, 0x53] ++ contents m ∧
      parse (encode m) = .ok (contents m).toArray ∧
      machine (.ok (encode m)) = .ok (Machine.initial.load (contents m).toArray) ∧
      (Machine.initial.load (contents m).toArray).memory.bytes = m.memory.bytes ∧
      (Machine.initial.load (contents m).toArray).table.rows = m.table.rows) ∧
    ∀ file : Array Byte,
      ((∃ body, parse file = .ok body) ↔ file.size = 65540) ∧
      (file.size = 65540 →
        ∃ n, machine (.ok file) = .ok n ∧
          (encode n).toList = [0x03, 0x52, 0x4D, 0x53] ++ file.toList.drop 4 ∧
          (encode n = file ↔ [0x03, 0x52, 0x4D, 0x53] <+: file.toList)) := by
  refine ⟨fun m reached => ?_, fun file => ⟨parse_eq_ok_iff file, fun sized => ?_⟩⟩
  · have parsed : parse (encode m) = .ok (contents m).toArray := by
      rw [parse_encode, contents_eq]
    exact ⟨toList_encode m, parsed, machine_of_parse parsed, bytes_load_contents _ m,
      rows_load_contents reached⟩
  · have saved := encode_load sized Machine.initial
    refine ⟨_, machine_of_parse (parse_of_size file sized), ?_, ?_⟩
    · rw [saved, Array.toList_append, toList_extract_size]
      rfl
    · rw [saved]
      exact header_append_eq_iff file

/-- A branch across the top of memory, and a file without a header. -/
theorem image_files_round_trip_wrapped_branch :
    (Machine.initial.load
        (contents ((Machine.initial.setByte 65535 0x30).setByte 0 5)).toArray).table.rows =
      ((Machine.initial.setByte 65535 0x30).setByte 0 5).table.rows ∧
    ∃ n, machine (.ok (Array.replicate 65540 0)) = .ok n ∧ encode n ≠ Array.replicate 65540 0 := by
  obtain ⟨saving, loading⟩ := image_files_round_trip
  have reached := (Machine.Reachable.initial.setByte 65535 0x30).setByte 0 5
  obtain ⟨-, -, -, -, rows⟩ := saving _ reached
  obtain ⟨n, loaded, -, same⟩ := (loading (Array.replicate 65540 0)).2 Array.size_replicate
  refine ⟨rows, n, loaded, fun equal => ?_⟩
  have headed := same.mp equal
  rw [Array.toList_replicate, List.replicate_succ, List.cons_prefix_cons] at headed
  exact absurd headed.1 (by decide)

end Image

end TeachingCpu
