import TeachingCpu.Memory

/-!
The bulk operations index by index. Each of them replaces one block of bytes and leaves the others
alone. How long the block is comes from an inclusive range, from the bytes that there are and from
the room up to the top of the address space; every index in it is one that exists, both where the
bytes come from and where they go.
-/

namespace TeachingCpu

namespace AddressMap

variable {α : Type}

theorem getElem?_toArray (m : AddressMap α) (a : Address) : m.toArray[a.toNat]? = some (m.get a) := by
  have inside : a.toNat < m.toArray.size := by
    rw [size_toArray]
    exact a.toNat_lt
  have value := m.getD_toArray a (m.get a)
  rw [Array.getD_eq_getD_getElem?, Array.getElem?_eq_getElem inside, Option.getD_some] at value
  rw [Array.getElem?_eq_getElem inside, value]

theorem getElem?_toArray_of_lt (m : AddressMap α) {n : Nat} (below : n < 65536) :
    m.toArray[n]? = some (m.get (UInt16.ofNat n)) := by
  have place : (UInt16.ofNat n).toNat = n := UInt16.toNat_ofNat_of_lt' below
  have value := m.getElem?_toArray (UInt16.ofNat n)
  rwa [place] at value

theorem getElem?_toArray_of_le (m : AddressMap α) {n : Nat} (above : 65536 ≤ n) :
    m.toArray[n]? = none := by
  rw [Array.getElem?_eq_none_iff, size_toArray]
  exact above

/-- From `old` to `new` the first `n` values of `part` have been put at `target` and upwards. All of
them exist and have a place, and all other places are as they were. -/
structure Replaces (old new : AddressMap α) (target n : Nat) (part : Nat → Option α) : Prop where
  inside : ∀ i < n, ∃ x, part i = some x ∧ new.toArray[target + i]? = some x
  outside : ∀ j, j < target ∨ target + n ≤ j → new.toArray[j]? = old.toArray[j]?

theorem replaces_overlay (m : AddressMap α) {target : Address} {n : Nat} {f : Nat → α}
    {part : Nat → Option α} (fits : target.toNat + n ≤ 65536)
    (values : ∀ i < n, part i = some (f i)) :
    m.Replaces (m.overlay target n f) target.toNat n part where
  inside i below := by
    have inner : target.toNat + i < 65536 := by omega
    have place : (UInt16.ofNat (target.toNat + i)).toNat = target.toNat + i :=
      UInt16.toNat_ofNat_of_lt' inner
    refine ⟨f i, values i below, ?_⟩
    rw [getElem?_toArray_of_lt _ inner, get_overlay, place, if_pos (by omega),
      Nat.add_sub_cancel_left]
  outside j beyond := by
    by_cases below : j < 65536
    · have place : (UInt16.ofNat j).toNat = j := UInt16.toNat_ofNat_of_lt' below
      rw [getElem?_toArray_of_lt _ below, getElem?_toArray_of_lt _ below, get_overlay, place,
        if_neg (by omega)]
    · rw [getElem?_toArray_of_le _ (by omega), getElem?_toArray_of_le _ (by omega)]

theorem toList_toArray_ofArray (xs : Array α) (rest : α) :
    (ofArray xs rest).toArray.toList =
      xs.toList.take 65536 ++ List.replicate (65536 - xs.size) rest := by
  apply List.ext_getElem?
  intro n
  have size : (xs.toList.take 65536).length = min 65536 xs.size := by simp
  rw [Array.getElem?_toList]
  by_cases below : n < 65536
  · have place : (UInt16.ofNat n).toNat = n := UInt16.toNat_ofNat_of_lt' below
    rw [getElem?_toArray_of_lt _ below, get_ofArray, place, Array.getD_eq_getD_getElem?]
    by_cases given : n < xs.size
    · rw [List.getElem?_append_left (by omega), List.getElem?_take_of_lt below,
        Array.getElem?_toList, Array.getElem?_eq_getElem given, Option.getD_some]
    · rw [List.getElem?_append_right (by omega), size,
        List.getElem?_replicate_of_lt (by omega), Array.getElem?_eq_none (by omega),
        Option.getD_none]
  · rw [getElem?_toArray_of_le _ (by omega), eq_comm, List.getElem?_eq_none_iff,
      List.length_append, size, List.length_replicate]
    omega

end AddressMap

namespace Memory

variable (m : Memory) (source : Array Byte) (start stop target : Address)

/-- How many addresses there are from `start` to `stop`, both counted. -/
def extent : Nat := if stop < start then 0 else stop.toNat - start.toNat + 1

def copySize : Nat := min (extent start stop) (65536 - target.toNat)

def loadSize : Nat :=
  if stop < start ∨ source.size = 0 ∨ source.size ≤ start.toNat then 0
  else min (min stop.toNat (source.size - 1) - start.toNat + 1) (65536 - target.toNat)

theorem extent_eq : extent start stop = stop.toNat + 1 - start.toNat := by
  simp only [extent, UInt16.lt_iff_toNat_lt]
  split <;> omega

theorem copySize_eq : copySize start stop target = room (stop.toNat + 1 - start.toNat) target := by
  rw [copySize, extent_eq, room]

theorem loadSize_eq : loadSize source start stop target = rangeSize source start stop target := by
  simp only [loadSize, rangeSize, room, UInt16.lt_iff_toNat_lt]
  split <;> omega

-- The kernel would compare contents that are not affected if the memory were not taken apart.
theorem bytes_copy : (m.copy start stop target).bytes =
    m.bytes.overlay target (copySize start stop target) fun i =>
      m.bytes.get (UInt16.ofNat (start.toNat + i)) := by
  rw [copySize_eq]
  cases m
  rfl

theorem loaded_copy : (m.copy start stop target).loaded = m.loaded := by
  cases m
  rfl

theorem bytes_zero :
    (m.zero start stop).bytes = m.bytes.overlay start (extent start stop) fun _ => 0 := by
  rw [extent_eq]
  cases m
  rfl

theorem loaded_zero : (m.zero start stop).loaded = m.loaded := by
  cases m
  rfl

theorem loadRange_eq : m.loadRange source start stop target =
    (loadSize source start stop target,
      { m with
        bytes := m.bytes.overlay target (loadSize source start stop target) fun i =>
          source.getD (start.toNat + i) 0
        loaded := m.loaded.overlay target (loadSize source start stop target) fun i =>
          source.getD (start.toNat + i) 0 }) := by
  rw [loadSize_eq]
  cases m
  rfl

theorem replaces_copy :
    m.bytes.Replaces (m.copy start stop target).bytes target.toNat (copySize start stop target)
      fun i => m.bytes.toArray[start.toNat + i]? := by
  have space := target.toNat_lt
  have high := stop.toNat_lt
  have size := extent_eq start stop
  have least : copySize start stop target ≤ extent start stop := Nat.min_le_left _ _
  have most : copySize start stop target ≤ 65536 - target.toNat := Nat.min_le_right _ _
  have fits : target.toNat + copySize start stop target ≤ 65536 := by omega
  rw [bytes_copy]
  refine m.bytes.replaces_overlay fits fun i below => ?_
  have given : start.toNat + i < 65536 := by omega
  exact m.bytes.getElem?_toArray_of_lt given

theorem replaces_range (old : AddressMap Byte) :
    old.Replaces
      (old.overlay target (loadSize source start stop target) fun i =>
        source.getD (start.toNat + i) 0)
      target.toNat (loadSize source start stop target) fun i => source[start.toNat + i]? := by
  have space := target.toNat_lt
  have size := loadSize_eq source start stop target
  have most : rangeSize source start stop target ≤ 65536 - target.toNat := Nat.min_le_right _ _
  have least : rangeSize source start stop target ≤
      min (stop.toNat + 1) source.size - start.toNat := Nat.min_le_left _ _
  have fits : target.toNat + loadSize source start stop target ≤ 65536 := by omega
  refine old.replaces_overlay fits fun i below => ?_
  have given : start.toNat + i < source.size := by omega
  rw [Array.getD_eq_getD_getElem?, Array.getElem?_eq_getElem given, Option.getD_some]

theorem replaces_zero :
    m.bytes.Replaces (m.zero start stop).bytes start.toNat (extent start stop)
      fun _ => some 0 := by
  have high := stop.toNat_lt
  have low := start.toNat_lt
  have size := extent_eq start stop
  have fits : start.toNat + extent start stop ≤ 65536 := by omega
  rw [bytes_zero]
  exact m.bytes.replaces_overlay fits fun _ _ => rfl

section Nothing

variable {start stop}

theorem extent_of_lt (h : stop < start) : extent start stop = 0 := if_pos h

theorem copySize_of_lt (h : stop < start) : copySize start stop target = 0 := by
  rw [copySize, extent_of_lt h, Nat.zero_min]

theorem loadSize_of_lt (h : stop < start) : loadSize source start stop target = 0 :=
  if_pos (.inl h)

theorem copy_of_lt (h : stop < start) : m.copy start stop target = m := by
  have none : room (stop.toNat + 1 - start.toNat) target = 0 := by
    rw [← copySize_eq, copySize_of_lt target h]
  cases m
  rw [copy, none, AddressMap.overlay_zero]

theorem loadRange_of_lt (h : stop < start) : m.loadRange source start stop target = (0, m) := by
  cases m
  rw [loadRange_eq, loadSize_of_lt source target h, AddressMap.overlay_zero,
    AddressMap.overlay_zero]

theorem zero_of_lt (h : stop < start) : m.zero start stop = m := by
  have none : stop.toNat + 1 - start.toNat = 0 := by
    rw [← extent_eq, extent_of_lt h]
  cases m
  rw [zero, none, AddressMap.overlay_zero]

end Nothing

/-- What the bulk operations do to contents and loaded copy, for all ranges and all sources. The
counts in it are those of inclusive ranges, clipped where the source or the memory ends. -/
theorem bulk_operations_exact :
    (m.bytes.Replaces (m.copy start stop target).bytes target.toNat
        (copySize start stop target) (fun i => m.bytes.toArray[start.toNat + i]?) ∧
      (m.copy start stop target).loaded = m.loaded) ∧
    ((m.loadRange source start stop target).1 = loadSize source start stop target ∧
      m.bytes.Replaces (m.loadRange source start stop target).2.bytes target.toNat
        (loadSize source start stop target) (fun i => source[start.toNat + i]?) ∧
      m.loaded.Replaces (m.loadRange source start stop target).2.loaded target.toNat
        (loadSize source start stop target) (fun i => source[start.toNat + i]?)) ∧
    (m.bytes.Replaces (m.zero start stop).bytes start.toNat (extent start stop)
        (fun _ => some 0) ∧
      (m.zero start stop).loaded = m.loaded) ∧
    ((m.load source).bytes.toArray.toList =
        source.toList.take 65536 ++ List.replicate (65536 - source.size) 0 ∧
      (m.load source).loaded = (m.load source).bytes) ∧
    (stop < start →
      m.copy start stop target = m ∧ m.loadRange source start stop target = (0, m) ∧
        m.zero start stop = m) := by
  refine ⟨⟨m.replaces_copy start stop target, m.loaded_copy start stop target⟩, ?_,
    ⟨m.replaces_zero start stop, m.loaded_zero start stop⟩, ⟨?_, rfl⟩, fun h => ⟨?_, ?_, ?_⟩⟩
  · rw [loadRange_eq]
    exact ⟨rfl, replaces_range source start stop target m.bytes,
      replaces_range source start stop target m.loaded⟩
  · exact AddressMap.toList_toArray_ofArray source 0
  · exact m.copy_of_lt target h
  · exact m.loadRange_of_lt source target h
  · exact m.zero_of_lt h

/-- A range that goes on behind the end of its source and has no room behind two bytes. -/
theorem bulk_operations_exact_at_top :
    (empty.loadRange #[5, 6, 7] 1 65535 65534).1 = 2 ∧
      (empty.loadRange #[5, 6, 7] 1 65535 65534).2.bytes.toArray[65535]? = some 7 ∧
      (empty.copy 1 65535 65534).bytes.toArray[65535]? = empty.bytes.toArray[2]? ∧
      empty.copy 1 0 65534 = empty := by
  obtain ⟨⟨copied, -⟩, ⟨count, loaded, -⟩, -⟩ := bulk_operations_exact empty #[5, 6, 7] 1 65535 65534
  obtain ⟨-, -, -, -, backwards⟩ := bulk_operations_exact empty #[5, 6, 7] 1 0 65534
  obtain ⟨x, given, placed⟩ := loaded.inside 1 (by decide)
  obtain ⟨y, old, new⟩ := copied.inside 1 (by decide)
  refine ⟨count.trans (by decide), placed.trans given.symm, new.trans old.symm, ?_⟩
  exact (backwards (by decide)).1

end Memory

end TeachingCpu
