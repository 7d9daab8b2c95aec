import TeachingCpu.CommandLine
import TeachingCpu.Proofs.CommandLine.HexAddress
import TeachingCpu.Proofs.Image.RoundTrip
import TeachingCpu.Proofs.Mnemonics.Starts

/-!
Listings tile memory. The lines of a listing take their addresses and texts from the mnemonic table
and their bytes from a disassembly of their own. Both are the disassembly of the memory, so each line
goes on where the one before it ends, and no byte between them is left out or shown twice.

A line is printed in columns: the address in four digits, then six cells of three columns for the
bytes, and the text behind them.
-/

namespace TeachingCpu

namespace ListingLine

def digit (d : Nat) : Char := "0123456789abcdef".toList.getD d ' '

def cell : Option Byte → List Char
  | some b => [digit (b.toNat / 16), digit (b.toNat % 16), ' ']
  | none => [' ', ' ', ' ']

/-- The characters of a line: the address in four digits, six cells for bytes and the text. -/
def printed (line : ListingLine) : List Char :=
  let a := line.address.toNat
  [digit (a / 4096), digit (a / 256 % 16), digit (a / 16 % 16), digit (a % 16), ':', ' '] ++
    ((List.range 6).flatMap fun i => cell line.bytes[i]?) ++ ' ' :: line.text.toList

theorem digitChar_eq_digit {d : Nat} (h : d < 16) : Nat.digitChar d = digit d := by
  have all : ∀ d < 16, Nat.digitChar d = digit d := by decide
  exact all d h

theorem toList_hexWord (w : Word) : (Numeral.hexWord w).toList =
    [digit (w.toNat / 4096), digit (w.toNat / 256 % 16), digit (w.toNat / 16 % 16),
      digit (w.toNat % 16)] := by
  have bound := w.toNat_lt
  have written : Numeral.hexDigits 4 w.toNat = [Nat.digitChar (w.toNat / 16 / 16 / 16 % 16),
      Nat.digitChar (w.toNat / 16 / 16 % 16), Nat.digitChar (w.toNat / 16 % 16),
      Nat.digitChar (w.toNat % 16)] := rfl
  have first : w.toNat / 16 / 16 / 16 % 16 = w.toNat / 4096 := by omega
  have second : w.toNat / 16 / 16 % 16 = w.toNat / 256 % 16 := by omega
  rw [Numeral.hexWord, String.toList_ofList, written, first, second,
    digitChar_eq_digit (by omega), digitChar_eq_digit (by omega), digitChar_eq_digit (by omega),
    digitChar_eq_digit (by omega)]

theorem toList_hexByte (b : Byte) :
    (Numeral.hexByte b).toList = [digit (b.toNat / 16), digit (b.toNat % 16)] := by
  have bound := b.toNat_lt
  have written : Numeral.hexDigits 2 b.toNat =
      [Nat.digitChar (b.toNat / 16 % 16), Nat.digitChar (b.toNat % 16)] := rfl
  rw [Numeral.hexByte, String.toList_ofList, written, digitChar_eq_digit (by omega),
    digitChar_eq_digit (by omega), Nat.mod_eq_of_lt (show b.toNat / 16 < 16 by omega)]

theorem toList_pushn (s : String) (c : Char) (n : Nat) :
    (s.pushn c n).toList = s.toList ++ List.replicate n c := by
  rw [String.pushn_eq_repeat_push]
  induction n with
  | zero => exact (List.append_nil _).symm
  | succ n ih => rw [Nat.repeat, String.toList_push, ih, List.append_assoc, List.replicate_succ']

def joined (bytes : List Byte) : List Char :=
  [' '].intercalate (bytes.map fun b => (Numeral.hexByte b).toList)

theorem joined_singleton (b : Byte) :
    joined [b] = [digit (b.toNat / 16), digit (b.toNat % 16)] := by
  rw [joined, List.map_singleton, List.intercalate_singleton, toList_hexByte]

theorem joined_cons_cons (b c : Byte) (bytes : List Byte) :
    joined (b :: c :: bytes) =
      digit (b.toNat / 16) :: digit (b.toNat % 16) :: ' ' :: joined (c :: bytes) := by
  rw [joined, List.map_cons, List.map_cons, List.intercalate_cons_cons, toList_hexByte]
  rfl

theorem free_cells (n : Nat) :
    ((List.range n).flatMap fun _ => cell none) = List.replicate (3 * n) ' ' := by
  induction n with
  | zero => rfl
  | succ n ih =>
    rw [List.range_succ, List.flatMap_append, ih, Nat.mul_succ, List.replicate_add]
    rfl

/-- The padding makes up for the space that the last byte lacks, and for the cells behind it. -/
theorem joined_append_replicate {bytes : List Byte} {n : Nat} (fits : bytes.length ≤ n) :
    joined bytes ++ List.replicate (3 * n - (joined bytes).length) ' ' =
      (List.range n).flatMap fun i => cell bytes[i]? := by
  induction bytes generalizing n with
  | nil => exact (free_cells n).symm
  | cons b bytes ih =>
    obtain ⟨k, rfl⟩ : ∃ k, n = k + 1 := Nat.exists_eq_add_one.mpr (Nat.zero_lt_of_lt fits)
    have cells : ((List.range (k + 1)).flatMap fun i => cell (b :: bytes)[i]?) =
        cell (some b) ++ (List.range k).flatMap fun i => cell bytes[i]? := by
      rw [List.range_succ_eq_map, List.flatMap_cons, List.flatMap_map]
      rfl
    rw [cells, ← ih (Nat.le_of_succ_le_succ fits)]
    cases bytes with
    | nil =>
      rw [joined_singleton]
      show _ = _ :: _ :: ' ' :: List.replicate (3 * k) ' '
      rw [← List.replicate_succ]
      rfl
    | cons c bytes =>
      rw [joined_cons_cons]
      simp only [List.length_cons, List.cons_append, cell, List.nil_append]
      rw [Nat.mul_succ, Nat.add_sub_add_right]

theorem toList_columns {line : ListingLine} (fits : line.bytes.length ≤ 6) :
    line.columns.toList = line.printed := by
  have bytes : (" ".intercalate (line.bytes.map Numeral.hexByte)).toList = joined line.bytes := by
    rw [String.toList_intercalate, List.map_map]
    rfl
  have padded : (padRight 18 (" ".intercalate (line.bytes.map Numeral.hexByte))).toList =
      (List.range 6).flatMap fun i => cell line.bytes[i]? := by
    rw [padRight, toList_pushn, ← String.length_toList, bytes]
    exact joined_append_replicate fits
  simp only [columns, String.toList_append, toList_hexWord, padded, printed, List.append_assoc]
  rfl

theorem join_columns {lines : List ListingLine} (fits : ∀ line ∈ lines, line.bytes.length ≤ 6) :
    String.join (lines.map (·.columns ++ "\n")) =
      String.ofList (lines.flatMap (·.printed ++ ['\n'])) := by
  rw [← String.toList_inj, String.toList_join, String.toList_ofList, List.flatMap_map]
  refine List.flatMap_congr fun line member => ?_
  rw [String.toList_append, toList_columns (fits line member)]
  rfl

end ListingLine

namespace Bus

def listingLine (bus : Bus) (a : Address) : ListingLine where
  address := a
  bytes := (List.range (bus.disassemble a).size).map fun n => bus.byte (a + UInt16.ofNat n)
  text := (bus.disassemble a).text

theorem length_bytes_listingLine (bus : Bus) (a : Address) :
    (bus.listingLine a).bytes.length = (bus.disassemble a).size := by
  simp [listingLine]

/-- These lines list the instructions of a memory that begin at `start` or above, as far as the count
goes. -/
structure ListedBy (bus : Bus) (start : Address) (count : Nat) (lines : List ListingLine) :
    Prop where
  addresses : lines.map (·.address) = (bus.starts.filter (start ≤ ·)).take count
  first : ∀ line ∈ lines.head?, line.address ∈ bus.starts ∧ start ≤ line.address ∧
    ∀ a ∈ bus.starts, start ≤ a → line.address ≤ a
  adjacent : lines.IsChain fun line next =>
    next.address.toNat = line.address.toNat + line.bytes.length
  size : ∀ line ∈ lines, line.bytes.length = (bus.disassemble line.address).size
  bytes : ∀ line ∈ lines, ∀ (i : Nat) (h : i < line.bytes.length),
    line.bytes[i] = bus.byte (line.address + UInt16.ofNat i)
  text : ∀ line ∈ lines, line.text = (bus.disassemble line.address).text
  length : lines.length = min count (bus.starts.countP (start ≤ ·))
  wraps : ∀ line ∈ lines, 65536 < line.address.toNat + line.bytes.length →
    bus.starts.getLast? = some line.address ∧ lines.getLast? = some line

section Listed

variable {bus : Bus} {start : Address} {count : Nat} {lines : List ListingLine}

theorem ListedBy.length_bytes_le (h : bus.ListedBy start count lines) :
    ∀ line ∈ lines, line.bytes.length ≤ 6 := by
  intro line member
  rw [h.size line member]
  exact bus.disassemble_size_le line.address

theorem ListedBy.eq_map (h : bus.ListedBy start count lines) :
    lines = ((bus.starts.filter (start ≤ ·)).take count).map bus.listingLine := by
  have same : ∀ line ∈ lines, bus.listingLine line.address = line := by
    intro line member
    have bytes : (bus.listingLine line.address).bytes = line.bytes := by
      refine List.ext_getElem ?_ fun i _ within => ?_
      · rw [length_bytes_listingLine, h.size line member]
      · rw [h.bytes line member i within]
        simp [listingLine]
    have text := h.text line member
    obtain ⟨a, shown, text'⟩ := line
    rw [ListingLine.mk.injEq]
    exact ⟨rfl, bytes, text.symm⟩
  rw [← h.addresses, List.map_map]
  calc lines = lines.map id := (List.map_id lines).symm
    _ = lines.map (bus.listingLine ∘ (·.address)) :=
      List.map_congr_left fun line member => (same line member).symm

theorem isChain_map_listingLine {as : List Address} (h : as.IsChain bus.Follows) :
    (as.map bus.listingLine).IsChain fun line next =>
      next.address.toNat = line.address.toNat + line.bytes.length := by
  refine List.isChain_map_of_isChain _ (fun a b follows => ?_) h
  rw [length_bytes_listingLine]
  exact follows

theorem getLast?_of_isChain {as : List Address} (h : as.IsChain bus.Follows) {a : Address}
    (member : a ∈ as) (reaches : 65536 < a.toNat + (bus.disassemble a).size) :
    as.getLast? = some a := by
  obtain ⟨before, after, rfl⟩ := List.append_of_mem member
  cases after with
  | nil => exact List.getLast?_concat
  | cons b rest =>
    have follows : bus.Follows a b :=
      (List.isChain_cons_cons.mp (List.isChain_append.mp h).2.1).1
    have below := b.toNat_lt
    rw [Follows] at follows
    omega

theorem listedBy_of_starts (bus : Bus) (start : Address) (count : Nat) :
    bus.ListedBy start count
      (((bus.starts.filter (start ≤ ·)).take count).map bus.listingLine) := by
  obtain ⟨first, suffix⟩ := bus.exists_filter_startsFrom 0 start
  have chain : ((bus.starts.filter (start ≤ ·)).take count).IsChain bus.Follows := by
    rw [starts, suffix]
    exact (isChain_startsFrom first).take count
  have known {a : Address} (member : a ∈ (bus.starts.filter (start ≤ ·)).take count) :
      a ∈ bus.starts ∧ start ≤ a := by
    simpa using List.mem_filter.mp (List.mem_of_mem_take member)
  have of_line {line : ListingLine}
      (member : line ∈ ((bus.starts.filter (start ≤ ·)).take count).map bus.listingLine) :
      ∃ a ∈ (bus.starts.filter (start ≤ ·)).take count, bus.listingLine a = line :=
    List.mem_map.mp member
  constructor
  case addresses =>
    rw [List.map_map]
    exact List.map_id _
  case first =>
    intro line head
    rw [List.head?_map] at head
    obtain ⟨a, leads, rfl⟩ := Option.map_eq_some_iff.mp head
    have member := List.mem_of_mem_head? leads
    refine ⟨(known member).1, (known member).2, fun b begins above => ?_⟩
    have other : b ∈ bus.startsFrom first := by
      rw [← suffix]
      exact List.mem_filter.mpr ⟨begins, by simpa using above⟩
    rw [starts, suffix, List.head?_take] at leads
    split at leads
    · contradiction
    · exact le_of_head?_startsFrom leads other
  case adjacent => exact isChain_map_listingLine chain
  case size =>
    intro line member
    obtain ⟨a, -, rfl⟩ := of_line member
    exact bus.length_bytes_listingLine a
  case bytes =>
    intro line member i within
    obtain ⟨a, -, rfl⟩ := of_line member
    simp [listingLine]
  case text =>
    intro line member
    obtain ⟨a, -, rfl⟩ := of_line member
    rfl
  case length =>
    rw [List.length_map, List.length_take, List.countP_eq_length_filter]
  case wraps =>
    intro line member reaches
    obtain ⟨a, listed, rfl⟩ := of_line member
    rw [length_bytes_listingLine] at reaches
    refine ⟨getLast?_startsFrom (known listed).1 reaches, ?_⟩
    rw [List.getLast?_map, getLast?_of_isChain chain listed reaches]
    rfl

end Listed

end Bus

namespace Machine

theorem listing_of_synced {m : Machine} (synced : m.Synced) (start : Address) (count : Nat) :
    m.listing start count =
      ((m.bus.starts.filter (start ≤ ·)).take count).map m.bus.listingLine := by
  rw [listing, Table.instructions_of_tiled synced.tiled, ← List.map_take, List.map_map]
  rfl

end Machine

theorem Image.byte_of_machine {file : Array Byte} {m : Machine} (sized : file.size = size)
    (loads : machine (.ok file) = .ok m) (a : Address) :
    file[4 + a.toNat]? = some (m.bus.byte a) := by
  have below : a.toNat < 65536 := a.toNat_lt
  have body := machine_of_parse (parse_of_size file sized)
  rw [loads] at body
  cases body
  have loaded : (Machine.initial.load (file.extract header.size file.size)).bus.byte a =
      (file.extract header.size file.size).getD a.toNat 0 := Memory.byte_load _ _ a
  have inside : 4 + a.toNat < file.size := by
    rw [sized, size]
    omega
  rw [loaded, Array.getD_eq_getD_getElem?, Array.getElem?_extract, if_pos (by
    simp only [header, List.size_toArray, List.length_cons, List.length_nil]
    omega)]
  rw [show header.size + a.toNat = 4 + a.toNat from rfl, Array.getElem?_eq_getElem inside]
  rfl

theorem commandLine_list (fuel : Nat) {files : String → Except FileProblem (Array Byte)}
    {path startText countText : String} (rest : List String) {m : Machine} {start : Address}
    {count : Nat} (loads : Image.machine (files path) = .ok m)
    (begins : Numeral.address? startText = some start)
    (counts : Numeral.count? countText = some count) :
    commandLine fuel files ("--disasm" :: path :: startText :: countText :: rest) =
      some ⟨0, String.join ((m.listing start count).map (·.columns ++ "\n")), ""⟩ := by
  have lines : Command.listLines (files path) startText countText =
      .ok (String.join ((m.listing start count).map (·.columns ++ "\n"))) := by
    simp [Command.listLines, loads, Command.address, begins, Command.count, counts, bind,
      Except.bind, pure, Except.pure]
  have parsed : Command.ofArgs? ("--disasm" :: path :: startText :: countText :: rest) =
      some (.list path startText countText) := rfl
  rw [commandLine, parsed]
  simp [Command.answer, Command.path, lines, Exit.ofResult]

/-- Whatever is in an image, the command that lists its instructions prints lines that tile the
memory from the first instruction that begins at the given address or above. -/
theorem listing_tiles_memory (fuel : Nat) {files : String → Except FileProblem (Array Byte)}
    {path startText countText : String} (rest : List String) {file : Array Byte} {start : Address}
    {count : Nat} (found : files path = .ok file) (sized : file.size = 65540)
    (begins : Numeral.AddressForm startText.toList start.toNat) (counts : count < 2 ^ 64)
    (reads : Numeral.Reads 10 countText.toList count) :
    ∃ m lines, Image.machine (.ok file) = .ok m ∧
      (∀ a : Address, file[4 + a.toNat]? = some (m.bus.byte a)) ∧
      commandLine fuel files ("--disasm" :: path :: startText :: countText :: rest) =
        some ⟨0, String.ofList (lines.flatMap (·.printed ++ ['\n'])), ""⟩ ∧
      m.bus.ListedBy start count lines := by
  obtain ⟨m, loads⟩ : ∃ m, Image.machine (.ok file) = .ok m :=
    ⟨_, Image.machine_of_parse (Image.parse_of_size file sized)⟩
  have synced : m.Synced := by
    rw [Image.machine_of_parse (Image.parse_of_size file sized)] at loads
    cases loads
    exact Machine.Synced.initial.load _
  have listed : m.bus.ListedBy start count (m.listing start count) := by
    rw [Machine.listing_of_synced synced]
    exact m.bus.listedBy_of_starts start count
  refine ⟨m, m.listing start count, loads, Image.byte_of_machine sized loads, ?_, listed⟩
  rw [← ListingLine.join_columns listed.length_bytes_le]
  exact commandLine_list fuel rest (found ▸ loads) (Numeral.address?_eq_some_iff.mpr begins)
    (Numeral.count?_eq_some_iff.mpr ⟨counts, reads⟩)

/-- A branch on the topmost address, which takes its offset from address zero. -/
def topBranch : Array Byte := (Array.replicate 65539 0).push 0x30

theorem size_topBranch : topBranch.size = 65540 := by
  rw [topBranch, Array.size_push, Array.size_replicate]

theorem getElem?_topBranch {n : Nat} (h : n < 65540) :
    topBranch[n]? = some (if n = 65539 then 0x30 else 0) := by
  rw [topBranch, Array.getElem?_push, Array.size_replicate]
  split
  · rfl
  · rw [Array.getElem?_replicate, if_pos (by omega)]

theorem listingLine_topBranch {bus : Bus}
    (bytes : ∀ a : Address, topBranch[4 + a.toNat]? = some (bus.byte a)) :
    (bus.starts.filter ((65535 : Address) ≤ ·)).map bus.listingLine =
      [⟨65535, [0x30, 0], "BR 0"⟩] := by
  have byte (a : Address) : bus.byte a = if a.toNat = 65535 then 0x30 else 0 := by
    have below := a.toNat_lt
    have here := bytes a
    rw [getElem?_topBranch (by omega)] at here
    rw [← Option.some.inj here]
    congr 1
    simp only [eq_iff_iff]
    omega
  have short : ∀ a < 65535, (bus.disassemble a).size = 1 := by
    intro a below
    have early : a.toNat ≠ 65535 := Nat.ne_of_lt (UInt16.lt_iff_toNat_lt.mp below)
    have idle : Opcode.ofByte (bus.byte a) = .nop := by
      rw [byte, if_neg early]
      rfl
    rw [Bus.disassemble_of_nop idle]
  have begins : (65535 : Address) ∈ bus.starts :=
    Bus.mem_startsFrom_of_size_one (Nat.zero_le _) fun a _ => short a
  have decoded : bus.instructionAt 65535 = .branch .br 0 := by
    rw [Bus.instructionAt, byte, byte]
    rfl
  have line : bus.disassemble 65535 = ⟨2, "BR 0"⟩ := by
    rw [Bus.disassemble, decoded]
    show (⟨2, Condition.br.mnemonic ++ " " ++ Numeral.integer (signedByte 0)⟩ : Line) = _
    decide
  rw [Bus.starts, Bus.filter_startsFrom_of_mem begins, Bus.startsFrom_next, line,
    Bus.startsFrom_top (by decide), List.map_singleton, Bus.listingLine, line]
  simp [List.range_succ, byte]

theorem listing_tiles_memory_of_topBranch :
    commandLine 0 (fun _ => .ok topBranch) ["--disasm", "top.mem", "0xffff", "+3", "more"] =
      some ⟨0, "ffff: 30 00              BR 0\n", ""⟩ := by
  obtain ⟨m, lines, -, bytes, printed, listed⟩ :=
    @listing_tiles_memory 0 (fun _ => .ok topBranch) "top.mem" "0xffff" "+3" ["more"] topBranch
      65535 3 rfl size_topBranch (Numeral.address?_eq_some_iff.mp (by decide)) (by decide)
      (Numeral.count?_eq_some_iff.mp (by decide)).2
  have line := listingLine_topBranch bytes
  have lines' : lines = [⟨65535, [0x30, 0], "BR 0"⟩] := by
    rw [listed.eq_map, List.map_take, line]
    rfl
  rw [printed, lines']
  decide

end TeachingCpu
