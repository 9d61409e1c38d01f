import Mittos64.Fs.Ata
import Mittos64.Lib.Run

/-!
# Disks with faults

`ata_read` and `ata_write` on a drive whose commands may fail, at any offset.  During a call the
drive may report any status to any attempt to read and to any write of a block.  A request is cut
into parts, each in one block, and the loops of `ata_read` and `ata_write` go through the parts
(`readLoop_eq`, `writeLoop_eq`); what one part does is said for every byte of the buffer and of the
drive (`readStep_spec`, `writeStep_spec`).  A block number goes to the sector with the number modulo
`2 ^ 28`.
-/

namespace Ata.Faulty

/-- The sectors of the two drives of a bus. -/
abbrev Sectors : Type := Bool → Nat → Memory

/-- What a drive reports during one call, for the part of the request at which `count` bytes have
been moved: the status of each attempt to read the block, with the retries that were left, and of
the write of the block.  A sector whose write has failed holds what `rejected` makes of its bytes
and the bytes that were sent. -/
structure Faults where
  read : Nat → Nat → UInt8
  write : Nat → UInt8
  rejected : Memory → List UInt8 → Memory

/-- The command has succeeded, by the status it reports. -/
def Accepted (status : UInt8) : Prop :=
  status &&& (ataDf ||| ataErr) = 0 ∧ status &&& ataDrq ≠ 0

instance decidableAccepted (status : UInt8) : Decidable (Accepted status) :=
  inferInstanceAs (Decidable (_ ∧ _))

/-- The loop of `ata_read_block`, with the retries that are left. -/
def readRetry (sectors : Sectors) (drive : Drive) (lba : Nat) (status : Nat → UInt8)
    (buffer : Memory) (pos : Nat) : Nat → Int × Memory
  | 0 => (-1, buffer)
  | retries + 1 =>
      let r := ataSendCommand (blockCommand drive lba ataCmdReadSectors)
      let s := status (retries + 1)
      if s &&& (ataDf ||| ataErr) ≠ 0 ∨ s &&& ataDrq = 0 then
        readRetry sectors drive lba status buffer pos retries
      else (0, buffer.write pos ((sectors r.slave r.sector).read 0 512))

/-- `ata_read_block(drive, lba, &buffer[pos])` -/
def ataReadBlock (sectors : Sectors) (drive : Drive) (lba : Nat) (status : Nat → UInt8)
    (buffer : Memory) (pos : Nat) : Int × Memory :=
  readRetry sectors drive lba status buffer pos 5

/-- `ata_write_block(drive, lba, &buffer[pos])`.  It sends the bytes whatever the status is. -/
def ataWriteBlock (rejected : Memory → List UInt8 → Memory) (sectors : Sectors) (drive : Drive)
    (lba : Nat) (status : UInt8) (buffer : Memory) (pos : Nat) : Sectors :=
  let r := ataSendCommand (blockCommand drive lba ataCmdWriteSectors)
  let block := buffer.read pos 512
  fun s n =>
    if s = r.slave ∧ n = r.sector then
      if Accepted status then (sectors s n).write 0 block else rejected (sectors s n) block
    else sectors s n

/-- The loop of `ata_read`, with the local buffer `blk_buf`. -/
def readLoop (faults : Faults) (sectors : Sectors) (drive : Drive) (nbyte count offset : Nat)
    (blkBuf buffer : Memory) : Nat × Memory :=
  if h : count < nbyte then
    let len := blockLen nbyte count offset
    if len = 512 then
      let buffer := (ataReadBlock sectors drive (offset / 512) (faults.read count) buffer count).2
      readLoop faults sectors drive nbyte (count + len) ((offset + len) % 2 ^ 64) blkBuf buffer
    else
      let blkBuf := (ataReadBlock sectors drive (offset / 512) (faults.read count) blkBuf 0).2
      let buffer := buffer.write count (blkBuf.read (offset % 512) len)
      readLoop faults sectors drive nbyte (count + len) ((offset + len) % 2 ^ 64) blkBuf buffer
  else (count, buffer)
termination_by nbyte - count
decreasing_by
  all_goals
    have := blockLen_pos offset h
    omega

/-- `ata_read(file, buffer, nbyte, offset)`, on a file of the drive. -/
def ataRead (faults : Faults) (sectors : Sectors) (drive : Drive) (blkBuf buffer : Memory)
    (nbyte offset : Nat) : Nat × Memory :=
  if drive.present then readLoop faults sectors drive nbyte 0 offset blkBuf buffer else (0, buffer)

/-- The loop of `ata_write`. -/
def writeLoop (faults : Faults) (drive : Drive) (buffer : Memory) (nbyte count offset : Nat)
    (blkBuf : Memory) (sectors : Sectors) : Nat × Sectors :=
  if h : count < nbyte then
    let len := blockLen nbyte count offset
    if len = 512 then
      let sectors := ataWriteBlock faults.rejected sectors drive (offset / 512) (faults.write count)
        buffer count
      writeLoop faults drive buffer nbyte (count + len) ((offset + len) % 2 ^ 64) blkBuf sectors
    else
      let blkBuf := (ataReadBlock sectors drive (offset / 512) (faults.read count) blkBuf 0).2
      let blkBuf := blkBuf.write (offset % 512) (buffer.read count len)
      let sectors := ataWriteBlock faults.rejected sectors drive (offset / 512) (faults.write count)
        blkBuf 0
      writeLoop faults drive buffer nbyte (count + len) ((offset + len) % 2 ^ 64) blkBuf sectors
  else (count, sectors)
termination_by nbyte - count
decreasing_by
  all_goals
    have := blockLen_pos offset h
    omega

/-- `ata_write(file, buffer, nbyte, offset)`, on a file of the drive. -/
def ataWrite (faults : Faults) (sectors : Sectors) (drive : Drive) (blkBuf buffer : Memory)
    (nbyte offset : Nat) : Nat × Sectors :=
  if drive.present then writeLoop faults drive buffer nbyte 0 offset blkBuf sectors
  else (0, sectors)

/-! ### Blocks -/

/-- All attempts to read the block fail. -/
def ReadFails (status : Nat → UInt8) : Prop :=
  ∀ i < 5, ¬ Accepted (status (i + 1))

instance decidableReadFails (status : Nat → UInt8) : Decidable (ReadFails status) :=
  inferInstanceAs (Decidable (∀ _ < _, _))

/-- The bytes of the drive, one sector after the other. -/
def flat (sectors : Sectors) (drive : Drive) : Memory :=
  fun x => sectors drive.slave (x / 512) (x % 512)

/-- The registers address the sector with the number of the block modulo `2 ^ 28`. -/
theorem blockCommand_address {drive : Drive} (hms : drive.ms = 0 ∨ drive.ms = 0x10) (lba : Nat)
    (command : UInt8) :
  (ataSendCommand (blockCommand drive lba command)).sector = lba % 2 ^ 28
    ∧ (ataSendCommand (blockCommand drive lba command)).slave = drive.slave
  := by
  have hmod : blockCommand drive lba command = blockCommand drive (lba % 2 ^ 28) command := by
    have hlow : ∀ n : Nat, n &&& 0xFFFFFF = n % 2 ^ 24 := fun n =>
      Nat.and_two_pow_sub_one_eq_mod n 24
    have hhigh : ∀ n : Nat, (n >>> 24) &&& 0xF = n / 2 ^ 24 % 2 ^ 4 := by
      intro n
      rw [← Nat.shiftRight_eq_div_pow]
      exact Nat.and_two_pow_sub_one_eq_mod (n >>> 24) 4
    have hlow' : lba % 2 ^ 24 = lba % 2 ^ 28 % 2 ^ 24 := by omega
    have hhigh' : lba / 2 ^ 24 % 2 ^ 4 = lba % 2 ^ 28 / 2 ^ 24 % 2 ^ 4 := by omega
    rw [blockCommand, blockCommand, hlow, hlow, hhigh, hhigh, hlow', hhigh']
  rw [hmod]
  apply blockCommand_sector command hms
  omega

section Block

variable {drive : Drive} (hms : drive.ms = 0 ∨ drive.ms = 0x10) (sectors : Sectors) (lba : Nat)

include hms

theorem readRetry_eq (status : Nat → UInt8) (buffer : Memory) (pos retries : Nat) :
  readRetry sectors drive lba status buffer pos retries
    = if ∀ i < retries, ¬ Accepted (status (i + 1)) then (-1, buffer)
      else (0, buffer.write pos ((sectors drive.slave (lba % 2 ^ 28)).read 0 512))
  := by
  obtain ⟨hsector, hslave⟩ := blockCommand_address hms lba ataCmdReadSectors
  induction retries with
  | zero =>
      rw [readRetry, if_pos]
      intro i hi
      cases hi
  | succ retries ih =>
      rw [readRetry]
      simp only [hsector, hslave]
      by_cases haccepted : Accepted (status (retries + 1))
      · rw [if_neg, if_neg]
        · intro hall
          apply hall retries (Nat.lt_succ_self retries) haccepted
        · rintro (hfault | hdrq)
          · apply hfault haccepted.1
          · apply haccepted.2 hdrq
      · rw [if_pos, ih]
        · simp only [Nat.forall_lt_succ_right, haccepted, not_false_eq_true, and_true]
        · by_contra hnot
          rw [not_or, not_not] at hnot
          apply haccepted hnot

/-- A block is read when an attempt succeeds. -/
theorem ataReadBlock_eq (status : Nat → UInt8) (buffer : Memory) (pos : Nat) :
  ataReadBlock sectors drive lba status buffer pos
    = if ReadFails status then (-1, buffer)
      else (0, buffer.write pos ((sectors drive.slave (lba % 2 ^ 28)).read 0 512))
  := readRetry_eq hms sectors lba status buffer pos 5

/-- A byte of the buffer after a block has been read, or has not been read. -/
theorem ataReadBlock_byte (status : Nat → UInt8) (buffer : Memory) (pos x : Nat) :
  (ataReadBlock sectors drive lba status buffer pos).2 x
    = if pos ≤ x ∧ x < pos + 512 ∧ ¬ ReadFails status then
        sectors drive.slave (lba % 2 ^ 28) (x - pos)
      else buffer x
  := by
  rw [ataReadBlock_eq hms]
  by_cases hfails : ReadFails status
  · rw [if_pos hfails, if_neg]
    rintro ⟨-, -, hnot⟩
    apply hnot hfails
  · rw [if_neg hfails]
    simp only [Memory.write_read, Nat.zero_add, hfails, not_false_eq_true, and_true]

/-- A byte of the drive after a write of a block has succeeded. -/
theorem ataWriteBlock_byte (rejected : Memory → List UInt8 → Memory) {status : UInt8}
    (hstatus : Accepted status) (buffer : Memory) (pos x : Nat) :
  flat (ataWriteBlock rejected sectors drive lba status buffer pos) drive x
    = if x / 512 = lba % 2 ^ 28 then buffer (pos + x % 512) else flat sectors drive x
  := by
  obtain ⟨hsector, hslave⟩ := blockCommand_address hms lba ataCmdWriteSectors
  simp only [flat, ataWriteBlock, hsector, hslave, true_and, if_pos hstatus]
  split_ifs with hx
  · rw [Memory.write_read, if_pos (by omega), Nat.sub_zero]
  · rfl

/-- A write of a block leaves the sectors alone that no command can address, whether it succeeds or
not. -/
theorem ataWriteBlock_beyond (rejected : Memory → List UInt8 → Memory) (status : UInt8)
    (buffer : Memory) (pos : Nat) {x : Nat} (hx : 2 ^ 37 ≤ x) :
  flat (ataWriteBlock rejected sectors drive lba status buffer pos) drive x = flat sectors drive x
  := by
  obtain ⟨hsector, hslave⟩ := blockCommand_address hms lba ataCmdWriteSectors
  simp only [flat, ataWriteBlock, hsector, hslave, true_and]
  rw [if_neg]
  omega

end Block

/-! ### The parts of a request -/

/-- A part of a request: the bytes that have been moved before it, where it starts on the drive,
and its length. -/
structure Part where
  count : Nat
  offset : Nat
  len : Nat

/-- The parts of a request that are left when `count` bytes have been moved. -/
def parts (nbyte count offset : Nat) : List Part :=
  if h : count < nbyte then
    let len := blockLen nbyte count offset
    { count := count, offset := offset, len := len }
      :: parts nbyte (count + len) ((offset + len) % 2 ^ 64)
  else []
termination_by nbyte - count
decreasing_by
  have := blockLen_pos offset h
  omega

/-- One turn of `ata_read`, with the local and the caller's buffer. -/
def readStep (faults : Faults) (sectors : Sectors) (drive : Drive) (s : Memory × Memory)
    (p : Part) : Memory × Memory :=
  if p.len = 512 then
    (s.1, (ataReadBlock sectors drive (p.offset / 512) (faults.read p.count) s.2 p.count).2)
  else
    let blkBuf := (ataReadBlock sectors drive (p.offset / 512) (faults.read p.count) s.1 0).2
    (blkBuf, s.2.write p.count (blkBuf.read (p.offset % 512) p.len))

/-- One turn of `ata_write`, with the local buffer and the sectors. -/
def writeStep (faults : Faults) (drive : Drive) (buffer : Memory) (s : Memory × Sectors)
    (p : Part) : Memory × Sectors :=
  if p.len = 512 then
    (s.1, ataWriteBlock faults.rejected s.2 drive (p.offset / 512) (faults.write p.count) buffer
      p.count)
  else
    let blkBuf := (ataReadBlock s.2 drive (p.offset / 512) (faults.read p.count) s.1 0).2
    let blkBuf := blkBuf.write (p.offset % 512) (buffer.read p.count p.len)
    (blkBuf, ataWriteBlock faults.rejected s.2 drive (p.offset / 512) (faults.write p.count) blkBuf
      0)

/-- The loop of `ata_read` goes through the parts. -/
theorem readLoop_eq (faults : Faults) (sectors : Sectors) (drive : Drive) {nbyte count : Nat}
    (hcount : count ≤ nbyte) (offset : Nat) (blkBuf buffer : Memory) :
  readLoop faults sectors drive nbyte count offset blkBuf buffer
    = (nbyte, ((parts nbyte count offset).foldl (readStep faults sectors drive)
        (blkBuf, buffer)).2)
  := by
  induction hk : nbyte - count using Nat.strongRecOn
    generalizing count offset blkBuf buffer with
  | ind k ih =>
      by_cases hlt : count < nbyte
      · obtain ⟨hpos, hle, -⟩ := blockLen_pos offset hlt
        rw [readLoop, parts, dif_pos hlt, dif_pos hlt]
        simp only [List.foldl_cons, readStep]
        split_ifs with hlen
        · apply ih _ _ hle _ _ _ rfl
          omega
        · apply ih _ _ hle _ _ _ rfl
          omega
      · obtain rfl : count = nbyte := by omega
        rw [readLoop, parts, dif_neg hlt, dif_neg hlt, List.foldl_nil]

/-- The loop of `ata_write` goes through the parts. -/
theorem writeLoop_eq (faults : Faults) (drive : Drive) (buffer : Memory) {nbyte count : Nat}
    (hcount : count ≤ nbyte) (offset : Nat) (blkBuf : Memory) (sectors : Sectors) :
  writeLoop faults drive buffer nbyte count offset blkBuf sectors
    = (nbyte, ((parts nbyte count offset).foldl (writeStep faults drive buffer)
        (blkBuf, sectors)).2)
  := by
  induction hk : nbyte - count using Nat.strongRecOn
    generalizing count offset blkBuf sectors with
  | ind k ih =>
      by_cases hlt : count < nbyte
      · obtain ⟨hpos, hle, -⟩ := blockLen_pos offset hlt
        rw [writeLoop, parts, dif_pos hlt, dif_pos hlt]
        simp only [List.foldl_cons, writeStep]
        split_ifs with hlen
        · apply ih _ _ hle _ _ _ rfl
          omega
        · apply ih _ _ hle _ _ _ rfl
          omega
      · obtain rfl : count = nbyte := by omega
        rw [writeLoop, parts, dif_neg hlt, dif_neg hlt, List.foldl_nil]

/-- The part is one of a request of `nbyte` bytes from `offset` on: it starts behind the bytes before
it, at the start of a block unless it is the first one, and it ends with the block or the
request. -/
structure IsPart (nbyte offset : Nat) (p : Part) : Prop where
  lt : p.count < nbyte
  offset_eq : p.offset = (offset + p.count) % 2 ^ 64
  len_eq : p.len = blockLen nbyte p.count p.offset
  start : p.count = 0 ∨ p.offset % 512 = 0

section Parts

variable {nbyte offset : Nat}

/-- What is behind a part starts at the start of a block. -/
theorem blockLen_next {count off : Nat} (hlt : count + blockLen nbyte count off < nbyte) :
  (off + blockLen nbyte count off) % 2 ^ 64 % 512 = 0
  := by
  rw [blockLen] at hlt ⊢
  split_ifs at hlt ⊢ with hlen
  · omega
  · omega

theorem isPart_of_mem {count off : Nat} (hoff : off = (offset + count) % 2 ^ 64)
    (hstart : count < nbyte → count = 0 ∨ off % 512 = 0) :
  ∀ p ∈ parts nbyte count off, IsPart nbyte offset p
  := by
  induction hk : nbyte - count using Nat.strongRecOn generalizing count off with
  | ind k ih =>
      intro p hp
      rw [parts] at hp
      split_ifs at hp with hlt
      · obtain ⟨hpos, hle, -⟩ := blockLen_pos off hlt
        obtain rfl | hrest := List.mem_cons.mp hp
        · exact ⟨hlt, hoff, rfl, hstart hlt⟩
        · exact ih _ (by omega) (by omega) (fun hmore => Or.inr (blockLen_next hmore)) rfl p hrest
      · cases hp

theorem le_count_of_mem {count off : Nat} :
  ∀ p ∈ parts nbyte count off, count ≤ p.count
  := by
  induction hk : nbyte - count using Nat.strongRecOn generalizing count off with
  | ind k ih =>
      intro p hp
      rw [parts] at hp
      split_ifs at hp with hlt
      · obtain ⟨hpos, -, -⟩ := blockLen_pos off hlt
        obtain rfl | hrest := List.mem_cons.mp hp
        · exact Nat.le_refl _
        · have hle := ih _ (by omega) rfl p hrest
          omega
      · cases hp

theorem isPart_of_parts (hoffset : offset < 2 ^ 64) {p : Part} (hp : p ∈ parts nbyte 0 offset) :
  IsPart nbyte offset p
  := isPart_of_mem (by omega) (fun _ => Or.inl rfl) p hp

/-- Every byte of a request is in one of its parts. -/
theorem exists_part {count off i : Nat} (hle : count ≤ i) (hi : i < nbyte) :
  ∃ p ∈ parts nbyte count off, p.count ≤ i ∧ i < p.count + p.len
  := by
  induction hk : nbyte - count using Nat.strongRecOn generalizing count off with
  | ind k ih =>
      have hlt : count < nbyte := by omega
      obtain ⟨hpos, -, -⟩ := blockLen_pos off hlt
      rw [parts, dif_pos hlt]
      by_cases hin : i < count + blockLen nbyte count off
      · exact ⟨_, List.mem_cons_self, hle, hin⟩
      · have hless : nbyte - (count + blockLen nbyte count off) < k := by omega
        obtain ⟨p, hp, hp'⟩ := ih _ hless (Nat.le_of_not_lt hin) rfl
        exact ⟨p, List.mem_cons_of_mem _ hp, hp'⟩

/-- The parts have the length of the request. -/
theorem sum_len_parts {count off : Nat} (hle : count ≤ nbyte) :
  ((parts nbyte count off).map Part.len).sum = nbyte - count
  := by
  induction hk : nbyte - count using Nat.strongRecOn generalizing count off with
  | ind k ih =>
      rw [parts]
      split_ifs with hlt
      · obtain ⟨hpos, hle', -⟩ := blockLen_pos off hlt
        rw [List.map_cons, List.sum_cons, ih _ (by omega) hle' rfl]
        simp only
        omega
      · simp
        omega

variable {p : Part} (hp : IsPart nbyte offset p)

include hp

theorem IsPart.bounds :
  0 < p.len ∧ p.count + p.len ≤ nbyte ∧ p.offset % 512 + p.len ≤ 512
  := by
  rw [hp.len_eq]
  apply blockLen_pos p.offset hp.lt

/-- A part that ends before its block is the last one. -/
theorem IsPart.last (hshort : p.offset % 512 + p.len < 512) :
  p.count + p.len = nbyte
  := by
  have hlen := hp.len_eq
  have hlt := hp.lt
  rw [blockLen] at hlen
  split_ifs at hlen with hmore
  · omega
  · omega

/-- The sector and the byte in it that a byte of the part goes to. -/
theorem IsPart.address {x : Nat} (hle : p.count ≤ x) (hlt : x < p.count + p.len) :
  (offset + x) % 2 ^ 37 / 512 = p.offset / 512 % 2 ^ 28
    ∧ (offset + x) % 2 ^ 37 % 512 = p.offset % 512 + (x - p.count)
  := by
  obtain ⟨-, -, hblock⟩ := hp.bounds
  have hoff := hp.offset_eq
  omega

end Parts

/-! ### One turn -/

section Step

variable {faults : Faults} {drive : Drive} (hms : drive.ms = 0 ∨ drive.ms = 0x10) {p : Part}
  (hblock : p.offset % 512 + p.len ≤ 512)

include hms

/-- The local buffer after one turn of `ata_read`. -/
theorem readStep_blkBuf (sectors : Sectors) (s : Memory × Memory) (y : Nat) :
  (readStep faults sectors drive s p).1 y
    = if p.len ≠ 512 ∧ y < 512 ∧ ¬ ReadFails (faults.read p.count) then
        sectors drive.slave (p.offset / 512 % 2 ^ 28) y
      else s.1 y
  := by
  rw [readStep]
  by_cases hlen : p.len = 512
  · rw [if_pos hlen, if_neg fun h => h.1 hlen]
  · rw [if_neg hlen]
    simp only [ataReadBlock_byte hms, Nat.zero_le, true_and, Nat.zero_add, Nat.sub_zero, hlen,
      not_false_eq_true, ne_eq]

/-- The local buffer after one turn of `ata_write`. -/
theorem writeStep_blkBuf (buffer : Memory) (s : Memory × Sectors) (y : Nat) :
  (writeStep faults drive buffer s p).1 y
    = if p.len = 512 then s.1 y
      else if p.offset % 512 ≤ y ∧ y < p.offset % 512 + p.len then
        buffer (p.count + (y - p.offset % 512))
      else if y < 512 ∧ ¬ ReadFails (faults.read p.count) then
        s.2 drive.slave (p.offset / 512 % 2 ^ 28) y
      else s.1 y
  := by
  rw [writeStep]
  by_cases hlen : p.len = 512
  · rw [if_pos hlen, if_pos hlen]
  · rw [if_neg hlen, if_neg hlen]
    simp only [Memory.write_read, ataReadBlock_byte hms, Nat.zero_le, true_and, Nat.zero_add,
      Nat.sub_zero]

include hblock

/-- A byte of the caller's buffer after one turn of `ata_read`. -/
theorem readStep_buffer (sectors : Sectors) (s : Memory × Memory) (x : Nat) :
  (readStep faults sectors drive s p).2 x
    = if p.count ≤ x ∧ x < p.count + p.len then
        if ReadFails (faults.read p.count) then
          if p.len = 512 then s.2 x else s.1 (p.offset % 512 + (x - p.count))
        else sectors drive.slave (p.offset / 512 % 2 ^ 28) (p.offset % 512 + (x - p.count))
      else s.2 x
  := by
  rw [readStep]
  by_cases hlen : p.len = 512
  · have hstart : p.offset % 512 = 0 := by omega
    rw [if_pos hlen, if_pos hlen]
    simp only [ataReadBlock_byte hms]
    rw [hlen, hstart, Nat.zero_add]
    by_cases hfails : ReadFails (faults.read p.count)
    · simp only [hfails, not_true_eq_false, and_false, if_false, if_true, ite_self]
    · simp only [hfails, not_false_eq_true, and_true, if_false]
  · rw [if_neg hlen, if_neg hlen]
    simp only [Memory.write_read, ataReadBlock_byte hms, Nat.zero_le, true_and, Nat.zero_add,
      Nat.sub_zero]
    by_cases hx : p.count ≤ x ∧ x < p.count + p.len
    · have hlt : p.offset % 512 + (x - p.count) < 512 := by omega
      rw [if_pos hx, if_pos hx]
      simp only [hlt, true_and]
      by_cases hfails : ReadFails (faults.read p.count)
      · rw [if_pos hfails, if_neg (not_not.mpr hfails)]
      · rw [if_neg hfails, if_pos hfails]
    · rw [if_neg hx, if_neg hx]

/-- A byte of the drive after one turn of `ata_write` whose write has succeeded. -/
theorem writeStep_flat (haccepted : Accepted (faults.write p.count)) (buffer : Memory)
    (s : Memory × Sectors) (x : Nat) :
  flat (writeStep faults drive buffer s p).2 drive x
    = if x / 512 = p.offset / 512 % 2 ^ 28 then
        if p.offset % 512 ≤ x % 512 ∧ x % 512 < p.offset % 512 + p.len then
          buffer (p.count + (x % 512 - p.offset % 512))
        else if ReadFails (faults.read p.count) then s.1 (x % 512)
        else flat s.2 drive x
      else flat s.2 drive x
  := by
  rw [writeStep]
  by_cases hlen : p.len = 512
  · have hstart : p.offset % 512 = 0 := by omega
    have hin : p.offset % 512 ≤ x % 512 ∧ x % 512 < p.offset % 512 + p.len := by omega
    rw [if_pos hlen]
    simp only [ataWriteBlock_byte hms _ _ _ haccepted, if_pos hin]
    rw [hstart, Nat.sub_zero]
  · rw [if_neg hlen]
    simp only [ataWriteBlock_byte hms _ _ _ haccepted]
    by_cases hx : x / 512 = p.offset / 512 % 2 ^ 28
    · rw [if_pos hx, if_pos hx, Nat.zero_add, Memory.write_read]
      by_cases hin : p.offset % 512 ≤ x % 512 ∧ x % 512 < p.offset % 512 + p.len
      · rw [if_pos hin, if_pos hin]
      · rw [if_neg hin, if_neg hin, ataReadBlock_byte hms]
        by_cases hfails : ReadFails (faults.read p.count)
        · rw [if_pos hfails, if_neg fun h => h.2.2 hfails]
        · rw [if_neg hfails, if_pos ⟨Nat.zero_le _, by omega, hfails⟩, Nat.sub_zero, flat, hx]
    · rw [if_neg hx, if_neg hx]

omit hblock in
/-- One turn of `ata_write` leaves the bytes alone that no command can address. -/
theorem writeStep_beyond (buffer : Memory) (s : Memory × Sectors) {x : Nat} (hx : 2 ^ 37 ≤ x) :
  flat (writeStep faults drive buffer s p).2 drive x = flat s.2 drive x
  := by
  rw [writeStep]
  split_ifs
  · exact ataWriteBlock_beyond hms _ _ _ _ _ _ hx
  · exact ataWriteBlock_beyond hms _ _ _ _ _ _ hx

end Step

end Ata.Faulty
