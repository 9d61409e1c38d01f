import Mittos64.Lib.Memory

/-!
# Disks as files

`drivers/ata.c` and `fs/ata_fs.c`.  A command addresses a sector of 512 bytes by three registers
of eight bits and four bits of the device register, whose fifth bit selects one of the two drives
of a bus.  `ata_read` and `ata_write` cut a request for bytes into sectors: whole sectors are moved
directly, the others through a buffer of their own.  For commands that succeed, a drive is a flat
array of bytes (`disk_is_flat`).
-/

namespace Ata

/-- `ATA_ERR` -/
def ataErr : UInt8 := 0x01

/-- `ATA_DRQ` -/
def ataDrq : UInt8 := 0x08

/-- `ATA_DF` -/
def ataDf : UInt8 := 0x20

/-- `ATA_CMD_READ_SECTORS` -/
def ataCmdReadSectors : UInt8 := 0x20

/-- `ATA_CMD_WRITE_SECTORS` -/
def ataCmdWriteSectors : UInt8 := 0x30

/-- The fields of `ata_cmd_t` that make up a command. -/
structure Cmd where
  count : UInt8
  lba : Nat
  device : UInt8
  command : UInt8

/-- `cmd->lba_sep[i]` -/
def Cmd.lbaSep (cmd : Cmd) (i : Nat) : UInt8 :=
  UInt8.ofNat (cmd.lba / 256 ^ i)

/-- The registers of a bus. -/
structure Registers where
  device : UInt8
  count : UInt8
  lbal : UInt8
  lbam : UInt8
  lbah : UInt8
  command : UInt8

/-- The registers that `ata_send_command` writes. -/
def ataSendCommand (cmd : Cmd) : Registers where
  device := cmd.device ||| (cmd.lbaSep 3 &&& 0xF)
  count := cmd.count
  lbal := cmd.lbaSep 0
  lbam := cmd.lbaSep 1
  lbah := cmd.lbaSep 2
  command := cmd.command

/-- The number of the sector that the registers address. -/
def Registers.sector (r : Registers) : Nat :=
  r.lbal.toNat + 2 ^ 8 * r.lbam.toNat + 2 ^ 16 * r.lbah.toNat + 2 ^ 24 * (r.device &&& 0xF).toNat

/-- The registers select the second drive of the bus. -/
def Registers.slave (r : Registers) : Bool :=
  (r.device &&& 0x10) != 0

/-- A bus: the sectors of its two drives, each a block of 512 bytes, and the status it reports for
a command. -/
structure Bus where
  sectors : Bool → Nat → Memory
  status : Registers → UInt8

/-- The fields of `ata_drive` that say whether the drive exists and which one it is. -/
structure Drive where
  present : Bool
  ms : UInt8

/-- The command of `ata_read_block` and `ata_write_block`. -/
def blockCommand (drive : Drive) (lba : Nat) (command : UInt8) : Cmd where
  count := 1
  lba := lba &&& 0xFFFFFF
  device := (0xE0 : UInt8) ||| drive.ms ||| UInt8.ofNat ((lba >>> 24) &&& 0xF)
  command := command

/-- The loop of `ata_read_block`, with the retries that are left. -/
def readRetry (bus : Bus) (drive : Drive) (lba : Nat) (buffer : Memory) (pos : Nat) :
    Nat → Int × Memory
  | 0 => (-1, buffer)
  | retries + 1 =>
      let r := ataSendCommand (blockCommand drive lba ataCmdReadSectors)
      let status := bus.status r
      if status &&& (ataDf ||| ataErr) ≠ 0 ∨ status &&& ataDrq = 0 then
        readRetry bus drive lba buffer pos retries
      else (0, buffer.write pos ((bus.sectors r.slave r.sector).read 0 512))

/-- `ata_read_block(drive, lba, &buffer[pos])` -/
def ataReadBlock (bus : Bus) (drive : Drive) (lba : Nat) (buffer : Memory) (pos : Nat) :
    Int × Memory :=
  readRetry bus drive lba buffer pos 5

/-- The bus with a block of bytes written to a sector. -/
def Bus.setSector (bus : Bus) (slave : Bool) (sector : Nat) (block : List UInt8) : Bus :=
  { bus with
    sectors := fun s n =>
      if s = slave ∧ n = sector then (bus.sectors s n).write 0 block else bus.sectors s n }

/-- `ata_write_block(drive, lba, &buffer[pos])` -/
def ataWriteBlock (bus : Bus) (drive : Drive) (lba : Nat) (buffer : Memory) (pos : Nat) : Bus :=
  let r := ataSendCommand (blockCommand drive lba ataCmdWriteSectors)
  bus.setSector r.slave r.sector (buffer.read pos 512)

/-- `len`, the number of bytes that are moved next. -/
def blockLen (nbyte count offset : Nat) : Nat :=
  if nbyte - count > 512 - offset % 512 then 512 - offset % 512 else nbyte - count

theorem blockLen_pos {nbyte count : Nat} (offset : Nat) (h : count < nbyte) :
  0 < blockLen nbyte count offset ∧ count + blockLen nbyte count offset ≤ nbyte
    ∧ offset % 512 + blockLen nbyte count offset ≤ 512
  := by
  rw [blockLen]
  split_ifs
  · omega
  · omega

/-- The loop of `ata_read`, with the local buffer `blk_buf`. -/
def readLoop (bus : Bus) (drive : Drive) (nbyte count offset : Nat) (blkBuf buffer : Memory) :
    Nat × Memory :=
  if h : count < nbyte then
    let len := blockLen nbyte count offset
    if len = 512 then
      let buffer := (ataReadBlock bus drive (offset / 512) buffer count).2
      readLoop bus drive nbyte (count + len) ((offset + len) % 2 ^ 64) blkBuf buffer
    else
      let blkBuf := (ataReadBlock bus drive (offset / 512) blkBuf 0).2
      let buffer := buffer.write count (blkBuf.read (offset % 512) len)
      readLoop bus drive nbyte (count + len) ((offset + len) % 2 ^ 64) blkBuf buffer
  else (count, buffer)
termination_by nbyte - count
decreasing_by
  all_goals
    have := blockLen_pos offset h
    omega

/-- `ata_read(file, buffer, nbyte, offset)`, on a file of the drive. -/
def ataRead (bus : Bus) (drive : Drive) (blkBuf buffer : Memory) (nbyte offset : Nat) :
    Nat × Memory :=
  if drive.present then readLoop bus drive nbyte 0 offset blkBuf buffer else (0, buffer)

/-- The loop of `ata_write`. -/
def writeLoop (drive : Drive) (buffer : Memory) (nbyte count offset : Nat) (blkBuf : Memory)
    (bus : Bus) : Nat × Bus :=
  if h : count < nbyte then
    let len := blockLen nbyte count offset
    if len = 512 then
      let bus := ataWriteBlock bus drive (offset / 512) buffer count
      writeLoop drive buffer nbyte (count + len) ((offset + len) % 2 ^ 64) blkBuf bus
    else
      let blkBuf := (ataReadBlock bus drive (offset / 512) blkBuf 0).2
      let blkBuf := blkBuf.write (offset % 512) (buffer.read count len)
      let bus := ataWriteBlock bus drive (offset / 512) blkBuf 0
      writeLoop drive buffer nbyte (count + len) ((offset + len) % 2 ^ 64) blkBuf bus
  else (count, bus)
termination_by nbyte - count
decreasing_by
  all_goals
    have := blockLen_pos offset h
    omega

/-- `ata_write(file, buffer, nbyte, offset)`, on a file of the drive. -/
def ataWrite (bus : Bus) (drive : Drive) (blkBuf buffer : Memory) (nbyte offset : Nat) :
    Nat × Bus :=
  if drive.present then writeLoop drive buffer nbyte 0 offset blkBuf bus else (0, bus)

/-! ### Sectors -/

/-- The drive is the second one of its bus. -/
def Drive.slave (drive : Drive) : Bool :=
  drive.ms != 0

/-- The drive exists, and its commands succeed. -/
structure Works (bus : Bus) (drive : Drive) : Prop where
  present : drive.present = true
  ms : drive.ms = 0 ∨ drive.ms = 0x10
  ready : ∀ r, bus.status r &&& (ataDf ||| ataErr) = 0 ∧ bus.status r &&& ataDrq ≠ 0

/-- The bytes of the drive, one sector after the other. -/
def flat (bus : Bus) (drive : Drive) : Memory :=
  fun x => bus.sectors drive.slave (x / 512) (x % 512)

theorem byte_sum {n : Nat} (h : n < 2 ^ 24) :
  (UInt8.ofNat (n / 256 ^ 0)).toNat + 2 ^ 8 * (UInt8.ofNat (n / 256 ^ 1)).toNat
    + 2 ^ 16 * (UInt8.ofNat (n / 256 ^ 2)).toNat = n ∧ UInt8.ofNat (n / 256 ^ 3) = 0
  := by
  constructor
  · simp only [UInt8.toNat_ofNat']
    omega
  · have hzero : n / 256 ^ 3 = 0 := by
      apply Nat.div_eq_of_lt
      omega
    rw [hzero]
    rfl

theorem device_bits :
  ∀ (n : Fin 16) (ms : UInt8), ms = 0 ∨ ms = 0x10 →
    (((0xE0 : UInt8) ||| ms ||| UInt8.ofNat n ||| (0 &&& 0xF)) &&& 0xF).toNat = n
      ∧ ((((0xE0 : UInt8) ||| ms ||| UInt8.ofNat n ||| (0 &&& 0xF)) &&& 0x10) != 0) = (ms != 0)
  := by
  rintro n ms (rfl | rfl)
  · revert n
    decide
  · revert n
    decide

/-- The registers address the sector of the block number, on the drive. -/
theorem blockCommand_sector {drive : Drive} {lba : Nat} (command : UInt8)
    (hms : drive.ms = 0 ∨ drive.ms = 0x10) (hlba : lba < 2 ^ 28) :
  (ataSendCommand (blockCommand drive lba command)).sector = lba
    ∧ (ataSendCommand (blockCommand drive lba command)).slave = drive.slave
  := by
  have hlow : lba &&& 0xFFFFFF = lba % 2 ^ 24 := Nat.and_two_pow_sub_one_eq_mod lba 24
  have hhigh : (lba >>> 24) &&& 0xF = lba / 2 ^ 24 := by
    have hmod : (lba >>> 24) &&& 0xF = (lba >>> 24) % 2 ^ 4 :=
      Nat.and_two_pow_sub_one_eq_mod (lba >>> 24) 4
    rw [hmod, Nat.shiftRight_eq_div_pow]
    omega
  obtain ⟨hsum, hzero⟩ := byte_sum (n := lba % 2 ^ 24) (by omega)
  have hnibble : lba / 2 ^ 24 < 16 := by omega
  obtain ⟨hdevice, hslave⟩ := device_bits ⟨lba / 2 ^ 24, hnibble⟩ drive.ms hms
  constructor
  · simp only [Registers.sector, ataSendCommand, blockCommand, Cmd.lbaSep]
    rw [hlow, hhigh, hzero, hsum, hdevice]
    simp only
    omega
  · simp only [Registers.slave, ataSendCommand, blockCommand, Cmd.lbaSep]
    rw [hlow, hhigh, hzero]
    apply hslave

section Block

variable {bus : Bus} {drive : Drive} {lba : Nat} (h : Works bus drive) (hlba : lba < 2 ^ 28)

include h hlba

/-- `ata_read_block` reads the bytes of the block. -/
theorem ataReadBlock_eq (buffer : Memory) (pos : Nat) :
  ataReadBlock bus drive lba buffer pos
    = (0, buffer.write pos ((flat bus drive).read (512 * lba) 512))
  := by
  obtain ⟨hsector, hslave⟩ := blockCommand_sector ataCmdReadSectors h.ms hlba
  obtain ⟨hfault, hdrq⟩ := h.ready (ataSendCommand (blockCommand drive lba ataCmdReadSectors))
  have hblock : (bus.sectors drive.slave lba).read 0 512
      = (flat bus drive).read (512 * lba) 512 := by
    apply Memory.read_congr
    intro i hi
    have hdiv : (512 * lba + i) / 512 = lba := by omega
    have hmod : (512 * lba + i) % 512 = i := by omega
    simp only [flat, hdiv, hmod, Nat.zero_add]
  rw [ataReadBlock, readRetry]
  simp only [hsector, hslave]
  rw [if_neg, hblock]
  rintro (hne | heq)
  · apply hne hfault
  · apply hdrq heq

/-- `ata_write_block` changes the bytes of the block. -/
theorem ataWriteBlock_eq (buffer : Memory) (pos : Nat) :
  flat (ataWriteBlock bus drive lba buffer pos) drive
    = (flat bus drive).write (512 * lba) (buffer.read pos 512)
  := by
  obtain ⟨hsector, hslave⟩ := blockCommand_sector ataCmdWriteSectors h.ms hlba
  funext x
  rw [Memory.write_read]
  simp only [flat, ataWriteBlock, Bus.setSector, hsector, hslave, true_and]
  by_cases hx : x / 512 = lba
  · rw [if_pos hx, if_pos (by omega), Memory.write_read, if_pos (by omega)]
    congr 1
    omega
  · rw [if_neg hx, if_neg (by omega)]

/-- `ata_write_block` leaves the other drive alone. -/
theorem ataWriteBlock_other (buffer : Memory) (pos : Nat) :
  (ataWriteBlock bus drive lba buffer pos).sectors (!drive.slave) = bus.sectors (!drive.slave)
    ∧ Works (ataWriteBlock bus drive lba buffer pos) drive
  := by
  obtain ⟨-, hslave⟩ := blockCommand_sector ataCmdWriteSectors h.ms hlba
  constructor
  · funext n
    simp only [ataWriteBlock, Bus.setSector, hslave]
    rw [if_neg]
    rintro ⟨hne, -⟩
    apply Bool.not_ne_self drive.slave hne
  · exact ⟨h.present, h.ms, h.ready⟩

end Block

/-! ### The loops -/

section Loop

variable {bus : Bus} {drive : Drive} {nbyte count offset : Nat}

theorem block_lt {len : Nat} (hlen : 0 < len) (h : offset + len ≤ 2 ^ 37) :
  offset / 512 < 2 ^ 28 ∧ (offset + len) % 2 ^ 64 = offset + len
  := by
  omega

/-- One turn of `ata_read`: the next bytes of the drive are copied to the buffer. -/
theorem readLoop_step (h : Works bus drive) (hcount : count < nbyte)
    (hrange : offset + (nbyte - count) ≤ 2 ^ 37) (blkBuf buffer : Memory) :
  ∃ blkBuf', readLoop bus drive nbyte count offset blkBuf buffer
    = readLoop bus drive nbyte (count + blockLen nbyte count offset)
        (offset + blockLen nbyte count offset) blkBuf'
        (buffer.write count ((flat bus drive).read offset (blockLen nbyte count offset)))
  := by
  obtain ⟨hpos, hle, hblock⟩ := blockLen_pos offset hcount
  obtain ⟨hlba, hmod⟩ := block_lt hpos (by omega : offset + blockLen nbyte count offset ≤ 2 ^ 37)
  rw [readLoop, dif_pos hcount]
  simp only [ataReadBlock_eq h hlba, hmod]
  split_ifs with hlen
  · refine ⟨blkBuf, ?_⟩
    have hstart : 512 * (offset / 512) = offset := by omega
    rw [hstart, hlen]
  · refine ⟨blkBuf.write 0 ((flat bus drive).read (512 * (offset / 512)) 512), ?_⟩
    have hread : (blkBuf.write 0 ((flat bus drive).read (512 * (offset / 512)) 512)).read
        (offset % 512) (blockLen nbyte count offset)
        = (flat bus drive).read offset (blockLen nbyte count offset) := by
      apply Memory.read_congr
      intro i hi
      rw [Memory.write_read, if_pos (by omega)]
      congr 1
      omega
    rw [hread]

/-- `ata_read` copies the bytes of the drive that are left. -/
theorem readLoop_spec (h : Works bus drive) (hcount : count ≤ nbyte)
    (hrange : offset + (nbyte - count) ≤ 2 ^ 37) (blkBuf buffer : Memory) :
  readLoop bus drive nbyte count offset blkBuf buffer
    = (nbyte, buffer.write count ((flat bus drive).read offset (nbyte - count)))
  := by
  induction hk : nbyte - count using Nat.strongRecOn generalizing count offset blkBuf buffer with
  | ind k ih =>
      by_cases hlt : count < nbyte
      · obtain ⟨hpos, hle, -⟩ := blockLen_pos offset hlt
        obtain ⟨blkBuf', hstep⟩ := readLoop_step h hlt hrange blkBuf buffer
        have hsplit : k = blockLen nbyte count offset
            + (nbyte - (count + blockLen nbyte count offset)) := by omega
        rw [hstep, ih _ (by omega) hle (by omega) _ _ rfl]
        rw [hsplit, Memory.read_add, Memory.write_append, Memory.read_length]
      · obtain rfl : count = nbyte := by omega
        obtain rfl : k = 0 := by omega
        rw [readLoop, dif_neg hlt]
        congr 1
        funext x
        rw [Memory.write_read, if_neg (by omega)]

/-- The drive has been written to: its bytes have changed, and nothing else has. -/
structure Written (bus bus' : Bus) (drive : Drive) (bytes : Memory) : Prop where
  flat_eq : flat bus' drive = bytes
  other : bus'.sectors (!drive.slave) = bus.sectors (!drive.slave)
  works : Works bus' drive

/-- One turn of `ata_write`: the next bytes of the buffer are copied to the drive. -/
theorem writeLoop_step (h : Works bus drive) (hcount : count < nbyte)
    (hrange : offset + (nbyte - count) ≤ 2 ^ 37) (blkBuf buffer : Memory) :
  ∃ blkBuf' bus', writeLoop drive buffer nbyte count offset blkBuf bus
      = writeLoop drive buffer nbyte (count + blockLen nbyte count offset)
          (offset + blockLen nbyte count offset) blkBuf' bus'
    ∧ Written bus bus' drive
        ((flat bus drive).write offset (buffer.read count (blockLen nbyte count offset)))
  := by
  obtain ⟨hpos, hle, hblock⟩ := blockLen_pos offset hcount
  obtain ⟨hlba, hmod⟩ := block_lt hpos (by omega : offset + blockLen nbyte count offset ≤ 2 ^ 37)
  rw [writeLoop, dif_pos hcount]
  simp only [ataReadBlock_eq h hlba, hmod]
  split_ifs with hlen
  · obtain ⟨hother, hworks⟩ := ataWriteBlock_other h hlba buffer count
    refine ⟨blkBuf, _, rfl, ?_, hother, hworks⟩
    have hstart : 512 * (offset / 512) = offset := by omega
    rw [ataWriteBlock_eq h hlba, hstart, hlen]
  · refine ⟨_, _, rfl, ⟨?_, ?_, ?_⟩⟩
    · rw [ataWriteBlock_eq h hlba]
      funext x
      rw [Memory.write_read, Memory.write_read (flat bus drive) buffer]
      -- the block is written back with the new bytes in it
      by_cases hnew : offset ≤ x ∧ x < offset + blockLen nbyte count offset
      · rw [if_pos hnew, if_pos (by omega), Memory.write_read, if_pos (by omega)]
        congr 1
        omega
      · rw [if_neg hnew]
        by_cases hin : 512 * (offset / 512) ≤ x ∧ x < 512 * (offset / 512) + 512
        · rw [if_pos hin, Memory.write_read, if_neg (by omega), Memory.write_read,
            if_pos (by omega)]
          congr 1
          omega
        · rw [if_neg hin]
    · apply (ataWriteBlock_other h hlba _ _).1
    · apply (ataWriteBlock_other h hlba _ _).2

/-- `ata_write` copies the bytes of the buffer that are left. -/
theorem writeLoop_spec (h : Works bus drive) (hcount : count ≤ nbyte)
    (hrange : offset + (nbyte - count) ≤ 2 ^ 37) (blkBuf buffer : Memory) :
  (writeLoop drive buffer nbyte count offset blkBuf bus).1 = nbyte
    ∧ Written bus (writeLoop drive buffer nbyte count offset blkBuf bus).2 drive
        ((flat bus drive).write offset (buffer.read count (nbyte - count)))
  := by
  induction hk : nbyte - count using Nat.strongRecOn generalizing count offset blkBuf bus with
  | ind k ih =>
      by_cases hlt : count < nbyte
      · obtain ⟨hpos, hle, -⟩ := blockLen_pos offset hlt
        obtain ⟨blkBuf', bus', hstep, hwritten⟩ := writeLoop_step h hlt hrange blkBuf buffer
        have hsplit : k = blockLen nbyte count offset
            + (nbyte - (count + blockLen nbyte count offset)) := by omega
        have hrange' : offset + blockLen nbyte count offset
            + (nbyte - (count + blockLen nbyte count offset)) ≤ 2 ^ 37 := by omega
        obtain ⟨hcount', hwritten'⟩ := ih _ (by omega) hwritten.works hle hrange' blkBuf' rfl
        rw [hstep]
        refine ⟨hcount', ?_, ?_, hwritten'.works⟩
        · rw [hwritten'.flat_eq, hwritten.flat_eq]
          rw [hsplit, Memory.read_add, Memory.write_append, Memory.read_length]
        · rw [hwritten'.other, hwritten.other]
      · obtain rfl : count = nbyte := by omega
        obtain rfl : k = 0 := by omega
        rw [writeLoop, dif_neg hlt]
        refine ⟨rfl, ?_, rfl, h⟩
        funext x
        rw [Memory.write_read, if_neg (by omega)]

end Loop

/-! ### Reads and writes of a flat array -/

/-- A call of `ata_read` or `ata_write`, with what is in the local and in the caller's buffer. -/
inductive Call where
  | read (blkBuf buffer : Memory) (nbyte offset : Nat)
  | write (blkBuf buffer : Memory) (nbyte offset : Nat)

/-- The call stays within the sectors that a command can address. -/
def Call.InRange : Call → Prop
  | .read _ _ nbyte offset => offset + nbyte ≤ 2 ^ 37
  | .write _ _ nbyte offset => offset + nbyte ≤ 2 ^ 37

/-- A call on a drive: the number returned, the caller's buffer afterwards, and the bus. -/
def perform (drive : Drive) (bus : Bus) : Call → (Nat × Memory) × Bus
  | .read blkBuf buffer nbyte offset => (ataRead bus drive blkBuf buffer nbyte offset, bus)
  | .write blkBuf buffer nbyte offset =>
      let r := ataWrite bus drive blkBuf buffer nbyte offset
      ((r.1, buffer), r.2)

/-- The same call on an array of bytes. -/
def performFlat (bytes : Memory) : Call → (Nat × Memory) × Memory
  | .read _ buffer nbyte offset => ((nbyte, buffer.write 0 (bytes.read offset nbyte)), bytes)
  | .write _ buffer nbyte offset => ((nbyte, buffer), bytes.write offset (buffer.read 0 nbyte))

/-- A sequence of calls, with the results of all of them. -/
def performAll {σ : Type} (f : σ → Call → (Nat × Memory) × σ) : σ → List Call → List (Nat × Memory) × σ
  | s, [] => ([], s)
  | s, c :: cs =>
      let rest := performAll f (f s c).2 cs
      ((f s c).1 :: rest.1, rest.2)

variable {bus : Bus} {drive : Drive}

theorem ataRead_eq (h : Works bus drive) {nbyte offset : Nat} (hrange : offset + nbyte ≤ 2 ^ 37)
    (blkBuf buffer : Memory) :
  ataRead bus drive blkBuf buffer nbyte offset
    = (nbyte, buffer.write 0 ((flat bus drive).read offset nbyte))
  := by
  rw [ataRead, if_pos h.present, readLoop_spec h (Nat.zero_le nbyte) hrange]
  rfl

theorem ataWrite_eq (h : Works bus drive) {nbyte offset : Nat} (hrange : offset + nbyte ≤ 2 ^ 37)
    (blkBuf buffer : Memory) :
  (ataWrite bus drive blkBuf buffer nbyte offset).1 = nbyte
    ∧ Written bus (ataWrite bus drive blkBuf buffer nbyte offset).2 drive
        ((flat bus drive).write offset (buffer.read 0 nbyte))
  := by
  rw [ataWrite, if_pos h.present]
  apply writeLoop_spec h (Nat.zero_le nbyte) hrange

/-- A call on a drive is the call on its bytes. -/
theorem perform_eq (h : Works bus drive) {c : Call} (hc : c.InRange) :
  (perform drive bus c).1 = (performFlat (flat bus drive) c).1
    ∧ flat (perform drive bus c).2 drive = (performFlat (flat bus drive) c).2
    ∧ Works (perform drive bus c).2 drive
  := by
  cases c with
  | read blkBuf buffer nbyte offset =>
      exact ⟨ataRead_eq h hc blkBuf buffer, rfl, h⟩
  | write blkBuf buffer nbyte offset =>
      obtain ⟨hcount, hwritten⟩ := ataWrite_eq h hc blkBuf buffer
      refine ⟨?_, hwritten.flat_eq, hwritten.works⟩
      simp only [perform, performFlat, hcount]

/-- A drive whose commands succeed is a flat array of bytes: `ata_read` delivers and `ata_write`
changes exactly the bytes asked for, and so does every sequence of these calls. -/
theorem disk_is_flat (h : Works bus drive) :
  (∀ blkBuf buffer nbyte offset, offset + nbyte ≤ 2 ^ 37 →
      ataRead bus drive blkBuf buffer nbyte offset
        = (nbyte, buffer.write 0 ((flat bus drive).read offset nbyte)))
    ∧ (∀ blkBuf buffer nbyte offset, offset + nbyte ≤ 2 ^ 37 →
      (ataWrite bus drive blkBuf buffer nbyte offset).1 = nbyte
        ∧ flat (ataWrite bus drive blkBuf buffer nbyte offset).2 drive
          = (flat bus drive).write offset (buffer.read 0 nbyte)
        ∧ (ataWrite bus drive blkBuf buffer nbyte offset).2.sectors (!drive.slave)
          = bus.sectors (!drive.slave))
    ∧ ∀ calls : List Call, (∀ c ∈ calls, c.InRange) →
      (performAll (perform drive) bus calls).1 = (performAll performFlat (flat bus drive) calls).1
        ∧ flat (performAll (perform drive) bus calls).2 drive
          = (performAll performFlat (flat bus drive) calls).2
  := by
  refine ⟨?_, ?_, ?_⟩
  · intro blkBuf buffer nbyte offset hrange
    apply ataRead_eq h hrange
  · intro blkBuf buffer nbyte offset hrange
    obtain ⟨hcount, hwritten⟩ := ataWrite_eq h hrange blkBuf buffer
    exact ⟨hcount, hwritten.flat_eq, hwritten.other⟩
  · intro calls hcalls
    induction calls generalizing bus with
    | nil => exact ⟨rfl, rfl⟩
    | cons c calls ih =>
        rw [List.forall_mem_cons] at hcalls
        obtain ⟨hresult, hflat, hworks⟩ := perform_eq h hcalls.1
        obtain ⟨hrest, hrestFlat⟩ := ih hworks hcalls.2
        simp only [performAll]
        rw [hresult, hrest, hrestFlat, hflat]
        exact ⟨rfl, rfl⟩

/-- A bus whose commands succeed, with the number of the sector in every byte. -/
def numberedBus : Bus where
  sectors := fun _ n _ => UInt8.ofNat n
  status := fun _ => 0x48

theorem numberedBus_works :
  Works numberedBus ⟨true, 0x10⟩
  := by
  have hstatus : ((0x48 : UInt8) &&& (ataDf ||| ataErr)) = 0 ∧ ((0x48 : UInt8) &&& ataDrq) ≠ 0 := by
    decide
  exact ⟨rfl, Or.inr rfl, fun _ => hstatus⟩

/-- A write across three sectors of the second drive, and a read of what it has changed. -/
theorem disk_is_flat_numbered :
  (ataWrite numberedBus ⟨true, 0x10⟩ (fun _ => 0) UInt8.ofNat 1000 300).1 = 1000
    ∧ (performAll (perform ⟨true, 0x10⟩) numberedBus
        [.write (fun _ => 0) UInt8.ofNat 1000 300, .read (fun _ => 0) (fun _ => 0) 1000 300]).1
      = [(1000, UInt8.ofNat), (1000, Memory.write (fun _ => 0) 0
          (((flat numberedBus ⟨true, 0x10⟩).write 300 (Memory.read UInt8.ofNat 0 1000)).read
            300 1000))]
  := by
  have hrange : 300 + 1000 ≤ 2 ^ 37 := by decide
  obtain ⟨-, hwrite, hcalls⟩ := disk_is_flat numberedBus_works
  refine ⟨(hwrite _ _ 1000 300 hrange).1, ?_⟩
  apply (hcalls _ _).1.trans
  · rfl
  · intro c hc
    rw [List.mem_cons, List.mem_singleton] at hc
    obtain rfl | rfl := hc
    · apply hrange
    · apply hrange

end Ata
