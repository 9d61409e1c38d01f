import Mittos64.Fs.AtaDamage

/-!
# Two offsets of a disk

The offset of a read or a write comes from the position of a descriptor and may be any number of 64
bits.  The block number of an offset has 55 bits, and a command addresses a sector by 28 of them:
bytes whose offsets agree modulo `2 ^ 37` are the same byte of the drive (`separate_iff`).  The other
bits are dropped, not checked.  The drives of `Ata`, which report a status by their registers, are
drives with faults (`ataRead_ofBus`, `ataWrite_ofBus`).
-/

namespace Ata.Faulty

/-! ### Drives whose status depends on the registers -/

/-- What a bus reports to a drive in a call at `offset`.  A sector takes the bytes that are sent
whatever the status is. -/
def ofBus (bus : Bus) (drive : Drive) (offset : Nat) : Faults where
  read count _ := bus.status
    (ataSendCommand (blockCommand drive ((offset + count) % 2 ^ 64 / 512) ataCmdReadSectors))
  write count := bus.status
    (ataSendCommand (blockCommand drive ((offset + count) % 2 ^ 64 / 512) ataCmdWriteSectors))
  rejected sector block := sector.write 0 block

theorem readRetry_ofBus (bus : Bus) (drive : Drive) (lba : Nat) (buffer : Memory)
    (pos retries : Nat) :
  readRetry bus.sectors drive lba
      (fun _ => bus.status (ataSendCommand (blockCommand drive lba ataCmdReadSectors))) buffer pos
      retries
    = Ata.readRetry bus drive lba buffer pos retries
  := by
  induction retries with
  | zero => rfl
  | succ retries ih => rw [readRetry, Ata.readRetry, ih]

theorem ataReadBlock_ofBus (bus : Bus) (drive : Drive) {count offset' : Nat} (offset : Nat)
    (hoffset : offset' = (offset + count) % 2 ^ 64) (buffer : Memory) (pos : Nat) :
  ataReadBlock bus.sectors drive (offset' / 512) ((ofBus bus drive offset).read count) buffer pos
    = Ata.ataReadBlock bus drive (offset' / 512) buffer pos
  := by
  subst hoffset
  apply readRetry_ofBus

theorem ataWriteBlock_ofBus (bus : Bus) (drive : Drive) (lba : Nat) (status : UInt8)
    (buffer : Memory) (pos : Nat) :
  ataWriteBlock (fun sector block => sector.write 0 block) bus.sectors drive lba status buffer pos
    = (Ata.ataWriteBlock bus drive lba buffer pos).sectors
  := by
  funext s n
  simp only [ataWriteBlock, ite_self, Ata.ataWriteBlock, Bus.setSector]

theorem readLoop_ofBus (bus : Bus) (drive : Drive) (offset : Nat) {nbyte count offset' : Nat}
    (hoffset : offset' = (offset + count) % 2 ^ 64) (blkBuf buffer : Memory) :
  readLoop (ofBus bus drive offset) bus.sectors drive nbyte count offset' blkBuf buffer
    = Ata.readLoop bus drive nbyte count offset' blkBuf buffer
  := by
  induction hk : nbyte - count using Nat.strongRecOn
    generalizing count offset' blkBuf buffer with
  | ind k ih =>
      rw [readLoop, Ata.readLoop]
      split_ifs with hlt
      · obtain ⟨hpos, hle, -⟩ := blockLen_pos offset' hlt
        have hless : nbyte - (count + blockLen nbyte count offset') < k := by omega
        have hnext : (offset' + blockLen nbyte count offset') % 2 ^ 64
            = (offset + (count + blockLen nbyte count offset')) % 2 ^ 64 := by omega
        simp only [ataReadBlock_ofBus bus drive offset hoffset, ih _ hless hnext _ _ rfl]
      · rfl

/-- `ata_read` on a bus is `ata_read` with the faults of the bus. -/
theorem ataRead_ofBus (bus : Bus) (drive : Drive) (blkBuf buffer : Memory) {nbyte offset : Nat}
    (hoffset : offset < 2 ^ 64) :
  ataRead (ofBus bus drive offset) bus.sectors drive blkBuf buffer nbyte offset
    = Ata.ataRead bus drive blkBuf buffer nbyte offset
  := by
  rw [ataRead, Ata.ataRead, readLoop_ofBus bus drive offset (by omega)]

theorem writeLoop_ofBus (drive : Drive) (buffer : Memory) (offset : Nat) {bus bus' : Bus}
    (hstatus : bus'.status = bus.status) {nbyte count offset' : Nat}
    (hoffset : offset' = (offset + count) % 2 ^ 64) (blkBuf : Memory) :
  writeLoop (ofBus bus drive offset) drive buffer nbyte count offset' blkBuf bus'.sectors
    = (Ata.writeLoop drive buffer nbyte count offset' blkBuf bus').map id Bus.sectors
  := by
  have hread : ∀ (bus' : Bus), bus'.status = bus.status → ∀ count,
      (ofBus bus drive offset).read count = (ofBus bus' drive offset).read count := by
    intro bus' hstatus count
    simp only [ofBus, hstatus]
  induction hk : nbyte - count using Nat.strongRecOn
    generalizing count offset' blkBuf bus' with
  | ind k ih =>
      rw [writeLoop, Ata.writeLoop]
      split_ifs with hlt
      · obtain ⟨hpos, hle, -⟩ := blockLen_pos offset' hlt
        have hless : nbyte - (count + blockLen nbyte count offset') < k := by omega
        have hnext : (offset' + blockLen nbyte count offset') % 2 ^ 64
            = (offset + (count + blockLen nbyte count offset')) % 2 ^ 64 := by omega
        simp only [hread bus' hstatus, ataReadBlock_ofBus bus' drive offset hoffset]
        split_ifs
        · rw [← ih _ hless (by exact hstatus) hnext _ rfl, ← ataWriteBlock_ofBus]
          rfl
        · rw [← ih _ hless (by exact hstatus) hnext _ rfl, ← ataWriteBlock_ofBus]
          rfl
      · rfl

/-- `ata_write` on a bus is `ata_write` with the faults of the bus. -/
theorem ataWrite_ofBus (bus : Bus) (drive : Drive) (blkBuf buffer : Memory) {nbyte offset : Nat}
    (hoffset : offset < 2 ^ 64) :
  ataWrite (ofBus bus drive offset) bus.sectors drive blkBuf buffer nbyte offset
    = (Ata.ataWrite bus drive blkBuf buffer nbyte offset).map id Bus.sectors
  := by
  rw [ataWrite, Ata.ataWrite]
  split_ifs
  · apply writeLoop_ofBus drive buffer offset rfl
    omega
  · rfl

/-! ### Requests whose commands succeed -/

/-- All commands of the request succeed, a read after some attempts. -/
def Succeeds (faults : Faults) (nbyte offset : Nat) : Prop :=
  ∀ p ∈ parts nbyte 0 offset, ¬ ReadFails (faults.read p.count) ∧ Accepted (faults.write p.count)

/-- Two requests, the first one of a write and the second one of a read, on a drive. -/
structure Pair where
  writeFaults : Faults
  readFaults : Faults
  drive : Drive
  writeLen : Nat
  writeOffset : Nat
  readLen : Nat
  readOffset : Nat

/-- What the drive and the buffers hold. -/
structure Contents where
  sectors : Sectors
  writeBlkBuf : Memory
  writeBuffer : Memory
  readBlkBuf : Memory
  readBuffer : Memory

/-- Ones are written to a drive of zeros. -/
def Pair.ones : Contents where
  sectors _ _ _ := 0
  writeBlkBuf _ := 0
  writeBuffer _ := 1
  readBlkBuf _ := 0
  readBuffer _ := 0

namespace Pair

/-- `ata_write` for the first request. -/
def write (r : Pair) (c : Contents) : Nat × Sectors :=
  ataWrite r.writeFaults c.sectors r.drive c.writeBlkBuf c.writeBuffer r.writeLen r.writeOffset

/-- `ata_read` for the second request, when the drive holds the given sectors. -/
def read (r : Pair) (c : Contents) (sectors : Sectors) : Nat × Memory :=
  ataRead r.readFaults sectors r.drive c.readBlkBuf c.readBuffer r.readLen r.readOffset

/-- The write does not change what the read returns. -/
def Separate (r : Pair) (c : Contents) : Prop :=
  r.read c (r.write c).2 = r.read c c.sectors

/-- No byte counts whose block number does not fit the address of a command. -/
def Rejects (r : Pair) (c : Contents) : Prop :=
  (∀ i < (r.write c).1, (r.writeOffset + i) % 2 ^ 64 / 512 < 2 ^ 28)
    ∧ ∀ j < (r.read c c.sectors).1, (r.readOffset + j) % 2 ^ 64 / 512 < 2 ^ 28

/-- The commands of both requests succeed, on the master or the slave of a bus. -/
structure Valid (r : Pair) : Prop where
  ms : r.drive.ms = 0 ∨ r.drive.ms = 0x10
  writeOffset_lt : r.writeOffset < 2 ^ 64
  readOffset_lt : r.readOffset < 2 ^ 64
  write_succeeds : Succeeds r.writeFaults r.writeLen r.writeOffset
  read_succeeds : Succeeds r.readFaults r.readLen r.readOffset

/-- No byte offset is in both requests. -/
def Apart (r : Pair) : Prop :=
  ∀ i < r.writeLen, ∀ j < r.readLen,
    (r.writeOffset + i) % 2 ^ 64 ≠ (r.readOffset + j) % 2 ^ 64

/-- All the bytes of both requests have a block number that fits the address of a command. -/
def Addressable (r : Pair) : Prop :=
  (∀ i < r.writeLen, (r.writeOffset + i) % 2 ^ 64 < 2 ^ 37)
    ∧ ∀ j < r.readLen, (r.readOffset + j) % 2 ^ 64 < 2 ^ 37

end Pair

variable {faults : Faults} {drive : Drive} (hms : drive.ms = 0 ∨ drive.ms = 0x10)
  {nbyte offset : Nat}

section Bytes

include hms

/-- One turn of `ata_write`, for a byte that a part of the request goes to or none does. -/
theorem writeStep_byte (hoffset : offset < 2 ^ 64) (hsucceeds : Succeeds faults nbyte offset)
    {p : Part} (hp : p ∈ parts nbyte 0 offset) (buffer : Memory) (s : Memory × Sectors) (z : Nat) :
  (∃ i < nbyte, p.count ≤ i ∧ i < p.count + p.len ∧ (offset + i) % 2 ^ 37 = z
      ∧ flat (writeStep faults drive buffer s p).2 drive z = buffer i)
    ∨ ((∀ i, p.count ≤ i → i < p.count + p.len → (offset + i) % 2 ^ 37 ≠ z)
      ∧ flat (writeStep faults drive buffer s p).2 drive z = flat s.2 drive z)
  := by
  have hpart := isPart_of_parts hoffset hp
  obtain ⟨hpos, hend, hblock⟩ := hpart.bounds
  have hoff := hpart.offset_eq
  obtain ⟨hreads, haccepted⟩ := hsucceeds p hp
  rw [writeStep_flat hms hblock haccepted, if_neg hreads]
  by_cases hin : z / 512 = p.offset / 512 % 2 ^ 28
      ∧ p.offset % 512 ≤ z % 512 ∧ z % 512 < p.offset % 512 + p.len
  · left
    refine ⟨p.count + (z % 512 - p.offset % 512), by omega, by omega, by omega, by omega, ?_⟩
    rw [if_pos hin.1, if_pos hin.2]
  · right
    constructor
    · intro i hle hlt heq
      obtain ⟨hsector, hbyte⟩ := hpart.address hle hlt
      omega
    · split_ifs with hsector hbyte
      · exact (hin ⟨hsector, hbyte⟩).elim
      · rfl
      · rfl

/-- A byte of the drive that no byte of the request goes to keeps its value. -/
theorem ataWrite_kept (hoffset : offset < 2 ^ 64) (hsucceeds : Succeeds faults nbyte offset)
    (h : drive.present = true) (sectors : Sectors) (blkBuf buffer : Memory) {z : Nat}
    (hz : ∀ i < nbyte, (offset + i) % 2 ^ 37 ≠ z) :
  flat (ataWrite faults sectors drive blkBuf buffer nbyte offset).2 drive z = flat sectors drive z
  := by
  rw [ataWrite_present h]
  apply foldl_invariant (P := fun s : Memory × Sectors => flat s.2 drive z = flat sectors drive z)
  · intro p hp s hs
    obtain ⟨i, hi, -, -, heq, -⟩ | ⟨-, hkept⟩ :=
      writeStep_byte hms hoffset hsucceeds hp buffer s z
    · exact (hz i hi heq).elim
    · rw [hkept, hs]
  · rfl

/-- A byte of the drive that a byte of the request goes to gets the value that all bytes of the
buffer have. -/
theorem ataWrite_const (hoffset : offset < 2 ^ 64) (hsucceeds : Succeeds faults nbyte offset)
    (h : drive.present = true) (sectors : Sectors) (blkBuf : Memory) (c : UInt8) {i : Nat}
    (hi : i < nbyte) :
  flat (ataWrite faults sectors drive blkBuf (fun _ => c) nbyte offset).2 drive
    ((offset + i) % 2 ^ 37) = c
  := by
  obtain ⟨p, hp, hle, hlt⟩ : ∃ p ∈ parts nbyte 0 offset, p.count ≤ i ∧ i < p.count + p.len :=
    exists_part (Nat.zero_le i) hi
  obtain ⟨before, after, hsplit⟩ := List.append_of_mem hp
  have hstep := fun q hq s => writeStep_byte hms hoffset hsucceeds (p := q) hq (fun _ => c) s
    ((offset + i) % 2 ^ 37)
  rw [ataWrite_present h]
  rw [hsplit] at hstep ⊢
  apply foldl_establish (P := fun _ => True)
    (Q := fun s : Memory × Sectors => flat s.2 drive ((offset + i) % 2 ^ 37) = c)
  · simp only [implies_true]
  · intro s _
    obtain ⟨_, -, -, -, -, hwritten⟩ | ⟨hnone, -⟩ := hstep p (by simp) s
    · exact hwritten
    · exact (hnone i hle hlt rfl).elim
  · intro q hq s _ hs
    obtain ⟨_, -, -, -, -, hwritten⟩ | ⟨-, hkept⟩ := hstep q (by simp [hq]) s
    · exact hwritten
    · rw [hkept, hs]
  · trivial

/-- `ata_read` leaves what is behind the request in the buffer. -/
theorem ataRead_behind (hoffset : offset < 2 ^ 64) (h : drive.present = true) (sectors : Sectors)
    (blkBuf buffer : Memory) {x : Nat} (hx : nbyte ≤ x) :
  (ataRead faults sectors drive blkBuf buffer nbyte offset).2 x = buffer x
  := by
  rw [ataRead_present h]
  apply foldl_invariant (P := fun s : Memory × Memory => s.2 x = buffer x)
  · intro p hp s hs
    obtain ⟨-, hend, hblock⟩ := (isPart_of_parts hoffset hp).bounds
    rw [readStep_buffer hms hblock, if_neg (by omega), hs]
  · rfl

end Bytes

/-! ### Two requests -/

namespace Pair

variable {r : Pair}

/-- A write does not change what a read returns, whatever the drive and the buffers hold, exactly if
no offsets of their bytes agree modulo `2 ^ 37`. -/
theorem separate_iff (h : r.Valid) :
  (∀ c, r.Separate c) ↔ r.drive.present = false
    ∨ ∀ i < r.writeLen, ∀ j < r.readLen,
        (r.writeOffset + i) % 2 ^ 37 ≠ (r.readOffset + j) % 2 ^ 37
  := by
  have hreads : ∀ p ∈ parts r.readLen 0 r.readOffset, ¬ ReadFails (r.readFaults.read p.count) :=
    fun p hp => (h.read_succeeds p hp).1
  constructor
  · intro hall
    by_contra hnot
    rw [not_or, Bool.not_eq_false] at hnot
    obtain ⟨hpresent, hnot⟩ := hnot
    apply hnot
    intro i hi j hj heq
    have hbuffer : ones.writeBuffer = fun _ => 1 := rfl
    have hbyte := congrFun (congrArg Prod.snd (hall ones)) j
    rw [read, read, ataRead_bytes h.ms h.readOffset_lt hpresent hreads _ _ _ hj,
      ataRead_bytes h.ms h.readOffset_lt hpresent hreads _ _ _ hj, write, ← heq, hbuffer,
      ataWrite_const h.ms h.writeOffset_lt h.write_succeeds hpresent _ _ 1 hi] at hbyte
    have hne : (1 : UInt8) ≠ 0 := by decide
    exact hne hbyte
  · intro hright c
    rw [Separate]
    cases hpresent : r.drive.present with
    | false =>
        rw [write, ataWrite, hpresent]
        rfl
    | true =>
        have hapart := hright.resolve_left (by rw [hpresent]; decide)
        apply Prod.ext
        · rw [read, read, ataRead_present hpresent, ataRead_present hpresent]
        · funext j
          by_cases hj : j < r.readLen
          · rw [read, read, ataRead_bytes h.ms h.readOffset_lt hpresent hreads _ _ _ hj,
              ataRead_bytes h.ms h.readOffset_lt hpresent hreads _ _ _ hj, write,
              ataWrite_kept h.ms h.writeOffset_lt h.write_succeeds hpresent]
            intro i hi
            apply hapart i hi j hj
          · rw [read, read, ataRead_behind h.ms h.readOffset_lt hpresent _ _ _ (by omega),
              ataRead_behind h.ms h.readOffset_lt hpresent _ _ _ (by omega)]

/-- Every byte of a request counts, whatever its block number is. -/
theorem rejects_iff (r : Pair) :
  (∀ c, r.Rejects c) ↔ r.drive.present = false ∨ r.Addressable
  := by
  cases hpresent : r.drive.present with
  | false =>
      simp only [true_or, iff_true]
      intro c
      constructor
      · intro i hi
        rw [write, ataWrite, hpresent] at hi
        cases hi
      · intro j hj
        rw [read, ataRead, hpresent] at hj
        cases hj
  | true =>
      have hcounts : ∀ c, (r.write c).1 = r.writeLen ∧ (r.read c c.sectors).1 = r.readLen := by
        intro c
        rw [write, read, ataWrite_present hpresent, ataRead_present hpresent]
        exact ⟨rfl, rfl⟩
      have hblock : ∀ x : Nat, x / 512 < 2 ^ 28 ↔ x < 2 ^ 37 := fun x =>
        Nat.div_lt_iff_lt_mul (by norm_num)
      constructor
      · intro hall
        obtain ⟨hwrite, hread⟩ := hall ones
        rw [(hcounts ones).1] at hwrite
        rw [(hcounts ones).2] at hread
        exact Or.inr ⟨fun i hi => (hblock _).mp (hwrite i hi),
          fun j hj => (hblock _).mp (hread j hj)⟩
      · rintro (habsent | ⟨hwrite, hread⟩) c
        · cases habsent
        · rw [Rejects, (hcounts c).1, (hcounts c).2]
          exact ⟨fun i hi => (hblock _).mpr (hwrite i hi), fun j hj => (hblock _).mpr (hread j hj)⟩

/-- For requests without a common byte offset: the write never changes what the read returns and no
byte with a block number that does not fit is taken, exactly if all their block numbers fit; and the
first part alone, exactly if no offsets of their bytes agree modulo `2 ^ 37`. -/
theorem noAliasing_iff (h : r.Valid) (hapart : r.Apart) :
  ((∀ c, r.Separate c ∧ r.Rejects c) ↔ r.drive.present = false ∨ r.Addressable)
    ∧ ((∀ c, r.Separate c) ↔ r.drive.present = false
      ∨ ∀ i < r.writeLen, ∀ j < r.readLen,
          (r.writeOffset + i) % 2 ^ 37 ≠ (r.readOffset + j) % 2 ^ 37)
  := by
  refine ⟨?_, separate_iff h⟩
  rw [forall_and, rejects_iff, separate_iff h]
  constructor
  · rintro ⟨-, hright⟩
    exact hright
  · intro hright
    refine ⟨hright.imp_right fun haddressable i hi j hj => ?_, hright⟩
    have hwrite := haddressable.1 i hi
    have hread := haddressable.2 j hj
    have hne := hapart i hi j hj
    omega

/-- Two requests for one byte on a drive without faults. -/
def bytes (writeOffset readOffset : Nat) : Pair where
  writeFaults := faultless
  readFaults := faultless
  drive := { present := true, ms := 0 }
  writeLen := 1
  writeOffset := writeOffset
  readLen := 1
  readOffset := readOffset

theorem bytes_valid {writeOffset readOffset : Nat} (hwrite : writeOffset < 2 ^ 64)
    (hread : readOffset < 2 ^ 64) :
  (bytes writeOffset readOffset).Valid
  where
  ms := Or.inl rfl
  writeOffset_lt := hwrite
  readOffset_lt := hread
  write_succeeds p _ := ⟨faultless_reads p.count, accepted_ataDrq⟩
  read_succeeds p _ := ⟨faultless_reads p.count, accepted_ataDrq⟩

/-- A write of the first byte changes what a read at `2 ^ 37` returns. -/
theorem bytes_alias :
  ¬ ∀ c, (bytes 0 (2 ^ 37)).Separate c
  := by
  rw [separate_iff (bytes_valid (by omega) (by omega)), not_or]
  constructor
  · decide
  · intro hne
    apply hne 0 Nat.zero_lt_one 0 Nat.zero_lt_one
    rfl

/-- The last addressable byte is apart from the first one. -/
theorem noAliasing_iff_bytes :
  (bytes 0 (2 ^ 37 - 1)).Separate ones ∧ (bytes 0 (2 ^ 37 - 1)).Rejects ones
  := by
  refine (noAliasing_iff (bytes_valid (by omega) (by omega)) ?_).1.mpr (Or.inr ⟨?_, ?_⟩) ones
  · intro i hi j hj
    simp only [bytes] at hi hj ⊢
    omega
  · intro i hi
    simp only [bytes] at hi ⊢
    omega
  · intro j hj
    simp only [bytes] at hj ⊢
    omega

end Pair

end Ata.Faulty
