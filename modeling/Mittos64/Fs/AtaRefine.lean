import Mittos64.Fs.AtaAlias
import Mittos64.Fs.AtaPorts

/-!
# The driver refines the disks

What the driver does port by port, on a controller that is not busy any more when a command begins,
is what `ata_read` and `ata_write` do with the statuses that the drives report.  So a drive that
accepts its commands is a flat array of bytes, however long it is busy with each of them.  The
driver selects the drive and the sector before it waits: on a controller that is still busy with the
data of a write when the next command begins, that command goes to the sector of the write.
-/

namespace Ata.Driver

open Ports

/-- The controller is not busy, has the drive, and is not busy any more when it has got the data of
a write. -/
structure Ready (drive : AtaDrive) (c : Controller) : Prop where
  busy : c.busy = 0
  status : c.status &&& ataBsy = 0
  present : c.present drive.slave = true
  ms : drive.ms = 0 ∨ drive.ms = 0x10
  settles : ∀ n, (c.answers n).settle = 0

/-- The statuses that a block is read with, when `retries` attempts are left. -/
def statuses (c : Controller) (retries k : Nat) : UInt8 :=
  (c.answers (c.issued + retries - k)).status

/-- The status is one that the drives report. -/
def Reported (c : Controller) (status : UInt8) : Prop :=
  ∃ n, status = (c.answers n).status

/-! ### One block -/

theorem moved_and {c : Controller} (hstatus : c.status &&& ataBsy = 0) :
  c.moved &&& ataBsy = 0
  := by
  rw [Controller.moved, UInt8.and_assoc, UInt8.and_comm (~~~ataDrq), ← UInt8.and_assoc, hstatus,
    UInt8.zero_and]

/-- The data of a command that has been answered. -/
theorem transfer_executed (c : Controller) (command : UInt8) :
  (c.executed command).transfer = c.transferOf command (c.answers c.issued)
  := rfl

theorem transfer_executed_read (c : Controller)
    (h : Faulty.Accepted (c.answers c.issued).status) :
  (c.executed ataCmdReadSectors).transfer
    = .fromDrive ((c.sectors c.registers.slave c.registers.sector).read 0 512)
  := by
  rw [transfer_executed, Controller.transferOf, if_pos h, if_pos rfl]

theorem transfer_executed_write (c : Controller)
    (h : Faulty.Accepted (c.answers c.issued).status) :
  (c.executed ataCmdWriteSectors).transfer
    = .toDrive c.registers.slave c.registers.sector (c.answers c.issued).settle []
  := by
  have hne : ataCmdWriteSectors ≠ ataCmdReadSectors := by decide
  rw [transfer_executed, Controller.transferOf, if_pos h, if_neg hne, if_pos rfl]

theorem given_of_transfer {c : Controller} {bytes : List UInt8} (hne : bytes ≠ [])
    (h : c.transfer = .fromDrive bytes) :
  c.given bytes = c
  := by
  cases c
  cases h
  rw [Controller.given]
  simp only [if_neg hne]

theorem taken_of_transfer {c : Controller} {slave : Bool} {sector settle : Nat}
    (h : c.transfer = .toDrive slave sector settle []) :
  c.taken slave sector settle [] = c
  := by
  cases c
  cases h
  rfl

/-- The sector is written when the controller has got all the bytes. -/
theorem taken_full (c : Controller) (slave : Bool) (sector settle : Nat) (buffer : Memory)
    (pos : Nat) :
  c.taken slave sector settle (buffer.read pos 512)
    = { c with
      sectors := fun s n =>
        if s = slave ∧ n = sector then (c.sectors s n).write 0 (buffer.read pos 512)
        else c.sectors s n
      busy := settle
      status := c.moved
      transfer := .none }
  := by
  rw [Controller.taken, if_neg]
  rw [Memory.read_length]
  omega

/-- `ata_write_block` when its command has been accepted. -/
theorem completes_ataWriteBlock {c c₁ : Controller} {drive : AtaDrive} {lba sector settle : Nat}
    {slave : Bool} {r : UInt8 × Command}
    (hsend : Completes (controller drive.bus)
      (ataSendCommand (blockCommand drive lba ataCmdWriteSectors)) c r c₁)
    (hbusy : c₁.busy = 0) (htransfer : c₁.transfer = .toDrive slave sector settle [])
    (buffer : Memory) (pos : Nat) :
  Completes (controller drive.bus) (ataWriteBlock drive lba buffer pos) c 0
    (c₁.taken slave sector settle (buffer.read pos 512))
  := by
  have hloop := completes_writeWords hbusy slave sector settle drive.bus buffer pos
  rw [taken_of_transfer htransfer] at hloop
  exact hsend.bind (hloop.bind (completes_pure _ _))

section Block

variable {drive : AtaDrive} {c : Controller} {lba : Nat} (h : Ready drive c)

include h

theorem Ready.completes_send (lba : Nat) (command : UInt8) :
  ∃ cmd', Completes (controller drive.bus) (ataSendCommand (blockCommand drive lba command)) c
    ((c.answers c.issued).status, cmd') (c.sent (Ata.blockCommand drive.toDrive lba command))
  := by
  obtain ⟨-, hslave⟩ := Faulty.blockCommand_address h.ms lba command
  exact completes_ataSendCommand (blockCommand drive lba command) h.busy h.status
    (hslave ▸ h.present) rfl

theorem Ready.sent (cmd : Cmd) :
  Ready drive (c.sent cmd)
  := ⟨rfl, (c.answers c.issued).not_busy, h.present, h.ms, h.settles⟩

/-- `ata_read_block` reads the block as it does with the statuses that are reported. -/
theorem readRetry_refines (lba : Nat) (buffer : Memory) (pos retries : Nat) :
  ∃ c', Completes (controller drive.bus) (readRetry drive lba buffer pos retries) c
      (Faulty.readRetry c.sectors drive.toDrive lba (statuses c retries) buffer pos retries) c'
    ∧ Ready drive c' ∧ c'.sectors = c.sectors ∧ c'.answers = c.answers
  := by
  induction retries generalizing c with
  | zero => exact ⟨c, completes_pure _ _, h, rfl, rfl⟩
  | succ retries ih =>
      obtain ⟨cmd', hsend⟩ := h.completes_send lba ataCmdReadSectors
      have hnow : statuses c (retries + 1) (retries + 1) = (c.answers c.issued).status := by
        rw [statuses, Nat.add_sub_cancel]
      have hlater : statuses (c.sent (Ata.blockCommand drive.toDrive lba ataCmdReadSectors)) retries
          = statuses c (retries + 1) := by
        funext k
        exact congrArg (fun n => (c.answers (n - k)).status) (Nat.add_right_comm c.issued 1 retries)
      obtain ⟨c₁, hc₁⟩ : ∃ c₁, c.sent (Ata.blockCommand drive.toDrive lba ataCmdReadSectors) = c₁ :=
        ⟨_, rfl⟩
      rw [readRetry, Faulty.readRetry, hnow]
      split_ifs with hfail
      · obtain ⟨c', hrest, hready, hsectors, hanswers⟩ := ih (h.sent _)
        rw [hlater] at hrest
        refine ⟨c', hsend.bind ?_, hready, hsectors, hanswers⟩
        rw [if_pos hfail]
        exact hrest
      · obtain ⟨r, hr⟩ : ∃ r, Ata.ataSendCommand (Ata.blockCommand drive.toDrive lba
            ataCmdReadSectors) = r := ⟨_, rfl⟩
        have haccepted : Faulty.Accepted (c.answers c.issued).status := by
          rw [not_or, not_not] at hfail
          exact hfail
        have htransfer : c₁.transfer = .fromDrive ((c.sectors r.slave r.sector).read 0 512) := by
          rw [← hc₁, ← hr]
          exact transfer_executed_read _ haccepted
        have hlength : ((c.sectors r.slave r.sector).read 0 512).length = 512 :=
          Memory.read_length _ _ _
        have hready₁ : Ready drive c₁ := hc₁ ▸ h.sent _
        have hloop := completes_readWords hlength hready₁.busy drive.bus pos buffer
        rw [given_of_transfer (List.ne_nil_of_length_pos (by omega)) htransfer] at hloop
        refine ⟨c₁.given [], hsend.bind ?_, ?_, ?_, ?_⟩
        · rw [if_neg hfail, hc₁, hr]
          exact hloop.bind (completes_pure _ _)
        · exact ⟨hready₁.busy, moved_and hready₁.status, hready₁.present, h.ms, hready₁.settles⟩
        · rw [← hc₁]
          rfl
        · rw [← hc₁]
          rfl

/-- `ata_write_block` writes the block, or leaves the sector as it is, as it does with the status
that is reported. -/
theorem ataWriteBlock_refines (lba : Nat) (buffer : Memory) (pos : Nat) :
  ∃ c', Completes (controller drive.bus) (ataWriteBlock drive lba buffer pos) c 0 c'
    ∧ Ready drive c' ∧ c'.answers = c.answers
    ∧ c'.sectors = Faulty.ataWriteBlock (fun sector _ => sector) c.sectors drive.toDrive lba
      (c.answers c.issued).status buffer pos
  := by
  obtain ⟨cmd', hsend⟩ := h.completes_send lba ataCmdWriteSectors
  obtain ⟨c₁, hc₁⟩ : ∃ c₁, c.sent (Ata.blockCommand drive.toDrive lba ataCmdWriteSectors) = c₁ :=
    ⟨_, rfl⟩
  obtain ⟨r, hr⟩ : ∃ r, Ata.ataSendCommand (Ata.blockCommand drive.toDrive lba
      ataCmdWriteSectors) = r := ⟨_, rfl⟩
  have hready₁ : Ready drive c₁ := hc₁ ▸ h.sent _
  rw [hc₁] at hsend
  rw [Faulty.ataWriteBlock, hr]
  by_cases haccepted : Faulty.Accepted (c.answers c.issued).status
  · have htransfer : c₁.transfer = .toDrive r.slave r.sector 0 [] := by
      rw [← hc₁, ← hr, ← h.settles c.issued]
      exact transfer_executed_write _ haccepted
    refine ⟨_, completes_ataWriteBlock hsend hready₁.busy htransfer buffer pos, ?_, ?_, ?_⟩
    · rw [taken_full]
      exact ⟨rfl, moved_and hready₁.status, hready₁.present, h.ms, hready₁.settles⟩
    · rw [taken_full, ← hc₁]
      rfl
    · rw [taken_full, ← hc₁]
      funext s n
      simp only [if_pos haccepted]
      rfl
  · have htransfer : c₁.transfer = .none := by
      rw [← hc₁, Controller.sent, transfer_executed, Controller.transferOf]
      exact if_neg haccepted
    have hloop := completes_writeWords_rejected htransfer drive.bus buffer pos
    refine ⟨c₁, hsend.bind (hloop.bind (completes_pure _ _)), hready₁, ?_, ?_⟩
    · rw [← hc₁]
      rfl
    · rw [← hc₁]
      funext s n
      simp only [if_neg haccepted, ite_self]
      rfl

end Block

/-! ### The loops -/

/-- What is reported for the part at `count`, before what is reported for the parts behind it.  A
drive that does not accept a write does not take the bytes. -/
def before (count : Nat) (read : Nat → UInt8) (write : UInt8) (rest : Faulty.Faults) :
    Faulty.Faults where
  read i := if i = count then read else rest.read i
  write i := if i = count then write else rest.write i
  rejected sector _ := sector

/-- The same is reported for the parts from `count` on. -/
structure SameFrom (count : Nat) (f f' : Faulty.Faults) : Prop where
  read : ∀ i, count ≤ i → f.read i = f'.read i
  write : ∀ i, count ≤ i → f.write i = f'.write i
  rejected : f.rejected = f'.rejected

/-- The controller reports this and is ready afterwards. -/
structure Serves (drive : AtaDrive) (c c' : Controller) (faults : Faulty.Faults) : Prop where
  read : ∀ i k, Reported c (faults.read i k)
  write : ∀ i, Reported c (faults.write i)
  rejected : faults.rejected = fun sector _ => sector
  ready : Ready drive c'
  answers : c'.answers = c.answers

section Loop

variable {drive : AtaDrive} {c c₁ c' : Controller} {count count' : Nat} {read : Nat → UInt8}
  {write status : UInt8} {f rest : Faulty.Faults}

theorem SameFrom.now (h : SameFrom count f (before count read write rest)) :
  f.read count = read ∧ f.write count = write
  := ⟨(h.read count (Nat.le_refl count)).trans (if_pos rfl),
    (h.write count (Nat.le_refl count)).trans (if_pos rfl)⟩

theorem SameFrom.later (h : SameFrom count f (before count read write rest))
    (hrest : rest.rejected = fun sector _ => sector) (hlt : count < count') :
  SameFrom count' f rest
  where
  read i hi := (h.read i (by omega)).trans (if_neg (by omega))
  write i hi := (h.write i (by omega)).trans (if_neg (by omega))
  rejected := h.rejected.trans hrest.symm

theorem Reported.of_answers (h : c₁.answers = c.answers) (hstatus : Reported c₁ status) :
  Reported c status
  := by
  obtain ⟨n, hn⟩ := hstatus
  exact ⟨n, hn.trans (by rw [h])⟩

theorem Serves.before (h : Serves drive c₁ c' rest) (hanswers : c₁.answers = c.answers)
    (hread : ∀ k, Reported c (read k)) (hwrite : Reported c write) :
  Serves drive c c' (before count read write rest)
  := by
  refine ⟨fun i k => ?_, fun i => ?_, rfl, h.ready, h.answers.trans hanswers⟩
  · rw [Driver.before]
    dsimp only
    split_ifs
    · exact hread k
    · exact (h.read i k).of_answers hanswers
  · rw [Driver.before]
    dsimp only
    split_ifs
    · exact hwrite
    · exact (h.write i).of_answers hanswers

/-- Nothing is reported when nothing is done. -/
theorem serves_self (h : Ready drive c) :
  ∃ faults, Serves drive c c faults
  := ⟨⟨fun _ => statuses c 5, fun _ => statuses c 5 5, fun sector _ => sector⟩,
    fun _ _ => ⟨_, rfl⟩, fun _ => ⟨_, rfl⟩, rfl, h, rfl⟩

/-- The loop of `ata_read` moves the blocks as it does with some of the statuses that the drives
report. -/
theorem readLoop_refines (h : Ready drive c) (nbyte count offset : Nat) (blkBuf buffer : Memory) :
  ∃ faults c', Serves drive c c' faults ∧ c'.sectors = c.sectors
    ∧ ∀ f, SameFrom count f faults →
      Completes (controller drive.bus) (readLoop drive nbyte count offset blkBuf buffer) c
        (Faulty.readLoop f c.sectors drive.toDrive nbyte count offset blkBuf buffer) c'
  := by
  induction hk : nbyte - count using Nat.strongRecOn generalizing c count offset blkBuf buffer with
  | ind k ih =>
      by_cases hlt : count < nbyte
      · obtain ⟨hpos, hle, -⟩ := blockLen_pos offset hlt
        obtain ⟨len, hlen⟩ : ∃ len, blockLen nbyte count offset = len := ⟨_, rfl⟩
        have hreported : ∀ k, Reported c (statuses c 5 k) := fun k => ⟨_, rfl⟩
        rw [readLoop, dif_pos hlt, hlen]
        by_cases hfull : len = 512
        · obtain ⟨c₁, hblock, hready₁, hsectors₁, hanswers₁⟩ :=
            readRetry_refines h (offset / 512) buffer count 5
          obtain ⟨faults, c', hserves, hsectors', hrest⟩ :=
            ih _ (by omega) hready₁ (count + len) ((offset + len) % 2 ^ 64) blkBuf _ rfl
          refine ⟨before count (statuses c 5) (statuses c 5 5) faults, c',
            hserves.before hanswers₁ hreported (hreported 5), hsectors'.trans hsectors₁,
            fun f hf => ?_⟩
          have hlater := hrest f (hf.later hserves.rejected (by omega))
          rw [hsectors₁] at hlater
          rw [Faulty.readLoop, dif_pos hlt, hlen]
          simp only [if_pos hfull, Faulty.ataReadBlock, hf.now.1]
          exact hblock.bind hlater
        · obtain ⟨c₁, hblock, hready₁, hsectors₁, hanswers₁⟩ :=
            readRetry_refines h (offset / 512) blkBuf 0 5
          obtain ⟨faults, c', hserves, hsectors', hrest⟩ :=
            ih _ (by omega) hready₁ (count + len) ((offset + len) % 2 ^ 64) _ _ rfl
          refine ⟨before count (statuses c 5) (statuses c 5 5) faults, c',
            hserves.before hanswers₁ hreported (hreported 5), hsectors'.trans hsectors₁,
            fun f hf => ?_⟩
          have hlater := hrest f (hf.later hserves.rejected (by omega))
          rw [hsectors₁] at hlater
          rw [Faulty.readLoop, dif_pos hlt, hlen]
          simp only [if_neg hfull, Faulty.ataReadBlock, hf.now.1]
          exact hblock.bind hlater
      · obtain ⟨faults, hserves⟩ := serves_self h
        refine ⟨faults, c, hserves, rfl, fun f _ => ?_⟩
        rw [readLoop, Faulty.readLoop, dif_neg hlt, dif_neg hlt]
        exact completes_pure _ _

/-- The loop of `ata_write` moves the blocks as it does with some of the statuses that the drives
report. -/
theorem writeLoop_refines (h : Ready drive c) (nbyte count offset : Nat) (blkBuf buffer : Memory) :
  ∃ faults c', Serves drive c c' faults
    ∧ ∀ f, SameFrom count f faults →
      Completes (controller drive.bus) (writeLoop drive buffer nbyte count offset blkBuf) c
        (Faulty.writeLoop f drive.toDrive buffer nbyte count offset blkBuf c.sectors).1 c'
      ∧ c'.sectors
        = (Faulty.writeLoop f drive.toDrive buffer nbyte count offset blkBuf c.sectors).2
  := by
  induction hk : nbyte - count using Nat.strongRecOn generalizing c count offset blkBuf with
  | ind k ih =>
      by_cases hlt : count < nbyte
      · obtain ⟨hpos, hle, -⟩ := blockLen_pos offset hlt
        obtain ⟨len, hlen⟩ : ∃ len, blockLen nbyte count offset = len := ⟨_, rfl⟩
        have hreported : ∀ k, Reported c (statuses c 5 k) := fun k => ⟨_, rfl⟩
        rw [writeLoop, dif_pos hlt, hlen]
        by_cases hfull : len = 512
        · obtain ⟨c₁, hblock, hready₁, hanswers₁, hsectors₁⟩ :=
            ataWriteBlock_refines h (offset / 512) buffer count
          obtain ⟨faults, c', hserves, hrest⟩ :=
            ih _ (by omega) hready₁ (count + len) ((offset + len) % 2 ^ 64) blkBuf rfl
          refine ⟨before count (statuses c 5) (c.answers c.issued).status faults, c',
            hserves.before hanswers₁ hreported ⟨_, rfl⟩, fun f hf => ?_⟩
          obtain ⟨hlater, hsectors⟩ := hrest f (hf.later hserves.rejected (by omega))
          rw [hsectors₁] at hlater hsectors
          rw [Faulty.writeLoop, dif_pos hlt, hlen]
          simp only [if_pos hfull, hf.now.2, hf.rejected]
          exact ⟨hblock.bind hlater, hsectors⟩
        · obtain ⟨c₁, hread, hready₁, hsectors₁, hanswers₁⟩ :=
            readRetry_refines h (offset / 512) blkBuf 0 5
          obtain ⟨c₂, hblock, hready₂, hanswers₂, hsectors₂⟩ := ataWriteBlock_refines hready₁
            (offset / 512) (Memory.write (Faulty.readRetry c.sectors drive.toDrive (offset / 512)
              (statuses c 5) blkBuf 0 5).2 (offset % 512) (buffer.read count len)) 0
          rw [hsectors₁] at hsectors₂
          have hanswers : c₂.answers = c.answers := hanswers₂.trans hanswers₁
          have hwrite : Reported c (c₁.answers c₁.issued).status := by
            rw [hanswers₁]
            exact ⟨_, rfl⟩
          obtain ⟨faults, c', hserves, hrest⟩ :=
            ih _ (by omega) hready₂ (count + len) ((offset + len) % 2 ^ 64) _ rfl
          refine ⟨before count (statuses c 5) (c₁.answers c₁.issued).status faults, c',
            hserves.before hanswers hreported hwrite, fun f hf => ?_⟩
          obtain ⟨hlater, hsectors⟩ := hrest f (hf.later hserves.rejected (by omega))
          rw [hsectors₂] at hlater hsectors
          rw [Faulty.writeLoop, dif_pos hlt, hlen]
          simp only [if_neg hfull, Faulty.ataReadBlock, hf.now.1, hf.now.2, hf.rejected]
          exact ⟨hread.bind (hblock.bind hlater), hsectors⟩
      · obtain ⟨faults, hserves⟩ := serves_self h
        refine ⟨faults, c, hserves, fun f _ => ?_⟩
        rw [writeLoop, Faulty.writeLoop, dif_neg hlt, dif_neg hlt]
        exact ⟨completes_pure _ _, rfl⟩

end Loop

/-! ### Requests -/

/-- A call of `ata_read` or `ata_write`, with the number it returns and the caller's buffer
afterwards. -/
def request (drive : AtaDrive) : Call → Code (Nat × Memory)
  | .read blkBuf buffer nbyte offset => ataRead drive blkBuf buffer nbyte offset
  | .write blkBuf buffer nbyte offset => do
      let n ← ataWrite drive blkBuf buffer nbyte offset
      pure (n, buffer)

/-- Calls one after the other. -/
def requests (drive : AtaDrive) : List Call → Code (List (Nat × Memory))
  | [] => pure []
  | call :: calls => do
      let r ← request drive call
      let rs ← requests drive calls
      pure (r :: rs)

/-- The call on drives with faults. -/
def faulty (drive : Drive) (sectors : Faulty.Sectors) (faults : Faulty.Faults) :
    Call → (Nat × Memory) × Faulty.Sectors
  | .read blkBuf buffer nbyte offset =>
      (Faulty.ataRead faults sectors drive blkBuf buffer nbyte offset, sectors)
  | .write blkBuf buffer nbyte offset =>
      let r := Faulty.ataWrite faults sectors drive blkBuf buffer nbyte offset
      ((r.1, buffer), r.2)

/-- Calls one after the other on drives with faults, each with faults of its own. -/
def faultyAll (drive : Drive) :
    Faulty.Sectors → List (Faulty.Faults × Call) → List (Nat × Memory) × Faulty.Sectors
  | sectors, [] => ([], sectors)
  | sectors, (faults, call) :: calls =>
      let r := faulty drive sectors faults call
      let rest := faultyAll drive r.2 calls
      (r.1 :: rest.1, rest.2)

section Requests

variable {drive : AtaDrive} {c c' : Controller}

theorem sameFrom_self (faults : Faulty.Faults) :
  SameFrom 0 faults faults
  := ⟨fun _ _ => rfl, fun _ _ => rfl, rfl⟩

/-- A call does what it does with some of the statuses that the drives report. -/
theorem request_refines (h : Ready drive c) (call : Call) :
  ∃ faults c', Serves drive c c' faults
    ∧ Completes (controller drive.bus) (request drive call) c
      (faulty drive.toDrive c.sectors faults call).1 c'
    ∧ c'.sectors = (faulty drive.toDrive c.sectors faults call).2
  := by
  cases call with
  | read blkBuf buffer nbyte offset =>
      rw [request, ataRead]
      split_ifs with hpresent
      · obtain ⟨faults, c', hserves, hsectors, hrun⟩ :=
          readLoop_refines h nbyte 0 offset blkBuf buffer
        have hloop := hrun faults (sameFrom_self faults)
        refine ⟨faults, c', hserves, ?_, hsectors⟩
        rw [faulty, Faulty.ataRead, if_pos hpresent]
        exact hloop
      · obtain ⟨faults, hserves⟩ := serves_self h
        refine ⟨faults, c, hserves, ?_, rfl⟩
        rw [faulty, Faulty.ataRead, if_neg hpresent]
        exact completes_pure _ _
  | write blkBuf buffer nbyte offset =>
      rw [request, ataWrite]
      split_ifs with hpresent
      · obtain ⟨faults, c', hserves, hrun⟩ := writeLoop_refines h nbyte 0 offset blkBuf buffer
        obtain ⟨hloop, hsectors⟩ := hrun faults (sameFrom_self faults)
        refine ⟨faults, c', hserves, ?_⟩
        rw [faulty, Faulty.ataWrite, if_pos hpresent]
        exact ⟨hloop.bind (completes_pure _ _), hsectors⟩
      · obtain ⟨faults, hserves⟩ := serves_self h
        refine ⟨faults, c, hserves, ?_⟩
        rw [faulty, Faulty.ataWrite, if_neg hpresent]
        exact ⟨(completes_pure _ _).bind (completes_pure _ _), rfl⟩

theorem requests_refine (h : Ready drive c) (calls : List Call) :
  ∃ (faults : List Faulty.Faults) (c' : Controller), faults.length = calls.length
    ∧ (∀ f ∈ faults, (∀ i k, Reported c (f.read i k)) ∧ ∀ i, Reported c (f.write i))
    ∧ Completes (controller drive.bus) (requests drive calls) c
      (faultyAll drive.toDrive c.sectors (faults.zip calls)).1 c'
    ∧ c'.sectors = (faultyAll drive.toDrive c.sectors (faults.zip calls)).2
    ∧ Ready drive c'
  := by
  induction calls generalizing c with
  | nil => exact ⟨[], c, rfl, fun f hf => absurd hf List.not_mem_nil, completes_pure _ _, rfl, h⟩
  | cons call calls ih =>
      obtain ⟨f, c₁, hserves, hcall, hsectors₁⟩ := request_refines h call
      obtain ⟨faults, c', hlength, hreported, hcalls, hsectors', hready'⟩ := ih hserves.ready
      rw [hsectors₁] at hcalls hsectors'
      refine ⟨f :: faults, c', ?_, ?_, ?_, hsectors', hready'⟩
      · rw [List.length_cons, List.length_cons, hlength]
      · rw [List.forall_mem_cons]
        refine ⟨⟨hserves.read, hserves.write⟩, fun g hg => ?_⟩
        obtain ⟨hread, hwrite⟩ := hreported g hg
        exact ⟨fun i k => (hread i k).of_answers hserves.answers,
          fun i => (hwrite i).of_answers hserves.answers⟩
      · exact hcall.bind (hcalls.bind (completes_pure _ _))

end Requests

/-! ### Drives that accept their commands -/

section Accepted

variable {drive : AtaDrive} {c c' : Controller} {f f' : Faulty.Faults} {sectors : Faulty.Sectors}

/-- Every command is accepted, a read at one of its attempts. -/
structure Accepts (f : Faulty.Faults) : Prop where
  read : ∀ i, ¬ Faulty.ReadFails (f.read i)
  write : ∀ i, Faulty.Accepted (f.write i)

theorem Serves.accepts (h : Serves drive c c' f)
    (haccepted : ∀ n, Faulty.Accepted (c.answers n).status) :
  Accepts f
  where
  read i hfails := by
    obtain ⟨n, hn⟩ := h.read i (0 + 1)
    apply hfails 0 (by omega)
    rw [hn]
    exact haccepted n
  write i := by
    obtain ⟨n, hn⟩ := h.write i
    rw [hn]
    exact haccepted n

/-- What the drives report makes no difference as long as they accept the commands. -/
theorem ataRead_accepts (hms : drive.ms = 0 ∨ drive.ms = 0x10) (h : Accepts f) (h' : Accepts f')
    (sectors : Faulty.Sectors) (blkBuf buffer : Memory) (nbyte offset : Nat) :
  Faulty.ataRead f sectors drive.toDrive blkBuf buffer nbyte offset
    = Faulty.ataRead f' sectors drive.toDrive blkBuf buffer nbyte offset
  := by
  have hstep : Faulty.readStep f sectors drive.toDrive
      = Faulty.readStep f' sectors drive.toDrive := by
    funext s p
    simp only [Faulty.readStep, Faulty.ataReadBlock_eq hms, if_neg (h.read _), if_neg (h'.read _)]
  rw [Faulty.ataRead, Faulty.ataRead, Faulty.readLoop_eq _ _ _ (Nat.zero_le nbyte),
    Faulty.readLoop_eq _ _ _ (Nat.zero_le nbyte), hstep]

theorem ataWrite_accepts (hms : drive.ms = 0 ∨ drive.ms = 0x10) (h : Accepts f) (h' : Accepts f')
    (sectors : Faulty.Sectors) (blkBuf buffer : Memory) (nbyte offset : Nat) :
  Faulty.ataWrite f sectors drive.toDrive blkBuf buffer nbyte offset
    = Faulty.ataWrite f' sectors drive.toDrive blkBuf buffer nbyte offset
  := by
  have hstep : Faulty.writeStep f drive.toDrive buffer
      = Faulty.writeStep f' drive.toDrive buffer := by
    funext s p
    simp only [Faulty.writeStep, Faulty.ataReadBlock_eq hms, if_neg (h.read _), if_neg (h'.read _),
      Faulty.ataWriteBlock, if_pos (h.write _), if_pos (h'.write _)]
  rw [Faulty.ataWrite, Faulty.ataWrite, Faulty.writeLoop_eq _ _ _ (Nat.zero_le nbyte),
    Faulty.writeLoop_eq _ _ _ (Nat.zero_le nbyte), hstep]

/-- A bus of drives that accept their commands. -/
def accepting (sectors : Faulty.Sectors) : Bus where
  sectors := sectors
  status _ := ataDrq

theorem accepting_works (hms : drive.ms = 0 ∨ drive.ms = 0x10) (hpresent : drive.present = true)
    (sectors : Faulty.Sectors) :
  Works (accepting sectors) drive.toDrive
  := ⟨hpresent, hms, fun _ => Faulty.accepted_ataDrq⟩

theorem ofBus_accepts (sectors : Faulty.Sectors) (drive : Drive) (offset : Nat) :
  Accepts (Faulty.ofBus (accepting sectors) drive offset)
  where
  read _ hfails := hfails 0 (by omega) Faulty.accepted_ataDrq
  write _ := Faulty.accepted_ataDrq

/-- A call on drives that accept their commands is the call on the bytes of its drive. -/
theorem faulty_flat (hms : drive.ms = 0 ∨ drive.ms = 0x10) (hpresent : drive.present = true)
    (h : Accepts f) {call : Call} (hcall : call.InRange) (sectors : Faulty.Sectors) :
  let r := faulty drive.toDrive sectors f call
  let r' := performFlat (Faulty.flat sectors drive.toDrive) call
  r.1 = r'.1 ∧ Faulty.flat r.2 drive.toDrive = r'.2
    ∧ r.2 (!drive.slave) = sectors (!drive.slave)
  := by
  have hworks := accepting_works hms hpresent sectors
  cases call with
  | read blkBuf buffer nbyte offset =>
      have hrange : offset + nbyte ≤ 2 ^ 37 := hcall
      have hread := ataRead_accepts hms h (ofBus_accepts sectors drive.toDrive offset) sectors
        blkBuf buffer nbyte offset
      have hbus := @Faulty.ataRead_ofBus (accepting sectors) drive.toDrive blkBuf buffer nbyte offset
        (by omega)
      exact ⟨(hread.trans hbus).trans (Ata.ataRead_eq hworks hrange blkBuf buffer), rfl, rfl⟩
  | write blkBuf buffer nbyte offset =>
      have hrange : offset + nbyte ≤ 2 ^ 37 := hcall
      have hwrite := ataWrite_accepts hms h (ofBus_accepts sectors drive.toDrive offset) sectors
        blkBuf buffer nbyte offset
      have hbus := @Faulty.ataWrite_ofBus (accepting sectors) drive.toDrive blkBuf buffer nbyte offset
        (by omega)
      obtain ⟨hcount, hwritten⟩ := Ata.ataWrite_eq hworks hrange blkBuf buffer
      have heq := hwrite.trans hbus
      dsimp only [faulty, performFlat]
      rw [heq]
      exact ⟨congrArg (fun n => (n, buffer)) hcount, hwritten.flat_eq, hwritten.other⟩

/-- On a drive that accepts its commands, any calls one after the other do what they do on a flat
array of bytes, however long the drive is busy with each command, and leave the other drive alone.
-/
theorem requests_flat (h : Ready drive c) (hpresent : drive.present = true)
    (haccepted : ∀ n, Faulty.Accepted (c.answers n).status) {calls : List Call}
    (hcalls : ∀ call ∈ calls, call.InRange) :
  ∃ c', Completes (controller drive.bus) (requests drive calls) c
      (performAll performFlat (Faulty.flat c.sectors drive.toDrive) calls).1 c'
    ∧ Faulty.flat c'.sectors drive.toDrive
      = (performAll performFlat (Faulty.flat c.sectors drive.toDrive) calls).2
    ∧ c'.sectors (!drive.slave) = c.sectors (!drive.slave)
    ∧ Ready drive c'
  := by
  induction calls generalizing c with
  | nil => exact ⟨c, completes_pure _ _, rfl, rfl, h⟩
  | cons call calls ih =>
      rw [List.forall_mem_cons] at hcalls
      obtain ⟨f, c₁, hserves, hcall, hsectors₁⟩ := request_refines h call
      obtain ⟨hresult, hflat, hother⟩ :=
        faulty_flat h.ms hpresent (hserves.accepts haccepted) hcalls.1 c.sectors
      rw [← hsectors₁] at hflat hother
      have haccepted₁ : ∀ n, Faulty.Accepted (c₁.answers n).status := by
        rw [hserves.answers]
        exact haccepted
      obtain ⟨c', hrest, hflat', hother', hready'⟩ := ih hserves.ready haccepted₁ hcalls.2
      rw [hflat] at hrest hflat'
      rw [hresult] at hcall
      exact ⟨c', hcall.bind (hrest.bind (completes_pure _ _)), hflat', hother'.trans hother,
        hready'⟩

end Accepted

/-! ### Drives that are busy with what was written -/

/-- The controller is busy for longer than it takes to select a drive and a sector, with this sector
selected. -/
structure Occupied (c : Controller) (slave : Bool) (sector : Nat) : Prop where
  busy : 5 < c.busy
  status : c.status &&& ataBsy = 0
  present : c.present slave = true
  slave : c.registers.slave = slave
  sector : c.registers.sector = sector

/-- The sectors after a block has been written to one of them. -/
def setSector (sectors : Faulty.Sectors) (slave : Bool) (sector : Nat) (block : List UInt8) :
    Faulty.Sectors :=
  fun s n => if s = slave ∧ n = sector then (sectors s n).write 0 block else sectors s n

section Busy

variable {drive drive' : AtaDrive} {c : Controller} {slave : Bool} {sector : Nat}

/-- A block that is written over another one. -/
theorem setSector_setSector (sectors : Faulty.Sectors) (slave : Bool) (sector : Nat)
    {block block' : List UInt8} (h : block.length = block'.length) :
  setSector (setSector sectors slave sector block) slave sector block'
    = setSector sectors slave sector block'
  := by
  funext s n
  rw [setSector, setSector, setSector]
  split_ifs
  · funext x
    rw [Memory.write, Memory.write, Memory.write, h]
    split_ifs <;> rfl
  · rfl

/-- A write of a block after which the drive is busy with the data. -/
theorem ataWriteBlock_occupies (hbusy : c.busy = 0) (hstatus : c.status &&& ataBsy = 0)
    (hpresent : c.present drive.slave = true) (hms : drive.ms = 0 ∨ drive.ms = 0x10)
    (haccepted : Faulty.Accepted (c.answers c.issued).status)
    (hsettle : 5 < (c.answers c.issued).settle) (lba : Nat) (buffer : Memory) (pos : Nat) :
  ∃ c', Completes (controller drive.bus) (ataWriteBlock drive lba buffer pos) c 0 c'
    ∧ Occupied c' drive.slave (lba % 2 ^ 28) ∧ c'.answers = c.answers
    ∧ c'.sectors = setSector c.sectors drive.slave (lba % 2 ^ 28) (buffer.read pos 512)
  := by
  obtain ⟨hsector, hslave⟩ := Faulty.blockCommand_address hms lba ataCmdWriteSectors
  obtain ⟨cmd, hsend⟩ := completes_ataSendCommand (blockCommand drive lba ataCmdWriteSectors)
    hbusy hstatus (hslave ▸ hpresent) rfl
  have hwrite := completes_ataWriteBlock hsend rfl (transfer_executed_write _ haccepted) buffer pos
  rw [taken_full] at hwrite
  refine ⟨_, hwrite, ⟨hsettle, ?_, hpresent, hslave, hsector⟩, rfl, ?_⟩
  · exact moved_and (c.answers c.issued).not_busy
  · rw [← hsector, ← hslave]
    rfl

/-- A write of a block while the drive is busy with another one goes to the sector of that one. -/
theorem ataWriteBlock_misplaced (drive : AtaDrive) (h : Occupied c slave sector)
    (haccepted : Faulty.Accepted (c.answers c.issued).status) (lba : Nat) (buffer : Memory)
    (pos : Nat) :
  ∃ c', Completes (controller drive.bus) (ataWriteBlock drive lba buffer pos) c 0 c'
    ∧ c'.sectors = setSector c.sectors slave sector (buffer.read pos 512)
  := by
  obtain ⟨cmd, hsend⟩ := completes_ataSendCommand_busy (blockCommand drive lba ataCmdWriteSectors)
    h.busy h.status (h.slave ▸ h.present) rfl
  have hwrite := completes_ataWriteBlock hsend rfl
    (transfer_executed_write { c with busy := 0 } haccepted) buffer pos
  rw [taken_full] at hwrite
  refine ⟨_, hwrite, ?_⟩
  rw [← h.slave, ← h.sector]
  rfl

/-- Two writes of blocks on a drive that is still busy with the data of the first one while the
second one selects a drive and a sector.  The driver does that before it waits, so the second block
goes to the sector of the first one, on whichever drive and in whatever sector it belongs. -/
theorem writes_collide (hbusy : c.busy = 0) (hstatus : c.status &&& ataBsy = 0)
    (hpresent : c.present drive.slave = true) (hms : drive.ms = 0 ∨ drive.ms = 0x10)
    (haccepted : ∀ n, Faulty.Accepted (c.answers n).status)
    (hsettle : 5 < (c.answers c.issued).settle) (hbus : drive'.bus = drive.bus) (lba lba' : Nat)
    (buffer buffer' : Memory) (pos pos' : Nat) :
  ∃ c', Completes (controller drive.bus) (do
        let _ ← ataWriteBlock drive lba buffer pos
        ataWriteBlock drive' lba' buffer' pos') c 0 c'
    ∧ c'.sectors = setSector c.sectors drive.slave (lba % 2 ^ 28) (buffer'.read pos' 512)
  := by
  obtain ⟨c₁, hfirst, hoccupied, hanswers, hsectors₁⟩ := ataWriteBlock_occupies hbusy hstatus
    hpresent hms (haccepted c.issued) hsettle lba buffer pos
  obtain ⟨c₂, hsecond, hsectors₂⟩ := ataWriteBlock_misplaced drive' hoccupied
    (by rw [hanswers]; exact haccepted _) lba' buffer' pos'
  rw [hbus] at hsecond
  refine ⟨c₂, hfirst.bind hsecond, ?_⟩
  rw [hsectors₂, hsectors₁, setSector_setSector]
  rw [Memory.read_length, Memory.read_length]

end Busy

/-! ### A controller -/

/-- A status of a drive that has data to move. -/
theorem answer_not_busy :
  (0x48 : UInt8) &&& ataBsy = 0
  := by decide

/-- A controller with one drive, which is busy for as many reads of the status as it has had
commands, and for `settle` reads with what is written. -/
def oneDrive (settle : Nat) : Controller where
  registers := ⟨0, 0, 0, 0, 0, 0⟩
  error := 0
  sectors _ n _ := UInt8.ofNat n
  present slave := slave
  busy := 0
  busyBits := 0
  status := 0x40
  transfer := .none
  answers n := ⟨n, 0, 0x48, 0, settle, answer_not_busy⟩
  issued := 0

/-- The second drive of the first bus. -/
def slaveDrive : AtaDrive where
  present := true
  ms := 0x10
  bus := 0x1F0

theorem oneDrive_ready :
  Ready slaveDrive (oneDrive 0)
  := ⟨rfl, by decide, by decide, Or.inr rfl, fun _ => rfl⟩

theorem oneDrive_accepts (settle n : Nat) :
  Faulty.Accepted ((oneDrive settle).answers n).status
  := by
  change Faulty.Accepted 0x48
  decide

/-- A write across three sectors, and a read of what it has changed. -/
def writeAndRead : List Call :=
  [.write (fun _ => 0) UInt8.ofNat 1000 300, .read (fun _ => 0) (fun _ => 0) 1000 300]

theorem writeAndRead_inRange :
  ∀ call ∈ writeAndRead, call.InRange
  := by
  intro call hcall
  rw [writeAndRead, List.mem_cons, List.mem_singleton] at hcall
  obtain rfl | rfl := hcall
  · exact (by decide : 300 + 1000 ≤ 2 ^ 37)
  · exact (by decide : 300 + 1000 ≤ 2 ^ 37)

theorem requests_refine_oneDrive :
  ∃ (faults : List Faulty.Faults) (c' : Controller), faults.length = 2
    ∧ Completes (controller 0x1F0) (requests slaveDrive writeAndRead) (oneDrive 0)
      (faultyAll slaveDrive.toDrive (oneDrive 0).sectors (faults.zip writeAndRead)).1 c'
  := by
  obtain ⟨faults, c', hlength, -, hrun, -⟩ := requests_refine oneDrive_ready writeAndRead
  exact ⟨faults, c', hlength, hrun⟩

theorem requests_flat_oneDrive :
  ∃ c', Completes (controller 0x1F0) (requests slaveDrive writeAndRead) (oneDrive 0)
    (performAll performFlat (Faulty.flat (oneDrive 0).sectors slaveDrive.toDrive) writeAndRead).1 c'
  := by
  obtain ⟨c', hrun, -⟩ := requests_flat oneDrive_ready rfl (oneDrive_accepts 0) writeAndRead_inRange
  exact ⟨c', hrun⟩

/-- Zeros for the sector 7 and ones for the sector 9 leave ones in the sector 7. -/
theorem writes_collide_oneDrive :
  ∃ c', Completes (controller 0x1F0) (do
        let _ ← ataWriteBlock slaveDrive 7 (fun _ => 0) 0
        ataWriteBlock slaveDrive 9 (fun _ => 1) 0) (oneDrive 6) 0 c'
    ∧ c'.sectors true 7 0 = 1 ∧ c'.sectors true 9 0 = 9
  := by
  have hpresent : (oneDrive 6).present slaveDrive.slave = true := by decide
  have hms : slaveDrive.ms = 0 ∨ slaveDrive.ms = 0x10 := Or.inr rfl
  have hbus : slaveDrive.bus = slaveDrive.bus := rfl
  obtain ⟨c', hrun, hsectors⟩ := writes_collide rfl (by decide) hpresent hms (oneDrive_accepts 6)
    (by decide) hbus 7 9 (fun _ => 0) (fun _ => 1) 0 0
  refine ⟨c', hrun, ?_, ?_⟩
  · rw [hsectors, setSector, if_pos (by decide), Memory.write_read, if_pos (by omega)]
  · rw [hsectors, setSector, if_neg (by decide)]
    rfl

end Ata.Driver
