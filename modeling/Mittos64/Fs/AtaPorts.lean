import Mittos64.Fs.AtaFaults
import Mittos64.Lib.Ports

/-!
# The driver of the disks, port by port

`drivers/ata.c` and `fs/ata_fs.c` once more, now as the reads and writes of ports that they are made
of, and a controller with its two drives at the other end.  The controller answers a command when it
likes, with the status it likes; until then it shows that it is busy and does not take anything.
-/

namespace Ata.Driver

open Ports

/-- `ATA_DATA(bus)` -/
def ataData (bus : Nat) : Nat := bus

/-- `ATA_ERROR(bus)` -/
def ataError (bus : Nat) : Nat := bus + 1

/-- `ATA_COUNT(bus)` -/
def ataCount (bus : Nat) : Nat := bus + 2

/-- `ATA_LBAL(bus)` -/
def ataLbal (bus : Nat) : Nat := bus + 3

/-- `ATA_LBAM(bus)` -/
def ataLbam (bus : Nat) : Nat := bus + 4

/-- `ATA_LBAH(bus)` -/
def ataLbah (bus : Nat) : Nat := bus + 5

/-- `ATA_DEVICE(bus)` -/
def ataDevice (bus : Nat) : Nat := bus + 6

/-- `ATA_COMMAND(bus)` -/
def ataCommand (bus : Nat) : Nat := bus + 7

/-- `ATA_STATUS(bus)` -/
def ataStatus (bus : Nat) : Nat := bus + 7

/-- `ATA_BSY` -/
def ataBsy : UInt8 := 0x80

/-- `ata_cmd_t`, with the bus and what it has besides a command.  A command that has been sent has
the status in the place of the command. -/
structure Command extends Cmd where
  bus : Nat
  error : UInt8
  waitStatus : UInt8

/-- `ata_drive`, with its bus. -/
structure AtaDrive extends Drive where
  bus : Nat

/-! ### The driver -/

/-- `ata_wait_status(bus)` -/
def ataWaitStatus (bus : Nat) : Code UInt8 := do
  let _ ← inb (ataStatus bus)
  let _ ← inb (ataStatus bus)
  let _ ← inb (ataStatus bus)
  let _ ← inb (ataStatus bus)
  inb (ataStatus bus)

/-- The loop that waits for a status without `ATA_BSY`. -/
def waitNotBusy (bus : Nat) : Code UInt8 :=
  poll (ataStatus bus) fun v => v &&& ataBsy = 0

/-- The loop that waits for a status with one of the bits of `cmd->wait_status`, or for an error.
Without such bits the status stays as it is. -/
def waitRequested (cmd : Command) (status : UInt8) : Code UInt8 :=
  if cmd.waitStatus ≠ 0 then do
    let v ← poll (ataStatus cmd.bus) fun v => v &&& (cmd.waitStatus ||| ataErr) ≠ 0
    pure (v &&& (cmd.waitStatus ||| ataErr))
  else pure status

/-- The part of `ata_send_command(cmd)` behind the registers that say where the command goes. -/
def issue (cmd : Command) : Code (UInt8 × Command) := do
  let _ ← waitNotBusy cmd.bus
  outb (ataCommand cmd.bus) cmd.command
  let v ← inb (ataStatus cmd.bus)
  if v = 0 then pure (0, cmd)
  else
    let _ ← ataWaitStatus cmd.bus
    let status ← waitNotBusy cmd.bus
    let status ← waitRequested cmd status
    let error ← inb (ataError cmd.bus)
    let count ← inb (ataCount cmd.bus)
    let device ← inb (ataDevice cmd.bus)
    let lbal ← inb (ataLbal cmd.bus)
    let lbam ← inb (ataLbam cmd.bus)
    let lbah ← inb (ataLbah cmd.bus)
    pure (status, { cmd with
      command := status
      error := error
      count := count
      device := device
      lba := cmd.lba / 256 ^ 4 * 256 ^ 4 + lbal.toNat + 256 * lbam.toNat + 256 ^ 2 * lbah.toNat })

/-- `ata_send_command(cmd)`, with the value it returns and the command it leaves. -/
def ataSendCommand (cmd : Command) : Code (UInt8 × Command) := do
  outb (ataDevice cmd.bus) (cmd.device ||| (cmd.lbaSep 3 &&& 0xF))
  let _ ← ataWaitStatus cmd.bus
  outb (ataCount cmd.bus) cmd.count
  outb (ataLbal cmd.bus) (cmd.lbaSep 0)
  outb (ataLbam cmd.bus) (cmd.lbaSep 1)
  outb (ataLbah cmd.bus) (cmd.lbaSep 2)
  issue cmd

/-- The command of `ata_read_block` and `ata_write_block`, for the bus of the drive. -/
def blockCommand (drive : AtaDrive) (lba : Nat) (command : UInt8) : Command where
  toCmd := Ata.blockCommand drive.toDrive lba command
  bus := drive.bus
  error := 0
  waitStatus := 0

/-- One turn of the loop of `ata_read_block` that moves the words. -/
def readWord (bus pos i : Nat) (buffer : Memory) : Code Memory := do
  let w ← inw (ataData bus)
  pure (buffer.store (pos + 2 * i) 2 w.toNat)

/-- The loop of `ata_read_block`, with the retries that are left. -/
def readRetry (drive : AtaDrive) (lba : Nat) (buffer : Memory) (pos : Nat) :
    Nat → Code (Int × Memory)
  | 0 => pure (-1, buffer)
  | retries + 1 => do
      let r ← ataSendCommand (blockCommand drive lba ataCmdReadSectors)
      if r.1 &&& (ataDf ||| ataErr) ≠ 0 ∨ r.1 &&& ataDrq = 0 then
        readRetry drive lba buffer pos retries
      else
        let buffer ← loop (readWord drive.bus pos) 256 0 buffer
        pure (0, buffer)

/-- `ata_read_block(drive, lba, &buffer[pos])` -/
def ataReadBlock (drive : AtaDrive) (lba : Nat) (buffer : Memory) (pos : Nat) :
    Code (Int × Memory) :=
  readRetry drive lba buffer pos 5

/-- One turn of the loop of `ata_write_block` that moves the words. -/
def writeWord (bus : Nat) (buffer : Memory) (pos i : Nat) (_ : PUnit) : Code PUnit :=
  outw (ataData bus) (UInt16.ofNat (buffer.load (pos + 2 * i) 2))

/-- `ata_write_block(drive, lba, &buffer[pos])`.  It sends the bytes whatever the status is. -/
def ataWriteBlock (drive : AtaDrive) (lba : Nat) (buffer : Memory) (pos : Nat) : Code Int := do
  let _ ← ataSendCommand (blockCommand drive lba ataCmdWriteSectors)
  loop (writeWord drive.bus buffer pos) 256 0 ⟨⟩
  pure 0

/-- The loop of `ata_read`, with the local buffer `blk_buf`. -/
def readLoop (drive : AtaDrive) (nbyte count offset : Nat) (blkBuf buffer : Memory) :
    Code (Nat × Memory) :=
  if h : count < nbyte then
    let len := blockLen nbyte count offset
    if len = 512 then do
      let r ← ataReadBlock drive (offset / 512) buffer count
      readLoop drive nbyte (count + len) ((offset + len) % 2 ^ 64) blkBuf r.2
    else do
      let r ← ataReadBlock drive (offset / 512) blkBuf 0
      let buffer := buffer.write count (r.2.read (offset % 512) len)
      readLoop drive nbyte (count + len) ((offset + len) % 2 ^ 64) r.2 buffer
  else pure (count, buffer)
termination_by nbyte - count
decreasing_by
  all_goals
    have := blockLen_pos offset h
    omega

/-- `ata_read(file, buffer, nbyte, offset)`, on a file of the drive. -/
def ataRead (drive : AtaDrive) (blkBuf buffer : Memory) (nbyte offset : Nat) :
    Code (Nat × Memory) :=
  if drive.present then readLoop drive nbyte 0 offset blkBuf buffer else pure (0, buffer)

/-- The loop of `ata_write`. -/
def writeLoop (drive : AtaDrive) (buffer : Memory) (nbyte count offset : Nat) (blkBuf : Memory) :
    Code Nat :=
  if h : count < nbyte then
    let len := blockLen nbyte count offset
    if len = 512 then do
      let _ ← ataWriteBlock drive (offset / 512) buffer count
      writeLoop drive buffer nbyte (count + len) ((offset + len) % 2 ^ 64) blkBuf
    else do
      let r ← ataReadBlock drive (offset / 512) blkBuf 0
      let blkBuf := r.2.write (offset % 512) (buffer.read count len)
      let _ ← ataWriteBlock drive (offset / 512) blkBuf 0
      writeLoop drive buffer nbyte (count + len) ((offset + len) % 2 ^ 64) blkBuf
  else pure count
termination_by nbyte - count
decreasing_by
  all_goals
    have := blockLen_pos offset h
    omega

/-- `ata_write(file, buffer, nbyte, offset)`, on a file of the drive. -/
def ataWrite (drive : AtaDrive) (blkBuf buffer : Memory) (nbyte offset : Nat) : Code Nat :=
  if drive.present then writeLoop drive buffer nbyte 0 offset blkBuf else pure 0

/-! ### The controller -/

/-- What a drive does with a command: how often its status is read while it is busy and the bits it
shows then, the status and the error it reports, and how long it is busy with the data that is
written. -/
structure Answer where
  busy : Nat
  busyBits : UInt8
  status : UInt8
  error : UInt8
  settle : Nat
  not_busy : status &&& ataBsy = 0

/-- The data that a command moves: the bytes that are left to read, or the sector to write to and
the bytes that it has got. -/
inductive Transfer where
  | none
  | fromDrive (bytes : List UInt8)
  | toDrive (slave : Bool) (sector settle : Nat) (bytes : List UInt8)

/-- The controller of a bus and its drives.  `busy` is how many more reads of the status show that
it is busy.  The command with the number `issued` is answered next. -/
structure Controller where
  registers : Registers
  error : UInt8
  sectors : Faulty.Sectors
  present : Bool → Bool
  busy : Nat
  busyBits : UInt8
  status : UInt8
  transfer : Transfer
  answers : Nat → Answer
  issued : Nat

namespace Controller

/-- The status when the data of a command has been moved. -/
def moved (c : Controller) : UInt8 :=
  c.status &&& ~~~ataDrq

/-- A read of the status.  Without the drive that is selected it is zero. -/
def readStatus (c : Controller) : UInt8 × Controller :=
  if c.present c.registers.slave then
    match c.busy with
    | 0 => (c.status, c)
    | n + 1 => (c.busyBits ||| ataBsy, { c with busy := n })
  else (0, c)

/-- The controller after some reads of the status. -/
def waited (c : Controller) (n : Nat) : Controller :=
  { c with busy := c.busy - n }

/-- The data of a command that is answered with this status. -/
def transferOf (c : Controller) (command : UInt8) (a : Answer) : Transfer :=
  if Faulty.Accepted a.status then
    if command = ataCmdReadSectors then
      .fromDrive ((c.sectors c.registers.slave c.registers.sector).read 0 512)
    else if command = ataCmdWriteSectors then
      .toDrive c.registers.slave c.registers.sector a.settle []
    else .none
  else .none

/-- A write to the command register, for a drive that answers it so. -/
def answered (c : Controller) (command : UInt8) (a : Answer) : Controller :=
  { c with
    registers := { c.registers with command := command }
    error := a.error
    busy := a.busy
    busyBits := a.busyBits
    status := a.status
    transfer := c.transferOf command a
    issued := c.issued + 1 }

/-- A write to the command register. -/
def execute (c : Controller) (command : UInt8) : Controller :=
  if c.present c.registers.slave then c.answered command (c.answers c.issued)
  else { c with registers := { c.registers with command := command } }

/-- The controller when the drive has answered the command. -/
def executed (c : Controller) (command : UInt8) : Controller :=
  { c.answered command (c.answers c.issued) with busy := 0 }

/-- The controller when it has answered a command that the registers are set to. -/
def sent (c : Controller) (cmd : Cmd) : Controller :=
  { c with registers := Ata.ataSendCommand cmd }.executed cmd.command

/-- A read of a word of data. -/
def readData (c : Controller) : UInt16 × Controller :=
  match c.transfer with
  | .fromDrive (low :: high :: bytes) =>
      (UInt16.ofNat (low.toNat + 256 * high.toNat),
        { c with
          transfer := if bytes = [] then .none else .fromDrive bytes
          status := if bytes = [] then c.moved else c.status })
  | _ => (0xFFFF, c)

/-- A write of a word of data. -/
def writeData (c : Controller) (w : UInt16) : Controller :=
  match c.transfer with
  | .toDrive slave sector settle bytes =>
      let bytes := bytes ++ [UInt8.ofNat w.toNat, UInt8.ofNat (w.toNat / 256)]
      if bytes.length < 512 then { c with transfer := .toDrive slave sector settle bytes }
      else
        { c with
          sectors := fun s n =>
            if s = slave ∧ n = sector then (c.sectors s n).write 0 bytes else c.sectors s n
          busy := settle
          status := c.moved
          transfer := .none }
  | _ => c

end Controller

/-- The controller at the ports from `base` on.  While it is busy it takes nothing and gives no
data. -/
def controller (base : Nat) : Device Controller where
  inb c port :=
    if port = ataStatus base then c.readStatus
    else if port = ataError base then (c.error, c)
    else if port = ataCount base then (c.registers.count, c)
    else if port = ataLbal base then (c.registers.lbal, c)
    else if port = ataLbam base then (c.registers.lbam, c)
    else if port = ataLbah base then (c.registers.lbah, c)
    else if port = ataDevice base then (c.registers.device, c)
    else (0xFF, c)
  inw c port := if port = ataData base ∧ c.busy = 0 then c.readData else (0xFFFF, c)
  outb c port v :=
    if c.busy ≠ 0 then c
    else if port = ataCount base then { c with registers := { c.registers with count := v } }
    else if port = ataLbal base then { c with registers := { c.registers with lbal := v } }
    else if port = ataLbam base then { c with registers := { c.registers with lbam := v } }
    else if port = ataLbah base then { c with registers := { c.registers with lbah := v } }
    else if port = ataDevice base then { c with registers := { c.registers with device := v } }
    else if port = ataCommand base then c.execute v
    else c
  outw c port w := if port = ataData base ∧ c.busy = 0 then c.writeData w else c

/-! ### One command -/

section Command

variable {c : Controller} {base : Nat}

theorem busy_and (v : UInt8) :
  (v ||| ataBsy) &&& ataBsy ≠ 0
  := by
  intro h
  rw [← UInt8.toBitVec_inj] at h
  exact absurd h ((by decide : ∀ v : BitVec 8, (v ||| 128#8) &&& 128#8 ≠ 0#8) v.toBitVec)

theorem busy_ne_zero (v : UInt8) :
  v ||| ataBsy ≠ 0
  := by
  intro h
  have hand := busy_and v
  rw [h] at hand
  exact hand rfl

@[simp]
theorem controller_inb_status (c : Controller) (base : Nat) :
  (controller base).inb c (ataStatus base) = c.readStatus
  := if_pos rfl

/-- A port of the registers gives a value and changes nothing. -/
theorem controller_inb {port : Nat} (hport : port ≠ ataStatus base) (c : Controller) :
  ((controller base).inb c port).2 = c
  := by
  simp only [controller, if_neg hport]
  split_ifs <;> rfl

/-- The registers take what is written to them when the controller is not busy. -/
theorem controller_outb (h : c.busy = 0) (base : Nat) (v : UInt8) :
  (controller base).outb c (ataDevice base) v
      = { c with registers := { c.registers with device := v } }
    ∧ (controller base).outb c (ataCount base) v
      = { c with registers := { c.registers with count := v } }
    ∧ (controller base).outb c (ataLbal base) v
      = { c with registers := { c.registers with lbal := v } }
    ∧ (controller base).outb c (ataLbam base) v
      = { c with registers := { c.registers with lbam := v } }
    ∧ (controller base).outb c (ataLbah base) v
      = { c with registers := { c.registers with lbah := v } }
    ∧ (controller base).outb c (ataCommand base) v = c.execute v
  := by
  simp [controller, h, ataDevice, ataCount, ataLbal, ataLbam, ataLbah, ataCommand]

theorem waited_of_zero (h : c.busy = 0) (n : Nat) :
  c.waited n = c
  := by
  cases c
  cases h
  rw [Controller.waited, Nat.zero_sub]

theorem waited_waited (c : Controller) (n m : Nat) :
  (c.waited n).waited m = c.waited (n + m)
  := by
  rw [Controller.waited, Controller.waited, Controller.waited, Nat.sub_sub]

variable (hpresent : c.present c.registers.slave = true)

include hpresent

/-- A read of the status is one turn less to wait for. -/
theorem readStatus_eq :
  c.readStatus = (if c.busy = 0 then c.status else c.busyBits ||| ataBsy, c.waited 1)
  := by
  rw [Controller.readStatus, if_pos hpresent]
  cases hbusy : c.busy with
  | zero =>
      rw [waited_of_zero hbusy]
      rfl
  | succ n =>
      rw [Controller.waited, hbusy]
      rfl

theorem completes_readStatus (base : Nat) :
  Completes (controller base) (inb (ataStatus base)) c
    (if c.busy = 0 then c.status else c.busyBits ||| ataBsy) (c.waited 1)
  := by
  have h := completes_inb (d := controller base) (ataStatus base) c
  rwa [controller_inb_status, readStatus_eq hpresent] at h

theorem completes_ataWaitStatus (base : Nat) :
  ∃ v, Completes (controller base) (ataWaitStatus base) c v (c.waited 5)
  := by
  have h₁ := completes_readStatus hpresent base
  have h₂ := completes_readStatus (c := c.waited 1) hpresent base
  have h₃ := completes_readStatus (c := (c.waited 1).waited 1) hpresent base
  have h₄ := completes_readStatus (c := ((c.waited 1).waited 1).waited 1) hpresent base
  have h₅ := completes_readStatus (c := (((c.waited 1).waited 1).waited 1).waited 1) hpresent base
  exact ⟨_, h₁.bind (h₂.bind (h₃.bind (h₄.bind h₅)))⟩

/-- Waiting ends with the status of the controller. -/
theorem completes_waitNotBusy (hstatus : c.status &&& ataBsy = 0) (base : Nat) :
  Completes (controller base) (waitNotBusy base) c c.status (c.waited c.busy)
  := by
  obtain ⟨n, hn⟩ : ∃ n, c.busy = n := ⟨_, rfl⟩
  apply completes_poll (n := n + 1)
  rw [hn]
  induction n generalizing c with
  | zero =>
      rw [Device.poll, controller_inb_status, readStatus_eq hpresent, if_pos hn]
      simp only [hstatus, decide_true, if_true, Controller.waited, hn, Nat.zero_sub]
  | succ n ih =>
      have hbits : c.busy ≠ 0 := by omega
      have hnext := ih (c := c.waited 1) hpresent hstatus (by rw [Controller.waited, hn]; rfl)
      rw [Device.poll, controller_inb_status, readStatus_eq hpresent, if_neg hbits]
      simp only [busy_and, decide_false, Bool.false_eq_true, if_false]
      rw [hnext, waited_waited, Nat.add_comm 1 n]
      rfl

end Command

/-! ### Sending a command -/

section Send

variable {α : Type} {c : Controller} {cmd : Command} {n : Nat}

/-- A register takes what is written to it. -/
theorem completes_outb_registers (h : c.busy = 0) (base : Nat) (v : UInt8) :
  Completes (controller base) (outb (ataDevice base) v) c ⟨⟩
      { c with registers := { c.registers with device := v } }
    ∧ Completes (controller base) (outb (ataCount base) v) c ⟨⟩
      { c with registers := { c.registers with count := v } }
    ∧ Completes (controller base) (outb (ataLbal base) v) c ⟨⟩
      { c with registers := { c.registers with lbal := v } }
    ∧ Completes (controller base) (outb (ataLbam base) v) c ⟨⟩
      { c with registers := { c.registers with lbam := v } }
    ∧ Completes (controller base) (outb (ataLbah base) v) c ⟨⟩
      { c with registers := { c.registers with lbah := v } }
    ∧ Completes (controller base) (outb (ataCommand base) v) c ⟨⟩ (c.execute v)
  := by
  obtain ⟨h₁, h₂, h₃, h₄, h₅, h₆⟩ := controller_outb h base v
  rw [← h₁, ← h₂, ← h₃, ← h₄, ← h₅, ← h₆]
  exact ⟨completes_outb _ _ _, completes_outb _ _ _, completes_outb _ _ _, completes_outb _ _ _,
    completes_outb _ _ _, completes_outb _ _ _⟩

theorem completes_inb_registers {base port : Nat} (hport : port ≠ ataStatus base)
    (c : Controller) :
  ∃ v, Completes (controller base) (inb port) c v c
  := by
  have h := completes_inb (d := controller base) port c
  rw [controller_inb hport] at h
  exact ⟨_, h⟩

theorem waited_answered {a : Answer} (h : a.busy ≤ n) (command : UInt8) :
  (c.answered command a).waited n = { c.answered command a with busy := 0 }
  := by
  rw [Controller.waited]
  congr 1
  exact Nat.sub_eq_zero_of_le h

/-- What `ata_send_command` reads when the command has been answered. -/
theorem completes_answer (c : Controller) (cmd : Command) (status : UInt8) :
  ∃ cmd', Completes (controller cmd.bus) (do
      let error ← inb (ataError cmd.bus)
      let count ← inb (ataCount cmd.bus)
      let device ← inb (ataDevice cmd.bus)
      let lbal ← inb (ataLbal cmd.bus)
      let lbam ← inb (ataLbam cmd.bus)
      let lbah ← inb (ataLbah cmd.bus)
      pure (status, { cmd with
        command := status
        error := error
        count := count
        device := device
        lba := cmd.lba / 256 ^ 4 * 256 ^ 4 + lbal.toNat + 256 * lbam.toNat
          + 256 ^ 2 * lbah.toNat }))
      c (status, cmd') c
  := by
  have hport : ∀ port : Nat, port ≠ cmd.bus + 7 →
      ∃ v, Completes (controller cmd.bus) (inb port) c v c := fun _ h => completes_inb_registers h c
  obtain ⟨v₁, h₁⟩ := hport (ataError cmd.bus) (by rw [ataError]; omega)
  obtain ⟨v₂, h₂⟩ := hport (ataCount cmd.bus) (by rw [ataCount]; omega)
  obtain ⟨v₃, h₃⟩ := hport (ataDevice cmd.bus) (by rw [ataDevice]; omega)
  obtain ⟨v₄, h₄⟩ := hport (ataLbal cmd.bus) (by rw [ataLbal]; omega)
  obtain ⟨v₅, h₅⟩ := hport (ataLbam cmd.bus) (by rw [ataLbam]; omega)
  obtain ⟨v₆, h₆⟩ := hport (ataLbah cmd.bus) (by rw [ataLbah]; omega)
  exact ⟨_, h₁.bind (h₂.bind (h₃.bind (h₄.bind (h₅.bind (h₆.bind (completes_pure _ c))))))⟩

/-- A command that is issued ends with the status that the drive answers, in the sector that the
registers say. -/
theorem completes_issue (hpresent : c.present c.registers.slave = true)
    (hstatus : c.status &&& ataBsy = 0) (hwait : cmd.waitStatus = 0) :
  ∃ cmd', Completes (controller cmd.bus) (issue cmd) c ((c.answers c.issued).status, cmd')
    ((c.waited c.busy).executed cmd.command)
  := by
  obtain ⟨a, ha⟩ : ∃ a, c.answers c.issued = a := ⟨_, rfl⟩
  obtain ⟨c₁, hc₁⟩ : ∃ c₁, c.waited c.busy = c₁ := ⟨_, rfl⟩
  obtain ⟨c₂, hc₂⟩ : ∃ c₂, c₁.answered cmd.command a = c₂ := ⟨_, rfl⟩
  have hbusy₁ : c₁.busy = 0 := by rw [← hc₁, Controller.waited, Nat.sub_self]
  have hanswer₁ : c₁.answers c₁.issued = a := by rw [← hc₁, ← ha, Controller.waited]
  have hpresent₁ : c₁.present c₁.registers.slave = true := hc₁ ▸ hpresent
  have hpresent₂ : c₂.present c₂.registers.slave = true := hc₂ ▸ hpresent₁
  have hbusy₂ : c₂.busy = a.busy := by rw [← hc₂, Controller.answered]
  have hstatus₂ : c₂.status = a.status := by rw [← hc₂, Controller.answered]
  have hidle := completes_waitNotBusy hpresent hstatus cmd.bus
  have hcommand := (completes_outb_registers hbusy₁ cmd.bus cmd.command).2.2.2.2.2
  rw [Controller.execute, if_pos hpresent₁, hanswer₁, hc₂] at hcommand
  have hfirst := completes_readStatus hpresent₂ cmd.bus
  rw [hc₁] at hidle
  rw [hc₁, Controller.executed, hanswer₁, hc₂, ha]
  by_cases hzero : (if c₂.busy = 0 then c₂.status else c₂.busyBits ||| ataBsy) = 0
  · have hnow : c₂.busy = 0 := by
      by_contra hne
      rw [if_neg hne] at hzero
      exact busy_ne_zero _ hzero
    have hnone : a.status = 0 := by rw [← hstatus₂, ← hzero, if_pos hnow]
    have hend : c₂.waited 1 = { c₂ with busy := 0 } := by
      rw [← hc₂]
      exact waited_answered (by omega) cmd.command
    rw [← hend, hnone]
    refine ⟨cmd, hidle.bind (hcommand.bind (hfirst.bind ?_))⟩
    rw [hzero, if_pos rfl]
    exact completes_pure _ _
  · have hstatus₃ : (c₂.waited 1).status &&& ataBsy = 0 := hstatus₂ ▸ a.not_busy
    obtain ⟨v, hwait₅⟩ := completes_ataWaitStatus (c := c₂.waited 1) hpresent₂ cmd.bus
    have hlast := completes_waitNotBusy (c := (c₂.waited 1).waited 5) hpresent₂ hstatus₃ cmd.bus
    have hstatus₄ : ((c₂.waited 1).waited 5).status = a.status := hstatus₂
    have hend : ((c₂.waited 1).waited 5).waited ((c₂.waited 1).waited 5).busy
        = { c₂ with busy := 0 } := by
      rw [waited_waited, waited_waited, ← hc₂]
      apply waited_answered
      change a.busy ≤ 1 + (5 + (a.busy - 1 - 5))
      omega
    rw [hend, hstatus₄] at hlast
    obtain ⟨cmd', hanswer⟩ := completes_answer { c₂ with busy := 0 } cmd a.status
    have hrequested : waitRequested cmd a.status = pure a.status := if_neg (not_not.mpr hwait)
    refine ⟨cmd', hidle.bind (hcommand.bind (hfirst.bind ?_))⟩
    rw [if_neg hzero]
    refine hwait₅.bind (hlast.bind ?_)
    rw [hrequested]
    exact (completes_pure _ _).bind hanswer

/-- `ata_send_command` on a controller that is not busy: the command goes where it says. -/
theorem completes_ataSendCommand (cmd : Command) (hbusy : c.busy = 0)
    (hstatus : c.status &&& ataBsy = 0)
    (hpresent : c.present (Ata.ataSendCommand cmd.toCmd).slave = true) (hwait : cmd.waitStatus = 0) :
  ∃ cmd', Completes (controller cmd.bus) (ataSendCommand cmd) c
    ((c.answers c.issued).status, cmd') (c.sent cmd.toCmd)
  := by
  obtain ⟨c₁, hc₁⟩ : ∃ c₁ : Controller, c₁ = { c with registers := { c.registers with
      device := cmd.device ||| (cmd.lbaSep 3 &&& 0xF) } } := ⟨_, rfl⟩
  obtain ⟨c₂, hc₂⟩ : ∃ c₂ : Controller, { c with registers :=
      { Ata.ataSendCommand cmd.toCmd with command := c.registers.command } } = c₂ := ⟨_, rfl⟩
  have hbusy₁ : c₁.busy = 0 := by rw [hc₁, hbusy]
  have hpresent₁ : c₁.present c₁.registers.slave = true := hc₁ ▸ hpresent
  have hbusy₂ : c₂.busy = 0 := by rw [← hc₂, hbusy]
  have hpresent₂ : c₂.present c₂.registers.slave = true := hc₂ ▸ hpresent
  have hstatus₂ : c₂.status &&& ataBsy = 0 := by rw [← hc₂, hstatus]
  obtain ⟨v, hwaited⟩ := completes_ataWaitStatus hpresent₁ cmd.bus
  obtain ⟨cmd', hissue⟩ := completes_issue hpresent₂ hstatus₂ hwait
  rw [waited_of_zero hbusy₁, hc₁] at hwaited
  rw [waited_of_zero hbusy₂, ← hc₂] at hissue
  refine ⟨cmd', (completes_outb_registers hbusy cmd.bus _).1.bind (hwaited.bind ?_)⟩
  refine (completes_outb_registers (by exact hbusy) cmd.bus _).2.1.bind ?_
  refine (completes_outb_registers (by exact hbusy) cmd.bus _).2.2.1.bind ?_
  refine (completes_outb_registers (by exact hbusy) cmd.bus _).2.2.2.1.bind ?_
  exact (completes_outb_registers (by exact hbusy) cmd.bus _).2.2.2.2.1.bind hissue

/-- `ata_send_command` on a controller that stays busy while it is told where the command goes: the
command goes where the one before it went. -/
theorem completes_ataSendCommand_busy (cmd : Command) (hbusy : 5 < c.busy)
    (hstatus : c.status &&& ataBsy = 0) (hpresent : c.present c.registers.slave = true)
    (hwait : cmd.waitStatus = 0) :
  ∃ cmd', Completes (controller cmd.bus) (ataSendCommand cmd) c ((c.answers c.issued).status, cmd')
    ({ c with busy := 0 }.executed cmd.command)
  := by
  have hignored : ∀ {c : Controller} (port : Nat) (v : UInt8), c.busy ≠ 0 →
      Completes (controller cmd.bus) (outb port v) c ⟨⟩ c := by
    intro c port v hne
    have hkept : (controller cmd.bus).outb c port v = c := if_pos hne
    have h := completes_outb (d := controller cmd.bus) port v c
    rwa [hkept] at h
  have hbusy₅ : (c.waited 5).busy ≠ 0 := by
    rw [Controller.waited]
    dsimp only
    omega
  obtain ⟨v, hwaited⟩ := completes_ataWaitStatus hpresent cmd.bus
  obtain ⟨cmd', hissue⟩ := completes_issue (c := c.waited 5) hpresent hstatus hwait
  have hend : (c.waited 5).waited (c.waited 5).busy = { c with busy := 0 } := by
    rw [Controller.waited, Nat.sub_self]
    rfl
  rw [hend] at hissue
  exact ⟨cmd', (hignored _ _ (by omega)).bind (hwaited.bind ((hignored _ _ hbusy₅).bind
    ((hignored _ _ hbusy₅).bind ((hignored _ _ hbusy₅).bind ((hignored _ _ hbusy₅).bind hissue)))))⟩

end Send

/-! ### Moving the data of a command -/

section Data

variable {c : Controller} {base : Nat} {buffer : Memory} {pos i : Nat}

/-- The controller with these bytes left to read. -/
def Controller.given (c : Controller) (bytes : List UInt8) : Controller :=
  { c with
    transfer := if bytes = [] then .none else .fromDrive bytes
    status := if bytes = [] then c.moved else c.status }

/-- The controller that is to write a sector when it has got these bytes. -/
def Controller.taken (c : Controller) (slave : Bool) (sector settle : Nat) (bytes : List UInt8) :
    Controller :=
  if bytes.length < 512 then { c with transfer := .toDrive slave sector settle bytes }
  else
    { c with
      sectors := fun s n =>
        if s = slave ∧ n = sector then (c.sectors s n).write 0 bytes else c.sectors s n
      busy := settle
      status := c.moved
      transfer := .none }

theorem readData_given (c : Controller) (low high : UInt8) (bytes : List UInt8) :
  (c.given (low :: high :: bytes)).readData
    = (UInt16.ofNat (low.toNat + 256 * high.toNat), c.given bytes)
  := rfl

theorem writeData_taken (c : Controller) (slave : Bool) (sector settle : Nat) {bytes : List UInt8}
    (h : bytes.length < 512) (w : UInt16) :
  (c.taken slave sector settle bytes).writeData w
    = c.taken slave sector settle (bytes ++ [UInt8.ofNat w.toNat, UInt8.ofNat (w.toNat / 256)])
  := by
  rw [Controller.taken, if_pos h]
  rfl

/-- A word is stored as the two bytes it is made of. -/
theorem store_word (m : Memory) (a : Nat) (low high : UInt8) :
  m.store a 2 (UInt16.ofNat (low.toNat + 256 * high.toNat)).toNat = m.write a [low, high]
  := by
  have hlow := low.toNat_lt
  have hhigh := high.toNat_lt
  have hword : (UInt16.ofNat (low.toNat + 256 * high.toNat)).toNat = low.toNat + 256 * high.toNat :=
    UInt16.toNat_ofNat_of_lt (by rw [UInt16.size]; omega)
  funext x
  rw [hword, Memory.store, Memory.write, List.length_cons, List.length_singleton]
  by_cases hx : a ≤ x ∧ x < a + 2
  · rw [if_pos hx, if_pos hx]
    obtain rfl | rfl : x = a ∨ x = a + 1 := by omega
    · rw [Nat.sub_self, Nat.pow_zero, Nat.div_one]
      apply UInt8.toNat_inj.mp
      rw [UInt8.toNat_ofNat', List.getD_cons_zero]
      omega
    · rw [Nat.add_sub_cancel_left, Nat.pow_one]
      apply UInt8.toNat_inj.mp
      rw [UInt8.toNat_ofNat', List.getD_cons_succ, List.getD_cons_zero]
      omega
  · rw [if_neg hx, if_neg hx]

/-- A word that is loaded is made of its two bytes. -/
theorem load_word (m : Memory) (a : Nat) :
  [UInt8.ofNat (UInt16.ofNat (m.load a 2)).toNat,
      UInt8.ofNat ((UInt16.ofNat (m.load a 2)).toNat / 256)]
    = m.read a 2
  := by
  have hlow := (m a).toNat_lt
  have hhigh := (m (a + 1)).toNat_lt
  have hload : m.load a 2 = (m a).toNat + 256 * (m (a + 1)).toNat := by
    rw [Memory.load, Memory.load, Memory.load, Nat.mul_zero, Nat.add_zero]
  have hword : (UInt16.ofNat (m.load a 2)).toNat = m.load a 2 :=
    UInt16.toNat_ofNat_of_lt (by rw [UInt16.size]; omega)
  have hfirst : UInt8.ofNat (m.load a 2) = m a := by
    apply UInt8.toNat_inj.mp
    rw [UInt8.toNat_ofNat']
    omega
  have hsecond : UInt8.ofNat (m.load a 2 / 256) = m (a + 1) := by
    apply UInt8.toNat_inj.mp
    rw [UInt8.toNat_ofNat']
    omega
  rw [hword, hfirst, hsecond]
  rfl

/-- The loop of `ata_read_block` puts the bytes of a sector in the buffer. -/
theorem completes_readWords {block : List UInt8} (hblock : block.length = 512) (hbusy : c.busy = 0)
    (base pos : Nat) (buffer : Memory) :
  Completes (controller base) (loop (readWord base pos) 256 0 buffer) (c.given block)
    (buffer.write pos block) (c.given [])
  := by
  have hturn : ∀ j b s, 0 ≤ j → j < 0 + 256 →
      b = buffer.write pos (block.take (2 * j)) ∧ s = c.given (block.drop (2 * j)) →
      ∃ b' s', Completes (controller base) (readWord base pos j b) s b' s'
        ∧ b' = buffer.write pos (block.take (2 * (j + 1)))
        ∧ s' = c.given (block.drop (2 * (j + 1))) := by
    rintro j b s - hj ⟨rfl, rfl⟩
    have hdrop : block.drop (2 * j)
        = block[2 * j] :: block[2 * j + 1] :: block.drop (2 * (j + 1)) := by
      rw [List.drop_eq_getElem_cons (by omega), List.drop_eq_getElem_cons (by omega)]
      rfl
    have htake : block.take (2 * (j + 1))
        = block.take (2 * j) ++ [block[2 * j], block[2 * j + 1]] := by
      rw [Nat.mul_add, List.take_add, hdrop]
      rfl
    have hread : (controller base).inw (c.given (block.drop (2 * j))) (ataData base)
        = (UInt16.ofNat (block[2 * j].toNat + 256 * block[2 * j + 1].toNat),
          c.given (block.drop (2 * (j + 1)))) := by
      rw [hdrop]
      exact if_pos ⟨rfl, hbusy⟩
    have hword := completes_inw (d := controller base) (ataData base) (c.given (block.drop (2 * j)))
    rw [hread] at hword
    refine ⟨_, _, hword.bind (completes_pure _ _), ?_, rfl⟩
    rw [store_word, htake, Memory.write_append, List.length_take]
    congr 1
    omega
  have hstart : buffer = buffer.write pos (block.take (2 * 0))
      ∧ c.given block = c.given (block.drop (2 * 0)) := by
    constructor
    · funext x
      exact (Memory.write_of_notMem buffer (by rw [List.take_zero, List.length_nil]; omega)).symm
    · rfl
  obtain ⟨b, s, hloop, rfl, rfl⟩ := completes_loop
    (fun j b s => b = buffer.write pos (block.take (2 * j)) ∧ s = c.given (block.drop (2 * j)))
    hturn hstart
  rwa [List.take_of_length_le (by omega), List.drop_eq_nil_of_le (by omega)] at hloop

/-- The loop of `ata_write_block` sends the bytes of the buffer. -/
theorem completes_writeWords (hbusy : c.busy = 0) (slave : Bool) (sector settle base : Nat)
    (buffer : Memory) (pos : Nat) :
  Completes (controller base) (loop (writeWord base buffer pos) 256 0 ⟨⟩)
    (c.taken slave sector settle []) ⟨⟩ (c.taken slave sector settle (buffer.read pos 512))
  := by
  have hturn : ∀ j (x : PUnit) s, 0 ≤ j → j < 0 + 256 →
      s = c.taken slave sector settle (buffer.read pos (2 * j)) →
      ∃ x' s', Completes (controller base) (writeWord base buffer pos j x) s x' s'
        ∧ s' = c.taken slave sector settle (buffer.read pos (2 * (j + 1))) := by
    rintro j x s - hj rfl
    have hlength : (buffer.read pos (2 * j)).length < 512 := by
      rw [Memory.read_length]
      omega
    have hidle : (c.taken slave sector settle (buffer.read pos (2 * j))).busy = 0 := by
      rw [Controller.taken, if_pos hlength]
      exact hbusy
    have hwrite : (controller base).outw (c.taken slave sector settle (buffer.read pos (2 * j)))
        (ataData base) (UInt16.ofNat (buffer.load (pos + 2 * j) 2))
        = c.taken slave sector settle (buffer.read pos (2 * (j + 1))) := by
      rw [Nat.mul_add, Memory.read_add, ← load_word, ← writeData_taken _ _ _ _ hlength]
      exact if_pos ⟨rfl, hidle⟩
    have hword := completes_outw (d := controller base) (ataData base)
      (UInt16.ofNat (buffer.load (pos + 2 * j) 2))
      (c.taken slave sector settle (buffer.read pos (2 * j)))
    rw [hwrite] at hword
    exact ⟨_, _, hword, rfl⟩
  have hstart : c.taken slave sector settle []
      = c.taken slave sector settle (buffer.read pos (2 * 0)) := rfl
  obtain ⟨x, s, hloop, hs⟩ := completes_loop (x := PUnit.unit)
    (fun j _ s => s = c.taken slave sector settle (buffer.read pos (2 * j))) hturn hstart
  rw [hs] at hloop
  exact hloop

/-- A drive that has not accepted a command does not take the words that it is sent. -/
theorem completes_writeWords_rejected (h : c.transfer = .none) (base : Nat) (buffer : Memory)
    (pos : Nat) :
  Completes (controller base) (loop (writeWord base buffer pos) 256 0 ⟨⟩) c ⟨⟩ c
  := by
  have hturn : ∀ j (x : PUnit) s, 0 ≤ j → j < 0 + 256 → s = c →
      ∃ x' s', Completes (controller base) (writeWord base buffer pos j x) s x' s' ∧ s' = c := by
    rintro j x s - - rfl
    have hword := completes_outw (d := controller base) (ataData base)
      (UInt16.ofNat (buffer.load (pos + 2 * j) 2)) s
    have hwrite : (controller base).outw s (ataData base)
        (UInt16.ofNat (buffer.load (pos + 2 * j) 2)) = s := by
      simp only [controller, Controller.writeData, h, ite_self]
    rw [hwrite] at hword
    exact ⟨_, _, hword, rfl⟩
  obtain ⟨x, s, hloop, hs⟩ := completes_loop (x := PUnit.unit) (fun _ _ s => s = c) hturn rfl
  rw [hs] at hloop
  exact hloop

end Data

end Ata.Driver
