import Mittos64.Fs.Vfs

/-!
# System calls

`syscall/syscall.c`, and the handlers of `syscall/sys_fs.c` that are given a descriptor.
The number of the call and its arguments are the registers of the user, any 64-bit values:
the number is the index into the table of handlers, and a descriptor, narrowed to an `int`,
is the index into the descriptor table of the process.  Neither of them is compared with
the size of its table.
-/

namespace Syscall

open Vfs

/-- The registers that hold the number and the arguments of a system call. -/
structure Registers where
  rax : BitVec 64
  rdi : BitVec 64
  rsi : BitVec 64
  rdx : BitVec 64
  r10 : BitVec 64
  r8 : BitVec 64
  r9 : BitVec 64

/-- The system calls that are given a descriptor. -/
inductive FdCall where
  | close
  | isatty
  | read
  | write
  | seek
  deriving DecidableEq

/-- The handlers that `syscall_init` registers. -/
inductive Handler where
  | debug
  | open
  | pipe
  | brk
  | fork
  | exit
  | wait
  | fd (call : FdCall)
  deriving DecidableEq

/-- The number of entries of `syscall_handlers` -/
def numHandlers : Nat := 1024

/-- `syscall_handlers` after `syscall_init`.  An index beyond the table reads memory that is
not modelled. -/
def syscallHandlers : Nat → Option Handler
  | 0x3FF => some .debug
  | 0x001 => some .open
  | 0x002 => some (.fd .close)
  | 0x003 => some (.fd .read)
  | 0x004 => some (.fd .write)
  | 0x005 => some (.fd .isatty)
  | 0x006 => some (.fd .seek)
  | 0x007 => some .brk
  | 0x008 => some .fork
  | 0x009 => some .exit
  | 0x00A => some .wait
  | 0x00B => some .pipe
  | _ => none

/-- `syscall_handler(r)`: the entry of the table that it goes to, and the handler it finds
there.  Without a handler the kernel stops. -/
def syscallHandler (r : Registers) : Nat × Option Handler :=
  (r.rax.toNat, syscallHandlers r.rax.toNat)

/-- The cast `(int)` of `SYSCALL_INIT` -/
def toInt (a : BitVec 64) : Int :=
  (a.setWidth 32).toInt

/-- The functions `read` and `write` of the drivers, with the file, the buffer, the number
of bytes and the offset. -/
structure Drivers where
  read : Heap → Ptr → BitVec 64 → BitVec 64 → BitVec 64 → BitVec 64 × Heap
  write : Heap → Ptr → BitVec 64 → BitVec 64 → BitVec 64 → BitVec 64 × Heap

/-- `fs_read(file, buffer, nbyte, offset)` -/
def fsRead (io : Drivers) (h : Heap) (file : Ptr) (buffer nbyte offset : BitVec 64) :
    BitVec 64 × Heap :=
  if file = .null then (-1, h)
  else
    match (h.file file).driver with
    | some .pipeReader => io.read h file buffer nbyte offset
    | some .ataFs => io.read h file buffer nbyte offset
    | _ => (-1, h)

/-- `fs_write(file, buffer, nbyte, offset)` -/
def fsWrite (io : Drivers) (h : Heap) (file : Ptr) (buffer nbyte offset : BitVec 64) :
    BitVec 64 × Heap :=
  if file = .null then (-1, h)
  else
    match (h.file file).driver with
    | some .pipeWriter => io.write h file buffer nbyte offset
    | some .debugFs => io.write h file buffer nbyte offset
    | some .ataFs => io.write h file buffer nbyte offset
    | _ => (-1, h)

/-- `fp[fd].pos = pos` -/
def setPos (p : Proc) (fd : Int) (pos : BitVec 64) : Proc :=
  { p with fp := Function.update p.fp fd { p.fp fd with pos := pos } }

/-- `syscall_isatty(fd)` -/
def syscallIsatty (h : Heap) (p : Proc) (fd : Int) : BitVec 64 × Heap × Proc :=
  let file := (p.fp fd).file
  if file ≠ .null ∧ (h.file file).type &&& fsTty = fsTty then (1, h, p.touch fd)
  else (0, h, p.touch fd)

/-- `syscall_read(fd, buffer, nbyte)` -/
def syscallRead (io : Drivers) (h : Heap) (p : Proc) (fd : Int) (buffer nbyte : BitVec 64) :
    BitVec 64 × Heap × Proc :=
  let c := fsRead io h (p.fp fd).file buffer nbyte (p.fp fd).pos
  (c.1, c.2, setPos (p.touch fd) fd ((p.fp fd).pos + c.1))

/-- `syscall_write(fd, buffer, nbyte)` -/
def syscallWrite (io : Drivers) (h : Heap) (p : Proc) (fd : Int) (buffer nbyte : BitVec 64) :
    BitVec 64 × Heap × Proc :=
  let c := fsWrite io h (p.fp fd).file buffer nbyte (p.fp fd).pos
  (c.1, c.2, setPos (p.touch fd) fd ((p.fp fd).pos + c.1))

/-- `syscall_seek(fd, offset, whence)` -/
def syscallSeek (h : Heap) (p : Proc) (fd : Int) (offset : BitVec 64) (whence : Int) :
    BitVec 64 × Heap × Proc :=
  if (p.fp fd).file = .null then (-1, h, p.touch fd)
  else
    let pos :=
      if whence = 0 then offset
      else if whence = 1 then (p.fp fd).pos + offset
      else (p.fp fd).pos
    (pos, h, setPos (p.touch fd) fd pos)

/-- The handler of a system call that is given a descriptor, with the value it returns.  The
record of the entries it goes to starts empty. -/
def handle (io : Drivers) (h : Heap) (p : Proc) (call : FdCall) (r : Registers) :
    BitVec 64 × Heap × Proc :=
  let p := { p with touched := [] }
  let fd := toInt r.rdi
  match call with
  | .close =>
      let c := syscallClose h p fd
      (BitVec.ofInt 64 c.1, c.2)
  | .isatty => syscallIsatty h p fd
  | .read => syscallRead io h p fd r.rsi r.rdx
  | .write => syscallWrite io h p fd r.rsi r.rdx
  | .seek => syscallSeek h p fd r.rsi (toInt r.rdx)

/-- The system call goes to the table of handlers only within its entries, and when it is
given a descriptor, it goes to the descriptor table only within its slots: for any other
descriptor it returns an error and leaves the table as it is. -/
def IndexSafe (io : Drivers) (h : Heap) (p : Proc) (r : Registers) : Prop :=
  (syscallHandler r).1 < numHandlers
    ∧ ∀ call, (syscallHandler r).2 = some (.fd call) →
        let c := handle io h p call r
        (∀ i ∈ c.2.2.touched, i ∈ indices)
          ∧ (toInt r.rdi ∉ indices → c.1 = -1 ∧ c.2.2.fp = p.fp)

/-- Every handler goes to the entry at the index it is given. -/
theorem handle_touched (io : Drivers) (h : Heap) (p : Proc) (call : FdCall) (r : Registers) :
  (handle io h p call r).2.2.touched = [toInt r.rdi]
  := by
  cases call with
  | close => rfl
  | isatty =>
      rw [handle, syscallIsatty]
      dsimp only
      split <;> rfl
  | read => rfl
  | write => rfl
  | seek =>
      rw [handle, syscallSeek]
      dsimp only
      split <;> rfl

/-- A system call stays within both tables exactly when its number is below the size of the
table of handlers and its descriptor, when it is given one, is the index of a slot. -/
theorem indexSafe_iff (io : Drivers) (h : Heap) (p : Proc) (r : Registers) :
  IndexSafe io h p r ↔ r.rax.toNat < 1024
    ∧ ((∃ call, syscallHandlers r.rax.toNat = some (.fd call)) →
        0 ≤ toInt r.rdi ∧ toInt r.rdi < procNumfp)
  := by
  have hindices : ∀ i : Int, i ∈ indices ↔ 0 ≤ i ∧ i < procNumfp := by
    intro i
    rw [indices, List.mem_map]
    constructor
    · rintro ⟨n, hn, rfl⟩
      rw [List.mem_range] at hn
      omega
    · rintro ⟨hnonneg, hlt⟩
      exact ⟨i.toNat, List.mem_range.mpr (by omega), Int.toNat_of_nonneg hnonneg⟩
  constructor
  · rintro ⟨hindex, hcalls⟩
    refine ⟨hindex, ?_⟩
    rintro ⟨call, hcall⟩
    have htouched := (hcalls call hcall).1
    rw [handle_touched] at htouched
    exact (hindices _).mp (htouched _ List.mem_cons_self)
  · rintro ⟨hindex, hfd⟩
    refine ⟨hindex, ?_⟩
    intro call hcall
    have hslot := (hindices _).mpr (hfd ⟨call, hcall⟩)
    dsimp only
    rw [handle_touched]
    refine ⟨?_, fun hout => absurd hslot hout⟩
    intro i hi
    rwa [List.mem_singleton.mp hi]

/-- A process whose table is followed by a word that reads as the file number 0. -/
def neighbour : Proc where
  fp := fun i => if i = 20 then { file := .device 0, flags := 0, pos := 0 } else Slot.zero
  zombie := false
  touched := []

/-- A heap with one file that has two users. -/
def twoUsers : Heap where
  file := fun _ => { refs := 2, type := fsTty, driver := some .debugFs, data := .null }
  pipe := fun _ => { buffer := .null, readers := 0, writers := 0, reader := .null, writer := .null }
  devices := 1
  pipes := 0
  freed := []
  faults := []

/-- Drivers that transfer all bytes. -/
def allBytes : Drivers where
  read h _ _ nbyte _ := (nbyte, h)
  write h _ _ nbyte _ := (nbyte, h)

/-- The registers of `close(20)`. -/
def closeTwenty : Registers where
  rax := 2
  rdi := 20
  rsi := 0
  rdx := 0
  r10 := 0
  r8 := 0
  r9 := 0

/-- `close(20)` takes the word behind the table for a file, drops a reference to it and
clears the word, and the system call number 1024 goes beyond the table of handlers. -/
theorem close_beyond_table :
  ¬ IndexSafe allBytes twoUsers neighbour closeTwenty
    ∧ (handle allBytes twoUsers neighbour .close closeTwenty).2.2.touched = [20]
    ∧ ((handle allBytes twoUsers neighbour .close closeTwenty).2.1.file (.device 0)).refs = 1
    ∧ ((handle allBytes twoUsers neighbour .close closeTwenty).2.2.fp 20).file = .null
    ∧ ¬ IndexSafe allBytes twoUsers neighbour { closeTwenty with rax := 1024 }
  := by
  refine ⟨?_, by decide, by decide, by decide, ?_⟩
  · intro hsafe
    have htouched := (hsafe.2 .close (by decide)).1
    exact absurd (htouched 20 (by decide)) (by decide)
  · intro hsafe
    exact absurd hsafe.1 (by decide)

end Syscall
