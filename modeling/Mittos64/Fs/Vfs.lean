import Mathlib.Data.List.Basic
import Mathlib.Data.Nat.ModEq
import Mathlib.Logic.Function.Basic

/-!
# Files and descriptors

`fs/vfs.c`, the opening and closing of `fs/pipe.c`, and the functions that work on the
descriptor table of a process: `close` and `pipe` of `syscall/sys_fs.c`, the copy of the
table in `process_spawn` and the loop over the table in `process_exit`.

The memory is a collection of blocks.  A block is named by the call that allocated it, so
that a block that was freed is not the block of a later call.  The history records the
calls of `kfree`, and every access to a block and every call of `kfree` on a block that
was freed before.
-/

namespace Vfs

/-- `PROC_NUMFP` -/
def procNumfp : Nat := 20

/-- `FS_TTY` -/
def fsTty : Nat := 0x4

/-- A pointer: null, a file that is not an end of a pipe, or one of the four blocks that
the call number `k` of `pipe` allocates. -/
inductive Ptr where
  | null
  | device (n : Nat)
  | reader (k : Nat)
  | writer (k : Nat)
  | data (k : Nat)
  | buffer (k : Nat)
  deriving DecidableEq

/-- The `fs_driver_t` structures of the kernel. -/
inductive Driver where
  | debugFs
  | ataFs
  | pipeReader
  | pipeWriter
  deriving DecidableEq

/-- `file_t` -/
structure File where
  refs : Nat
  type : Nat
  driver : Option Driver
  data : Ptr

/-- The file that `kcalloc` gives out. -/
def File.zero : File where
  refs := 0
  type := 0
  driver := none
  data := .null

/-- The files and the users of a `struct pipe_data`.  What it says about the bytes in the
pipe is in the module on pipes. -/
structure PipeData where
  buffer : Ptr
  readers : Nat
  writers : Nat
  reader : Ptr
  writer : Ptr

/-- The kernel heap, as far as files go: the contents of the blocks, the numbers of blocks
allocated so far, and the history. -/
structure Heap where
  file : Ptr → File
  pipe : Ptr → PipeData
  devices : Nat
  pipes : Nat
  freed : List Ptr
  faults : List Ptr

/-- An access to the block `a`. -/
def Heap.touch (h : Heap) (a : Ptr) : Heap :=
  { h with faults := if a ∈ h.freed then h.faults ++ [a] else h.faults }

/-- `kfree(a)` -/
def Heap.kfree (h : Heap) (a : Ptr) : Heap :=
  { h.touch a with freed := h.freed ++ [a] }

/-- `file->refs = n` -/
def Heap.setRefs (h : Heap) (file : Ptr) (n : Nat) : Heap :=
  { h.touch file with file := Function.update h.file file { h.file file with refs := n } }

/-- `d->readers = n` -/
def Heap.setReaders (h : Heap) (d : Ptr) (n : Nat) : Heap :=
  { h.touch d with pipe := Function.update h.pipe d { h.pipe d with readers := n } }

/-- `d->writers = n` -/
def Heap.setWriters (h : Heap) (d : Ptr) (n : Nat) : Heap :=
  { h.touch d with pipe := Function.update h.pipe d { h.pipe d with writers := n } }

/-- The decrement of a counter, which wraps at zero. -/
def decr (n : Nat) : Nat :=
  if n = 0 then 2 ^ 64 - 1 else n - 1

/-- `kcalloc(1, sizeof(file_t))` in `fs_get` -/
def Heap.kcallocFile (h : Heap) : Ptr × Heap :=
  (.device h.devices,
    { h with
      file := Function.update h.file (.device h.devices) File.zero
      devices := h.devices + 1 })

/-- `fs_get(file)` -/
def fsGet (h : Heap) (file : Ptr) : Ptr × Heap :=
  let a := if file = .null then h.kcallocFile else (file, h)
  (a.1, a.2.setRefs a.1 ((a.2.file a.1).refs + 1))

/-- `fs_put(file)` -/
def fsPut (h : Heap) (file : Ptr) : Ptr × Heap :=
  if file = .null then (file, h)
  else
    let h := h.setRefs file (decr (h.file file).refs)
    if (h.file file).refs = 0 then (.null, h.kfree file) else (file, h)

/-- `pipe_open(file, flags)` -/
def pipeOpen (h : Heap) (file : Ptr) : Int × Heap :=
  let d := (h.file file).data
  if file = (h.pipe d).reader then
    (0, (h.touch file).setReaders d ((h.pipe d).readers + 1))
  else (0, (h.touch file).setWriters d ((h.pipe d).writers + 1))

/-- `pipe_close(file)` -/
def pipeClose (h : Heap) (file : Ptr) : Int × Heap :=
  let d := (h.file file).data
  let h' :=
    if file = (h.pipe d).reader then (h.touch file).setReaders d (decr (h.pipe d).readers)
    else (h.touch file).setWriters d (decr (h.pipe d).writers)
  if (h'.pipe d).readers = 0 ∧ (h'.pipe d).writers = 0 then (0, (h'.kfree d).kfree file)
  else (0, h')

/-- `fs_open(file, flags)`.  Of all drivers only those of a pipe have an `open`, which does
not look at the flags. -/
def fsOpen (h : Heap) (file : Ptr) : Int × Heap :=
  if file = .null then (-1, h)
  else
    match (h.file file).driver with
    | some .pipeReader => pipeOpen (h.touch file) file
    | some .pipeWriter => pipeOpen (h.touch file) file
    | _ => (-1, h.touch file)

/-- `fs_close(file)`.  Of all drivers only those of a pipe have a `close`. -/
def fsClose (h : Heap) (file : Ptr) : Int × Heap :=
  if file = .null then (-1, h)
  else
    match (h.file file).driver with
    | some .pipeReader => pipeClose (h.touch file) file
    | some .pipeWriter => pipeClose (h.touch file) file
    | _ => (-1, h.touch file)

/-- `pipe(&r, &w)`: the two files, and the heap with the four blocks of the call. -/
def pipe (h : Heap) : Ptr × Ptr × Heap :=
  let k := h.pipes
  let r := { File.zero with data := .data k, driver := some .pipeReader }
  let w := { File.zero with data := .data k, driver := some .pipeWriter }
  let d :=
    { buffer := .buffer k, readers := 0, writers := 0, reader := .reader k, writer := .writer k }
  (.reader k, .writer k,
    { h with
      file := Function.update (Function.update h.file (.reader k) r) (.writer k) w
      pipe := Function.update h.pipe (.data k) d
      pipes := k + 1 })

/-! ### Descriptors -/

/-- An entry of `fp` in a `process_t`. -/
structure Slot where
  file : Ptr
  flags : BitVec 64
  pos : BitVec 64

/-- The entry in memory that `kcalloc` gives out. -/
def Slot.zero : Slot where
  file := .null
  flags := 0
  pos := 0

/-- A `process_t`, with its descriptor table and whether it is a zombie.  The table is an
array of `PROC_NUMFP` entries in the middle of the kernel heap: an entry at any other index
is what the bytes around the table read as.  `touched` records the indices that the
handlers of system calls went to. -/
structure Proc where
  fp : Int → Slot
  zombie : Bool
  touched : List Int

/-- The indices of the table, in the order in which the loops go through them. -/
def indices : List Int :=
  (List.range procNumfp).map Nat.cast

/-- `fp[i].file = file` -/
def setFile (fp : Int → Slot) (i : Int) (file : Ptr) : Int → Slot :=
  Function.update fp i { fp i with file := file }

/-- The loops that look for an entry without a file. -/
def firstFree (fp : Int → Slot) : Option Int :=
  indices.find? fun i => (fp i).file = .null

/-- An access to the entry at the index `fd`. -/
def Proc.touch (p : Proc) (fd : Int) : Proc :=
  { p with touched := p.touched ++ [fd] }

/-- `syscall_close(fd)`, with the value it returns. -/
def syscallClose (h : Heap) (p : Proc) (fd : Int) : Int × Heap × Proc :=
  let file := (p.fp fd).file
  let c := fsClose h file
  let h := (fsPut c.2 file).2
  let p := p.touch fd
  (c.1, h, { p with fp := setFile p.fp fd .null })

/-- The label `pipe_fail` of `syscall_pipe`, reached with the descriptor `fd[0]` of the
writer, if there is one, and without a descriptor of the reader. -/
def pipeFail (h : Heap) (p : Proc) (r w : Ptr) (fd : Option Int) : Heap × Proc :=
  let h := (h.kfree r).kfree w
  match fd with
  | none => (h, p)
  | some i => ((fsPut h (p.fp i).file).2, { p with fp := setFile p.fp i .null })

/-- `syscall_pipe(fd)`, with the value it returns and the descriptors of the writer and of
the reader that it puts in `fd`. -/
def syscallPipe (h : Heap) (p : Proc) : Int × (Int × Int) × Heap × Proc :=
  let (r, w, h) := pipe h
  match firstFree p.fp with
  | none => (-1, (-1, -1), pipeFail h p r w none)
  | some i =>
      let a := fsGet h w
      let p := { p with fp := setFile p.fp i a.1 }
      let h := (fsOpen a.2 w).2
      match firstFree p.fp with
      | none => (-1, (i, -1), pipeFail h p r w (some i))
      | some j =>
          let a := fsGet h r
          let p := { p with fp := setFile p.fp j a.1 }
          let h := (fsOpen a.2 r).2
          (0, (i, j), h, p)

/-- One turn of the loop of `process_spawn` over the table of the parent. -/
def copySlot (parent : Int → Slot) (c : Heap × (Int → Slot)) (i : Int) : Heap × (Int → Slot) :=
  if (parent i).file = .null then c
  else
    let a := fsGet c.1 (parent i).file
    let slot := { file := a.1, flags := (parent i).flags, pos := (parent i).pos }
    ((fsOpen a.2 a.1).2, Function.update c.2 i slot)

/-- The part of `process_spawn(parent)` that is about files: the table of the child. -/
def processSpawn (h : Heap) (parent : Proc) : Heap × Proc :=
  let c := indices.foldl (copySlot parent.fp) (h, fun _ => Slot.zero)
  (c.1, { fp := c.2, zombie := false, touched := [] })

/-- One turn of the loop of `process_exit` over the table. -/
def exitSlot (fp : Int → Slot) (h : Heap) (i : Int) : Heap :=
  if (fp i).file = .null then h
  else (fsPut (fsClose h (fp i).file).2 (fp i).file).2

/-- The part of `process_exit(proc, status)` that is about files.  The entries of the table
keep their values. -/
def processExit (h : Heap) (p : Proc) : Heap × Proc :=
  (indices.foldl (exitSlot p.fp) h, { p with zombie := true })

end Vfs
