import Mittos64.Fs.Descriptors
import Mittos64.Fs.Pipe
import Mittos64.Syscall

/-!
# Calls of `pipe`

`syscall_pipe` of `syscall/sys_fs.c` as the process sees it.  A call that finds no room for two
descriptors frees the two files, the file of the writer once more when it had got a descriptor, and
neither the `pipe_data` nor the buffer.  A call that succeeds puts the descriptor of the writer in
`fd[0]` and that of the reader in `fd[1]`; what is written on the one is read on the other, but not
in the direction of the caller.
-/

namespace Vfs

/-! ### Calls that fail -/

/-- The blocks that were allocated between the two heaps. -/
def allocated (h h' : Heap) : List Ptr :=
  (List.range' h.devices (h'.devices - h.devices)).map .device
    ++ (List.range' h.pipes (h'.pipes - h.pipes)).flatMap blocks

/-- The call of `pipe` returns an error, leaves the table as it was, and frees the blocks that it
has allocated, each of them once, and no other block. -/
def FailsCleanly (h : Heap) (p : Proc) : Prop :=
  let r := syscallPipe h p
  r.1 = -1 ∧ r.2.2.2 = p
    ∧ ∃ l, r.2.2.1.freed = h.freed ++ l ∧ l.Perm (allocated h r.2.2.1)

section Fails

variable {h : Heap} {p : Proc}

theorem getOpen_devices {f : Ptr} (hf : f ≠ .null) :
  (getOpen h f).devices = h.devices
  := by
  rw [getOpen_eq hf]
  simp only
  split_ifs
  · rfl
  · rfl

theorem fsPut_devices {f : Ptr} (hf : f ≠ .null) :
  (fsPut h f).2.devices = h.devices
  := by
  rw [fsPut_eq hf]
  simp only
  split_ifs
  · rfl
  · rfl

/-- Fewer than two empty entries are one, which the writer gets, or none. -/
theorem fewSlots_cases (hfew : emptySlots p.fp < 2) :
  (emptySlots p.fp = 0 ∧ firstFree p.fp = none)
    ∨ ∃ i, emptySlots p.fp = 1 ∧ firstFree p.fp = some i
        ∧ firstFree (setFile p.fp i (.writer h.pipes)) = none
  := by
  have hnone : ∀ {fp}, emptySlots fp = 0 → firstFree fp = none := by
    intro fp hzero
    rw [emptySlots, List.countP_eq_zero] at hzero
    apply List.find?_eq_none.mpr hzero
  by_cases hzero : emptySlots p.fp = 0
  · exact Or.inl ⟨hzero, hnone hzero⟩
  · obtain ⟨i, hi⟩ := exists_firstFree (Nat.pos_of_ne_zero hzero)
    have hone := emptySlots_setFile (f := .writer h.pipes) hi (by rintro ⟨⟩)
    exact Or.inr ⟨i, by omega, hi, hnone (by omega)⟩

/-- Without an empty entry the two files are freed. -/
theorem syscallPipe_noSlot (hi : firstFree p.fp = none) :
  (syscallPipe h p).1 = -1 ∧ (syscallPipe h p).2.2.2 = p
    ∧ (syscallPipe h p).2.2.1.freed = h.freed ++ [.reader h.pipes, .writer h.pipes]
    ∧ allocated h (syscallPipe h p).2.2.1 = blocks h.pipes
  := by
  have hret : (syscallPipe h p).1 = -1 := by
    rw [syscallPipe]
    simp only [pipe, hi]
  rw [hret, syscallPipe_none hi]
  refine ⟨rfl, rfl, ?_, ?_⟩
  · rw [Heap.kfree_freed, Heap.kfree_freed, List.append_assoc]
    rfl
  · simp [allocated, pipe, Heap.kfree, Heap.touch]

/-- With one empty entry the file of the writer is freed twice. -/
theorem syscallPipe_oneSlot {i : Int} (hi : firstFree p.fp = some i)
    (hj : firstFree (setFile p.fp i (.writer h.pipes)) = none) :
  (syscallPipe h p).1 = -1 ∧ (syscallPipe h p).2.2.2 = p
    ∧ (syscallPipe h p).2.2.1.freed
      = h.freed ++ [.reader h.pipes, .writer h.pipes, .writer h.pipes]
    ∧ allocated h (syscallPipe h p).2.2.1 = blocks h.pipes
  := by
  have hne : Ptr.writer h.pipes ≠ .null := by rintro ⟨⟩
  have hret : (syscallPipe h p).1 = -1 := by
    rw [syscallPipe]
    simp only [pipe, hi, fsGet_of_ne hne, hj]
  obtain ⟨h', hh'⟩ : ∃ h', h' = getOpen (pipe h).2.2 (.writer h.pipes) := ⟨_, rfl⟩
  have hrefs : (h'.file (.writer h.pipes)).refs = 1 := by
    rw [hh', getOpen_file hne, Function.update_self, pipe_file_writer]
    rfl
  have hfreed : h'.freed = h.freed := by
    rw [hh', getOpen_freed hne]
    rfl
  have hpipes : h'.pipes = h.pipes + 1 := by
    rw [hh', getOpen_pipes hne]
    rfl
  have hdevices : h'.devices = h.devices := by
    rw [hh', getOpen_devices hne]
    rfl
  rw [hret, syscallPipe_one hi hj, ← hh']
  refine ⟨rfl, rfl, ?_, ?_⟩
  · rw [fsPut_eq hne]
    simp only [Heap.kfree_file, hrefs]
    rw [if_pos (decr_succ 0)]
    simp [hfreed]
  · rw [allocated, fsPut_pipes hne, fsPut_devices hne]
    simp [Heap.kfree, Heap.touch, hpipes, hdevices]

/-- A call of `pipe` with fewer than two empty entries returns an error and leaves the table as it
was, but it never gives back what it has allocated: the `pipe_data` and the buffer are lost, and
with one empty entry the file of the writer is freed twice. -/
theorem syscallPipe_never_clean (h : Heap) {p : Proc} (hfew : emptySlots p.fp < 2) :
  ¬ FailsCleanly h p ∧ (syscallPipe h p).1 = -1 ∧ (syscallPipe h p).2.2.2 = p
    ∧ allocated h (syscallPipe h p).2.2.1 = blocks h.pipes
    ∧ (syscallPipe h p).2.2.1.freed = h.freed ++ [.reader h.pipes, .writer h.pipes]
        ++ List.replicate (emptySlots p.fp) (.writer h.pipes)
  := by
  have hspec : (syscallPipe h p).1 = -1 ∧ (syscallPipe h p).2.2.2 = p
      ∧ (syscallPipe h p).2.2.1.freed = h.freed ++ ([.reader h.pipes, .writer h.pipes]
          ++ List.replicate (emptySlots p.fp) (.writer h.pipes))
      ∧ allocated h (syscallPipe h p).2.2.1 = blocks h.pipes := by
    obtain ⟨hzero, hi⟩ | ⟨i, hone, hi, hj⟩ := fewSlots_cases (h := h) hfew
    · rw [hzero]
      apply syscallPipe_noSlot hi
    · rw [hone]
      apply syscallPipe_oneSlot hi hj
  obtain ⟨hret, htable, hfreed, halloc⟩ := hspec
  refine ⟨?_, hret, htable, halloc, ?_⟩
  · rintro ⟨-, -, l, hl, hperm⟩
    obtain rfl := List.append_cancel_left (hfreed.symm.trans hl)
    rw [halloc] at hperm
    -- the `pipe_data` is not among the blocks that were freed
    have hdata := hperm.mem_iff.mpr (data_mem_blocks h.pipes)
    simp at hdata
  · rw [hfreed, List.append_assoc]

/-- A table whose entries hold files, but for the one at the index 5. -/
def oneSlot : Proc where
  fp := fun i => if i = 5 then Slot.zero else { file := .device 0, flags := 0, pos := 0 }
  zombie := false
  touched := []

theorem syscallPipe_never_clean_oneSlot :
  ¬ FailsCleanly oneProcess.heap oneSlot
    ∧ (syscallPipe oneProcess.heap oneSlot).2.2.1.freed = [.reader 0, .writer 0, .writer 0]
  := by
  obtain ⟨hnot, -, -, -, hfreed⟩ := syscallPipe_never_clean oneProcess.heap (p := oneSlot) (by decide)
  refine ⟨hnot, hfreed.trans ?_⟩
  decide

/-- With one empty entry, the file of the writer is freed twice, and the `pipe_data` and the buffer
are not freed. -/
theorem oneSlot_fails_dirty :
  emptySlots oneSlot.fp = 1 ∧ (syscallPipe oneProcess.heap oneSlot).2.2.1.freed.count (.writer 0) = 2
    ∧ (syscallPipe oneProcess.heap oneSlot).2.2.1.freed.count (.data 0) = 0
    ∧ (syscallPipe oneProcess.heap oneSlot).2.2.1.freed.count (.buffer 0) = 0
    ∧ ¬ FailsCleanly oneProcess.heap oneSlot
  := by
  have hfree : firstFree oneSlot.fp = some 5 := by decide
  have hnone : firstFree (setFile oneSlot.fp 5 (.writer oneProcess.heap.pipes)) = none := by decide
  obtain ⟨-, -, hfreed, halloc⟩ := syscallPipe_oneSlot hfree hnone
  rw [hfreed]
  refine ⟨by decide, by decide, by decide, by decide, ?_⟩
  rintro ⟨-, -, l, hl, hperm⟩
  obtain rfl := List.append_cancel_left (hfreed.symm.trans hl)
  rw [halloc] at hperm
  revert hperm
  decide

end Fails

/-! ### Reads and writes with their bytes -/

/-- The heap of files, with the contents of the `pipe_data` blocks. -/
structure Files where
  heap : Heap
  ring : Ptr → Pipe.PipeData

/-- The functions `read` and `write` of the drivers of files that are no ends of pipes, with the
bytes that they put in or take from the buffer of the caller. -/
structure OtherDrivers where
  read : Files → Ptr → Nat → BitVec 64 → BitVec 64 × List UInt8 × Files
  write : Files → Ptr → List UInt8 → BitVec 64 → BitVec 64 × Files

/-- `pipe_read(file, buffer, nbyte, offset)`, unless it has to wait. -/
def pipeRead (s : Files) (file : Ptr) (nbyte : Nat) : Option (BitVec 64 × List UInt8 × Files) :=
  let d := (s.heap.file file).data
  (Pipe.readSection (s.ring d) nbyte).map fun r =>
    (BitVec.ofNat 64 r.1, r.2.1, { s with ring := Function.update s.ring d r.2.2 })

/-- `pipe_write(file, buf, nbyte, offset)`, unless it has to wait. -/
def pipeWrite (s : Files) (file : Ptr) (buf : List UInt8) : Option (BitVec 64 × Files) :=
  let d := (s.heap.file file).data
  (Pipe.writeSection (buf.length + 1) (s.ring d) (Pipe.Writer.start buf)).bind fun r =>
    if r.2.nbyte = 0 then
      some (BitVec.ofNat 64 r.2.written, { s with ring := Function.update s.ring d r.1 })
    else none

/-- `fs_read(file, buffer, nbyte, offset)`, unless it has to wait. -/
def fsRead (io : OtherDrivers) (s : Files) (file : Ptr) (nbyte : Nat) (offset : BitVec 64) :
    Option (BitVec 64 × List UInt8 × Files) :=
  if file = .null then some (-1, [], s)
  else
    match (s.heap.file file).driver with
    | some .pipeReader => pipeRead s file nbyte
    | some .ataFs => some (io.read s file nbyte offset)
    | _ => some (-1, [], s)

/-- `fs_write(file, buffer, nbyte, offset)`, unless it has to wait. -/
def fsWrite (io : OtherDrivers) (s : Files) (file : Ptr) (buf : List UInt8) (offset : BitVec 64) :
    Option (BitVec 64 × Files) :=
  if file = .null then some (-1, s)
  else
    match (s.heap.file file).driver with
    | some .pipeWriter => pipeWrite s file buf
    | some .debugFs => some (io.write s file buf offset)
    | some .ataFs => some (io.write s file buf offset)
    | _ => some (-1, s)

/-- `syscall_read(fd, buffer, nbyte)`, with the bytes in the buffer, unless it has to wait. -/
def syscallRead (io : OtherDrivers) (s : Files) (p : Proc) (fd : Int) (nbyte : Nat) :
    Option (BitVec 64 × List UInt8 × Files × Proc) :=
  (fsRead io s (p.fp fd).file nbyte (p.fp fd).pos).map fun r =>
    (r.1, r.2.1, r.2.2, Syscall.setPos p fd ((p.fp fd).pos + r.1))

/-- `syscall_write(fd, buffer, nbyte)`, with the bytes of the buffer, unless it has to wait. -/
def syscallWrite (io : OtherDrivers) (s : Files) (p : Proc) (fd : Int) (buf : List UInt8) :
    Option (BitVec 64 × Files × Proc) :=
  (fsWrite io s (p.fp fd).file buf (p.fp fd).pos).map fun r =>
    (r.1, r.2, Syscall.setPos p fd ((p.fp fd).pos + r.1))

/-- `syscall_pipe(fd)`, with the contents of the new `pipe_data`. -/
def pipeCall (s : Files) (p : Proc) : Int × (Int × Int) × Files × Proc :=
  let r := syscallPipe s.heap p
  let ring := Function.update s.ring (.data s.heap.pipes) Pipe.pipe
  (r.1, r.2.1, { heap := r.2.2.1, ring := ring }, r.2.2.2)

/-- The bytes that are written on the descriptor `fdw` all go, and a read of `nbyte` bytes on the
descriptor `fdr` that follows gets them. -/
def Delivers (io : OtherDrivers) (s : Files) (p : Proc) (fdw fdr : Int) (buf : List UInt8)
    (nbyte : Nat) : Prop :=
  ∃ s' p' s'' p'', syscallWrite io s p fdw buf = some (BitVec.ofNat 64 buf.length, s', p')
    ∧ syscallRead io s' p' fdr nbyte = some (BitVec.ofNat 64 buf.length, buf, s'', p'')

/-- Whatever fits in a pipe is delivered from `fdw` to `fdr`. -/
def DeliversAll (io : OtherDrivers) (s : Files) (p : Proc) (fdw fdr : Int) : Prop :=
  ∀ buf ≠ [], buf.length ≤ Pipe.pipeSize → ∀ nbyte, buf.length ≤ nbyte → nbyte < 2 ^ 64 →
    Delivers io s p fdw fdr buf nbyte

/-- The empty entries of a table, in order. -/
def freeSlots (fp : Int → Slot) : List Int :=
  indices.filter fun i => (fp i).file = .null

/-- The call of `pipe` returns 0, puts files in the two lowest empty entries and changes no other
entry. -/
def TakesLowest (s : Files) (p : Proc) : Prop :=
  let r := pipeCall s p
  r.1 = 0 ∧ ∃ i j rest, freeSlots p.fp = i :: j :: rest ∧ (r.2.1 = (i, j) ∨ r.2.1 = (j, i))
    ∧ (r.2.2.2.fp i).file ≠ .null ∧ (r.2.2.2.fp j).file ≠ .null
    ∧ ∀ n, n ≠ i → n ≠ j → r.2.2.2.fp n = p.fp n

/-- The call of `pipe` succeeds, and what is written on `fd[1]` is read on `fd[0]`. -/
def Connects (io : OtherDrivers) (s : Files) (p : Proc) : Prop :=
  let r := pipeCall s p
  TakesLowest s p ∧ DeliversAll io r.2.2.1 r.2.2.2 r.2.1.2 r.2.1.1

section Succeeds

variable {h : Heap} {p : Proc}

theorem emptySlots_eq_length (fp : Int → Slot) :
  emptySlots fp = (freeSlots fp).length
  := List.countP_eq_length_filter

theorem firstFree_eq_head (fp : Int → Slot) :
  firstFree fp = (freeSlots fp).head?
  := List.head?_filter.symm

/-- An entry that has got a file is no longer empty. -/
theorem freeSlots_setFile {fp : Int → Slot} {i : Int} {rest : List Int} {f : Ptr}
    (hfree : freeSlots fp = i :: rest) (hf : f ≠ .null) :
  freeSlots (setFile fp i f) = rest
  := by
  have hnodup : (i :: rest).Nodup := hfree ▸ nodup_indices.filter _
  have hfilter : freeSlots (setFile fp i f) = (freeSlots fp).filter (· ≠ i) := by
    rw [freeSlots, freeSlots, List.filter_filter]
    apply List.filter_congr
    intro j _
    rw [setFile, Function.update_apply]
    split_ifs with hj
    · simp [hj, hf]
    · simp [hj]
  rw [hfilter, hfree, List.filter_cons_of_neg (by simp), List.filter_eq_self]
  intro j hj
  apply decide_eq_true
  rintro rfl
  exact (List.nodup_cons.mp hnodup).1 hj

/-- The heap after a call of `pipe` that succeeds: the two ends have their drivers and the same
`pipe_data`. -/
theorem openPipe_ends (h : Heap) :
  ((openPipe h).file (.reader h.pipes)).driver = some .pipeReader
    ∧ ((openPipe h).file (.writer h.pipes)).driver = some .pipeWriter
    ∧ ((openPipe h).file (.reader h.pipes)).data = .data h.pipes
    ∧ ((openPipe h).file (.writer h.pipes)).data = .data h.pipes
  := by
  have hr : Ptr.reader h.pipes ≠ .null := by rintro ⟨⟩
  have hw : Ptr.writer h.pipes ≠ .null := by rintro ⟨⟩
  simp [openPipe, getOpen_file hr, getOpen_file hw, pipe_file_reader, pipe_file_writer]

/-- With two empty entries the writer gets the lowest and the reader the next one. -/
theorem pipeCall_spec (s : Files) {i j : Int} {rest : List Int}
    (hfree : freeSlots p.fp = i :: j :: rest) :
  ∃ s' p', pipeCall s p = (0, (i, j), s', p') ∧ s'.heap = openPipe s.heap
    ∧ s'.ring (.data s.heap.pipes) = Pipe.pipe
    ∧ p'.fp = setFile (setFile p.fp i (.writer s.heap.pipes)) j (.reader s.heap.pipes)
  := by
  have hw : Ptr.writer s.heap.pipes ≠ .null := by rintro ⟨⟩
  have hi : firstFree p.fp = some i := by rw [firstFree_eq_head, hfree, List.head?_cons]
  have hj : firstFree (setFile p.fp i (.writer s.heap.pipes)) = some j := by
    rw [firstFree_eq_head, freeSlots_setFile hfree hw, List.head?_cons]
  have hret : (syscallPipe s.heap p).1 = 0 ∧ (syscallPipe s.heap p).2.1 = (i, j) := by
    rw [syscallPipe]
    simp only [pipe, hi, fsGet_of_ne hw, hj, and_self]
  rw [pipeCall, syscallPipe_two hi hj, hret.1, hret.2]
  exact ⟨_, _, rfl, rfl, Function.update_self _ _ _, rfl⟩

section Ends

variable {io : OtherDrivers} {s : Files} {fd : Int}

/-- The end to read from has no `write`. -/
theorem syscallWrite_reader (hfile : (p.fp fd).file ≠ .null)
    (hdriver : (s.heap.file (p.fp fd).file).driver = some .pipeReader) (buf : List UInt8) :
  syscallWrite io s p fd buf = some (-1, s, Syscall.setPos p fd ((p.fp fd).pos + -1))
  := by
  rw [syscallWrite, fsWrite, if_neg hfile, hdriver]
  rfl

/-- The end to write to has no `read`. -/
theorem syscallRead_writer (hfile : (p.fp fd).file ≠ .null)
    (hdriver : (s.heap.file (p.fp fd).file).driver = some .pipeWriter) (nbyte : Nat) :
  syscallRead io s p fd nbyte = some (-1, [], s, Syscall.setPos p fd ((p.fp fd).pos + -1))
  := by
  rw [syscallRead, fsRead, if_neg hfile, hdriver]
  rfl

variable {f d : Ptr} {d' : Pipe.PipeData} {buf : List UInt8}

/-- The end to write to puts the bytes in the pipe, when there is room for all of them. -/
theorem syscallWrite_writer (hf : (p.fp fd).file = f) (hne : f ≠ .null)
    (hdriver : (s.heap.file f).driver = some .pipeWriter) (hdata : (s.heap.file f).data = d)
    (hwrite : Pipe.writeSection (buf.length + 1) (s.ring d) (Pipe.Writer.start buf)
      = some (d', { buf := buf, written := buf.length, nbyte := 0 })) :
  syscallWrite io s p fd buf
    = some (BitVec.ofNat 64 buf.length, { s with ring := Function.update s.ring d d' },
        Syscall.setPos p fd ((p.fp fd).pos + BitVec.ofNat 64 buf.length))
  := by
  rw [syscallWrite, fsWrite, hf, if_neg hne, hdriver]
  simp only [pipeWrite, hdata, hwrite]
  rfl

/-- The end to read from gets the bytes of the pipe. -/
theorem syscallRead_reader {nbyte n : Nat} (hf : (p.fp fd).file = f) (hne : f ≠ .null)
    (hdriver : (s.heap.file f).driver = some .pipeReader) (hdata : (s.heap.file f).data = d)
    (hread : Pipe.readSection (s.ring d) nbyte = some (n, buf, d')) :
  syscallRead io s p fd nbyte
    = some (BitVec.ofNat 64 n, buf, { s with ring := Function.update s.ring d d' },
        Syscall.setPos p fd ((p.fp fd).pos + BitVec.ofNat 64 n))
  := by
  rw [syscallRead, fsRead, hf, if_neg hne, hdriver]
  simp only [pipeRead, hdata, hread]
  rfl

/-- From the end to write to of a new pipe everything is delivered to the end to read from. -/
theorem deliversAll_of_ends {fdw fdr : Int} {k : Nat} (hne : fdw ≠ fdr)
    (hw : (p.fp fdw).file = .writer k) (hr : (p.fp fdr).file = .reader k)
    (hwdriver : (s.heap.file (.writer k)).driver = some .pipeWriter)
    (hwdata : (s.heap.file (.writer k)).data = d)
    (hrdriver : (s.heap.file (.reader k)).driver = some .pipeReader)
    (hrdata : (s.heap.file (.reader k)).data = d) (hring : s.ring d = Pipe.pipe) :
  DeliversAll io s p fdw fdr
  := by
  intro buf hbuf hfit nbyte hroom _
  obtain ⟨d', d'', hwrite, hread⟩ := Pipe.write_then_read Pipe.holdsStream_pipe rfl
    (by simp [Pipe.pipeSize]) hbuf hfit hroom
  rw [← hring] at hwrite
  have hwritten : syscallWrite io s p fdw buf = _ :=
    syscallWrite_writer hw (by rintro ⟨⟩) hwdriver hwdata hwrite
  obtain ⟨p', hp'⟩ : ∃ p', p' = Syscall.setPos p fdw
      ((p.fp fdw).pos + BitVec.ofNat 64 buf.length) := ⟨_, rfl⟩
  have hfile : (p'.fp fdr).file = .reader k := by
    rw [hp', Syscall.setPos]
    simp only
    rw [Function.update_of_ne hne.symm, hr]
  rw [← hp'] at hwritten
  rw [← Function.update_self d d' s.ring] at hread
  exact ⟨_, _, _, _, hwritten, syscallRead_reader hfile (by rintro ⟨⟩) hrdriver hrdata hread⟩

end Ends

end Succeeds

/-- A call of `pipe` with two empty entries takes the two lowest ones, but `fd[0]` is the end to
write to and `fd[1]` the end to read from: nothing is ever delivered from `fd[1]` to `fd[0]`, and
everything from `fd[0]` to `fd[1]`. -/
theorem pipeCall_never_connects (io : OtherDrivers) (s : Files) {p : Proc}
    (hroom : 2 ≤ emptySlots p.fp) :
  let r := pipeCall s p
  ¬ Connects io s p ∧ TakesLowest s p
    ∧ (∀ buf, ∃ p', syscallWrite io r.2.2.1 r.2.2.2 r.2.1.2 buf = some (-1, r.2.2.1, p'))
    ∧ (∀ nbyte, ∃ p', syscallRead io r.2.2.1 r.2.2.2 r.2.1.1 nbyte = some (-1, [], r.2.2.1, p'))
    ∧ DeliversAll io r.2.2.1 r.2.2.2 r.2.1.1 r.2.1.2
  := by
  obtain ⟨i, j, rest, hfree⟩ : ∃ i j rest, freeSlots p.fp = i :: j :: rest := by
    rw [emptySlots_eq_length] at hroom
    match hfree : freeSlots p.fp with
    | [] => simp [hfree] at hroom
    | [_] => simp [hfree] at hroom
    | i :: j :: rest => exact ⟨i, j, rest, rfl⟩
  have hij : i ≠ j := by
    have hnodup : (i :: j :: rest).Nodup := hfree ▸ nodup_indices.filter _
    rintro rfl
    exact (List.nodup_cons.mp hnodup).1 List.mem_cons_self
  obtain ⟨hrdriver, hwdriver, hrdata, hwdata⟩ := openPipe_ends s.heap
  obtain ⟨s', p', hcall, hheap, hring, hfp⟩ := pipeCall_spec s hfree
  have hw : (p'.fp i).file = .writer s.heap.pipes := by
    rw [hfp, setFile, Function.update_of_ne hij, setFile, Function.update_self]
  have hr : (p'.fp j).file = .reader s.heap.pipes := by
    rw [hfp, setFile, Function.update_self]
  rw [← hheap] at hrdriver hwdriver hrdata hwdata
  -- what the two ends do
  have hwrite : ∀ buf, ∃ p'', syscallWrite io s' p' j buf = some (-1, s', p'') := fun buf =>
    ⟨_, syscallWrite_reader (by rw [hr]; rintro ⟨⟩) (by rw [hr, hrdriver]) buf⟩
  have hread : ∀ nbyte, ∃ p'', syscallRead io s' p' i nbyte = some (-1, [], s', p'') := fun nbyte =>
    ⟨_, syscallRead_writer (by rw [hw]; rintro ⟨⟩) (by rw [hw, hwdriver]) nbyte⟩
  have htakes : TakesLowest s p := by
    rw [TakesLowest, hcall]
    refine ⟨rfl, i, j, rest, hfree, Or.inl rfl, by rw [hw]; rintro ⟨⟩, by rw [hr]; rintro ⟨⟩, ?_⟩
    intro n hni hnj
    rw [hfp, setFile, Function.update_of_ne hnj, setFile, Function.update_of_ne hni]
  rw [hcall]
  refine ⟨?_, htakes, hwrite, hread, ?_⟩
  · rintro ⟨-, hdelivers⟩
    rw [hcall] at hdelivers
    -- one byte is not delivered
    obtain ⟨s₁, p₁, -, -, hone, -⟩ := hdelivers [0] (by simp) (by decide) 1 (by simp) (by decide)
    obtain ⟨p'', hminus⟩ := hwrite [0]
    have heq := congrArg (Option.map Prod.fst) (hminus.symm.trans hone)
    revert heq
    simp only [Option.map_some]
    decide
  · exact deliversAll_of_ends hij hw hr hwdriver hwdata hrdriver hrdata hring

/-- A process with an empty table, and its files. -/
def emptyTable : Proc where
  fp := fun _ => Slot.zero
  zombie := false
  touched := []

/-- The files before the first call. -/
def noFiles : Files where
  heap := oneProcess.heap
  ring := fun _ => Pipe.pipe

/-- Drivers that transfer nothing. -/
def noTransfer : OtherDrivers where
  read s _ _ _ := (0, [], s)
  write s _ _ _ := (0, s)

theorem pipeCall_never_connects_empty :
  ¬ Connects noTransfer noFiles emptyTable ∧ TakesLowest noFiles emptyTable
  := by
  have hroom : 2 ≤ emptySlots emptyTable.fp := by decide
  obtain ⟨hnot, htakes, -⟩ := pipeCall_never_connects noTransfer noFiles hroom
  exact ⟨hnot, htakes⟩

/-- In an empty table the writer gets the descriptor 0, which `fd[0]` holds, and the reader the
descriptor 1: a byte written on `fd[1]` is refused. -/
theorem emptyTable_exchanged :
  let r := pipeCall noFiles emptyTable
  r.1 = 0 ∧ r.2.1 = (0, 1) ∧ (r.2.2.2.fp 0).file = .writer 0 ∧ (r.2.2.2.fp 1).file = .reader 0
    ∧ (syscallWrite noTransfer r.2.2.1 r.2.2.2 1 [0x61]).map Prod.fst = some (-1)
    ∧ ¬ Connects noTransfer noFiles emptyTable
  := by
  have hwrite : let r := pipeCall noFiles emptyTable
      (syscallWrite noTransfer r.2.2.1 r.2.2.2 1 [0x61]).map Prod.fst = some (-1) := by decide
  have hfd : (pipeCall noFiles emptyTable).2.1 = (0, 1) := by decide
  refine ⟨by decide, hfd, by decide, by decide, hwrite, ?_⟩
  rintro ⟨-, hdelivers⟩
  rw [hfd] at hdelivers
  obtain ⟨s₁, p₁, -, -, hone, -⟩ := hdelivers [0x61] (by simp) (by decide) 1 (by simp) (by decide)
  have heq := hwrite.symm.trans (congrArg (Option.map Prod.fst) hone)
  revert heq
  simp only [Option.map_some]
  decide

end Vfs
