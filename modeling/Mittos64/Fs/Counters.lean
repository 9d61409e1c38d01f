import Mittos64.Fs.Vfs

/-!
# The counters of a pipe

A pipe counts its users in `readers` and `writers`, and the file of each of its ends counts
them once more in `refs`; the users are the entries of the descriptor tables.

A duplicated descriptor is one call of `fs_get` and one of `fs_open`; a descriptor that goes
away is one call of `fs_close` and one of `fs_put`.  What these do to the counters, and what
they free, is said here for a heap and the list of the files of all open descriptors.
-/

namespace Vfs

/-! ### The fields of the heap -/

section Fields

variable (h : Heap) (a : Ptr) (n : Nat)

@[simp]
theorem Heap.touch_file :
  (h.touch a).file = h.file
  := rfl

@[simp]
theorem Heap.touch_pipe :
  (h.touch a).pipe = h.pipe
  := rfl

@[simp]
theorem Heap.touch_pipes :
  (h.touch a).pipes = h.pipes
  := rfl

@[simp]
theorem Heap.touch_freed :
  (h.touch a).freed = h.freed
  := rfl

@[simp]
theorem Heap.kfree_file :
  (h.kfree a).file = h.file
  := rfl

@[simp]
theorem Heap.kfree_pipe :
  (h.kfree a).pipe = h.pipe
  := rfl

@[simp]
theorem Heap.kfree_pipes :
  (h.kfree a).pipes = h.pipes
  := rfl

@[simp]
theorem Heap.kfree_freed :
  (h.kfree a).freed = h.freed ++ [a]
  := rfl

@[simp]
theorem Heap.setRefs_file :
  (h.setRefs a n).file = Function.update h.file a { h.file a with refs := n }
  := rfl

@[simp]
theorem Heap.setRefs_pipe :
  (h.setRefs a n).pipe = h.pipe
  := rfl

@[simp]
theorem Heap.setRefs_pipes :
  (h.setRefs a n).pipes = h.pipes
  := rfl

@[simp]
theorem Heap.setRefs_freed :
  (h.setRefs a n).freed = h.freed
  := rfl

end Fields

/-- A block that was not freed is accessed without a fault. -/
theorem Heap.touch_of_notMem {h : Heap} {a : Ptr} (ha : a ∉ h.freed) :
  h.touch a = h
  := by
  rw [Heap.touch, if_neg ha]

theorem Heap.setRefs_faults {h : Heap} {a : Ptr} (n : Nat) (ha : a ∉ h.freed) :
  (h.setRefs a n).faults = h.faults
  := by
  rw [Heap.setRefs, Heap.touch_of_notMem ha]

theorem Heap.kfree_faults {h : Heap} {a : Ptr} (ha : a ∉ h.freed) :
  (h.kfree a).faults = h.faults
  := by
  rw [Heap.kfree, Heap.touch_of_notMem ha]

/-! ### One more and one less descriptor -/

/-- `fs_get` and `fs_open`, as the duplication of a descriptor does them. -/
def getOpen (h : Heap) (file : Ptr) : Heap :=
  (fsOpen (fsGet h file).2 (fsGet h file).1).2

/-- `fs_close` and `fs_put`, as the end of a descriptor does them. -/
def closePut (h : Heap) (file : Ptr) : Heap :=
  (fsPut (fsClose h file).2 file).2

/-- The driver is one of the two of a pipe. -/
def OfPipe (driver : Option Driver) : Prop :=
  driver = some .pipeReader ∨ driver = some .pipeWriter

instance (driver : Option Driver) : Decidable (OfPipe driver) :=
  inferInstanceAs (Decidable (_ ∨ _))

/-- What `pipe_open` does to the counters. -/
def PipeData.opened (d : PipeData) (file : Ptr) : PipeData :=
  if file = d.reader then { d with readers := d.readers + 1 }
  else { d with writers := d.writers + 1 }

/-- What `pipe_close` does to the counters. -/
def PipeData.closed (d : PipeData) (file : Ptr) : PipeData :=
  if file = d.reader then { d with readers := decr d.readers }
  else { d with writers := decr d.writers }

/-- The heap with another `pipe_data` at `d`. -/
def Heap.setPipe (h : Heap) (d : Ptr) (v : PipeData) : Heap :=
  { h.touch d with pipe := Function.update h.pipe d v }

@[simp]
theorem Heap.setPipe_file (h : Heap) (d : Ptr) (v : PipeData) :
  (h.setPipe d v).file = h.file
  := rfl

@[simp]
theorem Heap.setPipe_pipe (h : Heap) (d : Ptr) (v : PipeData) :
  (h.setPipe d v).pipe = Function.update h.pipe d v
  := rfl

@[simp]
theorem Heap.setPipe_pipes (h : Heap) (d : Ptr) (v : PipeData) :
  (h.setPipe d v).pipes = h.pipes
  := rfl

@[simp]
theorem Heap.setPipe_freed (h : Heap) (d : Ptr) (v : PipeData) :
  (h.setPipe d v).freed = h.freed
  := rfl

theorem pipeOpen_eq (h : Heap) (file : Ptr) :
  (pipeOpen h file).2
    = (h.touch file).setPipe (h.file file).data ((h.pipe (h.file file).data).opened file)
  := by
  rw [pipeOpen, PipeData.opened]
  split
  · rfl
  · rfl

/-- The `pipe_data` has no users. -/
def PipeData.Unused (d : PipeData) : Prop :=
  d.readers = 0 ∧ d.writers = 0

instance (d : PipeData) : Decidable d.Unused :=
  inferInstanceAs (Decidable (_ ∧ _))

theorem pipeClose_eq (h : Heap) (file : Ptr) :
  (pipeClose h file).2
    = let v := (h.pipe (h.file file).data).closed file
      let h' := (h.touch file).setPipe (h.file file).data v
      if v.Unused then (h'.kfree (h.file file).data).kfree file else h'
  := by
  have hset : (if file = (h.pipe (h.file file).data).reader then
        (h.touch file).setReaders (h.file file).data (decr (h.pipe (h.file file).data).readers)
      else (h.touch file).setWriters (h.file file).data
        (decr (h.pipe (h.file file).data).writers))
      = (h.touch file).setPipe (h.file file).data
          ((h.pipe (h.file file).data).closed file) := by
    rw [PipeData.closed]
    split
    · rfl
    · rfl
  rw [pipeClose]
  dsimp only
  rw [hset, Heap.setPipe_pipe, Function.update_self]
  by_cases hunused : ((h.pipe (h.file file).data).closed file).Unused
  · rw [if_pos hunused]
    exact congrArg Prod.snd (if_pos hunused)
  · rw [if_neg hunused]
    exact congrArg Prod.snd (if_neg hunused)

theorem fsOpen_eq {h : Heap} {file : Ptr} (hfile : file ≠ .null) :
  (fsOpen h file).2
    = if OfPipe (h.file file).driver then (pipeOpen (h.touch file) file).2 else h.touch file
  := by
  rw [fsOpen, if_neg hfile]
  rcases hd : (h.file file).driver with _ | ⟨⟨⟩⟩ <;> simp [OfPipe]

theorem fsClose_eq {h : Heap} {file : Ptr} (hfile : file ≠ .null) :
  (fsClose h file).2
    = if OfPipe (h.file file).driver then (pipeClose (h.touch file) file).2 else h.touch file
  := by
  rw [fsClose, if_neg hfile]
  rcases hd : (h.file file).driver with _ | ⟨⟨⟩⟩ <;> simp [OfPipe]

theorem fsGet_of_ne {h : Heap} {file : Ptr} (hfile : file ≠ .null) :
  fsGet h file = (file, h.setRefs file ((h.file file).refs + 1))
  := by
  rw [fsGet, if_neg hfile]

theorem fsPut_eq {h : Heap} {file : Ptr} (hfile : file ≠ .null) :
  (fsPut h file).2
    = let h' := h.setRefs file (decr (h.file file).refs)
      if decr (h.file file).refs = 0 then h'.kfree file else h'
  := by
  rw [fsPut, if_neg hfile]
  simp only [Heap.setRefs_file, Function.update_self]
  split <;> rfl

theorem fsPut_file {h : Heap} {file : Ptr} (hfile : file ≠ .null) :
  (fsPut h file).2.file
    = Function.update h.file file { h.file file with refs := decr (h.file file).refs }
  := by
  rw [fsPut_eq hfile]
  dsimp only
  split <;> rfl

theorem fsPut_pipe {h : Heap} {file : Ptr} (hfile : file ≠ .null) :
  (fsPut h file).2.pipe = h.pipe
  := by
  rw [fsPut_eq hfile]
  dsimp only
  split <;> rfl

theorem fsPut_pipes {h : Heap} {file : Ptr} (hfile : file ≠ .null) :
  (fsPut h file).2.pipes = h.pipes
  := by
  rw [fsPut_eq hfile]
  dsimp only
  split <;> rfl

section OneDescriptor

variable {h : Heap} {f : Ptr}

/-- The heap after `fs_get` and `fs_open` on a file. -/
theorem getOpen_eq (hf : f ≠ .null) :
  getOpen h f
    = let h' := (h.setRefs f ((h.file f).refs + 1)).touch f
      if OfPipe (h.file f).driver then
        (h'.touch f).setPipe (h.file f).data ((h.pipe (h.file f).data).opened f)
      else h'
  := by
  rw [getOpen, fsGet_of_ne hf, fsOpen_eq hf]
  simp only [Heap.setRefs_file, Function.update_self, pipeOpen_eq, Heap.touch_file,
    Heap.touch_pipe, Heap.setRefs_pipe]

theorem getOpen_file (hf : f ≠ .null) :
  (getOpen h f).file = Function.update h.file f { h.file f with refs := (h.file f).refs + 1 }
  := by
  rw [getOpen_eq hf]
  split <;> rfl

theorem getOpen_pipe (hf : f ≠ .null) :
  (getOpen h f).pipe
    = if OfPipe (h.file f).driver then
        Function.update h.pipe (h.file f).data ((h.pipe (h.file f).data).opened f)
      else h.pipe
  := by
  rw [getOpen_eq hf]
  split <;> rfl

@[simp]
theorem getOpen_pipes (hf : f ≠ .null) :
  (getOpen h f).pipes = h.pipes
  := by
  rw [getOpen_eq hf]
  split <;> rfl

theorem getOpen_freed (hf : f ≠ .null) :
  (getOpen h f).freed = h.freed
  := by
  rw [getOpen_eq hf]
  split <;> rfl

/-- A file and its pipe that were not freed are used without a fault. -/
theorem getOpen_faults (hf : f ≠ .null) (hfile : f ∉ h.freed) (hdata : (h.file f).data ∉ h.freed) :
  (getOpen h f).faults = h.faults
  := by
  rw [getOpen_eq hf]
  split <;> simp [Heap.touch, Heap.setRefs, Heap.setPipe, hfile, hdata]

theorem fsClose_file (hf : f ≠ .null) :
  (fsClose h f).2.file = h.file
  := by
  rw [fsClose_eq hf]
  split
  · rw [pipeClose_eq]
    dsimp only
    split <;> rfl
  · rfl

theorem fsClose_pipe (hf : f ≠ .null) :
  (fsClose h f).2.pipe
    = if OfPipe (h.file f).driver then
        Function.update h.pipe (h.file f).data ((h.pipe (h.file f).data).closed f)
      else h.pipe
  := by
  rw [fsClose_eq hf]
  split
  · rw [pipeClose_eq]
    dsimp only
    split <;> rfl
  · rfl

theorem fsClose_pipes (hf : f ≠ .null) :
  (fsClose h f).2.pipes = h.pipes
  := by
  rw [fsClose_eq hf]
  split
  · rw [pipeClose_eq]
    dsimp only
    split <;> rfl
  · rfl

/-- `fs_close` on a file that leaves the pipe with a user frees nothing, and has no fault
when nothing was freed before. -/
theorem fsClose_history (hf : f ≠ .null) (hfile : f ∉ h.freed)
    (hdata : OfPipe (h.file f).driver → (h.file f).data ∉ h.freed)
    (hused : OfPipe (h.file f).driver → ¬ ((h.pipe (h.file f).data).closed f).Unused) :
  (fsClose h f).2.freed = h.freed ∧ (fsClose h f).2.faults = h.faults
  := by
  rw [fsClose_eq hf, Heap.touch_of_notMem hfile]
  split <;> rename_i hpipe
  · rw [pipeClose_eq]
    dsimp only
    rw [if_neg (hused hpipe), Heap.touch_of_notMem hfile, Heap.setPipe,
      Heap.touch_of_notMem (hdata hpipe)]
    exact ⟨rfl, rfl⟩
  · exact ⟨rfl, rfl⟩

theorem closePut_file (hf : f ≠ .null) :
  (closePut h f).file = Function.update h.file f { h.file f with refs := decr (h.file f).refs }
  := by
  rw [closePut, fsPut_file hf, fsClose_file hf]

theorem closePut_pipe (hf : f ≠ .null) :
  (closePut h f).pipe
    = if OfPipe (h.file f).driver then
        Function.update h.pipe (h.file f).data ((h.pipe (h.file f).data).closed f)
      else h.pipe
  := by
  rw [closePut, fsPut_pipe hf, fsClose_pipe hf]

theorem closePut_pipes (hf : f ≠ .null) :
  (closePut h f).pipes = h.pipes
  := by
  rw [closePut, fsPut_pipes hf, fsClose_pipes hf]

/-- A descriptor that goes away and leaves the pipe with a user frees its file when it was
the last user of the file, and has no fault when nothing was freed before. -/
theorem closePut_history (hf : f ≠ .null) (hfile : f ∉ h.freed)
    (hdata : OfPipe (h.file f).driver → (h.file f).data ∉ h.freed)
    (hused : OfPipe (h.file f).driver → ¬ ((h.pipe (h.file f).data).closed f).Unused) :
  (closePut h f).freed = h.freed ++ (if decr (h.file f).refs = 0 then [f] else [])
    ∧ (closePut h f).faults = h.faults
  := by
  obtain ⟨hfreed, hfaults⟩ := fsClose_history hf hfile hdata hused
  rw [closePut, fsPut_eq hf]
  dsimp only
  rw [fsClose_file hf]
  have hfile' : f ∉ (fsClose h f).2.freed := by rwa [hfreed]
  split
  · rw [Heap.kfree_freed, Heap.setRefs_freed, hfreed]
    rw [Heap.kfree_faults (by rwa [Heap.setRefs_freed]), Heap.setRefs_faults _ hfile']
    exact ⟨rfl, hfaults⟩
  · rw [Heap.setRefs_freed, hfreed, Heap.setRefs_faults _ hfile', List.append_nil]
    exact ⟨rfl, hfaults⟩

end OneDescriptor

/-! ### The pipes of a heap -/

/-- The pointers in the blocks of the calls of `pipe` so far are those that `pipe` put
there, and no other file has the driver of a pipe. -/
structure Layout (h : Heap) : Prop where
  device : ∀ n, ¬ OfPipe (h.file (.device n)).driver
  readerDriver : ∀ k < h.pipes, (h.file (.reader k)).driver = some .pipeReader
  readerData : ∀ k < h.pipes, (h.file (.reader k)).data = .data k
  writerDriver : ∀ k < h.pipes, (h.file (.writer k)).driver = some .pipeWriter
  writerData : ∀ k < h.pipes, (h.file (.writer k)).data = .data k
  reader : ∀ k < h.pipes, (h.pipe (.data k)).reader = .reader k
  writer : ∀ k < h.pipes, (h.pipe (.data k)).writer = .writer k
  buffer : ∀ k < h.pipes, (h.pipe (.data k)).buffer = .buffer k

/-- The two heaps differ in counters and in the history only. -/
structure SameShape (h h' : Heap) : Prop where
  pipes : h'.pipes = h.pipes
  driver : ∀ f, (h'.file f).driver = (h.file f).driver
  data : ∀ f, (h'.file f).data = (h.file f).data
  reader : ∀ d, (h'.pipe d).reader = (h.pipe d).reader
  writer : ∀ d, (h'.pipe d).writer = (h.pipe d).writer
  buffer : ∀ d, (h'.pipe d).buffer = (h.pipe d).buffer

theorem Layout.of_sameShape {h h' : Heap} (hl : Layout h) (hs : SameShape h h') :
  Layout h'
  where
  device n := by
    rw [hs.driver]
    exact hl.device n
  readerDriver k hk := by rw [hs.driver, hl.readerDriver k (hs.pipes ▸ hk)]
  readerData k hk := by rw [hs.data, hl.readerData k (hs.pipes ▸ hk)]
  writerDriver k hk := by rw [hs.driver, hl.writerDriver k (hs.pipes ▸ hk)]
  writerData k hk := by rw [hs.data, hl.writerData k (hs.pipes ▸ hk)]
  reader k hk := by rw [hs.reader, hl.reader k (hs.pipes ▸ hk)]
  writer k hk := by rw [hs.writer, hl.writer k (hs.pipes ▸ hk)]
  buffer k hk := by rw [hs.buffer, hl.buffer k (hs.pipes ▸ hk)]

/-- A change of the counters of a file and of a `pipe_data` keeps the shape. -/
theorem SameShape.of_update {h h' : Heap} {f d : Ptr} {n readers writers : Nat}
    (hpipes : h'.pipes = h.pipes)
    (hfile : h'.file = Function.update h.file f { h.file f with refs := n })
    (hpipe : h'.pipe = h.pipe ∨ h'.pipe
      = Function.update h.pipe d { h.pipe d with readers := readers, writers := writers }) :
  SameShape h h'
  := by
  have hfield : ∀ {α : Type} (p : PipeData → α),
      (∀ v : PipeData, p { v with readers := readers, writers := writers } = p v) →
      ∀ x, p (h'.pipe x) = p (h.pipe x) := by
    intro α p hp x
    rcases hpipe with hpipe | hpipe
    · rw [hpipe]
    · by_cases hx : x = d
      · rw [hpipe, hx, Function.update_self, hp]
      · rw [hpipe, Function.update_of_ne hx]
  refine ⟨hpipes, ?_, ?_, hfield _ fun _ => rfl, hfield _ fun _ => rfl, hfield _ fun _ => rfl⟩
  · intro g
    by_cases hg : g = f
    · rw [hfile, hg, Function.update_self]
    · rw [hfile, Function.update_of_ne hg]
  · intro g
    by_cases hg : g = f
    · rw [hfile, hg, Function.update_self]
    · rw [hfile, Function.update_of_ne hg]

section Ends

variable {h : Heap} (hl : Layout h)

include hl

theorem Layout.getOpen_device (n : Nat) :
  (getOpen h (.device n)).pipe = h.pipe
  := by
  rw [getOpen_pipe (by nofun), if_neg (hl.device n)]

theorem Layout.getOpen_reader {k : Nat} (hk : k < h.pipes) :
  (getOpen h (.reader k)).pipe
    = Function.update h.pipe (.data k)
        { h.pipe (.data k) with readers := (h.pipe (.data k)).readers + 1 }
  := by
  rw [getOpen_pipe (by nofun), if_pos (.inl (hl.readerDriver k hk)), hl.readerData k hk,
    PipeData.opened, if_pos (hl.reader k hk).symm]

theorem Layout.getOpen_writer {k : Nat} (hk : k < h.pipes) :
  (getOpen h (.writer k)).pipe
    = Function.update h.pipe (.data k)
        { h.pipe (.data k) with writers := (h.pipe (.data k)).writers + 1 }
  := by
  rw [getOpen_pipe (by nofun), if_pos (.inr (hl.writerDriver k hk)), hl.writerData k hk,
    PipeData.opened, if_neg (by rw [hl.reader k hk]; nofun)]

theorem Layout.closePut_device (n : Nat) :
  (closePut h (.device n)).pipe = h.pipe
  := by
  rw [closePut_pipe (by nofun), if_neg (hl.device n)]

theorem Layout.closed_reader {k : Nat} (hk : k < h.pipes) :
  (h.pipe (.data k)).closed (.reader k)
    = { h.pipe (.data k) with readers := decr (h.pipe (.data k)).readers }
  := by
  rw [PipeData.closed, if_pos (hl.reader k hk).symm]

theorem Layout.closed_writer {k : Nat} (hk : k < h.pipes) :
  (h.pipe (.data k)).closed (.writer k)
    = { h.pipe (.data k) with writers := decr (h.pipe (.data k)).writers }
  := by
  rw [PipeData.closed, if_neg (by rw [hl.reader k hk]; nofun)]

theorem Layout.closePut_reader {k : Nat} (hk : k < h.pipes) :
  (closePut h (.reader k)).pipe
    = Function.update h.pipe (.data k)
        { h.pipe (.data k) with readers := decr (h.pipe (.data k)).readers }
  := by
  rw [closePut_pipe (by nofun), if_pos (.inl (hl.readerDriver k hk)), hl.readerData k hk,
    hl.closed_reader hk]

theorem Layout.closePut_writer {k : Nat} (hk : k < h.pipes) :
  (closePut h (.writer k)).pipe
    = Function.update h.pipe (.data k)
        { h.pipe (.data k) with writers := decr (h.pipe (.data k)).writers }
  := by
  rw [closePut_pipe (by nofun), if_pos (.inr (hl.writerDriver k hk)), hl.writerData k hk,
    hl.closed_writer hk]

end Ends

/-- A pointer that a descriptor can hold after `n` calls of `pipe`. -/
inductive Known (n : Nat) : Ptr → Prop where
  | device (i : Nat) : Known n (.device i)
  | reader {k : Nat} : k < n → Known n (.reader k)
  | writer {k : Nat} : k < n → Known n (.writer k)

/-- A new descriptor of a file that is no end of the pipe `k` leaves the pipe as it is. -/
theorem Layout.getOpen_of_ne {h : Heap} (hl : Layout h) {f : Ptr} {k : Nat}
    (hf : Known h.pipes f) (hr : f ≠ .reader k) (hw : f ≠ .writer k) :
  (getOpen h f).pipe (.data k) = h.pipe (.data k)
  := by
  cases hf with
  | device i => rw [hl.getOpen_device i]
  | reader hj =>
      rw [hl.getOpen_reader hj, Function.update_of_ne]
      rintro ⟨⟩
      exact hr rfl
  | writer hj =>
      rw [hl.getOpen_writer hj, Function.update_of_ne]
      rintro ⟨⟩
      exact hw rfl

/-- A closed descriptor of a file that is no end of the pipe `k` leaves the pipe as it
is. -/
theorem Layout.closePut_of_ne {h : Heap} (hl : Layout h) {f : Ptr} {k : Nat}
    (hf : Known h.pipes f) (hr : f ≠ .reader k) (hw : f ≠ .writer k) :
  (closePut h f).pipe (.data k) = h.pipe (.data k)
  := by
  cases hf with
  | device i => rw [hl.closePut_device i]
  | reader hj =>
      rw [hl.closePut_reader hj, Function.update_of_ne]
      rintro ⟨⟩
      exact hr rfl
  | writer hj =>
      rw [hl.closePut_writer hj, Function.update_of_ne]
      rintro ⟨⟩
      exact hw rfl

theorem Layout.of_getOpen {h : Heap} (hl : Layout h) {f : Ptr} (hf : f ≠ .null)
    (hknown : Known h.pipes f) :
  Layout (getOpen h f)
  := by
  apply hl.of_sameShape
  cases hknown with
  | device i =>
      apply @SameShape.of_update _ _ _ .null _ 0 0 (getOpen_pipes hf) (getOpen_file hf)
      exact .inl (hl.getOpen_device i)
  | reader hk =>
      apply SameShape.of_update (getOpen_pipes hf) (getOpen_file hf)
      exact .inr (hl.getOpen_reader hk)
  | writer hk =>
      apply SameShape.of_update (getOpen_pipes hf) (getOpen_file hf)
      exact .inr (hl.getOpen_writer hk)

theorem Layout.of_closePut {h : Heap} (hl : Layout h) {f : Ptr} (hf : f ≠ .null)
    (hknown : Known h.pipes f) :
  Layout (closePut h f)
  := by
  apply hl.of_sameShape
  cases hknown with
  | device i =>
      apply @SameShape.of_update _ _ _ .null _ 0 0 (closePut_pipes hf) (closePut_file hf)
      exact .inl (hl.closePut_device i)
  | reader hk =>
      apply SameShape.of_update (closePut_pipes hf) (closePut_file hf)
      exact .inr (hl.closePut_reader hk)
  | writer hk =>
      apply SameShape.of_update (closePut_pipes hf) (closePut_file hf)
      exact .inr (hl.closePut_writer hk)

/-! ### Counting -/

/-- The descriptors of the two ends of the pipe `k`. -/
def users (ds : List Ptr) (k : Nat) : Nat :=
  ds.count (.reader k) + ds.count (.writer k)

/-- The counters of the pipe `k` are the numbers of its descriptors. -/
def Counted (h : Heap) (ds : List Ptr) (k : Nat) : Prop :=
  (h.pipe (.data k)).readers = ds.count (.reader k)
    ∧ (h.pipe (.data k)).writers = ds.count (.writer k)

/-- The counters of the heap, where `ds` holds the files of all open descriptors. -/
structure Counts (h : Heap) (ds : List Ptr) : Prop extends Layout h where
  known : ∀ f ∈ ds, Known h.pipes f
  counted : ∀ k < h.pipes, 0 < users ds k → Counted h ds k
  refs : ∀ f ∈ ds, OfPipe (h.file f).driver → (h.file f).refs = ds.count f

/-- Only how often a file occurs among the descriptors matters. -/
theorem Counts.perm {h : Heap} {ds ds' : List Ptr} (hc : Counts h ds) (hp : ds.Perm ds') :
  Counts h ds'
  where
  toLayout := hc.toLayout
  known f hf := hc.known f (hp.mem_iff.mpr hf)
  counted k hk hu := by
    rw [users, ← hp.count_eq, ← hp.count_eq] at hu
    rw [Counted, ← hp.count_eq, ← hp.count_eq]
    exact hc.counted k hk hu
  refs f hf hpipe := by
    rw [← hp.count_eq]
    exact hc.refs f (hp.mem_iff.mpr hf) hpipe

section Counters

variable {h : Heap} {ds : List Ptr} {f : Ptr}

/-- The numbers of descriptors of a pipe that `f` is not an end of. -/
theorem counted_cons {k : Nat} (hr : f ≠ .reader k) (hw : f ≠ .writer k) :
  (Counted h (f :: ds) k ↔ Counted h ds k) ∧ users (f :: ds) k = users ds k
  := by
  rw [Counted, Counted, users, users, List.count_cons_of_ne hr, List.count_cons_of_ne hw]
  exact ⟨Iff.rfl, rfl⟩

/-- The number of descriptors of a pipe that `f` is an end of. -/
theorem users_cons_end {k : Nat} (hf : f = .reader k ∨ f = .writer k) :
  users (f :: ds) k = users ds k + 1
  := by
  rw [users, users]
  rcases hf with rfl | rfl
  · rw [List.count_cons_self, List.count_cons_of_ne (by nofun)]
    omega
  · rw [List.count_cons_self, List.count_cons_of_ne (by nofun)]
    omega

theorem users_perm {ds ds' : List Ptr} (hp : ds.Perm ds') (k : Nat) :
  users ds k = users ds' k
  := by
  rw [users, users, hp.count_eq, hp.count_eq]

theorem users_append (ds ds' : List Ptr) (k : Nat) :
  users (ds ++ ds') k = users ds k + users ds' k
  := by
  rw [users, users, users, List.count_append, List.count_append]
  omega

theorem Known.ne_null {n : Nat} (hf : Known n f) :
  f ≠ .null
  := by
  rintro rfl
  nomatch hf

/-- The pipe that a file is an end of, if it is one, is counted, and so is the file: this
is what a new descriptor of the file needs. -/
def Ready (h : Heap) (ds : List Ptr) (f : Ptr) : Prop :=
  ∀ k, f = .reader k ∨ f = .writer k → Counted h ds k ∧ (h.file f).refs = ds.count f

/-- One more descriptor of a file. -/
theorem Counts.of_getOpen (hc : Counts h ds) (hf : Known h.pipes f) (hready : Ready h ds f) :
  Counts (getOpen h f) (f :: ds)
  where
  toLayout := hc.toLayout.of_getOpen hf.ne_null hf
  known g hg := by
    rw [getOpen_pipes hf.ne_null]
    rcases List.mem_cons.mp hg with rfl | hg
    · exact hf
    · exact hc.known g hg
  counted k hk hu := by
    rw [getOpen_pipes hf.ne_null] at hk
    by_cases hr : f = .reader k
    · obtain rfl := hr
      obtain ⟨hreaders, hwriters⟩ := (hready k (.inl rfl)).1
      rw [Counted, hc.getOpen_reader hk, Function.update_self, List.count_cons_self,
        List.count_cons_of_ne (by nofun)]
      exact ⟨congrArg (· + 1) hreaders, hwriters⟩
    by_cases hw : f = .writer k
    · obtain rfl := hw
      obtain ⟨hreaders, hwriters⟩ := (hready k (.inr rfl)).1
      rw [Counted, hc.getOpen_writer hk, Function.update_self, List.count_cons_self,
        List.count_cons_of_ne (by nofun)]
      exact ⟨hreaders, congrArg (· + 1) hwriters⟩
    obtain ⟨hiff, husers⟩ := @counted_cons h ds f k hr hw
    rw [husers] at hu
    rw [Counted, hc.getOpen_of_ne hf hr hw]
    apply hiff.mpr
    apply hc.counted k hk hu
  refs g hg hpipe := by
    rw [getOpen_file hf.ne_null] at hpipe ⊢
    by_cases hgf : g = f
    · rw [hgf, Function.update_self, List.count_cons_self]
      rw [hgf, Function.update_self] at hpipe
      cases hf with
      | device i => exact absurd hpipe (hc.device i)
      | @reader j hj => exact congrArg (· + 1) (hready j (.inl rfl)).2
      | @writer j hj => exact congrArg (· + 1) (hready j (.inr rfl)).2
    · rw [Function.update_of_ne hgf] at hpipe ⊢
      rw [List.count_cons_of_ne (Ne.symm hgf)]
      apply hc.refs g _ hpipe
      exact (List.mem_cons.mp hg).resolve_left hgf

/-- A file that has a descriptor can get another one. -/
theorem Counts.ready_of_mem (hc : Counts h ds) (hf : f ∈ ds) :
  Ready h ds f
  := by
  have hpos := List.count_pos_iff.mpr hf
  rintro k (rfl | rfl)
  · cases hc.known _ hf with
    | reader hk =>
        exact ⟨hc.counted k hk (Nat.add_pos_left hpos _),
          hc.refs _ hf (.inl (hc.readerDriver k hk))⟩
  · cases hc.known _ hf with
    | writer hk =>
        exact ⟨hc.counted k hk (Nat.add_pos_right _ hpos),
          hc.refs _ hf (.inr (hc.writerDriver k hk))⟩

theorem decr_succ (n : Nat) :
  decr (n + 1) = n
  := rfl

/-- One descriptor of a file less. -/
theorem Counts.of_closePut (hc : Counts h (f :: ds)) :
  Counts (closePut h f) ds
  := by
  have hf : Known h.pipes f := hc.known f List.mem_cons_self
  refine ⟨hc.toLayout.of_closePut hf.ne_null hf, ?_, ?_, ?_⟩
  · intro g hg
    rw [closePut_pipes hf.ne_null]
    exact hc.known g (List.mem_cons_of_mem f hg)
  · intro k hk hu
    rw [closePut_pipes hf.ne_null] at hk
    have hle : users ds k ≤ users (f :: ds) k :=
      Nat.add_le_add (List.count_le_count_cons) (List.count_le_count_cons)
    have hcounted := hc.counted k hk (Nat.lt_of_lt_of_le hu hle)
    by_cases hr : f = .reader k
    · obtain rfl := hr
      rw [Counted, List.count_cons_self, List.count_cons_of_ne (by nofun)] at hcounted
      rw [Counted, hc.closePut_reader hk, Function.update_self, hcounted.1, decr_succ]
      exact ⟨rfl, hcounted.2⟩
    by_cases hw : f = .writer k
    · obtain rfl := hw
      rw [Counted, List.count_cons_self, List.count_cons_of_ne (by nofun)] at hcounted
      rw [Counted, hc.closePut_writer hk, Function.update_self, hcounted.2, decr_succ]
      exact ⟨hcounted.1, rfl⟩
    rw [Counted, hc.closePut_of_ne hf hr hw]
    exact (counted_cons hr hw).1.mp hcounted
  · intro g hg hpipe
    rw [closePut_file hf.ne_null] at hpipe ⊢
    by_cases hgf : g = f
    · rw [hgf, Function.update_self] at hpipe ⊢
      have hrefs := hc.refs f List.mem_cons_self hpipe
      rw [List.count_cons_self] at hrefs
      rw [hrefs, decr_succ]
    · rw [Function.update_of_ne hgf] at hpipe ⊢
      rw [hc.refs g (List.mem_cons_of_mem f hg) hpipe, List.count_cons_of_ne (Ne.symm hgf)]

/-- A descriptor that was the only one of its pipe is given up, and only the counter of the
file is brought up to date. -/
theorem Counts.of_abandon {h' : Heap} {n k : Nat} (hc : Counts h (.writer k :: ds))
    (hunused : users ds k = 0) (hpipes : h'.pipes = h.pipes) (hpipe : h'.pipe = h.pipe)
    (hfile : h'.file = Function.update h.file (.writer k) { h.file (.writer k) with refs := n }) :
  Counts h' ds
  := by
  have hnotMem : .writer k ∉ ds := by
    rw [users] at hunused
    apply List.count_eq_zero.mp
    omega
  have hshape : SameShape h h' := @SameShape.of_update _ _ _ .null _ 0 0 hpipes hfile (.inl hpipe)
  refine ⟨hc.toLayout.of_sameShape hshape, ?_, ?_, ?_⟩
  · intro f hf
    rw [hpipes]
    exact hc.known f (List.mem_cons_of_mem _ hf)
  · intro j hj hu
    have hne : j ≠ k := by
      rintro rfl
      omega
    obtain ⟨hiff, husers⟩ := @counted_cons h ds (.writer k) j (by nofun)
      (fun he => hne (Ptr.writer.inj he).symm)
    rw [Counted, hpipe]
    apply hiff.mp
    apply hc.counted j (hpipes ▸ hj)
    rwa [husers]
  · intro f hf hdriver
    have hne : f ≠ .writer k := by
      rintro rfl
      exact hnotMem hf
    rw [hfile, Function.update_of_ne hne] at hdriver ⊢
    rw [hc.refs f (List.mem_cons_of_mem _ hf) hdriver, List.count_cons_of_ne (Ne.symm hne)]

end Counters

/-! ### Freeing -/

/-- The history of the two heaps is the same for the block `o`. -/
def SameHistory (o : Ptr) (h h' : Heap) : Prop :=
  h'.freed.count o = h.freed.count o ∧ (o ∈ h'.faults ↔ o ∈ h.faults)

theorem SameHistory.trans {o : Ptr} {h h' h'' : Heap} (hs : SameHistory o h h')
    (hs' : SameHistory o h' h'') :
  SameHistory o h h''
  := ⟨hs'.1.trans hs.1, hs'.2.trans hs.2⟩

theorem sameHistory_touch {o a : Ptr} (h : Heap) (hne : o ≠ a) :
  SameHistory o h (h.touch a)
  := by
  constructor
  · rfl
  · rw [Heap.touch]
    split
    · simp [hne]
    · rfl

theorem sameHistory_setRefs {o a : Ptr} (h : Heap) (n : Nat) (hne : o ≠ a) :
  SameHistory o h (h.setRefs a n)
  := sameHistory_touch h hne

theorem sameHistory_kfree {o a : Ptr} (h : Heap) (hne : o ≠ a) :
  SameHistory o h (h.kfree a)
  := by
  constructor
  · rw [Heap.kfree_freed, List.count_append, List.count_singleton, if_neg]
    · rfl
    · rw [beq_iff_eq]
      exact Ne.symm hne
  · exact (sameHistory_touch h hne).2

/-- A file that is no end of a pipe is opened and closed without a pipe. -/
theorem sameHistory_getOpen {h : Heap} {f o : Ptr} (hf : f ≠ .null)
    (hpipe : ¬ OfPipe (h.file f).driver) (hne : o ≠ f) :
  SameHistory o h (getOpen h f)
  := by
  rw [getOpen_eq hf]
  dsimp only
  rw [if_neg hpipe]
  exact (sameHistory_setRefs h _ hne).trans (sameHistory_touch _ hne)

theorem sameHistory_closePut {h : Heap} {f o : Ptr} (hf : f ≠ .null)
    (hpipe : ¬ OfPipe (h.file f).driver) (hne : o ≠ f) :
  SameHistory o h (closePut h f)
  := by
  rw [closePut, fsPut_eq hf, fsClose_eq hf, if_neg hpipe]
  have hput := (sameHistory_touch h hne).trans
    (sameHistory_setRefs (h.touch f) (decr ((h.touch f).file f).refs) hne)
  dsimp only
  split
  · exact hput.trans (sameHistory_kfree _ hne)
  · exact hput

/-- The blocks that the call number `k` of `pipe` allocates. -/
def blocks (k : Nat) : List Ptr :=
  [.reader k, .writer k, .data k, .buffer k]

/-- How often the block was freed after `n` calls of `pipe`, when every pipe has a user and
`ds` holds the files of all open descriptors. -/
def spent (n : Nat) (ds : List Ptr) : Ptr → Nat
  | .reader k => if k < n ∧ .reader k ∉ ds then 1 else 0
  | .writer k => if k < n ∧ .writer k ∉ ds then 1 else 0
  | _ => 0

theorem spent_of_mem {n : Nat} {ds : List Ptr} {o : Ptr} (ho : o ∈ ds) :
  spent n ds o = 0
  := by
  cases o <;> simp [spent, ho]

theorem spent_congr {n : Nat} {ds ds' : List Ptr} {o : Ptr} (ho : o ∈ ds ↔ o ∈ ds') :
  spent n ds o = spent n ds' o
  := by
  cases o <;> simp [spent, ho]

theorem spent_end {n k : Nat} {ds : List Ptr} {f : Ptr} (hf : f = .reader k ∨ f = .writer k)
    (hk : k < n) :
  spent n ds f = if ds.count f = 0 then 1 else 0
  := by
  rcases hf with rfl | rfl <;> simp [spent, hk, List.count_eq_zero]

/-- Every pipe has a user, an end without a user was freed once, nothing else of a pipe was
freed, and nothing of a pipe was used after that. -/
structure Intact (h : Heap) (ds : List Ptr) : Prop extends Counts h ds where
  used : ∀ k < h.pipes, 0 < users ds k
  freed : ∀ k, ∀ o ∈ blocks k, h.freed.count o = spent h.pipes ds o
  faults : ∀ k, ∀ o ∈ blocks k, o ∉ h.faults

theorem Intact.perm {h : Heap} {ds ds' : List Ptr} (hi : Intact h ds) (hp : ds.Perm ds') :
  Intact h ds'
  where
  toCounts := hi.toCounts.perm hp
  used k hk := by
    rw [users, ← hp.count_eq, ← hp.count_eq]
    exact hi.used k hk
  freed k o ho := by
    rw [hi.freed k o ho]
    exact spent_congr hp.mem_iff
  faults := hi.faults

section History

variable {h : Heap} {ds : List Ptr} {f : Ptr}

/-- A file that a descriptor holds is an end of a pipe or has nothing to do with pipes. -/
theorem Layout.end_of_known (hl : Layout h) (hf : Known h.pipes f) :
  (¬ OfPipe (h.file f).driver ∧ ∀ k, f ∉ blocks k)
    ∨ OfPipe (h.file f).driver ∧ ∃ k < h.pipes, (f = .reader k ∨ f = .writer k)
        ∧ (h.file f).data = .data k
  := by
  cases hf with
  | device i => exact .inl ⟨hl.device i, by simp [blocks]⟩
  | @reader k hk =>
      exact .inr ⟨.inl (hl.readerDriver k hk), k, hk, .inl rfl, hl.readerData k hk⟩
  | @writer k hk =>
      exact .inr ⟨.inr (hl.writerDriver k hk), k, hk, .inr rfl, hl.writerData k hk⟩

theorem end_mem_blocks {k : Nat} (hf : f = .reader k ∨ f = .writer k) :
  f ∈ blocks k
  := by
  rcases hf with rfl | rfl <;> simp [blocks]

/-- A block that was not to be freed was not freed. -/
theorem Intact.notMem_freed (hi : Intact h ds) {k : Nat} (hf : f ∈ blocks k)
    (hspent : spent h.pipes ds f = 0) :
  f ∉ h.freed
  := by
  rw [← List.count_eq_zero, hi.freed k f hf, hspent]

theorem data_mem_blocks (k : Nat) :
  .data k ∈ blocks k
  := by
  simp [blocks]

/-- One more descriptor of a file that has one. -/
theorem Intact.of_getOpen (hi : Intact h ds) (hf : f ∈ ds) :
  Intact (getOpen h f) (f :: ds)
  := by
  have hknown := hi.known f hf
  have hmem : ∀ o, o ∈ ds ↔ o ∈ f :: ds := by
    intro o
    rw [List.mem_cons]
    exact ⟨.inr, fun ho => ho.elim (fun he => he ▸ hf) id⟩
  refine ⟨hi.toCounts.of_getOpen hknown (hi.ready_of_mem hf), ?_, ?_, ?_⟩
  · intro k hk
    rw [getOpen_pipes hknown.ne_null] at hk
    apply Nat.lt_of_lt_of_le (hi.used k hk)
    exact Nat.add_le_add List.count_le_count_cons List.count_le_count_cons
  · intro k o ho
    rw [getOpen_freed hknown.ne_null, getOpen_pipes hknown.ne_null, hi.freed k o ho]
    exact spent_congr (hmem o)
  · intro k o ho
    rcases hi.end_of_known hknown with ⟨hpipe, hblock⟩ | ⟨hpipe, j, hj, hend, hdata⟩
    · have hne : o ≠ f := by
        rintro rfl
        exact hblock k ho
      rw [(sameHistory_getOpen hknown.ne_null hpipe hne).2]
      exact hi.faults k o ho
    · rw [getOpen_faults hknown.ne_null]
      · exact hi.faults k o ho
      · exact hi.notMem_freed (end_mem_blocks hend) (spent_of_mem hf)
      · rw [hdata]
        exact hi.notMem_freed (data_mem_blocks j) rfl

/-- One descriptor of a file less, when the pipe keeps a user. -/
theorem Intact.of_closePut (hi : Intact h (f :: ds)) (hused : ∀ k < h.pipes, 0 < users ds k) :
  Intact (closePut h f) ds
  := by
  have hmem : f ∈ f :: ds := List.mem_cons_self
  have hknown := hi.known f hmem
  have hc := hi.toCounts.of_closePut
  have hspent : ∀ o, o ≠ f → spent h.pipes (f :: ds) o = spent h.pipes ds o := by
    intro o ho
    apply spent_congr
    rw [List.mem_cons]
    exact ⟨fun h => h.resolve_left ho, .inr⟩
  have hpipes := closePut_pipes (h := h) hknown.ne_null
  rcases hi.end_of_known hknown with ⟨hpipe, hblock⟩ | ⟨hpipe, j, hj, hend, hdata⟩
  · have hne : ∀ k, ∀ o ∈ blocks k, o ≠ f := by
      rintro k o ho rfl
      exact hblock k ho
    refine ⟨hc, by rwa [hpipes], ?_, ?_⟩
    · intro k o ho
      rw [(sameHistory_closePut hknown.ne_null hpipe (hne k o ho)).1, hi.freed k o ho, hpipes,
        hspent o (hne k o ho)]
    · intro k o ho
      rw [(sameHistory_closePut hknown.ne_null hpipe (hne k o ho)).2]
      exact hi.faults k o ho
  · have hfree : f ∉ h.freed := hi.notMem_freed (end_mem_blocks hend) (spent_of_mem hmem)
    have hclosed : ¬ ((h.pipe (h.file f).data).closed f).Unused := by
      have hcounted := hc.counted j (hpipes ▸ hj) (hused j hj)
      rw [Counted, closePut_pipe hknown.ne_null, if_pos hpipe, hdata, Function.update_self]
        at hcounted
      have hpos := hused j hj
      rw [users, ← hcounted.1, ← hcounted.2] at hpos
      rw [hdata]
      rintro ⟨hr, hw⟩
      omega
    have hdfree : (h.file f).data ∉ h.freed := by
      rw [hdata]
      exact hi.notMem_freed (data_mem_blocks j) rfl
    obtain ⟨hfreed, hfaults⟩ := closePut_history hknown.ne_null hfree (fun _ => hdfree)
      (fun _ => hclosed)
    have hrefs : decr (h.file f).refs = ds.count f := by
      rw [hi.refs f hmem hpipe, List.count_cons_self, decr_succ]
    refine ⟨hc, by rwa [hpipes], ?_, ?_⟩
    · intro k o ho
      rw [hfreed, hrefs, hpipes, List.count_append]
      by_cases hof : o = f
      · rw [hof, List.count_eq_zero.mpr hfree]
        rw [spent_end hend hj, Nat.zero_add]
        split
        · exact List.count_singleton_self
        · rfl
      · rw [hi.freed k o ho, hspent o hof]
        split <;> simp [Ne.symm hof]
    · intro k o ho
      rw [hfaults]
      exact hi.faults k o ho

end History

end Vfs
