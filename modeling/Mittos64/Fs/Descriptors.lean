import Mathlib.Data.List.Perm.Basic
import Mittos64.Fs.Counters
import Mittos64.Lib.Run

/-!
# Descriptors of pipes

Runs of `pipe`, `fork`, `close` and `process_exit` by any number of processes.  Every call
is a sequence of duplicated and closed descriptors: what one of them does to the counters
and to the history of the heap is carried through the loops over the descriptor tables, and
from call to call.

A call of `close` with an index outside of the table leaves the array, and a run does not
go on from there; what the handlers do with such an index is in the module on system calls.
-/

namespace Vfs

/-! ### Processes -/

/-- The heap with the processes that were spawned so far. -/
structure State where
  heap : Heap
  procs : List Proc

/-- The calls that the processes make. -/
inductive Call where
  | pipe (p : Nat)
  | fork (p : Nat)
  | close (p : Nat) (fd : Int)
  | exit (p : Nat)

/-- The process `p`, when it can make a call. -/
def State.running (s : State) (p : Nat) : Option Proc :=
  s.procs[p]?.filter fun proc => !proc.zombie

/-- The effect of a call. -/
def State.step (s : State) : Call → Option State
  | .pipe p => do
      let proc ← s.running p
      let r := syscallPipe s.heap proc
      some { heap := r.2.2.1, procs := s.procs.set p r.2.2.2 }
  | .fork p => do
      let proc ← s.running p
      let r := processSpawn s.heap proc
      some { heap := r.1, procs := s.procs ++ [r.2] }
  | .close p fd => do
      let proc ← s.running p
      if fd ∈ indices then
        let r := syscallClose s.heap proc fd
        some { heap := r.2.1, procs := s.procs.set p r.2.2 }
      else none
  | .exit p => do
      let proc ← s.running p
      let r := processExit s.heap proc
      some { heap := r.1, procs := s.procs.set p r.2 }

/-- Before the first call of `pipe`: the descriptors hold files that are no ends of pipes. -/
structure Start (s : State) : Prop where
  pipes : s.heap.pipes = 0
  freed : s.heap.freed = []
  faults : s.heap.faults = []
  device : ∀ n, ¬ OfPipe (s.heap.file (.device n)).driver
  slots : ∀ proc ∈ s.procs, ∀ i ∈ indices,
    (proc.fp i).file = .null ∨ ∃ n, (proc.fp i).file = .device n

/-- The number of entries of the table of a process, when it is no zombie, that hold the
file. -/
def Proc.holding (proc : Proc) (f : Ptr) : Nat :=
  if proc.zombie then 0 else indices.countP fun i => (proc.fp i).file = f

/-- The number of descriptor slots of non-zombie processes that hold the file. -/
def State.holding (s : State) (f : Ptr) : Nat :=
  (s.procs.map fun proc => proc.holding f).sum

/-! ### The files of a table -/

/-- The pointer as a list of files. -/
def asList (f : Ptr) : List Ptr :=
  if f = .null then [] else [f]

/-- The files that the entries hold, at the given indices. -/
def filesAt (fp : Int → Slot) (is : List Int) : List Ptr :=
  is.flatMap fun i => asList (fp i).file

/-- The files of the open descriptors of a process. -/
def Proc.openFiles (proc : Proc) : List Ptr :=
  if proc.zombie then [] else filesAt proc.fp indices

/-- The files of all open descriptors. -/
def openFiles (procs : List Proc) : List Ptr :=
  procs.flatMap Proc.openFiles

theorem count_asList {f g : Ptr} (hf : f ≠ .null) :
  (asList g).count f = if g = f then 1 else 0
  := by
  rw [asList]
  by_cases hg : g = .null
  · rw [if_pos hg, if_neg (by rintro rfl; exact hf hg), List.count_nil]
  · rw [if_neg hg, List.count_singleton]
    simp only [beq_iff_eq]

theorem count_filesAt (fp : Int → Slot) (is : List Int) {f : Ptr} (hf : f ≠ .null) :
  (filesAt fp is).count f = is.countP fun i => (fp i).file = f
  := by
  induction is with
  | nil => rfl
  | cons i is ih =>
      rw [filesAt, List.flatMap_cons, List.count_append, count_asList hf, List.countP_cons,
        ← filesAt, ih, Nat.add_comm]
      simp only [decide_eq_true_eq]

theorem Proc.count_openFiles (proc : Proc) {f : Ptr} (hf : f ≠ .null) :
  proc.openFiles.count f = proc.holding f
  := by
  rw [Proc.openFiles, Proc.holding]
  split
  · rfl
  · exact count_filesAt proc.fp indices hf

/-- The descriptors of a file, counted in the list of the files of all of them. -/
theorem count_openFiles (s : State) {f : Ptr} (hf : f ≠ .null) :
  (openFiles s.procs).count f = s.holding f
  := by
  rw [State.holding, openFiles, List.count_flatMap]
  congr 1
  apply List.map_congr_left
  intro proc _
  exact proc.count_openFiles hf

theorem nodup_indices :
  indices.Nodup
  := by
  decide

/-- The files of a table with another file at one index. -/
theorem filesAt_setFile (fp : Int → Slot) {i : Int} (hi : i ∈ indices) (f : Ptr) :
  (filesAt (setFile fp i f) indices).Perm (asList f ++ filesAt fp (indices.erase i))
  := by
  have hrest : filesAt (setFile fp i f) (indices.erase i) = filesAt fp (indices.erase i) := by
    apply List.flatMap_congr
    intro j hj
    have hne : j ≠ i := by
      rintro rfl
      exact List.Nodup.not_mem_erase nodup_indices hj
    rw [setFile, Function.update_of_ne hne]
  have hperm := (List.perm_cons_erase hi).flatMap_right
    (fun j => asList (setFile fp i f j).file)
  rw [List.flatMap_cons, setFile, Function.update_self] at hperm
  rw [← hrest]
  exact hperm

theorem filesAt_perm (fp : Int → Slot) {i : Int} (hi : i ∈ indices) :
  (filesAt fp indices).Perm (asList (fp i).file ++ filesAt fp (indices.erase i))
  := by
  have hperm := filesAt_setFile fp hi (fp i).file
  rw [setFile, Function.update_eq_self] at hperm
  exact hperm

/-- The files of the other processes. -/
def others (s : State) (p : Nat) : List Ptr :=
  openFiles (s.procs.eraseIdx p)

section Running

variable {s : State} {p : Nat} {proc : Proc}

theorem running_iff :
  s.running p = some proc ↔ s.procs[p]? = some proc ∧ proc.zombie = false
  := by
  rw [State.running, Option.filter_eq_some_iff, Bool.not_eq_eq_eq_not, Bool.not_true]

theorem openFiles_perm (hp : s.procs[p]? = some proc) :
  (openFiles s.procs).Perm (proc.openFiles ++ others s p)
  := by
  obtain ⟨hlt, rfl⟩ := List.getElem?_eq_some_iff.mp hp
  exact (List.getElem_cons_eraseIdx_perm hlt).symm.flatMap_right _

theorem openFiles_set (hp : s.procs[p]? = some proc) (proc' : Proc) :
  (openFiles (s.procs.set p proc')).Perm (proc'.openFiles ++ others s p)
  := by
  obtain ⟨hlt, rfl⟩ := List.getElem?_eq_some_iff.mp hp
  exact (List.set_perm_cons_eraseIdx hlt proc').flatMap_right _

theorem Proc.openFiles_running (hz : proc.zombie = false) :
  proc.openFiles = filesAt proc.fp indices
  := by
  rw [Proc.openFiles, hz]
  rfl

end Running

/-! ### The loops over a table -/

section Loops

variable {h : Heap} {fp : Int → Slot} {i : Int}

theorem copySlot_heap (c : Heap × (Int → Slot)) (hi : (fp i).file ≠ .null) :
  (copySlot fp c i).1 = getOpen c.1 (fp i).file
  := by
  rw [copySlot, if_neg hi, getOpen, fsGet_of_ne hi]

theorem copySlot_file (c : Heap × (Int → Slot)) (j : Int) :
  ((copySlot fp c i).2 j).file
    = if j = i ∧ (fp j).file ≠ .null then (fp j).file else (c.2 j).file
  := by
  rw [copySlot]
  by_cases hi : (fp i).file = .null
  · rw [if_pos hi, if_neg]
    rintro ⟨rfl, hj⟩
    exact hj hi
  · rw [if_neg hi, fsGet_of_ne hi]
    dsimp only
    by_cases hj : j = i
    · obtain rfl := hj
      rw [if_pos ⟨rfl, hi⟩, Function.update_self]
    · rw [if_neg (fun h => hj h.1), Function.update_of_ne hj]

/-- The files in the table of the child, after some turns of the loop. -/
theorem copySlots_file (fp : Int → Slot) (is : List Int) (c : Heap × (Int → Slot)) (j : Int) :
  ((is.foldl (copySlot fp) c).2 j).file
    = if j ∈ is ∧ (fp j).file ≠ .null then (fp j).file else (c.2 j).file
  := by
  induction is generalizing c with
  | nil => simp
  | cons i is ih =>
      rw [List.foldl_cons, ih, copySlot_file]
      by_cases hj : (fp j).file = .null
      · simp [hj]
      · by_cases hmem : j ∈ is <;> simp [hj, hmem, List.mem_cons]

/-- The child has the files of the parent. -/
theorem processSpawn_files (h : Heap) (parent : Proc) :
  (processSpawn h parent).2.openFiles = filesAt parent.fp indices
  := by
  rw [Proc.openFiles_running rfl]
  apply List.flatMap_congr
  intro i hi
  apply congrArg asList
  rw [processSpawn]
  dsimp only
  rw [copySlots_file]
  by_cases hnull : (parent.fp i).file = .null
  · rw [if_neg (fun h => h.2 hnull), hnull]
    rfl
  · rw [if_pos ⟨hi, hnull⟩]

variable {P : Heap → List Ptr → Prop}

/-- What is kept by one more descriptor is kept by the loop of `process_spawn`. -/
theorem copySlots_spec (hperm : ∀ {h ds ds'}, P h ds → ds.Perm ds' → P h ds')
    (hget : ∀ {h ds f}, P h ds → f ∈ ds → P (getOpen h f) (f :: ds))
    (is : List Int) {c : Heap × (Int → Slot)} {ds : List Ptr} (hP : P c.1 ds)
    (hmem : ∀ f ∈ filesAt fp is, f ∈ ds) :
  P (is.foldl (copySlot fp) c).1 (filesAt fp is ++ ds)
  := by
  induction is generalizing c ds with
  | nil => exact hP
  | cons i is ih =>
      rw [filesAt, List.flatMap_cons, ← filesAt] at hmem ⊢
      rw [List.foldl_cons]
      by_cases hi : (fp i).file = .null
      · rw [asList, if_pos hi] at hmem ⊢
        rw [copySlot, if_pos hi]
        exact ih hP hmem
      · rw [asList, if_neg hi] at hmem ⊢
        have hstep : P (copySlot fp c i).1 ((fp i).file :: ds) := by
          rw [copySlot_heap c hi]
          exact hget hP (hmem _ (List.mem_append_left _ List.mem_cons_self))
        have hrest : ∀ f ∈ filesAt fp is, f ∈ (fp i).file :: ds := fun f hf =>
          List.mem_cons_of_mem _ (hmem f (List.mem_append_right _ hf))
        exact hperm (ih hstep hrest) List.perm_middle

/-- What is kept by a closed descriptor is kept by the loop of `process_exit`, under a
condition on the descriptors that stay. -/
theorem exitSlots_spec {C : List Ptr → Prop}
    (hclose : ∀ {h ds f}, P h (f :: ds) → C ds → P (closePut h f) ds)
    (hmono : ∀ l ds, C ds → C (l ++ ds))
    (is : List Int) {ds : List Ptr} (hP : P h (filesAt fp is ++ ds)) (hC : C ds) :
  P (is.foldl (exitSlot fp) h) ds
  := by
  induction is generalizing h with
  | nil => exact hP
  | cons i is ih =>
      rw [filesAt, List.flatMap_cons, ← filesAt, asList] at hP
      rw [List.foldl_cons, exitSlot]
      by_cases hi : (fp i).file = .null
      · rw [if_pos hi] at hP ⊢
        exact ih hP
      · rw [if_neg hi] at hP ⊢
        exact ih (hclose hP (hmono _ _ hC))

end Loops

/-- The heap that `syscall_close` leaves. -/
theorem syscallClose_heap (h : Heap) (proc : Proc) (fd : Int) :
  (syscallClose h proc fd).2.1
    = if (proc.fp fd).file = .null then h else closePut h (proc.fp fd).file
  := by
  rw [syscallClose]
  dsimp only
  split
  · rename_i hnull
    rw [hnull, fsClose, if_pos rfl, fsPut, if_pos rfl]
  · rfl

/-! ### A new pipe -/

section NewPipe

variable {h : Heap} {ds : List Ptr}

/-- The heap after the two ends of a new pipe got their descriptors. -/
def openPipe (h : Heap) : Heap :=
  getOpen (getOpen (pipe h).2.2 (.writer h.pipes)) (.reader h.pipes)

theorem pipe_file_of_ne {f : Ptr} (hr : f ≠ .reader h.pipes) (hw : f ≠ .writer h.pipes) :
  (pipe h).2.2.file f = h.file f
  := by
  rw [pipe]
  dsimp only
  rw [Function.update_of_ne hw, Function.update_of_ne hr]

theorem pipe_pipe_of_ne {k : Nat} (hk : k ≠ h.pipes) :
  (pipe h).2.2.pipe (.data k) = h.pipe (.data k)
  := by
  rw [pipe]
  dsimp only
  rw [Function.update_of_ne (fun he => hk (Ptr.data.inj he))]

theorem pipe_file_reader :
  (pipe h).2.2.file (.reader h.pipes)
    = { File.zero with data := .data h.pipes, driver := some .pipeReader }
  := by
  rw [pipe]
  dsimp only
  rw [Function.update_of_ne (by nofun), Function.update_self]

theorem pipe_file_writer :
  (pipe h).2.2.file (.writer h.pipes)
    = { File.zero with data := .data h.pipes, driver := some .pipeWriter }
  := by
  rw [pipe]
  dsimp only
  rw [Function.update_self]

theorem pipe_pipe_self :
  (pipe h).2.2.pipe (.data h.pipes)
    = { buffer := .buffer h.pipes, readers := 0, writers := 0, reader := .reader h.pipes,
        writer := .writer h.pipes }
  := by
  rw [pipe]
  dsimp only
  rw [Function.update_self]

@[simp]
theorem pipe_pipes :
  (pipe h).2.2.pipes = h.pipes + 1
  := rfl

theorem Layout.of_pipe (hl : Layout h) :
  Layout (pipe h).2.2
  := by
  have hcases : ∀ {Q : Nat → Prop}, (∀ k < h.pipes, k ≠ h.pipes → Q k) → Q h.pipes →
      ∀ k < (pipe h).2.2.pipes, Q k := by
    intro Q hlt hself k hk
    by_cases hne : k = h.pipes
    · rwa [hne]
    · exact hlt k (by rw [pipe_pipes] at hk; omega) hne
  have hfile : ∀ {k : Nat}, k ≠ h.pipes →
      (pipe h).2.2.file (.reader k) = h.file (.reader k)
        ∧ (pipe h).2.2.file (.writer k) = h.file (.writer k) := by
    intro k hk
    have hr : Ptr.reader k ≠ .reader h.pipes := fun he => hk (Ptr.reader.inj he)
    have hw : Ptr.writer k ≠ .writer h.pipes := fun he => hk (Ptr.writer.inj he)
    exact ⟨pipe_file_of_ne hr (by nofun), pipe_file_of_ne (by nofun) hw⟩
  constructor
  · intro n
    rw [pipe_file_of_ne (by nofun) (by nofun)]
    exact hl.device n
  · apply hcases
    · intro k hk hne
      rw [(hfile hne).1, hl.readerDriver k hk]
    · rw [pipe_file_reader]
  · apply hcases
    · intro k hk hne
      rw [(hfile hne).1, hl.readerData k hk]
    · rw [pipe_file_reader]
  · apply hcases
    · intro k hk hne
      rw [(hfile hne).2, hl.writerDriver k hk]
    · rw [pipe_file_writer]
  · apply hcases
    · intro k hk hne
      rw [(hfile hne).2, hl.writerData k hk]
    · rw [pipe_file_writer]
  · apply hcases
    · intro k hk hne
      rw [pipe_pipe_of_ne hne, hl.reader k hk]
    · rw [pipe_pipe_self]
  · apply hcases
    · intro k hk hne
      rw [pipe_pipe_of_ne hne, hl.writer k hk]
    · rw [pipe_pipe_self]
  · apply hcases
    · intro k hk hne
      rw [pipe_pipe_of_ne hne, hl.buffer k hk]
    · rw [pipe_pipe_self]

/-- No descriptor holds an end of a pipe that is not there yet. -/
theorem Counts.notMem_new (hc : Counts h ds) {k : Nat} (hk : h.pipes ≤ k) :
  .reader k ∉ ds ∧ .writer k ∉ ds
  := by
  constructor
  · intro hmem
    cases hc.known _ hmem with
    | reader hlt => omega
  · intro hmem
    cases hc.known _ hmem with
    | writer hlt => omega

theorem Known.mono {n m : Nat} {f : Ptr} (hf : Known n f) (hnm : n ≤ m) :
  Known m f
  := by
  cases hf with
  | device i => exact .device i
  | reader hk => exact .reader (Nat.lt_of_lt_of_le hk hnm)
  | writer hk => exact .writer (Nat.lt_of_lt_of_le hk hnm)

/-- The new pipe has no descriptors yet. -/
theorem Counts.of_pipe (hc : Counts h ds) :
  Counts (pipe h).2.2 ds
  := by
  obtain ⟨hr, hw⟩ := hc.notMem_new (Nat.le_refl _)
  refine ⟨hc.toLayout.of_pipe, ?_, ?_, ?_⟩
  · intro f hf
    exact (hc.known f hf).mono (Nat.le_succ _)
  · intro k hk hu
    by_cases hne : k = h.pipes
    · rw [hne, users, List.count_eq_zero.mpr hr, List.count_eq_zero.mpr hw] at hu
      exact absurd hu (Nat.lt_irrefl 0)
    · rw [Counted, pipe_pipe_of_ne hne]
      apply hc.counted k _ hu
      rw [pipe_pipes] at hk
      omega
  · intro f hf
    have hfr : f ≠ .reader h.pipes := by
      rintro rfl
      exact hr hf
    have hfw : f ≠ .writer h.pipes := by
      rintro rfl
      exact hw hf
    rw [pipe_file_of_ne hfr hfw]
    exact hc.refs f hf

theorem Counts.ready_pipe (hc : Counts h ds) :
  Ready (pipe h).2.2 ds (.writer h.pipes)
  := by
  obtain ⟨hr, hw⟩ := hc.notMem_new (Nat.le_refl _)
  rintro k (he | he)
  · nomatch he
  · obtain rfl := Ptr.writer.inj he
    rw [Counted, pipe_pipe_self, pipe_file_writer, List.count_eq_zero.mpr hr,
      List.count_eq_zero.mpr hw]
    exact ⟨⟨rfl, rfl⟩, rfl⟩

/-- The heap after the writer of a new pipe got its descriptor. -/
theorem Counts.openWriter (hc : Counts h ds) :
  Counts (getOpen (pipe h).2.2 (.writer h.pipes)) (.writer h.pipes :: ds)
  := hc.of_pipe.of_getOpen (.writer (Nat.lt_succ_self _)) hc.ready_pipe

theorem Counts.of_openPipe (hc : Counts h ds) :
  Counts (openPipe h) (.reader h.pipes :: .writer h.pipes :: ds)
  := by
  obtain ⟨hr, hw⟩ := hc.notMem_new (Nat.le_refl _)
  have hc' := hc.openWriter
  apply hc'.of_getOpen
  · rw [getOpen_pipes (by rintro ⟨⟩)]
    exact .reader (Nat.lt_succ_self _)
  · rintro k (he | he)
    · obtain rfl := Ptr.reader.inj he
      constructor
      · apply hc'.counted
        · rw [getOpen_pipes (by rintro ⟨⟩)]
          exact Nat.lt_succ_self _
        · rw [users, List.count_cons_self]
          omega
      · rw [getOpen_file (by rintro ⟨⟩), Function.update_of_ne (by rintro ⟨⟩), pipe_file_reader,
          List.count_cons_of_ne (by rintro ⟨⟩), List.count_eq_zero.mpr hr]
        rfl
    · cases he

theorem spent_openPipe (n : Nat) (ds : List Ptr) (o : Ptr) :
  spent (n + 1) (.reader n :: .writer n :: ds) o = spent n ds o
  := by
  cases o with
  | reader k =>
      by_cases hk : k = n
      · simp [spent, hk]
      · have hlt : k < n + 1 ↔ k < n := by omega
        simp [spent, hk, hlt]
  | writer k =>
      by_cases hk : k = n
      · simp [spent, hk]
      · have hlt : k < n + 1 ↔ k < n := by omega
        simp [spent, hk, hlt]
  | null => rfl
  | device i => rfl
  | data k => rfl
  | buffer k => rfl

theorem spent_later {n k : Nat} {ds : List Ptr} {o : Ptr} (hk : n ≤ k) (ho : o ∈ blocks k) :
  spent n ds o = 0
  := by
  simp only [blocks, List.mem_cons, List.not_mem_nil, or_false] at ho
  have hlt : ¬ k < n := Nat.not_lt.mpr hk
  rcases ho with rfl | rfl | rfl | rfl <;> simp [spent, hlt]

theorem Intact.of_openPipe (hi : Intact h ds) :
  Intact (openPipe h) (.reader h.pipes :: .writer h.pipes :: ds)
  := by
  have hpipes : (openPipe h).pipes = h.pipes + 1 := by
    rw [openPipe, getOpen_pipes (by nofun), getOpen_pipes (by nofun), pipe_pipes]
  have hfreed : (openPipe h).freed = h.freed := by
    rw [openPipe, getOpen_freed (by nofun), getOpen_freed (by nofun)]
    rfl
  have hfree : ∀ o ∈ blocks h.pipes, o ∉ h.freed := fun o ho =>
    hi.notMem_freed ho (spent_later (Nat.le_refl _) ho)
  have hfaults : (openPipe h).faults = h.faults := by
    have hfreed' : (getOpen (pipe h).2.2 (.writer h.pipes)).freed = h.freed :=
      getOpen_freed (by nofun)
    rw [openPipe, getOpen_faults (by nofun), getOpen_faults (by nofun)]
    · rfl
    · exact hfree _ (end_mem_blocks (.inr rfl))
    · rw [pipe_file_writer]
      exact hfree _ (data_mem_blocks _)
    · rw [hfreed']
      exact hfree _ (end_mem_blocks (.inl rfl))
    · rw [hfreed', getOpen_file (by nofun), Function.update_of_ne (by nofun), pipe_file_reader]
      exact hfree _ (data_mem_blocks _)
  refine ⟨hi.toCounts.of_openPipe, ?_, ?_, ?_⟩
  · intro k hk
    rw [hpipes] at hk
    rw [users]
    by_cases hne : k = h.pipes
    · rw [hne, List.count_cons_self]
      omega
    · have hpos := hi.used k (by omega)
      have hr := @List.count_le_count_cons _ _ (Ptr.reader k) (.writer h.pipes) ds
      have hr' := @List.count_le_count_cons _ _ (Ptr.reader k) (.reader h.pipes)
        (.writer h.pipes :: ds)
      have hw := @List.count_le_count_cons _ _ (Ptr.writer k) (.writer h.pipes) ds
      have hw' := @List.count_le_count_cons _ _ (Ptr.writer k) (.reader h.pipes)
        (.writer h.pipes :: ds)
      rw [users] at hpos
      omega
  · intro k o ho
    rw [hfreed, hpipes, spent_openPipe, hi.freed k o ho]
  · intro k o ho
    rw [hfaults]
    exact hi.faults k o ho

end NewPipe

/-! ### The calls -/

theorem setFile_setFile (fp : Int → Slot) (i : Int) (f g : Ptr) :
  setFile (setFile fp i f) i g = setFile fp i g
  := by
  rw [setFile, setFile, Function.update_self, Function.update_idem, setFile]

theorem setFile_self (fp : Int → Slot) (i : Int) :
  setFile fp i (fp i).file = fp
  := by
  rw [setFile, Function.update_eq_self]

theorem firstFree_spec {fp : Int → Slot} {i : Int} (hi : firstFree fp = some i) :
  i ∈ indices ∧ (fp i).file = .null
  := by
  have hnull := List.find?_some hi
  exact ⟨List.mem_of_find?_eq_some hi, of_decide_eq_true hnull⟩

/-- A file that is put in an empty entry is one more file. -/
theorem filesAt_firstFree {fp : Int → Slot} {i : Int} {f : Ptr} (hi : firstFree fp = some i)
    (hf : f ≠ .null) :
  (filesAt (setFile fp i f) indices).Perm (f :: filesAt fp indices)
  := by
  obtain ⟨hmem, hnull⟩ := firstFree_spec hi
  have hold := filesAt_perm fp hmem
  have hnew := filesAt_setFile fp hmem f
  rw [asList, if_pos hnull, List.nil_append] at hold
  rw [asList, if_neg hf] at hnew
  exact hnew.trans (hold.symm.cons f)

section SyscallPipe

variable {h : Heap} {proc : Proc}

/-- A call of `pipe` that finds two empty entries. -/
theorem syscallPipe_two {i j : Int} (hi : firstFree proc.fp = some i)
    (hj : firstFree (setFile proc.fp i (.writer h.pipes)) = some j) :
  (syscallPipe h proc).2.2
    = (openPipe h, { proc with
        fp := setFile (setFile proc.fp i (.writer h.pipes)) j (.reader h.pipes) })
  := by
  have hw : ∀ h', fsGet h' (.writer h.pipes)
      = (.writer h.pipes, h'.setRefs (.writer h.pipes) ((h'.file (.writer h.pipes)).refs + 1)) :=
    fun h' => fsGet_of_ne (by nofun)
  have hr : ∀ h', fsGet h' (.reader h.pipes)
      = (.reader h.pipes, h'.setRefs (.reader h.pipes) ((h'.file (.reader h.pipes)).refs + 1)) :=
    fun h' => fsGet_of_ne (by nofun)
  rw [syscallPipe]
  simp only [pipe, hi, hw, hj, hr]
  simp only [openPipe, getOpen, pipe, hw, hr]

/-- A call of `pipe` that finds one empty entry leaves the table as it was. -/
theorem syscallPipe_one {i : Int} (hi : firstFree proc.fp = some i)
    (hj : firstFree (setFile proc.fp i (.writer h.pipes)) = none) :
  (syscallPipe h proc).2.2
    = ((fsPut (((getOpen (pipe h).2.2 (.writer h.pipes)).kfree (.reader h.pipes)).kfree
        (.writer h.pipes)) (.writer h.pipes)).2, proc)
  := by
  have hw : ∀ h', fsGet h' (.writer h.pipes)
      = (.writer h.pipes, h'.setRefs (.writer h.pipes) ((h'.file (.writer h.pipes)).refs + 1)) :=
    fun h' => fsGet_of_ne (by nofun)
  have hfp : setFile proc.fp i .null = proc.fp := by
    rw [← (firstFree_spec hi).2, setFile_self]
  have hself : (setFile proc.fp i (.writer h.pipes) i).file = .writer h.pipes := by
    rw [setFile, Function.update_self]
  rw [syscallPipe]
  simp only [pipe, hi, hw, hj, pipeFail, setFile_setFile, hfp, hself]
  simp only [getOpen, hw]

/-- A call of `pipe` that finds no empty entry. -/
theorem syscallPipe_none (hi : firstFree proc.fp = none) :
  (syscallPipe h proc).2.2
    = (((pipe h).2.2.kfree (.reader h.pipes)).kfree (.writer h.pipes), proc)
  := by
  rw [syscallPipe]
  simp only [pipe, hi, pipeFail]

end SyscallPipe

section Calls

variable {s s' : State} {p : Nat} {proc : Proc}

/-- What each call does. -/
theorem step_cases {c : Call} (hstep : s.step c = some s') :
  ∃ p proc, s.procs[p]? = some proc ∧ proc.zombie = false ∧
    ((c = .pipe p ∧ s' = { heap := (syscallPipe s.heap proc).2.2.1
                           procs := s.procs.set p (syscallPipe s.heap proc).2.2.2 })
      ∨ (c = .fork p ∧ s' = { heap := (processSpawn s.heap proc).1
                              procs := s.procs ++ [(processSpawn s.heap proc).2] })
      ∨ (∃ fd ∈ indices, c = .close p fd ∧ s' =
          { heap := (syscallClose s.heap proc fd).2.1
            procs := s.procs.set p (syscallClose s.heap proc fd).2.2 })
      ∨ (c = .exit p ∧ s' = { heap := (processExit s.heap proc).1
                              procs := s.procs.set p (processExit s.heap proc).2 }))
  := by
  cases c with
  | pipe p =>
      obtain ⟨proc, hrun, hs⟩ := Option.bind_eq_some_iff.mp hstep
      obtain ⟨hp, hz⟩ := running_iff.mp hrun
      exact ⟨p, proc, hp, hz, .inl ⟨rfl, (Option.some.inj hs).symm⟩⟩
  | fork p =>
      obtain ⟨proc, hrun, hs⟩ := Option.bind_eq_some_iff.mp hstep
      obtain ⟨hp, hz⟩ := running_iff.mp hrun
      exact ⟨p, proc, hp, hz, .inr (.inl ⟨rfl, (Option.some.inj hs).symm⟩)⟩
  | close p fd =>
      obtain ⟨proc, hrun, hs⟩ := Option.bind_eq_some_iff.mp hstep
      obtain ⟨hp, hz⟩ := running_iff.mp hrun
      split at hs
      · rename_i hfd
        exact ⟨p, proc, hp, hz, .inr (.inr (.inl ⟨fd, hfd, rfl, (Option.some.inj hs).symm⟩))⟩
      · nomatch hs
  | exit p =>
      obtain ⟨proc, hrun, hs⟩ := Option.bind_eq_some_iff.mp hstep
      obtain ⟨hp, hz⟩ := running_iff.mp hrun
      exact ⟨p, proc, hp, hz, .inr (.inr (.inr ⟨rfl, (Option.some.inj hs).symm⟩))⟩

variable {P : Heap → List Ptr → Prop}
  (hperm : ∀ {h : Heap} {ds ds' : List Ptr}, P h ds → ds.Perm ds' → P h ds')

include hperm

/-- What is kept by one more descriptor is kept by `fork`. -/
theorem fork_spec (hget : ∀ {h ds f}, P h ds → f ∈ ds → P (getOpen h f) (f :: ds))
    (hp : s.procs[p]? = some proc) (hz : proc.zombie = false)
    (hP : P s.heap (openFiles s.procs)) :
  P (processSpawn s.heap proc).1 (openFiles (s.procs ++ [(processSpawn s.heap proc).2]))
  := by
  have hmem : ∀ f ∈ filesAt proc.fp indices, f ∈ openFiles s.procs := by
    intro f hf
    rw [(openFiles_perm hp).mem_iff, Proc.openFiles_running hz]
    exact List.mem_append_left _ hf
  have hspec := copySlots_spec (P := P) hperm hget indices
    (c := (s.heap, fun _ => Slot.zero)) hP hmem
  apply hperm hspec
  rw [openFiles, openFiles, List.flatMap_append, List.flatMap_singleton, processSpawn_files]
  exact List.perm_append_comm

/-- What is kept by a closed descriptor is kept by `close`, under a condition on the
descriptors that stay. -/
theorem close_spec {C : List Ptr → Prop}
    (hclose : ∀ {h ds f}, P h (f :: ds) → C ds → P (closePut h f) ds)
    (hp : s.procs[p]? = some proc) (hz : proc.zombie = false) {fd : Int} (hfd : fd ∈ indices)
    (hC : (proc.fp fd).file ≠ .null →
      C (filesAt proc.fp (indices.erase fd) ++ others s p))
    (hP : P s.heap (openFiles s.procs)) :
  P (syscallClose s.heap proc fd).2.1
    (openFiles (s.procs.set p (syscallClose s.heap proc fd).2.2))
  := by
  have hold := openFiles_perm hp
  rw [Proc.openFiles_running hz] at hold
  have hold' := hold.trans ((filesAt_perm proc.fp hfd).append_right (others s p))
  have hnew := openFiles_set hp (syscallClose s.heap proc fd).2.2
  rw [Proc.openFiles_running (by exact hz)] at hnew
  have hnew' := hnew.trans ((filesAt_setFile proc.fp hfd .null).append_right (others s p))
  rw [asList, if_pos rfl, List.nil_append] at hnew'
  rw [syscallClose_heap]
  apply hperm _ hnew'.symm
  have hP' := hperm hP hold'
  split
  · rename_i hnull
    rwa [asList, if_pos hnull, List.nil_append] at hP'
  · rename_i hnull
    rw [asList, if_neg hnull] at hP'
    exact hclose hP' (hC hnull)

/-- What is kept by a closed descriptor is kept by `process_exit`, under a condition on the
descriptors that stay. -/
theorem exit_spec {C : List Ptr → Prop}
    (hclose : ∀ {h ds f}, P h (f :: ds) → C ds → P (closePut h f) ds)
    (hmono : ∀ l ds, C ds → C (l ++ ds))
    (hp : s.procs[p]? = some proc) (hz : proc.zombie = false) (hC : C (others s p))
    (hP : P s.heap (openFiles s.procs)) :
  P (processExit s.heap proc).1 (openFiles (s.procs.set p (processExit s.heap proc).2))
  := by
  have hold := openFiles_perm hp
  rw [Proc.openFiles_running hz] at hold
  have hnew := openFiles_set hp (processExit s.heap proc).2
  have hzombie : (processExit s.heap proc).2.openFiles = [] := rfl
  rw [hzombie, List.nil_append] at hnew
  apply hperm _ hnew.symm
  exact exitSlots_spec hclose hmono indices (hperm hP hold) hC

/-- What is kept by a new pipe is kept by a call of `pipe` that finds two empty entries. -/
theorem pipe_spec
    (hopen : ∀ {h ds}, P h ds → P (openPipe h) (.reader h.pipes :: .writer h.pipes :: ds))
    (hp : s.procs[p]? = some proc) (hz : proc.zombie = false) {i j : Int}
    (hi : firstFree proc.fp = some i)
    (hj : firstFree (setFile proc.fp i (.writer s.heap.pipes)) = some j)
    (hP : P s.heap (openFiles s.procs)) :
  P (syscallPipe s.heap proc).2.2.1 (openFiles (s.procs.set p (syscallPipe s.heap proc).2.2.2))
  := by
  rw [syscallPipe_two hi hj]
  have hold := openFiles_perm hp
  rw [Proc.openFiles_running hz] at hold
  have hnew := openFiles_set hp { proc with
    fp := setFile (setFile proc.fp i (.writer s.heap.pipes)) j (.reader s.heap.pipes) }
  rw [Proc.openFiles_running (by exact hz)] at hnew
  have htable := (filesAt_firstFree hj (f := .reader s.heap.pipes) (by nofun)).trans
    ((filesAt_firstFree hi (f := .writer s.heap.pipes) (by nofun)).cons _)
  have hnew' := hnew.trans (htable.append_right (others s p))
  apply hperm (hopen hP)
  exact ((hold.cons _).cons _).trans hnew'.symm

end Calls

/-! ### Reference counts -/

/-- A call of `pipe` that fails leaves the counters of the other pipes alone. -/
theorem Counts.of_syscallPipe {s : State} {p : Nat} {proc : Proc}
    (hc : Counts s.heap (openFiles s.procs)) (hp : s.procs[p]? = some proc)
    (hz : proc.zombie = false) :
  Counts (syscallPipe s.heap proc).2.2.1
    (openFiles (s.procs.set p (syscallPipe s.heap proc).2.2.2))
  := by
  have hsame : s.procs.set p proc = s.procs := by
    obtain ⟨hlt, rfl⟩ := List.getElem?_eq_some_iff.mp hp
    exact List.set_getElem_self hlt
  rcases hi : firstFree proc.fp with _ | i
  · rw [syscallPipe_none hi, hsame]
    have hc' := hc.of_pipe
    exact ⟨⟨hc'.device, hc'.readerDriver, hc'.readerData, hc'.writerDriver, hc'.writerData,
      hc'.reader, hc'.writer, hc'.buffer⟩, hc'.known, hc'.counted, hc'.refs⟩
  rcases hj : firstFree (setFile proc.fp i (.writer s.heap.pipes)) with _ | j
  · rw [syscallPipe_one hi hj, hsame]
    obtain ⟨hr, hw⟩ := hc.notMem_new (Nat.le_refl _)
    apply hc.openWriter.of_abandon
    · rw [users, List.count_eq_zero.mpr hr, List.count_eq_zero.mpr hw]
    · rw [fsPut_pipes (by rintro ⟨⟩), Heap.kfree_pipes, Heap.kfree_pipes]
    · rw [fsPut_pipe (by rintro ⟨⟩), Heap.kfree_pipe, Heap.kfree_pipe]
    · rw [fsPut_file (by rintro ⟨⟩), Heap.kfree_file, Heap.kfree_file]
  · exact pipe_spec Counts.perm Counts.of_openPipe hp hz hi hj hc

/-- Every call keeps the counters. -/
theorem Counts.of_step {s s' : State} {c : Call} (hc : Counts s.heap (openFiles s.procs))
    (hstep : s.step c = some s') :
  Counts s'.heap (openFiles s'.procs)
  := by
  obtain ⟨p, proc, hp, hz, ⟨-, rfl⟩ | ⟨-, rfl⟩ | ⟨fd, hfd, -, rfl⟩ | ⟨-, rfl⟩⟩ := step_cases hstep
  · exact hc.of_syscallPipe hp hz
  · apply fork_spec (P := Counts) Counts.perm _ hp hz hc
    intro h ds f hc hf
    exact hc.of_getOpen (hc.known f hf) (hc.ready_of_mem hf)
  · apply close_spec (P := Counts) (C := fun _ => True) Counts.perm _ hp hz hfd (fun _ => trivial) hc
    intro h ds f hc _
    exact hc.of_closePut
  · apply exit_spec (P := Counts) (C := fun _ => True) Counts.perm _ (fun _ _ _ => trivial) hp hz
      trivial hc
    intro h ds f hc _
    exact hc.of_closePut

/-- The counters before the first call. -/
theorem Start.counts {s : State} (hs : Start s) :
  Counts s.heap (openFiles s.procs)
  := by
  have hnone : ∀ {Q : Nat → Prop} (k : Nat), k < s.heap.pipes → Q k := by
    intro Q k hk
    rw [hs.pipes] at hk
    exact absurd hk (Nat.not_lt_zero k)
  have hdevice : ∀ f ∈ openFiles s.procs, ∃ n, f = .device n := by
    intro f hf
    obtain ⟨proc, hproc, hf⟩ := List.mem_flatMap.mp hf
    rw [Proc.openFiles] at hf
    split at hf
    · nomatch hf
    · obtain ⟨i, hi, hf⟩ := List.mem_flatMap.mp hf
      rw [asList] at hf
      split at hf
      · nomatch hf
      · rename_i hne
        rw [List.mem_singleton.mp hf]
        exact (hs.slots proc hproc i hi).resolve_left hne
  refine ⟨⟨hs.device, hnone, hnone, hnone, hnone, hnone, hnone, hnone⟩, ?_, hnone, ?_⟩
  · intro f hf
    obtain ⟨n, rfl⟩ := hdevice f hf
    exact .device n
  · intro f hf hpipe
    obtain ⟨n, rfl⟩ := hdevice f hf
    exact absurd hpipe (hs.device n)

/-- A process makes a call. -/
def Step (s s' : State) : Prop :=
  ∃ c, s.step c = some s'

/-- One process with an empty descriptor table, before the first call. -/
def oneProcess : State where
  heap :=
    { file := fun _ => File.zero
      pipe := fun _ => { buffer := .null, readers := 0, writers := 0, reader := .null,
                         writer := .null }
      devices := 0
      pipes := 0
      freed := []
      faults := [] }
  procs := [{ fp := fun _ => Slot.zero, zombie := false, touched := [] }]

theorem start_oneProcess :
  Start oneProcess
  where
  pipes := rfl
  freed := rfl
  faults := rfl
  device _ := nofun
  slots proc hproc i _ := by
    rw [List.mem_singleton.mp hproc]
    exact .inl rfl

/-- The process calls `pipe`. -/
def newPipe : State :=
  let r := syscallPipe oneProcess.heap ⟨fun _ => Slot.zero, false, []⟩
  { heap := r.2.2.1, procs := [r.2.2.2] }

/-- The process calls `pipe` and forks. -/
def forkedPipe : State :=
  let r := syscallPipe oneProcess.heap ⟨fun _ => Slot.zero, false, []⟩
  let c := processSpawn r.2.2.1 r.2.2.2
  { heap := c.1, procs := [r.2.2.2, c.2] }

/-- The descriptors of the two ends of the pipe `k`, in one table and in all of them. -/
def Proc.pipeUsers (proc : Proc) (k : Nat) : Nat :=
  proc.holding (.reader k) + proc.holding (.writer k)

def State.pipeUsers (s : State) (k : Nat) : Nat :=
  s.holding (.reader k) + s.holding (.writer k)

/-- A descriptor refers to the block: it holds the file, or an end of the pipe. -/
def State.refers (s : State) : Ptr → Prop
  | .data k => 0 < s.pipeUsers k
  | .buffer k => 0 < s.pipeUsers k
  | f => 0 < s.holding f

instance (s : State) (o : Ptr) : Decidable (s.refers o) := by
  cases o <;> exact Nat.decLt _ _

/-- Each of the four blocks of every pipe is freed once, when no descriptor refers to it any
more, and it is not used after that. -/
def FreedOnce (s : State) : Prop :=
  ∀ k < s.heap.pipes, ∀ o ∈ blocks k,
    s.heap.freed.count o = (if s.refers o then 0 else 1) ∧ o ∉ s.heap.faults

/-- The number of entries of a table without a file. -/
def emptySlots (fp : Int → Slot) : Nat :=
  indices.countP fun i => (fp i).file = .null

/-- The call closes no last descriptor of a pipe, and when it makes a pipe there is room for
its two descriptors. -/
def Careful (s : State) : Call → Prop
  | .pipe p => ∀ proc, s.procs[p]? = some proc → 2 ≤ emptySlots proc.fp
  | .fork _ => True
  | .close p fd => ∀ proc, s.procs[p]? = some proc →
      ∀ k, (proc.fp fd).file = .reader k ∨ (proc.fp fd).file = .writer k → 2 ≤ s.pipeUsers k
  | .exit p => ∀ proc, s.procs[p]? = some proc →
      ∀ k < s.heap.pipes, 0 < s.pipeUsers k → proc.pipeUsers k < s.pipeUsers k

theorem users_openFiles (s : State) (k : Nat) :
  users (openFiles s.procs) k = s.pipeUsers k
  := by
  rw [users, State.pipeUsers, count_openFiles s (by rintro ⟨⟩), count_openFiles s (by rintro ⟨⟩)]

theorem Proc.users_openFiles (proc : Proc) (k : Nat) :
  users proc.openFiles k = proc.pipeUsers k
  := by
  rw [users, Proc.pipeUsers, proc.count_openFiles (by rintro ⟨⟩), proc.count_openFiles (by rintro ⟨⟩)]

theorem exists_firstFree {fp : Int → Slot} (hpos : 0 < emptySlots fp) :
  ∃ i, firstFree fp = some i
  := by
  obtain ⟨i, hi, hnull⟩ := List.countP_pos_iff.mp hpos
  rcases hfree : firstFree fp with _ | j
  · exact absurd hnull (List.find?_eq_none.mp hfree i hi)
  · exact ⟨j, rfl⟩

theorem emptySlots_setFile {fp : Int → Slot} {i : Int} {f : Ptr} (hi : firstFree fp = some i)
    (hf : f ≠ .null) :
  emptySlots (setFile fp i f) + 1 = emptySlots fp
  := by
  obtain ⟨hmem, hnull⟩ := firstFree_spec hi
  have hrest : (indices.erase i).countP (fun j => (setFile fp i f j).file = .null)
      = (indices.erase i).countP (fun j => (fp j).file = .null) := by
    apply List.countP_congr
    intro j hj
    have hne : j ≠ i := by
      rintro rfl
      exact List.Nodup.not_mem_erase nodup_indices hj
    rw [setFile, Function.update_of_ne hne]
  rw [emptySlots, emptySlots, (List.perm_cons_erase hmem).countP_eq,
    (List.perm_cons_erase hmem).countP_eq, List.countP_cons, List.countP_cons, hrest, setFile,
    Function.update_self]
  simp [hf, hnull]

/-- Every careful call keeps the pipes intact. -/
theorem Intact.of_step {s s' : State} {c : Call} (hi : Intact s.heap (openFiles s.procs))
    (hcareful : Careful s c) (hstep : s.step c = some s') :
  Intact s'.heap (openFiles s'.procs)
  := by
  obtain ⟨p, proc, hp, hz, hcall⟩ := step_cases hstep
  -- the two calls that close descriptors keep a user of every pipe
  let C (ds : List Ptr) := ∀ k < s.heap.pipes, 0 < users ds k
  let P (h : Heap) (ds : List Ptr) := Intact h ds ∧ h.pipes = s.heap.pipes
  have hperm : ∀ {h ds ds'}, P h ds → ds.Perm ds' → P h ds' := fun hP hds =>
    ⟨hP.1.perm hds, hP.2⟩
  have hclose : ∀ {h ds f}, P h (f :: ds) → C ds → P (closePut h f) ds := by
    intro h ds f hP hC
    have hf := hP.1.known f List.mem_cons_self
    refine ⟨hP.1.of_closePut (by rwa [hP.2]), ?_⟩
    rw [closePut_pipes hf.ne_null, hP.2]
  have hmono : ∀ l ds, C ds → C (l ++ ds) := by
    intro l ds hC k hk
    rw [users_append]
    exact Nat.add_pos_right _ (hC k hk)
  rcases hcall with ⟨rfl, rfl⟩ | ⟨rfl, rfl⟩ | ⟨fd, hfd, rfl, rfl⟩ | ⟨rfl, rfl⟩
  · have hroom := hcareful proc hp
    obtain ⟨i, hfi⟩ := exists_firstFree (Nat.lt_of_lt_of_le Nat.two_pos hroom)
    have hone := emptySlots_setFile hfi (f := .writer s.heap.pipes) (by nofun)
    have hmore : 0 < emptySlots (setFile proc.fp i (.writer s.heap.pipes)) := by omega
    obtain ⟨j, hfj⟩ := exists_firstFree hmore
    exact pipe_spec (P := Intact) Intact.perm Intact.of_openPipe hp hz hfi hfj hi
  · exact fork_spec (P := Intact) Intact.perm Intact.of_getOpen hp hz hi
  · refine (close_spec (P := P) (C := C) hperm hclose hp hz hfd ?_ ⟨hi, rfl⟩).1
    intro hnull k hk
    have hold := openFiles_perm hp
    rw [Proc.openFiles_running hz] at hold
    have htable := filesAt_perm proc.fp hfd
    rw [asList, if_neg hnull] at htable
    have husers : users (openFiles s.procs) k
        = users ((proc.fp fd).file :: (filesAt proc.fp (indices.erase fd) ++ others s p)) k :=
      users_perm (hold.trans (htable.append_right (others s p))) k
    have hused := hi.used k hk
    by_cases hend : (proc.fp fd).file = .reader k ∨ (proc.fp fd).file = .writer k
    · have htwo := hcareful proc hp k hend
      rw [← users_openFiles, husers, users_cons_end hend] at htwo
      omega
    · rw [husers, (@counted_cons s.heap _ _ k (fun he => hend (.inl he))
        (fun he => hend (.inr he))).2] at hused
      exact hused
  · refine (exit_spec (P := P) (C := C) hperm hclose hmono hp hz ?_ ⟨hi, rfl⟩).1
    intro k hk
    have husers := users_perm (openFiles_perm hp) k
    rw [users_append, proc.users_openFiles, users_openFiles] at husers
    have hused := hi.used k hk
    rw [users_openFiles] at hused
    have hless := hcareful proc hp k hk hused
    omega

theorem Start.intact {s : State} (hs : Start s) :
  Intact s.heap (openFiles s.procs)
  := by
  refine ⟨hs.counts, ?_, ?_, ?_⟩
  · intro k hk
    rw [hs.pipes] at hk
    exact absurd hk (Nat.not_lt_zero k)
  · intro k o ho
    rw [hs.freed, hs.pipes, spent_later (Nat.zero_le k) ho, List.count_nil]
  · intro k o ho
    rw [hs.faults]
    exact List.not_mem_nil

/-- A process makes a careful call. -/
def CarefulStep (s s' : State) : Prop :=
  ∃ c, Careful s c ∧ s.step c = some s'

/-- In every run of careful calls, each end of a pipe is freed once, when its last descriptor
is closed, the rest of the pipe is not freed while it has a descriptor, and nothing of it is
used after it was freed. -/
theorem freedOnce_of_run {s : State} (hrun : Reachable Start CarefulStep s) :
  FreedOnce s
  := by
  have hi : Intact s.heap (openFiles s.procs) := by
    apply hrun.invariant
    · intro s hs
      exact hs.intact
    · rintro s s' hi ⟨c, hcareful, hstep⟩
      exact hi.of_step hcareful hstep
  intro k hk o ho
  refine ⟨?_, hi.faults k o ho⟩
  rw [hi.freed k o ho]
  have hused := hi.used k hk
  rw [users_openFiles] at hused
  have hend : ∀ f, f = .reader k ∨ f = .writer k →
      spent s.heap.pipes (openFiles s.procs) f = if 0 < s.holding f then 0 else 1 := by
    intro f hf
    have hne : f ≠ .null := by
      rcases hf with rfl | rfl <;> nofun
    rw [spent_end hf hk, count_openFiles s hne]
    split <;> split <;> omega
  simp only [blocks, List.mem_cons, List.not_mem_nil, or_false] at ho
  rcases ho with rfl | rfl | rfl | rfl
  · exact hend _ (.inl rfl)
  · exact hend _ (.inr rfl)
  · rw [if_pos (by exact hused)]
    rfl
  · rw [if_pos (by exact hused)]
    rfl

/-- The process calls `pipe` and closes the descriptor of the writer. -/
def closedWriter : State :=
  let r := syscallPipe oneProcess.heap ⟨fun _ => Slot.zero, false, []⟩
  let c := syscallClose r.2.2.1 r.2.2.2 0
  { heap := c.2.1, procs := [c.2.2] }

theorem freedOnce_of_run_closedWriter :
  FreedOnce closedWriter ∧ closedWriter.heap.freed = [.writer 0]
  := by
  refine ⟨?_, by decide⟩
  apply freedOnce_of_run
  have hpipe : Reachable Start CarefulStep newPipe := by
    apply (Reachable.start start_oneProcess).next
    refine ⟨.pipe 0, ?_, rfl⟩
    intro proc hproc
    obtain rfl := Option.some.inj hproc
    decide
  apply hpipe.next
  refine ⟨.close 0 0, ?_, rfl⟩
  intro proc hproc k hend
  obtain rfl := Option.some.inj hproc
  rcases hend with hend | hend
  · nomatch hend
  · obtain rfl := Ptr.writer.inj hend
    decide

/-- The process calls `pipe` and closes the two descriptors. -/
def closedPipe : State :=
  let r := syscallPipe oneProcess.heap ⟨fun _ => Slot.zero, false, []⟩
  let c := syscallClose r.2.2.1 r.2.2.2 0
  let c' := syscallClose c.2.1 c.2.2 1
  { heap := c'.2.1, procs := [c'.2.2] }

/-- With the last descriptor closed, the buffer of the pipe is not freed, and the file of
the end that was closed last is used and freed after it was freed. -/
theorem buffer_lost_after_last_close :
  Reachable Start Step closedPipe ∧ ¬ FreedOnce closedPipe
    ∧ closedPipe.pipeUsers 0 = 0 ∧ closedPipe.heap.freed.count (.buffer 0) = 0
    ∧ closedPipe.heap.freed.count (.reader 0) = 2 ∧ .reader 0 ∈ closedPipe.heap.faults
  := by
  have hcalls : [Call.pipe 0, .close 0 0, .close 0 1].foldlM State.step oneProcess
      = some closedPipe := rfl
  have hrun : Reachable Start Step closedPipe := (Reachable.start start_oneProcess).run hcalls
  have hfreed : closedPipe.heap.freed.count (.reader 0) = 2 := by decide
  refine ⟨hrun, ?_, by decide, by decide, hfreed, by decide⟩
  intro honce
  have hreader := (honce 0 (by decide) (.reader 0) (by decide)).1
  rw [hfreed] at hreader
  split at hreader <;> nomatch hreader

end Vfs
