import Mittos64.Proc.Entry

/-!
# The two returns of `fork`

`syscall_fork` of `sys_proc.c` as it is called through `int_handler` and `syscall_handler`.
The new thread gets a copy of the registers `th->r` that the system call has filled, with
`rax` zero; the old thread's `rax` is set to the pid of the new process.  `isr_return` then
leads both to the same place in the program, the old thread when its system call returns and
the new one when it is first switched to.

`process_spawn` and `kcalloc` are parameters: they change the memory, and return a process
and a block.
-/

open Amd64

namespace Isr

open Thread

/-! ### The code -/

/-- The functions that `syscall_fork` calls, and the value of the counter `tid`. -/
structure ForkCalls where
  processSpawn : Memory → Word → Memory × Word
  kcalloc : Memory → Memory × Word
  tid : Word

/-- `LIST_APPEND`, for the list at `head` with its links at the offset `link`. -/
def listAppend (m : Memory) (head self link : Word) : Memory :=
  let m := m.setWord (self + link) (m.word head)
  let m := m.setWord (self + link + 8) 0
  let prev := m.word (self + link)
  let m := if prev ≠ 0 then m.setWord (prev + link + 8) self else m
  let m := m.setWord head self
  if m.word (head + 8) = 0 then m.setWord (head + 8) (m.word head) else m

/-- The offsets of `process_t.threads`, `thread_t.process`, `thread_t.process_threads`,
`thread_t.ready_queue` and `thread_t.state`, and of `cpu_t.current_process`. -/
def procThreads : Word := 80
def thProcess : Word := 712
def thProcessThreads : Word := 720
def thReadyQueue : Word := 736
def thState : Word := 192
def cpuProcess : Word := 80

/-- `process_attach` -/
def processAttach (m : Memory) (proc th : Word) : Memory :=
  let m := listAppend m (proc + procThreads) th thProcessThreads
  m.setWord (th + thProcess) proc

/-- `scheduler_insert`, for the ready queue at `queue`. -/
def schedulerInsert (queue : Word) (m : Memory) (th : Word) : Memory :=
  let m := listAppend m queue th thReadyQueue
  m.setWord (th + thState) 2

/-- The memory and the process after `process_spawn`. -/
def forkSpawned (k : ForkCalls) (gs : Word) (m : Memory) : Memory × Word :=
  k.processSpawn m (m.word (m.word gs + cpuProcess))

/-- The memory and the block after `kcalloc`. -/
def forkAllocated (k : ForkCalls) (gs : Word) (m : Memory) : Memory × Word :=
  k.kcalloc (forkSpawned k gs m).1

/-- The new thread. -/
def forkChild (k : ForkCalls) (gs : Word) (m : Memory) : Word :=
  (forkAllocated k gs m).2 + BitVec.ofNat 64 offTcb

/-- The memory after `new_thread(0, 1)`. -/
def forkCreated (k : ForkCalls) (isrReturn gs : Word) (m : Memory) : Memory :=
  newThread isrReturn (forkAllocated k gs m).1 (forkAllocated k gs m).2 0 true k.tid

/-- The memory after the registers have been copied and `rax` has been cleared. -/
def forkCopied (k : ForkCalls) (isrReturn gs : Word) (m : Memory) : Memory :=
  let th := forkChild k gs m
  let m := forkCreated k isrReturn gs m
  let current := m.word (m.word gs + offCurrentThread)
  let m := m.write th.toNat (m.read current.toNat 176)
  m.setWord th 0

/-- `syscall_fork` -/
def syscallFork (k : ForkCalls) (isrReturn queue gs : Word) (m : Memory) : Memory × Word :=
  let new := (forkSpawned k gs m).2
  let th := forkChild k gs m
  let m := forkCopied k isrReturn gs m
  let m := processAttach m new th
  let m := schedulerInsert queue m th
  (m, m.word new)

/-- `SYS_FORK` -/
def sysFork : Word := 8

/-- `int_handler` and `syscall_handler` for a call of `fork`. -/
def intHandler (k : ForkCalls) (isrReturn queue gs : Word) (m : Memory) (r : Word) :
    Option (Memory × Word) :=
  if m.word (r + 120) = intSyscall then
    if m.word r = sysFork then
      let (m, v) := syscallFork k isrReturn queue gs m
      some (m.setWord r v, r)
    else none
  else none

/-! ### What the calls are relied on for -/

/-- The bytes of the registers of the thread `th`, and those through which the kernel at `gs`
finds the thread. -/
def Owned (gs th : Word) (x : Nat) : Prop :=
  (th.toNat ≤ x ∧ x < th.toNat + 176) ∨ (gs.toNat ≤ x ∧ x < gs.toNat + 8) ∨
    (gs.toNat + 64 ≤ x ∧ x < gs.toNat + 72)

/-- The bytes of a new thread that its first switch and its return to the program read. -/
def Starting (th : Word) (x : Nat) : Prop :=
  th.toNat - 72 ≤ x ∧ x < th.toNat + 184

/-- Two memories agree on the bytes of a set. -/
def Agree (s : Nat → Prop) (m m' : Memory) : Prop :=
  ∀ x, s x → m' x = m x

/-- What is relied on in a call of `fork` by the thread `th`: `process_spawn` and `kcalloc`
do not write to the registers of the thread, `kcalloc` returns a zeroed block apart from
them, and the lists to which the new thread is appended have no links there, nor in the
part of the new thread that its first switch reads. -/
structure Forks (k : ForkCalls) (isrReturn queue gs th : Word) (m : Memory) : Prop where
  spawn : Agree (Owned gs th) m (forkSpawned k gs m).1
  alloc : Agree (Owned gs th) (forkSpawned k gs m).1 (forkAllocated k gs m).1
  bound : (forkAllocated k gs m).2.toNat + threadStackSize ≤ 2 ^ 64
  zero : ∀ i, i < threadStackSize →
    (forkAllocated k gs m).1 ((forkAllocated k gs m).2.toNat + i) = 0
  apart : ∀ i, i < threadStackSize → ¬ Owned gs th ((forkAllocated k gs m).2.toNat + i)
  attach : Agree (fun x => Owned gs th x ∨ Starting (forkChild k gs m) x)
    (forkCopied k isrReturn gs m)
    (processAttach (forkCopied k isrReturn gs m) (forkSpawned k gs m).2 (forkChild k gs m))
  insert : Agree (fun x => Owned gs th x ∨ Starting (forkChild k gs m) x)
    (processAttach (forkCopied k isrReturn gs m) (forkSpawned k gs m).2 (forkChild k gs m))
    (syscallFork k isrReturn queue gs m).1

/-! ### The memory after `fork` -/

/-- The registers with another value of `rax`. -/
def Registers.withRax (r : Registers) (v : Word) : Registers :=
  { r with rax := v }

theorem Registers.words_setRax {m : Memory} {th : Word} {r : Registers}
    (h : m.Words th.toNat r.words) (v : Word) :
  (m.setWord th v).Words th.toNat (r.withRax v).words
  := Memory.Words.setFirst h v

section Fork

variable {k : ForkCalls} {isrReturn queue gs th : Word} {m : Memory}
  (hforks : Forks k isrReturn queue gs th m)
include hforks

theorem forkChild_toNat :
  (forkChild k gs m).toNat = (forkAllocated k gs m).2.toNat + offTcb
  := tcb_toNat hforks.bound

/-- The registers of the thread are outside the new block. -/
theorem Forks.outside {x : Nat} (hx : Owned gs th x) :
  x < (forkAllocated k gs m).2.toNat ∨ (forkAllocated k gs m).2.toNat + threadStackSize ≤ x
  := by
  by_contra hin
  obtain ⟨hlow, hhigh⟩ := not_or.mp hin
  obtain ⟨i, rfl⟩ := Nat.exists_eq_add_of_le (Nat.le_of_not_lt hlow)
  exact hforks.apart i (by omega) hx

theorem forkCreated_agree :
  Agree (Owned gs th) m (forkCreated k isrReturn gs m)
  := by
  intro x hx
  rw [forkCreated, newThread_of_notMem (hforks.outside hx), hforks.alloc x hx, hforks.spawn x hx]

/-- `get_current_thread` still finds the thread when its registers are copied. -/
theorem forkCreated_current (hself : m.word gs = gs) (hinside : gs.toNat + 72 ≤ 2 ^ 64)
    (hcurrent : m.word (gs + offCurrentThread) = th) :
  (forkCreated k isrReturn gs m).word ((forkCreated k isrReturn gs m).word gs + offCurrentThread) =
    th
  := by
  have hagree := forkCreated_agree hforks
  have haddr : (gs + offCurrentThread).toNat = gs.toNat + 64 :=
    toNat_add_of_lt (n := 64) (by omega)
  have hgs : (forkCreated k isrReturn gs m).word gs = m.word gs := by
    apply Memory.word_congr
    intro x hx hx'
    exact hagree x (.inr (.inl ⟨hx, hx'⟩))
  have hword : (forkCreated k isrReturn gs m).word (gs + offCurrentThread) =
      m.word (gs + offCurrentThread) := by
    apply Memory.word_congr
    intro x hx hx'
    rw [haddr] at hx hx'
    exact hagree x (.inr (.inr ⟨hx, hx'⟩))
  rw [hgs, hself, hword, hcurrent]

section Copy

variable (hself : m.word gs = gs) (hinside : gs.toNat + 72 ≤ 2 ^ 64)
  (hcurrent : m.word (gs + offCurrentThread) = th)
include hself hinside hcurrent

/-- The memory after the copy of the registers, byte by byte. -/
theorem forkCopied_eq :
  forkCopied k isrReturn gs m =
    ((forkCreated k isrReturn gs m).write (forkChild k gs m).toNat
      ((forkCreated k isrReturn gs m).read th.toNat 176)).setWord (forkChild k gs m) 0
  := by
  rw [forkCopied, forkCreated_current hforks hself hinside hcurrent]

/-- The copy writes to nothing but the registers of the new thread. -/
theorem forkCopied_of_notMem {x : Nat}
    (hx : x < (forkChild k gs m).toNat ∨ (forkChild k gs m).toNat + 176 ≤ x) :
  forkCopied k isrReturn gs m x = forkCreated k isrReturn gs m x
  := by
  rw [forkCopied_eq hforks hself hinside hcurrent, Memory.setWord,
    Memory.store_of_notMem _ _ (by omega), Memory.write_of_notMem]
  rw [Memory.read_length]
  exact hx

theorem forkCopied_agree :
  Agree (Owned gs th) m (forkCopied k isrReturn gs m)
  := by
  intro x hx
  have houtside := hforks.outside hx
  have hchild := forkChild_toNat hforks
  rw [offTcb] at hchild
  rw [threadStackSize] at houtside
  rw [forkCopied_of_notMem hforks hself hinside hcurrent (by omega)]
  exact forkCreated_agree hforks x hx

/-- The new thread has the registers of the old one, but for `rax`. -/
theorem forkCopied_words {r : Registers} (hw : m.Words th.toNat r.words) :
  (forkCopied k isrReturn gs m).Words (forkChild k gs m).toNat (r.withRax 0).words
  := by
  have hcreated : (forkCreated k isrReturn gs m).Words th.toNat r.words := by
    apply hw.congr
    intro x hx hx'
    exact forkCreated_agree hforks x (.inl ⟨hx, hx'⟩)
  have hcopied : ((forkCreated k isrReturn gs m).write (forkChild k gs m).toNat
      ((forkCreated k isrReturn gs m).read th.toNat 176)).Words (forkChild k gs m).toNat
      r.words := by
    apply hcreated.shift
    intro i hi
    have hi' : i < 176 := hi
    rw [Memory.write_read, if_pos (by omega), Nat.add_sub_cancel_left]
  rw [forkCopied_eq hforks hself hinside hcurrent]
  exact hcopied.setFirst 0

/-- The new thread is suspended before `isr_return`. -/
theorem forkCopied_saved :
  Saved isrReturn (forkCopied k isrReturn gs m) (forkChild k gs m) (.created 0 true)
  := by
  have hcreated : Saved isrReturn (forkCreated k isrReturn gs m) (forkChild k gs m)
      (.created 0 true) := newThread_saved hforks.bound hforks.zero
  have hchild := forkChild_toNat hforks
  rw [offTcb] at hchild
  have hsp : (forkChild k gs m - 72).toNat = (forkChild k gs m).toNat - 72 :=
    toNat_sub_of_le (n := 72) (by omega)
  apply hcreated.congr
  intro x hx
  apply forkCopied_of_notMem hforks hself hinside hcurrent
  rw [Origin.Guards, Origin.sp, hsp, offStackPointer] at hx
  omega

end Copy

omit hforks in
/-- A new thread's frame and its stack pointer are among the bytes that it starts from. -/
theorem starting_of_guards {child : Word} (hlow : 72 ≤ child.toNat) {x : Nat}
    (hx : (Origin.created 0 true).Guards child x) :
  Starting child x
  := by
  have hsp : (child - 72).toNat = child.toNat - 72 := toNat_sub_of_le (n := 72) hlow
  rw [Origin.Guards, Origin.sp, hsp, offStackPointer] at hx
  rw [Starting]
  omega

/-- A new thread that is ready to return from the system call with `r`. -/
structure Startable (isrReturn : Word) (r : Registers) (m : Memory) (child : Word) : Prop where
  low : 72 ≤ child.toNat
  saved : Saved isrReturn m child (.created 0 true)
  words : m.Words child.toNat r.words

omit hforks in
theorem Startable.congr {r : Registers} {m m' : Memory} {child : Word}
    (h : Startable isrReturn r m child) (hagree : Agree (Starting child) m m') :
  Startable isrReturn r m' child where
  low := h.low
  saved := by
    apply h.saved.congr
    intro x hx
    exact hagree x (starting_of_guards h.low hx)
  words := by
    have hlen : 8 * r.words.length = 176 := rfl
    apply h.words.congr
    intro x hx hx'
    apply hagree x
    rw [Starting]
    omega

/-- The registers of the old thread are apart from the new thread. -/
theorem setWord_starting {m' : Memory} (v : Word) :
  Agree (Starting (forkChild k gs m)) m' (m'.setWord th v)
  := by
  intro x hx
  have hchild := forkChild_toNat hforks
  rw [offTcb] at hchild
  apply Memory.store_of_notMem
  by_contra hin
  have houtside := hforks.outside (.inl (by omega) : Owned gs th x)
  rw [threadStackSize] at houtside
  rw [Starting] at hx
  omega

section Finish

variable (hself : m.word gs = gs) (hinside : gs.toNat + 72 ≤ 2 ^ 64)
  (hcurrent : m.word (gs + offCurrentThread) = th) {r : Registers} (hw : m.Words th.toNat r.words)
include hself hinside hcurrent hw

/-- `syscall_fork` keeps the registers of its thread. -/
theorem syscallFork_words :
  (syscallFork k isrReturn queue gs m).1.Words th.toNat r.words
  := by
  apply hw.congr
  intro x hx hx'
  have hx : Owned gs th x := .inl ⟨hx, hx'⟩
  rw [hforks.insert x (.inl hx), hforks.attach x (.inl hx)]
  exact forkCopied_agree hforks hself hinside hcurrent x hx

/-- `syscall_fork` makes a thread that returns zero from the system call. -/
theorem syscallFork_startable :
  Startable isrReturn (r.withRax 0) (syscallFork k isrReturn queue gs m).1 (forkChild k gs m)
  := by
  have hcopied : Startable isrReturn (r.withRax 0) (forkCopied k isrReturn gs m)
      (forkChild k gs m) := by
    constructor
    · rw [forkChild_toNat hforks, offTcb]
      omega
    · exact forkCopied_saved hforks hself hinside hcurrent
    · exact forkCopied_words hforks hself hinside hcurrent hw
  apply hcopied.congr
  intro x hx
  rw [hforks.insert x (.inr hx), hforks.attach x (.inr hx)]

omit hforks hself hinside hcurrent hw in
theorem syscallFork_pid :
  (syscallFork k isrReturn queue gs m).2 =
    (syscallFork k isrReturn queue gs m).1.word (forkSpawned k gs m).2
  := by
  simp only [syscallFork]

omit hforks hself hinside hcurrent in
/-- `int_handler` returns from a call of `fork`, with the pid of the new process in `rax`. -/
theorem intHandler_fork (hbound : th.toNat + 184 ≤ 2 ^ 64) (hint : r.intNo = intSyscall)
    (hrax : r.rax = sysFork) :
  intHandler k isrReturn queue gs m th =
    some ((syscallFork k isrReturn queue gs m).1.setWord th (syscallFork k isrReturn queue gs m).2,
      th)
  := by
  have hlen : 8 * r.words.length = 176 := rfl
  have hno : m.word (th + 120) = intSyscall := by
    rw [← hint]
    apply Memory.word_eq_of_load
    have haddr : (th + 120).toNat = th.toNat + 8 * 15 := toNat_add_of_lt (n := 120) (by omega)
    rw [haddr]
    exact hw.load (Nat.lt_of_sub_eq_succ rfl)
  have hnum : m.word th = sysFork := by
    rw [← hrax]
    exact Memory.word_eq_of_load hw.1
  rw [intHandler, if_pos hno, if_pos hnum]

end Finish

end Fork

/-! ### The two returns -/

/-- The program `u` goes on at `next` with the registers it had there, but for `rax` and for
`rcx` and `r11`, which `syscall` overwrites. -/
structure Resumed (u : Cpu) (next v : Word) (c : Cpu) : Prop where
  user : c.user = true
  rip : c.rip = next
  rax : c.reg .rax = v
  reg : ∀ q, q ≠ .rax → q ≠ .rcx → q ≠ .r11 → c.reg q = u.reg q

theorem Returns.resumed {u c : Cpu} {next v : Word}
    (h : Returns ((Registers.ofSyscall u next).withRax v) c) :
  Resumed u next v c
  := by
  constructor
  · exact h.user
  · exact h.rip
  · rw [h.reg]
    rfl
  · intro q hrax hrcx hr11
    rw [h.reg]
    cases q
    all_goals first | rfl | contradiction

/-- The kernel finds the thread of a system call through its `cpu_t`, as before the call. -/
theorem Entered.finds {u e : Cpu} {th next : Word} (h : Entered u th next e)
    (hruns : Running u th) :
  e.mem.word e.gs = e.gs ∧ e.mem.word (e.gs + offCurrentThread) = th
  := by
  have hinside := hruns.inside
  have hapart := hruns.apart
  have haddr : (u.kernelGs + offCurrentThread).toNat = u.kernelGs.toNat + 64 :=
    toNat_add_of_lt (n := 64) (by omega)
  have hself : e.mem.word u.kernelGs = u.mem.word u.kernelGs := by
    apply Memory.word_congr
    intro x hx hx'
    exact h.mem x (by omega) (by omega)
  have hcurrent : e.mem.word (u.kernelGs + offCurrentThread) =
      u.mem.word (u.kernelGs + offCurrentThread) := by
    apply Memory.word_congr
    intro x hx hx'
    exact h.mem x (by omega) (by omega)
  rw [h.gs, hself, hcurrent]
  exact ⟨hruns.self, hruns.current⟩

/-- A new thread that is switched to returns to its program. -/
theorem Startable.returns {isr child old ra next v : Word} {u c : Cpu}
    (h : Startable isr ((Registers.ofSyscall u next).withRax v) (switchThread old child ra c).mem
      child) (huser : u.rflags &&& rflagsIopl ≠ 0) :
  (switchThread old child ra c).rip = isr ∧
    Resumed u next v (isrReturn (switchThread old child ra c))
  := by
  obtain ⟨hrip, hrdi⟩ := switchThread_resumes_of_saved h.saved
  have hinside := h.saved.inside
  constructor
  · exact hrip
  · apply Returns.resumed
    refine (isrReturn_returns ?_ ?_ rfl huser).1
    · rw [hrdi]
      exact h.words
    · rw [hrdi]
      omega

theorem setWord_of_notMem (m : Memory) {a : Word} (v : Word) {x : Nat}
    (hx : x < a.toNat ∨ a.toNat + 8 ≤ x) :
  m.setWord a v x = m x
  := Memory.store_of_notMem m v.toNat hx

/-- Appending to an empty list writes the links of the element and the two ends of the list. -/
theorem listAppend_of_notMem {m : Memory} {head self link : Word} (hempty : m.word head = 0)
    (hself : (self + link).toNat + 16 ≤ 2 ^ 64) (hhead : head.toNat + 16 ≤ 2 ^ 64) {x : Nat}
    (hx : x < (self + link).toNat ∨ (self + link).toNat + 16 ≤ x)
    (hx' : x < head.toNat ∨ head.toNat + 16 ≤ x) :
  listAppend m head self link x = m x
  := by
  have hprevLink : (self + link + 8).toNat = (self + link).toNat + 8 :=
    @toNat_add_of_lt (self + link) 8 (by omega)
  have hlast : (head + 8).toNat = head.toNat + 8 := @toNat_add_of_lt head 8 (by omega)
  have hprev : ((m.setWord (self + link) (m.word head)).setWord (self + link + 8) 0).word
      (self + link) = 0 := by
    apply Memory.word_eq_of_load
    rw [Memory.setWord, Memory.load_store_of_disjoint _ _ (by omega), Memory.setWord,
      Memory.load_store_word, hempty]
  simp only [listAppend, hprev, ne_eq, not_true_eq_false, if_false]
  split_ifs
  · rw [setWord_of_notMem _ _ (by omega), setWord_of_notMem _ _ (by omega),
      setWord_of_notMem _ _ (by omega), setWord_of_notMem _ _ (by omega)]
  · rw [setWord_of_notMem _ _ (by omega), setWord_of_notMem _ _ (by omega),
      setWord_of_notMem _ _ (by omega)]

/-- A program that runs in the thread at `0x5000`, before a call of `fork`. -/
def forkingCpu : Cpu where
  reg r := if r = .rax then sysFork else if r = .rsp then 0x700000 else 3
  rip := 0x400000
  rflags := 0x3202
  gs := 0
  kernelGs := 0x1000
  user := true
  mem := ((Memory.setWord (fun _ => 0) 0x1000 0x1000).setWord 0x1030 0x50B0).setWord 0x1040 0x5000

/-- A `process_spawn` that makes the process 7 at `0x8000`, and a `kcalloc` that returns the
block at `0x20000`. -/
def forkCalls : ForkCalls where
  processSpawn m _ := (m.setWord 0x8000 7, 0x8000)
  kcalloc m := (m.fill 0x20000 0 threadStackSize, 0x20000)
  tid := 2

/-- The processor at its call of `int_handler`. -/
def forkedCpu : Cpu :=
  syscallEntry (syscall 0xC000 0x200 0x400002 forkingCpu)

theorem forkingCpu_running :
  Running forkingCpu 0x5000
  := by
  constructor
  all_goals decide +kernel

/-- The addresses that the rest of the kernel leaves alone in the call. -/
def forkBytes : List Nat :=
  List.range' 0x5000 176 ++ List.range' 0x1000 8 ++ List.range' 0x1040 8 ++ List.range' 0x20CD0 256

theorem mem_forkBytes_of_owned {x : Nat} (hx : Owned 0x1000 0x5000 x) :
  x ∈ forkBytes
  := by
  have hgs : (0x1000 : Word).toNat = 0x1000 := rfl
  have hth : (0x5000 : Word).toNat = 0x5000 := rfl
  rw [Owned, hgs, hth] at hx
  simp only [forkBytes, List.mem_append, List.mem_range'_1]
  omega

theorem mem_forkBytes_of_starting {x : Nat} (hx : Starting 0x20D18 x) :
  x ∈ forkBytes
  := by
  have hchild : (0x20D18 : Word).toNat = 0x20D18 := rfl
  rw [Starting, hchild] at hx
  simp only [forkBytes, List.mem_append, List.mem_range'_1]
  omega

theorem bounds_of_mem_forkBytes {x : Nat} (hx : x ∈ forkBytes) :
  x < 0x8000 ∨ (0x20CD0 ≤ x ∧ x < 0x20DD0)
  := by
  simp only [forkBytes, List.mem_append, List.mem_range'_1] at hx
  omega

theorem forkedCpu_forks :
  Forks forkCalls 0x7000 0x9000 forkedCpu.gs 0x5000 forkedCpu.mem
  := by
  have hgs : forkedCpu.gs = 0x1000 := by decide +kernel
  have hstack : (forkAllocated forkCalls 0x1000 forkedCpu.mem).2 = 0x20000 := rfl
  have hblock : (0x20000 : Word).toNat = 0x20000 := rfl
  have hchild : forkChild forkCalls 0x1000 forkedCpu.mem = 0x20D18 := rfl
  have hnew : (forkSpawned forkCalls 0x1000 forkedCpu.mem).2 = 0x8000 := rfl
  have hspawn : ∀ x ∈ forkBytes,
      (forkSpawned forkCalls 0x1000 forkedCpu.mem).1 x = forkedCpu.mem x := by
    intro x hx
    have hbounds := bounds_of_mem_forkBytes hx
    have hpid : (0x8000 : Word).toNat = 0x8000 := rfl
    apply setWord_of_notMem
    omega
  have hattach : ∀ x ∈ forkBytes,
      processAttach (forkCopied forkCalls 0x7000 0x1000 forkedCpu.mem)
        (forkSpawned forkCalls 0x1000 forkedCpu.mem).2 (forkChild forkCalls 0x1000 forkedCpu.mem) x =
      forkCopied forkCalls 0x7000 0x1000 forkedCpu.mem x := by
    intro x hx
    have hbounds := bounds_of_mem_forkBytes hx
    have hempty : (forkCopied forkCalls 0x7000 0x1000 forkedCpu.mem).word (0x8000 + procThreads) =
        0 := by
      decide +kernel
    have hhead : (0x8000 + procThreads : Word).toNat = 0x8050 := rfl
    have hlinks : (0x20D18 + thProcessThreads : Word).toNat = 0x20FE8 := rfl
    have hprocess : (0x20D18 + thProcess : Word).toNat = 0x20FE0 := rfl
    rw [hnew, hchild, processAttach, setWord_of_notMem _ _ (by omega),
      listAppend_of_notMem hempty (by omega) (by omega) (by omega) (by omega)]
  have hinsert : ∀ x ∈ forkBytes, (syscallFork forkCalls 0x7000 0x9000 0x1000 forkedCpu.mem).1 x =
      processAttach (forkCopied forkCalls 0x7000 0x1000 forkedCpu.mem)
        (forkSpawned forkCalls 0x1000 forkedCpu.mem).2
        (forkChild forkCalls 0x1000 forkedCpu.mem) x := by
    intro x hx
    have hbounds := bounds_of_mem_forkBytes hx
    have hempty : (processAttach (forkCopied forkCalls 0x7000 0x1000 forkedCpu.mem)
        0x8000 0x20D18).word 0x9000 = 0 := by
      decide +kernel
    have hhead : (0x9000 : Word).toNat = 0x9000 := rfl
    have hlinks : (0x20D18 + thReadyQueue : Word).toNat = 0x20FF8 := rfl
    have hstate : (0x20D18 + thState : Word).toNat = 0x20DD8 := rfl
    simp only [syscallFork]
    rw [hnew, hchild, schedulerInsert, setWord_of_notMem _ _ (by omega),
      listAppend_of_notMem hempty (by omega) (by omega) (by omega) (by omega)]
  have hmem : ∀ x, Owned 0x1000 0x5000 x ∨ Starting (forkChild forkCalls 0x1000 forkedCpu.mem) x →
      x ∈ forkBytes := by
    rintro x (hx | hx)
    · exact mem_forkBytes_of_owned hx
    · rw [hchild] at hx
      exact mem_forkBytes_of_starting hx
  have houtside : ∀ x, Owned 0x1000 0x5000 x → x < 0x20000 := by
    intro x hx
    have hgs : (0x1000 : Word).toNat = 0x1000 := rfl
    have hth : (0x5000 : Word).toNat = 0x5000 := rfl
    rw [Owned, hgs, hth] at hx
    omega
  rw [hgs]
  constructor
  · intro x hx
    exact hspawn x (mem_forkBytes_of_owned hx)
  · intro x hx
    exact Memory.fill_of_notMem _ _ (.inl (houtside x hx))
  · rw [hstack]
    decide
  · intro i hi
    rw [hstack]
    exact Memory.fill_of_mem _ _ (Nat.le_add_right _ i) (Nat.add_lt_add_left hi _)
  · intro i _ hx
    have hlow := houtside _ hx
    rw [hstack, hblock] at hlow
    omega
  · intro x hx
    exact hattach x (hmem x hx)
  · intro x hx
    exact hinsert x (hmem x hx)

end Isr
