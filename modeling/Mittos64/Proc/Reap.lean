import Mittos64.Proc.Scheduler

/-!
# Processes that are freed while others run

`schedule()`, `scheduler()`, `switch_process`, `process_exit`, `syscall_wait` and `process_free` on
any number of processors, in any order of their steps.  A process has one thread, which
`syscall_fork` or `exec_elf` makes.  A parent frees the `thread_t` of a child with its kernel stack,
the memory map and the `process_t`, on one processor, while another one may still be on its way out
of the child: all that keeps them apart is that the parent waits for the state of the thread.

The ready queue is a list, and so are the children of a process; here a child is looked up by its
parent, and what a list operation may touch are all nodes of the list.  The loop of `process_free`
over the threads goes on by a link of the thread that it has just freed.  That is the one thing it
reads too late, and the loop ends there when no one has got the memory in the meantime.
-/

open Scheduler (ThreadState)

namespace Reap

variable {C P : Type}

/-- What is allocated for a process: its `thread_t`, on top of the kernel stack, its `process_t`,
and its memory map. -/
inductive Object (P : Type) where
  | thread (p : P)
  | proc (p : P)
  | map (p : P)

/-- What `process_free` is at for a child. -/
inductive Stage where
  /-- the test of the state of the process -/
  | test
  /-- the loop that waits for the thread -/
  | await
  /-- the test of `free_thread` -/
  | check
  /-- the `kfree` of the stack -/
  | thread
  /-- the step of the loop over the threads -/
  | next
  /-- the `LIST_REMOVE` of the process from the children of its parent -/
  | unlink
  /-- `procmm_free_map` -/
  | map
  /-- the `kfree` of the process -/
  | proc
  deriving DecidableEq

/-- Where a thread is in its own code, when it runs or when it will run again. -/
inductive Point (P : Type) where
  /-- in the program, or in a part of the kernel that is about its own process only -/
  | user
  /-- in `syscall_fork`, before `scheduler_insert` -/
  | forked (q : P)
  /-- in `process_exit`, up to the end of the loop over the children -/
  | exiting
  /-- in `process_exit`, behind the write of the state -/
  | exited
  /-- in the loop of `syscall_wait` -/
  | waiting
  /-- in `process_free` -/
  | freeing (q : P) (stage : Stage)
  /-- in one of the endless loops of `process_free` and `free_thread` -/
  | panic

/-- Where a processor is: in the loop of `scheduler()`, in a thread, or in `schedule()`. -/
inductive Pc (P : Type) where
  /-- before its first `schedule()` -/
  | start
  /-- at the top of the loop -/
  | top
  /-- before the test of the process of the last thread -/
  | test (old : P)
  /-- before the last thread is made ready -/
  | ready (old : P)
  /-- before `scheduler_insert(old)` -/
  | insert (old : P)
  /-- before the last thread is finished -/
  | finish (old : P)
  /-- at the call of `scheduler_next()` -/
  | idle
  /-- before the test of the process of the new thread -/
  | check (new : P)
  /-- before the new thread is finished -/
  | drop (new : P)
  /-- before the new thread is made running -/
  | run (new : P)
  /-- at `switch_process(new->process)` -/
  | enter (new : P)
  /-- at its `vmm_set_P4(proc->mmap->P4)` -/
  | load (new : P)
  /-- before `switch_thread(get_cpu()->scheduler, new)` -/
  | resume (new : P)
  /-- in the thread -/
  | thread (p : P)
  /-- in `schedule()`, called by the thread, at `sse_save` -/
  | save (p : P)
  /-- at `switch_process(0)` -/
  | leave (p : P)
  /-- at its `vmm_set_P4(0)` -/
  | unload (p : P)
  /-- before `switch_thread(old, get_cpu()->scheduler)` -/
  | park (p : P)

/-- The fields of `cpu_t` that this goes to, with what the processor has in `cr3`. -/
structure Cpu (P : Type) where
  pc : Pc P
  lastThread : Option P
  currentProcess : Option P
  cr3 : Option P

/-- A process with its thread, and what is allocated of it. -/
structure Process (P : Type) where
  point : Point P
  threadState : ThreadState
  state : ProcState
  parent : Option P
  made : Bool
  threadFreed : Bool
  procFreed : Bool
  mapFreed : Bool

/-- The processors and the processes, with the ready queue. -/
structure System (C P : Type) where
  cpu : C → Cpu P
  process : P → Process P
  readyQueue : List P

/-- What a thread does next where that is up to the program, or to what it meets in its list of
children. -/
inductive Request (P : Type) where
  /-- anything about its own process -/
  | use
  /-- `schedule()`: the timer, or a wait -/
  | yield
  /-- `process_spawn` and `new_thread` in `syscall_fork`, which get the memory for the process `q`
  -/
  | fork (q : P)
  | exit
  | wait
  /-- the loop of `syscall_wait` comes to the child `q` -/
  | look (q : P)
  /-- the loop of `process_exit` comes to the child `q` -/
  | adopt (q : P)
  /-- the next step, where there is only one -/
  | go

/-- A step of a processor. -/
structure Act (C P : Type) where
  cpu : C
  request : Request P

section

variable [DecidableEq C] [DecidableEq P]

/-- Write the fields of a processor. -/
def System.setCpu (s : System C P) (c : C) (x : Cpu P) : System C P :=
  { s with cpu := Function.update s.cpu c x }

omit [DecidableEq P] in
theorem System.setCpu_self (s : System C P) (c : C) (x : Cpu P) : (s.setCpu c x).cpu c = x :=
  Function.update_self ..

omit [DecidableEq P] in
theorem System.setCpu_of_ne (s : System C P) {c c' : C} (x : Cpu P) (hc : c' ≠ c) :
  (s.setCpu c x).cpu c' = s.cpu c'
  := Function.update_of_ne hc ..

/-- Write where a processor is. -/
def System.setPc (s : System C P) (c : C) (pc : Pc P) : System C P :=
  s.setCpu c { s.cpu c with pc := pc }

/-- Write the fields of a process. -/
def System.setProcess (s : System C P) (p : P) (x : Process P) : System C P :=
  { s with process := Function.update s.process p x }

omit [DecidableEq C] in
theorem System.setProcess_self (s : System C P) (p : P) (x : Process P) :
  (s.setProcess p x).process p = x
  := Function.update_self ..

omit [DecidableEq C] in
theorem System.setProcess_of_ne (s : System C P) {p q : P} (x : Process P) (hq : q ≠ p) :
  (s.setProcess p x).process q = s.process q
  := Function.update_of_ne hq ..

/-- Write where a thread is. -/
def System.setPoint (s : System C P) (p : P) (k : Point P) : System C P :=
  s.setProcess p { s.process p with point := k }

/-- Write `th->state`. -/
def System.setThreadState (s : System C P) (p : P) (v : ThreadState) : System C P :=
  s.setProcess p { s.process p with threadState := v }

/-- Write `proc->state`. -/
def System.setState (s : System C P) (p : P) (v : ProcState) : System C P :=
  s.setProcess p { s.process p with state := v }

/-- `scheduler_insert(th)` -/
def System.schedulerInsert (s : System C P) (p : P) : System C P :=
  { s.setThreadState p .ready with readyQueue := s.readyQueue ++ [p] }

/-- `process_alive(proc)` -/
def Process.alive (x : Process P) : Bool :=
  x.state = .ready || x.state = .running

/-- `th->state == THREAD_STATE_RUNNING || th->state == THREAD_STATE_READY` -/
def Process.runs (x : Process P) : Bool :=
  x.threadState = .running || x.threadState = .ready

/-- The part of `switch_process` that is about the process that the processor leaves. -/
def System.leaveProcess (s : System C P) (c : C) : System C P :=
  match (s.cpu c).currentProcess with
  | some old => if (s.process old).state = .running then s.setState old .ready else s
  | none => s

/-- A step of a processor outside of the threads. -/
def goStep (s : System C P) (c : C) : Option (System C P) :=
  match (s.cpu c).pc with
  | .start => some (s.setCpu c { s.cpu c with pc := .top, currentProcess := none, cr3 := none })
  | .top =>
      match (s.cpu c).lastThread with
      | some old =>
          if (s.process old).threadState ≠ .finished then some (s.setPc c (.test old))
          else some (s.setPc c (.finish old))
      | none => some (s.setPc c .idle)
  | .test old =>
      if (s.process old).alive then some (s.setPc c (.ready old))
      else some (s.setPc c (.finish old))
  | .ready old => some ((s.setThreadState old .ready).setPc c (.insert old))
  | .insert old => some ((s.schedulerInsert old).setPc c .idle)
  | .finish old => some ((s.setThreadState old .finished).setPc c .idle)
  | .idle =>
      match s.readyQueue with
      | new :: rest => some { s.setPc c (.check new) with readyQueue := rest }
      | [] => some s
  | .check new =>
      if (s.process new).alive then some (s.setPc c (.run new)) else some (s.setPc c (.drop new))
  | .drop new => some ((s.setThreadState new .finished).setPc c .top)
  | .run new =>
      some ((s.setThreadState new .running).setCpu c
        { s.cpu c with pc := .enter new, lastThread := some new })
  | .enter new =>
      if (s.cpu c).currentProcess = some new then some (s.setPc c (.resume new))
      else
        some (((s.leaveProcess c).setState new .running).setCpu c
          { s.cpu c with pc := .load new, currentProcess := some new })
  | .load new => some (s.setCpu c { s.cpu c with pc := .resume new, cr3 := some new })
  | .resume new => some (s.setPc c (.thread new))
  | .save p => some (s.setPc c (.leave p))
  | .leave p =>
      some ((s.leaveProcess c).setCpu c { s.cpu c with pc := .unload p, currentProcess := none })
  | .unload p => some (s.setCpu c { s.cpu c with pc := .park p, cr3 := none })
  | .park _ => some (s.setPc c .top)
  | .thread _ => none

/-- The process that `syscall_fork` makes. -/
def child (p : P) : Process P where
  point := .user
  threadState := .ready
  state := .ready
  parent := some p
  made := true
  threadFreed := false
  procFreed := false
  mapFreed := false

/-- A step of `process_free(q)`, called by the thread `p` on the processor `c`. -/
def freeStep (s : System C P) (c : C) (p q : P) : Stage → System C P
  | .test =>
      if (s.process q).state ≠ .zombie then s.setPoint p .panic
      else s.setPoint p (.freeing q .await)
  | .await =>
      if (s.process q).runs then s.setPc c (.save p) else s.setPoint p (.freeing q .check)
  | .check =>
      if (s.process q).runs then s.setPoint p .panic else s.setPoint p (.freeing q .thread)
  | .thread =>
      (s.setProcess q { s.process q with threadFreed := true }).setPoint p (.freeing q .next)
  -- the link of the thread, which has just been freed, is taken to be null still
  | .next => s.setPoint p (.freeing q .unlink)
  | .unlink => (s.setProcess q { s.process q with parent := none }).setPoint p (.freeing q .map)
  | .map => (s.setProcess q { s.process q with mapFreed := true }).setPoint p (.freeing q .proc)
  | .proc =>
      -- behind the `break` of `syscall_wait` is a call of `schedule()`
      ((s.setProcess q { s.process q with procFreed := true }).setPoint p .user).setPc c (.save p)

/-- A step of the thread `p` on the processor `c`. -/
def threadStep (init : P) (s : System C P) (c : C) (p : P) :
    Point P → Request P → Option (System C P)
  | .user, .use => some s
  | .user, .yield => some (s.setPc c (.save p))
  | .user, .fork q =>
      if (s.process q).made then none
      else some ((s.setProcess q (child p)).setPoint p (.forked q))
  | .user, .exit => some (s.setPoint p .exiting)
  | .user, .wait => some (s.setPoint p .waiting)
  | .forked q, .go => some ((s.schedulerInsert q).setPoint p .user)
  | .exiting, .adopt q =>
      if (s.process q).parent = some p then
        some (s.setProcess q { s.process q with parent := some init })
      else none
  | .exiting, .go => some ((s.setState p .zombie).setPoint p .exited)
  | .exited, .go => some (s.setPc c (.save p))
  | .waiting, .look q =>
      if (s.process q).parent = some p then
        if (s.process q).state = .zombie then some (s.setPoint p (.freeing q .test)) else some s
      else none
  | .waiting, .yield => some (s.setPc c (.save p))
  | .freeing q stage, .go => some (freeStep s c p q stage)
  | _, _ => none

/-- The effect of a step, where `init` is `init_proc`. -/
def step (init : P) (s : System C P) (a : Act C P) : Option (System C P) :=
  match (s.cpu a.cpu).pc, a.request with
  | .thread p, r => threadStep init s a.cpu p (s.process p).point r
  | _, .go => goStep s a.cpu
  | _, _ => none

end

/-! ### What the steps touch -/

/-- The children of a process. -/
def System.children (s : System C P) (p : P) : Set (Object P) :=
  { o | ∃ q, (s.process q).parent = some p ∧ o = .proc q }

/-- The threads in the ready queue. -/
def System.queued (s : System C P) : Set (Object P) :=
  { o | ∃ q ∈ s.readyQueue, o = .thread q }

/-- What `process_free(q)`, called by the thread `p`, touches next. -/
def freeTouches (s : System C P) (p q : P) : Stage → Set (Object P)
  | .test => {.proc q}
  | .await => {.proc q, .thread q}
  | .check => {.thread q}
  | .thread => {.thread q}
  | .next => {.thread q}
  | .unlink => {.proc q} ∪ s.children p
  | .map => {.proc q, .map q}
  | .proc => {.proc q}

/-- What a thread touches next besides what its own process has. -/
def pointTouches (init : P) (s : System C P) (p : P) : Point P → Request P → Set (Object P)
  | .user, .fork _ => s.children p
  | .forked q, _ => {.proc q, .thread q, .map q} ∪ s.queued
  | .exiting, .adopt q => {.proc q, .proc init} ∪ s.children p ∪ s.children init
  | .waiting, .look q => {.proc q}
  | .freeing q stage, _ => freeTouches s p q stage
  | _, _ => ∅

/-- What is read, written or freed in the next step of a processor.  A thread uses its kernel stack
until `switch_thread` has left it, and in its own code its process and its memory. -/
def touches (init : P) (s : System C P) (a : Act C P) : Set (Object P) :=
  match (s.cpu a.cpu).pc with
  | .start => ∅
  | .top => { o | ∃ old ∈ (s.cpu a.cpu).lastThread, o = .thread old }
  | .test old => {.thread old, .proc old}
  | .ready old => {.thread old}
  | .insert old => {.thread old} ∪ s.queued
  | .finish old => {.thread old}
  | .idle => s.queued
  | .check new => {.thread new, .proc new}
  | .drop new => {.thread new}
  | .run new => {.thread new}
  | .enter new =>
      {.thread new, .proc new} ∪ { o | ∃ old ∈ (s.cpu a.cpu).currentProcess, o = .proc old }
  | .load new => {.proc new, .map new}
  | .resume new => {.thread new, .map new}
  | .thread p =>
      {.thread p, .proc p, .map p} ∪ pointTouches init s p (s.process p).point a.request
  | .save p => {.thread p, .map p}
  | .leave p =>
      {.thread p, .map p} ∪ { o | ∃ old ∈ (s.cpu a.cpu).currentProcess, o = .proc old }
  | .unload p => {.thread p, .map p}
  | .park p => {.thread p}

/-- The object is allocated and not freed. -/
def System.Live (s : System C P) : Object P → Prop
  | .thread p => (s.process p).made = true ∧ (s.process p).threadFreed = false
  | .proc p => (s.process p).made = true ∧ (s.process p).procFreed = false
  | .map p => (s.process p).made = true ∧ (s.process p).mapFreed = false

/-- The thread that `process_free` has just freed: the step of the loop over the threads reads its
link. -/
def System.Stale (s : System C P) (c : C) (o : Object P) : Prop :=
  ∃ p q, (s.cpu c).pc = .thread p ∧ (s.process p).point = .freeing q .next ∧ o = .thread q

/-- What comes of any order of the steps: but for that link nothing is touched that is not allocated
or that has been freed, the memory of no process is freed while a processor has it loaded, no thread
runs on two processors, no thread of a dead process is taken off the ready queue, no parent comes to
one of the endless loops, and of a process that is freed nothing is left. -/
structure Sound [DecidableEq C] [DecidableEq P] (init : P) (s : System C P) : Prop where
  live : ∀ a s', step init s a = some s' → ∀ o ∈ touches init s a, s.Live o ∨ s.Stale a.cpu o
  loaded : ∀ c p, (s.cpu c).cr3 = some p → s.Live (.map p)
  alone : ∀ c c' p, (s.cpu c).pc = .thread p → (s.cpu c').pc = .thread p → c = c'
  dropped : ∀ c p, (s.cpu c).pc ≠ .drop p
  calm : ∀ p, (s.process p).point ≠ .panic
  whole : ∀ p, (s.process p).procFreed = true →
    (s.process p).threadFreed = true ∧ (s.process p).mapFreed = true

end Reap
