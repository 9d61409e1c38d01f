import Mittos64.Proc.Process

/-!
# The scheduler

`proc/scheduler.c`, with what it uses of `proc/process.c` and `proc/thread.c`.  Threads,
processes and processors are pointers of arbitrary types; the ready queue is an
intrusive list through the `ready_queue` links of the threads.

The body of the loop of `scheduler()` is cut at the place where the processor may wait:
`requeueLast` is the part before the wait, which puts the last thread back, and `poll`
is one call of `scheduler_next()` with what follows it.  Each part runs without giving
way to the other processors, so a run of the system is an interleaving of such parts,
of new threads and of process exits.
-/

universe u

set_option linter.unusedSectionVars false

open DList

namespace Scheduler

/-- `THREAD_STATE_*` -/
inductive ThreadState where
  | waiting
  | ready
  | running
  | finished
  deriving DecidableEq, Repr

/-- What `cpu->current_thread` points to: nothing before the first switch, the scheduler
thread of the processor, or a thread. -/
inductive Current (Thread : Type u) where
  | null
  | scheduler
  | thread (th : Thread)
  deriving DecidableEq, Repr

/-- The fields of `cpu_t` the scheduler uses. -/
structure Cpu (Thread Proc : Type u) where
  currentThread : Current Thread
  lastThread : Option Thread
  currentProcess : Option Proc

/-- The ready queue, the threads, the processes and the processors. -/
structure State (Processor Thread Proc : Type u) where
  readyQueue : Link Thread
  links : Thread → Link Thread
  threadState : Thread → ThreadState
  process : Thread → Proc
  procState : Proc → ProcState
  cpu : Processor → Cpu Thread Proc

variable {Processor Thread Proc : Type u}

/-- `process_alive(proc)` -/
def processAlive (s : State Processor Thread Proc) (proc : Proc) : Bool :=
  s.procState proc = .ready || s.procState proc = .running

variable [DecidableEq Processor] [DecidableEq Thread] [DecidableEq Proc]

/-- Write `th->state`. -/
@[simps]
def setThreadState (s : State Processor Thread Proc) (th : Thread) (st : ThreadState) :
    State Processor Thread Proc :=
  { s with threadState := Function.update s.threadState th st }

/-- Write the fields of a processor. -/
@[simps]
def setCpu (s : State Processor Thread Proc) (c : Processor) (v : Cpu Thread Proc) :
    State Processor Thread Proc :=
  { s with cpu := Function.update s.cpu c v }

/-- `scheduler_insert` -/
@[simps!]
def schedulerInsert (s : State Processor Thread Proc) (th : Thread) :
    State Processor Thread Proc :=
  let l := listAppend s.readyQueue s.links th
  setThreadState { s with readyQueue := l.1, links := l.2 } th .ready

/-- `scheduler_remove` -/
@[simps]
def schedulerRemove (s : State Processor Thread Proc) (th : Thread) :
    State Processor Thread Proc :=
  let l := listRemove s.readyQueue s.links th
  { s with readyQueue := l.1, links := l.2 }

/-- `scheduler_next` -/
def schedulerNext (s : State Processor Thread Proc) :
    Option Thread × State Processor Thread Proc :=
  match listFirst s.readyQueue with
  | some th => (some th, schedulerRemove s th)
  | none => (none, s)

/-- `switch_process`, but for the page table it loads. -/
def switchProcess (s : State Processor Thread Proc) (c : Processor) (proc : Option Proc) :
    State Processor Thread Proc :=
  let old := (s.cpu c).currentProcess
  if old.isSome && old = proc then s else
  let s := match old with
    | some old =>
        if s.procState old = .running then
          { s with procState := Function.update s.procState old .ready }
        else s
    | none => s
  let s := setCpu s c { s.cpu c with currentProcess := proc }
  match proc with
  | some proc => { s with procState := Function.update s.procState proc .running }
  | none => s

/-- The loop of `scheduler()` up to the wait: the last thread of the processor goes back
to the ready queue if it can run on. -/
def requeueLast (s : State Processor Thread Proc) (c : Processor) :
    State Processor Thread Proc :=
  match (s.cpu c).lastThread with
  | some old =>
      if s.threadState old ≠ .finished ∧ processAlive s (s.process old) then
        schedulerInsert (setThreadState s old .ready) old
      else
        setThreadState s old .finished
  | none => s

/-- The end of the loop of `scheduler()`: the processor switches to the thread `new`. -/
def dispatch (s : State Processor Thread Proc) (c : Processor) (new : Thread) :
    State Processor Thread Proc :=
  let s := setThreadState s new .running
  let s := setCpu s c { s.cpu c with lastThread := some new }
  let s := switchProcess s c (some (s.process new))
  setCpu s c { s.cpu c with currentThread := .thread new }

/-- One call of `scheduler_next()` in the wait of `scheduler()`, and what follows it when
it returns a thread: the `continue` for a thread of a dead process, or the switch. -/
def poll (s : State Processor Thread Proc) (c : Processor) : State Processor Thread Proc :=
  match schedulerNext s with
  | (none, s) => s
  | (some new, s) =>
      if processAlive s (s.process new) then
        dispatch s c new
      else
        requeueLast (setThreadState s new .finished) c

/-- `schedule()`, and the loop of `scheduler()` it switches to up to the wait. -/
def schedule (s : State Processor Thread Proc) (c : Processor) :
    State Processor Thread Proc :=
  if (s.cpu c).currentThread = .scheduler then s else
  let s := switchProcess s c none
  let s := setCpu s c { s.cpu c with currentThread := .scheduler }
  requeueLast s c

/-- The end of `process_exit`, which is all the scheduler sees of it. -/
@[simps]
def processExit (s : State Processor Thread Proc) (proc : Proc) :
    State Processor Thread Proc :=
  { s with procState := Function.update s.procState proc .zombie }

/-! ### Runs -/

/-- What can happen next: a new thread is handed to `scheduler_insert`, a processor
yields or is interrupted by its timer, a waiting processor asks for a thread, a process
exits. -/
inductive Event (Processor Thread Proc : Type u) where
  | insert (th : Thread)
  | yield (c : Processor)
  | poll (c : Processor)
  | exit (proc : Proc)

/-- A state with the threads handed to `scheduler_insert` so far. -/
structure Config (Processor Thread Proc : Type u) where
  state : State Processor Thread Proc
  inserted : List Thread

/-- The configuration after an event, if the event can happen: only threads not inserted
before are new, and only a processor in the scheduler thread polls. -/
def step (k : Config Processor Thread Proc) :
    Event Processor Thread Proc → Option (Config Processor Thread Proc)
  | .insert th =>
      if th ∈ k.inserted then none else
        some ⟨schedulerInsert k.state th, th :: k.inserted⟩
  | .yield c => some { k with state := schedule k.state c }
  | .poll c =>
      if (k.state.cpu c).currentThread = .scheduler then
        some { k with state := Scheduler.poll k.state c }
      else none
  | .exit proc => some { k with state := processExit k.state proc }

/-- Nothing has run yet: the ready queue is empty and every processor is at its start. -/
def Initial (k : Config Processor Thread Proc) : Prop :=
  k.inserted = [] ∧ k.state.readyQueue = nil
    ∧ ∀ c, (k.state.cpu c).currentThread = .null ∧ (k.state.cpu c).lastThread = none

/-! ### Placement -/

/-- The claim on where threads are: the ready queue is a list of threads that are neither
running nor finished, and every inserted thread that is not finished is either in it or
current on one processor, but not both. -/
def Placement (k : Config Processor Thread Proc) : Prop :=
  ∃ xs : List Thread, Represents k.state.readyQueue k.state.links xs
    ∧ (∀ th ∈ xs, k.state.threadState th ≠ .running ∧ k.state.threadState th ≠ .finished)
    ∧ ∀ th ∈ k.inserted, k.state.threadState th ≠ .finished →
      (th ∈ xs ∧ ∀ c, (k.state.cpu c).currentThread ≠ .thread th)
        ∨ (th ∉ xs ∧ ∃! c, (k.state.cpu c).currentThread = .thread th)

/-- The events that keep threads in place.  A processor that takes a thread of a dead
process off the ready queue goes back to the top of its loop and looks at its last thread
again: that thread must not be one that is placed elsewhere by now. -/
def Safe (k : Config Processor Thread Proc) : Event Processor Thread Proc → Prop
  | .poll c => ∀ new, listFirst k.state.readyQueue = some new →
      ¬ processAlive k.state (k.state.process new) →
      ∀ old, (k.state.cpu c).lastThread = some old →
        old = new ∨ k.state.threadState old = .finished
          ∨ (¬ processAlive k.state (k.state.process old) ∧ k.state.threadState old = .running)
  | _ => True

/-- The invariant: the ready queue is `xs`, its threads are ready, a thread current on a
processor is the last thread of that processor and is current nowhere else, and no
unfinished thread is missing but `held`, which a processor has in hand. -/
structure Placed (s : State Processor Thread Proc) (inserted xs : List Thread)
    (held : Option Thread) : Prop where
  queue : Represents s.readyQueue s.links xs
  ready : ∀ th ∈ xs, s.threadState th = .ready
  known : ∀ th ∈ xs, th ∈ inserted
  start : ∀ c, (s.cpu c).currentThread = .null → (s.cpu c).lastThread = none
  last : ∀ c th, (s.cpu c).currentThread = .thread th → (s.cpu c).lastThread = some th
  current : ∀ c th, (s.cpu c).currentThread = .thread th →
    th ∉ xs ∧ th ∈ inserted ∧ held ≠ some th
  unique : ∀ c c' th, (s.cpu c).currentThread = .thread th →
    (s.cpu c').currentThread = .thread th → c = c'
  hand : ∀ th ∈ held, th ∉ xs ∧ th ∈ inserted
  somewhere : ∀ th ∈ inserted, s.threadState th ≠ .finished → held ≠ some th →
    th ∈ xs ∨ ∃ c, (s.cpu c).currentThread = .thread th

section

omit [DecidableEq Processor] [DecidableEq Thread] [DecidableEq Proc]

theorem Placed.placement {k : Config Processor Thread Proc} {xs : List Thread}
    (h : Placed k.state k.inserted xs none) :
  Placement k
  := by
  use xs, h.queue
  constructor
  · intro th hth
    simp [h.ready th hth]
  · intro th hth hfin
    by_cases hx : th ∈ xs
    · left
      use hx
      intro c hc
      exact (h.current c th hc).1 hx
    · right
      obtain ⟨c, hc⟩ := (h.somewhere th hth hfin (by simp)).resolve_left hx
      use hx, c, hc
      intro c' hc'
      exact h.unique c' c th hc' hc

/-- The invariant reads the processes and the current processes of no one. -/
theorem Placed.congr {s s' : State Processor Thread Proc} {inserted xs : List Thread}
    {held : Option Thread} (h : Placed s inserted xs held)
    (hqueue : s'.readyQueue = s.readyQueue) (hlinks : s'.links = s.links)
    (hstate : s'.threadState = s.threadState)
    (hcurrent : ∀ c, (s'.cpu c).currentThread = (s.cpu c).currentThread)
    (hlast : ∀ c, (s'.cpu c).lastThread = (s.cpu c).lastThread) :
  Placed s' inserted xs held
  := by
  obtain ⟨queue, ready, known, start, last, current, unique, hand, somewhere⟩ := h
  constructor
  · rwa [hqueue, hlinks]
  · rwa [hstate]
  · exact known
  · simpa only [hcurrent, hlast] using start
  · simpa only [hcurrent, hlast] using last
  · simpa only [hcurrent] using current
  · simpa only [hcurrent] using unique
  · exact hand
  · simpa only [hstate, hcurrent] using somewhere

end

/-- Switching the process of a processor writes only its current process and the states of
processes. -/
theorem switchProcess_eq (s : State Processor Thread Proc) (c : Processor)
    (proc : Option Proc) :
  ∃ procState, switchProcess s c proc
    = { setCpu s c { s.cpu c with currentProcess := proc } with procState := procState }
  := by
  simp only [switchProcess]
  split_ifs with hold
  · use s.procState
    simp only [Bool.and_eq_true, decide_eq_true_eq] at hold
    simp [setCpu, ← hold.2]
  · cases proc with
    | none =>
        cases (s.cpu c).currentProcess with
        | none => exact ⟨_, rfl⟩
        | some old =>
            dsimp only
            split_ifs
            · exact ⟨_, rfl⟩
            · exact ⟨_, rfl⟩
    | some proc =>
        cases (s.cpu c).currentProcess with
        | none => exact ⟨_, rfl⟩
        | some old =>
            dsimp only
            split_ifs
            · exact ⟨_, rfl⟩
            · exact ⟨_, rfl⟩

/-- Switching the process of a processor changes neither its threads nor the queue. -/
theorem Placed.switchProcess {s : State Processor Thread Proc} {inserted xs : List Thread}
    {held : Option Thread} (h : Placed s inserted xs held) (c : Processor)
    (proc : Option Proc) :
  Placed (Scheduler.switchProcess s c proc) inserted xs held
  := by
  obtain ⟨procState, heq⟩ := switchProcess_eq s c proc
  rw [heq]
  apply h.congr
  · rfl
  · rfl
  · rfl
  · intro c'
    simp only [setCpu_cpu, Function.update_apply]
    split_ifs with hc
    · rw [hc]
    · rfl
  · intro c'
    simp only [setCpu_cpu, Function.update_apply]
    split_ifs with hc
    · rw [hc]
    · rfl

/-- The held thread goes to the end of the ready queue. -/
theorem Placed.insert {s : State Processor Thread Proc} {inserted xs : List Thread}
    {th : Thread} (h : Placed s inserted xs (some th)) :
  Placed (schedulerInsert s th) inserted (xs ++ [th]) none
  := by
  obtain ⟨hxs, hins⟩ := h.hand th rfl
  constructor
  · exact listAppend_represents h.queue hxs
  · intro t ht
    rw [schedulerInsert_threadState, Function.update_apply]
    split
    · rfl
    · apply h.ready
      simp_all
  · intro t ht
    rcases List.mem_append.mp ht with ht | ht
    · exact h.known t ht
    · rwa [List.mem_singleton.mp ht]
  · exact h.start
  · exact h.last
  · intro c t hc
    obtain ⟨hx, hi, hne⟩ := h.current c t hc
    simp_all [eq_comm]
  · exact h.unique
  · simp
  · intro t hi hfin _
    rw [schedulerInsert_threadState, Function.update_apply] at hfin
    by_cases ht : t = th
    · left
      simp [ht]
    · rw [if_neg ht] at hfin
      have := h.somewhere t hi hfin (by simpa [eq_comm] using ht)
      simp_all

/-- The held thread, or any thread outside the ready queue, is finished. -/
theorem Placed.finish {s : State Processor Thread Proc} {inserted xs : List Thread}
    {held : Option Thread} {th : Thread} (h : Placed s inserted xs held) (hth : th ∉ xs)
    (hheld : ∀ t ∈ held, t = th) :
  Placed (setThreadState s th .finished) inserted xs none
  := by
  constructor
  · exact h.queue
  · intro t ht
    rw [setThreadState_threadState, Function.update_of_ne]
    · exact h.ready t ht
    · rintro rfl
      exact hth ht
  · exact h.known
  · exact h.start
  · exact h.last
  · intro c t hc
    obtain ⟨hx, hi, -⟩ := h.current c t hc
    simp [hx, hi]
  · exact h.unique
  · simp
  · intro t hi hfin _
    rw [setThreadState_threadState, Function.update_apply] at hfin
    by_cases ht : t = th
    · simp [ht] at hfin
    · rw [if_neg ht] at hfin
      apply h.somewhere t hi hfin
      intro e
      exact ht (hheld t e)

/-- A processor that switches to the scheduler thread holds its last thread. -/
theorem Placed.leave {s : State Processor Thread Proc} {inserted xs : List Thread}
    {c : Processor} (h : Placed s inserted xs none)
    (hc : (s.cpu c).currentThread ≠ .scheduler) :
  Placed (setCpu s c { s.cpu c with currentThread := .scheduler }) inserted xs
    (s.cpu c).lastThread
  := by
  have hheld : ∀ t, (s.cpu c).lastThread = some t → (s.cpu c).currentThread = .thread t := by
    intro t ht
    cases hcur : (s.cpu c).currentThread with
    | null => simp [h.start c hcur] at ht
    | scheduler => exact absurd hcur hc
    | thread th =>
        rw [h.last c th hcur] at ht
        rw [Option.some.inj ht]
  have hcur : ∀ c' t,
      ((setCpu s c { s.cpu c with currentThread := .scheduler }).cpu c').currentThread
        = .thread t → c' ≠ c ∧ (s.cpu c').currentThread = .thread t := by
    intro c' t hc'
    rw [setCpu_cpu, Function.update_apply] at hc'
    split_ifs at hc' with e
    exact ⟨e, hc'⟩
  constructor
  · exact h.queue
  · exact h.ready
  · exact h.known
  · intro c'
    rw [setCpu_cpu, Function.update_apply]
    split_ifs
    · simp
    · exact h.start c'
  · intro c' t hc'
    obtain ⟨hne, hc'⟩ := hcur c' t hc'
    rw [setCpu_cpu, Function.update_of_ne hne]
    exact h.last c' t hc'
  · intro c' t hc'
    obtain ⟨hne, hc'⟩ := hcur c' t hc'
    obtain ⟨hx, hi, -⟩ := h.current c' t hc'
    use hx, hi
    intro e
    exact hne (h.unique c' c t hc' (hheld t e))
  · intro c' c'' t hc' hc''
    exact h.unique c' c'' t (hcur c' t hc').2 (hcur c'' t hc'').2
  · intro t ht
    obtain ⟨hx, hi, -⟩ := h.current c t (hheld t ht)
    exact ⟨hx, hi⟩
  · intro t hit hfin hne
    rcases h.somewhere t hit hfin (by simp) with hx | ⟨c', hc'⟩
    · exact Or.inl hx
    · right
      use c'
      rw [setCpu_cpu, Function.update_of_ne]
      · exact hc'
      · rintro rfl
        exact hne (h.last c' t hc')

/-- A processor in the scheduler thread holds the thread it takes off the ready queue. -/
theorem Placed.next {s : State Processor Thread Proc} {inserted xs : List Thread}
    {th : Thread} (h : Placed s inserted (th :: xs) none) :
  Placed (schedulerRemove s th) inserted xs (some th)
  := by
  have hth := List.nodup_cons.mp h.queue.nodup
  constructor
  · have hempty : ([] : List Thread) ++ xs = xs := List.nil_append xs
    rw [← hempty]
    apply listRemove_represents
    apply h.queue
  · intro t ht
    exact h.ready t (List.mem_cons_of_mem th ht)
  · intro t ht
    exact h.known t (List.mem_cons_of_mem th ht)
  · exact h.start
  · exact h.last
  · intro c t hc
    obtain ⟨hx, hi, -⟩ := h.current c t hc
    simp_all [eq_comm]
  · exact h.unique
  · intro t ht
    obtain rfl := Option.some.inj ht
    exact ⟨hth.1, h.known th List.mem_cons_self⟩
  · intro t hi hfin hne
    rcases h.somewhere t hi hfin (by simp) with hx | hc
    · left
      rcases List.mem_cons.mp hx with rfl | hx
      · exact absurd rfl hne
      · exact hx
    · exact Or.inr hc

/-- What the switch to a thread writes. -/
theorem dispatch_eq (s : State Processor Thread Proc) (c : Processor) (new : Thread) :
  ∃ procState, dispatch s c new
    = { setCpu (setThreadState s new .running) c ⟨.thread new, some new, some (s.process new)⟩
        with procState := procState }
  := by
  obtain ⟨procState, heq⟩ := switchProcess_eq
    (setCpu (setThreadState s new .running) c
      { (setThreadState s new .running).cpu c with lastThread := some new })
    c (some (s.process new))
  use procState
  simp only [dispatch, setCpu_process, setThreadState_process]
  rw [heq]
  simp [setCpu]

/-- A processor runs the thread it holds. -/
theorem Placed.dispatch {s : State Processor Thread Proc} {inserted xs : List Thread}
    {c : Processor} {th : Thread} (h : Placed s inserted xs (some th))
    (hc : (s.cpu c).currentThread = .scheduler) :
  Placed (Scheduler.dispatch s c th) inserted xs none
  := by
  obtain ⟨procState, heq⟩ := dispatch_eq s c th
  rw [heq]
  obtain ⟨hx, hi⟩ := h.hand th rfl
  have hcurrent : ∀ c', ((setCpu (setThreadState s th .running) c
      ⟨.thread th, some th, some (s.process th)⟩).cpu c').currentThread
        = if c' = c then .thread th else (s.cpu c').currentThread := by
    intro c'
    rw [setCpu_cpu, Function.update_apply, apply_ite Cpu.currentThread]
    rfl
  have hlast : ∀ c', ((setCpu (setThreadState s th .running) c
      ⟨.thread th, some th, some (s.process th)⟩).cpu c').lastThread
        = if c' = c then some th else (s.cpu c').lastThread := by
    intro c'
    rw [setCpu_cpu, Function.update_apply, apply_ite Cpu.lastThread]
    rfl
  -- a thread is current on `c` exactly if it is `th`, and elsewhere as before
  have hcur : ∀ c' t, (if c' = c then .thread th else (s.cpu c').currentThread) = .thread t →
      (c' = c ∧ t = th) ∨ (c' ≠ c ∧ t ≠ th ∧ (s.cpu c').currentThread = .thread t) := by
    intro c' t hc'
    split_ifs at hc' with e
    · simp_all
    · right
      have := (h.current c' t hc').2.2
      simp_all [eq_comm]
  constructor
  · exact h.queue
  · intro t ht
    simp only [setCpu_threadState, setThreadState_threadState]
    rw [Function.update_of_ne]
    · exact h.ready t ht
    · rintro rfl
      exact hx ht
  · exact h.known
  · intro c'
    rw [hcurrent, hlast]
    split_ifs
    · simp
    · exact h.start c'
  · intro c' t
    rw [hcurrent, hlast]
    intro hc'
    rcases hcur c' t hc' with ⟨rfl, rfl⟩ | ⟨hne, -, hc'⟩
    · simp
    · rw [if_neg hne]
      exact h.last c' t hc'
  · intro c' t
    rw [hcurrent]
    intro hc'
    rcases hcur c' t hc' with ⟨rfl, rfl⟩ | ⟨-, -, hc'⟩
    · simp [hx, hi]
    · obtain ⟨hx', hi', -⟩ := h.current c' t hc'
      simp [hx', hi']
  · intro c' c'' t
    rw [hcurrent, hcurrent]
    intro hc' hc''
    rcases hcur c' t hc' with ⟨rfl, rfl⟩ | ⟨-, hne, hc'⟩
    · rcases hcur c'' t hc'' with ⟨rfl, -⟩ | ⟨-, hne, -⟩
      · rfl
      · exact absurd rfl hne
    · rcases hcur c'' t hc'' with ⟨-, rfl⟩ | ⟨-, -, hc''⟩
      · exact absurd rfl hne
      · exact h.unique c' c'' t hc' hc''
  · simp
  · intro t hit hfin _
    simp only [hcurrent]
    by_cases ht : t = th
    · right
      use c
      simp [ht]
    · simp only [setCpu_threadState, setThreadState_threadState] at hfin
      rw [Function.update_of_ne ht] at hfin
      rcases h.somewhere t hit hfin (by simpa [eq_comm] using ht) with hx' | ⟨c', hc'⟩
      · exact Or.inl hx'
      · right
        use c'
        rw [if_neg]
        · exact hc'
        · rintro rfl
          simp [hc] at hc'

/-- The top of the scheduler loop puts a held last thread back or finishes it. -/
theorem Placed.requeueLast {s : State Processor Thread Proc} {inserted xs : List Thread}
    {c : Processor} (h : Placed s inserted xs (s.cpu c).lastThread) :
  ∃ xs', Placed (Scheduler.requeueLast s c) inserted xs' none
  := by
  unfold Scheduler.requeueLast
  cases hlast : (s.cpu c).lastThread with
  | none =>
      rw [hlast] at h
      exact ⟨xs, h⟩
  | some old =>
      rw [hlast] at h
      dsimp only
      split_ifs
      · use xs ++ [old]
        have hins : schedulerInsert (setThreadState s old .ready) old = schedulerInsert s old := by
          simp [schedulerInsert, setThreadState]
        rw [hins]
        exact h.insert
      · use xs
        apply h.finish (h.hand old rfl).1
        intro t ht
        exact (Option.some.inj ht).symm

/-- Yields and timer ticks keep the invariant. -/
theorem Placed.schedule {s : State Processor Thread Proc} {inserted xs : List Thread}
    (h : Placed s inserted xs none) (c : Processor) :
  ∃ xs', Placed (Scheduler.schedule s c) inserted xs' none
  := by
  unfold Scheduler.schedule
  split_ifs with hc
  · exact ⟨xs, h⟩
  · have hswitch : (Scheduler.switchProcess s c none).cpu c
        = { s.cpu c with currentProcess := none } := by
      obtain ⟨_, heq⟩ := switchProcess_eq s c none
      rw [heq]
      simp
    have hleave := (h.switchProcess c none).leave (c := c) (by rw [hswitch]; exact hc)
    refine Placed.requeueLast (?_ : Placed _ inserted xs _)
    simpa using hleave

/-- A processor that asks for a thread keeps the invariant, unless it takes a thread of a
dead process while its last thread is placed elsewhere. -/
theorem Placed.poll {k : Config Processor Thread Proc} {xs : List Thread} {c : Processor}
    (h : Placed k.state k.inserted xs none)
    (hc : (k.state.cpu c).currentThread = .scheduler) (hsafe : Safe k (.poll c)) :
  ∃ xs', Placed (Scheduler.poll k.state c) k.inserted xs' none
  := by
  obtain ⟨s, inserted⟩ := k
  simp only at h hc
  cases xs with
  | nil =>
      have hfirst : listFirst s.readyQueue = none := h.queue.first
      use []
      simpa [Scheduler.poll, schedulerNext, hfirst] using h
  | cons new xs =>
      have hfirst : listFirst s.readyQueue = some new := h.queue.first
      have hnext := h.next
      simp only [Scheduler.poll, schedulerNext, hfirst]
      split_ifs with halive
      · use xs
        exact hnext.dispatch hc
      · -- the thread is dropped, and the last thread looked at again
        use xs
        have hnew := (hnext.hand new rfl).1
        have hdrop := hnext.finish hnew (by simp)
        cases hlast : (s.cpu c).lastThread with
        | none => simpa [Scheduler.requeueLast, hlast] using hdrop
        | some old =>
            have hold := hsafe new hfirst halive old hlast
            have hout : old ∉ xs := by
              intro hx
              have hready : s.threadState old = .ready := hnext.ready old hx
              rcases hold with rfl | hfin | ⟨-, hrun⟩
              · exact hnew hx
              · simp [hready] at hfin
              · simp [hready] at hrun
            have hstop : ¬ (Function.update s.threadState new .finished old ≠ .finished
                ∧ processAlive s (s.process old)) := by
              rintro ⟨hfin, hlive⟩
              rw [Function.update_apply] at hfin
              split_ifs at hfin with e
              · exact hfin rfl
              · rcases hold with rfl | hfin' | ⟨hdead, -⟩
                · exact e rfl
                · exact hfin hfin'
                · exact hdead hlive
            have hrequeue : Scheduler.requeueLast
                (setThreadState (schedulerRemove s new) new .finished) c
                  = setThreadState (setThreadState (schedulerRemove s new) new .finished) old
                    .finished := by
              simp only [Scheduler.requeueLast, setThreadState_cpu, schedulerRemove_cpu, hlast]
              exact if_neg hstop
            rw [hrequeue]
            exact hdrop.finish hout (by simp)

/-- Every event that is safe keeps the invariant. -/
theorem placed_step {k k' : Config Processor Thread Proc} {e : Event Processor Thread Proc}
    {xs : List Thread} (h : Placed k.state k.inserted xs none) (hsafe : Safe k e)
    (hstep : step k e = some k') :
  ∃ xs', Placed k'.state k'.inserted xs' none
  := by
  cases e with
  | insert th =>
      simp only [step] at hstep
      split_ifs at hstep with hnew
      obtain rfl := Option.some.inj hstep
      use xs ++ [th]
      apply Placed.insert
      obtain ⟨queue, ready, known, start, last, current, unique, -, somewhere⟩ := h
      constructor
      · exact queue
      · exact ready
      · intro t ht
        exact List.mem_cons_of_mem th (known t ht)
      · exact start
      · exact last
      · intro c t hc
        obtain ⟨hx, hi, -⟩ := current c t hc
        use hx, List.mem_cons_of_mem th hi
        rintro ⟨rfl⟩
        exact hnew hi
      · exact unique
      · intro t ht
        obtain rfl := Option.some.inj ht
        exact ⟨fun hx => hnew (known th hx), List.mem_cons_self⟩
      · intro t hi hfin hne
        rcases List.mem_cons.mp hi with rfl | hi
        · exact absurd rfl hne
        · exact somewhere t hi hfin (by simp)
  | yield c =>
      obtain rfl := Option.some.inj hstep
      exact h.schedule c
  | poll c =>
      simp only [step] at hstep
      split_ifs at hstep with hc
      obtain rfl := Option.some.inj hstep
      exact h.poll hc hsafe
  | exit proc =>
      obtain rfl := Option.some.inj hstep
      use xs
      exact h.congr rfl rfl rfl (fun _ => rfl) (fun _ => rfl)

/-- Nothing is placed anywhere before the first event. -/
theorem placed_initial {k : Config Processor Thread Proc} (h : Initial k) :
  Placed k.state k.inserted [] none
  := by
  obtain ⟨hins, hqueue, hcpu⟩ := h
  constructor
  · rw [hqueue]
    exact Represents.empty
  all_goals simp [hins, hcpu]

/-- In every run in which no processor takes a thread of a dead process off the ready queue
while its last thread is placed elsewhere, every thread is in its one place. -/
theorem placement_of_safe_run (k : Config Processor Thread Proc)
    (h : Reachable Initial (fun k k' => ∃ e, Safe k e ∧ step k e = some k') k) :
  Placement k
  := by
  have hinv : ∃ xs, Placed k.state k.inserted xs none := by
    induction h with
    | start h => exact ⟨[], placed_initial h⟩
    | next _ hstep ih =>
        obtain ⟨e, hsafe, hstep⟩ := hstep
        obtain ⟨xs, hplaced⟩ := ih
        exact placed_step hplaced hsafe hstep
  obtain ⟨xs, hplaced⟩ := hinv
  exact hplaced.placement

/-- One processor and two threads, each alone in its process, before anything has run. -/
def twoThreads : Config Unit Bool Bool where
  state := ⟨nil, fun _ => nil, fun _ => .ready, id, fun _ => .ready, fun _ => ⟨.null, none, none⟩⟩
  inserted := []

theorem twoThreads_initial :
  Initial twoThreads
  := by
  simp [Initial, twoThreads]

/-- The thread `true` is inserted and runs. -/
theorem placement_of_safe_run_first_thread :
  ∃ k, [.insert true, .yield (), .poll ()].foldlM step twoThreads = some k
    ∧ (k.state.cpu ()).currentThread = .thread true ∧ Placement k
  := by
  refine ⟨_, rfl, rfl, ?_⟩
  apply placement_of_safe_run
  refine .next (.next (.next (.start twoThreads_initial)
    ⟨.insert true, trivial, rfl⟩) ⟨.yield (), trivial, rfl⟩) ⟨.poll (), ?_, rfl⟩
  intro new hnew halive
  obtain rfl : true = new := Option.some.inj hnew
  exact absurd rfl halive

/-- While `true` runs, `false` is inserted and its process dies.  When `true` yields, the
processor takes `false` off the ready queue and puts `true` back a second time: the queue
is then no list any more. -/
theorem placement_lost_after_dropped_thread :
  ∃ k : Config Unit Bool Bool,
    Reachable Initial (fun k k' => ∃ e, step k e = some k') k ∧ ¬ Placement k
  := by
  have hrun : ∃ k, [.insert true, .yield (), .poll (), .insert false, .exit false, .yield (),
      .poll ()].foldlM step twoThreads = some k
      ∧ k.state.readyQueue.prev = some true ∧ (k.state.links true).next = some true :=
    ⟨_, rfl, rfl, rfl⟩
  obtain ⟨k, hrun, hlast, hnext⟩ := hrun
  use k, Reachable.run (.start twoThreads_initial) hrun
  rintro ⟨xs, hxs, -⟩
  have hmem : xs.getLast? = some true := hxs.last.symm.trans hlast
  obtain ⟨ys, rfl⟩ := List.getLast?_eq_some_iff.mp hmem
  have hend : k.state.links true = ⟨ys.getLast?, none⟩ := hxs.links
  rw [hend] at hnext
  cases hnext

end Scheduler
