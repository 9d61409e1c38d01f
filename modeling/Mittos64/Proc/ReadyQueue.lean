import Mittos64.Cpu.SyncRuns
import Mittos64.Proc.Scheduler

/-!
# The ready queue of several processors

`scheduler_insert`, `scheduler_remove` and `scheduler_next` of `proc/scheduler.c`, load by load and
store by store, between `spin_lock` and `spin_unlock`.  On any number of processors they do what
the scheduler's model has them do at once, and as long as a processor only inserts a thread that is
in no one else's hands, the ready queue is a queue: each thread comes out once for each time it was
put in, in the order in which they were put in.
-/

open DList Tso

namespace Scheduler

/-! ### The code -/

/-- The fields that are used with `scheduler_lock`: the head of the ready queue, and the links and
the state of each thread. -/
inductive Field (Thread : Type) where
  | headPrev
  | headNext
  | prev (th : Thread)
  | next (th : Thread)
  | state (th : Thread)
  deriving DecidableEq

/-- The values of the fields. -/
abbrev Field.Val {Thread : Type} : Field Thread → Type
  | .headPrev => Option Thread
  | .headNext => Option Thread
  | .prev _ => Option Thread
  | .next _ => Option Thread
  | .state _ => ThreadState

section CallType

variable (Thread : Type)

/-- The calls of the functions. -/
inductive Call where
  | insert (th : Thread)
  | remove (th : Thread)
  | next

end CallType

variable {Thread : Type}

/-- Programs of loads and stores of the fields. -/
abbrev QueueCode (Thread : Type) : Type → Type := Code (@Field.Val Thread)

/-- `ready_queue.prev` and `ready_queue.next` -/
def loadLast : QueueCode Thread (Option Thread) := Code.read Field.headPrev
def loadFirst : QueueCode Thread (Option Thread) := Code.read Field.headNext

/-- `th->ready_queue.prev` and `th->ready_queue.next` -/
def loadPrev (th : Thread) : QueueCode Thread (Option Thread) := Code.read (Field.prev th)
def loadNext (th : Thread) : QueueCode Thread (Option Thread) := Code.read (Field.next th)

/-- Write `ready_queue.prev` and `ready_queue.next`. -/
def storeLast (v : Option Thread) : QueueCode Thread PUnit := Code.write .headPrev v
def storeFirst (v : Option Thread) : QueueCode Thread PUnit := Code.write .headNext v

/-- Write the links of the thread that `o` points to. -/
def storePrev (o v : Option Thread) : QueueCode Thread PUnit :=
  match o with
  | some th => Code.write (.prev th) v
  | none => pure ⟨⟩
def storeNext (o v : Option Thread) : QueueCode Thread PUnit :=
  match o with
  | some th => Code.write (.next th) v
  | none => pure ⟨⟩

/-- Write `th->state`. -/
def storeState (th : Thread) (v : ThreadState) : QueueCode Thread PUnit := Code.write (.state th) v

/-- The conditionals of `LIST_APPEND`. -/
def linkBefore (self : Thread) : QueueCode Thread PUnit := do
  if (← loadPrev self).isSome then
    storeNext (← loadPrev self) (some self)
def setFirst : QueueCode Thread PUnit := do
  if (← loadFirst).isNone then
    storeFirst (← loadLast)

/-- `LIST_APPEND(ready_queue, self, ready_queue)` -/
def appendCode (self : Thread) : QueueCode Thread PUnit := do
  storePrev (some self) (← loadLast)
  storeNext (some self) none
  linkBefore self
  storeLast (some self)
  setFirst

variable [DecidableEq Thread]

/-- The conditionals of `LIST_REMOVE`. -/
def skipFirst (self : Thread) : QueueCode Thread PUnit := do
  if (← loadFirst) = some self then
    storeFirst (← loadNext self)
def skipLast (self : Thread) : QueueCode Thread PUnit := do
  if (← loadLast) = some self then
    storeLast (← loadPrev self)
def joinNext (self : Thread) : QueueCode Thread PUnit := do
  if (← loadNext self).isSome then
    storePrev (← loadNext self) (← loadPrev self)
def joinPrev (self : Thread) : QueueCode Thread PUnit := do
  if (← loadPrev self).isSome then
    storeNext (← loadPrev self) (← loadNext self)

/-- `LIST_REMOVE(ready_queue, self, ready_queue)` -/
def removeCode (self : Thread) : QueueCode Thread PUnit := do
  skipFirst self
  skipLast self
  joinNext self
  joinPrev self
  storeNext (some self) none
  storePrev (some self) none

/-- What the functions do between `spin_lock` and `spin_unlock`, and what they return. -/
def body : Call Thread → QueueCode Thread (Option Thread)
  | .insert th => do
      appendCode th
      storeState th .ready
      pure none
  | .remove th => do
      removeCode th
      pure none
  | .next => do
      if (← loadFirst).isNone then
        pure none
      else
        match ← loadFirst with
        | some th =>
            removeCode th
            pure (some th)
        | none => pure none

/-! ### What the code does when nothing comes in between -/

/-- The values of the fields for a ready queue, links and states. -/
def fields (queue : Link Thread) (links : Thread → Link Thread) (states : Thread → ThreadState) :
    ∀ a, @Field.Val Thread a
  | .headPrev => queue.prev
  | .headNext => queue.next
  | .prev th => (links th).prev
  | .next th => (links th).next
  | .state th => states th

section Run

variable (queue : Link Thread) (links : Thread → Link Thread) (states : Thread → ThreadState)

@[simp]
theorem run_loadLast :
  loadLast.run (fields queue links states) = (queue.prev, fields queue links states)
  := rfl

@[simp]
theorem run_loadFirst :
  loadFirst.run (fields queue links states) = (queue.next, fields queue links states)
  := rfl

@[simp]
theorem run_loadPrev (th : Thread) :
  (loadPrev th).run (fields queue links states) = ((links th).prev, fields queue links states)
  := rfl

@[simp]
theorem run_loadNext (th : Thread) :
  (loadNext th).run (fields queue links states) = ((links th).next, fields queue links states)
  := rfl

/-- A store that changes one field only. -/
theorem run_write_eq {a : Field Thread} {v : Field.Val a} {queue' : Link Thread}
    {links' : Thread → Link Thread} {states' : Thread → ThreadState}
    (hself : fields queue' links' states' a = v)
    (hother : ∀ b, b ≠ a → fields queue' links' states' b = fields queue links states b) :
  (Code.write a v).run (fields queue links states) = (⟨⟩, fields queue' links' states')
  := by
  rw [Code.run_write]
  congr 1
  funext b
  by_cases hb : b = a
  · subst hb
    rw [Function.update_self, hself]
  · rw [Function.update_of_ne hb, hother b hb]

@[simp]
theorem run_storeLast (v : Option Thread) :
  (storeLast v).run (fields queue links states)
    = (⟨⟩, fields { queue with prev := v } links states)
  := by
  apply run_write_eq
  · rfl
  · intro b hb
    cases b with
    | headPrev => exact absurd rfl hb
    | headNext => rfl
    | prev th => rfl
    | next th => rfl
    | state th => rfl

@[simp]
theorem run_storeFirst (v : Option Thread) :
  (storeFirst v).run (fields queue links states)
    = (⟨⟩, fields { queue with next := v } links states)
  := by
  apply run_write_eq
  · rfl
  · intro b hb
    cases b with
    | headPrev => rfl
    | headNext => exact absurd rfl hb
    | prev th => rfl
    | next th => rfl
    | state th => rfl

@[simp]
theorem run_storePrev (o v : Option Thread) :
  (storePrev o v).run (fields queue links states)
    = (⟨⟩, fields queue (setPrev links o v) states)
  := by
  cases o with
  | none => rfl
  | some th =>
      apply run_write_eq
      · simp [fields]
      · intro b hb
        cases b with
        | headPrev => rfl
        | headNext => rfl
        | prev th' =>
            have hne : some th ≠ some th' :=
              fun h => hb (congrArg Field.prev (Option.some.inj h).symm)
            simp only [fields, setPrev_of_ne links v hne]
        | next th' => simp only [fields, setPrev_next]
        | state th' => rfl

@[simp]
theorem run_storeNext (o v : Option Thread) :
  (storeNext o v).run (fields queue links states)
    = (⟨⟩, fields queue (setNext links o v) states)
  := by
  cases o with
  | none => rfl
  | some th =>
      apply run_write_eq
      · simp [fields]
      · intro b hb
        cases b with
        | headPrev => rfl
        | headNext => rfl
        | next th' =>
            have hne : some th ≠ some th' :=
              fun h => hb (congrArg Field.next (Option.some.inj h).symm)
            simp only [fields, setNext_of_ne links v hne]
        | prev th' => simp only [fields, setNext_prev]
        | state th' => rfl

@[simp]
theorem run_storeState (th : Thread) (v : ThreadState) :
  (storeState th v).run (fields queue links states)
    = (⟨⟩, fields queue links (Function.update states th v))
  := by
  apply run_write_eq
  · simp [fields]
  · intro b hb
    cases b with
    | headPrev => rfl
    | headNext => rfl
    | prev th' => rfl
    | next th' => rfl
    | state th' =>
        have hne : th' ≠ th := fun h => hb (congrArg Field.state h)
        simp only [fields, Function.update_of_ne hne]

/-- Both links of a thread are written. -/
theorem setNext_setPrev (links : Thread → Link Thread) (th : Thread) (p n : Option Thread) :
  setNext (setPrev links (some th) p) (some th) n = Function.update links th ⟨p, n⟩
  := by
  simp [setNext, setPrev]

theorem setPrev_setNext (links : Thread → Link Thread) (th : Thread) (p n : Option Thread) :
  setPrev (setNext links (some th) n) (some th) p = Function.update links th ⟨p, n⟩
  := by
  simp [setNext, setPrev]

@[simp]
theorem run_linkBefore (self : Thread) :
  (linkBefore self).run (fields queue links states)
    = (⟨⟩, fields queue (setNext links (links self).prev (some self)) states)
  := by
  rw [linkBefore, Code.run_bind, run_loadPrev]
  cases hprev : (links self).prev with
  | none => rfl
  | some th => simp [hprev]

@[simp]
theorem run_setFirst :
  setFirst.run (fields queue links states)
    = (⟨⟩, fields (if queue.next = none then { queue with next := queue.prev } else queue)
        links states)
  := by
  rw [setFirst, Code.run_bind, run_loadFirst]
  cases hnext : queue.next with
  | none => simp
  | some th => simp

@[simp]
theorem run_skipFirst (self : Thread) :
  (skipFirst self).run (fields queue links states)
    = (⟨⟩, fields
        (if queue.next = some self then { queue with next := (links self).next } else queue)
        links states)
  := by
  rw [skipFirst, Code.run_bind, run_loadFirst]
  by_cases hself : queue.next = some self
  · simp [hself]
  · simp [hself]

@[simp]
theorem run_skipLast (self : Thread) :
  (skipLast self).run (fields queue links states)
    = (⟨⟩, fields
        (if queue.prev = some self then { queue with prev := (links self).prev } else queue)
        links states)
  := by
  rw [skipLast, Code.run_bind, run_loadLast]
  by_cases hself : queue.prev = some self
  · simp [hself]
  · simp [hself]

@[simp]
theorem run_joinNext (self : Thread) :
  (joinNext self).run (fields queue links states)
    = (⟨⟩, fields queue (setPrev links (links self).next (links self).prev) states)
  := by
  rw [joinNext, Code.run_bind, run_loadNext]
  cases hnext : (links self).next with
  | none => rfl
  | some th => simp [hnext]

@[simp]
theorem run_joinPrev (self : Thread) :
  (joinPrev self).run (fields queue links states)
    = (⟨⟩, fields queue (setNext links (links self).prev (links self).next) states)
  := by
  rw [joinPrev, Code.run_bind, run_loadPrev]
  cases hprev : (links self).prev with
  | none => rfl
  | some th => simp [hprev]

/-- The loads and stores of `LIST_APPEND` append the thread. -/
@[simp]
theorem run_appendCode (self : Thread) :
  (appendCode self).run (fields queue links states)
    = (⟨⟩, fields (listAppend queue links self).1 (listAppend queue links self).2 states)
  := by
  simp only [appendCode, Code.run_bind, run_loadLast, run_storePrev, run_storeNext, setNext_setPrev,
    run_linkBefore, run_storeLast, run_setFirst, listAppend]

/-- The loads and stores of `LIST_REMOVE` remove the thread. -/
@[simp]
theorem run_removeCode (self : Thread) :
  (removeCode self).run (fields queue links states)
    = (⟨⟩, fields (listRemove queue links self).1 (listRemove queue links self).2 states)
  := by
  simp only [removeCode, Code.run_bind, run_skipFirst, run_skipLast, run_joinNext, run_joinPrev,
    run_storeNext, run_storePrev, setPrev_setNext, listRemove]
  rfl

end Run

section Model

variable {Processor Proc : Type}

/-- The values of the fields in a state of the scheduler. -/
def State.fields (s : State Processor Thread Proc) : ∀ a, @Field.Val Thread a :=
  Scheduler.fields s.readyQueue s.links s.threadState

/-- What a function returns, and the state that it leaves. -/
def callResult (s : State Processor Thread Proc) :
    Call Thread → Option Thread × State Processor Thread Proc
  | .insert th => (none, schedulerInsert s th)
  | .remove th => (none, schedulerRemove s th)
  | .next => schedulerNext s

/-- When nothing comes in between, the loads and stores of a function do what it does in the model
of the scheduler. -/
theorem run_body (s : State Processor Thread Proc) (c : Call Thread) :
  (body c).run s.fields = ((callResult s c).1, (callResult s c).2.fields)
  := by
  cases c with
  | insert th =>
      rw [body, State.fields, Code.run_bind, run_appendCode, Code.run_bind, run_storeState,
        Code.run_pure]
      rfl
  | remove th =>
      rw [body, State.fields, Code.run_bind, run_removeCode, Code.run_pure]
      rfl
  | next =>
      rw [body, State.fields, Code.run_bind, run_loadFirst, callResult, schedulerNext, listFirst]
      cases hfirst : s.readyQueue.next with
      | none => rfl
      | some th =>
          simp only [Option.isNone_some, Bool.false_eq_true, if_false, Code.run_bind, run_loadFirst,
            hfirst, run_removeCode, Code.run_pure]
          rfl

end Model

/-! ### A queue of threads -/

section Queue

variable (ι Thread : Type) [DecidableEq ι]

/-- A queue of threads, and the processors that work on it. -/
structure Fifo where
  queue : List Thread
  status : ι → Sync.Status (Call Thread) (Option Thread)

end Queue

variable {ι : Type} [DecidableEq ι]

/-- The steps of a queue: a thread is put in at the end, and the first one is taken out. -/
inductive Fifo.Step : Fifo ι Thread → Option (Sync.Event ι (Call Thread) (Option Thread)) →
    Fifo ι Thread → Prop where
  | call {f : Fifo ι Thread} {i : ι} (c : Call Thread) : f.status i = .idle →
      Step f (some (.call i c)) { f with status := Function.update f.status i (.called c) }
  | insert {f : Fifo ι Thread} {i : ι} {th : Thread} : f.status i = .called (.insert th) →
      Step f none ⟨f.queue ++ [th], Function.update f.status i (.finished none)⟩
  | next {f : Fifo ι Thread} {i : ι} : f.status i = .called .next →
      Step f none ⟨f.queue.tail, Function.update f.status i (.finished f.queue.head?)⟩
  | ret {f : Fifo ι Thread} {i : ι} {x : Option Thread} : f.status i = .finished x →
      Step f (some (.ret i x)) { f with status := Function.update f.status i .idle }

/-- The empty queue before the first call. -/
def Fifo.start : Fifo ι Thread where
  queue := []
  status := fun _ => .idle

/-- How the threads that no one else has change hands: only such a thread is inserted, and one that
is taken off the queue is such a thread again. -/
inductive Owns : Set Thread → Sync.Event ι (Call Thread) (Option Thread) → Set Thread → Prop where
  | insert {owned : Set Thread} {i : ι} {th : Thread} : th ∈ owned →
      Owns owned (.call i (.insert th)) (owned \ {th})
  | next {owned : Set Thread} {i : ι} : Owns owned (.call i .next) owned
  | taken {owned : Set Thread} {i : ι} {th : Thread} :
      Owns owned (.ret i (some th)) (Set.insert th owned)
  | ret {owned : Set Thread} {i : ι} : Owns owned (.ret i none) owned

/-- The thread is in the hands of the processor: on its way into the queue, or out of it. -/
def InHand (status : Sync.Status (Call Thread) (Option Thread)) (th : Thread) : Prop :=
  status = .called (.insert th) ∨ status = .finished (some th)

/-- The ready queue in memory is the queue, and each thread is in one place only. -/
structure FifoRel (p : Sync.Serial (@Field.Val Thread) ι (Call Thread) (Option Thread) × Set Thread)
    (f : Fifo ι Thread) : Prop where
  status : f.status = p.1.status
  data : ∃ queue links states, p.1.data = fields queue links states
    ∧ Represents queue links f.queue
  owned : ∀ th ∈ p.2, th ∉ f.queue ∧ ∀ i, ¬ InHand (f.status i) th
  hand : ∀ i th, InHand (f.status i) th → th ∉ f.queue
  unique : ∀ i j th, InHand (f.status i) th → InHand (f.status j) th → i = j
  kept : ∀ i th, f.status i ≠ .called (.remove th)

section Queue

variable {p : Sync.Serial (@Field.Val Thread) ι (Call Thread) (Option Thread) × Set Thread}
  {f : Fifo ι Thread} {i : ι} {st : Sync.Status (Call Thread) (Option Thread)} {xs : List Thread}
  {data : ∀ a, @Field.Val Thread a} {owned : Set Thread}

omit [DecidableEq Thread] in
theorem not_inHand_idle (th : Thread) :
  ¬ InHand (.idle : Sync.Status (Call Thread) (Option Thread)) th
  := by
  rintro (h | h)
  · cases h
  · cases h

omit [DecidableEq Thread] in
theorem inHand_insert {th th' : Thread} :
  InHand (.called (.insert th)) th' ↔ th' = th
  := by
  constructor
  · rintro (h | h)
    · cases h
      rfl
    · cases h
  · rintro rfl
    exact Or.inl rfl

omit [DecidableEq Thread] in
theorem not_inHand_next (th : Thread) :
  ¬ InHand (.called .next : Sync.Status (Call Thread) (Option Thread)) th
  := by
  rintro (h | h)
  · cases h
  · cases h

omit [DecidableEq Thread] in
theorem inHand_finished {o : Option Thread} {th : Thread} :
  InHand (.finished o) th ↔ o = some th
  := by
  constructor
  · rintro (h | h)
    · cases h
    · cases h
      rfl
  · rintro rfl
    exact Or.inr rfl

omit [DecidableEq Thread] in
/-- A processor goes on, and no thread is in two places after it: those that it has in hand, in the
queue or in no one's hands were so before. -/
theorem FifoRel.update (h : FifoRel p f)
    (hdata : ∃ queue links states, data = fields queue links states ∧ Represents queue links xs)
    (hhand : ∀ th, InHand st th → th ∉ xs ∧ th ∉ owned) (howned : ∀ th ∈ owned, th ∉ xs)
    (hmoved : ∀ th, th ∈ owned ∨ th ∈ xs ∨ InHand st th →
      th ∈ p.2 ∨ th ∈ f.queue ∨ InHand (f.status i) th)
    (hkept : ∀ th, st ≠ .called (.remove th)) :
  FifoRel (⟨data, Function.update p.1.status i st⟩, owned) ⟨xs, Function.update f.status i st⟩
  := by
  have hother : ∀ {j : ι} {th : Thread}, j ≠ i → th ∈ owned ∨ th ∈ xs ∨ InHand st th →
      ¬ InHand (f.status j) th := by
    intro j th hj hth hin
    obtain hth | hth | hth := hmoved th hth
    · exact (h.owned th hth).2 j hin
    · exact h.hand j th hin hth
    · exact hj (h.unique j i th hin hth)
  have hcases : ∀ {j : ι} {th : Thread}, InHand (Function.update f.status i st j) th →
      (j = i ∧ InHand st th) ∨ (j ≠ i ∧ InHand (f.status j) th) := by
    intro j th hin
    by_cases hj : j = i
    · rw [hj, Function.update_self] at hin
      exact Or.inl ⟨hj, hin⟩
    · rw [Function.update_of_ne hj] at hin
      exact Or.inr ⟨hj, hin⟩
  refine ⟨?_, hdata, ?_, ?_, ?_, ?_⟩
  · rw [h.status]
  · refine fun th hth => ⟨howned th hth, fun j hin => ?_⟩
    obtain ⟨-, hin⟩ | ⟨hj, hin⟩ := hcases hin
    · exact (hhand th hin).2 hth
    · exact hother hj (Or.inl hth) hin
  · intro j th hin hth
    obtain ⟨-, hin⟩ | ⟨hj, hin⟩ := hcases hin
    · exact (hhand th hin).1 hth
    · exact hother hj (Or.inr (Or.inl hth)) hin
  · intro j k th hinj hink
    obtain ⟨hji, hj⟩ | ⟨hji, hj⟩ := hcases hinj
    · obtain ⟨hki, -⟩ | ⟨hki, hk⟩ := hcases hink
      · rw [hji, hki]
      · exact absurd hk (hother hki (Or.inr (Or.inr hj)))
    · obtain ⟨-, hk⟩ | ⟨-, hk⟩ := hcases hink
      · exact absurd hj (hother hji (Or.inr (Or.inr hk)))
      · exact h.unique j k th hj hk
  · intro j th
    have hkeep : Function.update f.status i st j ≠ .called (.remove th) := by
      by_cases hj : j = i
      · rw [hj, Function.update_self]
        exact hkept th
      · rw [Function.update_of_ne hj]
        exact h.kept j th
    exact hkeep

/-- Every step of processors that do the work of a function at once, with threads that change hands
as they should, is a step of the queue. -/
theorem FifoRel.step (h : FifoRel p f)
    {o : Option (Sync.Event ι (Call Thread) (Option Thread))}
    {p' : Sync.Serial (@Field.Val Thread) ι (Call Thread) (Option Thread) × Set Thread}
    (hstep : Trace.Monitored (Sync.Serial.Step body) Owns p o p') :
  ∃ f', Trace Fifo.Step f o.toList f' ∧ FifoRel p' f'
  := by
  obtain ⟨t', owned'⟩ := p'
  obtain ⟨hstep, hown⟩ := hstep
  cases hstep with
  | @call i c hi =>
      have hidle : f.status i = .idle := by
        rw [h.status]
        exact hi
      refine ⟨_, .single (.call c hidle), ?_⟩
      cases hown with
      | @insert _ th hth =>
          apply h.update h.data
          · intro th' hin
            obtain rfl := inHand_insert.mp hin
            exact ⟨(h.owned th' hth).1, fun hmem => hmem.2 rfl⟩
          · exact fun th' hmem => (h.owned th' hmem.1).1
          · rintro th' (hmem | hmem | hin)
            · exact Or.inl hmem.1
            · exact Or.inr (Or.inl hmem)
            · obtain rfl := inHand_insert.mp hin
              exact Or.inl hth
          · intro th' hst
            cases hst
      | next =>
          apply h.update h.data
          · exact fun th hin => absurd hin (not_inHand_next th)
          · exact fun th hmem => (h.owned th hmem).1
          · rintro th (hmem | hmem | hin)
            · exact Or.inl hmem
            · exact Or.inr (Or.inl hmem)
            · exact absurd hin (not_inHand_next th)
          · intro th' hst
            cases hst
  | @work i c hi =>
      obtain rfl : owned' = p.2 := hown
      obtain ⟨queue, links, states, hdata, hrep⟩ := h.data
      rw [← h.status] at hi
      cases c with
      | insert th =>
          have hin : InHand (f.status i) th := by
            rw [hi]
            exact inHand_insert.mpr rfl
          have hth : th ∉ f.queue := h.hand i th hin
          have hrun : (body (.insert th)).run p.1.data
              = (none, fields (listAppend queue links th).1 (listAppend queue links th).2
                (Function.update states th .ready)) := by
            rw [hdata, body, Code.run_bind, run_appendCode, Code.run_bind, run_storeState,
              Code.run_pure]
          refine ⟨_, .single (.insert hi), ?_⟩
          rw [hrun]
          apply h.update ⟨_, _, _, rfl, listAppend_represents hrep hth⟩
          · intro th' hin'
            cases inHand_finished.mp hin'
          · intro th' hmem
            rw [List.mem_append, List.mem_singleton]
            rintro (hq | rfl)
            · exact (h.owned th' hmem).1 hq
            · exact (h.owned th' hmem).2 i hin
          · rintro th' (hmem | hmem | hin')
            · exact Or.inl hmem
            · rw [List.mem_append, List.mem_singleton] at hmem
              obtain hmem | rfl := hmem
              · exact Or.inr (Or.inl hmem)
              · exact Or.inr (Or.inr hin)
            · cases inHand_finished.mp hin'
          · intro th' hst
            cases hst
      | remove th => exact absurd hi (h.kept i th)
      | next =>
          refine ⟨_, .single (.next hi), ?_⟩
          cases hq : f.queue with
          | nil =>
              have hfirst : queue.next = none := hrep.next_eq_none.mpr hq
              have hrun : (body .next).run p.1.data = (none, fields queue links states) := by
                rw [hdata, body, Code.run_bind, run_loadFirst, hfirst]
                rfl
              rw [hrun]
              rw [hq] at hrep
              apply h.update ⟨_, _, _, rfl, hrep⟩
              · intro th' hin'
                cases inHand_finished.mp hin'
              · exact fun th' _ => List.not_mem_nil
              · rintro th' (hmem | hmem | hin')
                · exact Or.inl hmem
                · exact absurd hmem List.not_mem_nil
                · cases inHand_finished.mp hin'
              · intro th' hst
                cases hst
          | cons th xs =>
              rw [hq] at hrep
              have hfirst : queue.next = some th := hrep.first
              have hrun : (body .next).run p.1.data = (some th, fields
                  (listRemove queue links th).1 (listRemove queue links th).2 states) := by
                rw [hdata, body, Code.run_bind, run_loadFirst, hfirst]
                simp only [Option.isNone_some, Bool.false_eq_true, if_false, Code.run_bind,
                  run_loadFirst, hfirst, run_removeCode, Code.run_pure]
              rw [hrun]
              have hnodup := List.nodup_cons.mp hrep.nodup
              have hmemq : ∀ {th'}, th' ∈ th :: xs → th' ∈ f.queue := by
                rw [hq]
                exact id
              have hremoved : Represents (listRemove queue links th).1
                  (listRemove queue links th).2 ([] ++ xs) := listRemove_represents hrep
              apply h.update ⟨_, _, _, rfl, hremoved⟩
              · intro th' hin'
                obtain rfl := Option.some.inj (inHand_finished.mp hin')
                exact ⟨hnodup.1, fun hmem => (h.owned _ hmem).1 (hmemq List.mem_cons_self)⟩
              · exact fun th' hmem hx => (h.owned th' hmem).1 (hmemq (List.mem_cons_of_mem th hx))
              · rintro th' (hmem | hmem | hin')
                · exact Or.inl hmem
                · exact Or.inr (Or.inl (hmemq (List.mem_cons_of_mem th hmem)))
                · obtain rfl := Option.some.inj (inHand_finished.mp hin')
                  exact Or.inr (Or.inl (hmemq List.mem_cons_self))
              · intro th' hst
                cases hst
  | @ret i x hi =>
      have hfinished : f.status i = .finished x := by
        rw [h.status]
        exact hi
      refine ⟨_, .single (.ret hfinished), ?_⟩
      cases hown with
      | @taken _ th =>
          have hin : InHand (f.status i) th := by
            rw [hfinished]
            exact inHand_finished.mpr rfl
          apply h.update h.data
          · exact fun th' hin' => absurd hin' (not_inHand_idle th')
          · rintro th' (rfl | hmem)
            · exact h.hand i th' hin
            · exact (h.owned th' hmem).1
          · rintro th' ((rfl | hmem) | hmem | hin')
            · exact Or.inr (Or.inr hin)
            · exact Or.inl hmem
            · exact Or.inr (Or.inl hmem)
            · exact absurd hin' (not_inHand_idle th')
          · intro th' hst
            cases hst
      | ret =>
          apply h.update h.data
          · exact fun th' hin' => absurd hin' (not_inHand_idle th')
          · exact fun th' hmem => (h.owned th' hmem).1
          · rintro th' (hmem | hmem | hin')
            · exact Or.inl hmem
            · exact Or.inr (Or.inl hmem)
            · exact absurd hin' (not_inHand_idle th')
          · intro th' hst
            cases hst

end Queue

section Runs

variable {links : Thread → Link Thread} {states : Thread → ThreadState}
  {es : List (Sync.Event ι (Call Thread) (Option Thread))}
  {s : Sync.System (@Field.Val Thread) ι (Call Thread) (Option Thread)}
  {owned owned' : Set Thread}

omit [DecidableEq Thread] [DecidableEq ι] in
theorem fifoRel_start (links : Thread → Link Thread) (states : Thread → ThreadState)
    (owned : Set Thread) :
  FifoRel (Sync.Serial.start (fields nil links states), owned) (Fifo.start : Fifo ι Thread)
  := by
  constructor
  · rfl
  · exact ⟨nil, links, states, rfl, .empty⟩
  · exact fun th _ => ⟨List.not_mem_nil, fun _ => not_inHand_idle th⟩
  · exact fun _ th hin => absurd hin (not_inHand_idle th)
  · exact fun _ _ th hin => absurd hin (not_inHand_idle th)
  · intro i th h
    cases h

/-- On any number of processors, whatever the order of their loads and stores and of the stores that
leave their buffers, the ready queue is a queue, as long as a thread is only inserted when no one
else has it: `scheduler_insert` and `scheduler_next` are called and return as if each of them put in
the thread at the end, or took out the first one, at once.  What is left in memory when all have
returned is a list of the threads that are left in the queue. -/
theorem fifo_of_trace
    (h : Trace (Sync.Step body) (Sync.start (fields nil links states)) es s)
    (hown : Runs Owns owned es owned') :
  ∃ f : Fifo ι Thread, Trace Fifo.Step Fifo.start es f
    ∧ ((∀ i, s.cpu i = .idle ∧ s.memory.buffer i = []) → ∃ queue links states,
      (∀ a, s.memory.shared (.data a) = fields queue links states a)
        ∧ Represents queue links f.queue)
  := by
  obtain ⟨t, ht, hserial⟩ := Sync.rel_of_trace h
  obtain ⟨f, hf, hrel⟩ := (ht.monitor hown).simulate (fun hrel hstep => hrel.step hstep)
    (fifoRel_start links states owned)
  refine ⟨f, hf, fun hall => ?_⟩
  obtain ⟨queue, links', states', hdata, hrep⟩ := hrel.data
  refine ⟨queue, links', states', fun a => ?_, hrep⟩
  rw [hserial.data_of_quiet hall a, hdata]

/-- The processor `false` inserts a thread, and the processor `true` gets it. -/
theorem insert_next_run :
  ∃ s : Sync.System (@Field.Val Nat) Bool (Call Nat) (Option Nat),
    Trace (Sync.Step body) (Sync.start (fields nil (fun _ => nil) fun _ => .waiting))
      [.call false (.insert 7), .ret false none, .call true .next, .ret true (some 7)] s
  := by
  exact ⟨_, .event (.call (i := false) _ ⟨0, 0, false⟩ rfl) <|
    .silent (.next (i := false) rfl rfl) <| .silent (.next (i := false) rfl rfl) <|
    .silent (.next (i := false) rfl rfl) <| .silent (.next (i := false) rfl rfl) <|
    .silent (.cmpxchg (i := false) rfl rfl) <| .silent (.next (i := false) rfl rfl) <|
    .silent (.enter (i := false) rfl) <| .silent (.load (i := false) rfl) <|
    .silent (.store (i := false) rfl) <| .silent (.store (i := false) rfl) <|
    .silent (.load (i := false) rfl) <| .silent (.store (i := false) rfl) <|
    .silent (.load (i := false) rfl) <| .silent (.load (i := false) rfl) <|
    .silent (.store (i := false) rfl) <| .silent (.store (i := false) rfl) <|
    .silent (.unlock (i := false) rfl) <| .silent (.flush (i := false) rfl) <|
    .silent (.flush (i := false) rfl) <| .silent (.flush (i := false) rfl) <|
    .silent (.flush (i := false) rfl) <| .silent (.flush (i := false) rfl) <|
    .silent (.flush (i := false) rfl) <| .event (.ret (i := false) rfl) <|
    .event (.call (i := true) _ ⟨0, 0, false⟩ rfl) <|
    .silent (.next (i := true) rfl rfl) <| .silent (.next (i := true) rfl rfl) <|
    .silent (.next (i := true) rfl rfl) <| .silent (.next (i := true) rfl rfl) <|
    .silent (.cmpxchg (i := true) rfl rfl) <| .silent (.next (i := true) rfl rfl) <|
    .silent (.enter (i := true) rfl) <| .silent (.load (i := true) rfl) <|
    .silent (.load (i := true) rfl) <| .silent (.load (i := true) rfl) <|
    .silent (.load (i := true) rfl) <| .silent (.store (i := true) rfl) <|
    .silent (.load (i := true) rfl) <| .silent (.load (i := true) rfl) <|
    .silent (.store (i := true) rfl) <| .silent (.load (i := true) rfl) <|
    .silent (.load (i := true) rfl) <| .silent (.store (i := true) rfl) <|
    .silent (.store (i := true) rfl) <| .silent (.unlock (i := true) rfl) <|
    .event (.ret (i := true) rfl) <| .nil _⟩

theorem fifo_of_trace_insert_next :
  ∃ f : Fifo Bool Nat, Trace Fifo.Step Fifo.start
    [.call false (.insert 7), .ret false none, .call true .next, .ret true (some 7)] f
  := by
  obtain ⟨s, hs⟩ := insert_next_run
  have hown : Runs Owns {7} [.call false (.insert 7), .ret false none, .call true .next,
      .ret true (some 7)] (Set.insert 7 ({7} \ {7})) :=
    .cons (.insert (Set.mem_singleton 7)) <| .cons .ret <| .cons .next <| .cons .taken <| .nil _
  obtain ⟨f, hf, -⟩ := fifo_of_trace hs hown
  exact ⟨f, hf⟩

end Runs

end Scheduler
