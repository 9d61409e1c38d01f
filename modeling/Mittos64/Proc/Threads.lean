import Mittos64.Proc.Scheduler

/-!
# Freeing the threads of a process

The loop of `process_free` of `proc/process.c` over the threads of the process, and `free_thread`
of `proc/thread.c`.  `free_thread` takes a thread out of the list when there is a next one, and
gives its stack, with the links in it, to `kfree`; the loop then goes on by these links.  So it
reads the links of every thread it frees, and as `LIST_REMOVE` has cleared them, it ends at the
first thread.
-/

universe u

set_option linter.unusedSectionVars false

open DList
open Scheduler (ThreadState)

namespace Reclaim

/-- The processes and their threads. -/
structure Threads (T P : Type u) where
  procState : P → ProcState
  threads : P → Link T
  process : T → P
  state : T → ThreadState
  processThreads : T → Link T

/-- What happens to a thread: its links are read, or its stack is freed. -/
inductive Event (T : Type u) where
  | read (th : T)
  | free (th : T)
  deriving DecidableEq

variable {T P : Type u} [DecidableEq T] [DecidableEq P]

/-- `LIST_REMOVE(th->process->threads, th, process_threads)` -/
def removeThread (s : Threads T P) (th : T) : Threads T P :=
  let l := listRemove (s.threads (s.process th)) s.processThreads th
  { s with threads := Function.update s.threads (s.process th) l.1, processThreads := l.2 }

/-- The thread is running or ready. -/
def Live (s : Threads T P) (th : T) : Prop :=
  s.state th = .running ∨ s.state th = .ready

instance (s : Threads T P) (th : T) : Decidable (Live s th) :=
  inferInstanceAs (Decidable (_ ∨ _))

section Source

variable (schedule : Threads T P → Threads T P) (left : Link T → Link T)

/-- `kfree(stack)`.  `left` says what the memory of the links holds after it. -/
def freeStack (s : Threads T P) (th : T) : Threads T P :=
  { s with processThreads := Function.update s.processThreads th (left (s.processThreads th)) }

/-- `free_thread(th)`, and what happens to threads in it.  It does not return from a live thread. -/
def freeThread (s : Threads T P) (th : T) : Option (List (Event T) × Threads T P) :=
  if Live s th then none
  else
    let s := if ¬ listEmpty (s.processThreads th) then removeThread s th else s
    some ([.read th, .free th], freeStack left s th)

/-- `while(th->state is live) schedule();`, for `fuel` turns -/
def waitThread : Nat → Threads T P → T → Option (Threads T P)
  | 0, _, _ => none
  | fuel + 1, s, th => if Live s th then waitThread fuel (schedule s) th else some s

/-- The `LIST_FOREACH` of `process_free` from the thread `th` on: the next thread is read from the
links after the body. -/
def freeThreads : Nat → Threads T P → Option T → Option (List (Event T) × Threads T P)
  | 0, _, _ => none
  | _ + 1, s, none => some ([], s)
  | fuel + 1, s, some th =>
      match (waitThread schedule fuel s th).bind fun s => freeThread left s th with
      | none => none
      | some (es, s) =>
          match freeThreads fuel s (s.processThreads th).next with
          | none => none
          | some (es', s) => some (es ++ .read th :: es', s)

/-- `process_free(proc)`, as far as it is about threads.  It does not return from an unfinished
process. -/
def processFree (fuel : Nat) (s : Threads T P) (proc : P) :
    Option (List (Event T) × Threads T P) :=
  if s.procState proc ≠ .zombie then none
  else freeThreads schedule left fuel s (listFirst (s.threads proc))

/-- `process_free` returns, frees every one of these threads once, and reads no links of a thread
that it has freed. -/
def Reclaims (s : Threads T P) (proc : P) (ths : List T) : Prop :=
  ∃ fuel es s', processFree schedule left fuel s proc = some (es, s')
    ∧ (∀ th ∈ ths, es.count (.free th) = 1)
    ∧ ∀ pre post th, es = pre ++ .free th :: post → .read th ∉ post

end Source

section Loop

variable {schedule : Threads T P → Threads T P} {left : Link T → Link T} {s s' : Threads T P}
  {proc : P} {th : T} {ths : List T} {es : List (Event T)}

theorem freeThread_events (h : freeThread left s th = some (es, s')) :
  es = [.read th, .free th]
  := by
  rw [freeThread] at h
  by_cases hlive : Live s th
  · rw [if_pos hlive] at h
    exact absurd h nofun
  · rw [if_neg hlive] at h
    obtain ⟨rfl, -⟩ := Prod.mk.inj (Option.some_inj.mp h)
    rfl

/-- The links of the first thread of the loop are read after it has been freed. -/
theorem freeThreads_some {fuel : Nat}
    (h : freeThreads schedule left fuel s (some th) = some (es, s')) :
  ∃ post, es = [.read th] ++ .free th :: .read th :: post
  := by
  cases fuel with
  | zero => exact absurd h nofun
  | succ fuel =>
      rw [freeThreads] at h
      split at h
      · exact absurd h nofun
      · rename_i es₁ s₁ hfree
        obtain ⟨s₀, -, hfree⟩ := Option.bind_eq_some_iff.mp hfree
        obtain rfl := freeThread_events hfree
        split at h
        · exact absurd h nofun
        · rename_i es₂ s₂ _
          obtain ⟨rfl, -⟩ := Prod.mk.inj (Option.some_inj.mp h)
          exact ⟨es₂, rfl⟩

/-- A process with a thread is not freed as it should. -/
theorem not_reclaims (hfirst : listFirst (s.threads proc) = some th) :
  ¬ Reclaims schedule left s proc ths
  := by
  rintro ⟨fuel, es, s', hfree, -, hread⟩
  rw [processFree] at hfree
  split_ifs at hfree
  rw [hfirst] at hfree
  obtain ⟨post, hes⟩ := freeThreads_some hfree
  exact hread _ _ th hes List.mem_cons_self

/-- The threads of a process are freed, once each and with no links read after that, just when there
are none. -/
theorem processFree_reclaims_iff (schedule : Threads T P → Threads T P) (left : Link T → Link T)
    (hzombie : s.procState proc = .zombie)
    (hthreads : Represents (s.threads proc) s.processThreads ths) :
  Reclaims schedule left s proc ths ↔ ths = []
  := by
  constructor
  · intro h
    by_contra hne
    obtain ⟨th, rest, rfl⟩ := List.exists_cons_of_ne_nil hne
    exact not_reclaims hthreads.first h
  · rintro rfl
    have hnone : listFirst (s.threads proc) = none := hthreads.first
    refine ⟨1, [], s, ?_, nofun, ?_⟩
    · rw [processFree, if_neg (not_not.mpr hzombie), hnone, freeThreads]
    · intro pre post th hes
      exact absurd hes (by simp)

/-- When `kfree` leaves the links as they are, the loop ends at the first of the threads, which is
the only one it frees. -/
theorem processFree_frees_first (schedule : Threads T P → Threads T P) {fuel : Nat}
    (hfuel : 1 < fuel) (hzombie : s.procState proc = .zombie)
    (hthreads : Represents (s.threads proc) s.processThreads (th :: ths))
    (hfinished : s.state th = .finished) :
  ∃ s', processFree schedule (fun l => l) fuel s proc
    = some ([.read th, .free th, .read th], s')
  := by
  obtain ⟨fuel, rfl⟩ : ∃ n, fuel = n + 2 := ⟨fuel - 2, by omega⟩
  have hlive : ¬ Live s th := by
    rw [Live, hfinished]
    decide
  have hfree : ∃ s', freeThread (fun l => l) s th = some ([.read th, .free th], s')
      ∧ (s'.processThreads th).next = none := by
    rw [freeThread, if_neg hlive]
    refine ⟨_, rfl, ?_⟩
    simp only [freeStack, Function.update_self]
    by_cases hnext : (s.processThreads th).next = none
    · rw [if_neg (by simp [listEmpty, hnext])]
      exact hnext
    · rw [if_pos (by simp [listEmpty, hnext])]
      simp [removeThread, listRemove, nil]
  obtain ⟨s', hfree, hnext⟩ := hfree
  refine ⟨s', ?_⟩
  have hfirst : listFirst (s.threads proc) = some th := hthreads.first
  rw [processFree, if_neg (not_not.mpr hzombie), hfirst, freeThreads, waitThread, if_neg hlive,
    Option.bind_some, hfree]
  dsimp only
  rw [hnext, freeThreads]
  rfl

end Loop

/-! ### Small processes -/

/-- A finished process with these threads, all of them finished. -/
def zombie (threads : Link Nat) (processThreads : Nat → Link Nat) : Threads Nat Nat where
  procState := fun _ => .zombie
  threads := fun _ => threads
  process := fun _ => 0
  state := fun _ => .finished
  processThreads := processThreads

/-- Two threads. -/
def twoThreads : Threads Nat Nat :=
  zombie ⟨some 2, some 1⟩ fun th => if th = 1 then ⟨none, some 2⟩ else ⟨some 1, none⟩

/-- A process without threads. -/
theorem processFree_reclaims_none :
  Reclaims id id (zombie nil fun _ => nil) 0 []
  := (processFree_reclaims_iff id id rfl Represents.empty).mpr rfl

/-- Of two threads, the first is freed, and its links are read after that; the second is lost. -/
theorem processFree_loses_thread :
  (processFree id id 2 twoThreads 0).map Prod.fst = some [.read 1, .free 1, .read 1]
    ∧ ¬ Reclaims id id twoThreads 0 [1, 2]
  := by
    have hfirst : listFirst (twoThreads.threads 0) = some 1 := rfl
    exact ⟨rfl, not_reclaims hfirst⟩

end Reclaim
