import Mathlib.Data.Nat.ModEq
import Mittos64.Lib.Run
import Mittos64.List

/-!
# The process tree

The part of `proc/process.c` and `syscall/sys_proc.c` that keeps the tree of processes:
`process_spawn`, `process_exit`, `process_free` and one pass of the loop of
`syscall_wait`.  A process structure is a pointer of an arbitrary type, `live` from the
`kcalloc` that returns it to the `kfree` that takes it back; a pointer can be returned
again after it was freed.  The children of a process are an intrusive list through the
`siblings` links.

`TreeOk` says that every process but init hangs below exactly one process that is not
freed.  `process_exit` moves the children of the process to init while it walks over
them through the links it rewrites, so that it stops after the first one: the tree is
kept in the runs in which no process exits with two children or more.
-/

universe u

set_option linter.unusedSectionVars false

open DList

/-- `PROC_STATE_*` -/
inductive ProcState where
  | ready
  | running
  | zombie
  | done
  deriving DecidableEq, Repr

namespace Process

/-- The process structures, with the global `pid` and `init_proc`. -/
structure Processes (P : Type u) where
  nextPid : Nat
  initProc : Option P
  live : P → Bool
  pid : P → Nat
  state : P → ProcState
  status : P → Nat
  parent : P → Option P
  children : P → Link P
  siblings : P → Link P

variable {P : Type u} [DecidableEq P]

/-- Write `proc->status`. -/
@[simps]
def setStatus (s : Processes P) (proc : P) (status : Nat) : Processes P :=
  { s with status := Function.update s.status proc status }

/-- Write `proc->state`. -/
@[simps]
def setState (s : Processes P) (proc : P) (state : ProcState) : Processes P :=
  { s with state := Function.update s.state proc state }

/-- Write `proc->parent`. -/
@[simps]
def setParent (s : Processes P) (proc : P) (parent : Option P) : Processes P :=
  { s with parent := Function.update s.parent proc parent }

/-- `kfree(proc)` -/
@[simps]
def freeProcess (s : Processes P) (proc : P) : Processes P :=
  { s with live := Function.update s.live proc false }

/-- `LIST_APPEND(proc->children, c, siblings)` -/
@[simps]
def appendChild (s : Processes P) (proc c : P) : Processes P :=
  let l := listAppend (s.children proc) s.siblings c
  { s with children := Function.update s.children proc l.1, siblings := l.2 }

/-- `LIST_REMOVE(proc->children, c, siblings)` -/
@[simps]
def removeChild (s : Processes P) (proc c : P) : Processes P :=
  let l := listRemove (s.children proc) s.siblings c
  { s with children := Function.update s.children proc l.1, siblings := l.2 }

/-- The fields `process_spawn` sets in the structure `proc` that `kcalloc` returns. -/
@[simps]
def initProcess (s : Processes P) (proc : P) (parent : Option P) : Processes P :=
  { s with
    nextPid := (s.nextPid + 1) % 2 ^ 64
    live := Function.update s.live proc true
    pid := Function.update s.pid proc s.nextPid
    state := Function.update s.state proc .ready
    status := Function.update s.status proc 0
    parent := Function.update s.parent proc parent
    children := Function.update s.children proc nil
    siblings := Function.update s.siblings proc nil }

/-- `process_spawn(parent)`, but for the memory map and the file descriptors it copies;
`proc` is the structure `kcalloc` returns. -/
def processSpawn (s : Processes P) (proc : P) (parent : Option P) : Processes P :=
  let s := initProcess s proc parent
  let s := match parent with
    | some parent => appendChild s parent proc
    | none => s
  if s.pid proc = 1 then { s with initProc := some proc } else s

/-- The body of the loop of `process_exit`: init adopts the child `c` of `proc`. -/
def adopt (s : Processes P) (proc c init : P) : Processes P :=
  appendChild (setParent (removeChild s proc c) c (some init)) init c

/-- The `LIST_FOREACH` of `process_exit` from the child `c` on: the next child is read
from the links after the body. -/
def adoptAll (proc : P) : Nat → Processes P → Option P → Option (Processes P)
  | 0, _, _ => none
  | _ + 1, s, none => some s
  | fuel + 1, s, some c =>
      match s.initProc with
      | some init =>
          let s := adopt s proc c init
          adoptAll proc fuel s (s.siblings c).next
      | none => none

/-- `process_exit(proc, status)`, but for the file descriptors it closes. -/
def processExit (fuel : Nat) (s : Processes P) (proc : P) (status : Nat) :
    Option (Processes P) :=
  let s := setStatus s proc status
  (adoptAll proc fuel s (s.children proc).next).map (setState · proc .zombie)

/-- `process_free(proc)`, but for the threads and the memory map it frees.  It never
returns from an unfinished process, and has no parent to read in a freed one. -/
def processFree (s : Processes P) (proc : P) : Option (Processes P) :=
  if s.state proc ≠ .zombie then none else
  match s.parent proc with
  | some parent =>
      if s.live parent then
        some (freeProcess (removeChild s parent proc) proc)
      else none
  | none => none

/-- The `LIST_FOREACH` of `syscall_wait` from the child `p` on: the first zombie. -/
def findZombie (s : Processes P) : Nat → Option P → Option P
  | 0, _ => none
  | _ + 1, none => none
  | fuel + 1, some p =>
      if s.state p = .zombie then some p else findZombie s fuel (s.siblings p).next

/-- One pass of the loop of `syscall_wait` that finds a zombie: the child, the value of
the `int pid` it sets, the status it stores, and the processes after the child is
freed. -/
def waitPass (fuel : Nat) (s : Processes P) (proc : P) :
    Option (P × Nat × Nat × Processes P) :=
  (findZombie s fuel (s.children proc).next).bind fun p =>
    (processFree s p).map fun s' => (p, s.pid p % 2 ^ 32, s.status p, s')

/-! ### Runs -/

/-- What a process can do next.  `proc` is the structure `kcalloc` returns to a fork, and
`fuel` bounds the walks over lists of children. -/
inductive Event (P : Type u) where
  | fork (parent proc : P)
  | exit (proc : P) (status fuel : Nat)
  | wait (proc : P) (fuel : Nat)

/-- The processes with their history: each process structure has the number of the fork
that made it, and `collected` has for each collected exit status the waiting process, the
number of the exited process and its parent at that time. -/
structure Config (P : Type u) where
  procs : Processes P
  serial : P → Nat
  forks : Nat
  collected : List (P × Nat × Option P)

/-- A process that is neither freed nor a zombie. -/
def CanRun (s : Processes P) (proc : P) : Prop :=
  s.live proc = true ∧ s.state proc ≠ .zombie

instance (s : Processes P) (proc : P) : Decidable (CanRun s proc) :=
  inferInstanceAs (Decidable (_ ∧ _))

/-- The configuration after an event, if it can happen. -/
def step (k : Config P) : Event P → Option (Config P)
  | .fork parent proc =>
      if CanRun k.procs parent ∧ k.procs.live proc = false then
        some { k with
          procs := processSpawn k.procs proc (some parent)
          serial := Function.update k.serial proc k.forks
          forks := k.forks + 1 }
      else none
  | .exit proc status fuel =>
      if CanRun k.procs proc ∧ k.procs.initProc ≠ some proc then
        (processExit fuel k.procs proc status).map fun s => { k with procs := s }
      else none
  | .wait proc fuel =>
      if CanRun k.procs proc then
        (waitPass fuel k.procs proc).map fun (p, _, _, s) =>
          { k with
            procs := s
            collected := (proc, k.serial p, k.procs.parent p) :: k.collected }
      else none

/-- Init has just been spawned. -/
def Initial (k : Config P) : Prop :=
  ∃ (s : Processes P) (init : P), s.nextPid = 1 ∧ (∀ p, s.live p = false)
    ∧ k.procs = processSpawn s init none ∧ k.forks = 1 ∧ k.serial init = 0 ∧ k.collected = []

/-- Every process that is not freed, but init, is once in the children list of its parent,
which is not freed, and in no other children list. -/
def TreeOk (s : Processes P) : Prop :=
  ∃ kids : P → List P, (∀ q, s.live q → Represents (s.children q) s.siblings (kids q))
    ∧ ∀ p, s.live p → s.initProc ≠ some p →
      ∃ q, s.parent p = some q ∧ s.live q ∧ p ∈ kids q ∧ ∀ q', s.live q' → p ∈ kids q' → q' = q

/-! ### The lists of children -/

/-- The children lists of the processes that are not freed are the lists `kids`, and no
process is in two of them. -/
structure Lists (s : Processes P) (kids : P → List P) : Prop where
  represents : ∀ q, s.live q → Represents (s.children q) s.siblings (kids q)
  disjoint : ∀ q q' p, s.live q → s.live q' → p ∈ kids q → p ∈ kids q' → q = q'

/-- Appending a process that is in no list to the children of `proc`. -/
theorem Lists.append {s : Processes P} {kids : P → List P} {proc c : P}
    (h : Lists s kids) (hproc : s.live proc) (hc : ∀ q, s.live q → c ∉ kids q) :
  Lists (appendChild s proc c) (Function.update kids proc (kids proc ++ [c]))
  := by
  have hmem : ∀ q p, p ∈ Function.update kids proc (kids proc ++ [c]) q →
      p ∈ kids q ∨ (q = proc ∧ p = c) := by
    intro q p hp
    rw [Function.update_apply] at hp
    split_ifs at hp with e
    · simpa [e] using hp
    · exact Or.inl hp
  constructor
  · intro q hq
    simp only [appendChild_live] at hq
    by_cases e : q = proc
    · subst e
      simp only [appendChild_children, Function.update_self]
      exact listAppend_represents (h.represents q hq) (hc q hq)
    · simp only [appendChild_children, Function.update_of_ne e]
      apply (h.represents q hq).congr
      intro x hx
      apply listAppend_of_notMem (h.represents proc hproc)
      · intro hx'
        exact e (h.disjoint q proc x hq hproc hx hx')
      · rintro rfl
        exact hc q hq hx
  · intro q q' p hq hq' hp hp'
    rcases hmem q p hp with hp | ⟨hqe, hpe⟩
    · rcases hmem q' p hp' with hp' | ⟨-, hpe⟩
      · exact h.disjoint q q' p hq hq' hp hp'
      · exact absurd (hpe ▸ hp) (hc q hq)
    · rcases hmem q' p hp' with hp' | ⟨hqe', -⟩
      · exact absurd (hpe ▸ hp') (hc q' hq')
      · rw [hqe, hqe']

/-- Removing a child of `proc` from its children. -/
theorem Lists.remove {s : Processes P} {kids : P → List P} {proc c : P}
    (h : Lists s kids) (hproc : s.live proc) (hc : c ∈ kids proc) :
  Lists (removeChild s proc c) (Function.update kids proc ((kids proc).erase c))
  := by
  have hmem : ∀ q p, p ∈ Function.update kids proc ((kids proc).erase c) q → p ∈ kids q := by
    intro q p hp
    rw [Function.update_apply] at hp
    split_ifs at hp with e
    · rw [e]
      exact List.mem_of_mem_erase hp
    · exact hp
  constructor
  · intro q hq
    simp only [removeChild_live] at hq
    by_cases e : q = proc
    · subst e
      obtain ⟨xs, ys, hxs, hsplit, herase⟩ := List.exists_erase_eq hc
      have hrep := h.represents q hq
      rw [hsplit] at hrep
      simp only [removeChild_children, Function.update_self, herase]
      exact listRemove_represents hrep
    · simp only [removeChild_children, Function.update_of_ne e]
      apply (h.represents q hq).congr
      intro x hx
      apply listRemove_of_notMem (h.represents proc hproc) hc
      intro hx'
      exact e (h.disjoint q proc x hq hproc hx hx')
  · intro q q' p hq hq' hp hp'
    exact h.disjoint q q' p hq hq' (hmem q p hp) (hmem q' p hp')

/-- The lists do not depend on the other fields, nor on who else is freed. -/
theorem Lists.congr {s s' : Processes P} {kids : P → List P} (h : Lists s kids)
    (hlive : ∀ q, s'.live q → s.live q) (hchildren : s'.children = s.children)
    (hsiblings : s'.siblings = s.siblings) :
  Lists s' kids
  := by
  constructor
  · intro q hq
    rw [hchildren, hsiblings]
    exact h.represents q (hlive q hq)
  · intro q q' p hq hq'
    exact h.disjoint q q' p (hlive q hq) (hlive q' hq')

/-! ### The invariant -/

/-- The invariant: `init` is init and runs, the lists of children are `kids`, a process is
listed exactly below its parent, and a zombie has no children. -/
structure Family (s : Processes P) (kids : P → List P) (init : P) : Prop where
  initProc : s.initProc = some init
  initRuns : CanRun s init
  lists : Lists s kids
  kid : ∀ q p, s.live q → p ∈ kids q → s.live p ∧ s.parent p = some q ∧ p ≠ init
  hangs : ∀ p, s.live p → p ≠ init → ∃ q, s.live q ∧ p ∈ kids q
  zombie : ∀ q, s.live q → s.state q = .zombie → kids q = []

theorem Family.treeOk {s : Processes P} {kids : P → List P} {init : P}
    (h : Family s kids init) :
  TreeOk s
  := by
  use kids, h.lists.represents
  intro p hp hinit
  rw [h.initProc] at hinit
  obtain ⟨q, hq, hmem⟩ := h.hangs p hp (fun e => hinit (congrArg some e.symm))
  use q, (h.kid q p hq hmem).2.1, hq, hmem
  intro q' hq' hmem'
  exact h.lists.disjoint q' q p hq' hq hmem' hmem

/-- A new process structure has an empty list and is in none. -/
theorem Family.initProcess {s : Processes P} {kids : P → List P} {init proc : P}
    (h : Family s kids init) (hproc : s.live proc = false) (parent : Option P) :
  Lists (Process.initProcess s proc parent) (Function.update kids proc [])
    ∧ ∀ q, (Process.initProcess s proc parent).live q → proc ∉ Function.update kids proc [] q
  := by
  have hlive : ∀ q, (Process.initProcess s proc parent).live q → q ≠ proc → s.live q := by
    intro q hq hne
    simpa [hne] using hq
  have hout : ∀ q, s.live q → proc ∉ kids q := by
    intro q hq hmem
    simpa [hproc] using (h.kid q proc hq hmem).1
  constructor
  · constructor
    · intro q hq
      by_cases e : q = proc
      · subst e
        simp only [initProcess_children, Function.update_self]
        exact Represents.empty
      · simp only [initProcess_children, Function.update_of_ne e]
        apply (h.lists.represents q (hlive q hq e)).congr
        intro x hx
        simp only [initProcess_siblings]
        apply Function.update_of_ne
        rintro rfl
        exact hout q (hlive q hq e) hx
    · intro q q' p hq hq' hp hp'
      by_cases e : q = proc
      · simp [e] at hp
      by_cases e' : q' = proc
      · simp [e'] at hp'
      rw [Function.update_of_ne e] at hp
      rw [Function.update_of_ne e'] at hp'
      exact h.lists.disjoint q q' p (hlive q hq e) (hlive q' hq' e') hp hp'
  · intro q hq
    by_cases e : q = proc
    · simp [e]
    · rw [Function.update_of_ne e]
      exact hout q (hlive q hq e)

/-- A fork hangs the new process below the parent. -/
theorem Family.spawn {s : Processes P} {kids : P → List P} {init parent proc : P}
    (h : Family s kids init) (hparent : CanRun s parent) (hproc : s.live proc = false)
    (hpid : s.nextPid ≠ 1) :
  Family (processSpawn s proc (some parent))
    (Function.update (Function.update kids proc []) parent (kids parent ++ [proc])) init
  := by
  have hspawn : processSpawn s proc (some parent)
      = appendChild (Process.initProcess s proc (some parent)) parent proc := by
    simp [processSpawn, hpid]
  have hne : parent ≠ proc := by
    rintro rfl
    simp [hparent.1] at hproc
  have hinit : init ≠ proc := by
    rintro rfl
    simp [h.initRuns.1] at hproc
  obtain ⟨hlists, hout⟩ := h.initProcess hproc (some parent)
  have hkids : Function.update (Function.update kids proc []) parent (kids parent ++ [proc])
      = Function.update (Function.update kids proc []) parent
        (Function.update kids proc [] parent ++ [proc]) := by
    rw [Function.update_of_ne hne]
  have hmem : ∀ q p, p ∈ Function.update (Function.update kids proc []) parent
      (kids parent ++ [proc]) q → (q = parent ∧ p = proc) ∨ (q ≠ proc ∧ p ∈ kids q) := by
    intro q p hp
    by_cases e : q = parent
    · subst e
      simp at hp
      tauto
    · rw [Function.update_of_ne e, Function.update_apply] at hp
      split_ifs at hp with e'
      · simp at hp
      · exact Or.inr ⟨e', hp⟩
  rw [hspawn]
  constructor
  · exact h.initProc
  · simpa [CanRun, hinit] using h.initRuns
  · rw [hkids]
    apply hlists.append _ hout
    simpa [hne] using hparent.1
  · intro q p hq hp
    simp only [appendChild_live, initProcess_live, appendChild_parent, initProcess_parent] at hq ⊢
    rcases hmem q p hp with ⟨rfl, rfl⟩ | ⟨hq', hp⟩
    · simp [hinit.symm]
    · rw [Function.update_of_ne hq'] at hq
      obtain ⟨hlive, hpar, hpi⟩ := h.kid q p hq hp
      have hpp : p ≠ proc := by
        rintro rfl
        simp [hlive] at hproc
      simp [hpp, hlive, hpar, hpi]
  · intro p hp hpi
    simp only [appendChild_live, initProcess_live] at hp ⊢
    by_cases e : p = proc
    · use parent
      simp [e, hne, hparent.1]
    · rw [Function.update_of_ne e] at hp
      obtain ⟨q, hq, hpq⟩ := h.hangs p hp hpi
      have hqp : q ≠ proc := by
        rintro rfl
        simp [hq] at hproc
      use q
      rw [Function.update_of_ne hqp, Function.update_apply]
      use hq
      split_ifs with eq
      · subst eq
        simp [hpq]
      · rwa [Function.update_of_ne hqp]
  · intro q hq hz
    simp only [appendChild_live, initProcess_live, appendChild_state, initProcess_state] at hq hz
    have hqp : q ≠ proc := by
      rintro rfl
      simp at hz
    rw [Function.update_of_ne hqp] at hq hz
    have hqe : q ≠ parent := by
      rintro rfl
      exact hparent.2 hz
    rw [Function.update_of_ne hqe, Function.update_of_ne hqp]
    exact h.zombie q hq hz

/-- Init adopts the child `c` of `proc`. -/
theorem Family.adopt {s : Processes P} {kids : P → List P} {init proc c : P}
    (h : Family s kids init) (hproc : s.live proc) (hne : proc ≠ init) (hc : c ∈ kids proc) :
  Family (Process.adopt s proc c init)
    (Function.update (Function.update kids proc ((kids proc).erase c)) init (kids init ++ [c]))
    init
  := by
  obtain ⟨hclive, hcpar, hci⟩ := h.kid proc c hproc hc
  have hremove := h.lists.remove hproc hc
  have hcout : ∀ q, s.live q → c ∉ Function.update kids proc ((kids proc).erase c) q := by
    intro q hq hmem
    by_cases e : q = proc
    · subst e
      rw [Function.update_self] at hmem
      exact (h.lists.represents q hq).nodup.not_mem_erase hmem
    · rw [Function.update_of_ne e] at hmem
      exact e (h.lists.disjoint q proc c hq hproc hmem hc)
  have happend : Lists (Process.adopt s proc c init)
      (Function.update (Function.update kids proc ((kids proc).erase c)) init
        (kids init ++ [c])) := by
    have hparent : Lists (setParent (removeChild s proc c) c (some init))
        (Function.update kids proc ((kids proc).erase c)) := hremove.congr (fun _ => id) rfl rfl
    have hinit := hparent.append h.initRuns.1 hcout
    rwa [Function.update_of_ne hne.symm] at hinit
  have hmem : ∀ q p, s.live q → p ∈ Function.update (Function.update kids proc
      ((kids proc).erase c)) init (kids init ++ [c]) q →
        (q = init ∧ p = c) ∨ (p ≠ c ∧ p ∈ kids q) := by
    intro q p hq hp
    by_cases e : q = init
    · subst e
      rw [Function.update_self, List.mem_append, List.mem_singleton] at hp
      rcases hp with hp | rfl
      · right
        constructor
        · rintro rfl
          exact hne (h.lists.disjoint proc q p hproc hq hc hp)
        · exact hp
      · exact Or.inl ⟨rfl, rfl⟩
    · right
      rw [Function.update_of_ne e] at hp
      constructor
      · rintro rfl
        exact hcout q hq hp
      · rw [Function.update_apply] at hp
        split_ifs at hp with e'
        · rw [e']
          exact List.mem_of_mem_erase hp
        · exact hp
  constructor
  · exact h.initProc
  · exact h.initRuns
  · exact happend
  · intro q p hq hp
    rcases hmem q p hq hp with ⟨rfl, rfl⟩ | ⟨hpc, hp⟩
    · exact ⟨hclive, Function.update_self _ _ _, hci⟩
    · obtain ⟨hlive, hpar, hpi⟩ := h.kid q p hq hp
      use hlive
      constructor
      · exact (Function.update_of_ne hpc _ _).trans hpar
      · exact hpi
  · intro p hp hpi
    by_cases e : p = c
    · use init, h.initRuns.1
      simp [e]
    · obtain ⟨q, hq, hpq⟩ := h.hangs p hp hpi
      use q, hq
      rw [Function.update_apply]
      split_ifs with eq
      · subst eq
        exact List.mem_append_left [c] hpq
      · rw [Function.update_apply]
        split_ifs with eq'
        · subst eq'
          exact (List.mem_erase_of_ne e).mpr hpq
        · exact hpq
  · intro q hq hz
    have hnil := h.zombie q hq hz
    have hqi : q ≠ init := by
      rintro rfl
      exact h.initRuns.2 hz
    have hqp : q ≠ proc := by
      rintro rfl
      simp [hnil] at hc
    rw [Function.update_of_ne hqi, Function.update_of_ne hqp]
    exact hnil

theorem Family.setStatus {s : Processes P} {kids : P → List P} {init : P}
    (h : Family s kids init) (proc : P) (status : Nat) :
  Family (Process.setStatus s proc status) kids init
  := by
  obtain ⟨initProc, initRuns, lists, kid, hangs, zombie⟩ := h
  exact ⟨initProc, initRuns, lists.congr (fun _ => id) rfl rfl, kid, hangs, zombie⟩

/-- A process without children becomes a zombie. -/
theorem Family.zombify {s : Processes P} {kids : P → List P} {init proc : P}
    (h : Family s kids init) (hne : proc ≠ init) (hkids : kids proc = []) :
  Family (setState s proc .zombie) kids init
  := by
  obtain ⟨initProc, ⟨hlive, hrun⟩, lists, kid, hangs, zombie⟩ := h
  constructor
  · exact initProc
  · simp [CanRun, hlive, hne.symm, hrun]
  · exact lists.congr (fun _ => id) rfl rfl
  · exact kid
  · exact hangs
  · intro q hq hz
    by_cases e : q = proc
    · rw [e, hkids]
    · apply zombie q hq
      simpa [e] using hz

/-- The links of a process appended to a list it is not in have no next one. -/
theorem adopt_next {s : Processes P} {kids : P → List P} {init proc c : P}
    (h : Family s kids init) (hproc : s.live proc) (hne : proc ≠ init) (hc : c ∈ kids proc) :
  ((adopt s proc c init).siblings c).next = none
  := by
  have hinit := (h.adopt hproc hne hc).lists.represents init h.initRuns.1
  rw [Function.update_self] at hinit
  rw [hinit.links]
  rfl

/-- What `process_exit` does to a process with at most one child. -/
theorem Family.exit {s : Processes P} {kids : P → List P} {init proc : P}
    (h : Family s kids init) (hproc : s.live proc) (hne : proc ≠ init)
    (hends : (s.children proc).next = (s.children proc).prev) (status : Nat) :
  ∃ s' kids', Family s' kids' init ∧ kids' proc = []
    ∧ (∀ c ∈ kids proc, s'.parent c = some init ∧ c ∈ kids' init)
    ∧ s'.live = s.live ∧ s'.initProc = s.initProc
    ∧ ∀ fuel, processExit fuel s proc status = none ∧ fuel < 2
      ∨ processExit fuel s proc status = some s'
  := by
  have hrep := h.lists.represents proc hproc
  have hstatus := h.setStatus proc status
  rcases hrep.eq_nil_or_singleton hends with hkids | ⟨c, hkids⟩
  · have hfirst : (s.children proc).next = none := by rw [hrep.first, hkids]; rfl
    refine ⟨setState (Process.setStatus s proc status) proc .zombie, kids,
      hstatus.zombify hne hkids, hkids, by simp [hkids], rfl, rfl, ?_⟩
    intro fuel
    cases fuel with
    | zero => exact Or.inl ⟨rfl, by omega⟩
    | succ fuel =>
        right
        simp [processExit, adoptAll, hfirst]
  · have hfirst : (s.children proc).next = some c := by rw [hrep.first, hkids]; rfl
    have hc : c ∈ kids proc := by simp [hkids]
    have hempty : Function.update (Function.update kids proc ((kids proc).erase c)) init
        (kids init ++ [c]) proc = [] := by
      simp [hne, hkids]
    have hnext := adopt_next hstatus hproc hne hc
    refine ⟨setState (Process.adopt (Process.setStatus s proc status) proc c init) proc .zombie,
      _, (hstatus.adopt hproc hne hc).zombify hne hempty, hempty, ?_, rfl, rfl, ?_⟩
    · intro c' hc'
      obtain rfl : c' = c := by simpa [hkids] using hc'
      constructor
      · exact Function.update_self _ _ _
      · simp
    · intro fuel
      match fuel with
      | 0 => exact Or.inl ⟨rfl, by omega⟩
      | 1 =>
          left
          simp [processExit, adoptAll, hfirst, h.initProc]
      | fuel + 2 =>
          right
          simp [processExit, adoptAll, hfirst, h.initProc, hnext]

/-- The walk of `syscall_wait` finds only zombies among the children. -/
theorem findZombie_mem {s : Processes P} {head : Link P} {p : P} :
  ∀ (fuel : Nat) (xs ys : List P), Represents head s.siblings (xs ++ ys) →
    findZombie s fuel ys.head? = some p → p ∈ ys ∧ s.state p = .zombie
  | 0, _, _, _, h => by simp [findZombie] at h
  | _ + 1, _, [], _, h => by simp [findZombie] at h
  | fuel + 1, xs, y :: ys, hrep, h => by
      simp only [findZombie, List.head?_cons] at h
      split_ifs at h with hz
      · obtain rfl := Option.some.inj h
        exact ⟨List.mem_cons_self, hz⟩
      · rw [hrep.links] at h
        obtain ⟨hmem, hzombie⟩ := findZombie_mem fuel (xs ++ [y]) ys (by simpa using hrep) h
        exact ⟨List.mem_cons_of_mem y hmem, hzombie⟩

/-- With enough fuel the walk of `syscall_wait` finds a zombie if there is one. -/
theorem findZombie_returns {s : Processes P} {head : Link P} {p : P}
    (hz : s.state p = .zombie) :
  ∀ (xs ys : List P), Represents head s.siblings (xs ++ ys) → p ∈ ys →
    ∃ q, findZombie s (ys.length + 1) ys.head? = some q
  | _, [], _, h => by simp at h
  | xs, y :: ys, hrep, h => by
      simp only [findZombie, List.head?_cons, List.length_cons]
      split_ifs with hy
      · exact ⟨y, rfl⟩
      · rw [hrep.links]
        apply findZombie_returns hz (xs ++ [y]) ys (by simpa using hrep)
        rcases List.mem_cons.mp h with rfl | h
        · exact absurd hz hy
        · exact h

/-- Freeing a zombie takes it out of the tree. -/
theorem Family.free {s : Processes P} {kids : P → List P} {init proc p : P}
    (h : Family s kids init) (hproc : s.live proc) (hp : p ∈ kids proc)
    (hz : s.state p = .zombie) :
  processFree s p = some (freeProcess (removeChild s proc p) p)
    ∧ Family (freeProcess (removeChild s proc p) p)
      (Function.update kids proc ((kids proc).erase p)) init
  := by
  obtain ⟨hlive, hpar, hpi⟩ := h.kid proc p hproc hp
  have hout : ∀ q, (freeProcess (removeChild s proc p) p).live q → s.live q ∧ q ≠ p := by
    intro q hq
    simp only [freeProcess_live, removeChild_live, Function.update_apply] at hq
    split_ifs at hq with e
    exact ⟨hq, e⟩
  have hremove : Lists (freeProcess (removeChild s proc p) p)
      (Function.update kids proc ((kids proc).erase p)) :=
    (h.lists.remove hproc hp).congr (fun q hq => (hout q hq).1) rfl rfl
  constructor
  · simp [processFree, hz, hpar, hproc]
  · constructor
    · exact h.initProc
    · obtain ⟨hi, hr⟩ := h.initRuns
      exact ⟨by simp [hpi.symm, hi], hr⟩
    · exact hremove
    · intro q p' hfree hp'
      obtain ⟨hq, -⟩ := hout q hfree
      have hmem : p' ∈ kids q ∧ p' ≠ p := by
        rw [Function.update_apply] at hp'
        split_ifs at hp' with e
        · subst e
          exact ((h.lists.represents q hq).nodup.mem_erase_iff.mp hp').symm
        · use hp'
          rintro rfl
          exact e (h.lists.disjoint q proc p' hq hproc hp' hp)
      obtain ⟨hlive', hpar', hpi'⟩ := h.kid q p' hq hmem.1
      exact ⟨by simp [hmem.2, hlive'], hpar', hpi'⟩
    · intro p' hp' hpi'
      obtain ⟨hp', hne⟩ := hout p' hp'
      obtain ⟨q, hq, hmem⟩ := h.hangs p' hp' hpi'
      have hqp : q ≠ p := by
        rintro rfl
        simp [h.zombie q hq hz] at hmem
      use q
      constructor
      · simp [hqp, hq]
      · rw [Function.update_apply]
        split_ifs with e
        · subst e
          exact (List.mem_erase_of_ne hne).mpr hmem
        · exact hmem
    · intro q hq hzq
      obtain ⟨hq, -⟩ := hout q hq
      have hnil := h.zombie q hq hzq
      rw [Function.update_apply]
      split_ifs with e
      · rw [← e, hnil]
        rfl
      · exact hnil

/-- Init is alone at the start. -/
theorem family_initial {s : Processes P} {init : P} (hpid : s.nextPid = 1)
    (hlive : ∀ p, s.live p = false) :
  Family (processSpawn s init none) (fun _ => []) init
  := by
  have hspawn : processSpawn s init none
      = { initProcess s init none with initProc := some init } := by
    simp [processSpawn, hpid]
  have honly : ∀ q, (processSpawn s init none).live q → q = init := by
    intro q hq
    by_contra hne
    simp [hspawn, hne, hlive] at hq
  constructor
  · simp [hspawn]
  · simp [CanRun, hspawn]
  · constructor
    · intro q hq
      obtain rfl := honly q hq
      simp only [hspawn, initProcess_children, Function.update_self]
      exact Represents.empty
    · simp
  · simp
  · intro p hp hne
    exact absurd (honly p hp) hne
  · simp

/-- Spawning a process makes it the one more that is not freed. -/
theorem processSpawn_live (s : Processes P) (proc : P) (parent : Option P) :
  (processSpawn s proc parent).live = Function.update s.live proc true
  := by
  cases parent with
  | none =>
      simp only [processSpawn]
      split_ifs <;> rfl
  | some parent =>
      simp only [processSpawn]
      split_ifs <;> rfl

/-! ### Collected exit statuses -/

/-- The history: processes that are not freed have numbers of their own, and every
collected status is of a process that is freed, was collected once, and by its parent. -/
structure History (k : Config P) : Prop where
  fresh : ∀ p, k.procs.live p → k.serial p < k.forks
  injective : ∀ p q, k.procs.live p → k.procs.live q → k.serial p = k.serial q → p = q
  past : ∀ e ∈ k.collected, e.2.1 < k.forks
  gone : ∀ e ∈ k.collected, ∀ p, k.procs.live p → k.serial p ≠ e.2.1
  once : (k.collected.map (·.2.1)).Nodup
  byParent : ∀ e ∈ k.collected, e.2.2 = some e.1

/-- The events that keep the tree: no process exits with two children, and the 64-bit
`pid` counter does not come round to the number of init. -/
def Safe (k : Config P) : Event P → Prop
  | .fork _ _ => k.procs.nextPid ≠ 1
  | .exit proc _ _ => (k.procs.children proc).next = (k.procs.children proc).prev
  | .wait _ _ => True

/-- A fork takes the next number. -/
theorem History.fork {k : Config P} (h : History k) {proc : P} (parent : Option P)
    (hproc : k.procs.live proc = false) :
  History { k with
    procs := processSpawn k.procs proc parent
    serial := Function.update k.serial proc k.forks
    forks := k.forks + 1 }
  := by
  obtain ⟨fresh, injective, past, gone, once, byParent⟩ := h
  have hlive : ∀ p, (processSpawn k.procs proc parent).live p →
      p = proc ∨ (p ≠ proc ∧ k.procs.live p) := by
    intro p hp
    rw [processSpawn_live, Function.update_apply] at hp
    split_ifs at hp with e
    · exact Or.inl e
    · exact Or.inr ⟨e, hp⟩
  constructor
  · intro p hp
    rcases hlive p hp with rfl | ⟨hne, hp⟩
    · simp
    · simpa [hne] using Nat.lt_succ_of_lt (fresh p hp)
  · intro p q hp hq heq
    dsimp only at heq
    rcases hlive p hp with hpe | ⟨hne, hp'⟩
    · rcases hlive q hq with hqe | ⟨hne', hq'⟩
      · rw [hpe, hqe]
      · rw [hpe, Function.update_self, Function.update_of_ne hne'] at heq
        exact absurd heq.symm (Nat.ne_of_lt (fresh q hq'))
    · rcases hlive q hq with hqe | ⟨hne', hq'⟩
      · rw [hqe, Function.update_self, Function.update_of_ne hne] at heq
        exact absurd heq (Nat.ne_of_lt (fresh p hp'))
      · rw [Function.update_of_ne hne, Function.update_of_ne hne'] at heq
        exact injective p q hp' hq' heq
  · intro e he
    exact Nat.lt_succ_of_lt (past e he)
  · intro e he p hp
    rcases hlive p hp with rfl | ⟨hne, hp⟩
    · simpa using Nat.ne_of_gt (past e he)
    · simpa [hne] using gone e he p hp
  · exact once
  · exact byParent

/-- A collected process is freed, by its parent. -/
theorem History.collect {k : Config P} (h : History k) {proc p : P} {s : Processes P}
    (hp : k.procs.live p) (hparent : k.procs.parent p = some proc)
    (hlive : s.live = Function.update k.procs.live p false) :
  History { k with
    procs := s
    collected := (proc, k.serial p, k.procs.parent p) :: k.collected }
  := by
  obtain ⟨fresh, injective, past, gone, once, byParent⟩ := h
  have hout : ∀ q, s.live q → k.procs.live q ∧ q ≠ p := by
    intro q hq
    rw [hlive, Function.update_apply] at hq
    split_ifs at hq with e
    exact ⟨hq, e⟩
  constructor
  · intro q hq
    exact fresh q (hout q hq).1
  · intro q q' hq hq'
    exact injective q q' (hout q hq).1 (hout q' hq').1
  · intro e he
    rcases List.mem_cons.mp he with rfl | he
    · exact fresh p hp
    · exact past e he
  · intro e he q hq
    rcases List.mem_cons.mp he with rfl | he
    · intro heq
      exact (hout q hq).2 (injective q p (hout q hq).1 hp heq)
    · exact gone e he q (hout q hq).1
  · rw [List.map_cons, List.nodup_cons]
    constructor
    · intro hmem
      obtain ⟨e, he, heq⟩ := List.mem_map.mp hmem
      exact gone e he p hp heq.symm
    · exact once
  · intro e he
    rcases List.mem_cons.mp he with rfl | he
    · exact hparent
    · exact byParent e he

/-- What `syscall_wait` collects is a child of the process that waits. -/
theorem Family.wait {s : Processes P} {kids : P → List P} {init proc : P} {fuel : Nat}
    {r : P × Nat × Nat × Processes P} (h : Family s kids init) (hproc : s.live proc)
    (hpass : waitPass fuel s proc = some r) :
  r.1 ∈ kids proc ∧ r.2.2.2 = freeProcess (removeChild s proc r.1) r.1
    ∧ Family r.2.2.2 (Function.update kids proc ((kids proc).erase r.1)) init
  := by
  obtain ⟨p, hfind, hmap⟩ := Option.bind_eq_some_iff.mp hpass
  obtain ⟨s', hfree, rfl⟩ := Option.map_eq_some_iff.mp hmap
  have hrep := h.lists.represents proc hproc
  rw [hrep.first] at hfind
  obtain ⟨hmem, hz⟩ := findZombie_mem _ [] _ hrep hfind
  obtain ⟨hfree', hfam⟩ := h.free hproc hmem hz
  obtain rfl : s' = _ := Option.some.inj (hfree.symm.trans hfree')
  exact ⟨hmem, rfl, hfam⟩

/-- Every safe event keeps the tree and the history. -/
theorem family_step {k k' : Config P} {e : Event P} {kids : P → List P} {init : P}
    (h : Family k.procs kids init) (hist : History k) (hsafe : Safe k e)
    (hstep : step k e = some k') :
  (∃ kids', Family k'.procs kids' init) ∧ History k'
  := by
  cases e with
  | fork parent proc =>
      simp only [step] at hstep
      split_ifs at hstep with hrun
      obtain rfl := Option.some.inj hstep
      exact ⟨⟨_, h.spawn hrun.1 hrun.2 hsafe⟩, hist.fork (some parent) hrun.2⟩
  | exit proc status fuel =>
      simp only [step] at hstep
      split_ifs at hstep with hrun
      obtain ⟨s, hexit, rfl⟩ := Option.map_eq_some_iff.mp hstep
      obtain ⟨⟨hproc, -⟩, hinit⟩ := hrun
      have hne : proc ≠ init := by
        rintro rfl
        exact hinit h.initProc
      obtain ⟨s', kids', hfam, -, -, hlive, -, hall⟩ := h.exit hproc hne hsafe status
      obtain rfl : s' = s := by
        rcases hall fuel with ⟨hnone, -⟩ | hsome
        · simp [hnone] at hexit
        · exact Option.some.inj (hsome.symm.trans hexit)
      constructor
      · exact ⟨kids', hfam⟩
      · obtain ⟨fresh, injective, past, gone, once, byParent⟩ := hist
        constructor <;> simp only [hlive] <;> assumption
  | wait proc fuel =>
      simp only [step] at hstep
      split_ifs at hstep with hrun
      obtain ⟨r, hpass, rfl⟩ := Option.map_eq_some_iff.mp hstep
      obtain ⟨hmem, hfree, hfam⟩ := h.wait hrun.1 hpass
      obtain ⟨hlive, hpar, -⟩ := h.kid proc r.1 hrun.1 hmem
      constructor
      · exact ⟨_, hfam⟩
      · apply hist.collect hlive hpar
        rw [hfree]
        rfl

/-- Init is alone at the start, and nothing is collected. -/
theorem family_start {k : Config P} (h : Initial k) :
  (∃ kids init, Family k.procs kids init) ∧ History k
  := by
  obtain ⟨s, init, hpid, hlive, hprocs, hforks, hserial, hcoll⟩ := h
  constructor
  · use fun _ => [], init
    rw [hprocs]
    exact family_initial hpid hlive
  · have honly : ∀ q, k.procs.live q → q = init := by
      intro q hq
      by_contra hne
      simp [hprocs, processSpawn_live, hne, hlive] at hq
    constructor
    · intro p hp
      rw [honly p hp, hserial, hforks]
      exact Nat.one_pos
    · intro p q hp hq _
      rw [honly p hp, honly q hq]
    all_goals simp [hcoll]

/-- In every run of forks, exits and waits in which no process exits with two children and
the `pid` counter does not come round, the processes form a tree; an exiting process hands
its children to init; and every exit status is collected at most once, by the parent. -/
theorem tree_of_safe_run (k : Config P)
    (h : Reachable Initial (fun k k' => ∃ e, Safe k e ∧ step k e = some k') k) :
  TreeOk k.procs
    ∧ (∀ proc status fuel, CanRun k.procs proc → k.procs.initProc ≠ some proc →
      Safe k (.exit proc status fuel) → 2 ≤ fuel →
      ∃ s init adopted, processExit fuel k.procs proc status = some s
        ∧ s.children proc = nil ∧ s.initProc = some init
        ∧ Represents (s.children init) s.siblings adopted
        ∧ ∀ former, Represents (k.procs.children proc) k.procs.siblings former →
          ∀ c ∈ former, s.parent c = some init ∧ c ∈ adopted)
    ∧ (k.collected.map (·.2.1)).Nodup ∧ ∀ e ∈ k.collected, e.2.2 = some e.1
  := by
  have hinv : (∃ kids init, Family k.procs kids init) ∧ History k := by
    induction h with
    | start h => exact family_start h
    | next _ hstep ih =>
        obtain ⟨e, hsafe, hstep⟩ := hstep
        obtain ⟨⟨kids, init, hfam⟩, hist⟩ := ih
        obtain ⟨⟨kids', hfam'⟩, hist'⟩ := family_step hfam hist hsafe hstep
        exact ⟨⟨kids', init, hfam'⟩, hist'⟩
  obtain ⟨⟨kids, init, hfam⟩, hist⟩ := hinv
  refine ⟨hfam.treeOk, ?_, hist.once, hist.byParent⟩
  intro proc status fuel hrun hinit hends hfuel
  have hne : proc ≠ init := by
    rintro rfl
    exact hinit hfam.initProc
  obtain ⟨s, kids', hfam', hempty, hadopted, hlive, -, hall⟩ :=
    hfam.exit hrun.1 hne hends status
  have hexit : processExit fuel k.procs proc status = some s := by
    rcases hall fuel with ⟨-, hlt⟩ | hsome
    · omega
    · exact hsome
  have hproc : s.live proc := by rw [hlive]; exact hrun.1
  have hnil := hfam'.lists.represents proc hproc
  rw [hempty] at hnil
  refine ⟨s, init, kids' init, hexit, Link.ext hnil.last hnil.first, hfam'.initProc,
    hfam'.lists.represents init hfam'.initRuns.1, ?_⟩
  intro former hformer c hc
  apply hadopted
  rwa [(hfam.lists.represents proc hrun.1).unique hformer]

/-- No process yet. -/
def noProcesses : Processes Nat :=
  ⟨1, none, fun _ => false, fun _ => 0, fun _ => .done, fun _ => 0, fun _ => none, fun _ => nil,
    fun _ => nil⟩

/-- One process, init, at the address 0. -/
def onlyInit : Config Nat where
  procs := processSpawn noProcesses 0 none
  serial := fun _ => 0
  forks := 1
  collected := []

theorem onlyInit_initial :
  Initial onlyInit
  := ⟨noProcesses, 0, rfl, fun _ => rfl, rfl, rfl, rfl, rfl⟩

/-- Init forks a child, which exits and is collected. -/
theorem tree_of_safe_run_one_child :
  ∃ k, [.fork 0 1, .exit 1 7 2, .wait 0 2].foldlM step onlyInit = some k
    ∧ k.collected = [(0, 1, some 0)] ∧ TreeOk k.procs
  := by
  refine ⟨_, rfl, rfl, ?_⟩
  apply (tree_of_safe_run _ _).1
  refine .next (.next (.next (.start onlyInit_initial) ⟨.fork 0 1, ?_, rfl⟩)
    ⟨.exit 1 7 2, rfl, rfl⟩) ⟨.wait 0 2, trivial, rfl⟩
  simp [Safe, onlyInit, noProcesses, processSpawn]

/-- A child of init forks twice and exits.  Init adopts the first child only, and once it
has collected the child of its own, the other one has a freed parent. -/
theorem tree_lost_after_exit_with_two_children :
  ∃ k : Config Nat,
    Reachable Initial (fun k k' => ∃ e, step k e = some k') k ∧ ¬ TreeOk k.procs
  := by
  have hrun : ∃ k, [.fork 0 1, .fork 1 2, .fork 1 3, .exit 1 0 9, .wait 0 9].foldlM step onlyInit
      = some k ∧ k.procs.live 3 = true ∧ k.procs.initProc = some 0
        ∧ k.procs.parent 3 = some 1 ∧ k.procs.live 1 = false :=
    ⟨_, rfl, rfl, rfl, rfl, rfl⟩
  obtain ⟨k, hrun, hlive, hinit, hparent, hfreed⟩ := hrun
  use k, Reachable.run (.start onlyInit_initial) hrun
  rintro ⟨kids, -, htree⟩
  obtain ⟨q, hq, hqlive, -⟩ := htree 3 hlive (by simp [hinit])
  obtain rfl : q = 1 := Option.some.inj (hq.symm.trans hparent)
  simp [hfreed] at hqlive

end Process
