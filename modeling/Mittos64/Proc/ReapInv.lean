import Mittos64.Proc.Reap

/-!
# Where the threads are while processes are freed

A thread is in the ready queue, in the hand of one processor, made and not inserted yet, or
finished.  The invariant says what holds of a process in each of these places, and at each stage of
`process_free`, and what a processor knows of the thread in its hand.
-/

open Scheduler (ThreadState)

namespace Reap

variable {C P : Type}

/-- Where a thread is: in the ready queue, in the hand of a processor, made by a thread that has not
inserted it yet, or finished. -/
inductive Loc (C P : Type) where
  | unmade
  | queued
  | held (c : C)
  | forked (p : P)
  | done

/-- The thread that a processor has in its hand. -/
def Cpu.hand (x : Cpu P) : Option P :=
  match x.pc with
  | .start => none
  | .top => x.lastThread
  | .test old => some old
  | .ready old => some old
  | .insert old => some old
  | .finish old => some old
  | .idle => none
  | .check new => some new
  | .drop new => some new
  | .run new => some new
  | .enter new => some new
  | .load new => some new
  | .resume new => some new
  | .thread p => some p
  | .save p => some p
  | .leave p => some p
  | .unload p => some p
  | .park p => some p

/-- The process that is current on a processor. -/
def Pc.process : Pc P → Option P
  | .load new => some new
  | .resume new => some new
  | .thread p => some p
  | .save p => some p
  | .leave p => some p
  | _ => none

/-- The process whose memory a processor has loaded, from its first `schedule()` on. -/
def Pc.space : Pc P → Option P
  | .resume new => some new
  | .thread p => some p
  | .save p => some p
  | .leave p => some p
  | .unload p => some p
  | _ => none

/-- The last thread of a processor, from where it is set to the end of `schedule()`. -/
def Pc.last : Pc P → Option P
  | .enter new => some new
  | .load new => some new
  | .resume new => some new
  | .thread p => some p
  | .save p => some p
  | .leave p => some p
  | .unload p => some p
  | .park p => some p
  | _ => none

/-- What a processor with a thread in its hand knows of where that is. -/
def Pc.Knows : Pc P → Point P → Prop
  | .ready _, k => k ≠ .exited
  | .insert _, k => k ≠ .exited
  | .finish _, k => k = .exited
  | .check _, k => k ≠ .exited
  | .drop _, _ => False
  | .run _, k => k ≠ .exited
  | .enter _, k => k ≠ .exited
  | .load _, k => k ≠ .exited
  | .resume _, k => k ≠ .exited
  | _, _ => True

/-- What holds of a processor. -/
structure Cpu.Ok (init : P) (x : Cpu P) : Prop where
  process : x.currentProcess = x.pc.process
  space : x.pc ≠ .start → x.cr3 = x.pc.space
  last : ∀ p ∈ x.pc.last, x.lastThread = some p
  start : x.pc = .start → x.lastThread = none ∧ ∀ p ∈ x.cr3, p = init

/-- The child that a thread frees, and where it is in that. -/
def Point.frees : Point P → Option (P × Stage)
  | .freeing q stage => some (q, stage)
  | _ => none

/-- The child that a thread has made and not inserted yet. -/
def Point.forks : Point P → Option P
  | .forked q => some q
  | _ => none

/-- Nothing of the process has been freed. -/
structure Process.Clean (x : Process P) : Prop where
  thread : x.threadFreed = false
  proc : x.procFreed = false
  map : x.mapFreed = false

/-- What holds of a process that the thread `p` frees. -/
def Process.FreedBy (x : Process P) (l : Loc C P) (p : P) : Stage → Prop
  | .test => x.parent = some p ∧ x.state = .zombie ∧ x.Clean
  | .await => x.parent = some p ∧ x.state = .zombie ∧ x.Clean
  | .check => x.parent = some p ∧ l = .done ∧ x.Clean
  | .thread => x.parent = some p ∧ l = .done ∧ x.Clean
  | .next => x.parent = some p ∧ l = .done ∧ x.threadFreed = true ∧ x.procFreed = false
      ∧ x.mapFreed = false
  | .unlink => x.parent = some p ∧ l = .done ∧ x.threadFreed = true ∧ x.procFreed = false
      ∧ x.mapFreed = false
  | .map => x.parent = none ∧ l = .done ∧ x.threadFreed = true ∧ x.procFreed = false
      ∧ x.mapFreed = false
  | .proc => x.parent = none ∧ l = .done ∧ x.threadFreed = true ∧ x.procFreed = false
      ∧ x.mapFreed = true

/-- What holds of a process whose thread is at `l`, and that is freed as `r` says. -/
structure Process.Ok (x : Process P) (l : Loc C P) (r : Option (P × Stage)) : Prop where
  made : x.made = true ↔ l ≠ .unmade
  unmade : l = .unmade → x.point = .user ∧ x.parent = none ∧ r = none
  zombie : l ≠ .unmade → (x.state = .zombie ↔ x.point = .exited)
  alive : l ≠ .unmade → x.state ≠ .done
  finished : l ≠ .unmade → (x.threadState = .finished ↔ l = .done)
  state : l ≠ .unmade → x.threadState ≠ .waiting
  done : l = .done → x.point = .exited
  queued : l = .queued → x.point ≠ .exited
  forked : ∀ p, l = .forked p → x.point = .user
  calm : x.point ≠ .panic
  clean : l ≠ .done → x.Clean
  child : x.parent ≠ none → r = none → x.Clean
  whole : x.procFreed = true → x.threadFreed = true ∧ x.mapFreed = true
  freed : ∀ p stage, r = some (p, stage) → x.FreedBy l p stage

/-- The invariant, where `loc` says where the threads are and `freer` who frees a process. -/
structure Inv (init : P) (s : System C P) (loc : P → Loc C P) (freer : P → Option (P × Stage)) :
    Prop where
  hand : ∀ c p, (s.cpu c).hand = some p ↔ loc p = .held c
  queue : ∀ p, p ∈ s.readyQueue ↔ loc p = .queued
  nodup : s.readyQueue.Nodup
  fork : ∀ p q, (s.process p).point.forks = some q ↔ loc q = .forked p
  free : ∀ p q stage, (s.process p).point.frees = some (q, stage) ↔ freer q = some (p, stage)
  process : ∀ p, (s.process p).Ok (loc p) (freer p)
  cpu : ∀ c, (s.cpu c).Ok init
  knows : ∀ c p, (s.cpu c).hand = some p → (s.cpu c).pc.Knows (s.process p).point
  init : (s.process init).made = true ∧ (s.process init).parent = none ∧ freer init = none
    ∧ (s.process init).Clean

/-- No one frees a process that has not exited. -/
theorem Process.Ok.freer_none {x : Process P} {l : Loc C P} {r : Option (P × Stage)} (h : x.Ok l r)
    (hx : x.point ≠ .exited) :
  r = none
  := by
  rcases hr : r with _ | ⟨p, stage⟩
  · rfl
  · have hmade : l ≠ .unmade := by
      intro hl
      have hnone := (h.unmade hl).2.2
      rw [hr] at hnone
      cases hnone
    have hzombie : x.state ≠ .zombie := mt (h.zombie hmade).mp hx
    have hdone : l ≠ .done := mt h.done hx
    have hby := h.freed p stage hr
    cases stage with
    | test => exact absurd hby.2.1 hzombie
    | await => exact absurd hby.2.1 hzombie
    | check => exact absurd hby.2.1 hdone
    | thread => exact absurd hby.2.1 hdone
    | next => exact absurd hby.2.1 hdone
    | unlink => exact absurd hby.2.1 hdone
    | map => exact absurd hby.2.1 hdone
    | proc => exact absurd hby.2.1 hdone

/-- What holds of a process that has not exited. -/
structure Process.Lives (x : Process P) (l : Loc C P) : Prop where
  made : x.made = true
  loc : l ≠ .unmade ∧ l ≠ .done
  state : x.state ≠ .zombie ∧ x.state ≠ .done
  threadState : x.threadState ≠ .finished ∧ x.threadState ≠ .waiting
  point : x.point ≠ .exited ∧ x.point ≠ .panic
  forked : ∀ p, l = .forked p → x.point = .user
  clean : x.Clean

theorem Process.Lives.ok {x : Process P} {l : Loc C P} (h : x.Lives l) : x.Ok l none := by
  constructor
  case made => exact iff_of_true h.made h.loc.1
  case unmade => exact fun hl => absurd hl h.loc.1
  case zombie => exact fun _ => iff_of_false h.state.1 h.point.1
  case alive => exact fun _ => h.state.2
  case finished => exact fun _ => iff_of_false h.threadState.1 h.loc.2
  case state => exact fun _ => h.threadState.2
  case done => exact fun hl => absurd hl h.loc.2
  case queued => exact fun _ => h.point.1
  case forked => exact h.forked
  case calm => exact h.point.2
  case clean => exact fun _ => h.clean
  case child => exact fun _ _ => h.clean
  case whole => exact fun hfreed => absurd (h.clean.proc.symm.trans hfreed) nofun
  case freed => nofun

theorem Process.Ok.lives {x : Process P} {l : Loc C P} {r : Option (P × Stage)} (h : x.Ok l r)
    (hmade : l ≠ .unmade) (hx : x.point ≠ .exited) :
  x.Lives l
  := by
  have hdone : l ≠ .done := mt h.done hx
  constructor
  case made => exact h.made.mpr hmade
  case loc => exact ⟨hmade, hdone⟩
  case state => exact ⟨mt (h.zombie hmade).mp hx, h.alive hmade⟩
  case threadState => exact ⟨mt (h.finished hmade).mp hdone, h.state hmade⟩
  case point => exact ⟨hx, h.calm⟩
  case forked => exact h.forked
  case clean => exact h.clean hdone

/-- A thread that a processor has in its hand goes on. -/
theorem Process.Ok.setPoint {x : Process P} {c : C} {r : Option (P × Stage)} {k : Point P}
    (h : x.Ok (.held c) r) (hx : x.point ≠ .exited) (hexited : k ≠ .exited) (hcalm : k ≠ .panic) :
  { x with point := k }.Ok (.held c) r
  := by
  have hlives := h.lives nofun hx
  rw [h.freer_none hx]
  apply Process.Lives.ok
  constructor
  case made => exact hlives.made
  case loc => exact hlives.loc
  case state => exact hlives.state
  case threadState => exact hlives.threadState
  case point => exact ⟨hexited, hcalm⟩
  case forked => nofun
  case clean => exact ⟨hlives.clean.thread, hlives.clean.proc, hlives.clean.map⟩

/-- Another process may change what is freed of a process and who its parent is. -/
theorem Process.Ok.keep {x y : Process P} {l : Loc C P} {r r' : Option (P × Stage)} (h : x.Ok l r)
    (hmade : l ≠ .unmade) (hsame : y.point = x.point ∧ y.threadState = x.threadState
      ∧ y.state = x.state ∧ y.made = x.made) (hclean : l ≠ .done → y.Clean)
    (hchild : y.parent ≠ none → r' = none → y.Clean)
    (hwhole : y.procFreed = true → y.threadFreed = true ∧ y.mapFreed = true)
    (hfreed : ∀ p stage, r' = some (p, stage) → y.FreedBy l p stage) :
  y.Ok l r'
  := by
  obtain ⟨hpoint, hthread, hstate, hy⟩ := hsame
  constructor
  case made => exact hy ▸ h.made
  case unmade => exact fun hl => absurd hl hmade
  case zombie => exact hpoint ▸ hstate ▸ h.zombie
  case alive => exact hstate ▸ h.alive
  case finished => exact hthread ▸ h.finished
  case state => exact hthread ▸ h.state
  case done => exact hpoint ▸ h.done
  case queued => exact hpoint ▸ h.queued
  case forked => exact hpoint ▸ h.forked
  case calm => exact hpoint ▸ h.calm
  case clean => exact hclean
  case child => exact hchild
  case whole => exact hwhole
  case freed => exact hfreed

/-- A process that is freed keeps its states. -/
theorem Process.Ok.free {x y : Process P} {p : P} {l : Loc C P} {r : Option (P × Stage)}
    (h : x.Ok l r) (hmade : l ≠ .unmade) (hsame : y.point = x.point
      ∧ y.threadState = x.threadState ∧ y.state = x.state ∧ y.made = x.made)
    (hclean : l ≠ .done → y.Clean)
    (hwhole : y.procFreed = true → y.threadFreed = true ∧ y.mapFreed = true) {v : Stage}
    (hby : y.FreedBy l p v) :
  y.Ok l (some (p, v))
  := by
  apply h.keep hmade hsame hclean
  · nofun
  · exact hwhole
  · intro p' stage hr
    cases hr
    exact hby

/-- A process that has a parent is made. -/
theorem Process.Ok.made_of_parent {x : Process P} {p : P} {l : Loc C P} {r : Option (P × Stage)}
    (h : x.Ok l r) (hparent : x.parent = some p) :
  l ≠ .unmade
  := by
  intro hl
  rw [(h.unmade hl).2.1] at hparent
  cases hparent

/-- A process that has a parent is freed by no other process. -/
theorem Process.Ok.freer_of_parent {x : Process P} {p p' : P} {l : Loc C P}
    {r : Option (P × Stage)} {stage : Stage} (h : x.Ok l r) (hparent : x.parent = some p)
    (hr : r = some (p', stage)) :
  p' = p
  := by
  have hby := h.freed p' stage hr
  have hother : x.parent = some p' := by
    cases stage with
    | test => exact hby.1
    | await => exact hby.1
    | check => exact hby.1
    | thread => exact hby.1
    | next => exact hby.1
    | unlink => exact hby.1
    | map => exact absurd (hparent.symm.trans hby.1) nofun
    | proc => exact absurd (hparent.symm.trans hby.1) nofun
  exact Option.some.inj (hother.symm.trans hparent)

/-- The thread of a live process goes to another place, with another state. -/
theorem Process.Lives.moveTo {x : Process P} {l : Loc C P} (h : x.Lives l) (l' : Loc C P)
    (v : ThreadState) (hl : l' ≠ .unmade ∧ l' ≠ .done)
    (hforked : ∀ p, l' = .forked p → x.point = .user) (hv : v ≠ .finished ∧ v ≠ .waiting) :
  { x with threadState := v }.Lives l'
  := by
  constructor
  case made => exact h.made
  case loc => exact hl
  case state => exact h.state
  case threadState => exact hv
  case point => exact h.point
  case forked => exact hforked
  case clean => exact ⟨h.clean.thread, h.clean.proc, h.clean.map⟩

/-- What a processor has set depends on where it is. -/
theorem Cpu.Ok.at_pc {init : P} {x : Cpu P} {pc : Pc P} (h : x.Ok init) (hpc : x.pc = pc)
    (hstart : pc ≠ .start) :
  x.currentProcess = pc.process ∧ x.cr3 = pc.space ∧ ∀ p ∈ pc.last, x.lastThread = some p
  := by
  subst hpc
  exact ⟨h.process, h.space hstart, h.last⟩

end Reap
