import Mittos64.Lib.Run
import Mittos64.Proc.ReapSteps

/-!
# What the processors touch while processes are freed

Where the invariant holds, what a step touches has not been freed yet, but for the link of the
thread that `process_free` reads behind its `kfree`.  The invariant holds at the boot, and so in
every state that the processors come to.
-/

namespace Reap

variable {C P : Type}

section Steps

variable [DecidableEq C] [DecidableEq P] {init : P} {s : System C P} {loc : P → Loc C P}
  {freer : P → Option (P × Stage)} {c : C} {p q : P} {s' : System C P}

/-! ### What is touched -/

omit [DecidableEq C] [DecidableEq P] in
/-- The thread that a processor has in its hand, with its process and its memory, is not freed. -/
theorem Inv.live_hand (h : Inv init s loc freer) (hhand : (s.cpu c).hand = some p) :
  s.Live (.thread p) ∧ s.Live (.proc p) ∧ s.Live (.map p)
  := by
  have hloc := (h.hand c p).mp hhand
  have hmade := (h.process p).made.mpr (hloc ▸ nofun)
  have hclean := (h.process p).clean (hloc ▸ nofun)
  exact ⟨⟨hmade, hclean.thread⟩, ⟨hmade, hclean.proc⟩, ⟨hmade, hclean.map⟩⟩

omit [DecidableEq C] [DecidableEq P] in
theorem Inv.live_queued (h : Inv init s loc freer) {o : Object P} (ho : o ∈ s.queued) :
  s.Live o
  := by
  obtain ⟨q, hq, rfl⟩ := ho
  have hloc := (h.queue q).mp hq
  exact ⟨(h.process q).made.mpr (hloc ▸ nofun), ((h.process q).clean (hloc ▸ nofun)).thread⟩

omit [DecidableEq C] [DecidableEq P] in
/-- A process that has a parent is not freed. -/
theorem Inv.live_child (h : Inv init s loc freer) (hparent : (s.process q).parent = some p) :
  s.Live (.proc q)
  := by
  have hq := h.process q
  refine ⟨hq.made.mpr (hq.made_of_parent hparent), ?_⟩
  rcases hr : freer q with _ | ⟨p', stage⟩
  · exact (hq.child (hparent ▸ nofun) hr).proc
  · have hby := hq.freed p' stage hr
    cases stage with
    | test => exact hby.2.2.proc
    | await => exact hby.2.2.proc
    | check => exact hby.2.2.proc
    | thread => exact hby.2.2.proc
    | next => exact hby.2.2.2.1
    | unlink => exact hby.2.2.2.1
    | map => exact hby.2.2.2.1
    | proc => exact hby.2.2.2.1

omit [DecidableEq C] [DecidableEq P] in
theorem Inv.live_children (h : Inv init s loc freer) {o : Object P} (ho : o ∈ s.children p) :
  s.Live o
  := by
  obtain ⟨q, hparent, rfl⟩ := ho
  exact h.live_child hparent

omit [DecidableEq C] [DecidableEq P] in
/-- What `process_free` touches is not freed, but for the link of the thread. -/
theorem Inv.live_free (h : Inv init s loc freer) {stage : Stage}
    (hpoint : (s.process p).point = .freeing q stage) {o : Object P}
    (ho : o ∈ freeTouches s p q stage) :
  s.Live o ∨ stage = .next ∧ o = .thread q
  := by
  obtain ⟨_, _, hfreer⟩ := h.freer_ne hpoint
  have hq := h.process q
  have hby := hq.freed p stage hfreer
  have hmade : (s.process q).made = true := by
    apply hq.made.mpr
    intro hl
    rw [(hq.unmade hl).2.2] at hfreer
    cases hfreer
  cases stage with
  | test =>
      rcases ho with rfl
      exact Or.inl ⟨hmade, hby.2.2.proc⟩
  | await =>
      rcases ho with rfl | rfl
      · exact Or.inl ⟨hmade, hby.2.2.proc⟩
      · exact Or.inl ⟨hmade, hby.2.2.thread⟩
  | check =>
      rcases ho with rfl
      exact Or.inl ⟨hmade, hby.2.2.thread⟩
  | thread =>
      rcases ho with rfl
      exact Or.inl ⟨hmade, hby.2.2.thread⟩
  | next =>
      rcases ho with rfl
      exact Or.inr ⟨rfl, rfl⟩
  | unlink =>
      rcases ho with rfl | ho
      · exact Or.inl ⟨hmade, hby.2.2.2.1⟩
      · exact Or.inl (h.live_children ho)
  | map =>
      rcases ho with rfl | rfl
      · exact Or.inl ⟨hmade, hby.2.2.2.1⟩
      · exact Or.inl ⟨hmade, hby.2.2.2.2⟩
  | proc =>
      rcases ho with rfl
      exact Or.inl ⟨hmade, hby.2.2.2.1⟩

/-- What a thread touches besides what it has itself is not freed, but for that link. -/
theorem Inv.live_point (h : Inv init s loc freer) {r : Request P}
    (hstep : threadStep init s c p (s.process p).point r = some s') {o : Object P}
    (ho : o ∈ pointTouches init s p (s.process p).point r) :
  s.Live o ∨ ∃ q, (s.process p).point = .freeing q .next ∧ o = .thread q
  := by
  cases hpoint : (s.process p).point with
  | user =>
      rw [hpoint] at ho
      cases r with
      | fork q => exact Or.inl (h.live_children ho)
      | _ => exact ho.elim
  | forked q =>
      rw [hpoint] at ho
      have hloc := (h.fork p q).mp (by rw [hpoint]; rfl)
      have hmade := (h.process q).made.mpr (hloc ▸ nofun)
      have hclean := (h.process q).clean (hloc ▸ nofun)
      rcases ho with (rfl | rfl | rfl) | ho
      · exact Or.inl ⟨hmade, hclean.proc⟩
      · exact Or.inl ⟨hmade, hclean.thread⟩
      · exact Or.inl ⟨hmade, hclean.map⟩
      · exact Or.inl (h.live_queued ho)
  | exiting =>
      rw [hpoint] at ho hstep
      cases r with
      | adopt q =>
          rw [threadStep] at hstep
          split_ifs at hstep with hparent
          rcases ho with ((rfl | rfl) | ho) | ho
          · exact Or.inl (h.live_child hparent)
          · exact Or.inl ⟨h.init.1, h.init.2.2.2.proc⟩
          · exact Or.inl (h.live_children ho)
          · exact Or.inl (h.live_children ho)
      | _ => exact ho.elim
  | exited =>
      rw [hpoint] at ho
      exact ho.elim
  | waiting =>
      rw [hpoint] at ho hstep
      cases r with
      | look q =>
          rw [threadStep] at hstep
          split_ifs at hstep with hparent
          all_goals
            rcases ho with rfl
            exact Or.inl (h.live_child hparent)
      | _ => exact ho.elim
  | freeing q stage =>
      rw [hpoint] at ho
      have hfree : o ∈ freeTouches s p q stage := by cases r with | _ => exact ho
      rcases h.live_free hpoint hfree with hlive | ⟨rfl, rfl⟩
      · exact Or.inl hlive
      · exact Or.inr ⟨q, rfl, rfl⟩
  | panic => exact absurd hpoint (h.process p).calm

omit [DecidableEq C] [DecidableEq P] in
/-- The process that is current on a processor is not freed. -/
theorem Inv.live_current (h : Inv init s loc freer) {o : Object P}
    (ho : o ∈ { o | ∃ old ∈ (s.cpu c).currentProcess, o = Object.proc old }) :
  s.Live o
  := by
  obtain ⟨old, hold, rfl⟩ := ho
  have hcurrent := (h.cpu c).process.symm.trans hold
  have hhand : (s.cpu c).hand = some old := by
    rw [Cpu.hand]
    cases hpc : (s.cpu c).pc with
    | load p =>
        rw [hpc] at hcurrent
        exact hcurrent
    | resume p =>
        rw [hpc] at hcurrent
        exact hcurrent
    | thread p =>
        rw [hpc] at hcurrent
        exact hcurrent
    | save p =>
        rw [hpc] at hcurrent
        exact hcurrent
    | leave p =>
        rw [hpc] at hcurrent
        exact hcurrent
    | _ =>
        rw [hpc] at hcurrent
        cases hcurrent
  exact (h.live_hand hhand).2.1

omit [DecidableEq C] [DecidableEq P] in
/-- What a step outside of the threads touches is not freed. -/
theorem Inv.live_go (h : Inv init s loc freer) {a : Act C P}
    (hgo : ∀ p, (s.cpu a.cpu).pc ≠ .thread p) {o : Object P} (ho : o ∈ touches init s a) :
  s.Live o
  := by
  obtain ⟨c, r⟩ := a
  rw [touches] at ho
  dsimp only at ho hgo
  cases hpc : (s.cpu c).pc with
  | start =>
      rw [hpc] at ho
      exact ho.elim
  | top =>
      rw [hpc] at ho
      obtain ⟨old, hold, rfl⟩ := ho
      exact (h.live_hand (by rw [Cpu.hand, hpc]; exact hold)).1
  | test p =>
      rw [hpc] at ho
      obtain ⟨hthread, hproc, _⟩ := h.live_hand (c := c) (p := p) (by rw [Cpu.hand, hpc])
      rcases ho with rfl | rfl
      · exact hthread
      · exact hproc
  | ready p =>
      rw [hpc] at ho
      obtain ⟨hthread, _⟩ := h.live_hand (c := c) (p := p) (by rw [Cpu.hand, hpc])
      rcases ho with rfl
      exact hthread
  | insert p =>
      rw [hpc] at ho
      obtain ⟨hthread, _⟩ := h.live_hand (c := c) (p := p) (by rw [Cpu.hand, hpc])
      rcases ho with rfl | ho
      · exact hthread
      · exact h.live_queued ho
  | finish p =>
      rw [hpc] at ho
      obtain ⟨hthread, _⟩ := h.live_hand (c := c) (p := p) (by rw [Cpu.hand, hpc])
      rcases ho with rfl
      exact hthread
  | idle =>
      rw [hpc] at ho
      exact h.live_queued ho
  | check p =>
      rw [hpc] at ho
      obtain ⟨hthread, hproc, _⟩ := h.live_hand (c := c) (p := p) (by rw [Cpu.hand, hpc])
      rcases ho with rfl | rfl
      · exact hthread
      · exact hproc
  | drop p =>
      rw [hpc] at ho
      obtain ⟨hthread, _⟩ := h.live_hand (c := c) (p := p) (by rw [Cpu.hand, hpc])
      rcases ho with rfl
      exact hthread
  | run p =>
      rw [hpc] at ho
      obtain ⟨hthread, _⟩ := h.live_hand (c := c) (p := p) (by rw [Cpu.hand, hpc])
      rcases ho with rfl
      exact hthread
  | enter p =>
      rw [hpc] at ho
      obtain ⟨hthread, hproc, _⟩ := h.live_hand (c := c) (p := p) (by rw [Cpu.hand, hpc])
      rcases ho with (rfl | rfl) | ho
      · exact hthread
      · exact hproc
      · exact h.live_current ho
  | load p =>
      rw [hpc] at ho
      obtain ⟨_, hproc, hmap⟩ := h.live_hand (c := c) (p := p) (by rw [Cpu.hand, hpc])
      rcases ho with rfl | rfl
      · exact hproc
      · exact hmap
  | resume p =>
      rw [hpc] at ho
      obtain ⟨hthread, _, hmap⟩ := h.live_hand (c := c) (p := p) (by rw [Cpu.hand, hpc])
      rcases ho with rfl | rfl
      · exact hthread
      · exact hmap
  | thread p => exact absurd hpc (hgo p)
  | save p =>
      rw [hpc] at ho
      obtain ⟨hthread, _, hmap⟩ := h.live_hand (c := c) (p := p) (by rw [Cpu.hand, hpc])
      rcases ho with rfl | rfl
      · exact hthread
      · exact hmap
  | leave p =>
      rw [hpc] at ho
      obtain ⟨hthread, _, hmap⟩ := h.live_hand (c := c) (p := p) (by rw [Cpu.hand, hpc])
      rcases ho with (rfl | rfl) | ho
      · exact hthread
      · exact hmap
      · exact h.live_current ho
  | unload p =>
      rw [hpc] at ho
      obtain ⟨hthread, _, hmap⟩ := h.live_hand (c := c) (p := p) (by rw [Cpu.hand, hpc])
      rcases ho with rfl | rfl
      · exact hthread
      · exact hmap
  | park p =>
      rw [hpc] at ho
      obtain ⟨hthread, _⟩ := h.live_hand (c := c) (p := p) (by rw [Cpu.hand, hpc])
      rcases ho with rfl
      exact hthread

/-- What a step touches is not freed, but for the link that `process_free` reads. -/
theorem Inv.live (h : Inv init s loc freer) {a : Act C P} (hstep : step init s a = some s')
    {o : Object P} (ho : o ∈ touches init s a) :
  s.Live o ∨ s.Stale a.cpu o
  := by
  by_cases hgo : ∃ p, (s.cpu a.cpu).pc = .thread p
  · obtain ⟨p, hpc⟩ := hgo
    obtain ⟨hthread, hproc, hmap⟩ := h.live_hand (c := a.cpu) (p := p) (by rw [Cpu.hand, hpc])
    rw [touches, hpc] at ho
    rw [step, hpc] at hstep
    rcases ho with (rfl | rfl | rfl) | ho
    · exact Or.inl hthread
    · exact Or.inl hproc
    · exact Or.inl hmap
    · rcases h.live_point hstep ho with hlive | ⟨q, hpoint, rfl⟩
      · exact Or.inl hlive
      · exact Or.inr ⟨p, q, hpc, hpoint, rfl⟩
  · exact Or.inl (h.live_go (not_exists.mp hgo) ho)

/-- What comes of the invariant. -/
theorem Inv.sound (h : Inv init s loc freer) : Sound init s := by
  constructor
  case live => exact fun a s' hstep o ho => h.live hstep ho
  case loaded =>
    intro c p hcr3
    by_cases hstart : (s.cpu c).pc = .start
    · obtain rfl := ((h.cpu c).start hstart).2 p hcr3
      exact ⟨h.init.1, h.init.2.2.2.map⟩
    · rw [(h.cpu c).space hstart] at hcr3
      have hhand : (s.cpu c).hand = some p := by
        rw [Cpu.hand]
        cases hpc : (s.cpu c).pc with
        | resume p =>
            rw [hpc] at hcr3
            exact hcr3
        | thread p =>
            rw [hpc] at hcr3
            exact hcr3
        | save p =>
            rw [hpc] at hcr3
            exact hcr3
        | leave p =>
            rw [hpc] at hcr3
            exact hcr3
        | unload p =>
            rw [hpc] at hcr3
            exact hcr3
        | _ =>
            rw [hpc] at hcr3
            cases hcr3
      exact (h.live_hand hhand).2.2
  case alone =>
    intro c c' p hpc hpc'
    have hheld := (h.hand c p).mp (by rw [Cpu.hand, hpc])
    have hheld' := (h.hand c' p).mp (by rw [Cpu.hand, hpc'])
    rw [hheld] at hheld'
    exact Loc.held.inj hheld'
  case dropped =>
    intro c p hpc
    exact h.knows_at hpc (by rw [Cpu.hand, hpc])
  case calm => exact fun p => (h.process p).calm
  case whole => exact fun p => (h.process p).whole

/-! ### From the boot on -/

/-- The state in which `kmain` comes to its `schedule()`: `init` is in the ready queue, and the
first processor still has its memory loaded, for the arguments that `exec_elf` has written there. -/
def boot (init : P) (bsp : C) : System C P where
  cpu c :=
    { pc := .start
      lastThread := none
      currentProcess := none
      cr3 := if c = bsp then some init else none }
  process p := { child p with parent := none, made := p = init }
  readyQueue := [init]

/-- At the boot `init` is queued, and no other process is made. -/
theorem inv_boot (init : P) (bsp : C) :
  Inv init (boot init bsp) (fun p => if p = init then .queued else .unmade) (fun _ => none)
  := by
  constructor
  case hand =>
    intro c p
    refine iff_of_false nofun ?_
    split_ifs
    · nofun
    · nofun
  case queue =>
    intro p
    change p ∈ [init] ↔ _
    rw [List.mem_singleton]
    split_ifs with hp
    · exact iff_of_true hp rfl
    · exact iff_of_false hp nofun
  case nodup => exact List.nodup_singleton init
  case fork =>
    intro p q
    refine iff_of_false nofun ?_
    split_ifs
    · nofun
    · nofun
  case free => exact fun p q stage => iff_of_false nofun nofun
  case process =>
    intro p
    split_ifs with hp
    · apply Process.Lives.ok
      constructor
      case made => exact decide_eq_true hp
      case loc => exact ⟨nofun, nofun⟩
      case state => exact ⟨nofun, nofun⟩
      case threadState => exact ⟨nofun, nofun⟩
      case point => exact ⟨nofun, nofun⟩
      case forked => nofun
      case clean => exact ⟨rfl, rfl, rfl⟩
    · constructor
      case made => exact iff_of_false (ne_true_of_eq_false (decide_eq_false hp)) (fun hl => hl rfl)
      case unmade => exact fun _ => ⟨rfl, rfl, rfl⟩
      case zombie => exact fun hl => absurd rfl hl
      case alive => nofun
      case finished => exact fun hl => absurd rfl hl
      case state => nofun
      case done => nofun
      case queued => nofun
      case forked => nofun
      case calm => nofun
      case clean => exact fun _ => ⟨rfl, rfl, rfl⟩
      case child => exact fun hparent => absurd rfl hparent
      case whole => nofun
      case freed => nofun
  case cpu =>
    intro c
    refine ⟨rfl, fun hstart => absurd rfl hstart, nofun, fun _ => ⟨rfl, ?_⟩⟩
    intro p hp
    change (if c = bsp then some init else none) = some p at hp
    split_ifs at hp
    exact (Option.some.inj hp).symm
  case knows => nofun
  case init => exact ⟨decide_eq_true rfl, rfl, rfl, rfl, rfl, rfl⟩

/-- The states that the processors come to, in any order of their steps. -/
def Reached (init : P) (bsp : C) : System C P → Prop :=
  Reachable (· = boot init bsp) fun s s' => ∃ a, step init s a = some s'

theorem consistent_of_reached (init : P) (bsp : C) {s : System C P} (h : Reached init bsp s) :
  Consistent init s
  := by
  refine h.invariant ?_ ?_
  · rintro s rfl
    exact ⟨_, _, inv_boot init bsp⟩
  · rintro s s' ⟨loc, freer, hinv⟩ ⟨a, hstep⟩
    exact inv_step hinv hstep

end Steps

/-- A child exits on the second processor.  The first one finds it dead while it is still on its way
to the scheduler, and frees it as soon as its thread is finished. -/
def exitAndWait : List (Act Bool Nat) :=
  List.replicate 8 ⟨false, .go⟩ ++ List.replicate 2 ⟨true, .go⟩
    ++ [⟨false, .fork 1⟩, ⟨false, .go⟩] ++ List.replicate 6 ⟨true, .go⟩
    ++ [⟨true, .exit⟩, ⟨true, .go⟩, ⟨true, .go⟩, ⟨true, .go⟩, ⟨false, .wait⟩, ⟨false, .look 1⟩,
      ⟨false, .go⟩]
    ++ List.replicate 6 ⟨true, .go⟩ ++ List.replicate 7 ⟨false, .go⟩

end Reap
