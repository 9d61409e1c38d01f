import Mittos64.Proc.ReapRuns

/-!
# The wait for the thread of a child

`process_free` waits until the thread of the child is neither running nor ready.  The thread has
exited by then, and is still on a processor, in `schedule()` or in the loop of `scheduler()`.
Whatever the other processors do, that one comes to finish the thread in a few steps of its own.
-/

open Scheduler (ThreadState)

namespace Reap

variable {C P : Type}

/-- How many steps a processor is away from the end of the thread in its hand, which has exited. -/
def Pc.lag : Pc P → Nat
  | .thread _ => 8
  | .save _ => 7
  | .leave _ => 6
  | .unload _ => 5
  | .park _ => 4
  | .top => 3
  | .test _ => 2
  | .finish _ => 1
  | _ => 0

/-- The processor `c` is at most `n` steps away from the end of the thread of `q`, or that is
finished. -/
structure Ending (s : System C P) (q : P) (c : C) (n : Nat) : Prop where
  exited : (s.process q).point = .exited
  lag : (s.process q).threadState = .finished ∨ (s.cpu c).hand = some q ∧ (s.cpu c).pc.lag ≤ n

theorem Point.eq_of_frees {k : Point P} {q : P} {stage : Stage}
    (h : k.frees = some (q, stage)) :
  k = .freeing q stage
  := by
  cases k with
  | freeing q' stage' =>
      cases h
      rfl
  | _ => cases h

/-- The thread of `q` is where it was, and in the state in which it was. -/
structure Same (s s' : System C P) (q : P) : Prop where
  point : (s'.process q).point = (s.process q).point
  threadState : (s'.process q).threadState = (s.process q).threadState

/-- A step of the processor `c` that is not about the thread of `q`. -/
structure Frame (s s' : System C P) (c : C) (q : P) : Prop where
  cpu : ∀ c' ≠ c, s'.cpu c' = s.cpu c'
  same : Same s s' q

theorem Same.refl (s : System C P) (q : P) : Same s s q := ⟨rfl, rfl⟩

theorem Same.trans {s s' s'' : System C P} {q : P} (h : Same s s' q) (h' : Same s' s'' q) :
  Same s s'' q
  := ⟨h'.point.trans h.point, h'.threadState.trans h.threadState⟩

section Steps

variable [DecidableEq C] [DecidableEq P] {init : P} {s : System C P} {loc : P → Loc C P}
  {freer : P → Option (P × Stage)} {c : C} {p q : P} {s' : System C P}

/-! ### Steps that are not about the thread -/

omit [DecidableEq C] in
/-- The thread of `q` stays the same where another process is written. -/
theorem Same.setProcess_of_ne (s : System C P) (y : Process P) (hpq : p ≠ q) :
  Same s (s.setProcess p y) q
  := by
  have hother := System.setProcess_of_ne s y hpq.symm
  exact ⟨congrArg Process.point hother, congrArg Process.threadState hother⟩

omit [DecidableEq C] in
/-- The thread of `q` stays the same where only other fields of a process are written. -/
theorem Same.setProcess (s : System C P) (q : P) {y : Process P}
    (hpoint : y.point = (s.process p).point)
    (hthread : y.threadState = (s.process p).threadState) :
  Same s (s.setProcess p y) q
  := by
  rcases eq_or_ne p q with rfl | hpq
  · constructor
    · rw [System.setProcess_self, hpoint]
    · rw [System.setProcess_self, hthread]
  · exact Same.setProcess_of_ne s y hpq

omit [DecidableEq C] in
theorem Same.setPoint_of_ne (s : System C P) (k : Point P) (hpq : p ≠ q) :
  Same s (s.setPoint p k) q
  := Same.setProcess_of_ne s _ hpq

omit [DecidableEq C] in
theorem Same.setThreadState_of_ne (s : System C P) (v : ThreadState) (hpq : p ≠ q) :
  Same s (s.setThreadState p v) q
  := Same.setProcess_of_ne s _ hpq

omit [DecidableEq C] in
/-- The thread `p` does something to another process, but not to its thread. -/
theorem Same.setProcess_setPoint (s : System C P) (k : Point P) {q' : P} {y : Process P}
    (hpq : p ≠ q) (hpoint : y.point = (s.process q').point)
    (hthread : y.threadState = (s.process q').threadState) :
  Same s ((s.setProcess q' y).setPoint p k) q
  := (Same.setProcess s q hpoint hthread).trans (Same.setPoint_of_ne _ k hpq)

omit [DecidableEq C] in
theorem Same.setState (s : System C P) (p q : P) (v : ProcState) : Same s (s.setState p v) q :=
  Same.setProcess (y := { s.process p with state := v }) s q rfl rfl

omit [DecidableEq C] in
theorem Same.leaveProcess (s : System C P) (c : C) (q : P) : Same s (s.leaveProcess c) q := by
  rw [System.leaveProcess]
  cases (s.cpu c).currentProcess with
  | none => exact Same.refl s q
  | some old =>
      dsimp only
      split_ifs
      · exact Same.setState s old q .ready
      · exact Same.refl s q

omit [DecidableEq C] in
theorem System.leaveProcess_cpu (s : System C P) (c : C) : (s.leaveProcess c).cpu = s.cpu := by
  rw [System.leaveProcess]
  cases (s.cpu c).currentProcess with
  | none => rfl
  | some old =>
      dsimp only
      split_ifs
      · rfl
      · rfl

omit [DecidableEq C] in
theorem Same.schedulerInsert_of_ne (s : System C P) (hpq : p ≠ q) :
  Same s (s.schedulerInsert p) q
  := by
  have hne := Same.setThreadState_of_ne s .ready hpq
  exact ⟨hne.point, hne.threadState⟩

omit [DecidableEq C] [DecidableEq P] in
theorem Frame.of_cpu (hcpu : s'.cpu = s.cpu) (hsame : Same s s' q) : Frame s s' c q :=
  ⟨fun c' _ => congrFun hcpu c', hsame⟩

omit [DecidableEq P] in
theorem Frame.setCpu {t : System C P} {x : Cpu P} (hcpu : t.cpu = s.cpu) (hsame : Same s t q) :
  Frame s (t.setCpu c x) c q
  := by
  constructor
  · intro c' hc
    rw [System.setCpu_of_ne t x hc, hcpu]
  · exact ⟨hsame.point, hsame.threadState⟩

/-- A step outside of the threads is about the thread that the processor has in its hand. -/
theorem frame_go (hhand : (s.cpu c).hand ≠ some q) (hstep : goStep s c = some s') :
  Frame s s' c q
  := by
  rw [goStep] at hstep
  rw [Cpu.hand] at hhand
  cases hpc : (s.cpu c).pc with
  | top =>
      simp only [hpc] at hstep
      split at hstep
      · split_ifs at hstep
        · obtain rfl := Option.some.inj hstep
          exact Frame.setCpu rfl (Same.refl s q)
        · obtain rfl := Option.some.inj hstep
          exact Frame.setCpu rfl (Same.refl s q)
      · obtain rfl := Option.some.inj hstep
        exact Frame.setCpu rfl (Same.refl s q)
  | test p =>
      simp only [hpc] at hstep
      split_ifs at hstep
      · obtain rfl := Option.some.inj hstep
        exact Frame.setCpu rfl (Same.refl s q)
      · obtain rfl := Option.some.inj hstep
        exact Frame.setCpu rfl (Same.refl s q)
  | ready p =>
      simp only [hpc] at hstep hhand
      obtain rfl := Option.some.inj hstep
      exact Frame.setCpu rfl (Same.setThreadState_of_ne s .ready (mt (congrArg some) hhand))
  | insert p =>
      simp only [hpc] at hstep hhand
      obtain rfl := Option.some.inj hstep
      exact Frame.setCpu rfl (Same.schedulerInsert_of_ne s (mt (congrArg some) hhand))
  | finish p =>
      simp only [hpc] at hstep hhand
      obtain rfl := Option.some.inj hstep
      exact Frame.setCpu rfl (Same.setThreadState_of_ne s .finished (mt (congrArg some) hhand))
  | idle =>
      simp only [hpc] at hstep
      split at hstep
      · next new rest _ =>
          obtain rfl := Option.some.inj hstep
          have hframe : Frame s (s.setPc c (.check new)) c q := Frame.setCpu rfl (Same.refl s q)
          exact ⟨hframe.cpu, hframe.same.point, hframe.same.threadState⟩
      · obtain rfl := Option.some.inj hstep
        exact Frame.of_cpu rfl (Same.refl s q)
  | check p =>
      simp only [hpc] at hstep
      split_ifs at hstep
      · obtain rfl := Option.some.inj hstep
        exact Frame.setCpu rfl (Same.refl s q)
      · obtain rfl := Option.some.inj hstep
        exact Frame.setCpu rfl (Same.refl s q)
  | drop p =>
      simp only [hpc] at hstep hhand
      obtain rfl := Option.some.inj hstep
      exact Frame.setCpu rfl (Same.setThreadState_of_ne s .finished (mt (congrArg some) hhand))
  | run p =>
      simp only [hpc] at hstep hhand
      obtain rfl := Option.some.inj hstep
      exact Frame.setCpu rfl (Same.setThreadState_of_ne s .running (mt (congrArg some) hhand))
  | enter p =>
      simp only [hpc] at hstep
      split_ifs at hstep
      · obtain rfl := Option.some.inj hstep
        exact Frame.setCpu rfl (Same.refl s q)
      · obtain rfl := Option.some.inj hstep
        have hset := Same.setState (s.leaveProcess c) p q .running
        exact Frame.setCpu (s.leaveProcess_cpu c) ((Same.leaveProcess s c q).trans hset)
  | leave p =>
      simp only [hpc] at hstep
      obtain rfl := Option.some.inj hstep
      exact Frame.setCpu (s.leaveProcess_cpu c) (Same.leaveProcess s c q)
  | thread p =>
      simp only [hpc] at hstep
      cases hstep
  | _ =>
      simp only [hpc] at hstep
      obtain rfl := Option.some.inj hstep
      exact Frame.setCpu rfl (Same.refl s q)

/-- What `process_free` does to a child is not about where its thread is. -/
theorem frame_free (s : System C P) (c : C) {p q : P} (q' : P) (hpq : p ≠ q) (stage : Stage) :
  Frame s (freeStep s c p q' stage) c q
  := by
  cases stage with
  | test =>
      rw [freeStep]
      split_ifs
      · exact Frame.of_cpu rfl (Same.setPoint_of_ne s _ hpq)
      · exact Frame.of_cpu rfl (Same.setPoint_of_ne s _ hpq)
  | await =>
      rw [freeStep]
      split_ifs
      · exact Frame.setCpu rfl (Same.refl s q)
      · exact Frame.of_cpu rfl (Same.setPoint_of_ne s _ hpq)
  | check =>
      rw [freeStep]
      split_ifs
      · exact Frame.of_cpu rfl (Same.setPoint_of_ne s _ hpq)
      · exact Frame.of_cpu rfl (Same.setPoint_of_ne s _ hpq)
  | next => exact Frame.of_cpu rfl (Same.setPoint_of_ne s _ hpq)
  | proc =>
      apply Frame.setCpu
      · rfl
      · apply Same.setProcess_setPoint s _ hpq
        · rfl
        · rfl
  | _ =>
      apply Frame.of_cpu
      · rfl
      · apply Same.setProcess_setPoint s _ hpq
        · rfl
        · rfl

omit [DecidableEq C] [DecidableEq P] in
/-- A thread that has exited is on a processor, or it is finished. -/
theorem Inv.held_or_done (h : Inv init s loc freer) (hexited : (s.process q).point = .exited) :
  loc q = .done ∨ ∃ c, loc q = .held c
  := by
  have hq := h.process q
  cases hloc : loc q with
  | unmade =>
      have huser := (hq.unmade hloc).1
      rw [hexited] at huser
      cases huser
  | queued => exact absurd hexited (hq.queued hloc)
  | held c => exact Or.inr ⟨c, rfl⟩
  | forked p =>
      have huser := hq.forked p hloc
      rw [hexited] at huser
      cases huser
  | done => exact Or.inl rfl

/-- A thread is not about one that has exited. -/
theorem frame_thread (h : Inv init s loc freer) (hpq : p ≠ q)
    (hexited : (s.process q).point = .exited) {k : Point P} (hpoint : (s.process p).point = k)
    {r : Request P} (hstep : threadStep init s c p k r = some s') :
  Frame s s' c q
  := by
  cases k with
  | user =>
      cases r with
      | use =>
          obtain rfl := Option.some.inj hstep
          exact Frame.of_cpu rfl (Same.refl s q)
      | yield =>
          obtain rfl := Option.some.inj hstep
          exact Frame.setCpu rfl (Same.refl s q)
      | fork q' =>
          rw [threadStep] at hstep
          split_ifs at hstep with hmade
          obtain rfl := Option.some.inj hstep
          have hq' : q' ≠ q := by
            rintro rfl
            apply hmade
            apply (h.process q').made.mpr
            rcases h.held_or_done hexited with hdone | ⟨c', hheld⟩
            · simp [hdone]
            · simp [hheld]
          have hsame := (Same.setProcess_of_ne s (child p) hq').trans
            (Same.setPoint_of_ne _ (.forked q') hpq)
          exact Frame.of_cpu rfl hsame
      | exit =>
          obtain rfl := Option.some.inj hstep
          exact Frame.of_cpu rfl (Same.setPoint_of_ne s _ hpq)
      | wait =>
          obtain rfl := Option.some.inj hstep
          exact Frame.of_cpu rfl (Same.setPoint_of_ne s _ hpq)
      | _ => cases hstep
  | forked q' =>
      cases r with
      | go =>
          obtain rfl := Option.some.inj hstep
          have hforked := (h.fork p q').mp (by rw [hpoint]; rfl)
          have hq' : q' ≠ q := by
            rintro rfl
            have huser := (h.process q').forked p hforked
            rw [hexited] at huser
            cases huser
          have hsame := (Same.schedulerInsert_of_ne s hq').trans
            (Same.setPoint_of_ne _ .user hpq)
          exact Frame.of_cpu rfl hsame
      | _ => cases hstep
  | exiting =>
      cases r with
      | adopt q' =>
          rw [threadStep] at hstep
          split_ifs at hstep
          obtain rfl := Option.some.inj hstep
          apply Frame.of_cpu
          · rfl
          · apply Same.setProcess
            · rfl
            · rfl
      | go =>
          obtain rfl := Option.some.inj hstep
          have hsame := (Same.setState s p q .zombie).trans (Same.setPoint_of_ne _ .exited hpq)
          exact Frame.of_cpu rfl hsame
      | _ => cases hstep
  | exited =>
      cases r with
      | go =>
          obtain rfl := Option.some.inj hstep
          exact Frame.setCpu rfl (Same.refl s q)
      | _ => cases hstep
  | waiting =>
      cases r with
      | look q' =>
          rw [threadStep] at hstep
          split_ifs at hstep
          · obtain rfl := Option.some.inj hstep
            exact Frame.of_cpu rfl (Same.setPoint_of_ne s _ hpq)
          · obtain rfl := Option.some.inj hstep
            exact Frame.of_cpu rfl (Same.refl s q)
      | yield =>
          obtain rfl := Option.some.inj hstep
          exact Frame.setCpu rfl (Same.refl s q)
      | _ => cases hstep
  | freeing q' stage =>
      cases r with
      | go =>
          obtain rfl := Option.some.inj hstep
          exact frame_free s c q' hpq stage
      | _ => cases hstep
  | panic => exact absurd hpoint (h.process p).calm

/-- A step is not about an exited thread that the processor does not have in its hand. -/
theorem frame_step (h : Inv init s loc freer) (hexited : (s.process q).point = .exited)
    {a : Act C P} (hhand : (s.cpu a.cpu).hand ≠ some q) (hstep : step init s a = some s') :
  Frame s s' a.cpu q
  := by
  obtain ⟨c, r⟩ := a
  rw [step] at hstep
  split at hstep
  · next _ p hpc =>
      have hpq : p ≠ q := by
        rintro rfl
        exact hhand (by rw [Cpu.hand, hpc])
      exact frame_thread h hpq hexited rfl hstep
  · exact frame_go hhand hstep
  · cases hstep

/-! ### The processor that has the thread in its hand -/

omit [DecidableEq C] [DecidableEq P] in
/-- Where a processor is that has an exited thread in its hand. -/
theorem Inv.pc_of_exited (h : Inv init s loc freer) (hhand : (s.cpu c).hand = some q)
    (hexited : (s.process q).point = .exited) :
  (s.cpu c).pc = .thread q ∨ (s.cpu c).pc = .save q ∨ (s.cpu c).pc = .leave q
    ∨ (s.cpu c).pc = .unload q ∨ (s.cpu c).pc = .park q
    ∨ (s.cpu c).pc = .top ∧ (s.cpu c).lastThread = some q
    ∨ (s.cpu c).pc = .test q ∨ (s.cpu c).pc = .finish q
  := by
  have hknows := h.knows c q hhand
  rw [Cpu.hand] at hhand
  rw [hexited] at hknows
  cases hpc : (s.cpu c).pc with
  | start => simp [hpc] at hhand
  | idle => simp [hpc] at hhand
  | top => simpa [hpc] using hhand
  | thread p => simpa [hpc] using hhand
  | save p => simpa [hpc] using hhand
  | leave p => simpa [hpc] using hhand
  | unload p => simpa [hpc] using hhand
  | park p => simpa [hpc] using hhand
  | test p => simpa [hpc] using hhand
  | finish p => simpa [hpc] using hhand
  | _ => exact absurd hknows (by rw [hpc]; simp [Pc.Knows])

omit [DecidableEq C] [DecidableEq P] in
theorem Inv.lag_pos (h : Inv init s loc freer) (hhand : (s.cpu c).hand = some q)
    (hexited : (s.process q).point = .exited) :
  0 < (s.cpu c).pc.lag
  := by
  rcases h.pc_of_exited hhand hexited with hpc | hpc | hpc | hpc | hpc | ⟨hpc, _⟩ | hpc | hpc
  all_goals simp [hpc, Pc.lag]

/-- A step of a processor that is not in a thread. -/
theorem goStep_of_step {a : Act C P} (hgo : ∀ p, (s.cpu a.cpu).pc ≠ .thread p)
    (hstep : step init s a = some s') :
  goStep s a.cpu = some s'
  := by
  rw [step] at hstep
  split at hstep
  · next _ p hpc => exact absurd hpc (hgo p)
  · exact hstep
  · cases hstep

omit [DecidableEq P] in
/-- The processor `c` goes on, and still has the thread in its hand. -/
theorem Ending.of_setCpu {x : Cpu P} {n : Nat} (hexited : (s.process q).point = .exited)
    (hx : x.hand = some q) (hlag : x.pc.lag ≤ n) :
  Ending (s.setCpu c x) q c n
  := by
  refine ⟨hexited, Or.inr ?_⟩
  rw [System.setCpu_self]
  exact ⟨hx, hlag⟩

/-- A step of the processor that has an exited thread in its hand brings that nearer to its end. -/
theorem Inv.ending_step (h : Inv init s loc freer) (hhand : (s.cpu c).hand = some q)
    (hexited : (s.process q).point = .exited) {r : Request P} {n : Nat}
    (hlag : (s.cpu c).pc.lag ≤ n + 1) (hstep : step init s ⟨c, r⟩ = some s') :
  Ending s' q c n
  := by
  have hmade : loc q ≠ .unmade := by simp [(h.hand c q).mp hhand]
  rcases h.pc_of_exited hhand hexited with hpc | hpc | hpc | hpc | hpc | ⟨hpc, hlast⟩ | hpc | hpc
  · rw [hpc] at hlag
    simp only [step, hpc, hexited] at hstep
    cases r with
    | go =>
        obtain rfl := Option.some.inj hstep
        exact Ending.of_setCpu hexited rfl (Nat.le_of_succ_le_succ hlag)
    | _ => cases hstep
  all_goals
    have hgo := goStep_of_step (by simp [hpc]) hstep
    rw [goStep, hpc] at hgo
    rw [hpc] at hlag
  · obtain rfl := Option.some.inj hgo
    exact Ending.of_setCpu hexited rfl (Nat.le_of_succ_le_succ hlag)
  · obtain rfl := Option.some.inj hgo
    exact Ending.of_setCpu ((Same.leaveProcess s c q).point.trans hexited) rfl
      (Nat.le_of_succ_le_succ hlag)
  · obtain rfl := Option.some.inj hgo
    exact Ending.of_setCpu hexited rfl (Nat.le_of_succ_le_succ hlag)
  · obtain rfl := Option.some.inj hgo
    have hlast := ((h.cpu c).at_pc hpc (by simp)).2.2 q rfl
    exact Ending.of_setCpu hexited hlast (Nat.le_of_succ_le_succ hlag)
  · simp only [hlast, if_pos (h.unfinished hhand)] at hgo
    obtain rfl := Option.some.inj hgo
    exact Ending.of_setCpu hexited rfl (Nat.le_of_succ_le_succ hlag)
  · have hzombie := ((h.process q).zombie hmade).mpr hexited
    have hdead : (s.process q).alive = false := by
      rw [Process.alive, hzombie]
      rfl
    simp only [hdead, Bool.false_eq_true, if_false] at hgo
    obtain rfl := Option.some.inj hgo
    exact Ending.of_setCpu hexited rfl (Nat.le_of_succ_le_succ hlag)
  · obtain rfl := Option.some.inj hgo
    constructor
    · exact (s.setThreadState_point ..).trans hexited
    · left
      change ((s.setThreadState q .finished).process q).threadState = .finished
      rw [System.setThreadState, System.setProcess_self]

/-- A processor that has an exited thread in its hand can go on. -/
theorem Inv.can_step (h : Inv init s loc freer) (hhand : (s.cpu c).hand = some q)
    (hexited : (s.process q).point = .exited) :
  ∃ t, step init s ⟨c, .go⟩ = some t
  := by
  rcases h.pc_of_exited hhand hexited with hpc | hpc | hpc | hpc | hpc | ⟨hpc, hlast⟩ | hpc | hpc
  · exact ⟨_, by simp only [step, hpc, hexited, threadStep]; rfl⟩
  all_goals simp only [step, goStep, hpc]
  · exact ⟨_, rfl⟩
  · exact ⟨_, rfl⟩
  · exact ⟨_, rfl⟩
  · exact ⟨_, rfl⟩
  · rw [hlast]
    dsimp only
    split_ifs
    · exact ⟨_, rfl⟩
    · exact ⟨_, rfl⟩
  · split_ifs
    · exact ⟨_, rfl⟩
    · exact ⟨_, rfl⟩
  · exact ⟨_, rfl⟩

/-! ### Runs of all processors -/

/-- Every step of a processor keeps the thread on its way, and one of `c` brings it on. -/
theorem Ending.next (h : Inv init s loc freer) {n : Nat} (hending : Ending s q c n) {a : Act C P}
    (hstep : step init s a = some s') :
  Ending s' q c (if a.cpu = c then n - 1 else n)
  := by
  obtain ⟨hexited, hfinished | ⟨hhand, hlag⟩⟩ := hending
  · have hother : (s.cpu a.cpu).hand ≠ some q := fun hhand => h.unfinished hhand hfinished
    have hsame := (frame_step h hexited hother hstep).same
    exact ⟨hsame.point.trans hexited, Or.inl (hsame.threadState.trans hfinished)⟩
  · rcases eq_or_ne a.cpu c with rfl | hc
    · rw [if_pos rfl]
      have hpos := h.lag_pos hhand hexited
      exact h.ending_step hhand hexited (by omega) hstep
    · rw [if_neg hc]
      have hother : (s.cpu a.cpu).hand ≠ some q := by
        intro hhand'
        have hheld := (h.hand a.cpu q).mp hhand'
        rw [(h.hand c q).mp hhand] at hheld
        exact hc (Loc.held.inj hheld).symm
      obtain ⟨hcpu, hsame⟩ := frame_step h hexited hother hstep
      refine ⟨hsame.point.trans hexited, Or.inr ?_⟩
      rw [hcpu c hc.symm]
      exact ⟨hhand, hlag⟩

/-- In any run, the thread is as much nearer to its end as the processor `c` has taken steps. -/
theorem Ending.run (h : Consistent init s) {n : Nat} (hending : Ending s q c n)
    {acts : List (Act C P)} (hrun : acts.foldlM (step init) s = some s') :
  Consistent init s' ∧ Ending s' q c (n - acts.countP fun a => a.cpu = c)
  := by
  induction acts generalizing s n with
  | nil =>
      obtain rfl := Option.some.inj hrun
      exact ⟨h, hending⟩
  | cons a acts ih =>
      obtain ⟨t, hstep, hrest⟩ := Option.bind_eq_some_iff.mp hrun
      obtain ⟨loc, freer, hinv⟩ := h
      have hnext := ih (inv_step hinv hstep) (hending.next hinv hstep) hrest
      rw [List.countP_cons]
      rcases eq_or_ne a.cpu c with hc | hc
      · rw [if_pos hc] at hnext
        simp only [hc, decide_true, if_true]
        rwa [Nat.add_comm, ← Nat.sub_sub]
      · rw [if_neg hc] at hnext
        simpa [hc] using hnext

omit [DecidableEq C] [DecidableEq P] in
/-- A thread that a parent waits for is on its way to the end, or there. -/
theorem Inv.ending_of_await (h : Inv init s loc freer)
    (hpoint : (s.process p).point = .freeing q .await) (bsp : C) :
  ∃ c, Ending s q c 8
  := by
  have hfreer := (h.free p q .await).mp (by rw [hpoint]; rfl)
  have hq := h.process q
  obtain ⟨hparent, hzombie, _⟩ := hq.freed p .await hfreer
  have hmade := hq.made_of_parent hparent
  have hexited := (hq.zombie hmade).mp hzombie
  rcases h.held_or_done hexited with hdone | ⟨c, hheld⟩
  · exact ⟨bsp, hexited, Or.inl ((hq.finished hmade).mpr hdone)⟩
  · have hhand := (h.hand c q).mpr hheld
    refine ⟨c, hexited, Or.inr ⟨hhand, ?_⟩⟩
    rcases h.pc_of_exited hhand hexited with hpc | hpc | hpc | hpc | hpc | ⟨hpc, _⟩ | hpc | hpc
    all_goals simp [hpc, Pc.lag]

/-- A parent does not wait in vain: whatever the processors do, one of them can always go on and
comes to the end of the thread in at most eight steps of its own. -/
theorem await_ends (init : P) (bsp : C) {s : System C P} (h : Reached init bsp s) {p q : P}
    (hpoint : (s.process p).point = .freeing q .await) :
  ∃ c, ∀ (acts : List (Act C P)) (s' : System C P),
    acts.foldlM (step init) s = some s' → (s'.process q).runs = true →
      acts.countP (fun a => a.cpu = c) < 8 ∧ ∃ t, step init s' ⟨c, .go⟩ = some t
  := by
  obtain ⟨loc, freer, hinv⟩ := consistent_of_reached init bsp h
  obtain ⟨c, hending⟩ := hinv.ending_of_await hpoint bsp
  use c
  intro acts s' hrun hruns
  obtain ⟨⟨loc', freer', hinv'⟩, hexited, hlag⟩ := hending.run ⟨loc, freer, hinv⟩ hrun
  rcases hlag with hfinished | ⟨hhand, hlag⟩
  · rw [Process.runs, hfinished] at hruns
    cases hruns
  · have hpos := hinv'.lag_pos hhand hexited
    exact ⟨by omega, hinv'.can_step hhand hexited⟩

end Steps

theorem await_ends_exitAndWait :
  ∃ s, (exitAndWait.take 25).foldlM (step 0) (boot 0 false) = some s
    ∧ (s.process 1).runs = true
    ∧ ∃ c, ∀ (acts : List (Act Bool Nat)) (s' : System Bool Nat),
      acts.foldlM (step 0) s = some s' → (s'.process 1).runs = true →
        acts.countP (fun a => a.cpu = c) < 8 ∧ ∃ t, step 0 s' ⟨c, .go⟩ = some t
  := by
  obtain ⟨s, hrun, hfrees, hruns⟩ : ∃ s, (exitAndWait.take 25).foldlM (step 0) (boot 0 false)
      = some s ∧ (s.process 0).point.frees = some (1, .await) ∧ (s.process 1).runs = true := by
    have hsome : ((exitAndWait.take 25).foldlM (step 0) (boot 0 false)).map
        (fun s => ((s.process 0).point.frees, (s.process 1).runs))
        = some (some (1, .await), true) := by decide
    obtain ⟨s, hrun, hs⟩ := Option.map_eq_some_iff.mp hsome
    exact ⟨s, hrun, congrArg Prod.fst hs, congrArg Prod.snd hs⟩
  have hreached : Reached 0 false s := Reachable.run (.start rfl) hrun
  exact ⟨s, hrun, hruns, await_ends 0 false hreached (Point.eq_of_frees hfrees)⟩

end Reap
