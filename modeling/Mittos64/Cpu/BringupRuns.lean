import Mittos64.Cpu.Bringup

/-!
# Runs of processors that start

With delays that are long enough the processors start as they should, in any order of the steps.
With shorter ones two processors come to run on the stack of one of them, and a processor comes to
run while it is counted as failed.
-/

namespace Smp.Bringup

/-- What comes of starting `n` processors: one that has left `.ap_sync_loop` has its own `cpu_t` and
is counted as started, none goes behind the loop of `ap_start` before all of them have been gone
over, and at the end each is started with its own `cpu_t`, or is failed and still waits. -/
structure Sound (n : Nat) (s : System) : Prop where
  own : ∀ k g, s.ap k = .kernel g ∨ s.ap k = .running g →
    g = k ∧ k ≠ 0 ∧ k < n ∧ s.currentState k = cpuStarted
  after : ∀ k g, s.ap k = .running g → ∀ j, j ≠ 0 → j < n → Served j (s.ap j) (s.currentState j)
  done : s.bsp = .done → ∀ j, j ≠ 0 → j < n → Served j (s.ap j) (s.currentState j)

theorem Inv.sound {n : Nat} {s : System} (h : Inv n s) : Sound n s where
  own k g hg := by
    have hmoved : Known n k s.bsp (s.ap k) (s.currentState k) := by
      rcases h.known k with hoff | hreset | hknown
      · rw [hoff] at hg
        rcases hg with hg | hg
        · cases hg
        · cases hg
      · rw [hreset] at hg
        rcases hg with hg | hg
        · cases hg
        · cases hg
      · exact hknown
    obtain ⟨a, ha⟩ : ∃ a, s.ap k = a := ⟨_, rfl⟩
    obtain ⟨state, hstate⟩ : ∃ state, s.currentState k = state := ⟨_, rfl⟩
    rw [ha, hstate] at hmoved
    rw [ha] at hg
    rw [hstate]
    have hle := h.le
    cases hmoved with
    | asked _ _ _ _ hway =>
        rcases hway with rfl | rfl
        · rcases hg with hg | hg
          · cases hg
          · cases hg
        · rcases hg with hg | hg
          · cases hg
          · cases hg
    | waiting =>
        rcases hg with hg | hg
        · cases hg
        · cases hg
    | started hk hlt hway =>
        refine ⟨?_, hk, by omega, rfl⟩
        rcases hway with rfl | rfl | rfl
        · rcases hg with hg | hg
          · cases hg
          · cases hg
        · rcases hg with hg | hg
          · injection hg with hg
            exact hg.symm
          · cases hg
        · rcases hg with hg | hg
          · cases hg
          · injection hg with hg
            exact hg.symm
  after k g hg j hj hn := by
    have hall := h.all (h.running k g hg)
    have hexpected := h.expected j
    rw [expected_served hj (by omega)] at hexpected
    exact hexpected
  done hdone j hj hn := by
    have hindex : s.bsp.index n = n := by
      rw [hdone]
      rfl
    have hexpected := h.expected j
    rw [expected_served hj (by omega)] at hexpected
    exact hexpected

/-- Two processors, the second of which answers in the second delay. -/
def twoStart : List Act :=
  [.bsp false, .bsp false, .bsp false, .bsp false, .bsp false, .bsp false, .bsp false, .bsp true,
    .ap 1, .ap 1, .ap 1, .bsp false, .bsp false, .ap 1, .bsp false, .bsp false, .ap 1]

/-- A step in any order. -/
def Step (n : Nat) (target : Nat → Nat) (s s' : System) : Prop :=
  ∃ act, step n target s act = some s'

section Late

variable {n : Nat} {target : Nat → Nat}

/-- Steps one after the other. -/
theorem reachable_run {s s' : System} (h : Reachable (· = start) (Step n target) s)
    (acts : List Act) (hrun : acts.foldlM (step n target) s = some s') :
  Reachable (· = start) (Step n target) s'
  := by
  exact h.run hrun

/-- The steps of `ap_init` for a processor that does not answer. -/
def unanswered (taken : Bool) : List Act :=
  [.bsp false, .bsp false, .bsp false, .bsp taken] ++ List.replicate 5 (.bsp false)

/-- A processor that does not answer is failed, and `cpu_init` goes on.  It waits where it is. -/
theorem run_unanswered (hid : ∀ i < n, target i = i) (taken : Bool) {s : System} {i : Nat}
    (hi : i < n) (hb : s.bsp = .check i) (hstopped : s.currentState i = cpuStopped) :
  (unanswered taken).foldlM (step n target) s
    = some { (s.setAp i (if taken then .boot else .reset)).setState i cpuFailed with
      bsp := .check (i + 1), apGsBase := some i }
  := by
  obtain ⟨b, ap, currentState, apGsBase, allApStarted, mapped⟩ := s
  subst hb
  simp only at hstopped
  cases taken <;>
    simp [unanswered, List.replicate, step, bspStep, not_stopped_iff, hi, hstopped, hid i hi,
      System.setAp, System.setState, System.startup, cpuSipiSent, cpuSipiRec]

/-- The steps up to the delay of the first `STARTUP`, which is taken. -/
def asking : List Act :=
  [.bsp false, .bsp false, .bsp false, .bsp true]

theorem run_asking (hid : ∀ i < n, target i = i) {s : System} {i : Nat} (hi : i < n)
    (hb : s.bsp = .check i) (hstopped : s.currentState i = cpuStopped) :
  asking.foldlM (step n target) s
    = some { (s.setAp i .boot).setState i cpuSipiSent with bsp := .look i, apGsBase := some i }
  := by
  obtain ⟨b, ap, currentState, apGsBase, allApStarted, mapped⟩ := s
  subst hb
  simp only at hstopped
  simp [asking, step, bspStep, not_stopped_iff, hi, hstopped, hid i hi, System.setAp,
    System.setState, System.startup]

/-- A processor in the trampoline takes the `cpu_t` that `ap_gs_base` points to, and answers
there. -/
theorem run_answer {s : System} {k g : Nat} (ha : s.ap k = .boot) (hmapped : s.mapped = true)
    (hbase : s.apGsBase = some g) :
  [Act.ap k, Act.ap k].foldlM (step n target) s
    = some ((s.setState g cpuSipiRec).setAp k (.spin g))
  := by
  simp [step, apStep, ha, hmapped, hbase, System.setAp, System.setState]

/-- An answer that the first processor sees in the first delay. -/
theorem run_seen {s : System} {i : Nat} (hb : s.bsp = .look i)
    (hrec : s.currentState i = cpuSipiRec) :
  [Act.bsp false, Act.bsp false, Act.bsp false].foldlM (step n target) s
    = some { s.setState i cpuStarted with bsp := .check (i + 1) }
  := by
  obtain ⟨b, ap, currentState, apGsBase, allApStarted, mapped⟩ := s
  subst hb
  simp only at hrec
  simp [step, bspStep, hrec, System.setState]

/-- A processor in `.ap_sync_loop` leaves it when its `cpu_t` is not in the state of an answer, and
goes on when all processors have been gone over. -/
theorem run_go {s : System} {k g : Nat} (ha : s.ap k = .spin g)
    (hstate : s.currentState g ≠ cpuSipiRec) (hall : s.allApStarted = true) :
  [Act.ap k, Act.ap k].foldlM (step n target) s = some (s.setAp k (.running g))
  := by
  simp [step, apStep, ha, hstate, hall, System.setAp]

theorem run_enter {s : System} {k g : Nat} (ha : s.ap k = .kernel g)
    (hall : s.allApStarted = true) :
  [Act.ap k].foldlM (step n target) s = some (s.setAp k (.running g))
  := by
  simp [step, apStep, ha, hall]

/-- The steps of a processor that answers between the test behind the first delay and the write for
the second `STARTUP`. -/
def crossing (k : Nat) : List Act :=
  [.ap k, .bsp false, .ap k, .bsp false, .ap k, .bsp false, .bsp false, .bsp false]

/-- The answer is overwritten.  So the processor goes on, and is failed. -/
theorem run_crossing {s : System} {k : Nat} (hb : s.bsp = .look k) (ha : s.ap k = .boot)
    (hsent : s.currentState k = cpuSipiSent) (hmapped : s.mapped = true)
    (hbase : s.apGsBase = some k) :
  (crossing k).foldlM (step n target) s
    = some { (s.setAp k (.kernel k)).setState k cpuFailed with bsp := .check (k + 1) }
  := by
  obtain ⟨b, ap, currentState, apGsBase, allApStarted, mapped⟩ := s
  subst hb
  simp only at ha hsent hmapped hbase
  simp [crossing, step, bspStep, apStep, ha, hsent, hmapped, hbase, System.setAp, System.setState,
    System.startup, cpuSipiSent, cpuSipiRec]

/-- The loop of `cpu_init` goes over processors that take no `STARTUP`, and nothing happens to the
others. -/
theorem skip (hid : ∀ i < n, target i = i) {s : System}
    (h : Reachable (· = start) (Step n target) s) {i m : Nat} (him : i ≤ m) (hm : m ≤ n)
    (hb : s.bsp = .check i) (hstopped : ∀ j, i ≤ j → j < m → s.currentState j = cpuStopped) :
  ∃ s', Reachable (· = start) (Step n target) s' ∧ s'.bsp = .check m
    ∧ (∀ j, j < i ∨ m ≤ j → s'.ap j = s.ap j ∧ s'.currentState j = s.currentState j)
    ∧ s'.allApStarted = s.allApStarted ∧ s'.mapped = s.mapped
  := by
  induction m, him using Nat.le_induction with
  | base => exact ⟨s, h, hb, fun _ _ => ⟨rfl, rfl⟩, rfl, rfl⟩
  | succ m him ih =>
      obtain ⟨t, ht, hcheck, hkept, hall, hmapped⟩ :=
        ih (Nat.le_of_succ_le hm) (fun j hij hjm => hstopped j hij (Nat.lt_succ_of_lt hjm))
      have hstop : t.currentState m = cpuStopped :=
        (hkept m (Or.inr le_rfl)).2.trans (hstopped m him (Nat.lt_succ_self m))
      refine ⟨_, reachable_run ht _ (run_unanswered hid false hm hcheck hstop), rfl, ?_, hall, hmapped⟩
      intro j hj
      have hne : j ≠ m := by omega
      obtain ⟨hap, hstate⟩ := hkept j (by omega)
      refine ⟨?_, ?_⟩
      · exact (Function.update_of_ne hne _ _).trans hap
      · exact (Function.update_of_ne hne _ _).trans hstate

/-- The first processor can come to any other one when nothing has happened to that and to the
ones behind it. -/
theorem reach_check (hid : ∀ i < n, target i = i) {k : Nat} (hk : k ≠ 0) (hn : k ≤ n) :
  ∃ s, Reachable (· = start) (Step n target) s ∧ s.bsp = .check k
    ∧ (∀ j, k ≤ j → s.ap j = .off ∧ s.currentState j = cpuStopped) ∧ s.mapped = true
  := by
  have hone : Reachable (· = start) (Step n target) { start with bsp := .check 1 } := by
    apply reachable_run (.start rfl) [.bsp false]
    have hpos : 0 < n := by omega
    simp [step, bspStep, start, hpos, cpuStarted, cpuStopped]
  obtain ⟨s, hs, hcheck, hkept, _, hmapped⟩ := skip hid hone (Nat.pos_of_ne_zero hk) hn rfl (by
    intro j hj _
    exact if_pos (Nat.ne_of_gt hj))
  refine ⟨s, hs, hcheck, ?_, hmapped⟩
  intro j hj
  obtain ⟨hap, hstate⟩ := hkept j (Or.inr hj)
  exact ⟨hap, hstate.trans (if_pos (by omega))⟩

/-- The last steps of `cpu_init`. -/
theorem reach_all {s : System} (h : Reachable (· = start) (Step n target) s)
    (hb : s.bsp = .check n) :
  Reachable (· = start) (Step n target) { s with bsp := .unmap, allApStarted := true }
  := by
  apply reachable_run h [.bsp false, .bsp false]
  obtain ⟨b, ap, currentState, apGsBase, allApStarted, mapped⟩ := s
  subst hb
  simp [step, bspStep]

/-- Whatever the number of processors, any of them but the last one can come to run with the `cpu_t`
of the next one, and so on its stack, which runs as well. -/
theorem shared_cpu (hid : ∀ i < n, target i = i) {k : Nat} (hk : k ≠ 0) (hn : k + 1 < n) :
  ∃ s, Reachable (· = start) (Step n target) s ∧ s.ap k = .running (k + 1)
    ∧ s.ap (k + 1) = .running (k + 1)
  := by
  have hself : k ≠ k + 1 := (Nat.succ_ne_self k).symm
  obtain ⟨s, hs, hcheck, hrest, hmapped⟩ := reach_check hid hk (by omega)
  -- The processor takes a `STARTUP`, but does not go on before `ap_init` is at the next one.
  have hs₁ := reachable_run hs _ (run_unanswered hid true (by omega) hcheck (hrest k le_rfl).2)
  have hs₂ := reachable_run hs₁ _ (run_asking hid hn rfl (by
    change Function.update s.currentState k _ _ = _
    rw [Function.update_of_ne hself.symm]
    exact (hrest _ (Nat.le_succ k)).2))
  have hs₃ := reachable_run hs₂ _ (run_answer (by
    change Function.update (Function.update s.ap k _) (k + 1) _ k = _
    rw [Function.update_of_ne hself, Function.update_self]
    rfl) hmapped rfl)
  have hs₄ := reachable_run hs₃ _ (run_answer (by
    change Function.update (Function.update _ (k + 1) _) k _ (k + 1) = _
    rw [Function.update_of_ne hself.symm, Function.update_self]) hmapped rfl)
  have hs₅ := reachable_run hs₄ _ (run_seen rfl (by
    change Function.update _ _ _ _ = _
    rw [Function.update_self]))
  obtain ⟨t, ht, hlast, hkept, _, _⟩ := skip hid hs₅ (Nat.succ_le_of_lt hn) le_rfl rfl (by
    intro j hj _
    have hk₁ : j ≠ k + 1 := by omega
    have hk₀ : j ≠ k := by omega
    change Function.update (Function.update (Function.update (Function.update (Function.update
      s.currentState k _) (k + 1) _) (k + 1) _) (k + 1) _) (k + 1) _ j = _
    simp only [Function.update_of_ne hk₁, Function.update_of_ne hk₀]
    exact (hrest j (by omega)).2)
  have hapk : t.ap k = .spin (k + 1) := by
    rw [(hkept k (Or.inl (by omega))).1]
    change Function.update (Function.update _ k _) (k + 1) _ k = _
    rw [Function.update_of_ne hself, Function.update_self]
  have hapn : t.ap (k + 1) = .spin (k + 1) := by
    rw [(hkept _ (Or.inl (Nat.lt_succ_self _))).1]
    exact Function.update_self _ _ _
  have hstate : t.currentState (k + 1) = cpuStarted := by
    rw [(hkept _ (Or.inl (Nat.lt_succ_self _))).2]
    exact Function.update_self _ _ _
  have hrec : t.currentState (k + 1) ≠ cpuSipiRec := by
    rw [hstate]
    decide
  have hs₆ := reachable_run (reach_all ht hlast) _ (run_go hapk hrec rfl)
  have hs₇ := reachable_run hs₆ _ (run_go (by
    change Function.update t.ap k _ (k + 1) = _
    rw [Function.update_of_ne hself.symm]
    exact hapn) hrec rfl)
  refine ⟨_, hs₇, ?_, ?_⟩
  · change Function.update (Function.update _ k _) (k + 1) _ k = _
    rw [Function.update_of_ne hself, Function.update_self]
  · exact Function.update_self _ _ _

/-- Whatever the number of processors, any of them can come to run while it is counted as failed. -/
theorem failed_cpu (hid : ∀ i < n, target i = i) {k : Nat} (hk : k ≠ 0) (hn : k < n) :
  ∃ s, Reachable (· = start) (Step n target) s ∧ s.ap k = .running k
    ∧ s.currentState k = cpuFailed
  := by
  obtain ⟨s, hs, hcheck, hrest, hmapped⟩ := reach_check hid hk (Nat.le_of_lt hn)
  have hs₁ := reachable_run hs _ (run_asking hid hn hcheck (hrest k le_rfl).2)
  have hs₂ := reachable_run hs₁ _ (run_crossing rfl (Function.update_self _ _ _)
    (Function.update_self _ _ _) hmapped rfl)
  obtain ⟨t, ht, hlast, hkept, _, _⟩ := skip hid hs₂ (Nat.succ_le_of_lt hn) le_rfl rfl (by
    intro j hj _
    have hk₀ : j ≠ k := by omega
    change Function.update (Function.update s.currentState k _) k _ j = _
    rw [Function.update_of_ne hk₀, Function.update_of_ne hk₀]
    exact (hrest j (by omega)).2)
  obtain ⟨hap, hstate⟩ := hkept k (Or.inl (Nat.lt_succ_self _))
  have hkernel : t.ap k = .kernel k := hap.trans (Function.update_self _ _ _)
  refine ⟨_, reachable_run (reach_all ht hlast) _ (run_enter hkernel rfl), ?_, ?_⟩
  · exact Function.update_self _ _ _
  · exact hstate.trans (Function.update_self _ _ _)

/-- The delays of `ap_init` have to be long enough: without that each of the other processors can
come to run while it is counted as failed, and each but the last one can come to run on the stack of
the next one, which runs as well. -/
theorem late_answers (hid : ∀ i < n, target i = i) {k : Nat} (hk : k ≠ 0) (hn : k < n) :
  (∃ s, Reachable (· = start) (Step n target) s ∧ s.ap k = .running k
    ∧ s.currentState k = cpuFailed)
    ∧ (k + 1 < n → ∃ s, Reachable (· = start) (Step n target) s ∧ s.ap k = .running (k + 1)
      ∧ s.ap (k + 1) = .running (k + 1))
  := by
  exact ⟨failed_cpu hid hk hn, shared_cpu hid hk⟩

theorem late_answers_three :
  (∃ s, Reachable (· = start) (Step 3 id) s ∧ s.ap 1 = .running 1
    ∧ s.currentState 1 = cpuFailed)
    ∧ (1 + 1 < 3 → ∃ s, Reachable (· = start) (Step 3 id) s ∧ s.ap 1 = .running (1 + 1)
      ∧ s.ap (1 + 1) = .running (1 + 1))
  := by
  exact late_answers (fun _ _ => rfl) (by decide) (by decide)

end Late

end Smp.Bringup
