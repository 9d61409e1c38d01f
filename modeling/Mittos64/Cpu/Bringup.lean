import Mittos64.Cpu.Startup
import Mittos64.Lib.Run

/-!
# Processors that start while the first one goes on

The loop of `cpu_init` over `ap_init`, the end of `trampoline.S`, and `ap_start`, in any order of
their steps.  The first processor tells the one that it starts by `ap_gs_base` which `cpu_t` it has,
and each of the two tells the other by `current_state` how far it is.  The first processor only waits
for a time: when that is long enough, every processor that comes to `ap_start` has its own `cpu_t`,
and so its own stack, and is counted as started.  A processor that answers late takes the `cpu_t` of
the next one, or runs while it is counted as failed.
-/

namespace Smp.Bringup

/-- Where the first processor is: in `ap_init` for the processor `i`, or behind the loop of
`cpu_init`. -/
inductive Bsp where
  /-- at the test of the loop of `cpu_init`, and at the first one of `ap_init` -/
  | check (i : Nat)
  /-- behind the `INIT` and its delay -/
  | base (i : Nat)
  /-- before `current_state` is set for the first `STARTUP` -/
  | sent (i : Nat)
  /-- before the first `STARTUP` -/
  | sipi (i : Nat)
  /-- in the delay of the first `STARTUP`, and at the test behind it -/
  | look (i : Nat)
  /-- before `current_state` is set for the second `STARTUP` -/
  | resent (i : Nat)
  /-- before the second `STARTUP` -/
  | resipi (i : Nat)
  /-- in the delay of the second `STARTUP`, if it was sent, and at the last test -/
  | relook (i : Nat)
  /-- before `current_state` is set to `CPU_FAILED` -/
  | fail (i : Nat)
  /-- before `current_state` is set to `CPU_STARTED` -/
  | finish (i : Nat)
  /-- before `all_ap_started` is set -/
  | all
  /-- before the pages of the trampoline are unmapped -/
  | unmap
  | done
  deriving DecidableEq

/-- Where another processor is.  The number is that of the `cpu_t` that its `gs` base points to. -/
inductive Ap where
  /-- not sent anything yet -/
  | off
  /-- waiting for a `STARTUP` -/
  | reset
  /-- in the trampoline, before it reads `ap_gs_base` -/
  | boot
  /-- before it sets `current_state` to `CPU_SIPI_REC` -/
  | based (g : Nat)
  /-- in `.ap_sync_loop` -/
  | spin (g : Nat)
  /-- on the stack of the `cpu_t`, in `ap_start` up to its loop -/
  | kernel (g : Nat)
  /-- behind the loop of `ap_start` -/
  | running (g : Nat)
  deriving DecidableEq

/-- The processors, with what they share: `current_state` of `cpus[i]`, the number of the `cpu_t`
that `ap_gs_base` points to, `all_ap_started`, and whether the pages of the trampoline are mapped. -/
structure System where
  bsp : Bsp
  ap : Nat → Ap
  currentState : Nat → Nat
  apGsBase : Option Nat
  allApStarted : Bool
  mapped : Bool

/-- The state in which `cpu_init` comes to its loop, with the processors that `cpu_add` has added. -/
def start : System where
  bsp := .check 0
  ap := fun _ => .off
  currentState := fun i => if i ≠ 0 then cpuStopped else cpuStarted
  apGsBase := none
  allApStarted := false
  mapped := true

/-- Write `cpus[i].current_state`. -/
def System.setState (s : System) (i state : Nat) : System :=
  { s with currentState := Function.update s.currentState i state }

/-- Write where a processor is. -/
def System.setAp (s : System) (k : Nat) (a : Ap) : System :=
  { s with ap := Function.update s.ap k a }

/-- A `STARTUP` for the processor `k`, which only one that waits for it takes.  It may be lost. -/
def System.startup (s : System) (k : Nat) (taken : Bool) : System :=
  if s.ap k = .reset ∧ taken = true then s.setAp k .boot else s

/-- A step of the first processor, in `cpu_init` for `n` processors.  An interrupt for `cpus[i].id`
goes to the processor `target i`, and `taken` says whether a `STARTUP` is taken. -/
def bspStep (n : Nat) (target : Nat → Nat) (taken : Bool) (s : System) : Option System :=
  match s.bsp with
  | .check i =>
      if i < n then
        -- `!cpu->current_state == CPU_STOPPED`
        if (if s.currentState i = 0 then 1 else 0) = cpuStopped then
          some { s with bsp := .check (i + 1) }
        else some { s.setAp (target i) .reset with bsp := .base i }
      else some { s with bsp := .all }
  | .base i => some { s with apGsBase := some i, bsp := .sent i }
  | .sent i => some { s.setState i cpuSipiSent with bsp := .sipi i }
  | .sipi i => some { s.startup (target i) taken with bsp := .look i }
  | .look i =>
      if s.currentState i ≠ cpuSipiRec then some { s with bsp := .resent i }
      else some { s with bsp := .relook i }
  | .resent i => some { s.setState i cpuSipiSent with bsp := .resipi i }
  | .resipi i => some { s.startup (target i) taken with bsp := .relook i }
  | .relook i =>
      if s.currentState i ≠ cpuSipiRec then some { s with bsp := .fail i }
      else some { s with bsp := .finish i }
  | .fail i => some { s.setState i cpuFailed with bsp := .check (i + 1) }
  | .finish i => some { s.setState i cpuStarted with bsp := .check (i + 1) }
  | .all => some { s with allApStarted := true, bsp := .unmap }
  | .unmap => some { s with mapped := false, bsp := .done }
  | .done => none

/-- A step of the processor `k`.  In the trampoline it goes on only while that is mapped and there
is a `cpu_t` for it. -/
def apStep (k : Nat) (s : System) : Option System :=
  match s.ap k with
  | .off => none
  | .reset => none
  | .boot => if s.mapped = true then s.apGsBase.map fun g => s.setAp k (.based g) else none
  | .based g => some ((s.setState g cpuSipiRec).setAp k (.spin g))
  | .spin g =>
      if s.currentState g = cpuSipiRec then some s
      else some (s.setAp k (.kernel g))
  | .kernel g => if s.allApStarted = true then some (s.setAp k (.running g)) else some s
  | .running _ => none

/-- A step of a processor. -/
inductive Act where
  | bsp (taken : Bool)
  | ap (k : Nat)

/-- The effect of a step. -/
def step (n : Nat) (target : Nat → Nat) (s : System) : Act → Option System
  | .bsp taken => bspStep n target taken s
  | .ap k => apStep k s

/-- The processor has taken a `STARTUP` and not answered it. -/
def Ap.OnItsWay : Ap → Prop
  | .boot => True
  | .based _ => True
  | _ => False

instance (a : Ap) : Decidable a.OnItsWay :=
  match a with
  | .boot => isTrue trivial
  | .based _ => isTrue trivial
  | .off => isFalse id
  | .reset => isFalse id
  | .spin _ => isFalse id
  | .kernel _ => isFalse id
  | .running _ => isFalse id

/-- The processor that is looked at when a delay of a `STARTUP` ends. -/
def Bsp.looksAt : Bsp → Option Nat
  | .look i => some i
  | .relook i => some i
  | _ => none

/-- The delay was long enough: the processor has answered the `STARTUP`s that it took. -/
def Prompt (s : System) : Act → Prop
  | .bsp _ => ∀ i ∈ s.bsp.looksAt, ¬ (s.ap i).OnItsWay
  | .ap _ => True

instance (s : System) (act : Act) : Decidable (Prompt s act) :=
  match act with
  | .bsp _ => inferInstanceAs (Decidable (∀ i ∈ s.bsp.looksAt, ¬ (s.ap i).OnItsWay))
  | .ap _ => isTrue trivial

/-- A step when the delays are long enough. -/
def promptStep (n : Nat) (target : Nat → Nat) (s : System) (act : Act) : Option System :=
  if Prompt s act then step n target s act else none

/-! ### With delays that are long enough -/

/-- The processor that `cpu_init` is at.  Behind its loop that is none of the `n`. -/
def Bsp.index (n : Nat) : Bsp → Nat
  | .check i => i
  | .base i => i
  | .sent i => i
  | .sipi i => i
  | .look i => i
  | .resent i => i
  | .resipi i => i
  | .relook i => i
  | .fail i => i
  | .finish i => i
  | .all => n
  | .unmap => n
  | .done => n

/-- A processor `j` that `ap_init` has gone over: it is started and has its own `cpu_t`, or it
is failed and has not moved. -/
def Served (j : Nat) (a : Ap) (state : Nat) : Prop :=
  (state = cpuStarted ∧ (a = .spin j ∨ a = .kernel j ∨ a = .running j))
    ∨ (state = cpuFailed ∧ a = .reset)

/-- A processor `j` that may have been sent a `STARTUP`. -/
def Asked (j : Nat) (a : Ap) (state : Nat) : Prop :=
  (state = cpuSipiSent ∧ (a = .reset ∨ a = .boot ∨ a = .based j))
    ∨ (state = cpuSipiRec ∧ a = .spin j)

/-- What holds of the processor `j` that the first one is at. -/
def Bsp.Current (j : Nat) (a : Ap) (state : Nat) : Bsp → Prop
  | .base _ => a = .reset ∧ state = cpuStopped
  | .sent _ => a = .reset ∧ state = cpuStopped
  | .sipi _ => a = .reset ∧ state = cpuSipiSent
  | .look _ => Asked j a state
  | .resent _ => a = .reset ∧ state = cpuSipiSent
  | .resipi _ => a = .reset ∧ state = cpuSipiSent
  | .relook _ => Asked j a state
  | .fail _ => a = .reset ∧ state = cpuSipiSent
  | .finish _ => a = .spin j ∧ state = cpuSipiRec
  | _ => a = .off ∧ state = cpuStopped

/-- What holds of the processor `j`. -/
def Expected (n : Nat) (b : Bsp) (j : Nat) (a : Ap) (state : Nat) : Prop :=
  if j = 0 then a = .off ∧ state = cpuStarted
  else if j < b.index n then Served j a state
  else if b.index n < j then a = .off ∧ state = cpuStopped
  else b.Current j a state

/-- The first processor is in `ap_init`, behind its first test. -/
def Bsp.Inside : Bsp → Prop
  | .check _ => False
  | .all => False
  | .unmap => False
  | .done => False
  | _ => True

/-- The first processor has set `ap_gs_base` for the processor that it is at. -/
def Bsp.Based : Bsp → Prop
  | .base _ => False
  | b => b.Inside

/-- The invariant. -/
structure Inv (n : Nat) (s : System) : Prop where
  le : s.bsp.index n ≤ n
  inside : s.bsp.Inside → s.bsp.index n ≠ 0 ∧ s.bsp.index n < n
  based : s.bsp.Based → s.apGsBase = some (s.bsp.index n)
  expected : ∀ j, Expected n s.bsp j (s.ap j) (s.currentState j)
  all : s.allApStarted = true → s.bsp.index n = n
  running : ∀ k g, s.ap k = .running g → s.allApStarted = true

section Expected

variable {n i j : Nat} {b b' : Bsp} {a : Ap} {state : Nat}

theorem expected_zero : Expected n b 0 a state ↔ a = .off ∧ state = cpuStarted := by
  rw [Expected, if_pos rfl]

theorem expected_served (hj : j ≠ 0) (h : j < b.index n) :
  Expected n b j a state ↔ Served j a state
  := by
  rw [Expected, if_neg hj, if_pos h]

theorem expected_later (h : b.index n < j) :
  Expected n b j a state ↔ a = .off ∧ state = cpuStopped
  := by
  rw [Expected, if_neg (by omega), if_neg (by omega), if_pos h]

theorem expected_current (hj : j ≠ 0) (h : b.index n = j) :
  Expected n b j a state ↔ b.Current j a state
  := by
  rw [Expected, if_neg hj, if_neg (by omega), if_neg (by omega)]

/-- What is expected depends on where `cpu_init` is only for the processor that it is at. -/
theorem Expected.same (h : Expected n b j a state) (hindex : b'.index n = b.index n)
    (hcurrent : b.Current j a state → b'.Current j a state) :
  Expected n b' j a state
  := by
  rw [Expected] at h ⊢
  rw [hindex]
  split_ifs at h ⊢
  · exact h
  · exact h
  · exact h
  · exact hcurrent h

/-- What is expected of another processor than the one that `cpu_init` is at depends on the index
only. -/
theorem Expected.other (h : Expected n b j a state) (hindex : b'.index n = b.index n)
    (hj : j ≠ b.index n) :
  Expected n b' j a state
  := by
  rw [Expected] at h ⊢
  rw [hindex]
  split_ifs at h ⊢
  · exact h
  · exact h
  · exact h
  · omega

/-- What is expected of another processor when `cpu_init` goes on to the next one. -/
theorem Expected.next (h : Expected n b j a state) (hindex : b'.index n = b.index n + 1)
    (hcheck : b'.Current j a state ↔ a = .off ∧ state = cpuStopped) (hj : j ≠ b.index n) :
  Expected n b' j a state
  := by
  rcases Nat.lt_or_gt_of_ne hj with hlt | hgt
  · by_cases hzero : j = 0
    · subst hzero
      rw [expected_zero] at h ⊢
      exact h
    · rw [expected_served hzero hlt] at h
      rw [expected_served hzero (by omega)]
      exact h
  · rw [expected_later hgt] at h
    by_cases hnext : b'.index n = j
    · rw [expected_current (by omega) hnext, hcheck]
      exact h
    · rw [expected_later (by omega)]
      exact h

end Expected

section Steps

variable {n i : Nat} {target : Nat → Nat} {taken : Bool} {s s' : System}

/-- The processor that `ap_init` is at. -/
theorem Inv.current (h : Inv n s) (hi : s.bsp.index n ≠ 0) :
  s.bsp.Current (s.bsp.index n) (s.ap (s.bsp.index n)) (s.currentState (s.bsp.index n))
  := by
  apply (expected_current hi rfl).mp
  exact h.expected _

/-- A step in `ap_init` that changes only the processor that it is for. -/
theorem Inv.work (h : Inv n s) (hi : s.bsp.index n ≠ 0) (hn : s.bsp.index n < n)
    (hindex : s'.bsp.index n = s.bsp.index n)
    (hbased : s'.bsp.Based → s'.apGsBase = some (s.bsp.index n))
    (hother : ∀ j, j ≠ s.bsp.index n →
      s'.ap j = s.ap j ∧ s'.currentState j = s.currentState j)
    (hcurrent : s'.bsp.Current (s.bsp.index n) (s'.ap (s.bsp.index n))
      (s'.currentState (s.bsp.index n)))
    (hrunning : ∀ g, s'.ap (s.bsp.index n) ≠ .running g)
    (hall : s'.allApStarted = s.allApStarted) :
  Inv n s'
  := by
  refine ⟨hindex ▸ h.le, fun _ => hindex ▸ ⟨hi, hn⟩, hindex ▸ hbased, ?_, ?_, ?_⟩
  · intro j
    by_cases hj : j = s.bsp.index n
    · rw [hj, expected_current hi hindex]
      exact hcurrent
    · rw [(hother j hj).1, (hother j hj).2]
      exact (h.expected j).other hindex hj
  · intro hstarted
    rw [hindex]
    exact h.all (hall ▸ hstarted)
  · intro k g hk
    by_cases hj : k = s.bsp.index n
    · exact absurd (hj ▸ hk) (hrunning g)
    · rw [(hother k hj).1] at hk
      exact hall ▸ h.running k g hk

/-- The last step of `ap_init`, which goes on to the next processor. -/
theorem Inv.leave (h : Inv n s) (hn : s.bsp.index n < n)
    (hnext : s'.bsp = .check (s.bsp.index n + 1)) (hap : s'.ap = s.ap)
    (hother : ∀ j, j ≠ s.bsp.index n → s'.currentState j = s.currentState j)
    (hserved : Expected n s'.bsp (s.bsp.index n) (s.ap (s.bsp.index n))
      (s'.currentState (s.bsp.index n)))
    (hall : s'.allApStarted = s.allApStarted) :
  Inv n s'
  := by
  have hindex : s'.bsp.index n = s.bsp.index n + 1 := by rw [hnext]; rfl
  refine ⟨by omega, fun hin => absurd hin ?_, fun hin => absurd hin ?_, ?_, ?_, ?_⟩
  · rw [hnext]
    exact id
  · rw [hnext]
    exact id
  · intro j
    rw [hap]
    by_cases hj : j = s.bsp.index n
    · rw [hj]
      exact hserved
    · rw [hother j hj]
      apply (h.expected j).next hindex _ hj
      rw [hnext]
      exact Iff.rfl
  · intro hstarted
    have hlast := h.all (hall ▸ hstarted)
    omega
  · intro k g hk
    rw [hap] at hk
    exact hall ▸ h.running k g hk

/-- A processor that does not take a `STARTUP` stays as it is. -/
theorem startup_cases (s : System) (k : Nat) (taken : Bool) :
  (s.ap k = .reset ∧ s.startup k taken = s.setAp k .boot) ∨ s.startup k taken = s
  := by
  rw [System.startup]
  split_ifs with htaken
  · exact Or.inl ⟨htaken.1, rfl⟩
  · exact Or.inr rfl

/-- A `STARTUP` for the processor that `ap_init` is for. -/
theorem Inv.startup (h : Inv n s) (hi : s.bsp.index n ≠ 0) (hn : s.bsp.index n < n) {b : Bsp}
    (hindex : b.index n = s.bsp.index n) (hbased : s.bsp.Based)
    (hsilent : s.ap (s.bsp.index n) = .reset ∧ s.currentState (s.bsp.index n) = cpuSipiSent)
    (hasked : ∀ j a state, Asked j a state → b.Current j a state) :
  Inv n { s.startup (s.bsp.index n) taken with bsp := b }
  := by
  rcases startup_cases s (s.bsp.index n) taken with ⟨_, htook⟩ | hlost
  · rw [htook]
    apply h.work hi hn hindex
    · intro _
      exact h.based hbased
    · intro j hj
      exact ⟨Function.update_of_ne hj _ _, rfl⟩
    · apply hasked
      refine Or.inl ⟨hsilent.2, Or.inr (Or.inl ?_)⟩
      exact Function.update_self _ _ _
    · intro g
      change Function.update s.ap _ _ _ ≠ _
      rw [Function.update_self]
      exact Ap.noConfusion
    · rfl
  · rw [hlost]
    apply h.work hi hn hindex
    · intro _
      exact h.based hbased
    · intro j _
      exact ⟨rfl, rfl⟩
    · apply hasked
      exact Or.inl ⟨hsilent.2, Or.inl hsilent.1⟩
    · intro g
      change s.ap _ ≠ _
      rw [hsilent.1]
      exact Ap.noConfusion
    · rfl

/-- Writing the state of the processor that `ap_init` is for. -/
theorem Inv.write (h : Inv n s) (hi : s.bsp.index n ≠ 0) (hn : s.bsp.index n < n) {b : Bsp}
    {state : Nat} (hindex : b.index n = s.bsp.index n) (hbased : s.bsp.Based)
    (hreset : s.ap (s.bsp.index n) = .reset)
    (hcurrent : b.Current (s.bsp.index n) .reset state) :
  Inv n { s.setState (s.bsp.index n) state with bsp := b }
  := by
  apply h.work hi hn hindex
  · intro _
    exact h.based hbased
  · intro j hj
    exact ⟨rfl, Function.update_of_ne hj _ _⟩
  · change b.Current _ (s.ap _) (Function.update s.currentState _ _ _)
    rw [Function.update_self, hreset]
    exact hcurrent
  · intro g
    change s.ap _ ≠ _
    rw [hreset]
    exact Ap.noConfusion
  · rfl

/-- A step of the first processor that only looks. -/
theorem Inv.pass (h : Inv n s) {b : Bsp} (hindex : b.index n = s.bsp.index n)
    (hinside : b.Inside → s.bsp.Inside) (hbased : b.Based → s.bsp.Based)
    (hcurrent : ∀ j a state, s.ap (s.bsp.index n) = a → s.currentState (s.bsp.index n) = state →
      s.bsp.index n = j → s.bsp.Current j a state → b.Current j a state) :
  Inv n { s with bsp := b }
  := by
  refine ⟨hindex ▸ h.le, fun hin => hindex ▸ h.inside (hinside hin),
    fun hin => hindex ▸ h.based (hbased hin), ?_, fun hall => hindex ▸ h.all hall, h.running⟩
  intro j
  by_cases hj : j = s.bsp.index n
  · subst hj
    apply (h.expected _).same hindex
    exact hcurrent _ _ _ rfl rfl rfl
  · exact (h.expected j).other hindex hj

/-- `!cpu->current_state == CPU_STOPPED` -/
theorem not_stopped_iff (state : Nat) :
  (if state = 0 then 1 else 0) = cpuStopped ↔ state ≠ cpuStopped
  := by
  by_cases hzero : state = 0
  · rw [if_pos hzero]
    exact iff_of_false Nat.one_ne_zero (not_not.mpr hzero)
  · rw [if_neg hzero]
    exact iff_of_true rfl hzero

/-- The first test of `ap_init`. -/
theorem Inv.check (h : Inv n s) (hid : ∀ i < n, target i = i) (hb : s.bsp = .check i)
    (hstep : bspStep n target taken s = some s') :
  Inv n s'
  := by
  have hindex : s.bsp.index n = i := by rw [hb]; rfl
  rw [bspStep, hb] at hstep
  simp only [not_stopped_iff] at hstep
  split_ifs at hstep with hn hstopped
  · -- Only the first processor is not stopped.
    obtain rfl := Option.some.inj hstep
    have hzero : i = 0 := by
      by_contra hi
      have hcurrent := h.current (hindex ▸ hi)
      rw [hindex, hb] at hcurrent
      exact hstopped hcurrent.2
    have hfirst := h.expected 0
    apply Inv.leave h (hindex ▸ hn)
    · rw [hindex]
    · rfl
    · intro j _
      rfl
    · rw [hindex, hzero]
      rw [expected_zero] at hfirst ⊢
      exact hfirst
    · rfl
  · obtain rfl := Option.some.inj hstep
    have hi : i ≠ 0 := by
      rintro rfl
      have hfirst := h.expected 0
      rw [expected_zero] at hfirst
      rw [hfirst.2] at hstopped
      exact hstopped (by decide)
    have hcurrent := h.current (hindex ▸ hi)
    rw [hid i hn]
    apply Inv.work h (hindex ▸ hi) (hindex ▸ hn)
    · exact hindex.symm
    · exact False.elim
    · rw [hindex]
      intro j hj
      exact ⟨Function.update_of_ne hj _ _, rfl⟩
    · rw [hindex, hb] at hcurrent
      rw [hindex]
      exact ⟨Function.update_self _ _ _, hcurrent.2⟩
    · intro g
      rw [hindex]
      change Function.update s.ap _ _ _ ≠ _
      rw [Function.update_self]
      exact Ap.noConfusion
    · rfl
  · obtain rfl := Option.some.inj hstep
    have hle := h.le
    have hlast : n = i := by omega
    apply Inv.pass h
    · exact hlast.trans hindex.symm
    · exact False.elim
    · exact False.elim
    · intro j a state _ _ _ hcurrent
      rw [hb] at hcurrent
      exact hcurrent

/-- A step of the first processor keeps the invariant, when its delays are long enough. -/
theorem inv_bsp (h : Inv n s) (hid : ∀ i < n, target i = i) (hprompt : Prompt s (.bsp taken))
    (hstep : bspStep n target taken s = some s') :
  Inv n s'
  := by
  cases hb : s.bsp with
  | check i => exact h.check hid hb hstep
  | base i =>
      have hindex : s.bsp.index n = i := by rw [hb]; rfl
      obtain ⟨hi, hn⟩ := h.inside (by rw [hb]; trivial)
      have hcurrent := h.current hi
      rw [bspStep, hb] at hstep
      obtain rfl := Option.some.inj hstep
      rw [hb] at hcurrent
      apply Inv.work h hi hn
      · exact hindex.symm
      · intro _
        rw [hindex]
      · intro j _
        exact ⟨rfl, rfl⟩
      · rw [hb]
        exact hcurrent
      · intro g
        rw [hb, hcurrent.1]
        exact Ap.noConfusion
      · rfl
  | sent i =>
      have hindex : s.bsp.index n = i := by rw [hb]; rfl
      obtain ⟨hi, hn⟩ := h.inside (by rw [hb]; trivial)
      have hcurrent := h.current hi
      rw [bspStep, hb] at hstep
      obtain rfl := Option.some.inj hstep
      rw [hindex, hb] at hcurrent
      rw [← hindex]
      apply Inv.write h hi hn
      · rfl
      · rw [hb]
        trivial
      · rw [hindex]
        exact hcurrent.1
      · exact ⟨rfl, rfl⟩
  | sipi i =>
      have hindex : s.bsp.index n = i := by rw [hb]; rfl
      obtain ⟨hi, hn⟩ := h.inside (by rw [hb]; trivial)
      have hcurrent := h.current hi
      rw [bspStep, hb] at hstep
      obtain rfl := Option.some.inj hstep
      rw [hindex, hb] at hcurrent
      rw [hid i (hindex ▸ hn), ← hindex]
      apply Inv.startup h hi hn
      · rfl
      · rw [hb]
        trivial
      · rw [hindex]
        exact hcurrent
      · intro j a state hasked
        exact hasked
  | look i =>
      have hindex : s.bsp.index n = i := by rw [hb]; rfl
      rw [bspStep, hb] at hstep
      simp only at hstep
      split_ifs at hstep with hlook
      · obtain rfl := Option.some.inj hstep
        have hmoved := hprompt i (by rw [hb]; rfl)
        apply Inv.pass h
        · exact hindex.symm
        · intro _
          rw [hb]
          trivial
        · intro _
          rw [hb]
          trivial
        · intro j a state ha hstate _ hcurrent
          rw [hb] at hcurrent
          rw [hindex] at ha hstate
          rw [ha] at hmoved
          rcases hcurrent with ⟨hsent, rfl | rfl | rfl⟩ | ⟨hrec, _⟩
          · exact ⟨rfl, hsent⟩
          · exact absurd trivial hmoved
          · exact absurd trivial hmoved
          · exact absurd (hstate.trans hrec) hlook
      · obtain rfl := Option.some.inj hstep
        apply Inv.pass h
        · exact hindex.symm
        · intro _
          rw [hb]
          trivial
        · intro _
          rw [hb]
          trivial
        · intro j a state _ _ _ hcurrent
          rw [hb] at hcurrent
          exact hcurrent
  | resent i =>
      have hindex : s.bsp.index n = i := by rw [hb]; rfl
      obtain ⟨hi, hn⟩ := h.inside (by rw [hb]; trivial)
      have hcurrent := h.current hi
      rw [bspStep, hb] at hstep
      obtain rfl := Option.some.inj hstep
      rw [hindex, hb] at hcurrent
      rw [← hindex]
      apply Inv.write h hi hn
      · rfl
      · rw [hb]
        trivial
      · rw [hindex]
        exact hcurrent.1
      · exact ⟨rfl, rfl⟩
  | resipi i =>
      have hindex : s.bsp.index n = i := by rw [hb]; rfl
      obtain ⟨hi, hn⟩ := h.inside (by rw [hb]; trivial)
      have hcurrent := h.current hi
      rw [bspStep, hb] at hstep
      obtain rfl := Option.some.inj hstep
      rw [hindex, hb] at hcurrent
      rw [hid i (hindex ▸ hn), ← hindex]
      apply Inv.startup h hi hn
      · rfl
      · rw [hb]
        trivial
      · rw [hindex]
        exact hcurrent
      · intro j a state hasked
        exact hasked
  | relook i =>
      have hindex : s.bsp.index n = i := by rw [hb]; rfl
      rw [bspStep, hb] at hstep
      simp only at hstep
      split_ifs at hstep with hlook
      · obtain rfl := Option.some.inj hstep
        have hmoved := hprompt i (by rw [hb]; rfl)
        apply Inv.pass h
        · exact hindex.symm
        · intro _
          rw [hb]
          trivial
        · intro _
          rw [hb]
          trivial
        · intro j a state ha hstate _ hcurrent
          rw [hb] at hcurrent
          rw [hindex] at ha hstate
          rw [ha] at hmoved
          rcases hcurrent with ⟨hsent, rfl | rfl | rfl⟩ | ⟨hrec, _⟩
          · exact ⟨rfl, hsent⟩
          · exact absurd trivial hmoved
          · exact absurd trivial hmoved
          · exact absurd (hstate.trans hrec) hlook
      · obtain rfl := Option.some.inj hstep
        have hrec := not_not.mp hlook
        apply Inv.pass h
        · exact hindex.symm
        · intro _
          rw [hb]
          trivial
        · intro _
          rw [hb]
          trivial
        · intro j a state _ hstate _ hcurrent
          rw [hb] at hcurrent
          rw [hindex] at hstate
          rcases hcurrent with ⟨hsent, _⟩ | hanswered
          · rw [hrec, hsent] at hstate
            cases hstate
          · exact hanswered.symm
  | fail i =>
      have hindex : s.bsp.index n = i := by rw [hb]; rfl
      obtain ⟨hi, hn⟩ := h.inside (by rw [hb]; trivial)
      have hcurrent := h.current hi
      rw [bspStep, hb] at hstep
      obtain rfl := Option.some.inj hstep
      rw [hindex, hb] at hcurrent
      apply Inv.leave h hn
      · rw [hindex]
      · rfl
      · intro j hj
        rw [hindex] at hj
        exact Function.update_of_ne hj _ _
      · rw [hindex] at hi ⊢
        refine (expected_served hi ?_).mpr ?_
        · exact Nat.lt_succ_self i
        · exact Or.inr ⟨Function.update_self _ _ _, hcurrent.1⟩
      · rfl
  | finish i =>
      have hindex : s.bsp.index n = i := by rw [hb]; rfl
      obtain ⟨hi, hn⟩ := h.inside (by rw [hb]; trivial)
      have hcurrent := h.current hi
      rw [bspStep, hb] at hstep
      obtain rfl := Option.some.inj hstep
      rw [hindex, hb] at hcurrent
      apply Inv.leave h hn
      · rw [hindex]
      · rfl
      · intro j hj
        rw [hindex] at hj
        exact Function.update_of_ne hj _ _
      · rw [hindex] at hi ⊢
        refine (expected_served hi ?_).mpr ?_
        · exact Nat.lt_succ_self i
        · exact Or.inl ⟨Function.update_self _ _ _, Or.inl hcurrent.1⟩
      · rfl
  | all =>
      have hindex : s.bsp.index n = n := by rw [hb]; rfl
      rw [bspStep, hb] at hstep
      obtain rfl := Option.some.inj hstep
      refine ⟨le_rfl, False.elim, False.elim, ?_, fun _ => rfl, fun _ _ _ => rfl⟩
      intro j
      apply Expected.same (h.expected j)
      · exact hindex.symm
      · intro hcurrent
        rw [hb] at hcurrent
        exact hcurrent
  | unmap =>
      have hindex : s.bsp.index n = n := by rw [hb]; rfl
      rw [bspStep, hb] at hstep
      obtain rfl := Option.some.inj hstep
      refine ⟨le_rfl, False.elim, False.elim, ?_, fun _ => rfl, h.running⟩
      intro j
      apply Expected.same (h.expected j)
      · exact hindex.symm
      · intro hcurrent
        rw [hb] at hcurrent
        exact hcurrent
  | done =>
      rw [bspStep, hb] at hstep
      cases hstep

/-- A step of another processor changes where it is and its own state. -/
theorem Inv.moved (h : Inv n s) {k : Nat} {a : Ap} {state : Nat}
    (hexpected : Expected n s.bsp k a state)
    (hrunning : ∀ g, a = .running g → s.allApStarted = true) :
  Inv n ((s.setState k state).setAp k a)
  := by
  refine ⟨h.le, h.inside, h.based, ?_, h.all, ?_⟩
  · intro j
    change Expected n s.bsp j (Function.update s.ap k a j)
      (Function.update s.currentState k state j)
    by_cases hj : j = k
    · subst hj
      rw [Function.update_self, Function.update_self]
      exact hexpected
    · rw [Function.update_of_ne hj, Function.update_of_ne hj]
      exact h.expected j
  · intro j g hg
    change Function.update s.ap k a j = _ at hg
    by_cases hj : j = k
    · subst hj
      rw [Function.update_self] at hg
      exact hrunning g hg
    · rw [Function.update_of_ne hj] at hg
      exact h.running j g hg

/-- What is known of a processor that has taken a `STARTUP`. -/
inductive Known (n k : Nat) (b : Bsp) : Ap → Nat → Prop where
  /-- on its way, while `ap_init` is for it -/
  | asked {a : Ap} : b.Based → b.index n = k → k ≠ 0 → (∀ a' state', Asked k a' state' →
      b.Current k a' state') → a = .boot ∨ a = .based k → Known n k b a cpuSipiSent
  /-- waiting for its answer to be seen -/
  | waiting : Known n k b (.spin k) cpuSipiRec
  /-- started -/
  | started {a : Ap} : k ≠ 0 → k < b.index n → a = .spin k ∨ a = .kernel k ∨ a = .running k →
      Known n k b a cpuStarted

/-- A processor that can take a step. -/
theorem Inv.known (h : Inv n s) (k : Nat) :
  s.ap k = .off ∨ s.ap k = .reset ∨ Known n k s.bsp (s.ap k) (s.currentState k)
  := by
  have hk := h.expected k
  by_cases hzero : k = 0
  · subst hzero
    rw [expected_zero] at hk
    exact Or.inl hk.1
  · rcases Nat.lt_trichotomy k (s.bsp.index n) with hlt | heq | hgt
    · rw [expected_served hzero hlt] at hk
      rcases hk with ⟨hstate, ha⟩ | ⟨_, ha⟩
      · rw [hstate]
        exact Or.inr (Or.inr (.started hzero hlt ha))
      · exact Or.inr (Or.inl ha)
    · rw [expected_current hzero heq.symm] at hk
      have hasked : ∀ b : Bsp, s.bsp = b → b.Based → (∀ a' state', Asked k a' state' →
          b.Current k a' state') → Asked k (s.ap k) (s.currentState k) →
          s.ap k = .off ∨ s.ap k = .reset ∨ Known n k s.bsp (s.ap k) (s.currentState k) := by
        rintro b rfl hbased hcurrent (⟨hstate, hreset | ha⟩ | ⟨hstate, ha⟩)
        · exact Or.inr (Or.inl hreset)
        · rw [hstate]
          exact Or.inr (Or.inr (.asked hbased heq.symm hzero hcurrent ha))
        · rw [hstate, ha]
          exact Or.inr (Or.inr .waiting)
      cases hb : s.bsp with
      | look i =>
          rw [hb] at hk
          rw [← hb]
          exact hasked _ hb trivial (fun _ _ => id) hk
      | relook i =>
          rw [hb] at hk
          rw [← hb]
          exact hasked _ hb trivial (fun _ _ => id) hk
      | finish i =>
          rw [hb] at hk
          rw [hk.1, hk.2]
          exact Or.inr (Or.inr .waiting)
      | check i | all | unmap | done =>
          rw [hb] at hk
          exact Or.inl hk.1
      | base i | sent i | sipi i | resent i | resipi i | fail i =>
          rw [hb] at hk
          exact Or.inr (Or.inl hk.1)
    · rw [expected_later hgt] at hk
      exact Or.inl hk.1

/-- A step of another processor keeps the invariant. -/
theorem inv_ap (h : Inv n s) {k : Nat} (hstep : apStep k s = some s') :
  Inv n s'
  := by
  rcases h.known k with hoff | hreset | hknown
  · rw [apStep, hoff] at hstep
    cases hstep
  · rw [apStep, hreset] at hstep
    cases hstep
  · obtain ⟨a, ha⟩ : ∃ a, s.ap k = a := ⟨_, rfl⟩
    obtain ⟨state, hstate⟩ : ∃ state, s.currentState k = state := ⟨_, rfl⟩
    rw [ha, hstate] at hknown
    have hsame : s.setState k (s.currentState k) = s := by
      rw [System.setState, Function.update_eq_self]
    cases hknown with
    | asked hbased hindex hk hcurrent hway =>
        rcases hway with rfl | rfl
        · rw [apStep, ha, h.based hbased, hindex] at hstep
          simp only [Option.map_some] at hstep
          split_ifs at hstep
          obtain rfl := Option.some.inj hstep
          rw [← hsame, hstate]
          apply h.moved
          · rw [expected_current hk hindex]
            exact hcurrent _ _ (Or.inl ⟨rfl, Or.inr (Or.inr rfl)⟩)
          · exact nofun
        · rw [apStep, ha] at hstep
          obtain rfl := Option.some.inj hstep
          apply h.moved
          · rw [expected_current hk hindex]
            exact hcurrent _ _ (Or.inr ⟨rfl, rfl⟩)
          · exact nofun
    | waiting =>
        rw [apStep, ha] at hstep
        simp only at hstep
        rw [if_pos hstate] at hstep
        obtain rfl := Option.some.inj hstep
        exact h
    | started hk hlt hway =>
        rcases hway with rfl | rfl | rfl
        · rw [apStep, ha] at hstep
          simp only at hstep
          rw [if_neg (by rw [hstate]; decide)] at hstep
          obtain rfl := Option.some.inj hstep
          rw [← hsame, hstate]
          apply h.moved
          · rw [expected_served hk hlt]
            exact Or.inl ⟨rfl, Or.inr (Or.inl rfl)⟩
          · exact nofun
        · rw [apStep, ha] at hstep
          simp only at hstep
          split_ifs at hstep with hall
          · obtain rfl := Option.some.inj hstep
            rw [← hsame, hstate]
            apply h.moved
            · rw [expected_served hk hlt]
              exact Or.inl ⟨rfl, Or.inr (Or.inr rfl)⟩
            · intro _ _
              exact hall
          · obtain rfl := Option.some.inj hstep
            exact h
        · rw [apStep, ha] at hstep
          cases hstep

end Steps

/-- The invariant holds at the start. -/
theorem inv_start (n : Nat) : Inv n start := by
  refine ⟨Nat.zero_le n, False.elim, False.elim, ?_, nofun, nofun⟩
  intro j
  by_cases hj : j = 0
  · subst hj
    exact expected_zero.mpr ⟨rfl, rfl⟩
  · apply (expected_later (Nat.pos_of_ne_zero hj)).mpr
    exact ⟨rfl, if_pos hj⟩

end Smp.Bringup
