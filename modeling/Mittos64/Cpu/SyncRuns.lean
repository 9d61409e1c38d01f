import Mittos64.Cpu.Sync

/-!
# Runs with a spin lock

Any number of processors that work on the same data between `spin_lock` and `spin_unlock` have the
calls and results of processors that do the work of each function at once, and none of them is ever
stuck.
-/

open Tso (Code)

namespace Sync

variable {A : Type} [DecidableEq A] {V : A → Type} {ι Call Res : Type} [DecidableEq ι]

/-! ### Every run is one of functions done at once -/

section Simulation

variable {body : Call → Code V Res} {s s' : System V ι Call Res} {t : Serial V ι Call Res} {i : ι}
  {l : Local V Call Res}

theorem status_update (h : ∀ j, t.status j = (s.cpu j).status) (l : Local V Call Res) (j : ι) :
  Function.update t.status i l.status j = (Function.update s.cpu i l j).status
  := by
  by_cases hj : j = i
  · rw [hj, Function.update_self, Function.update_self]
  · rw [Function.update_of_ne hj, Function.update_of_ne hj, h j]

theorem status_kept (h : ∀ j, t.status j = (s.cpu j).status) (hl : l.status = (s.cpu i).status)
    (j : ι) :
  t.status j = (Function.update s.cpu i l j).status
  := by
  rw [← status_update h l j, hl, ← h i, Function.update_eq_self]

theorem regs_update (h : ∀ j, (s.cpu j).RegsOk) (hl : l.RegsOk) (j : ι) :
  (Function.update s.cpu i l j).RegsOk
  := by
  by_cases hj : j = i
  · rw [hj, Function.update_self]
    exact hl
  · rw [Function.update_of_ne hj]
    exact h j

omit [DecidableEq A] in
/-- An instruction of `spin_lock` that does not access the memory sets the registers for the
exchange, and neither takes nor gives up the lock. -/
theorem Pc.next_spec {pc pc' : Pc} {r r' : Regs} {c : Call} (hnext : pc.next r = some (pc', r'))
    (hregs : (Local.locking c pc r : Local V Call Res).RegsOk) :
  (Local.locking c pc' r' : Local V Call Res).RegsOk
    ∧ ((Local.locking c pc' r' : Local V Call Res).Holds
      ↔ (Local.locking c pc r : Local V Call Res).Holds)
  := by
  cases pc with
  | movRdxRdi =>
      obtain ⟨rfl, rfl⟩ := Prod.mk.inj (Option.some.inj hnext)
      exact ⟨trivial, Iff.rfl⟩
  | movRax =>
      obtain ⟨rfl, rfl⟩ := Prod.mk.inj (Option.some.inj hnext)
      exact ⟨trivial, Iff.rfl⟩
  | movRcx =>
      obtain ⟨rfl, rfl⟩ := Prod.mk.inj (Option.some.inj hnext)
      exact ⟨rfl, Iff.rfl⟩
  | xorRax =>
      obtain ⟨rfl, rfl⟩ := Prod.mk.inj (Option.some.inj hnext)
      exact ⟨⟨rfl, hregs⟩, Iff.rfl⟩
  | jnz =>
      obtain ⟨hpc, rfl⟩ := Prod.mk.inj (Option.some.inj hnext)
      by_cases hzero : r.zero = true
      · rw [if_pos hzero] at hpc
        subst hpc
        exact ⟨trivial, iff_of_true trivial hzero⟩
      · rw [if_neg hzero] at hpc
        subst hpc
        exact ⟨hregs, iff_of_false id hzero⟩
  | cmpxchg => cases hnext
  | ret => cases hnext

/-- Every step of the processors is one of processors that do the work of a function at once, or it
is not seen there. -/
theorem Rel.step (h : Rel body s t) {o : Option (Event ι Call Res)} (hstep : Step body s o s') :
  ∃ t', Trace (Serial.Step body) t o.toList t' ∧ Rel body s' t'
  := by
  cases hstep with
  | @call i c r hi =>
      refine ⟨_, .single (.call c ((h.status i).trans (by rw [hi]; rfl))), ?_, ?_, ?_⟩
      · exact status_update h.status (.locking c .movRdxRdi r)
      · exact regs_update h.regs trivial
      · refine h.owned.setCpu rfl ?_ False.elim
        rw [hi]
        exact Iff.rfl
  | @next i c pc pc' r r' hi hnext =>
      have hregs := h.regs i
      rw [hi] at hregs
      obtain ⟨hregs', hholds⟩ := Pc.next_spec hnext hregs
      refine ⟨t, .nil t, ?_, ?_, ?_⟩
      · exact status_kept h.status (by rw [hi]; rfl)
      · exact regs_update h.regs hregs'
      · apply h.owned.setCpu rfl
        · rw [hi]
          exact hholds
        · intro _ c' code hcode
          rw [hi] at hcode
          exact ⟨code, hcode, rfl⟩
  | @cmpxchg i c r hi hempty =>
      have hregs := h.regs i
      rw [hi] at hregs
      refine ⟨t, .nil t, ?_, ?_, ?_⟩
      · exact status_kept h.status (by rw [hi]; rfl)
      · apply regs_update h.regs
        have hrcx : (Sync.cmpxchg (s.memory.shared .lock) r).2.rcx = r.rcx := by
          rw [Sync.cmpxchg]
          split_ifs
          · rfl
          · rfl
        exact hrcx.trans hregs.2
      · exact h.owned.cmpxchg hi hregs.1 hregs.2 hempty rfl
  | @enter i c r hi =>
      refine ⟨t, .nil t, ?_, ?_, ?_⟩
      · exact status_kept h.status (by rw [hi]; rfl)
      · exact regs_update h.regs trivial
      · apply h.owned.setCpu rfl
        · rw [hi]
          exact Iff.rfl
        · intro _ c' code hcode
          rw [hi] at hcode
          exact ⟨code, hcode, rfl⟩
  | @load i c a k hi =>
      refine ⟨t, .nil t, ?_, ?_, ?_⟩
      · exact status_kept h.status (by rw [hi]; rfl)
      · exact regs_update h.regs trivial
      · exact h.owned.load hi rfl
  | @store i c a v k hi =>
      refine ⟨t, .nil t, ?_, ?_, ?_⟩
      · exact status_kept h.status (by rw [hi]; rfl)
      · exact regs_update h.regs trivial
      · exact h.owned.store hi rfl
  | @unlock i c x hi =>
      have hstatus : t.status i = .called c := (h.status i).trans (by rw [hi]; rfl)
      have hdata : (Serial.mk ((body c).run t.data).2
          (Function.update t.status i (.finished ((body c).run t.data).1))).data
            = ((body c).run t.data).2 := rfl
      obtain ⟨hx, howned⟩ := h.owned.unlock hi hdata
      refine ⟨_, .single (.work hstatus), ?_, ?_, howned⟩
      · rw [hx]
        exact status_update h.status (.unlocked x)
      · exact regs_update h.regs trivial
  | @ret i x hi =>
      refine ⟨_, .single (.ret ((h.status i).trans (by rw [hi]; rfl))), ?_, ?_, ?_⟩
      · exact status_update h.status .idle
      · exact regs_update h.regs trivial
      · refine h.owned.setCpu rfl ?_ False.elim
        rw [hi]
        exact Iff.rfl
  | @flush i st b hi =>
      exact ⟨t, .nil t, h.status, h.regs, h.owned.flush hi⟩

omit [DecidableEq ι] in
theorem rel_start (data : ∀ a, V a) :
  Rel body (start data : System V ι Call Res) (Serial.start data)
  := by
  constructor
  · exact fun _ => rfl
  · exact fun _ => trivial
  · apply Owned.free
    exact ⟨rfl, fun _ => rfl, fun _ => id, fun _ => rfl⟩

/-- Every run of the processors has the events of a run of processors that do the work of a
function at once. -/
theorem rel_of_trace {data : ∀ a, V a} {es : List (Event ι Call Res)}
    (h : Trace (Step body) (start data) es s) :
  ∃ t, Trace (Serial.Step body) (Serial.start data) es t ∧ Rel body s t
  := h.simulate (fun hrel hstep => hrel.step hstep) (rel_start data)

omit [DecidableEq ι] in
/-- When all processors have returned and their stores have reached the memory, the data are those
that the functions leave. -/
theorem Rel.data_of_quiet (h : Rel body s t)
    (hquiet : ∀ i, s.cpu i = .idle ∧ s.memory.buffer i = []) (a : A) :
  s.memory.shared (.data a) = t.data a
  := by
  cases h.owned with
  | free h => exact h.data a
  | held i h =>
      have hholds := h.holds
      rw [(hquiet i).1] at hholds
      exact hholds.elim
  | released i h =>
      obtain ⟨b, hb, -⟩ := h.behind
      rw [(hquiet i).2] at hb
      exact absurd hb.symm (List.append_ne_nil_of_right_ne_nil b (List.cons_ne_nil _ _))

/-- At most one processor is between `spin_lock` and `spin_unlock`, and what any number of
processors do there, whatever the order of their loads and stores and of the stores that leave
their buffers, has the calls and results of functions that are done at once, one after the other;
the data that are left when all have returned are those that these functions leave. -/
theorem serial_of_trace (data : ∀ a, V a) (es : List (Event ι Call Res))
    (h : Trace (Step body) (start data) es s) :
  (∀ i j, (s.cpu i).Holds → (s.cpu j).Holds → i = j)
    ∧ ∃ t, Trace (Serial.Step body) (Serial.start data) es t
      ∧ ((∀ i, s.cpu i = .idle ∧ s.memory.buffer i = []) →
        ∀ a, s.memory.shared (.data a) = t.data a)
  := by
  obtain ⟨t, ht, hrel⟩ := rel_of_trace h
  exact ⟨fun i j => hrel.owned.unique, t, ht, hrel.data_of_quiet⟩

/-- A function that counts up, and returns the count from before. -/
def countUp (_ : Unit) : Code (fun _ : Unit => Nat) Nat :=
  .load () fun n => .store () (n + 1) (.done n)

/-- The processor `false` counts up while the processor `true` waits for the lock. -/
theorem countUp_run :
  ∃ s : System (fun _ : Unit => Nat) Bool Unit Nat, Trace (Step countUp) (start fun _ => 0)
    [.call false (), .call true (), .ret false 0] s ∧ s.cpu true ≠ .idle
  := by
  refine ⟨_, .event (.call (i := false) () ⟨7, 7, false⟩ rfl) <|
    .event (.call (i := true) () ⟨7, 7, false⟩ rfl) <|
    .silent (.next (i := false) rfl rfl) <| .silent (.next (i := false) rfl rfl) <|
    .silent (.next (i := false) rfl rfl) <| .silent (.next (i := false) rfl rfl) <|
    .silent (.cmpxchg (i := false) rfl rfl) <|
    .silent (.next (i := true) rfl rfl) <| .silent (.next (i := true) rfl rfl) <|
    .silent (.next (i := true) rfl rfl) <| .silent (.next (i := true) rfl rfl) <|
    .silent (.cmpxchg (i := true) rfl rfl) <|
    .silent (.next (i := false) rfl rfl) <| .silent (.enter (i := false) rfl) <|
    .silent (.load (i := false) rfl) <| .silent (.store (i := false) rfl) <|
    .silent (.unlock (i := false) rfl) <| .silent (.flush (i := false) rfl) <|
    .silent (.flush (i := false) rfl) <| .event (.ret (i := false) rfl) <| .nil _, ?_⟩
  intro h
  cases h

theorem serial_of_trace_countUp :
  ∃ s : System (fun _ : Unit => Nat) Bool Unit Nat,
    (∀ i j, (s.cpu i).Holds → (s.cpu j).Holds → i = j)
      ∧ ∃ t, Trace (Serial.Step countUp) (Serial.start fun _ => 0)
          [.call false (), .call true (), .ret false 0] t
        ∧ ((∀ i, s.cpu i = .idle ∧ s.memory.buffer i = []) →
          ∀ a, s.memory.shared (.data a) = t.data a)
  := by
  obtain ⟨s, hs, -⟩ := countUp_run
  exact ⟨s, serial_of_trace _ _ hs⟩

end Simulation

/-! ### No processor is stuck -/

section Progress

variable {body : Call → Code V Res} {s s' s'' : System V ι Call Res} {t : Serial V ι Call Res}
  {i k : ι} {c : Call}

/-- The steps between the states are those of the processor `k` and of its buffer. -/
def OnlyBy (k : ι) (s s' : System V ι Call Res) : Prop :=
  ∀ j, j ≠ k → s'.cpu j = s.cpu j ∧ s'.memory.buffer j = s.memory.buffer j

omit [DecidableEq ι] in
theorem OnlyBy.trans (h : OnlyBy k s s') (h' : OnlyBy k s' s'') :
  OnlyBy k s s''
  := fun j hj => ⟨(h' j hj).1.trans (h j hj).1, (h' j hj).2.trans (h j hj).2⟩

/-- A silent run of the processor `k` alone. -/
def SilentBy (body : Call → Code V Res) (k : ι) (s s' : System V ι Call Res) : Prop :=
  Trace (Step body) s [] s' ∧ OnlyBy k s s'

theorem SilentBy.trans (h : SilentBy body k s s') (h' : SilentBy body k s' s'') :
  SilentBy body k s s''
  := ⟨h.1.append h'.1, h.2.trans h'.2⟩

/-- A silent step of the processor `k` without the memory. -/
theorem silentBy_setCpu {l : Local V Call Res} (h : Step body s none (s.setCpu k l)) :
  SilentBy body k s (s.setCpu k l)
  := by
  refine ⟨.silent h (.nil _), fun j hj => ⟨?_, rfl⟩⟩
  rw [setCpu_cpu, Function.update_of_ne hj]

/-- A silent step of the processor `k` that stores. -/
theorem silentBy_store {a : Cell A} {v : Cell.Val V a} {l : Local V Call Res}
    (h : Step body s none (s.set (s.memory.store k a v) k l)) :
  SilentBy body k s (s.set (s.memory.store k a v) k l)
  := by
  refine ⟨.silent h (.nil _), fun j hj => ⟨?_, ?_⟩⟩
  · rw [set_cpu, Function.update_of_ne hj]
  · rw [set_memory, Tso.Memory.store_buffer_of_ne _ _ _ _ hj]

/-- A function goes on to its end. -/
theorem silentBy_unlocked (body : Call → Code V Res) {code : Code V Res}
    (hk : s.cpu k = .inside c code) :
  ∃ s' x, SilentBy body k s s' ∧ s'.cpu k = .unlocked x
  := by
  induction code generalizing s with
  | done x =>
      exact ⟨_, x, silentBy_store (.unlock hk), Function.update_self _ _ _⟩
  | load a f ih =>
      obtain ⟨s', x, hrun, hs'⟩ := ih (dataView s.memory k a)
        (s := s.setCpu k (.inside c (f (dataView s.memory k a)))) (Function.update_self _ _ _)
      exact ⟨s', x, (silentBy_setCpu (.load hk)).trans hrun, hs'⟩
  | store a v f ih =>
      obtain ⟨s', x, hrun, hs'⟩ := ih (s := s.set (s.memory.store k (.data a) v) k (.inside c f))
        (Function.update_self _ _ _)
      exact ⟨s', x, (silentBy_store (.store hk)).trans hrun, hs'⟩

/-- The stores of a processor reach the memory. -/
theorem silentBy_flushed (body : Call → Code V Res) (s : System V ι Call Res) (k : ι) :
  ∃ s', SilentBy body k s s' ∧ s'.cpu = s.cpu ∧ s'.memory.buffer k = []
  := by
  generalize hb : s.memory.buffer k = b
  induction b generalizing s with
  | nil => exact ⟨s, ⟨.nil s, fun _ _ => ⟨rfl, rfl⟩⟩, rfl, hb⟩
  | cons st b ih =>
      obtain ⟨s', hrun, hcpu, hempty⟩ := ih { s with memory := s.memory.flush k st b }
        (Tso.Memory.flush_buffer_self _ _ _ _)
      refine ⟨s', ⟨.silent (.flush hb) hrun.1, OnlyBy.trans ?_ hrun.2⟩, hcpu, hempty⟩
      exact fun j hj => ⟨rfl, Tso.Memory.flush_buffer_of_ne _ _ _ _ hj⟩

/-- The holder of the lock goes on into the function. -/
theorem silentBy_inside (body : Call → Code V Res) (hk : (s.cpu k).Holds) :
  ∃ s' c code, SilentBy body k s s' ∧ s'.cpu k = .inside c code
  := by
  have hret : ∀ {s : System V ι Call Res} {c : Call} {r : Regs}, s.cpu k = .locking c .ret r →
      ∃ s' c code, SilentBy body k s s' ∧ s'.cpu k = .inside c code :=
    fun h => ⟨_, _, _, silentBy_setCpu (.enter h), Function.update_self _ _ _⟩
  cases hcpu : s.cpu k with
  | idle =>
      rw [hcpu] at hk
      exact hk.elim
  | locking c pc r =>
      rw [hcpu] at hk
      cases pc with
      | jnz =>
          have hnext : Pc.next .jnz r = some (.ret, r) := by
            have hzero : r.zero = true := hk
            rw [Pc.next, if_pos hzero]
          obtain ⟨s', c', code, hrun, hs'⟩ := hret (s := s.setCpu k (.locking c .ret r))
            (Function.update_self _ _ _)
          exact ⟨s', c', code, (silentBy_setCpu (.next hcpu hnext)).trans hrun, hs'⟩
      | ret => exact hret hcpu
      | movRdxRdi => exact hk.elim
      | movRax => exact hk.elim
      | movRcx => exact hk.elim
      | xorRax => exact hk.elim
      | cmpxchg => exact hk.elim
  | inside c code => exact ⟨s, c, code, ⟨.nil s, fun _ _ => ⟨rfl, rfl⟩⟩, hcpu⟩
  | unlocked x =>
      rw [hcpu] at hk
      exact hk.elim

omit [DecidableEq ι] in
/-- With no holder and no store on its way, the lock is free. -/
theorem Rel.free (h : Rel body s t) (hempty : ∀ j, s.memory.buffer j = [])
    (hout : ∀ j, ¬ (s.cpu j).Holds) :
  Free s t
  := by
  cases h.owned with
  | free h => exact h
  | held j h => exact absurd h.holds (hout j)
  | released j h =>
      obtain ⟨b, hb, -⟩ := h.behind
      rw [hempty j] at hb
      exact absurd hb.symm (List.append_ne_nil_of_right_ne_nil b (List.cons_ne_nil _ _))

/-- The holder of the lock goes on until the lock is free. -/
theorem Rel.release (h : Rel body s t) :
  ∃ s' t', Trace (Step body) s [] s' ∧ Rel body s' t' ∧ Free s' t'
    ∧ ∀ j, ¬ (s.cpu j).Holds → s'.cpu j = s.cpu j
  := by
  have hfree : ∀ {k : ι} {s' : System V ι Call Res}, SilentBy body k s s' →
      (∀ j, j ≠ k → s.memory.buffer j = [] ∧ ¬ (s.cpu j).Holds) → s'.memory.buffer k = [] →
      ¬ (s'.cpu k).Holds → ((s.cpu k).Holds ∨ s'.cpu k = s.cpu k) →
      ∃ s' t', Trace (Step body) s [] s' ∧ Rel body s' t' ∧ Free s' t'
        ∧ ∀ j, ¬ (s.cpu j).Holds → s'.cpu j = s.cpu j := by
    intro k s' hrun hothers hempty hout hsame
    obtain ⟨t', -, hrel⟩ := hrun.1.simulate (fun hrel hstep => hrel.step hstep) h
    have hbuffer : ∀ j, s'.memory.buffer j = [] := by
      intro j
      by_cases hj : j = k
      · rw [hj, hempty]
      · rw [(hrun.2 j hj).2, (hothers j hj).1]
    have hholds : ∀ j, ¬ (s'.cpu j).Holds := by
      intro j
      by_cases hj : j = k
      · rw [hj]
        exact hout
      · rw [(hrun.2 j hj).1]
        exact (hothers j hj).2
    refine ⟨s', t', hrun.1, hrel, hrel.free hbuffer hholds, ?_⟩
    intro j hj
    by_cases hjk : j = k
    · rw [hjk] at hj ⊢
      exact hsame.resolve_left hj
    · exact (hrun.2 j hjk).1
  cases h.owned with
  | free hf => exact ⟨s, t, .nil s, h, hf, fun _ _ => rfl⟩
  | held k hk =>
      obtain ⟨s₁, c, code, hrun₁, hs₁⟩ := silentBy_inside body hk.holds
      obtain ⟨s₂, x, hrun₂, hs₂⟩ := silentBy_unlocked body hs₁
      obtain ⟨s₃, hrun₃, hcpu, hempty⟩ := silentBy_flushed body s₂ k
      refine hfree ((hrun₁.trans hrun₂).trans hrun₃) (fun j hj => ⟨hk.empty j hj, hk.out j hj⟩)
        hempty ?_ (Or.inl hk.holds)
      rw [hcpu, hs₂]
      exact id
  | released k hk =>
      obtain ⟨s₁, hrun₁, hcpu, hempty⟩ := silentBy_flushed body s k
      refine hfree hrun₁ (fun j hj => ⟨hk.empty j hj, hk.out j⟩) hempty ?_ (Or.inr ?_)
      · rw [hcpu]
        exact hk.out k
      · rw [hcpu]

/-- A processor that waits for the lock gets it when it is free. -/
theorem Free.acquire (body : Call → Code V Res) (h : Free s t) {pc : Pc} {r : Regs}
    (hi : s.cpu i = .locking c pc r) (hregs : (s.cpu i).RegsOk) :
  ∃ s', SilentBy body i s s' ∧ (s'.cpu i).Holds
  := by
  have hcmpxchg : ∀ {s' : System V ι Call Res} {r : Regs}, s'.cpu i = .locking c .cmpxchg r →
      s'.memory = s.memory → r.rax = 0 → r.rcx = 1 →
      ∃ s'', SilentBy body i s' s'' ∧ (s''.cpu i).Holds := by
    intro s' r hs' hmem hrax hrcx
    have hempty : s'.memory.buffer i = [] := by
      rw [hmem]
      exact h.empty i
    have hstep : Step body s' none _ := .cmpxchg hs' hempty
    refine ⟨_, ⟨.silent hstep (.nil _), fun j hj => ⟨?_, rfl⟩⟩, ?_⟩
    · rw [set_cpu, Function.update_of_ne hj]
    · rw [set_cpu, Function.update_self, hmem, h.lock, cmpxchg_free hrax hrcx]
      rfl
  have hnext : ∀ {s' : System V ι Call Res} {pc pc' : Pc} {r r' : Regs},
      (∀ {s' : System V ι Call Res}, s'.cpu i = .locking c pc' r' → s'.memory = s.memory →
        ∃ s'', SilentBy body i s' s'' ∧ (s''.cpu i).Holds) →
      pc.next r = some (pc', r') → s'.cpu i = .locking c pc r → s'.memory = s.memory →
      ∃ s'', SilentBy body i s' s'' ∧ (s''.cpu i).Holds := by
    intro s' pc pc' r r' hrest hpc hs' hmem
    have hcpu : (s'.setCpu i (.locking c pc' r')).cpu i = .locking c pc' r' :=
      Function.update_self _ _ _
    obtain ⟨s'', hrun, hs''⟩ := hrest hcpu hmem
    exact ⟨s'', (silentBy_setCpu (.next hs' hpc)).trans hrun, hs''⟩
  have hxor : ∀ {r : Regs}, r.rcx = 1 → ∀ {s' : System V ι Call Res},
      s'.cpu i = .locking c .xorRax r → s'.memory = s.memory →
      ∃ s'', SilentBy body i s' s'' ∧ (s''.cpu i).Holds :=
    fun {r} hrcx => hnext (fun hs' hmem =>
      hcmpxchg (r := { r with rax := 0, zero := true }) hs' hmem rfl hrcx) rfl
  rw [hi] at hregs
  cases pc with
  | movRdxRdi => exact hnext (hnext (hnext (hxor rfl) rfl) rfl) rfl hi rfl
  | movRax => exact hnext (hnext (hxor rfl) rfl) rfl hi rfl
  | movRcx => exact hnext (hxor rfl) rfl hi rfl
  | xorRax => exact hxor hregs hi rfl
  | cmpxchg => exact hcmpxchg hi rfl hregs.1 hregs.2
  | jnz =>
      have hout := h.out i
      rw [hi] at hout
      apply hnext (hxor hregs) _ hi rfl
      have hzero : ¬ r.zero = true := hout
      rw [Pc.next, if_neg hzero]
  | ret =>
      have hout := h.out i
      rw [hi] at hout
      exact absurd trivial hout

/-- The lock never leaves a processor stuck: from every state of a run, a processor that has called
a function can come back from it, while the others make no call and return from none. -/
theorem returns_of_trace (data : ∀ a, V a) (es : List (Event ι Call Res))
    (h : Trace (Step body) (start data) es s) (i : ι) (hi : s.cpu i ≠ .idle) :
  ∃ x s', Trace (Step body) s [Event.ret i x] s'
  := by
  obtain ⟨t, -, hrel⟩ := rel_of_trace h
  have hholds : ∀ {s : System V ι Call Res}, (s.cpu i).Holds →
      ∃ x s', Trace (Step body) s [Event.ret i x] s' := by
    intro s hs
    obtain ⟨s₁, c, code, hrun₁, hs₁⟩ := silentBy_inside body hs
    obtain ⟨s₂, x, hrun₂, hs₂⟩ := silentBy_unlocked body hs₁
    exact ⟨x, _, (hrun₁.trans hrun₂).1.append (Trace.single (Step.ret hs₂))⟩
  by_cases hs : (s.cpu i).Holds
  · exact hholds hs
  · cases hcpu : s.cpu i with
    | idle => exact absurd hcpu hi
    | locking c pc r =>
        obtain ⟨s₁, t₁, hrun₁, hrel₁, hfree, hsame⟩ := hrel.release
        have hcpu₁ : s₁.cpu i = .locking c pc r := (hsame i hs).trans hcpu
        obtain ⟨s₂, hrun₂, hs₂⟩ := hfree.acquire body hcpu₁ (hrel₁.regs i)
        obtain ⟨x, s₃, hrun₃⟩ := hholds hs₂
        exact ⟨x, s₃, (hrun₁.append hrun₂.1).append hrun₃⟩
    | inside c code =>
        rw [hcpu] at hs
        exact absurd trivial hs
    | unlocked x => exact ⟨x, _, Trace.single (Step.ret hcpu)⟩

theorem returns_of_trace_countUp :
  ∃ (s : System (fun _ : Unit => Nat) Bool Unit Nat) (x : Nat) (s' : System _ Bool Unit Nat),
    s.cpu true ≠ .idle ∧ Trace (Step countUp) s [Event.ret true x] s'
  := by
  obtain ⟨s, hs, hidle⟩ := countUp_run
  obtain ⟨x, s', h⟩ := returns_of_trace _ _ hs true hidle
  exact ⟨s, x, s', hidle, h⟩

/-! ### Every run of functions done at once is one of the processors -/

/-- What a function has returned is there until it is seen. -/
theorem Serial.finished_of_silent {t t' : Serial V ι Call Res} {x : Res}
    (h : Trace (Serial.Step body) t [] t') (hi : t.status i = .finished x) :
  t'.status i = .finished x
  := by
  generalize hes : ([] : List (Event ι Call Res)) = es at h
  induction h with
  | nil _ => exact hi
  | silent hfirst _ ih =>
      apply ih _ hes
      cases hfirst with
      | @work j c hj =>
          by_cases hij : i = j
          · rw [← hij, hi] at hj
            cases hj
          · exact (Function.update_of_ne hij _ _).trans hi
  | event _ _ _ => cases hes

/-- Without an event, each step brings one more processor to the end of its function. -/
theorem Serial.eq_of_silent {t t' : Serial V ι Call Res} (h : Trace (Serial.Step body) t [] t')
    (hstatus : ∀ j, t'.status j = t.status j) :
  t' = t
  := by
  cases h with
  | nil _ => rfl
  | silent hfirst hrest =>
      cases hfirst with
      | @work j c hj =>
          have hfinished := Serial.finished_of_silent hrest (Function.update_self j _ _)
          rw [hstatus j, hj] at hfinished
          cases hfinished

/-- When only the processor `i` comes to the end of its function, it has done its work. -/
theorem Serial.work_of_silent {t t' : Serial V ι Call Res} {x : Res}
    (h : Trace (Serial.Step body) t [] t') (hi : t.status i = .called c)
    (hi' : t'.status i = .finished x) (hstatus : ∀ j, j ≠ i → t'.status j = t.status j) :
  t' = ⟨((body c).run t.data).2, Function.update t.status i (.finished ((body c).run t.data).1)⟩
  := by
  cases h with
  | nil _ =>
      rw [hi] at hi'
      cases hi'
  | silent hfirst hrest =>
      cases hfirst with
      | @work j c' hj =>
          by_cases hji : j = i
          · subst hji
            obtain rfl : c = c' := by
              rw [hi] at hj
              injection hj
            apply Serial.eq_of_silent hrest
            intro k
            by_cases hk : k = j
            · subst hk
              have hfinished := Serial.finished_of_silent hrest (Function.update_self k _ _)
              change _ = Function.update t.status k _ k
              rw [hfinished, Function.update_self]
            · rw [hstatus k hk]
              exact (Function.update_of_ne hk _ _).symm
          · have hfinished := Serial.finished_of_silent hrest (Function.update_self j _ _)
            rw [hstatus j hji, hj] at hfinished
            cases hfinished

/-- With the lock free, a processor does the work of its function by itself. -/
theorem Rel.work (h : Rel body s t) (hfree : Free s t) (hi : t.status i = .called c) :
  ∃ s', Trace (Step body) s [] s'
    ∧ Rel body s' ⟨((body c).run t.data).2,
      Function.update t.status i (.finished ((body c).run t.data).1)⟩
    ∧ Free s' ⟨((body c).run t.data).2,
      Function.update t.status i (.finished ((body c).run t.data).1)⟩
  := by
  have hcalled := h.status i
  have hout := hfree.out i
  rw [hi] at hcalled
  obtain ⟨pc, r, hcpu⟩ : ∃ pc r, s.cpu i = .locking c pc r := by
    cases hcpu : s.cpu i with
    | idle =>
        rw [hcpu] at hcalled
        cases hcalled
    | locking c' pc r =>
        rw [hcpu] at hcalled
        injection hcalled with hc
        exact ⟨pc, r, by rw [hc]⟩
    | inside c' code =>
        rw [hcpu] at hout
        exact absurd trivial hout
    | unlocked x =>
        rw [hcpu] at hcalled
        cases hcalled
  obtain ⟨s₁, hrun₁, hs₁⟩ := hfree.acquire body hcpu (h.regs i)
  obtain ⟨s₂, c', code, hrun₂, hs₂⟩ := silentBy_inside body hs₁
  obtain ⟨s₃, x, hrun₃, hs₃⟩ := silentBy_unlocked body hs₂
  obtain ⟨s₄, hrun₄, hcpu₄, hempty⟩ := silentBy_flushed body s₃ i
  have hrun := ((hrun₁.trans hrun₂).trans hrun₃).trans hrun₄
  obtain ⟨t', ht', hrel⟩ := hrun.1.simulate (fun hrel hstep => hrel.step hstep) h
  have hx : s₄.cpu i = .unlocked x := by rw [hcpu₄, hs₃]
  have hwork := Serial.work_of_silent ht' hi (by rw [hrel.status, hx]; rfl) (by
    intro j hj
    rw [hrel.status, (hrun.2 j hj).1, ← h.status])
  have hholds : ∀ j, ¬ (s₄.cpu j).Holds := by
    intro j
    by_cases hj : j = i
    · rw [hj, hx]
      exact id
    · rw [(hrun.2 j hj).1]
      exact hfree.out j
  have hbuffer : ∀ j, s₄.memory.buffer j = [] := by
    intro j
    by_cases hj : j = i
    · rw [hj]
      exact hempty
    · rw [(hrun.2 j hj).2]
      exact hfree.empty j
  rw [hwork] at hrel
  exact ⟨s₄, hrun.1, hrel, hrel.free hbuffer hholds⟩

/-- The processors are where those are that do the work at once, and the lock is free. -/
def AtRest (body : Call → Code V Res) (t : Serial V ι Call Res) (s : System V ι Call Res) : Prop :=
  Rel body s t ∧ Free s t

/-- Every step of processors that do the work of a function at once can be taken, with the lock free
before and after it. -/
theorem AtRest.step (hrest : AtRest body t s) {o : Option (Event ι Call Res)}
    {t' : Serial V ι Call Res} (hstep : Serial.Step body t o t') :
  ∃ s', Trace (Step body) s o.toList s' ∧ AtRest body t' s'
  := by
  obtain ⟨h, hfree⟩ := hrest
  have hset : ∀ {i : ι} {l : Local V Call Res}, ¬ l.Holds → l.RegsOk →
      Rel body (s.setCpu i l) { t with status := Function.update t.status i l.status }
        ∧ Free (s.setCpu i l) { t with status := Function.update t.status i l.status } := by
    intro i l hl hregs
    have hout : ∀ j, ¬ ((s.setCpu i l).cpu j).Holds := by
      intro j
      rw [setCpu_cpu]
      by_cases hj : j = i
      · rw [hj, Function.update_self]
        exact hl
      · rw [Function.update_of_ne hj]
        exact hfree.out j
    have hfree' : Free (s.setCpu i l) { t with status := Function.update t.status i l.status } :=
      ⟨hfree.lock, hfree.empty, hout, hfree.data⟩
    exact ⟨⟨status_update h.status l, regs_update h.regs hregs, .free hfree'⟩, hfree'⟩
  cases hstep with
  | @call i c hi =>
      rw [h.status] at hi
      have hidle : s.cpu i = .idle := by
        cases hcpu : s.cpu i with
        | idle => rfl
        | locking c' pc r =>
            rw [hcpu] at hi
            cases hi
        | inside c' code =>
            rw [hcpu] at hi
            cases hi
        | unlocked x =>
            rw [hcpu] at hi
            cases hi
      exact ⟨_, .single (.call c ⟨0, 0, false⟩ hidle), hset id trivial⟩
  | @work i c hi => exact h.work hfree hi
  | @ret i x hi =>
      rw [h.status] at hi
      have hunlocked : s.cpu i = .unlocked x := by
        cases hcpu : s.cpu i with
        | idle =>
            rw [hcpu] at hi
            cases hi
        | locking c' pc r =>
            rw [hcpu] at hi
            cases hi
        | inside c' code =>
            rw [hcpu] at hi
            cases hi
        | unlocked y =>
            rw [hcpu] at hi
            injection hi with hy
            rw [hy]
      exact ⟨_, .single (.ret hunlocked), hset id trivial⟩

/-- Every run of functions that are done at once has the events of a run of the processors. -/
theorem trace_of_serial {data : ∀ a, V a} {es : List (Event ι Call Res)}
    (h : Trace (Serial.Step body) (Serial.start data) es t) :
  ∃ s : System V ι Call Res, Trace (Step body) (start data) es s
  := by
  have hstart : AtRest body (Serial.start data) (start data : System V ι Call Res) :=
    ⟨rel_start data, ⟨rfl, fun _ => rfl, fun _ => id, fun _ => rfl⟩⟩
  obtain ⟨s, hs, -⟩ := h.simulate (fun hrel hstep => hrel.step hstep) hstart
  exact ⟨s, hs⟩

/-- The processors with the spin lock show just what processors show that do the work of a function
at once. -/
theorem trace_iff (body : Call → Code V Res) (data : ∀ a, V a) (es : List (Event ι Call Res)) :
  (∃ s, Trace (Step body) (start data) es s)
    ↔ ∃ t, Trace (Serial.Step body) (Serial.start data) es t
  := by
  constructor
  · rintro ⟨s, hs⟩
    obtain ⟨t, ht, -⟩ := rel_of_trace hs
    exact ⟨t, ht⟩
  · rintro ⟨t, ht⟩
    exact trace_of_serial ht

end Progress

end Sync
