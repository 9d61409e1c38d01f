import Mittos64.Lib.Amd64
import Mittos64.Lib.Trace
import Mittos64.Lib.Tso

/-!
# Spin locks

`spin_lock` and `spin_unlock` of `cpu/sync.S`, instruction by instruction, on any number of
processors with store buffers.  The functions of the kernel that work between the two are programs
of loads and stores.  At most one processor holds the lock, and what such functions do together is
what they would do one after the other: each takes its effect at once, at some time between its
call and its return.
-/

open Tso (Code)

namespace Sync

/-! ### The machine -/

/-- The addresses that are used with a lock: the `lock_t` and the data that it protects. -/
inductive Cell (A : Type) where
  | lock
  | data (a : A)
  deriving DecidableEq

/-- The values at the addresses. -/
abbrev Cell.Val {A : Type} (V : A → Type) : Cell A → Type
  | .lock => Word
  | .data a => V a

/-- The registers that `spin_lock` works with, and the zero flag. -/
structure Regs where
  rax : Word
  rcx : Word
  zero : Bool

/-- The instructions of `spin_lock`.  It is called with the address of the lock in `rdi`. -/
inductive Pc where
  | movRdxRdi
  | movRax
  | movRcx
  | xorRax
  | cmpxchg
  | jnz
  | ret
  deriving DecidableEq

/-- An instruction of `spin_lock` that does not access the memory, and the one after it. -/
def Pc.next : Pc → Regs → Option (Pc × Regs)
  | .movRdxRdi, r => some (.movRax, r)
  | .movRax, r => some (.movRcx, { r with rax := 0 })
  | .movRcx, r => some (.xorRax, { r with rcx := 1 })
  | .xorRax, r => some (.cmpxchg, { r with rax := 0, zero := true })
  | .jnz, r => some (if r.zero then .ret else .xorRax, r)
  | .cmpxchg, _ => none
  | .ret, _ => none

/-- `lock cmpxchg [rdx], cl`: the lock and the registers after it.  Only the low byte of the lock is
compared and written. -/
def cmpxchg (lock : Word) (r : Regs) : Word × Regs :=
  if lock &&& 0xFF = r.rax &&& 0xFF then
    ((lock &&& ~~~0xFF) ||| (r.rcx &&& 0xFF), { r with zero := true })
  else
    (lock, { r with rax := (r.rax &&& ~~~0xFF) ||| (lock &&& 0xFF), zero := false })

section Machine

variable {A : Type} (V : A → Type) (ι Call Res : Type)

/-- Where a processor is: outside, in `spin_lock`, between `spin_lock` and `spin_unlock` with the
rest of the function, or behind the store of `spin_unlock`. -/
inductive Local where
  | idle
  | locking (c : Call) (pc : Pc) (r : Regs)
  | inside (c : Call) (code : Code V Res)
  | unlocked (x : Res)

/-- The processors and their memory. -/
structure System [DecidableEq A] where
  memory : Tso.Memory ι (Cell.Val V)
  cpu : ι → Local V Call Res

/-- What is seen of a processor: that it calls a function, and that the function returns. -/
inductive Event where
  | call (i : ι) (c : Call)
  | ret (i : ι) (x : Res)

end Machine

variable {A : Type} [DecidableEq A] {V : A → Type} {ι Call Res : Type} [DecidableEq ι]

/-- The data as the processor sees it. -/
def dataView (m : Tso.Memory ι (Cell.Val V)) (i : ι) : ∀ a, V a :=
  fun a => m.view i (.data a)

/-- Write where a processor is. -/
def System.setCpu (s : System V ι Call Res) (i : ι) (l : Local V Call Res) :
    System V ι Call Res :=
  { s with cpu := Function.update s.cpu i l }

/-- Write the memory and where a processor is. -/
def System.set (s : System V ι Call Res) (m : Tso.Memory ι (Cell.Val V)) (i : ι)
    (l : Local V Call Res) : System V ι Call Res where
  memory := m
  cpu := Function.update s.cpu i l

/-- The steps of the processors and of their buffers.  The function `c` does `body c` between
`spin_lock` and `spin_unlock`. -/
inductive Step (body : Call → Code V Res) :
    System V ι Call Res → Option (Event ι Call Res) → System V ι Call Res → Prop where
  | call {s : System V ι Call Res} {i : ι} (c : Call) (r : Regs) : s.cpu i = .idle →
      Step body s (some (.call i c)) (s.setCpu i (.locking c .movRdxRdi r))
  | next {s : System V ι Call Res} {i : ι} {c : Call} {pc pc' : Pc} {r r' : Regs} :
      s.cpu i = .locking c pc r → pc.next r = some (pc', r') →
      Step body s none (s.setCpu i (.locking c pc' r'))
  | cmpxchg {s : System V ι Call Res} {i : ι} {c : Call} {r : Regs} :
      s.cpu i = .locking c .cmpxchg r → s.memory.buffer i = [] →
      Step body s none (s.set
        (s.memory.exchange .lock (cmpxchg (s.memory.shared .lock) r).1) i
        (.locking c .jnz (cmpxchg (s.memory.shared .lock) r).2))
  | enter {s : System V ι Call Res} {i : ι} {c : Call} {r : Regs} :
      s.cpu i = .locking c .ret r → Step body s none (s.setCpu i (.inside c (body c)))
  | load {s : System V ι Call Res} {i : ι} {c : Call} {a : A} {k : V a → Code V Res} :
      s.cpu i = .inside c (.load a k) →
      Step body s none (s.setCpu i (.inside c (k (dataView s.memory i a))))
  | store {s : System V ι Call Res} {i : ι} {c : Call} {a : A} {v : V a} {k : Code V Res} :
      s.cpu i = .inside c (.store a v k) →
      Step body s none (s.set (s.memory.store i (.data a) v) i (.inside c k))
  | unlock {s : System V ι Call Res} {i : ι} {c : Call} {x : Res} :
      s.cpu i = .inside c (.done x) →
      Step body s none (s.set (s.memory.store i .lock (0 : Word)) i (.unlocked x))
  | ret {s : System V ι Call Res} {i : ι} {x : Res} : s.cpu i = .unlocked x →
      Step body s (some (.ret i x)) (s.setCpu i .idle)
  | flush {s : System V ι Call Res} {i : ι} {st : Sigma (Cell.Val V)}
      {b : List (Sigma (Cell.Val V))} : s.memory.buffer i = st :: b →
      Step body s none { s with memory := s.memory.flush i st b }

/-- The values in memory, with the lock at 0. -/
def startMemory (data : ∀ a, V a) : ∀ a, Cell.Val V a
  | .lock => (0 : Word)
  | .data a => data a

/-- The processors before the first call: the lock is free. -/
def start (data : ∀ a, V a) : System V ι Call Res where
  memory := ⟨startMemory data, fun _ => []⟩
  cpu := fun _ => .idle

/-! ### One function after the other -/

/-- Where a processor is that does the work of a function at once. -/
inductive Status (Call Res : Type) where
  | idle
  | called (c : Call)
  | finished (x : Res)

/-- The data, and the processors that work on them. -/
structure Serial (V : A → Type) (ι Call Res : Type) where
  data : ∀ a, V a
  status : ι → Status Call Res

/-- The steps of processors that do the work of a function at once. -/
inductive Serial.Step (body : Call → Code V Res) :
    Serial V ι Call Res → Option (Event ι Call Res) → Serial V ι Call Res → Prop where
  | call {t : Serial V ι Call Res} {i : ι} (c : Call) : t.status i = .idle →
      Step body t (some (.call i c)) { t with status := Function.update t.status i (.called c) }
  | work {t : Serial V ι Call Res} {i : ι} {c : Call} : t.status i = .called c →
      Step body t none ⟨((body c).run t.data).2,
        Function.update t.status i (.finished ((body c).run t.data).1)⟩
  | ret {t : Serial V ι Call Res} {i : ι} {x : Res} : t.status i = .finished x →
      Step body t (some (.ret i x)) { t with status := Function.update t.status i .idle }

/-- The processors before the first call. -/
def Serial.start (data : ∀ a, V a) : Serial V ι Call Res where
  data := data
  status := fun _ => .idle

/-! ### The holder of the lock -/

namespace Local

/-- The processor holds the lock: it is between the exchange that took it and the store of
`spin_unlock`. -/
def Holds : Local V Call Res → Prop
  | .locking _ .jnz r => r.zero = true
  | .locking _ .ret _ => True
  | .inside _ _ => True
  | _ => False

/-- The registers have what the next instructions count on. -/
def RegsOk : Local V Call Res → Prop
  | .locking _ .xorRax r => r.rcx = 1
  | .locking _ .cmpxchg r => r.rax = 0 ∧ r.rcx = 1
  | .locking _ .jnz r => r.rcx = 1
  | _ => True

/-- What is seen of the processor. -/
def status : Local V Call Res → Status Call Res
  | .idle => .idle
  | .locking c _ _ => .called c
  | .inside c _ => .called c
  | .unlocked x => .finished x

/-- The function that the processor is in, and what is left to do of it. -/
def Rest (body : Call → Code V Res) : Local V Call Res → Call → Code V Res → Prop
  | .locking c _ _, c', code => c' = c ∧ code = body c
  | .inside c k, c', code => c' = c ∧ code = k
  | _, _, _ => False

end Local

section Relation

variable (body : Call → Code V Res) (s : System V ι Call Res) (t : Serial V ι Call Res)

/-- No processor holds the lock, and no store is on its way to the memory. -/
structure Free : Prop where
  lock : s.memory.shared .lock = (0 : Word)
  empty : ∀ j, s.memory.buffer j = []
  out : ∀ j, ¬ (s.cpu j).Holds
  data : ∀ a, s.memory.shared (.data a) = t.data a

/-- The processor `i` holds the lock, and goes on to do what the function does at once. -/
structure Held (i : ι) : Prop where
  lock : s.memory.shared .lock = (1 : Word)
  empty : ∀ j, j ≠ i → s.memory.buffer j = []
  out : ∀ j, j ≠ i → ¬ (s.cpu j).Holds
  holds : (s.cpu i).Holds
  pending : ∀ st ∈ s.memory.buffer i, st.1 ≠ .lock
  rest : ∃ c code, (s.cpu i).Rest body c code
    ∧ code.run (dataView s.memory i) = (body c).run t.data

/-- The processor `i` has left the function, but its store to the lock is still in its buffer,
behind those of the function. -/
structure Released (i : ι) : Prop where
  lock : s.memory.shared .lock = (1 : Word)
  empty : ∀ j, j ≠ i → s.memory.buffer j = []
  out : ∀ j, ¬ (s.cpu j).Holds
  behind : ∃ b, s.memory.buffer i = b ++ [⟨.lock, (0 : Word)⟩] ∧ ∀ st ∈ b, st.1 ≠ .lock
  data : ∀ a, dataView s.memory i a = t.data a

/-- The data are where the lock says, but for the stores of one processor. -/
inductive Owned : Prop where
  | free : Free s t → Owned
  | held (i : ι) : Held body s t i → Owned
  | released (i : ι) : Released s t i → Owned

/-- The processors are where those are that do the work at once. -/
structure Rel : Prop where
  status : ∀ j, t.status j = (s.cpu j).status
  regs : ∀ j, (s.cpu j).RegsOk
  owned : Owned body s t

end Relation

@[simp]
theorem setCpu_memory (s : System V ι Call Res) (i : ι) (l : Local V Call Res) :
  (s.setCpu i l).memory = s.memory
  := rfl

@[simp]
theorem setCpu_cpu (s : System V ι Call Res) (i : ι) (l : Local V Call Res) :
  (s.setCpu i l).cpu = Function.update s.cpu i l
  := rfl

@[simp]
theorem set_memory (s : System V ι Call Res) (m : Tso.Memory ι (Cell.Val V)) (i : ι)
    (l : Local V Call Res) :
  (s.set m i l).memory = m
  := rfl

@[simp]
theorem set_cpu (s : System V ι Call Res) (m : Tso.Memory ι (Cell.Val V)) (i : ι)
    (l : Local V Call Res) :
  (s.set m i l).cpu = Function.update s.cpu i l
  := rfl

section Steps

variable {body : Call → Code V Res} {s : System V ι Call Res} {t t' : Serial V ι Call Res} {i : ι}
  {c : Call} {l : Local V Call Res}

/-- The only processor that holds the lock is the owner. -/
theorem Owned.held_of_holds (h : Owned body s t) (hi : (s.cpu i).Holds) :
  Held body s t i
  := by
  cases h with
  | free h => exact absurd hi (h.out i)
  | held j h =>
      by_cases hji : i = j
      · rw [hji]
        exact h
      · exact absurd hi (h.out i hji)
  | released j h => exact absurd hi (h.out i)

/-- At most one processor holds the lock. -/
theorem Owned.unique (h : Owned body s t) {j : ι} (hi : (s.cpu i).Holds) (hj : (s.cpu j).Holds) :
  i = j
  := by
  by_contra hne
  exact (h.held_of_holds hj).out i hne hi

/-- A processor goes on without the memory: it holds the lock as before, and what is left to do
is the same. -/
theorem Owned.setCpu (h : Owned body s t) (hdata : t'.data = t.data)
    (hholds : l.Holds ↔ (s.cpu i).Holds)
    (hrest : l.Holds → ∀ c code, (s.cpu i).Rest body c code → ∃ code', l.Rest body c code'
      ∧ code'.run (dataView s.memory i) = code.run (dataView s.memory i)) :
  Owned body (s.setCpu i l) t'
  := by
  have hout : ∀ j, ¬ (s.cpu j).Holds → ¬ ((s.setCpu i l).cpu j).Holds := by
    intro j hj
    rw [setCpu_cpu]
    by_cases hji : j = i
    · rw [hji, Function.update_self, hholds, ← hji]
      exact hj
    · rw [Function.update_of_ne hji]
      exact hj
  cases h with
  | free h =>
      apply Owned.free
      constructor
      · exact h.lock
      · exact h.empty
      · exact fun j => hout j (h.out j)
      · rw [hdata]
        exact h.data
  | held k h =>
      apply Owned.held k
      have hout' : ∀ j, j ≠ k → ¬ ((s.setCpu i l).cpu j).Holds := fun j hj => hout j (h.out j hj)
      by_cases hki : k = i
      · subst hki
        have hl : l.Holds := hholds.mpr h.holds
        obtain ⟨c, code, hcode, hrun⟩ := h.rest
        obtain ⟨code', hcode', hrun'⟩ := hrest hl c code hcode
        refine ⟨h.lock, h.empty, hout', ?_, h.pending, c, code', ?_, ?_⟩
        · rw [setCpu_cpu, Function.update_self]
          exact hl
        · rw [setCpu_cpu, Function.update_self]
          exact hcode'
        · rw [setCpu_memory, hrun', hrun, hdata]
      · refine ⟨h.lock, h.empty, hout', ?_, h.pending, ?_⟩
        · rw [setCpu_cpu, Function.update_of_ne hki]
          exact h.holds
        · rw [setCpu_cpu, Function.update_of_ne hki, hdata]
          exact h.rest
  | released k h =>
      apply Owned.released k
      refine ⟨h.lock, h.empty, fun j => hout j (h.out j), h.behind, ?_⟩
      rw [hdata]
      exact h.data

/-- A free lock is taken. -/
theorem cmpxchg_free {r : Regs} (hrax : r.rax = 0) (hrcx : r.rcx = 1) :
  cmpxchg 0 r = (1, { r with zero := true })
  := by
  rw [cmpxchg, hrax, hrcx, if_pos rfl]
  rfl

/-- A lock that is taken is left as it is. -/
theorem cmpxchg_taken {r : Regs} (hrax : r.rax = 0) :
  (cmpxchg 1 r).1 = 1 ∧ (cmpxchg 1 r).2.zero = false ∧ (cmpxchg 1 r).2.rcx = r.rcx
  := by
  rw [cmpxchg, hrax, if_neg (by decide)]
  exact ⟨rfl, rfl, rfl⟩

omit [DecidableEq A] in
theorem data_ne_lock (a : A) :
  Cell.data a ≠ .lock
  := by
  intro h
  cases h

omit [DecidableEq ι] in
theorem exchange_lock (m : Tso.Memory ι (Cell.Val V)) (w : Word) :
  (m.exchange .lock w).shared .lock = w
  := @Function.update_self (Cell A) (Cell.Val V) _ .lock w m.shared

omit [DecidableEq ι] in
theorem exchange_data (m : Tso.Memory ι (Cell.Val V)) (w : Word) (a : A) :
  (m.exchange .lock w).shared (.data a) = m.shared (.data a)
  := @Function.update_of_ne (Cell A) (Cell.Val V) _ _ _ (data_ne_lock a) w m.shared

omit [DecidableEq ι] in
theorem exchange_self (m : Tso.Memory ι (Cell.Val V)) {w : Word} (h : m.shared .lock = w) :
  m.exchange .lock w = m
  := by
  rw [Tso.Memory.exchange, ← h, Function.update_eq_self]

omit [DecidableEq ι] in
theorem dataView_of_empty {m : Tso.Memory ι (Cell.Val V)} (h : m.buffer i = []) (a : A) :
  dataView m i a = m.shared (.data a)
  := by
  rw [dataView, Tso.Memory.view_of_buffer_eq_nil h]

/-- The exchange of `spin_lock` takes the lock when it is free, and does nothing when it is not. -/
theorem Owned.cmpxchg {r : Regs} (h : Owned body s t) (hi : s.cpu i = .locking c .cmpxchg r)
    (hrax : r.rax = 0) (hrcx : r.rcx = 1) (hempty : s.memory.buffer i = [])
    (hdata : t'.data = t.data) :
  Owned body (s.set
    (s.memory.exchange .lock (Sync.cmpxchg (s.memory.shared .lock) r).1) i
    (.locking c .jnz (Sync.cmpxchg (s.memory.shared .lock) r).2)) t'
  := by
  have htaken : s.memory.shared .lock = (1 : Word) → Owned body s t → Owned body (s.set
      (s.memory.exchange .lock (Sync.cmpxchg (s.memory.shared .lock) r).1) i
      (.locking c .jnz (Sync.cmpxchg (s.memory.shared .lock) r).2)) t' := by
    intro hlock h
    obtain ⟨hsame, hzero, -⟩ := cmpxchg_taken (r := r) hrax
    rw [hlock, exchange_self _ (hlock.trans hsame.symm)]
    have hnot : ¬ (Local.locking c .jnz (Sync.cmpxchg 1 r).2 : Local V Call Res).Holds := by
      rw [Local.Holds, hzero]
      exact Bool.false_ne_true
    apply h.setCpu hdata
    · rw [hi]
      exact ⟨fun h => absurd h hnot, fun h => h.elim⟩
    · exact fun h => absurd h hnot
  cases h with
  | free h =>
      rw [h.lock, cmpxchg_free hrax hrcx]
      apply Owned.held i
      refine ⟨?_, fun j _ => h.empty j, ?_, ?_, ?_, c, body c, ?_, ?_⟩
      · exact exchange_lock s.memory 1
      · intro j hj
        rw [set_cpu, Function.update_of_ne hj]
        exact h.out j
      · rw [set_cpu, Function.update_self]
        rfl
      · intro st hst
        have hnil : st ∈ s.memory.buffer i := hst
        rw [hempty] at hnil
        exact absurd hnil List.not_mem_nil
      · rw [set_cpu, Function.update_self]
        exact ⟨rfl, rfl⟩
      · have hview : dataView (s.memory.exchange .lock (1 : Word)) i = t'.data := by
          funext a
          have hnil : (s.memory.exchange .lock (1 : Word)).buffer i = [] := hempty
          rw [dataView_of_empty hnil, exchange_data, h.data, hdata]
        exact congrArg _ hview
  | held k h => exact htaken h.lock (.held k h)
  | released k h => exact htaken h.lock (.released k h)

/-- A load of the holder reads what the function reads when it is done at once. -/
theorem Owned.load (h : Owned body s t) {a : A} {k : V a → Code V Res}
    (hi : s.cpu i = .inside c (.load a k)) (hdata : t'.data = t.data) :
  Owned body (s.setCpu i (.inside c (k (dataView s.memory i a)))) t'
  := by
  apply h.setCpu hdata
  · rw [hi]
    exact Iff.rfl
  · rintro - c' code hcode
    rw [hi] at hcode
    obtain ⟨rfl, rfl⟩ := hcode
    exact ⟨_, ⟨rfl, rfl⟩, rfl⟩

theorem dataView_store (m : Tso.Memory ι (Cell.Val V)) (i : ι) (a : A) (v : V a) :
  dataView (m.store i (.data a) v) i = Function.update (dataView m i) a v
  := by
  funext a'
  rw [dataView, Tso.Memory.store_view]
  by_cases ha : a' = a
  · subst ha
    rw [Function.update_self, Function.update_self]
  · have hne : Cell.data a' ≠ .data a := fun h => ha (Cell.data.inj h)
    rw [Function.update_of_ne ha, Function.update_of_ne hne, dataView]

theorem dataView_unlock (m : Tso.Memory ι (Cell.Val V)) (i : ι) (w : Word) :
  dataView (m.store i .lock w) i = dataView m i
  := by
  funext a
  rw [dataView, Tso.Memory.store_view, Function.update_of_ne (data_ne_lock a), dataView]

/-- A store of the holder goes into its buffer. -/
theorem Owned.store (h : Owned body s t) {a : A} {v : V a} {k : Code V Res}
    (hi : s.cpu i = .inside c (.store a v k)) (hdata : t'.data = t.data) :
  Owned body (s.set (s.memory.store i (.data a) v) i (.inside c k)) t'
  := by
  have hheld := h.held_of_holds (i := i) (by rw [hi]; trivial)
  obtain ⟨c', code, hcode, hrun⟩ := hheld.rest
  rw [hi] at hcode
  obtain ⟨rfl, rfl⟩ := hcode
  apply Owned.held i
  refine ⟨hheld.lock, ?_, ?_, ?_, ?_, c', k, ?_, ?_⟩
  · intro j hj
    rw [set_memory, Tso.Memory.store_buffer_of_ne _ _ _ _ hj]
    exact hheld.empty j hj
  · intro j hj
    rw [set_cpu, Function.update_of_ne hj]
    exact hheld.out j hj
  · rw [set_cpu, Function.update_self]
    trivial
  · intro st hst
    rw [set_memory, Tso.Memory.store_buffer_self, List.mem_append, List.mem_singleton] at hst
    obtain hst | rfl := hst
    · exact hheld.pending st hst
    · exact data_ne_lock a
  · rw [set_cpu, Function.update_self]
    exact ⟨rfl, rfl⟩
  · rw [set_memory, dataView_store, hdata, ← hrun]
    rfl

/-- The store of `spin_unlock` is the last one of the holder.  The function has then been done. -/
theorem Owned.unlock (h : Owned body s t) {x : Res} (hi : s.cpu i = .inside c (.done x))
    (hdata : t'.data = ((body c).run t.data).2) :
  ((body c).run t.data).1 = x
    ∧ Owned body (s.set (s.memory.store i .lock (0 : Word)) i (.unlocked x)) t'
  := by
  have hheld := h.held_of_holds (i := i) (by rw [hi]; trivial)
  obtain ⟨c', code, hcode, hrun⟩ := hheld.rest
  rw [hi] at hcode
  obtain ⟨rfl, rfl⟩ := hcode
  rw [← hrun] at hdata ⊢
  constructor
  · rfl
  · apply Owned.released i
    refine ⟨hheld.lock, ?_, ?_, ⟨s.memory.buffer i, ?_, hheld.pending⟩, ?_⟩
    · intro j hj
      rw [set_memory, Tso.Memory.store_buffer_of_ne _ _ _ _ hj]
      exact hheld.empty j hj
    · intro j
      rw [set_cpu]
      by_cases hj : j = i
      · rw [hj, Function.update_self]
        exact id
      · rw [Function.update_of_ne hj]
        exact hheld.out j hj
    · rw [set_memory, Tso.Memory.store_buffer_self]
    · intro a
      rw [set_memory, dataView_unlock, hdata]
      rfl

/-- When a store reaches the memory, its processor does not see it.  The lock is free when the
store of `spin_unlock` does. -/
theorem Owned.flush (h : Owned body s t) {st : Sigma (Cell.Val V)} {b : List (Sigma (Cell.Val V))}
    (hi : s.memory.buffer i = st :: b) :
  Owned body { s with memory := s.memory.flush i st b } t
  := by
  have hview : dataView (s.memory.flush i st b) i = dataView s.memory i := by
    funext a
    rw [dataView, Tso.Memory.flush_view hi, dataView]
  have howner : ∀ k, (∀ j, j ≠ k → s.memory.buffer j = []) → k = i := by
    intro k hempty
    by_contra hne
    have hnil := hempty i fun h => hne h.symm
    rw [hi] at hnil
    exact absurd hnil (List.cons_ne_nil _ _)
  cases h with
  | free h => exact absurd (hi.symm.trans (h.empty i)) (List.cons_ne_nil _ _)
  | held k h =>
      obtain rfl := howner k h.empty
      have hst : st.1 ≠ .lock := h.pending st (by rw [hi]; exact List.mem_cons_self)
      apply Owned.held k
      refine ⟨?_, ?_, h.out, h.holds, ?_, ?_⟩
      · rw [Tso.Memory.flush_shared, Function.update_of_ne hst.symm]
        exact h.lock
      · intro j hj
        rw [Tso.Memory.flush_buffer_of_ne _ _ _ _ hj]
        exact h.empty j hj
      · intro st' hst'
        rw [Tso.Memory.flush_buffer_self] at hst'
        apply h.pending st'
        rw [hi]
        exact List.mem_cons_of_mem st hst'
      · rw [hview]
        exact h.rest
  | released k h =>
      obtain rfl := howner k h.empty
      obtain ⟨b', hb', hdata⟩ := h.behind
      rw [hi] at hb'
      have hempty : ∀ j, j ≠ k → (s.memory.flush k st b).buffer j = [] := by
        intro j hj
        rw [Tso.Memory.flush_buffer_of_ne _ _ _ _ hj]
        exact h.empty j hj
      cases b' with
      | nil =>
          obtain ⟨rfl, rfl⟩ := List.cons.inj hb'
          apply Owned.free
          have hnil : ∀ j, (s.memory.flush k ⟨.lock, (0 : Word)⟩ []).buffer j = [] := by
            intro j
            by_cases hj : j = k
            · rw [hj, Tso.Memory.flush_buffer_self]
            · exact hempty j hj
          refine ⟨?_, hnil, h.out, ?_⟩
          · rw [Tso.Memory.flush_shared, Function.update_self]
          · intro a
            rw [← dataView_of_empty (hnil k), hview]
            exact h.data a
      | cons st' b' =>
          obtain ⟨rfl, rfl⟩ := List.cons.inj hb'
          rw [List.forall_mem_cons] at hdata
          apply Owned.released k
          refine ⟨?_, hempty, h.out, ⟨b', ?_, hdata.2⟩, ?_⟩
          · rw [Tso.Memory.flush_shared, Function.update_of_ne hdata.1.symm]
            exact h.lock
          · rw [Tso.Memory.flush_buffer_self]
            rfl
          · rw [hview]
            exact h.data

end Steps

end Sync
