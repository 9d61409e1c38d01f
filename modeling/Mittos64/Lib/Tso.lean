import Mathlib.Logic.Function.Basic
import Mathlib.Data.List.Basic

/-!
# Store buffers

Processors that share a memory but put their stores into buffers of their own first, as those of the
x86 architecture do.  A load takes the newest store to its address from the buffer of its processor
and the value in memory when there is none.  The oldest store of a buffer may reach the memory at
any time.

The values at an address are of a type that depends on the address.  `Code` is a program of loads
and stores; `Code.run` is what it does when nothing comes in between.
-/

universe u

namespace Tso

variable {Addr : Type u} [DecidableEq Addr] {V : Addr → Type u} {α β : Type u} {ι : Type*}

/-! ### Programs -/

/-- A program of loads and stores that ends with a value. -/
inductive Code (V : Addr → Type u) (α : Type u) : Type u where
  | done (x : α)
  | load (a : Addr) (k : V a → Code V α)
  | store (a : Addr) (v : V a) (k : Code V α)

namespace Code

/-- One program after the other. -/
def bind : Code V α → (α → Code V β) → Code V β
  | done x, f => f x
  | load a k, f => load a fun v => (k v).bind f
  | store a v k, f => store a v (k.bind f)

instance : Monad (Code V) where
  pure := done
  bind := bind

/-- Load a value. -/
def read (a : Addr) : Code V (V a) :=
  load a done

/-- Store a value. -/
def write (a : Addr) (v : V a) : Code V PUnit :=
  store a v (done ⟨⟩)

/-- What the program does on a memory of its own. -/
def run : Code V α → (∀ a, V a) → α × (∀ a, V a)
  | done x, m => (x, m)
  | load a k, m => (k (m a)).run m
  | store a v k, m => k.run (Function.update m a v)

@[simp]
theorem run_pure (x : α) (m : ∀ a, V a) :
  (pure x : Code V α).run m = (x, m)
  := rfl

@[simp]
theorem run_read (a : Addr) (m : ∀ a, V a) :
  (read a : Code V (V a)).run m = (m a, m)
  := rfl

@[simp]
theorem run_write (a : Addr) (v : V a) (m : ∀ a, V a) :
  (write a v : Code V PUnit).run m = (⟨⟩, Function.update m a v)
  := rfl

@[simp]
theorem run_bind (c : Code V α) (f : α → Code V β) (m : ∀ a, V a) :
  (c >>= f).run m = (f (c.run m).1).run (c.run m).2
  := by
  have h : ∀ m, (c.bind f).run m = (f (c.run m).1).run (c.run m).2 := by
    induction c with
    | done x => exact fun m => rfl
    | load a k ih => exact fun m => ih (m a) m
    | store a v k ih => exact fun m => ih (Function.update m a v)
  exact h m

end Code

/-! ### Buffers -/

/-- The memory after stores, the first one first. -/
def settle (m : ∀ a, V a) (b : List (Sigma V)) : ∀ a, V a :=
  b.foldl (fun m st => Function.update m st.1 st.2) m

@[simp]
theorem settle_nil (m : ∀ a, V a) :
  settle m [] = m
  := rfl

theorem settle_cons (m : ∀ a, V a) (st : Sigma V) (b : List (Sigma V)) :
  settle m (st :: b) = settle (Function.update m st.1 st.2) b
  := rfl

theorem settle_append_singleton (m : ∀ a, V a) (b : List (Sigma V)) (st : Sigma V) :
  settle m (b ++ [st]) = Function.update (settle m b) st.1 st.2
  := by
  rw [settle, List.foldl_append]
  rfl

/-- Stores to other addresses keep the value. -/
theorem settle_of_notMem {a : Addr} {b : List (Sigma V)} (h : ∀ st ∈ b, st.1 ≠ a)
    (m : ∀ a, V a) :
  settle m b a = m a
  := by
  induction b generalizing m with
  | nil => rfl
  | cons st b ih =>
      rw [List.forall_mem_cons] at h
      rw [settle_cons, ih h.2, Function.update_of_ne h.1.symm]

/-- The shared memory, and the stores of each processor that have not reached it. -/
structure Memory (ι : Type*) (V : Addr → Type u) where
  shared : ∀ a, V a
  buffer : ι → List (Sigma V)

namespace Memory

/-- The memory as the processor sees it. -/
def view (m : Memory ι V) (i : ι) : ∀ a, V a :=
  settle m.shared (m.buffer i)

theorem view_of_buffer_eq_nil {m : Memory ι V} {i : ι} (h : m.buffer i = []) :
  m.view i = m.shared
  := by
  rw [view, h, settle_nil]

/-- A locked instruction of a processor without stores of its own writes to the memory. -/
def exchange (m : Memory ι V) (a : Addr) (v : V a) : Memory ι V :=
  { m with shared := Function.update m.shared a v }

variable [DecidableEq ι]

/-- A store of the processor goes into its buffer. -/
def store (m : Memory ι V) (i : ι) (a : Addr) (v : V a) : Memory ι V where
  shared := m.shared
  buffer := Function.update m.buffer i (m.buffer i ++ [⟨a, v⟩])

/-- The store `st`, the oldest one of the processor, reaches the memory, and `b` is left. -/
def flush (m : Memory ι V) (i : ι) (st : Sigma V) (b : List (Sigma V)) : Memory ι V where
  shared := Function.update m.shared st.1 st.2
  buffer := Function.update m.buffer i b

section Buffers

variable (m : Memory ι V) (i : ι) (a : Addr) (v : V a) (st : Sigma V) (b : List (Sigma V))

omit [DecidableEq Addr] in
@[simp]
theorem store_shared :
  (m.store i a v).shared = m.shared
  := rfl

omit [DecidableEq Addr] in
@[simp]
theorem store_buffer_self :
  (m.store i a v).buffer i = m.buffer i ++ [⟨a, v⟩]
  := Function.update_self _ _ _

omit [DecidableEq Addr] in
@[simp]
theorem store_buffer_of_ne {j : ι} (h : j ≠ i) :
  (m.store i a v).buffer j = m.buffer j
  := Function.update_of_ne h _ _

@[simp]
theorem flush_shared :
  (m.flush i st b).shared = Function.update m.shared st.1 st.2
  := rfl

@[simp]
theorem flush_buffer_self :
  (m.flush i st b).buffer i = b
  := Function.update_self _ _ _

@[simp]
theorem flush_buffer_of_ne {j : ι} (h : j ≠ i) :
  (m.flush i st b).buffer j = m.buffer j
  := Function.update_of_ne h _ _

/-- A processor sees its own stores. -/
theorem store_view :
  (m.store i a v).view i = Function.update (m.view i) a v
  := by
  rw [view, store_shared, store_buffer_self]
  exact settle_append_singleton m.shared (m.buffer i) ⟨a, v⟩

end Buffers

/-- A processor does not see when its own stores reach the memory. -/
theorem flush_view {m : Memory ι V} {i : ι} {st : Sigma V} {b : List (Sigma V)}
    (h : m.buffer i = st :: b) :
  (m.flush i st b).view i = m.view i
  := by
  rw [view, view, h, settle_cons, flush_shared, flush_buffer_self]

end Memory

end Tso
