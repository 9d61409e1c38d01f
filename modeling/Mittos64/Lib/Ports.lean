import Mathlib.Data.List.Basic
import Mathlib.Order.Lattice
import Mathlib.Tactic.SplitIfs

/-!
# Devices behind ports

A device answers reads of its ports and takes writes to them, and changes its state with each.
`Code` is a program that talks to a device and may read a port again and again until it likes what
it reads.  A program `Completes` when it ends with enough time for the loops it waits in, and what
it ends with does not depend on how much more time there is.
-/

namespace Ports

/-- A device: what it does with reads of its ports, of a byte and of a word, and with writes to
them. -/
structure Device (S : Type) where
  inb : S → Nat → UInt8 × S
  inw : S → Nat → UInt16 × S
  outb : S → Nat → UInt8 → S
  outw : S → Nat → UInt16 → S

/-- A program that reads and writes ports and ends with a value.  `poll` reads a port until the
value is one to stop at. -/
inductive Code (α : Type) : Type where
  | done (x : α)
  | inb (port : Nat) (k : UInt8 → Code α)
  | inw (port : Nat) (k : UInt16 → Code α)
  | outb (port : Nat) (v : UInt8) (k : Code α)
  | outw (port : Nat) (v : UInt16) (k : Code α)
  | poll (port : Nat) (stop : UInt8 → Bool) (k : UInt8 → Code α)

variable {α β S : Type}

namespace Code

/-- One program after the other. -/
def bind : Code α → (α → Code β) → Code β
  | done x, f => f x
  | inb port k, f => inb port fun v => (k v).bind f
  | inw port k, f => inw port fun v => (k v).bind f
  | outb port v k, f => outb port v (k.bind f)
  | outw port v k, f => outw port v (k.bind f)
  | poll port stop k, f => poll port stop fun v => (k v).bind f

instance : Monad Code where
  pure := done
  bind := bind

end Code

/-- `inb(port)` -/
def inb (port : Nat) : Code UInt8 :=
  .inb port .done

/-- `inw(port)` -/
def inw (port : Nat) : Code UInt16 :=
  .inw port .done

/-- `outb(port, v)` -/
def outb (port : Nat) (v : UInt8) : Code Unit :=
  .outb port v (.done ⟨⟩)

/-- `outw(port, v)` -/
def outw (port : Nat) (v : UInt16) : Code Unit :=
  .outw port v (.done ⟨⟩)

/-- Read the port until the value is one to stop at. -/
def poll (port : Nat) (stop : UInt8 → Bool) : Code UInt8 :=
  .poll port stop .done

/-- A loop that counts from `i` on, with `n` turns left. -/
def loop (f : Nat → α → Code α) : Nat → Nat → α → Code α
  | 0, _, x => pure x
  | n + 1, i, x => do
      let x ← f i x
      loop f n (i + 1) x

/-! ### Runs -/

/-- The value at which a loop over reads of a port stops, when it takes at most the given number of
them. -/
def Device.poll (d : Device S) (port : Nat) (stop : UInt8 → Bool) : Nat → S → Option (UInt8 × S)
  | 0, _ => none
  | n + 1, s =>
      if stop (d.inb s port).1 then some (d.inb s port) else d.poll port stop n (d.inb s port).2

/-- What a program does when each of its loops takes at most `n` reads. -/
def Code.run (d : Device S) (n : Nat) : Code α → S → Option (α × S)
  | done x, s => some (x, s)
  | inb port k, s => (k (d.inb s port).1).run d n (d.inb s port).2
  | inw port k, s => (k (d.inw s port).1).run d n (d.inw s port).2
  | outb port v k, s => k.run d n (d.outb s port v)
  | outw port v k, s => k.run d n (d.outw s port v)
  | poll port stop k, s =>
      match d.poll port stop n s with
      | none => none
      | some r => (k r.1).run d n r.2

/-- The program ends with this value and leaves the device in this state, when there is enough time
for its loops. -/
def Completes (d : Device S) (c : Code α) (s : S) (x : α) (s' : S) : Prop :=
  ∃ n, ∀ m, n ≤ m → c.run d m s = some (x, s')

section Rules

variable {d : Device S} {s s' s'' : S} {x : α} {y : β} {port : Nat} {stop : UInt8 → Bool}

theorem Device.poll_mono {n m : Nat} {r : UInt8 × S} (hle : n ≤ m)
    (h : d.poll port stop n s = some r) :
  d.poll port stop m s = some r
  := by
  induction n generalizing s m with
  | zero => cases h
  | succ n ih =>
      obtain ⟨m, rfl⟩ : ∃ m', m = m' + 1 := ⟨m - 1, by omega⟩
      rw [Device.poll] at h ⊢
      split_ifs at h ⊢
      · exact h
      · exact ih (by omega) h

/-- A program has one end at most. -/
theorem Completes.unique {c : Code α} {x' : α} (h : Completes d c s x s')
    (h' : Completes d c s x' s'') :
  x = x' ∧ s' = s''
  := by
  obtain ⟨n, hn⟩ := h
  obtain ⟨n', hn'⟩ := h'
  have heq := (hn (max n n') (le_max_left n n')).symm.trans (hn' (max n n') (le_max_right n n'))
  exact Prod.mk.inj (Option.some.inj heq)

theorem completes_pure (x : α) (s : S) :
  Completes d (pure x) s x s
  := ⟨0, fun _ _ => rfl⟩

theorem completes_inb (port : Nat) (s : S) :
  Completes d (inb port) s (d.inb s port).1 (d.inb s port).2
  := ⟨0, fun _ _ => rfl⟩

theorem completes_inw (port : Nat) (s : S) :
  Completes d (inw port) s (d.inw s port).1 (d.inw s port).2
  := ⟨0, fun _ _ => rfl⟩

theorem completes_outb (port : Nat) (v : UInt8) (s : S) :
  Completes d (outb port v) s ⟨⟩ (d.outb s port v)
  := ⟨0, fun _ _ => rfl⟩

theorem completes_outw (port : Nat) (v : UInt16) (s : S) :
  Completes d (outw port v) s ⟨⟩ (d.outw s port v)
  := ⟨0, fun _ _ => rfl⟩

/-- A loop ends when the device answers it after some number of reads. -/
theorem completes_poll {n : Nat} {v : UInt8} (h : d.poll port stop n s = some (v, s')) :
  Completes d (poll port stop) s v s'
  := by
  refine ⟨n, fun m hm => ?_⟩
  rw [Ports.poll, Code.run, Device.poll_mono hm h]
  rfl

theorem run_bind (c : Code α) (f : α → Code β) (m : Nat) :
  (c >>= f).run d m s = (c.run d m s).bind fun r => (f r.1).run d m r.2
  := by
  have h : ∀ s, (c.bind f).run d m s = (c.run d m s).bind fun r => (f r.1).run d m r.2 := by
    induction c with
    | done x => exact fun s => rfl
    | inb port k ih => exact fun s => ih _ _
    | inw port k ih => exact fun s => ih _ _
    | outb port v k ih => exact fun s => ih _
    | outw port v k ih => exact fun s => ih _
    | poll port stop k ih =>
        intro s
        rw [Code.bind, Code.run, Code.run]
        cases d.poll port stop m s with
        | none => rfl
        | some r => exact ih r.1 r.2
  exact h s

/-- A program goes on where the one before it ends. -/
theorem Completes.bind {c : Code α} {f : α → Code β} (h : Completes d c s x s')
    (h' : Completes d (f x) s' y s'') :
  Completes d (c >>= f) s y s''
  := by
  obtain ⟨n, hn⟩ := h
  obtain ⟨n', hn'⟩ := h'
  refine ⟨max n n', fun m hm => ?_⟩
  rw [run_bind, hn m (by omega)]
  exact hn' m (by omega)

/-- A loop that counts ends when each of its turns does.  `inv` is what holds before a turn. -/
theorem completes_loop {f : Nat → α → Code α} (inv : Nat → α → S → Prop) {n i : Nat}
    (hturn : ∀ j x s, i ≤ j → j < i + n → inv j x s →
      ∃ x' s', Completes d (f j x) s x' s' ∧ inv (j + 1) x' s')
    (h : inv i x s) :
  ∃ x' s', Completes d (loop f n i x) s x' s' ∧ inv (i + n) x' s'
  := by
  induction n generalizing i x s with
  | zero => exact ⟨x, s, completes_pure x s, h⟩
  | succ n ih =>
      obtain ⟨x₁, s₁, hc₁, h₁⟩ := hturn i x s (Nat.le_refl i) (by omega) h
      obtain ⟨x₂, s₂, hc₂, h₂⟩ := ih (fun j x s hi hj => hturn j x s (by omega) (by omega)) h₁
      refine ⟨x₂, s₂, hc₁.bind hc₂, ?_⟩
      rwa [Nat.add_right_comm] at h₂

end Rules

end Ports
