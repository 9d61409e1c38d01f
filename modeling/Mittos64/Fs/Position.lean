import Mittos64.Syscall

/-!
# File positions

`syscall_read` and `syscall_write` add what `fs_read` and `fs_write` return to the position of the
descriptor, the `-1` of a transfer that failed as well.  So the position is the sum of the bytes
transferred and of the seeks just when no transfer fails.
-/

namespace Syscall

open Vfs

/-- The calls on a descriptor that go to its position. -/
inductive Op where
  | read (buffer nbyte : BitVec 64)
  | write (buffer nbyte : BitVec 64)
  | seek (offset : BitVec 64) (whence : Int)

/-- A call with the heap that it finds and the drivers that answer it.  Other processes change the
heap between two calls, so every call has a heap of its own. -/
structure Request where
  op : Op
  heap : Heap
  io : Drivers

/-- The value that a call on the descriptor `fd` returns, and the process it leaves. -/
def Request.run (c : Request) (fd : Int) (p : Proc) : BitVec 64 × Proc :=
  match c.op with
  | .read buffer nbyte =>
      let r := syscallRead c.io c.heap p fd buffer nbyte
      (r.1, r.2.2)
  | .write buffer nbyte =>
      let r := syscallWrite c.io c.heap p fd buffer nbyte
      (r.1, r.2.2)
  | .seek offset whence =>
      let r := syscallSeek c.heap p fd offset whence
      (r.1, r.2.2)

/-- The process after a sequence of calls on the descriptor `fd`. -/
def runAll (fd : Int) (p : Proc) (cs : List Request) : Proc :=
  cs.foldl (fun p c => (c.run fd p).2) p

/-- The position of the descriptor `fd`. -/
def position (fd : Int) (p : Proc) : BitVec 64 :=
  (p.fp fd).pos

/-! ### What the position should be -/

/-- The position after a call that returned `ret`: a transfer moves it by the bytes it returned,
when it did not fail, and a seek on an open descriptor moves it as asked. -/
def Op.account (file : Ptr) (pos ret : BitVec 64) : Op → BitVec 64
  | .read _ _ => if ret = -1 then pos else pos + ret
  | .write _ _ => if ret = -1 then pos else pos + ret
  | .seek offset whence =>
      if file = .null then pos
      else if whence = 0 then offset
      else if whence = 1 then pos + offset
      else pos

/-- The position after a sequence of calls, by their account, from the position `pos` on. -/
def accountAll (fd : Int) : Proc → BitVec 64 → List Request → BitVec 64
  | _, pos, [] => pos
  | p, pos, c :: cs =>
      let r := c.run fd p
      accountAll fd r.2 (c.op.account (p.fp fd).file pos r.1) cs

/-- The call moves bytes. -/
def Op.IsTransfer : Op → Prop
  | .read _ _ => True
  | .write _ _ => True
  | .seek _ _ => False

/-- The position after the calls is the one by their account, and each transfer that returns `-1`
leaves it as it was. -/
def Accounted (fd : Int) (p : Proc) (cs : List Request) : Prop :=
  position fd (runAll fd p cs) = accountAll fd p (position fd p) cs
    ∧ ∀ cs₁ c cs₂, cs = cs₁ ++ c :: cs₂ → c.op.IsTransfer →
        let q := runAll fd p cs₁
        (c.run fd q).1 = -1 → position fd (c.run fd q).2 = position fd q

/-- The descriptor has a file with a driver for the call, and the driver does not answer with
`-1`. -/
def Request.Succeeds (c : Request) (fd : Int) (p : Proc) : Prop :=
  let file := (p.fp fd).file
  let driver := (c.heap.file file).driver
  match c.op with
  | .read buffer nbyte =>
      file ≠ .null ∧ (driver = some .pipeReader ∨ driver = some .ataFs)
        ∧ (c.io.read c.heap file buffer nbyte (p.fp fd).pos).1 ≠ -1
  | .write buffer nbyte =>
      file ≠ .null ∧ (driver = some .pipeWriter ∨ driver = some .debugFs ∨ driver = some .ataFs)
        ∧ (c.io.write c.heap file buffer nbyte (p.fp fd).pos).1 ≠ -1
  | .seek _ _ => True

/-! ### One call -/

section Call

variable {io : Drivers} {h : Heap} {p : Proc} {fd : Int} {c : Request}

theorem position_setPos (p : Proc) (fd : Int) (pos : BitVec 64) :
  position fd (setPos p fd pos) = pos
  := by
  rw [position, setPos]
  dsimp only
  rw [Function.update_self]

/-- `fs_read` fails without a file, without a `read` in the driver, and when the driver fails. -/
theorem fsRead_eq_neg_one {file : Ptr} {buffer nbyte offset : BitVec 64} :
  (fsRead io h file buffer nbyte offset).1 = -1 ↔ ¬ (file ≠ .null
    ∧ ((h.file file).driver = some .pipeReader ∨ (h.file file).driver = some .ataFs)
    ∧ (io.read h file buffer nbyte offset).1 ≠ -1)
  := by
  rw [fsRead]
  by_cases hnull : file = .null
  · simp [hnull]
  · rw [if_neg hnull]
    split <;> simp_all

/-- `fs_write` fails without a file, without a `write` in the driver, and when the driver fails. -/
theorem fsWrite_eq_neg_one {file : Ptr} {buffer nbyte offset : BitVec 64} :
  (fsWrite io h file buffer nbyte offset).1 = -1 ↔ ¬ (file ≠ .null
    ∧ ((h.file file).driver = some .pipeWriter ∨ (h.file file).driver = some .debugFs
      ∨ (h.file file).driver = some .ataFs)
    ∧ (io.write h file buffer nbyte offset).1 ≠ -1)
  := by
  rw [fsWrite]
  by_cases hnull : file = .null
  · simp [hnull]
  · rw [if_neg hnull]
    split <;> simp_all

/-- A transfer moves the position by what it returns, whatever that is. -/
theorem Request.run_transfer (hop : c.op.IsTransfer) :
  position fd (c.run fd p).2 = position fd p + (c.run fd p).1
    ∧ ((c.run fd p).1 = -1 ↔ ¬ c.Succeeds fd p)
  := by
  obtain ⟨op, heap, io⟩ := c
  cases op with
  | read buffer nbyte => exact ⟨position_setPos _ _ _, fsRead_eq_neg_one⟩
  | write buffer nbyte => exact ⟨position_setPos _ _ _, fsWrite_eq_neg_one⟩
  | seek offset whence => exact hop.elim

/-- A seek moves the position as asked. -/
theorem Request.run_seek {offset : BitVec 64} {whence : Int} (hop : c.op = .seek offset whence) :
  position fd (c.run fd p).2 = c.op.account (p.fp fd).file (position fd p) (c.run fd p).1
  := by
  rw [Request.run, hop]
  dsimp only
  rw [syscallSeek, Op.account]
  split
  · rfl
  · exact position_setPos _ _ _

/-- A call that succeeds moves the position by its account. -/
theorem Request.Succeeds.position (h : c.Succeeds fd p) :
  position fd (c.run fd p).2 = c.op.account (p.fp fd).file (position fd p) (c.run fd p).1
  := by
  have htransfer : c.op.IsTransfer → Syscall.position fd (c.run fd p).2
      = if (c.run fd p).1 = -1 then Syscall.position fd p
        else Syscall.position fd p + (c.run fd p).1 := by
    intro hop
    obtain ⟨hpos, hfail⟩ := @run_transfer p fd c hop
    rw [if_neg (fun heq => hfail.mp heq h), hpos]
  cases hop : c.op with
  | read buffer nbyte => exact htransfer (by rw [hop]; trivial)
  | write buffer nbyte => exact htransfer (by rw [hop]; trivial)
  | seek offset whence =>
      rw [← hop]
      exact run_seek hop

end Call

/-! ### Sequences of calls -/

section Calls

variable {p : Proc} {fd : Int} {cs : List Request}

/-- Calls that succeed leave the position by their account. -/
theorem position_runAll
    (h : ∀ cs₁ c cs₂, cs = cs₁ ++ c :: cs₂ → c.Succeeds fd (runAll fd p cs₁)) :
  position fd (runAll fd p cs) = accountAll fd p (position fd p) cs
  := by
  induction cs generalizing p with
  | nil => rfl
  | cons c cs ih =>
      have hfirst : c.Succeeds fd p := h [] c cs rfl
      rw [runAll, List.foldl_cons, ← runAll, accountAll, ← hfirst.position]
      apply ih
      intro cs₁ d cs₂ heq
      rw [heq] at h
      exact h (c :: cs₁) d cs₂ rfl

/-- The position of a descriptor is accounted for just when every transfer finds a driver that does
not fail. -/
theorem accounted_iff (fd : Int) (p : Proc) (cs : List Request) :
  Accounted fd p cs
    ↔ ∀ cs₁ c cs₂, cs = cs₁ ++ c :: cs₂ → c.Succeeds fd (runAll fd p cs₁)
  := by
  constructor
  · rintro ⟨-, hfailed⟩ cs₁ c cs₂ heq
    by_contra hnot
    have htransfer : c.op.IsTransfer := by
      cases hop : c.op with
      | read buffer nbyte => trivial
      | write buffer nbyte => trivial
      | seek offset whence =>
          rw [Request.Succeeds, hop] at hnot
          exact hnot trivial
    obtain ⟨hpos, hfail⟩ := @Request.run_transfer (runAll fd p cs₁) fd c htransfer
    have hret := hfail.mpr hnot
    have hsame := hfailed cs₁ c cs₂ heq htransfer hret
    -- `pos + -1` is never `pos`
    rw [hpos, hret] at hsame
    bv_omega
  · intro h
    refine ⟨position_runAll h, ?_⟩
    intro cs₁ c cs₂ heq htransfer
    dsimp only
    intro hret
    exact absurd (h cs₁ c cs₂ heq) ((Request.run_transfer htransfer).2.mp hret)

end Calls

/-- A `read` of ten bytes. -/
def readTen : Request where
  op := .read 0 10
  heap := twoUsers
  io := allBytes

/-- A process with the terminal, which has no `read`, as its descriptor 0. -/
def terminal : Proc where
  fp := fun i => if i = 0 then { file := .device 0, flags := 0, pos := 0 } else Slot.zero
  zombie := false
  touched := []

/-- A `read` from the terminal returns `-1` and moves the position to `-1`. -/
theorem read_fails_and_moves :
  (readTen.run 0 terminal).1 = -1 ∧ position 0 terminal = 0
    ∧ position 0 (readTen.run 0 terminal).2 = -1 ∧ ¬ Accounted 0 terminal [readTen]
  := by
  have hret : (readTen.run 0 terminal).1 = -1 := by decide
  have hpos : position 0 (readTen.run 0 terminal).2 = -1 := by decide
  refine ⟨hret, rfl, hpos, ?_⟩
  rintro ⟨-, hfailed⟩
  have hsame := hfailed [] readTen [] rfl trivial hret
  exact absurd (hpos.symm.trans hsame) (by decide)

end Syscall
