import Mittos64.Lib.Amd64
import Mittos64.Lib.Run

/-!
# Threads and the context switch

`new_thread` and `switch_thread` of `thread.c` and `swtch` of `swtch.S`.  A suspended
thread is one that has been made by `new_thread` and not been switched to, or that has
called `swtch` and not been switched to since.  Its `stack_pointer` points to nine words:
the frame that `swtch` pushes, or the one that `new_thread` builds.  As long as nobody
else writes to these words, the next switch to the thread returns from its call, or
enters its function.
-/

open Amd64

namespace Thread

/-! ### The layout of `thread_t`, `thread_stack_t` and `cpu_t` -/

/-- The offsets of the fields of `registers_t` that `new_thread` sets. -/
def offRip : Nat := 136
def offCs : Nat := 144
def offRflags : Nat := 152
def offRsp : Nat := 160
def offSs : Nat := 168

/-- The offsets of the fields of `thread_t`; the saved registers `r` are its first field. -/
def offStackPointer : Nat := 176
def offTid : Nat := 184
def offState : Nat := 192
def offProcessThreads : Nat := 720
def offReadyQueue : Nat := 736

/-- The offsets of the fields of `thread_stack_t`. -/
def offRBP : Nat := 3280
def offThread : Nat := 3328
def offZeroFrame : Nat := 3336
def offFunctionAddress : Nat := 3344
def offTcb : Nat := 3352

/-- `sizeof(thread_stack_t)` -/
def threadStackSize : Nat := 4104

/-- The offsets of the fields of `cpu_t`. -/
def offKernelStack : Word := 48
def offCurrentThread : Word := 64
def offTssRsp0 : Word := 172

/-! ### Making a thread -/

/-- The fields that `new_thread` writes in the zeroed block at `stack`, in its order. -/
def newThreadFields (isrReturn stack func : Word) (user : Bool) (tid : Word) :
    List (Nat × Word) :=
  let th := stack + BitVec.ofNat 64 offTcb
  [(offThread, th),
    (offRBP, stack + BitVec.ofNat 64 offZeroFrame),
    (offTcb + offRflags, 0x200)] ++
  (if user then
    [(offFunctionAddress, isrReturn),
      (offTcb + offRip, func),
      (offTcb + offCs, 0x20 ||| 3),
      (offTcb + offSs, 0x18 ||| 3),
      (offTcb + offRflags, 0x200 ||| 0x3000),
      (offTcb + offRsp, 0x800000000000)]
  else
    [(offFunctionAddress, func),
      (offTcb + offCs, 0x08),
      (offTcb + offSs, 0x10),
      (offTcb + offRsp, th + BitVec.ofNat 64 offStackPointer)]) ++
  [(offTcb + offTid, tid),
    (offTcb + offState, 2),
    (offTcb + offStackPointer, stack + BitVec.ofNat 64 offRBP),
    (offTcb + offReadyQueue, 0),
    (offTcb + offReadyQueue + 8, 0),
    (offTcb + offProcessThreads, 0),
    (offTcb + offProcessThreads + 8, 0)]

/-- `new_thread`, once `kcalloc` has returned the block at `stack`. -/
def newThread (isrReturn : Word) (m : Memory) (stack func : Word) (user : Bool) (tid : Word) :
    Memory :=
  m.setFields stack.toNat (newThreadFields isrReturn stack func user tid)

/-! ### Switching -/

/-- `swtch` -/
def swtch (c : Cpu) : Cpu :=
  let c := execs c
    [.push .rbp, .mov .rbp .rsp, .push .rdi, .push .r15, .push .r14, .push .r13, .push .r12,
      .push .rbx, .push .rbp, .cmp .rdi 0]
  -- `jz .switch_in`
  let c := if c.zero then c else exec c (.store .rdi 0 .rsp)
  execs c
    [.load .rsp .rsi 0, .pop .rbp, .pop .rbx, .pop .r12, .pop .r13, .pop .r14, .pop .r15,
      .pop .rdi, .leave, .ret]

/-- `get_cpu` -/
def getCpu (c : Cpu) : Word :=
  c.word c.gs

/-- The assignments of `switch_thread` to the fields of the processor's `cpu_t`. -/
def setCpu (new : Word) (c : Cpu) : Cpu :=
  let top := new + BitVec.ofNat 64 offStackPointer
  let c := c.setWord (getCpu c + offCurrentThread) new
  let c := c.setWord (getCpu c + offTssRsp0) top
  c.setWord (getCpu c + offKernelStack) top

/-- `switch_thread`, up to the return of its call of `swtch`.  The registers of `c` are
those of the call, and `ra` is the address after it. -/
def switchThread (old new ra : Word) (c : Cpu) : Cpu :=
  let c := setCpu new c
  let c := c.set .rdi (if old ≠ 0 then old + BitVec.ofNat 64 offStackPointer else 0)
  let c := c.set .rsi (new + BitVec.ofNat 64 offStackPointer)
  swtch (c.push ra)

/-! ### What `swtch` saves and loads -/

/-- The registers that `swtch` saves and the address it returns to. -/
structure Frame where
  rbx : Word
  r12 : Word
  r13 : Word
  r14 : Word
  r15 : Word
  rdi : Word
  rbp : Word
  ra : Word

/-- The words of a saved frame at the address `sp`: first comes the address of the saved
`rbp`, for `leave`. -/
def Frame.words (f : Frame) (sp : Word) : List Word :=
  [sp + 56, f.rbx, f.r12, f.r13, f.r14, f.r15, f.rdi, f.rbp, f.ra]

/-- The words of a saved frame that `swtch` pops. -/
def Frame.popped (f : Frame) (sp : Word) : List Word :=
  [sp + 56, f.rbx, f.r12, f.r13, f.r14, f.r15, f.rdi]

/-- The frame of a call of `swtch` that returns to `ra`. -/
def Frame.ofCall (reg : Reg → Word) (ra : Word) : Frame where
  rbx := reg .rbx
  r12 := reg .r12
  r13 := reg .r13
  r14 := reg .r14
  r15 := reg .r15
  rdi := reg .rdi
  rbp := reg .rbp
  ra := ra

/-- The first part of `swtch`, before the stack pointer is stored. -/
def swtchSave (c : Cpu) : Cpu :=
  execs c
    [.push .rbp, .mov .rbp .rsp, .push .rdi, .push .r15, .push .r14, .push .r13, .push .r12,
      .push .rbx, .push .rbp, .cmp .rdi 0]

/-- The last part of `swtch`, after the stack pointer is stored. -/
def swtchLoad (c : Cpu) : Cpu :=
  execs c
    [.load .rsp .rsi 0, .pop .rbp, .pop .rbx, .pop .r12, .pop .r13, .pop .r14, .pop .r15,
      .pop .rdi, .leave, .ret]

/-- The state of `swtch` after `mov rbp, rsp`. -/
def swtchEntered (c : Cpu) : Cpu :=
  (c.push (c.reg .rbp)).set .rbp (c.reg .rsp - 8)

/-- The words that `swtch` pushes after `mov rbp, rsp`, in order. -/
def swtchPushed (c : Cpu) : List Word :=
  [c.reg .rdi, c.reg .r15, c.reg .r14, c.reg .r13, c.reg .r12, c.reg .rbx, c.reg .rsp - 8]

theorem swtchSave_eq (c : Cpu) :
  swtchSave c = ((swtchEntered c).pushes (swtchPushed c)).setZero (c.reg .rdi == 0)
  := by
  have hblock : swtchSave c =
      exec (execs (swtchEntered c) ([.rdi, .r15, .r14, .r13, .r12, .rbx, .rbp].map .push))
        (.cmp .rdi 0) := rfl
  have hpushed : [.rdi, .r15, .r14, .r13, .r12, .rbx, .rbp].map (swtchEntered c).reg =
      swtchPushed c := rfl
  have hrdi : ((swtchEntered c).pushes (swtchPushed c)).reg .rdi = c.reg .rdi :=
    Cpu.pushes_reg_of_ne (by decide) _ _
  rw [hblock, execs_push (by decide), hpushed, exec, hrdi]

section Save

variable {c : Cpu} (hroom : 64 ≤ (c.reg .rsp).toNat)
include hroom

theorem swtchEntered_rsp :
  ((swtchEntered c).reg .rsp).toNat = (c.reg .rsp).toNat - 8
  := by
  have h8 : 8 ≤ (c.reg .rsp).toNat := by omega
  rw [swtchEntered, Cpu.set_reg_of_ne _ _ (by decide)]
  exact Cpu.push_rsp_toNat h8 (c.reg .rbp)

theorem swtchEntered_room :
  8 * (swtchPushed c).length ≤ ((swtchEntered c).reg .rsp).toNat
  := by
  have hlen : 8 * (swtchPushed c).length = 56 := rfl
  rw [hlen, swtchEntered_rsp hroom]
  omega

theorem swtchSave_rsp :
  (swtchSave c).reg .rsp = c.reg .rsp - 64
  := by
  have hlen : 8 * (swtchPushed c).length = 56 := rfl
  have hsub : (c.reg .rsp - 64).toNat = (c.reg .rsp).toNat - 64 := toNat_sub_of_le hroom
  apply BitVec.eq_of_toNat_eq
  rw [swtchSave_eq, Cpu.setZero_reg, Cpu.pushes_rsp_toNat (swtchEntered_room hroom),
    swtchEntered_rsp hroom, hlen, hsub]
  omega

/-- `swtch` saves the registers of its caller below its return address. -/
theorem swtchSave_words {ra : Word} (hra : c.mem.Words (c.reg .rsp).toNat [ra]) :
  (swtchSave c).mem.Words (c.reg .rsp - 64).toNat
    ((Frame.ofCall c.reg ra).words (c.reg .rsp - 64))
  := by
  have h8 : 8 ≤ (c.reg .rsp).toNat := by omega
  have hfirst : (swtchEntered c).mem.Words ((swtchEntered c).reg .rsp).toNat [c.reg .rbp, ra] :=
    Cpu.push_words h8 (c.reg .rbp) hra
  have hrest := Cpu.pushes_words (swtchEntered_room hroom) hfirst
  have hleave : c.reg .rsp - 64 + 56 = c.reg .rsp - 8 := by bv_omega
  have hframe : (Frame.ofCall c.reg ra).words (c.reg .rsp - 64) =
      (swtchPushed c).reverse ++ [c.reg .rbp, ra] := by
    rw [Frame.words, hleave]
    rfl
  rw [hframe, ← swtchSave_rsp hroom, swtchSave_eq, Cpu.setZero_reg, Cpu.setZero_mem]
  exact hrest

end Save

theorem swtchSave_reg (c : Cpu) {r : Reg} (h : r ≠ .rsp) (h' : r ≠ .rbp) :
  (swtchSave c).reg r = c.reg r
  := by
  rw [swtchSave_eq, Cpu.setZero_reg, Cpu.pushes_reg_of_ne h, swtchEntered,
    Cpu.set_reg_of_ne _ _ h', Cpu.push_reg_of_ne _ _ h]

theorem swtchSave_zero (c : Cpu) :
  (swtchSave c).zero = (c.reg .rdi == 0)
  := by
  rw [swtchSave_eq, Cpu.setZero_zero]

/-- The registers after the pops of `swtch`. -/
def poppedRegs (c : Cpu) (sp : Word) (f : Frame) : Reg → Word :=
  Function.update (assign c.reg [(.rbp, sp + 56), (.rbx, f.rbx), (.r12, f.r12), (.r13, f.r13),
    (.r14, f.r14), (.r15, f.r15), (.rdi, f.rdi)]) .rsp (sp + 56)

/-- The registers after `swtch` has loaded a frame. -/
def loadedRegs (c : Cpu) (sp : Word) (f : Frame) : Reg → Word :=
  Function.update (assign c.reg [(.rbx, f.rbx), (.r12, f.r12), (.r13, f.r13), (.r14, f.r14),
    (.r15, f.r15), (.rdi, f.rdi), (.rbp, f.rbp)]) .rsp (sp + 72)

section Load

variable {c : Cpu} {sp : Word} {f : Frame} (hbound : sp.toNat + 72 < 2 ^ 64)
  (hw : c.mem.Words sp.toNat (f.words sp))
include hbound hw

theorem execs_pop_frame :
  execs (c.set .rsp sp) ([.rbp, .rbx, .r12, .r13, .r14, .r15, .rdi].map .pop) =
    c.withRegs (poppedRegs c sp f)
  := by
  have hsplit : f.words sp = f.popped sp ++ [f.rbp, f.ra] := rfl
  have hlen : 8 * (f.popped sp).length = 56 := rfl
  have hrsp : (c.set .rsp sp).reg .rsp = sp := Cpu.set_reg_self c .rsp sp
  rw [hsplit, Memory.words_append] at hw
  rw [execs_pop (by decide) rfl (hrsp.symm ▸ hw.1) (by rw [hrsp, hlen]; omega), hrsp]
  have hregs : Function.update (assign (c.set .rsp sp).reg
      ([.rbp, .rbx, .r12, .r13, .r14, .r15, .rdi].zip (f.popped sp))) .rsp
      (sp + BitVec.ofNat 64 (8 * (f.popped sp).length)) = poppedRegs c sp f := by
    apply update_assign_congr
    intro r hr
    exact Cpu.set_reg_of_ne c sp hr
  rw [hregs]
  rfl

/-- The last part of `swtch` loads the frame that `[rsi]` points to, and returns. -/
theorem swtchLoad_eq (hsp : c.word (c.reg .rsi) = sp) :
  swtchLoad c = (c.withRegs (loadedRegs c sp f)).jump f.ra
  := by
  have hload : exec c (.load .rsp .rsi 0) = c.set .rsp sp := by
    have hzero : c.reg .rsi + 0 = c.reg .rsi := BitVec.add_zero (c.reg .rsi)
    rw [exec, hzero, hsp]
  have hblock : swtchLoad c = exec (exec (execs (c.set .rsp sp)
      ([.rbp, .rbx, .r12, .r13, .r14, .r15, .rdi].map .pop)) .leave) .ret := by
    rw [← hload]
    rfl
  have hleft : c.mem.Words (sp.toNat + 56) [f.rbp, f.ra] := by
    have hsplit : f.words sp = f.popped sp ++ [f.rbp, f.ra] := rfl
    rw [hsplit, Memory.words_append] at hw
    exact hw.2
  have h56 : (sp + 56).toNat = sp.toNat + 56 := toNat_add_of_lt (n := 56) (by omega)
  have h64 : (sp + 56 + 8).toNat = sp.toNat + 56 + 8 := by
    rw [← h56]
    exact toNat_add_of_lt (n := 8) (by omega)
  have h72 : sp + 56 + 8 + 8 = sp + 72 := by bv_omega
  have hrbp : poppedRegs c sp f .rbp = sp + 56 := rfl
  have hleave := @exec_leave (c.withRegs (poppedRegs c sp f)) f.rbp [f.ra]
    (by rw [Cpu.withRegs_reg, hrbp, h56]; exact hleft)
  rw [Cpu.withRegs_reg, hrbp, Cpu.withRegs_set, Cpu.withRegs_set] at hleave
  have hrsp : Function.update (Function.update (poppedRegs c sp f) .rsp (sp + 56 + 8)) .rbp f.rbp
      .rsp = sp + 56 + 8 := rfl
  have hregs : Function.update (Function.update (Function.update (poppedRegs c sp f) .rsp
      (sp + 56 + 8)) .rbp f.rbp) .rsp (sp + 72) = loadedRegs c sp f := by
    funext r
    cases r <;> rfl
  rw [hblock, execs_pop_frame hbound hw, hleave, @exec_ret _ f.ra []]
  · rw [Cpu.withRegs_reg, hrsp, h72, Cpu.withRegs_set, hregs]
  · rw [Cpu.withRegs_reg, hrsp, h64]
    exact hleft.2

end Load

/-- `swtch` up to `.switch_in`. -/
def swtchStored (c : Cpu) : Cpu :=
  if (swtchSave c).zero then swtchSave c else exec (swtchSave c) (.store .rdi 0 .rsp)

theorem swtchStored_reg (c : Cpu) {r : Reg} (h : r ≠ .rsp) (h' : r ≠ .rbp) :
  (swtchStored c).reg r = c.reg r
  := by
  rw [swtchStored]
  split_ifs
  · exact swtchSave_reg c h h'
  · exact swtchSave_reg c h h'

theorem swtchStored_mem_of_ne {c : Cpu} (hroom : 64 ≤ (c.reg .rsp).toNat) (h : c.reg .rdi ≠ 0) :
  (swtchStored c).mem =
    (swtchSave c).mem.store (c.reg .rdi).toNat 8 (c.reg .rsp - 64).toNat
  := by
  have hzero : (swtchSave c).reg .rdi + 0 = c.reg .rdi := by
    rw [swtchSave_reg c (by decide) (by decide)]
    exact BitVec.add_zero _
  have hne : ¬ (c.reg .rdi == 0) = true := by
    rw [beq_iff_eq]
    exact h
  rw [swtchStored, swtchSave_zero, if_neg hne, exec, hzero, swtchSave_rsp hroom, Cpu.setWord,
    Memory.setWord]

/-! ### Suspended threads -/

/-- How a suspended thread came to be suspended: by its call of `swtch`, with its registers
then and the address after the call, or by `new_thread`. -/
inductive Origin where
  | called (reg : Reg → Word) (ra : Word)
  | created (func : Word) (user : Bool)

/-- The value of `th->stack_pointer`. -/
def Origin.sp (th : Word) : Origin → Word
  | .called reg _ => reg .rsp - 72
  | .created _ _ => th - 72

/-- The frame that `th->stack_pointer` points to. -/
def Origin.frame (isrReturn th : Word) : Origin → Frame
  | .called reg ra => { Frame.ofCall reg ra with rdi := th + BitVec.ofNat 64 offStackPointer }
  | .created func user =>
      { rbx := 0, r12 := 0, r13 := 0, r14 := 0, r15 := 0, rdi := th, rbp := 0,
        ra := if user then isrReturn else func }

/-- The memory holds what the next switch to the thread `th` loads. -/
structure Saved (isrReturn : Word) (m : Memory) (th : Word) (o : Origin) : Prop where
  inside : th.toNat + 184 ≤ 2 ^ 64
  bound : (o.sp th).toNat + 72 < 2 ^ 64
  pointer : m.load (th.toNat + offStackPointer) 8 = (o.sp th).toNat
  words : m.Words (o.sp th).toNat ((o.frame isrReturn th).words (o.sp th))

/-- What a switch to the thread `th` leads to: the return of the thread's call, with the
registers that a function keeps as they were at the call, or the start of its function. -/
def Resumes (isrReturn th : Word) (c : Cpu) : Origin → Prop
  | .called reg ra =>
      c.rip = ra ∧ ∀ r ∈ [.rbx, .rbp, .r12, .r13, .r14, .r15, .rsp], c.reg r = reg r
  | .created func false => c.rip = func ∧ c.reg .rdi = th ∧ c.reg .rbp = 0
  -- the registers `th->r` are at offset 0
  | .created _ true => c.rip = isrReturn ∧ c.reg .rdi = th

/-- The addresses of a suspended thread that hold what the next switch to it loads. -/
def Origin.Guards (th : Word) (o : Origin) (x : Nat) : Prop :=
  (th.toNat + offStackPointer ≤ x ∧ x < th.toNat + offStackPointer + 8) ∨
    ((o.sp th).toNat ≤ x ∧ x < (o.sp th).toNat + 72)

theorem Frame.words_length (f : Frame) (sp : Word) :
  8 * (f.words sp).length = 72
  := rfl

/-- A suspended thread is kept by who does not write to what it has saved. -/
theorem Saved.congr {isrReturn th : Word} {m m' : Memory} {o : Origin}
    (h : Saved isrReturn m th o) (hsame : ∀ x, o.Guards th x → m' x = m x) :
  Saved isrReturn m' th o where
  inside := h.inside
  bound := h.bound
  pointer := by
    rw [← h.pointer]
    apply Memory.load_congr
    intro x hx hx'
    exact hsame x (.inl ⟨hx, hx'⟩)
  words := by
    apply h.words.congr
    intro x hx hx'
    exact hsame x (.inr ⟨hx, hx'⟩)

/-- Loading a saved frame resumes its thread. -/
theorem Saved.resumes {isrReturn th : Word} {c : Cpu} {o : Origin}
    (h : Saved isrReturn c.mem th o) (hrsi : c.reg .rsi = th + BitVec.ofNat 64 offStackPointer) :
  Resumes isrReturn th (swtchLoad c) o
  := by
  have hinside := h.inside
  have haddr : (c.reg .rsi).toNat = th.toNat + offStackPointer := by
    rw [hrsi]
    exact toNat_add_of_lt (by rw [offStackPointer]; omega)
  have hsp : c.word (c.reg .rsi) = o.sp th := by
    apply Memory.word_eq_of_load
    rw [haddr, h.pointer]
  have hload := swtchLoad_eq h.bound h.words hsp
  rw [hload]
  cases o with
  | called reg ra =>
      constructor
      · rfl
      · intro r hr
        simp only [List.mem_cons, List.not_mem_nil, or_false] at hr
        obtain rfl | rfl | rfl | rfl | rfl | rfl | rfl := hr
        · rfl
        · rfl
        · rfl
        · rfl
        · rfl
        · rfl
        · exact BitVec.sub_add_cancel (reg .rsp) 72
  | created func user =>
      cases user with
      | false => exact ⟨rfl, rfl, rfl⟩
      | true => exact ⟨rfl, rfl⟩

/-! ### A new thread -/

section NewThread

variable {isrReturn stack func tid : Word} {user : Bool} {m : Memory}
  (hbound : stack.toNat + threadStackSize ≤ 2 ^ 64)
  (hzero : ∀ i, i < threadStackSize → m (stack.toNat + i) = 0)

include hbound in
theorem tcb_toNat :
  (stack + BitVec.ofNat 64 offTcb).toNat = stack.toNat + offTcb
  := by
  apply toNat_add_of_lt
  rw [offTcb]
  rw [threadStackSize] at hbound
  omega

include hzero in
theorem load_zeroed {o : Nat} (ho : o + 8 ≤ threadStackSize) :
  m.load (stack.toNat + o) 8 = 0
  := by
  have hsame : m.load (stack.toNat + o) 8 = Memory.load (fun _ => 0) (stack.toNat + o) 8 := by
    apply Memory.load_shift
    intro i hi
    rw [Nat.add_assoc]
    exact hzero (o + i) (by omega)
  rw [hsame, Memory.load_zero]

theorem newThreadFields_aligned :
  ∀ p ∈ newThreadFields isrReturn stack func user tid, 8 ∣ p.1 ∧ p.1 + 8 ≤ threadStackSize
  := by
  cases user with
  | true => simp [newThreadFields, offThread, offRBP, offTcb, offRflags, offFunctionAddress, offRip,
      offCs, offSs, offRsp, offTid, offState, offStackPointer, offReadyQueue, offProcessThreads,
      threadStackSize]
  | false => simp [newThreadFields, offThread, offRBP, offTcb, offRflags, offFunctionAddress,
      offCs, offSs, offRsp, offTid, offState, offStackPointer, offReadyQueue, offProcessThreads,
      threadStackSize]

include hzero in
/-- The words of a new thread. -/
theorem newThread_load (i : Nat) (hi : 8 * i + 8 ≤ threadStackSize) :
  (newThread isrReturn m stack func user tid).load (stack.toNat + 8 * i) 8 =
    Memory.field (8 * i) 0 (newThreadFields isrReturn stack func user tid)
  := by
  rw [newThread, Memory.load_setFields, load_zeroed hzero hi]
  intro p hp
  obtain ⟨haligned, -⟩ := newThreadFields_aligned p hp
  omega

/-- `new_thread` writes only to its block. -/
theorem newThread_of_notMem {x : Nat}
    (hx : x < stack.toNat ∨ stack.toNat + threadStackSize ≤ x) :
  newThread isrReturn m stack func user tid x = m x
  := by
  apply Memory.setFields_of_notMem
  intro p hp
  obtain ⟨-, hinside⟩ := newThreadFields_aligned p hp
  omega

include hbound hzero in
/-- A new thread is suspended before the start of its function. -/
theorem newThread_saved :
  Saved isrReturn (newThread isrReturn m stack func user tid) (stack + BitVec.ofNat 64 offTcb)
    (.created func user)
  := by
  have hth := @tcb_toNat stack hbound
  have hsp : (stack + BitVec.ofNat 64 offTcb - 72).toNat = stack.toNat + offRBP := by
    have hsub : (stack + BitVec.ofNat 64 offTcb - 72).toNat =
        (stack + BitVec.ofNat 64 offTcb).toNat - 72 :=
      toNat_sub_of_le (n := 72) (by rw [hth, offTcb]; omega)
    rw [hsub, hth]
    rfl
  have hsp' : stack + BitVec.ofNat 64 offTcb - 72 = stack + BitVec.ofNat 64 offRBP := by
    rw [offTcb, offRBP]
    bv_omega
  have hleave : stack + BitVec.ofNat 64 offTcb - 72 + 56 = stack + BitVec.ofNat 64 offZeroFrame := by
    rw [offTcb, offZeroFrame]
    bv_omega
  rw [threadStackSize] at hbound
  constructor
  · rw [hth, offTcb]
    omega
  · rw [Origin.sp, hsp, offRBP]
    omega
  · rw [hth, Nat.add_assoc, Origin.sp, hsp']
    apply (newThread_load hzero 441 (by decide)).trans
    cases user with
    | true => rfl
    | false => rfl
  · have hwords : ((Origin.created func user).frame isrReturn (stack + BitVec.ofNat 64 offTcb)).words
        (stack + BitVec.ofNat 64 offTcb - 72) =
        [stack + BitVec.ofNat 64 offZeroFrame, 0, 0, 0, 0, 0, stack + BitVec.ofNat 64 offTcb, 0,
          if user then isrReturn else func] := by
      rw [Frame.words, hleave]
      rfl
    rw [Origin.sp, hwords, hsp]
    apply Memory.words_of_load
    intro i hi
    have hi' : i < 9 := hi
    have haddr : stack.toNat + offRBP + 8 * i = stack.toNat + 8 * (410 + i) := by
      rw [offRBP]
      omega
    rw [haddr, newThread_load hzero (410 + i) (by rw [threadStackSize]; omega)]
    cases user with
    | true =>
        match i, hi' with
        | 0, _ | 1, _ | 2, _ | 3, _ | 4, _ | 5, _ | 6, _ | 7, _ | 8, _ => rfl
    | false =>
        match i, hi' with
        | 0, _ | 1, _ | 2, _ | 3, _ | 4, _ | 5, _ | 6, _ | 7, _ | 8, _ => rfl

end NewThread

/-! ### A switch -/

/-- The state in which `switch_thread` enters `swtch`. -/
def enterSwtch (old new ra : Word) (c : Cpu) : Cpu :=
  (((setCpu new c).set .rdi (if old ≠ 0 then old + BitVec.ofNat 64 offStackPointer else 0)).set .rsi
    (new + BitVec.ofNat 64 offStackPointer)).push ra

theorem switchThread_eq (old new ra : Word) (c : Cpu) :
  switchThread old new ra c = swtchLoad (swtchStored (enterSwtch old new ra c))
  := rfl

theorem switchThread_mem (old new ra : Word) (c : Cpu) :
  (switchThread old new ra c).mem = (swtchStored (enterSwtch old new ra c)).mem
  := rfl

/-- A switch resumes the thread whose frame is there when it is loaded. -/
theorem switchThread_resumes_of_saved {isrReturn old new ra : Word} {c : Cpu} {o : Origin}
    (h : Saved isrReturn (switchThread old new ra c).mem new o) :
  Resumes isrReturn new (switchThread old new ra c) o
  := by
  rw [switchThread_eq]
  apply Saved.resumes
  · exact h
  · rw [swtchStored_reg _ (by decide) (by decide)]
    rfl

section Save

variable {isrReturn old new ra : Word} {c : Cpu} (hroom : 72 ≤ (c.reg .rsp).toNat)

theorem enterSwtch_rsp :
  (enterSwtch old new ra c).reg .rsp = c.reg .rsp - 8
  := rfl

include hroom in
theorem enterSwtch_rsp_toNat :
  ((enterSwtch old new ra c).reg .rsp).toNat = (c.reg .rsp).toNat - 8
  := by
  rw [enterSwtch_rsp]
  exact toNat_sub_of_le (n := 8) (by omega)

include hroom in
theorem enterSwtch_words :
  (enterSwtch old new ra c).mem.Words ((enterSwtch old new ra c).reg .rsp).toNat [ra]
  := Cpu.push_words (by exact Nat.le_trans (by decide) hroom) ra trivial

include hroom in
/-- A switch saves the frame of its caller. -/
theorem switchThread_saved (hold : old ≠ 0) (hinside : old.toNat + 184 ≤ 2 ^ 64)
    (hapart : (c.reg .rsp).toNat ≤ old.toNat + 176 ∨ old.toNat + 184 + 72 ≤ (c.reg .rsp).toNat) :
  Saved isrReturn (switchThread old new ra c).mem old (.called c.reg ra)
  := by
  have hrsp := @enterSwtch_rsp_toNat old new ra c hroom
  have hroom' : 64 ≤ ((enterSwtch old new ra c).reg .rsp).toNat := by omega
  have hrdi : (enterSwtch old new ra c).reg .rdi = old + BitVec.ofNat 64 offStackPointer := by
    have : (enterSwtch old new ra c).reg .rdi =
      if old ≠ 0 then old + BitVec.ofNat 64 offStackPointer else 0 := rfl
    rw [this, if_pos hold]
  have haddr : (old + BitVec.ofNat 64 offStackPointer).toNat = old.toNat + offStackPointer :=
    toNat_add_of_lt (by rw [offStackPointer]; omega)
  have hne : (enterSwtch old new ra c).reg .rdi ≠ 0 := by
    rw [hrdi]
    intro hzero
    rw [hzero, offStackPointer] at haddr
    exact absurd haddr (by simp)
  have hsp : (enterSwtch old new ra c).reg .rsp - 64 = c.reg .rsp - 72 := by
    rw [enterSwtch_rsp]
    bv_omega
  have hmem := swtchStored_mem_of_ne hroom' hne
  rw [hrdi, haddr, hsp] at hmem
  have hspNat : (c.reg .rsp - 72).toNat = (c.reg .rsp).toNat - 72 := toNat_sub_of_le (n := 72) hroom
  constructor
  · exact hinside
  · rw [Origin.sp, hspNat]
    have := (c.reg .rsp).isLt
    omega
  · rw [switchThread_mem, hmem, Memory.load_store_word, Origin.sp]
  · have hsaved := swtchSave_words hroom' (@enterSwtch_words old new ra c hroom)
    have hframe : Frame.ofCall (enterSwtch old new ra c).reg ra =
        (Origin.called c.reg ra).frame isrReturn old := by
      rw [Origin.frame, Frame.ofCall, Frame.ofCall, hrdi]
      rfl
    rw [hsp, hframe] at hsaved
    rw [switchThread_mem, hmem, Origin.sp]
    apply hsaved.congr
    intro x hx hx'
    rw [hspNat, Frame.words_length] at hx'
    rw [hspNat] at hx
    exact Memory.store_of_notMem _ _ (by rw [offStackPointer]; omega)

end Save

/-! ### Runs -/

/-- The memory, and for every suspended thread how it came to be suspended. -/
structure System where
  mem : Memory
  saved : Word → Option Origin

/-- No byte of a suspended thread that the next switch to it loads is different. -/
def System.Keeps (s : System) (m : Memory) : Prop :=
  ∀ th o, s.saved th = some o → ∀ x, o.Guards th x → m x = s.mem x

/-- A call of `switch_thread`: the caller `old`, if any, is not suspended and runs on a
stack apart from its own `stack_pointer`; `new` is suspended or the caller itself; and what
suspended threads have saved is not written to. -/
structure Call (s : System) (old new ra : Word) (c : Cpu) : Prop where
  mem : c.mem = s.mem
  room : 72 ≤ (c.reg .rsp).toNat
  running : old ≠ 0 → s.saved old = none
  inside : old ≠ 0 → old.toNat + 184 ≤ 2 ^ 64
  apart : old ≠ 0 → (c.reg .rsp).toNat ≤ old.toNat + 176 ∨ old.toNat + 184 + 72 ≤ (c.reg .rsp).toNat
  target : (old ≠ 0 ∧ new = old) ∨ (s.saved new).isSome
  keeps : s.Keeps (switchThread old new ra c).mem

/-- How the thread `new` came to be suspended when `switch_thread` loads its frame: as it
was before, or by this call, which `new` makes itself. -/
def System.origin (s : System) (new ra : Word) (c : Cpu) : Origin :=
  (s.saved new).getD (.called c.reg ra)

/-- The threads that are suspended after a call of `switch_thread`. -/
def System.switched (s : System) (old new ra : Word) (c : Cpu) : System where
  mem := (switchThread old new ra c).mem
  saved :=
    if old = 0 ∨ new = old then Function.update s.saved new none
    else Function.update (Function.update s.saved new none) old (some (.called c.reg ra))

/-- What can happen to the threads: anything is written but what suspended threads have
saved, a thread is made in a zeroed block, a thread is freed, or there is a switch. -/
inductive Step (isrReturn : Word) (s : System) : System → Prop where
  | write {m : Memory} : s.Keeps m → Step isrReturn s { s with mem := m }
  | newThread {m : Memory} {stack func : Word} {user : Bool} {tid : Word} :
      stack.toNat + threadStackSize ≤ 2 ^ 64 →
      (∀ i, i < threadStackSize → m (stack.toNat + i) = 0) →
      s.saved (stack + BitVec.ofNat 64 offTcb) = none →
      s.Keeps (newThread isrReturn m stack func user tid) →
      Step isrReturn s
        { mem := newThread isrReturn m stack func user tid
          saved := Function.update s.saved (stack + BitVec.ofNat 64 offTcb)
            (some (.created func user)) }
  | freeThread (th : Word) :
      Step isrReturn s { s with saved := Function.update s.saved th none }
  | switchThread {old new ra : Word} {c : Cpu} :
      Call s old new ra c → Step isrReturn s (s.switched old new ra c)

/-- No thread is suspended at the start. -/
def Init (s : System) : Prop :=
  ∀ th, s.saved th = none

/-- What suspended threads have saved is in memory. -/
def Ready (isrReturn : Word) (s : System) : Prop :=
  ∀ th o, s.saved th = some o → Saved isrReturn s.mem th o

section Step

variable {isrReturn : Word} {s s' : System}

theorem Ready.keeps (h : Ready isrReturn s) {m : Memory} (hkeeps : s.Keeps m) {th : Word}
    {o : Origin} (ho : s.saved th = some o) :
  Saved isrReturn m th o
  := (h th o ho).congr (hkeeps th o ho)

/-- What a call of `switch_thread` loads is what its target has saved. -/
theorem Ready.call (h : Ready isrReturn s) {old new ra : Word} {c : Cpu}
    (hcall : Call s old new ra c) :
  Saved isrReturn (switchThread old new ra c).mem new (s.origin new ra c)
  := by
  rw [System.origin]
  cases hnew : s.saved new with
  | some o => exact h.keeps hcall.keeps hnew
  | none =>
      have hself : old ≠ 0 ∧ new = old := by
        apply hcall.target.resolve_right
        rw [hnew]
        exact Bool.false_ne_true
      rw [hself.2]
      exact switchThread_saved hcall.room hself.1 (hcall.inside hself.1) (hcall.apart hself.1)

theorem Ready.step (h : Ready isrReturn s) (hstep : Step isrReturn s s') :
  Ready isrReturn s'
  := by
  intro th o ho
  cases hstep with
  | write hkeeps => exact h.keeps hkeeps ho
  | newThread hbound hzero hnone hkeeps =>
      simp only [Function.update_apply] at ho
      split_ifs at ho with hth
      · obtain rfl := Option.some.inj ho
        rw [hth]
        exact newThread_saved hbound hzero
      · exact h.keeps hkeeps ho
  | freeThread th' =>
      simp only [Function.update_apply] at ho
      split_ifs at ho with hth
      exact h th o ho
  | switchThread hcall =>
      simp only [System.switched] at ho ⊢
      split_ifs at ho with hnone
      · rw [Function.update_apply] at ho
        split_ifs at ho
        exact h.keeps hcall.keeps ho
      · obtain ⟨hold, -⟩ := not_or.mp hnone
        rw [Function.update_apply] at ho
        split_ifs at ho with hth
        · obtain rfl := Option.some.inj ho
          rw [hth]
          exact switchThread_saved hcall.room hold (hcall.inside hold) (hcall.apart hold)
        · rw [Function.update_apply] at ho
          split_ifs at ho
          exact h.keeps hcall.keeps ho

/-- In every run, what suspended threads have saved is in memory. -/
theorem ready_of_reachable (h : Reachable Init (Step isrReturn) s) :
  Ready isrReturn s
  := by
  apply h.invariant
  · intro s hinit th o ho
    rw [hinit th] at ho
    cases ho
  · intro s s' hready hstep
    exact hready.step hstep

/-- In every run of writes, new threads and switches in which what suspended threads have
saved is not written to, a call of `switch_thread` returns from the last call that its target
has made, to the address after it and with `rbx`, `rbp`, `r12` to `r15` and `rsp` as they were
at that call; or else it enters the function of a new kernel thread with `rdi` the thread and
`rbp` zero, or `isr_return` with `rdi` the saved registers of a new user thread. -/
theorem switchThread_resumes (h : Reachable Init (Step isrReturn) s) {old new ra : Word} {c : Cpu}
    (hcall : Call s old new ra c) :
  Resumes isrReturn new (switchThread old new ra c) (s.origin new ra c)
  := switchThread_resumes_of_saved ((ready_of_reachable h).call hcall)

end Step

/-- A system with one new kernel thread, whose function is at `0x5000`. -/
def oneThread : System where
  mem := newThread 0x7000 (fun _ => 0) 0x10000 0x5000 false 1
  saved := Function.update (fun _ => none) 0x10D18 (some (.created 0x5000 false))

/-- A processor that runs on a stack below `0x9000`. -/
def bootCpu : Cpu where
  reg r := if r = .rsp then 0x9000 else 0
  rip := 0
  rflags := 2
  gs := 0
  kernelGs := 0
  user := false
  mem := oneThread.mem

theorem oneThread_reachable :
  Reachable Init (Step 0x7000) oneThread
  := by
  apply @Reachable.next _ _ _ { mem := fun _ => 0, saved := fun _ => none }
  · exact .start fun _ => rfl
  · apply @Step.newThread 0x7000 _ (fun _ => 0) 0x10000
    · decide
    · intro i _
      rfl
    · rfl
    · intro th o ho
      cases ho

theorem bootCpu_call :
  Call oneThread 0 0x10D18 0x4000 bootCpu
  := by
  constructor
  · rw [bootCpu]
  · decide
  · exact fun h => absurd rfl h
  · exact fun h => absurd rfl h
  · exact fun h => absurd rfl h
  · exact .inr rfl
  · have hpointer : ∀ i, i < 8 → (switchThread 0 0x10D18 0x4000 bootCpu).mem (0x10DC8 + i) =
        oneThread.mem (0x10DC8 + i) := by
      decide +kernel
    have hframe : ∀ i, i < 72 → (switchThread 0 0x10D18 0x4000 bootCpu).mem (0x10CD0 + i) =
        oneThread.mem (0x10CD0 + i) := by
      decide +kernel
    intro th o ho x hx
    simp only [oneThread, Function.update_apply] at ho
    split_ifs at ho with hth
    obtain rfl := Option.some.inj ho
    rw [hth] at hx
    obtain hx | hx := hx
    · obtain ⟨i, rfl⟩ := Nat.exists_eq_add_of_le hx.1
      exact hpointer i (Nat.lt_of_add_lt_add_left hx.2)
    · obtain ⟨i, rfl⟩ := Nat.exists_eq_add_of_le hx.1
      exact hframe i (Nat.lt_of_add_lt_add_left hx.2)

/-- The first switch to a new kernel thread enters its function. -/
theorem switchThread_resumes_oneThread :
  (switchThread 0 0x10D18 0x4000 bootCpu).rip = 0x5000 ∧
    (switchThread 0 0x10D18 0x4000 bootCpu).reg .rdi = 0x10D18 ∧
    (switchThread 0 0x10D18 0x4000 bootCpu).reg .rbp = 0
  := switchThread_resumes oneThread_reachable bootCpu_call

end Thread
