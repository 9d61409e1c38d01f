import Mittos64.Proc.Switch

/-!
# Entering and leaving the kernel

`syscall_entry` and `syscall_return` of `syscall_entry.S`, `isr_common` and `isr_return` of
`isr_common.S`, and `syscall_fork` of `sys_proc.c`.  The two entry sequences fill the
registers `th->r` of the current thread, each value in the field of its name, and
`isr_return` gives a program the values of the fields back, so that both sides of a `fork`
go on after the `syscall` instruction with the registers they had there.
-/

open Amd64

namespace Isr

/-- `registers_t` -/
structure Registers where
  rax : Word
  rbx : Word
  rcx : Word
  rdx : Word
  rsi : Word
  rdi : Word
  rbp : Word
  r8 : Word
  r9 : Word
  r10 : Word
  r11 : Word
  r12 : Word
  r13 : Word
  r14 : Word
  r15 : Word
  intNo : Word
  errCode : Word
  rip : Word
  cs : Word
  rflags : Word
  rsp : Word
  ss : Word

namespace Registers

/-- The general registers that `isr_common` pushes, in the order of their fields. -/
def general (r : Registers) : List Word :=
  [r.rax, r.rbx, r.rcx, r.rdx, r.rsi, r.rdi, r.rbp, r.r8, r.r9, r.r10, r.r11, r.r12, r.r13,
    r.r14, r.r15]

/-- The fields that `syscall_entry` pushes, in order. -/
def pushed (r : Registers) : List Word :=
  [r.intNo, r.errCode, r.rip, r.cs, r.rflags, r.rsp, r.ss]

/-- The words of a `registers_t` in memory, in the order of its fields. -/
def words (r : Registers) : List Word :=
  r.general ++ r.pushed

/-- The registers of a program to which `syscall_return` returns. -/
def toUser (r : Registers) : Reg → Word
  | .rax => r.rax
  | .rbx => r.rbx
  | .rcx => r.rip
  | .rdx => r.rdx
  | .rsi => r.rsi
  | .rdi => r.rdi
  | .rbp => r.rbp
  | .rsp => r.rsp
  | .r8 => r.r8
  | .r9 => r.r9
  | .r10 => r.r10
  | .r11 => r.rflags
  | .r12 => r.r12
  | .r13 => r.r13
  | .r14 => r.r14
  | .r15 => r.r15

/-- The fields for a program that executes `syscall` before the address `next`. -/
def ofSyscall (u : Cpu) (next : Word) : Registers where
  rax := u.reg .rax
  rbx := u.reg .rbx
  rcx := next
  rdx := u.reg .rdx
  rsi := u.reg .rsi
  rdi := u.reg .rdi
  rbp := u.reg .rbp
  r8 := u.reg .r8
  r9 := u.reg .r9
  r10 := u.reg .r10
  r11 := u.rflags
  r12 := u.reg .r12
  r13 := u.reg .r13
  r14 := u.reg .r14
  r15 := u.reg .r15
  intNo := 0x80
  errCode := 0
  rip := next
  cs := 0x20
  rflags := u.rflags
  rsp := u.reg .rsp
  ss := 0x18

end Registers

/-! ### The code -/

/-- `GS_OFFSET_STACK` and `GS_OFFSET_SCTEMP` -/
def gsOffsetStack : Word := 48
def gsOffsetSctemp : Word := 56

/-- `REG_OFFSET_RFLAGS`, `RFLAGS_IOPL` and `INT_SYSCALL` -/
def regOffsetRflags : Word := 152
def rflagsIopl : Word := 0x3000
def intSyscall : Word := 0x80

/-- The `swapgs` of `isr_common` and `isr_return`, which is skipped when the saved `rflags`
have no `IOPL` bits. -/
def swapgsIfUser (c : Cpu) : Cpu :=
  let c := execs c [.load .rax .rsp regOffsetRflags, .and .rax rflagsIopl]
  if c.zero then c else exec c .swapgs

/-- `isr_common`, up to `call int_handler`. -/
def isrCommon (c : Cpu) : Cpu :=
  let c := execs c
    [.push .r15, .push .r14, .push .r13, .push .r12, .push .r11, .push .r10, .push .r9,
      .push .r8, .push .rbp, .push .rdi, .push .rsi, .push .rdx, .push .rcx, .push .rbx,
      .push .rax, .pushImm 0, .popf]
  let c := swapgsIfUser c
  exec c (.mov .rdi .rsp)

/-- `syscall_entry`, up to `call int_handler`. -/
def syscallEntry (c : Cpu) : Cpu :=
  isrCommon (execs c
    [.swapgs, .storeGs gsOffsetSctemp .rsp, .loadGs .rsp gsOffsetStack, .pushImm 0x18,
      .pushGs gsOffsetSctemp, .push .r11, .pushImm 0x20, .push .rcx, .pushImm 0,
      .pushImm intSyscall, .swapgs])

/-- `syscall_return` -/
def syscallReturn (c : Cpu) : Cpu :=
  execs c
    [.pop .rax, .add .rsp 16, .pop .rcx, .add .rsp 8, .pop .r11, .pop .rsp, .sysret]

/-- `isr_return` -/
def isrReturn (c : Cpu) : Cpu :=
  let c := swapgsIfUser (exec c (.mov .rsp .rdi))
  let c := execs c
    [.pop .rax, .pop .rbx, .pop .rcx, .pop .rdx, .pop .rsi, .pop .rdi, .pop .rbp, .pop .r8,
      .pop .r9, .pop .r10, .pop .r11, .pop .r12, .pop .r13, .pop .r14, .pop .r15,
      .push .rax, .load .rax .rsp 8, .cmp .rax intSyscall]
  if c.zero then syscallReturn c
  else execs c [.pop .rax, .add .rsp 16, .iret]

/-! ### The test of the saved flags -/

/-- The state after the saved `rflags` have been tested. -/
def rflagsTested (c : Cpu) (w : Word) : Cpu :=
  (c.set .rax (w &&& rflagsIopl)).setZero (w &&& rflagsIopl == 0)

/-- The `IOPL` bits of a program's `rflags` make the kernel exchange the bases of `gs`. -/
theorem swapgsIfUser_eq {c : Cpu} {w : Word} (hw : c.word (c.reg .rsp + regOffsetRflags) = w)
    (huser : w &&& rflagsIopl ≠ 0) :
  swapgsIfUser c = exec (rflagsTested c w) .swapgs
  := by
  have htested : execs c [.load .rax .rsp regOffsetRflags, .and .rax rflagsIopl] =
      rflagsTested c w := by
    rw [execs_cons, execs_cons, exec, exec, hw, Cpu.set_reg_self, Cpu.set_set]
    rfl
  have hzero : (rflagsTested c w).zero = false := by
    rw [rflagsTested, Cpu.setZero_zero]
    exact beq_eq_false_iff_ne.mpr huser
  rw [swapgsIfUser, htested, if_neg (by rw [hzero]; exact Bool.false_ne_true)]

theorem rflagsTested_reg (c : Cpu) (w : Word) {r : Reg} (h : r ≠ .rax) :
  (exec (rflagsTested c w) .swapgs).reg r = c.reg r
  := Cpu.set_reg_of_ne c (w &&& rflagsIopl) h

/-! ### Leaving the kernel -/

/-- The registers after `syscall_return`. -/
def returnedRegs (c : Cpu) (r : Registers) : Reg → Word :=
  assign c.reg [(.rax, r.rax), (.rcx, r.rip), (.r11, r.rflags), (.rsp, r.rsp)]

/-- `syscall_return` leads to the program whose registers are on the stack. -/
theorem syscallReturn_eq {c : Cpu} {r : Registers} (h : c.Stack (r.rax :: r.pushed)) :
  (syscallReturn c).reg = returnedRegs c r ∧ (syscallReturn c).rip = r.rip ∧
    (syscallReturn c).user = true ∧ (syscallReturn c).gs = c.gs ∧
    (syscallReturn c).kernelGs = c.kernelGs ∧
    (syscallReturn c).rflags = (r.rflags &&& sysretMask) ||| 2
  := by
  have h₁ := h.pop (r := .rax) (by decide)
  have e₁ := exec_pop .rax h
  obtain ⟨c₁, hc₁⟩ : ∃ c₁, exec c (.pop .rax) = c₁ := ⟨_, rfl⟩
  rw [hc₁] at h₁ e₁
  have h₂ : (exec c₁ (.add .rsp 16)).Stack [r.rip, r.cs, r.rflags, r.rsp, r.ss] :=
    @Cpu.Stack.drop c₁ _ [r.intNo, r.errCode] _ h₁ rfl rfl
  obtain ⟨c₂, hc₂⟩ : ∃ c₂, exec c₁ (.add .rsp 16) = c₂ := ⟨_, rfl⟩
  rw [hc₂] at h₂
  have h₃ := h₂.pop (r := .rcx) (by decide)
  have e₃ := exec_pop .rcx h₂
  obtain ⟨c₃, hc₃⟩ : ∃ c₃, exec c₂ (.pop .rcx) = c₃ := ⟨_, rfl⟩
  rw [hc₃] at h₃ e₃
  have h₄ : (exec c₃ (.add .rsp 8)).Stack [r.rflags, r.rsp, r.ss] :=
    @Cpu.Stack.drop c₃ _ [r.cs] _ h₃ rfl rfl
  obtain ⟨c₄, hc₄⟩ : ∃ c₄, exec c₃ (.add .rsp 8) = c₄ := ⟨_, rfl⟩
  rw [hc₄] at h₄
  have h₅ := h₄.pop (r := .r11) (by decide)
  have e₅ := exec_pop .r11 h₄
  obtain ⟨c₅, hc₅⟩ : ∃ c₅, exec c₄ (.pop .r11) = c₅ := ⟨_, rfl⟩
  rw [hc₅] at h₅ e₅
  have e₆ := exec_pop .rsp h₅
  have hblock : syscallReturn c = exec (exec c₅ (.pop .rsp)) .sysret := by
    rw [← hc₅, ← hc₄, ← hc₃, ← hc₂, ← hc₁]
    rfl
  rw [hblock, e₆, e₅, ← hc₄, e₃, ← hc₂, e₁]
  refine ⟨?_, rfl, rfl, rfl, rfl, rfl⟩
  funext q
  cases q
  all_goals rfl

/-- The registers that `isr_return` pops. -/
def poppedRegs : List Reg :=
  [.rax, .rbx, .rcx, .rdx, .rsi, .rdi, .rbp, .r8, .r9, .r10, .r11, .r12, .r13, .r14, .r15]

/-- The state of `isr_return` after its pops. -/
def isrPopped (c : Cpu) (r : Registers) : Cpu :=
  c.withRegs (Function.update (assign c.reg (poppedRegs.zip r.general)) .rsp (c.reg .rsp + 120))

section Return

variable {c : Cpu} {r : Registers} (h : c.Stack r.words)
include h

theorem execs_pop_registers :
  execs c (poppedRegs.map .pop) = isrPopped c r
  := by
  have hbound := h.bound
  have hlen : 8 * r.words.length = 176 := rfl
  have hlen' : 8 * r.general.length = 120 := rfl
  have hw := h.words
  rw [Registers.words, Memory.words_append] at hw
  apply execs_pop (by decide) rfl hw.1
  omega

/-- The state of `isr_return` at its last jump. -/
def isrTested (c : Cpu) (r : Registers) : Cpu :=
  (((isrPopped c r).push r.rax).set .rax r.intNo).setZero (r.intNo == intSyscall)

theorem isrPopped_stack :
  (isrPopped c r).Stack r.pushed
  := by
  apply @Cpu.Stack.drop c _ r.general r.pushed h
  · rfl
  · rfl

theorem isrPopped_push_stack :
  ((isrPopped c r).push r.rax).Stack (r.rax :: r.pushed)
  := by
  have hbound := h.bound
  have hlen : 8 * r.words.length = 176 := rfl
  have hrsp : ((isrPopped c r).reg .rsp).toNat = (c.reg .rsp).toNat + 120 :=
    toNat_add_of_lt (n := 120) (by omega)
  apply (isrPopped_stack h).push
  omega

theorem execs_isrTested :
  execs c (poppedRegs.map .pop ++ [.push .rax, .load .rax .rsp 8, .cmp .rax intSyscall]) =
    isrTested c r
  := by
  have hstack := isrPopped_push_stack h
  have hint : ((isrPopped c r).push r.rax).word (((isrPopped c r).push r.rax).reg .rsp + 8) =
      r.intNo :=
    Cpu.word_of_words hstack.words hstack.bound (i := 1) (Nat.lt_of_sub_eq_succ rfl)
  have hrax : (isrPopped c r).reg .rax = r.rax := rfl
  rw [execs_append, execs_pop_registers h, execs_cons, execs_cons, execs_cons, exec, hrax, exec,
    hint, exec, Cpu.set_reg_self]
  rfl

end Return

/-- Whether the state is that of a program which goes on with the saved registers `r`. -/
structure Returns (r : Registers) (c : Cpu) : Prop where
  user : c.user = true
  rip : c.rip = r.rip
  reg : c.reg = r.toUser
  rflags : c.rflags = (r.rflags &&& sysretMask) ||| 2

/-- `isr_return` leads from the saved registers of a system call back to its program. -/
theorem isrReturn_returns {c : Cpu} {r : Registers}
    (hw : c.mem.Words (c.reg .rdi).toNat r.words) (hbound : (c.reg .rdi).toNat + 176 < 2 ^ 64)
    (hint : r.intNo = intSyscall) (huser : r.rflags &&& rflagsIopl ≠ 0) :
  Returns r (isrReturn c) ∧ (isrReturn c).gs = c.kernelGs ∧ (isrReturn c).kernelGs = c.gs
  := by
  have hlen : 8 * r.words.length = 176 := rfl
  have hmoved : (exec c (.mov .rsp .rdi)).reg .rsp = c.reg .rdi := Cpu.set_reg_self _ _ _
  have hrflags : (exec c (.mov .rsp .rdi)).word ((exec c (.mov .rsp .rdi)).reg .rsp +
      regOffsetRflags) = r.rflags := by
    rw [hmoved]
    exact Cpu.word_of_words (c := exec c (.mov .rsp .rdi)) hw (by omega) (i := 19)
      (Nat.lt_of_sub_eq_succ rfl)
  have hswapped := swapgsIfUser_eq hrflags huser
  obtain ⟨d, hd⟩ : ∃ d, exec (rflagsTested (exec c (.mov .rsp .rdi)) r.rflags) .swapgs = d :=
    ⟨_, rfl⟩
  have hrsp : d.reg .rsp = c.reg .rdi := by
    rw [← hd, rflagsTested_reg _ _ (by decide), hmoved]
  have hmem : d.mem = c.mem := by
    rw [← hd]
    rfl
  have hstack : d.Stack r.words := by
    constructor
    · rw [hmem, hrsp]
      exact hw
    · rw [hrsp, hlen]
      exact hbound
  have hblock : isrReturn c = if (isrTested d r).zero then syscallReturn (isrTested d r)
      else execs (isrTested d r) [.pop .rax, .add .rsp 16, .iret] := by
    rw [← execs_isrTested hstack, ← hd, ← hswapped]
    rfl
  have hzero : (isrTested d r).zero = true := by
    rw [isrTested, Cpu.setZero_zero, hint]
    rfl
  have htested : (isrTested d r).Stack (r.rax :: r.pushed) :=
    (isrPopped_push_stack hstack).congr rfl rfl
  obtain ⟨hreg, hrip, huser', hgs, hkernel, hflags⟩ := syscallReturn_eq htested
  rw [hblock, if_pos hzero]
  refine ⟨⟨huser', hrip, ?_, hflags⟩, ?_, ?_⟩
  · rw [hreg]
    funext q
    cases q
    all_goals rfl
  · rw [hgs, ← hd]
    rfl
  · rw [hkernel, ← hd]
    rfl

/-! ### Entering the kernel -/

/-- The registers that `isr_common` pushes, in order. -/
def pushedRegs : List Reg :=
  [.r15, .r14, .r13, .r12, .r11, .r10, .r9, .r8, .rbp, .rdi, .rsi, .rdx, .rcx, .rbx, .rax]

/-- `isr_common` before its test of the saved flags. -/
def isrPushed (c : Cpu) : Cpu :=
  exec (exec (c.pushes (pushedRegs.map c.reg)) (.pushImm 0)) .popf

theorem isrCommon_eq (c : Cpu) :
  isrCommon c = exec (swapgsIfUser (isrPushed c)) (.mov .rdi .rsp)
  := by
  rw [isrPushed, ← execs_push (by decide)]
  rfl

theorem isrPushed_gs (c : Cpu) :
  (isrPushed c).gs = c.gs
  := by
  rw [isrPushed, exec_push_popf_gs, Cpu.pushes_gs]

theorem isrPushed_kernelGs (c : Cpu) :
  (isrPushed c).kernelGs = c.kernelGs
  := by
  rw [isrPushed, exec_push_popf_kernelGs, Cpu.pushes_kernelGs]

section Common

variable {c : Cpu} {ws : List Word} (h : c.Stack ws) (hroom : 128 ≤ (c.reg .rsp).toNat)

theorem isrPushed_reg (c : Cpu) :
  (isrPushed c).reg = (c.pushes (pushedRegs.map c.reg)).reg
  := exec_push_popf_reg _ _

theorem isrPushed_mem_eq (c : Cpu) :
  (isrPushed c).mem = ((c.pushes (pushedRegs.map c.reg)).push 0).mem
  := exec_push_popf_mem _ _

include hroom

theorem isrPushed_rsp :
  ((isrPushed c).reg .rsp).toNat = (c.reg .rsp).toNat - 120
  := by
  have hlen : 8 * (pushedRegs.map c.reg).length = 120 := rfl
  rw [isrPushed_reg, Cpu.pushes_rsp_toNat (by omega), hlen]

/-- `isr_common` writes only below the stack pointer. -/
theorem isrPushed_mem {x : Nat} (hx : x < (c.reg .rsp).toNat - 128 ∨ (c.reg .rsp).toNat ≤ x) :
  (isrPushed c).mem x = c.mem x
  := by
  have hlen : 8 * (pushedRegs.map c.reg).length = 120 := rfl
  have hrsp : ((c.pushes (pushedRegs.map c.reg)).reg .rsp).toNat = (c.reg .rsp).toNat - 120 :=
    Cpu.pushes_rsp_toNat (by omega)
  rw [isrPushed_mem_eq, Cpu.push_mem_of_notMem (by omega) 0 (by omega)]
  exact Cpu.pushes_mem_of_notMem (by omega) (by omega)

include h in
/-- `isr_common` pushes the general registers onto the words that are there. -/
theorem isrPushed_stack :
  (isrPushed c).Stack ((pushedRegs.map c.reg).reverse ++ ws)
  := by
  have hlen : 8 * (pushedRegs.map c.reg).length = 120 := rfl
  have hrsp : ((c.pushes (pushedRegs.map c.reg)).reg .rsp).toNat = (c.reg .rsp).toNat - 120 :=
    Cpu.pushes_rsp_toNat (by omega)
  have hpushed : (c.pushes (pushedRegs.map c.reg)).Stack ((pushedRegs.map c.reg).reverse ++ ws) :=
    h.pushes (by omega)
  constructor
  · rw [isrPushed_reg]
    apply hpushed.words.congr
    intro x hx _
    rw [isrPushed_mem_eq]
    exact Cpu.push_mem_of_notMem (by omega) 0 (by omega)
  · rw [isrPushed_reg]
    exact hpushed.bound

end Common

/-- What the kernel keeps for a processor that runs a program in the thread `th`: the base
that `swapgs` brings in is that of its `cpu_t`, which points to itself, to the thread and to
the top of the thread's kernel stack, and is apart from the thread's registers. -/
structure Running (u : Cpu) (th : Word) : Prop where
  self : u.word u.kernelGs = u.kernelGs
  current : u.word (u.kernelGs + Thread.offCurrentThread) = th
  stack : u.word (u.kernelGs + gsOffsetStack) = th + BitVec.ofNat 64 Thread.offStackPointer
  inside : u.kernelGs.toNat + 72 ≤ 2 ^ 64
  room : 8 ≤ th.toNat
  bound : th.toNat + 184 ≤ 2 ^ 64
  apart : u.kernelGs.toNat + 72 ≤ th.toNat - 8 ∨ th.toNat + 184 ≤ u.kernelGs.toNat

section Entry

variable {u : Cpu} {th : Word} (hruns : Running u th) (entry mask next : Word)

/-- `syscall_entry` on the thread's stack, before its pushes. -/
def entryStack (u : Cpu) (th entry mask next : Word) : Cpu :=
  ((exec (syscall entry mask next u) .swapgs).setWord (u.kernelGs + gsOffsetSctemp)
    (u.reg .rsp)).set .rsp (th + BitVec.ofNat 64 Thread.offStackPointer)

include hruns

theorem entryStack_eq :
  execs (syscall entry mask next u)
    [.swapgs, .storeGs gsOffsetSctemp .rsp, .loadGs .rsp gsOffsetStack] =
    entryStack u th entry mask next
  := by
  have hinside := hruns.inside
  have htemp : (u.kernelGs + gsOffsetSctemp).toNat = u.kernelGs.toNat + 56 :=
    toNat_add_of_lt (n := 56) (by omega)
  have htop : (u.kernelGs + gsOffsetStack).toNat = u.kernelGs.toNat + 48 :=
    toNat_add_of_lt (n := 48) (by omega)
  have hload := Cpu.setWord_word (exec (syscall entry mask next u) .swapgs) (u.reg .rsp)
    (a := u.kernelGs + gsOffsetSctemp) (b := u.kernelGs + gsOffsetStack) (by omega)
  have hstack : ((exec (syscall entry mask next u) .swapgs).setWord (u.kernelGs + gsOffsetSctemp)
      (u.reg .rsp)).word (u.kernelGs + gsOffsetStack) =
      th + BitVec.ofNat 64 Thread.offStackPointer := hload.trans hruns.stack
  rw [entryStack, ← hstack]
  rfl

/-- The words that `syscall_entry` pushes, in order. -/
def entryPushed (u : Cpu) (next : Word) : List Word :=
  [0x18, u.reg .rsp, u.rflags, 0x20, next, 0, intSyscall]

theorem entryStack_rsp :
  ((entryStack u th entry mask next).reg .rsp).toNat = th.toNat + 176
  := by
  have hbound := hruns.bound
  rw [entryStack, Cpu.set_reg_self]
  exact toNat_add_of_lt (by rw [Thread.offStackPointer]; omega)

/-- The instructions of `syscall_entry` up to its second `swapgs`. -/
def entryCode : List Instr :=
  [.swapgs, .storeGs gsOffsetSctemp .rsp, .loadGs .rsp gsOffsetStack] ++
  [.pushImm 0x18, .pushGs gsOffsetSctemp, .push .r11, .pushImm 0x20, .push .rcx, .pushImm 0,
    .pushImm intSyscall]

theorem execs_entryCode :
  execs (syscall entry mask next u) entryCode =
    (entryStack u th entry mask next).pushes (entryPushed u next)
  := by
  have hinside := hruns.inside
  have hapart := hruns.apart
  have hrsp := entryStack_rsp hruns entry mask next
  have htemp : (u.kernelGs + gsOffsetSctemp).toNat = u.kernelGs.toNat + 56 :=
    toNat_add_of_lt (n := 56) (by omega)
  have hpush : ((entryStack u th entry mask next).push 0x18).word (u.kernelGs + gsOffsetSctemp) =
      u.reg .rsp := by
    have hself : (entryStack u th entry mask next).word (u.kernelGs + gsOffsetSctemp) =
        u.reg .rsp := Cpu.setWord_word_self _ _ _
    rw [← hself]
    apply Memory.word_congr
    intro x hx hx'
    exact Cpu.push_mem_of_notMem (by omega) _ (by omega)
  have hgs : ((entryStack u th entry mask next).push 0x18).gs = u.kernelGs := rfl
  have hrest : ∀ c : Cpu, execs c [.push .r11, .pushImm 0x20, .push .rcx, .pushImm 0,
      .pushImm intSyscall] = c.pushes [c.reg .r11, 0x20, c.reg .rcx, 0, intSyscall] :=
    fun _ => rfl
  have hr11 : (((entryStack u th entry mask next).push 0x18).push (u.reg .rsp)).reg .r11 =
      u.rflags := rfl
  have hrcx : (((entryStack u th entry mask next).push 0x18).push (u.reg .rsp)).reg .rcx =
      next := rfl
  rw [entryCode, execs_append, entryStack_eq hruns, execs_cons, execs_cons, exec, exec, hgs, hpush,
    hrest, hr11, hrcx, entryPushed, Cpu.pushes_cons _ 0x18, Cpu.pushes_cons _ (u.reg .rsp)]

/-- The state of `syscall_entry` at its jump to `isr_common`. -/
def entered (u : Cpu) (th entry mask next : Word) : Cpu :=
  exec ((entryStack u th entry mask next).pushes (entryPushed u next)) .swapgs

theorem syscallEntry_eq :
  syscallEntry (syscall entry mask next u) = isrCommon (entered u th entry mask next)
  := by
  rw [entered, ← execs_entryCode hruns]
  rfl

theorem entered_stack :
  (entered u th entry mask next).Stack (entryPushed u next).reverse
  := by
  have hbound := hruns.bound
  have hrsp := entryStack_rsp hruns entry mask next
  have hempty : (entryStack u th entry mask next).Stack [] := ⟨trivial, by
    rw [hrsp, List.length_nil]
    omega⟩
  have hlen : 8 * (entryPushed u next).length = 56 := rfl
  have hstack : ((entryStack u th entry mask next).pushes (entryPushed u next)).Stack
      ((entryPushed u next).reverse ++ []) := hempty.pushes (by omega)
  rw [List.append_nil] at hstack
  rw [entered]
  apply hstack.congr
  · rw [exec_swapgs_mem]
  · rw [exec_swapgs_reg]

theorem entered_rsp :
  ((entered u th entry mask next).reg .rsp).toNat = th.toNat + 120
  := by
  have hrsp := entryStack_rsp hruns entry mask next
  have hlen : 8 * (entryPushed u next).length = 56 := rfl
  rw [entered, exec_swapgs_reg, Cpu.pushes_rsp_toNat (by omega)]
  omega

omit hruns in
theorem entered_gs :
  (entered u th entry mask next).gs = u.gs
  := by
  rw [entered, exec_swapgs_gs, Cpu.pushes_kernelGs]
  rfl

omit hruns in
theorem entered_kernelGs :
  (entered u th entry mask next).kernelGs = u.kernelGs
  := by
  rw [entered, exec_swapgs_kernelGs, Cpu.pushes_gs]
  rfl

omit hruns in
theorem entered_pushedRegs :
  pushedRegs.map (entered u th entry mask next).reg = pushedRegs.map (syscall entry mask next u).reg
  := by
  apply List.map_congr_left
  intro r hr
  have hne : r ≠ .rsp := by
    rintro rfl
    exact absurd hr (by decide)
  rw [entered, exec_swapgs_reg, Cpu.pushes_reg_of_ne hne, entryStack, Cpu.set_reg_of_ne _ _ hne]
  rfl

/-- `syscall_entry` writes only to the place for the program's stack pointer and to the
thread's registers. -/
theorem entered_mem {x : Nat} (hx : x < th.toNat ∨ th.toNat + 176 ≤ x)
    (hx' : x < u.kernelGs.toNat + 56 ∨ u.kernelGs.toNat + 64 ≤ x) :
  (entered u th entry mask next).mem x = u.mem x
  := by
  have hinside := hruns.inside
  have hrsp := entryStack_rsp hruns entry mask next
  have hlen : 8 * (entryPushed u next).length = 56 := rfl
  have htemp : (u.kernelGs + gsOffsetSctemp).toNat = u.kernelGs.toNat + 56 :=
    toNat_add_of_lt (n := 56) (by omega)
  have hstored : (entryStack u th entry mask next).mem =
      u.mem.store (u.kernelGs + gsOffsetSctemp).toNat 8 (u.reg .rsp).toNat := rfl
  rw [entered, exec_swapgs_mem, Cpu.pushes_mem_of_notMem (by omega) (by omega), hstored, htemp]
  exact Memory.store_of_notMem _ _ (by omega)

end Entry

/-- The state in which a system call enters `int_handler`: the frame fills `th->r`, each
value in the field of its name, and is what `rdi` points to. -/
structure Entered (u : Cpu) (th next : Word) (e : Cpu) : Prop where
  words : e.mem.Words th.toNat (Registers.ofSyscall u next).words
  rsp : e.reg .rsp = th
  rdi : e.reg .rdi = th
  gs : e.gs = u.kernelGs
  kernelGs : e.kernelGs = u.gs
  mem : ∀ x, x < th.toNat - 8 ∨ th.toNat + 176 ≤ x →
    x < u.kernelGs.toNat + 56 ∨ u.kernelGs.toNat + 64 ≤ x → e.mem x = u.mem x

/-- A system call fills the registers of its thread. -/
theorem syscallEntry_entered {u : Cpu} {th : Word} (hruns : Running u th) (entry mask next : Word)
    (huser : u.rflags &&& rflagsIopl ≠ 0) :
  Entered u th next (syscallEntry (syscall entry mask next u))
  := by
  have hroom := hruns.room
  have hrsp := entered_rsp hruns entry mask next
  have hpushed := isrPushed_stack (entered_stack hruns entry mask next) (by omega)
  rw [entered_pushedRegs] at hpushed
  have hfields : (pushedRegs.map (syscall entry mask next u).reg).reverse ++
      (entryPushed u next).reverse = (Registers.ofSyscall u next).words := rfl
  rw [hfields] at hpushed
  obtain ⟨p, hp⟩ : ∃ p, isrPushed (entered u th entry mask next) = p := ⟨_, rfl⟩
  have hth : p.reg .rsp = th := by
    apply BitVec.eq_of_toNat_eq
    rw [← hp, isrPushed_rsp (by omega), hrsp]
    omega
  rw [hp] at hpushed
  have hrflags : p.word (p.reg .rsp + regOffsetRflags) = u.rflags :=
    Cpu.word_of_words hpushed.words hpushed.bound (i := 19) (Nat.lt_of_sub_eq_succ rfl)
  rw [syscallEntry_eq hruns, isrCommon_eq, hp, swapgsIfUser_eq hrflags huser]
  constructor
  · rw [← hth]
    exact hpushed.words
  · rw [← hth]
    rfl
  · rw [← hth]
    rfl
  · have hgs : p.kernelGs = u.kernelGs := by
      rw [← hp, isrPushed_kernelGs, entered_kernelGs]
    exact hgs
  · have hgs : p.gs = u.gs := by
      rw [← hp, isrPushed_gs, entered_gs]
    exact hgs
  · intro x hx hx'
    have hkept : p.mem x = u.mem x := by
      rw [← hp, isrPushed_mem (by omega) (by omega)]
      exact entered_mem hruns entry mask next (by omega) hx'
    exact hkept

end Isr
