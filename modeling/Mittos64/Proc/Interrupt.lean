import Mittos64.Lib.Trace
import Mittos64.Proc.Entry

/-!
# Interrupts

The stubs that `isr.S.py` prints, `isr_common` and `isr_return`, for an interrupt or exception at
any place in a program or in the kernel.  The frame has the number of the interrupt, the error code
and the registers as they were, and a handler that returns with the frame it was given brings the
interrupted code back where it was.  So a program does not see its interrupts.
-/

open Amd64

namespace Isr

/-! ### The code -/

/-- The vectors whose stub leaves it to the processor to push an error code. -/
def errorCodes : List Nat := [8, 10, 11, 12, 13, 14, 17]

/-- The words that the stub of a vector pushes. -/
def stubWords (n : Nat) : List Word :=
  (if n ∈ errorCodes then [] else [0]) ++ [BitVec.ofNat 64 n]

/-- `cli` -/
def cli (c : Cpu) : Cpu :=
  { c with rflags := c.rflags &&& ~~~0x200 }

/-- The stub of a vector with `isr_common`, up to `call int_handler`. -/
def isr (n : Nat) (c : Cpu) : Cpu :=
  isrCommon (execs (cli c) ((stubWords n).map .pushImm))

/-- The flags that an interrupt gate clears: `TF`, `IF`, `NT`, `RF` and `VM`. -/
def gateMask : Word := 0x34300

/-- What the processor is given for an interrupt: the stack pointer of its task state segment, the
segments of the interrupted code, the error code, if there is one, and the address in the gate. -/
structure Delivery where
  rsp0 : Word
  ss : Word
  cs : Word
  err : Option Word
  entry : Word

namespace Delivery

variable (v : Delivery) (c : Cpu)

/-- The words that the processor pushes. -/
def words : List Word :=
  [v.ss, c.reg .rsp, c.rflags, v.cs, c.rip] ++ v.err.toList

/-- The top of the stack that is used: a multiple of 16. -/
def top : Word :=
  (if c.user then v.rsp0 else c.reg .rsp) &&& ~~~0xF

/-- The processor starts to handle an interrupt. -/
def run : Cpu :=
  { (c.set .rsp (v.top c)).pushes (v.words c) with
    rip := v.entry
    rflags := c.rflags &&& ~~~gateMask
    user := false }

/-- The fields of the frame that `int_handler` is given. -/
def registers (n : Nat) : Registers where
  rax := c.reg .rax
  rbx := c.reg .rbx
  rcx := c.reg .rcx
  rdx := c.reg .rdx
  rsi := c.reg .rsi
  rdi := c.reg .rdi
  rbp := c.reg .rbp
  r8 := c.reg .r8
  r9 := c.reg .r9
  r10 := c.reg .r10
  r11 := c.reg .r11
  r12 := c.reg .r12
  r13 := c.reg .r13
  r14 := c.reg .r14
  r15 := c.reg .r15
  intNo := BitVec.ofNat 64 n
  errCode := v.err.getD 0
  rip := c.rip
  cs := v.cs
  rflags := c.rflags
  rsp := c.reg .rsp
  ss := v.ss

end Delivery

/-! ### The test of the saved flags -/

/-- The saved flags have no `IOPL` bits: `gs` is left as it is. -/
theorem swapgsIfUser_kernel {c : Cpu} {w : Word} (hw : c.word (c.reg .rsp + regOffsetRflags) = w)
    (hkernel : w &&& rflagsIopl = 0) :
  swapgsIfUser c = rflagsTested c w
  := by
  have htested : execs c [.load .rax .rsp regOffsetRflags, .and .rax rflagsIopl] =
      rflagsTested c w := by
    rw [execs_cons, execs_cons, exec, exec, hw, Cpu.set_reg_self, Cpu.set_set]
    rfl
  have hzero : (rflagsTested c w).zero = true := by
    rw [rflagsTested, Cpu.setZero_zero, hkernel]
    rfl
  rw [swapgsIfUser, htested, if_pos hzero]

/-- What the test of the saved flags changes: `rax` and the flags, and the two bases of `gs` when
the `IOPL` bits are set. -/
structure Tested (c : Cpu) (w : Word) (d : Cpu) : Prop where
  reg : ∀ r, r ≠ .rax → d.reg r = c.reg r
  mem : d.mem = c.mem
  user : d.user = c.user
  gs : d.gs = if w &&& rflagsIopl = 0 then c.gs else c.kernelGs
  kernelGs : d.kernelGs = if w &&& rflagsIopl = 0 then c.kernelGs else c.gs

theorem swapgsIfUser_tested {c : Cpu} {w : Word}
    (hw : c.word (c.reg .rsp + regOffsetRflags) = w) :
  Tested c w (swapgsIfUser c)
  := by
  by_cases hkernel : w &&& rflagsIopl = 0
  · rw [swapgsIfUser_kernel hw hkernel]
    refine ⟨fun r hr => Cpu.set_reg_of_ne c _ hr, rfl, rfl, ?_, ?_⟩
    · rw [if_pos hkernel]
      rfl
    · rw [if_pos hkernel]
      rfl
  · rw [swapgsIfUser_eq hw hkernel]
    refine ⟨fun r hr => rflagsTested_reg c w hr, rfl, rfl, ?_, ?_⟩
    · rw [if_neg hkernel]
      rfl
    · rw [if_neg hkernel]
      rfl

/-! ### Entering `int_handler` -/

theorem execs_pushImm :
  ∀ (c : Cpu) (ws : List Word), execs c (ws.map .pushImm) = c.pushes ws
  | _, [] => rfl
  | c, w :: ws => execs_pushImm (c.push w) ws

/-- The state in which an interrupt enters `int_handler`: `rdi` points to the frame, which is the
only part of the memory that has been written to, but for a word below it. -/
structure Handles (v : Delivery) (n : Nat) (c e : Cpu) : Prop where
  words : e.mem.Words ((v.top c).toNat - 176) (v.registers c n).words
  rdi : (e.reg .rdi).toNat = (v.top c).toNat - 176
  rsp : e.reg .rsp = e.reg .rdi
  user : e.user = false
  gs : e.gs = if c.rflags &&& rflagsIopl = 0 then c.gs else c.kernelGs
  kernelGs : e.kernelGs = if c.rflags &&& rflagsIopl = 0 then c.kernelGs else c.gs
  mem : ∀ x, x < (v.top c).toNat - 184 ∨ (v.top c).toNat ≤ x → e.mem x = c.mem x

section Enter

variable {v : Delivery} {n : Nat} {c : Cpu}

/-- The words that the processor and the stub push, when an error code is pushed once. -/
theorem words_append_stubWords (herr : v.err.isSome = true ↔ n ∈ errorCodes) :
  v.words c ++ stubWords n
    = [v.ss, c.reg .rsp, c.rflags, v.cs, c.rip, v.err.getD 0, BitVec.ofNat 64 n]
  := by
  rw [Delivery.words, stubWords]
  cases h : v.err with
  | none =>
      rw [h] at herr
      have hn : n ∉ errorCodes := fun hn => Bool.false_ne_true (herr.mpr hn)
      rw [if_neg hn]
      rfl
  | some e =>
      rw [h] at herr
      rw [if_pos (herr.mp rfl)]
      rfl

/-- The state of the stub at its jump to `isr_common`. -/
def stubbed (v : Delivery) (n : Nat) (c : Cpu) : Cpu :=
  execs (cli (v.run c)) ((stubWords n).map .pushImm)

theorem stubbed_eq (v : Delivery) (n : Nat) (c : Cpu) :
  (stubbed v n c).reg = ((c.set .rsp (v.top c)).pushes (v.words c ++ stubWords n)).reg
    ∧ (stubbed v n c).mem = ((c.set .rsp (v.top c)).pushes (v.words c ++ stubWords n)).mem
    ∧ (stubbed v n c).gs = c.gs ∧ (stubbed v n c).kernelGs = c.kernelGs
    ∧ (stubbed v n c).user = false
  := by
  obtain ⟨p, hp⟩ : ∃ p, (c.set .rsp (v.top c)).pushes (v.words c) = p := ⟨_, rfl⟩
  have hgs : p.gs = c.gs := by
    rw [← hp, Cpu.pushes_gs]
    rfl
  have hkernelGs : p.kernelGs = c.kernelGs := by
    rw [← hp, Cpu.pushes_kernelGs]
    rfl
  rw [stubbed, execs_pushImm, Cpu.pushes_append, Delivery.run, hp]
  obtain ⟨hreg, hmem⟩ := @Cpu.pushes_congr p (cli { p with
    rip := v.entry
    rflags := c.rflags &&& ~~~gateMask
    user := false }) (stubWords n) rfl rfl
  refine ⟨hreg, hmem, ?_, ?_, ?_⟩
  · rw [Cpu.pushes_gs]
    exact hgs
  · rw [Cpu.pushes_kernelGs]
    exact hkernelGs
  · rw [Cpu.pushes_user]
    rfl

theorem isr_eq (v : Delivery) (n : Nat) (c : Cpu) :
  isr n (v.run c) = exec (swapgsIfUser (isrPushed (stubbed v n c))) (.mov .rdi .rsp)
  := isrCommon_eq _

theorem isrPushed_user (c : Cpu) :
  (isrPushed c).user = c.user
  := by
  obtain ⟨p, hp⟩ : ∃ p, c.pushes (pushedRegs.map c.reg) = p := ⟨_, rfl⟩
  have huser : p.user = c.user := by
    rw [← hp, Cpu.pushes_user]
  rw [isrPushed, hp, ← huser]
  rfl

/-- An interrupt enters `int_handler` with a frame for it. -/
theorem isr_handles (herr : v.err.isSome = true ↔ n ∈ errorCodes) (hroom : 184 ≤ (v.top c).toNat) :
  Handles v n c (isr n (v.run c))
  := by
  obtain ⟨hreg, hmem, hgs, hkernelGs, huser⟩ := stubbed_eq v n c
  have hwords := words_append_stubWords (c := c) herr
  have htop : (c.set .rsp (v.top c)).reg .rsp = v.top c := Cpu.set_reg_self _ _ _
  have hlen : 8 * (v.words c ++ stubWords n).length = 56 := by
    rw [hwords]
    rfl
  have hrsp : ((stubbed v n c).reg .rsp).toNat = (v.top c).toNat - 56 := by
    rw [hreg, Cpu.pushes_rsp_toNat (by rw [htop]; omega), htop, hlen]
  have hstack : (stubbed v n c).Stack (v.words c ++ stubWords n).reverse := by
    have hempty : (c.set .rsp (v.top c)).Stack [] := ⟨trivial, by
      rw [htop, List.length_nil]
      exact (v.top c).isLt⟩
    have hroom : 8 * (v.words c ++ stubWords n).length ≤ ((c.set .rsp (v.top c)).reg .rsp).toNat := by
      rw [htop]
      omega
    have hpushed := hempty.pushes hroom
    rw [List.append_nil] at hpushed
    exact hpushed.congr hmem (by rw [hreg])
  have hregs : pushedRegs.map (stubbed v n c).reg = pushedRegs.map c.reg := by
    apply List.map_congr_left
    intro r hr
    have hne : r ≠ .rsp := by
      rintro rfl
      exact absurd hr (by decide)
    rw [hreg, Cpu.pushes_reg_of_ne hne, Cpu.set_reg_of_ne _ _ hne]
  have hpushed := isrPushed_stack hstack (by omega)
  rw [hregs, hwords] at hpushed
  have hfields : (pushedRegs.map c.reg).reverse ++ [v.ss, c.reg .rsp, c.rflags, v.cs, c.rip,
      v.err.getD 0, BitVec.ofNat 64 n].reverse = (v.registers c n).words := rfl
  rw [hfields] at hpushed
  have hframe : ((isrPushed (stubbed v n c)).reg .rsp).toNat = (v.top c).toNat - 176 := by
    rw [isrPushed_rsp (by omega), hrsp]
    omega
  have hrflags : (isrPushed (stubbed v n c)).word
      ((isrPushed (stubbed v n c)).reg .rsp + regOffsetRflags) = c.rflags :=
    Cpu.word_of_words hpushed.words hpushed.bound (i := 19) (Nat.lt_of_sub_eq_succ rfl)
  have hgs' := (isrPushed_gs (stubbed v n c)).trans hgs
  have hkernelGs' := (isrPushed_kernelGs (stubbed v n c)).trans hkernelGs
  have huser' := (isrPushed_user (stubbed v n c)).trans huser
  have hmem' : ∀ x, x < (v.top c).toNat - 184 ∨ (v.top c).toNat ≤ x →
      (isrPushed (stubbed v n c)).mem x = c.mem x := by
    intro x hx
    have hpushes : (stubbed v n c).mem x = c.mem x := by
      rw [hmem]
      exact Cpu.pushes_mem_of_notMem (by rw [htop]; omega) (by rw [htop]; omega)
    rw [isrPushed_mem (by omega) (by omega), hpushes]
  rw [isr_eq]
  generalize isrPushed (stubbed v n c) = p at *
  have htested := swapgsIfUser_tested hrflags
  generalize swapgsIfUser p = q at *
  have hrsp' : q.reg .rsp = p.reg .rsp := htested.reg .rsp (by decide)
  have hrdi : (exec q (.mov .rdi .rsp)).reg .rdi = p.reg .rsp := by
    rw [← hrsp']
    exact Cpu.set_reg_self _ _ _
  have hkept : (exec q (.mov .rdi .rsp)).reg .rsp = q.reg .rsp := Cpu.set_reg_of_ne _ _ (by decide)
  have hmoved : (exec q (.mov .rdi .rsp)).mem = p.mem := htested.mem
  constructor
  · rw [hmoved, ← hframe]
    exact hpushed.words
  · rw [hrdi, hframe]
  · rw [hrdi, hkept, hrsp']
  · exact htested.user.trans huser'
  · rw [← hgs', ← hkernelGs']
    exact htested.gs
  · rw [← hgs', ← hkernelGs']
    exact htested.kernelGs
  · intro x hx
    rw [hmoved]
    exact hmem' x hx

end Enter

/-! ### Leaving the kernel -/

/-- The registers of the code that goes on with the saved registers `r`. -/
def Registers.restored (r : Registers) : Reg → Word
  | .rcx => r.rcx
  | .r11 => r.r11
  | q => r.toUser q

/-- `isr_return` brings back the code of a saved frame that is not one of a system call. -/
structure Resumes (r : Registers) (d e : Cpu) : Prop where
  reg : e.reg = r.restored
  rip : e.rip = r.rip
  rflags : e.rflags = (r.rflags &&& iretMask) ||| 2
  user : e.user = (r.cs &&& 3 == 3)
  gs : e.gs = if r.rflags &&& rflagsIopl = 0 then d.gs else d.kernelGs
  kernelGs : e.kernelGs = if r.rflags &&& rflagsIopl = 0 then d.kernelGs else d.gs
  mem : ∀ x, x < (d.reg .rdi).toNat ∨ (d.reg .rdi).toNat + 176 ≤ x → e.mem x = d.mem x

/-- The last instructions of `isr_return`, for a frame that is not one of a system call. -/
theorem iretCode_eq {c : Cpu} {r : Registers} (h : c.Stack (r.rax :: r.pushed)) :
  (execs c [.pop .rax, .add .rsp 16, .iret]).reg = assign c.reg [(.rax, r.rax), (.rsp, r.rsp)]
    ∧ (execs c [.pop .rax, .add .rsp 16, .iret]).rip = r.rip
    ∧ (execs c [.pop .rax, .add .rsp 16, .iret]).rflags = (r.rflags &&& iretMask) ||| 2
    ∧ (execs c [.pop .rax, .add .rsp 16, .iret]).user = (r.cs &&& 3 == 3)
    ∧ (execs c [.pop .rax, .add .rsp 16, .iret]).gs = c.gs
    ∧ (execs c [.pop .rax, .add .rsp 16, .iret]).kernelGs = c.kernelGs
    ∧ (execs c [.pop .rax, .add .rsp 16, .iret]).mem = c.mem
  := by
  have h₁ := h.pop (r := .rax) (by decide)
  have e₁ := exec_pop .rax h
  obtain ⟨c₁, hc₁⟩ : ∃ c₁, exec c (.pop .rax) = c₁ := ⟨_, rfl⟩
  rw [hc₁] at h₁ e₁
  have h₂ : (exec c₁ (.add .rsp 16)).Stack [r.rip, r.cs, r.rflags, r.rsp, r.ss] :=
    @Cpu.Stack.drop c₁ _ [r.intNo, r.errCode] _ h₁ rfl rfl
  obtain ⟨c₂, hc₂⟩ : ∃ c₂, exec c₁ (.add .rsp 16) = c₂ := ⟨_, rfl⟩
  rw [hc₂] at h₂
  have hblock : execs c [.pop .rax, .add .rsp 16, .iret] = exec c₂ .iret := by
    rw [← hc₂, ← hc₁]
    rfl
  have hrip : c₂.top = r.rip := Cpu.top_eq h₂.words
  have hcs : c₂.word (c₂.reg .rsp + 8) = r.cs :=
    Cpu.word_of_words h₂.words h₂.bound (i := 1) (Nat.lt_of_sub_eq_succ rfl)
  have hrflags : c₂.word (c₂.reg .rsp + 16) = r.rflags :=
    Cpu.word_of_words h₂.words h₂.bound (i := 2) (Nat.lt_of_sub_eq_succ rfl)
  have hrsp : c₂.word (c₂.reg .rsp + 24) = r.rsp :=
    Cpu.word_of_words h₂.words h₂.bound (i := 3) (Nat.lt_of_sub_eq_succ rfl)
  rw [hblock, exec, hrip, hcs, hrflags, hrsp, ← hc₂, e₁]
  refine ⟨?_, rfl, rfl, rfl, rfl, rfl, rfl⟩
  funext q
  cases q
  all_goals rfl

/-- `isr_return` brings back the code of a saved frame that is not one of a system call. -/
theorem isrReturn_resumes {c : Cpu} {r : Registers}
    (hw : c.mem.Words (c.reg .rdi).toNat r.words) (hbound : (c.reg .rdi).toNat + 176 < 2 ^ 64)
    (hint : r.intNo ≠ intSyscall) :
  Resumes r c (isrReturn c)
  := by
  have hlen : 8 * r.words.length = 176 := rfl
  have hmoved : (exec c (.mov .rsp .rdi)).reg .rsp = c.reg .rdi := Cpu.set_reg_self _ _ _
  have hrflags : (exec c (.mov .rsp .rdi)).word ((exec c (.mov .rsp .rdi)).reg .rsp +
      regOffsetRflags) = r.rflags := by
    rw [hmoved]
    exact Cpu.word_of_words (c := exec c (.mov .rsp .rdi)) hw (by omega) (i := 19)
      (Nat.lt_of_sub_eq_succ rfl)
  have htested := swapgsIfUser_tested hrflags
  obtain ⟨d, hd⟩ : ∃ d, swapgsIfUser (exec c (.mov .rsp .rdi)) = d := ⟨_, rfl⟩
  rw [hd] at htested
  have hrsp : d.reg .rsp = c.reg .rdi := (htested.reg .rsp (by decide)).trans hmoved
  have hmem : d.mem = c.mem := htested.mem
  have hstack : d.Stack r.words := by
    constructor
    · rw [hmem, hrsp]
      exact hw
    · rw [hrsp, hlen]
      exact hbound
  have hblock : isrReturn c = if (isrTested d r).zero then syscallReturn (isrTested d r)
      else execs (isrTested d r) [.pop .rax, .add .rsp 16, .iret] := by
    rw [← execs_isrTested hstack, ← hd]
    rfl
  have hzero : ¬ (isrTested d r).zero = true := by
    rw [isrTested, Cpu.setZero_zero, beq_eq_false_iff_ne.mpr hint]
    exact Bool.false_ne_true
  have htop : (isrTested d r).Stack (r.rax :: r.pushed) :=
    (isrPopped_push_stack hstack).congr rfl rfl
  have hpopped : ((isrPopped d r).reg .rsp).toNat = (d.reg .rsp).toNat + 120 :=
    toNat_add_of_lt (n := 120) (by rw [hrsp]; omega)
  have hkept : ∀ x, x < (d.reg .rsp).toNat ∨ (d.reg .rsp).toNat + 176 ≤ x →
      (isrTested d r).mem x = d.mem x := by
    intro x hx
    have hpush : (isrTested d r).mem = ((isrPopped d r).push r.rax).mem := rfl
    rw [hpush, Cpu.push_mem_of_notMem (by omega) _ (by omega)]
    rfl
  have hgs : (isrTested d r).gs = d.gs := rfl
  have hkernelGs : (isrTested d r).kernelGs = d.kernelGs := rfl
  obtain ⟨hreg, hrip, hflags, huser, hgs', hkernelGs', hmem'⟩ := iretCode_eq htop
  rw [hblock, if_neg hzero]
  constructor
  · rw [hreg]
    funext q
    cases q
    all_goals rfl
  · exact hrip
  · exact hflags
  · exact huser
  · rw [hgs', hgs]
    exact htested.gs
  · rw [hkernelGs', hkernelGs]
    exact htested.kernelGs
  · intro x hx
    rw [hmem', hkept x (by rw [hrsp]; exact hx), hmem]

/-! ### Interrupts are not seen -/

/-- What an interrupt of the code counts on: a vector that has a stub and is not that of system
calls, an error code just for the vectors whose stub leaves it to the processor, room on the stack,
the code segment of the mode of the code, and flags as the processor keeps them. -/
structure Delivery.Fits (v : Delivery) (n : Nat) (c : Cpu) : Prop where
  number : n < 255 ∧ n ≠ 0x80
  err : v.err.isSome = true ↔ n ∈ errorCodes
  room : 184 ≤ (v.top c).toNat
  cs : (v.cs &&& 3 == 3) = c.user
  rflags : (c.rflags &&& iretMask) ||| 2 = c.rflags

/-- A handler that was entered in `e` returns, in `d`, the frame it was given.  The call of
`int_handler` may leave the other registers with any values. -/
structure Returned (v : Delivery) (c e d : Cpu) : Prop where
  rdi : d.reg .rdi = e.reg .rdi
  frame : ∀ x, (v.top c).toNat - 176 ≤ x → x < (v.top c).toNat → d.mem x = e.mem x
  gs : d.gs = e.gs
  kernelGs : d.kernelGs = e.kernelGs

/-- The code goes on as if nothing had happened, but for the memory. -/
structure SameCode (c c' : Cpu) : Prop where
  reg : c'.reg = c.reg
  rip : c'.rip = c.rip
  rflags : c'.rflags = c.rflags
  user : c'.user = c.user
  gs : c'.gs = c.gs
  kernelGs : c'.kernelGs = c.kernelGs

section Transparent

variable {v : Delivery} {n : Nat} {c d : Cpu}

theorem resumes_of_returned (hfits : v.Fits n c) (hd : Returned v c (isr n (v.run c)) d) :
  Resumes (v.registers c n) d (isrReturn d) ∧ (d.reg .rdi).toNat = (v.top c).toNat - 176
  := by
  have hroom := hfits.room
  have htop := (v.top c).isLt
  have hhandles := isr_handles hfits.err hroom
  have hrdi : (d.reg .rdi).toNat = (v.top c).toNat - 176 := by
    rw [hd.rdi, hhandles.rdi]
  have hlen : 8 * (v.registers c n).words.length = 176 := rfl
  have hwords : d.mem.Words (d.reg .rdi).toNat (v.registers c n).words := by
    rw [hrdi]
    apply hhandles.words.congr
    intro x hx hx'
    exact hd.frame x hx (by omega)
  have hint : (v.registers c n).intNo ≠ intSyscall := by
    intro h
    have hnat : n % 2 ^ 64 = 0x80 := congrArg BitVec.toNat h
    have hnumber := hfits.number
    omega
  exact ⟨isrReturn_resumes hwords (by omega) hint, hrdi⟩

/-- The registers, the flags, the mode and the bases of `gs` are brought back. -/
theorem sameCode_of_returned (hfits : v.Fits n c) (hd : Returned v c (isr n (v.run c)) d) :
  SameCode c (isrReturn d)
  := by
  have hhandles := isr_handles hfits.err hfits.room
  obtain ⟨hresumes, -⟩ := resumes_of_returned hfits hd
  constructor
  · rw [hresumes.reg]
    funext q
    cases q
    all_goals rfl
  · exact hresumes.rip
  · rw [hresumes.rflags]
    exact hfits.rflags
  · rw [hresumes.user]
    exact hfits.cs
  · have hgs := hresumes.gs
    rw [hd.gs, hd.kernelGs, hhandles.gs, hhandles.kernelGs] at hgs
    rw [hgs, Delivery.registers]
    split_ifs
    · rfl
    · rfl
  · have hgs := hresumes.kernelGs
    rw [hd.gs, hd.kernelGs, hhandles.gs, hhandles.kernelGs] at hgs
    rw [hgs, Delivery.registers]
    split_ifs
    · rfl
    · rfl

/-- `isr_return` writes to the frame only. -/
theorem isrReturn_mem_of_returned (hfits : v.Fits n c) (hd : Returned v c (isr n (v.run c)) d)
    {x : Nat} (hx : x < (v.top c).toNat - 176 ∨ (v.top c).toNat ≤ x) :
  (isrReturn d).mem x = d.mem x
  := by
  have hroom := hfits.room
  obtain ⟨hresumes, hrdi⟩ := resumes_of_returned hfits hd
  exact hresumes.mem x (by omega)

/-- A processor that runs a program, with the stack of the kernel at `0x8000`. -/
def program : Cpu where
  reg := fun _ => 7
  rip := 0x1000
  rflags := 0x3202
  gs := 0
  kernelGs := 0x9000
  user := true
  mem := fun _ => 0

/-- A page fault of the program. -/
def pageFault : Delivery where
  rsp0 := 0x8000
  ss := 0x1B
  cs := 0x23
  err := some 6
  entry := 0x5000

theorem pageFault_fits :
  pageFault.Fits 14 program
  := by
  constructor
  · decide
  · exact iff_of_true rfl (by decide)
  · decide
  · decide
  · decide

end Transparent

/-! ### Programs with interrupts -/

section Programs

variable (hidden : Nat → Prop) (prog : Cpu → Cpu → Prop)

/-- The states of a program that differ at most in the part of the memory that it does not see. -/
structure Alike (c c' : Cpu) : Prop where
  code : SameCode c c'
  mem : ∀ x, ¬ hidden x → c'.mem x = c.mem x

/-- An interrupt from its delivery to the return, with everything that its handler does: on a stack
that the program does not see, it returns the frame it was given and writes to nothing that the
program sees. -/
inductive InterruptStep (c : Cpu) : Cpu → Prop where
  | mk {v : Delivery} {n : Nat} {d : Cpu} : v.Fits n c →
      (∀ x, (v.top c).toNat - 184 ≤ x → x < (v.top c).toNat → hidden x) →
      Returned v c (isr n (v.run c)) d →
      (∀ x, ¬ hidden x → d.mem x = (isr n (v.run c)).mem x) → InterruptStep c (isrReturn d)

/-- A program that is interrupted: a step of the program is seen, an interrupt is not. -/
def interruptedStep (c : Cpu) (o : Option Unit) (c' : Cpu) : Prop :=
  match o with
  | some _ => prog c c'
  | none => InterruptStep hidden c c'

/-- A program that is left alone. -/
def aloneStep (c : Cpu) (o : Option Unit) (c' : Cpu) : Prop :=
  match o with
  | some _ => prog c c'
  | none => False

variable {hidden : Nat → Prop} {prog : Cpu → Cpu → Prop} {c c₁ c' : Cpu}

theorem Alike.trans (h : Alike hidden c c₁) (h' : Alike hidden c₁ c') :
  Alike hidden c c'
  := by
  refine ⟨⟨?_, ?_, ?_, ?_, ?_, ?_⟩, fun x hx => (h'.mem x hx).trans (h.mem x hx)⟩
  · exact h'.code.reg.trans h.code.reg
  · exact h'.code.rip.trans h.code.rip
  · exact h'.code.rflags.trans h.code.rflags
  · exact h'.code.user.trans h.code.user
  · exact h'.code.gs.trans h.code.gs
  · exact h'.code.kernelGs.trans h.code.kernelGs

theorem Alike.symm (h : Alike hidden c c') :
  Alike hidden c' c
  := by
  refine ⟨⟨?_, ?_, ?_, ?_, ?_, ?_⟩, fun x hx => (h.mem x hx).symm⟩
  · exact h.code.reg.symm
  · exact h.code.rip.symm
  · exact h.code.rflags.symm
  · exact h.code.user.symm
  · exact h.code.gs.symm
  · exact h.code.kernelGs.symm

theorem Alike.refl (hidden : Nat → Prop) (c : Cpu) :
  Alike hidden c c
  := ⟨⟨rfl, rfl, rfl, rfl, rfl, rfl⟩, fun _ _ => rfl⟩

/-- A program does not see an interrupt. -/
theorem InterruptStep.alike (h : InterruptStep hidden c c') :
  Alike hidden c c'
  := by
  cases h with
  | @mk v n d hfits hstack hd hmem =>
      refine ⟨sameCode_of_returned hfits hd, fun x hx => ?_⟩
      have hout : x < (v.top c).toNat - 184 ∨ (v.top c).toNat ≤ x := by
        by_contra hin
        exact hx (hstack x (by omega) (by omega))
      rw [isrReturn_mem_of_returned hfits hd (by omega), hmem x hx]
      exact (isr_handles hfits.err hfits.room).mem x hout

/-- Any number of interrupts, at any places of a run of a program that does not read what is hidden
from it, change nothing of the run: the program takes the same steps when it is left alone, and
comes to the same registers, flags, mode and memory. -/
theorem interrupts_unseen
    (hblind : ∀ {c₁ c₂ c₁' : Cpu}, Alike hidden c₁ c₂ → prog c₁ c₁' →
      ∃ c₂', prog c₂ c₂' ∧ Alike hidden c₁' c₂')
    {es : List Unit} (h : Trace (interruptedStep hidden prog) c es c') :
  ∃ c₁, Trace (aloneStep prog) c es c₁ ∧ Alike hidden c₁ c'
  := by
  have hsim : ∀ {s t : Cpu} {o : Option Unit} {s' : Cpu}, Alike hidden t s →
      interruptedStep hidden prog s o s' →
      ∃ t', Trace (aloneStep prog) t o.toList t' ∧ Alike hidden t' s' := by
    intro s t o s' hrel hstep
    cases o with
    | none => exact ⟨t, .nil t, hrel.trans (InterruptStep.alike hstep)⟩
    | some e =>
        obtain ⟨t', ht', halike⟩ := hblind hrel.symm hstep
        exact ⟨t', Trace.single (o := some e) ht', halike.symm⟩
  exact @Trace.simulate _ _ _ (interruptedStep hidden prog) (aloneStep prog) c c' es
    (fun c c₁ => Alike hidden c₁ c) hsim h c (Alike.refl hidden c)

/-- A program that counts up in `rax`. -/
def countUp (c c' : Cpu) : Prop :=
  c' = (c.set .rax (c.reg .rax + 1)).jump (c.rip + 3)

theorem countUp_alike {c₁ c₂ c₁' : Cpu} (halike : Alike hidden c₁ c₂) (h : countUp c₁ c₁') :
  ∃ c₂', countUp c₂ c₂' ∧ Alike hidden c₁' c₂'
  := by
  subst h
  refine ⟨_, rfl, ⟨⟨?_, ?_, ?_, ?_, ?_, ?_⟩, halike.mem⟩⟩
  · simp only [Cpu.set, Cpu.jump, halike.code.reg]
  · simp only [Cpu.jump, halike.code.rip]
  · exact halike.code.rflags
  · exact halike.code.user
  · exact halike.code.gs
  · exact halike.code.kernelGs

theorem interrupts_unseen_countUp :
  ∃ c c₁, Trace (interruptedStep (fun x => 0x7000 ≤ x ∧ x < 0x8000) countUp) program [()] c
    ∧ Trace (aloneStep countUp) program [()] c₁
    ∧ Alike (fun x => 0x7000 ≤ x ∧ x < 0x8000) c₁ c
  := by
  have htop : (pageFault.top program).toNat = 0x8000 := by decide
  have hinterrupt : ∃ c, InterruptStep (fun x => 0x7000 ≤ x ∧ x < 0x8000) program c := by
    refine ⟨_, .mk pageFault_fits ?_ ⟨rfl, fun _ _ _ => rfl, rfl, rfl⟩ fun _ _ => rfl⟩
    intro x hx hx'
    omega
  obtain ⟨c, hc⟩ := hinterrupt
  have hrun : Trace (interruptedStep (fun x => 0x7000 ≤ x ∧ x < 0x8000) countUp) program [()]
      ((c.set .rax (c.reg .rax + 1)).jump (c.rip + 3)) := .silent hc (.event rfl (.nil _))
  obtain ⟨c₁, halone, halike⟩ := interrupts_unseen countUp_alike hrun
  exact ⟨_, c₁, hrun, halone, halike⟩

end Programs

end Isr
