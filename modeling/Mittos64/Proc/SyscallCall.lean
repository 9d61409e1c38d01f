import Mittos64.Syscall
import Mittos64.Proc.SyscallFork
import Mittos64.Proc.Interrupt

/-!
# System calls as steps of a program

A system call goes through `syscall_entry`, `isr_common`, `int_handler`, `syscall_handler`, the
handler of its number, `isr_return` and `syscall_return`.  To its program it is one step: the
handler is given the arguments that are in the registers, its result is in `rax`, and the program
goes on behind the `syscall` with its other registers.  A program that is interrupted at any places,
and makes any calls but `fork`, runs as on a machine without interrupts where a call is such a step.
-/

open Amd64

namespace Isr.Call

/-! ### The code -/

/-- The number and the arguments that a `syscall_handler_t` is given. -/
structure Args where
  num : Word
  a1 : Word
  a2 : Word
  a3 : Word
  a4 : Word
  a5 : Word
  a6 : Word

/-- `syscall_handler_t`: the memory and the value that are returned, when the handler returns. -/
abbrev SyscallHandler : Type := Memory → Args → Option (Memory × Word)

/-- `int_handler_t`: the memory and the frame that are returned, when the handler returns. -/
abbrev IntHandler : Type := Memory → Word → Option (Memory × Word)

/-- `register_int_handler(num, h)`, with the old handler. -/
def registerIntHandler (intHandlers : Word → Option IntHandler) (num : Word) (h : IntHandler) :
    (Word → Option IntHandler) × Option IntHandler :=
  (Function.update intHandlers num (some h), intHandlers num)

/-- `int_handler(r)`.  Without a handler the kernel stops. -/
def intHandler (intHandlers : Word → Option IntHandler) : IntHandler := fun m r =>
  match intHandlers (m.word (r + 120)) with
  | some h => h m r
  | none => none

/-- The arguments in the frame at `r`. -/
def frameArgs (m : Memory) (r : Word) : Args where
  num := m.word r
  a1 := m.word (r + 40)
  a2 := m.word (r + 32)
  a3 := m.word (r + 24)
  a4 := m.word (r + 72)
  a5 := m.word (r + 56)
  a6 := m.word (r + 64)

/-- `syscall_handler(r)`.  Without a handler the kernel stops. -/
def syscallHandler (syscallHandlers : Word → Option SyscallHandler) : IntHandler := fun m r =>
  match syscallHandlers (m.word r) with
  | some h => (h m (frameArgs m r)).map fun p => (p.1.setWord r p.2, r)
  | none => none

/-- `syscall_handlers` after `syscall_init`, where `impl` is what the handlers do. -/
def syscallHandlers (impl : Syscall.Handler → SyscallHandler) (num : Word) :
    Option SyscallHandler :=
  (Syscall.syscallHandlers num.toNat).map impl

/-- `int_handlers` after `syscall_init`. -/
def syscallInit (impl : Syscall.Handler → SyscallHandler)
    (intHandlers : Word → Option IntHandler) : Word → Option IntHandler :=
  (registerIntHandler intHandlers intSyscall (syscallHandler (syscallHandlers impl))).1

/-! ### From the frame to the handler -/

/-- The arguments in the registers of a program. -/
def Args.ofCpu (u : Cpu) : Args where
  num := u.reg .rax
  a1 := u.reg .rdi
  a2 := u.reg .rsi
  a3 := u.reg .rdx
  a4 := u.reg .r10
  a5 := u.reg .r8
  a6 := u.reg .r9

section Frame

variable {m : Memory} {th : Word} {r : Registers} (hw : m.Words th.toNat r.words)
  (hbound : th.toNat + 176 < 2 ^ 64)

include hw hbound

/-- A field of the frame. -/
theorem word_of_frame {i : Nat} (hi : i < 22) {v : Word} (hv : r.words[i]? = some v) :
  m.word (th + BitVec.ofNat 64 (8 * i)) = v
  := by
  obtain ⟨hlt, hget⟩ := List.getElem?_eq_some_iff.mp hv
  apply Memory.word_eq_of_load
  rw [toNat_add_of_lt (by omega), hw.load hlt, hget]

/-- The arguments in the frame of a system call are those in the registers of the program. -/
theorem frameArgs_ofSyscall {u : Cpu} {next : Word} (hr : r = Registers.ofSyscall u next) :
  frameArgs m th = Args.ofCpu u
  := by
  have hfield := @word_of_frame m th r hw hbound
  have hnum : m.word th = r.rax := Memory.word_eq_of_load hw.1
  have h1 : m.word (th + 40) = r.rdi := @hfield 5 (by omega) _ rfl
  have h2 : m.word (th + 32) = r.rsi := @hfield 4 (by omega) _ rfl
  have h3 : m.word (th + 24) = r.rdx := @hfield 3 (by omega) _ rfl
  have h4 : m.word (th + 72) = r.r10 := @hfield 9 (by omega) _ rfl
  have h5 : m.word (th + 56) = r.r8 := @hfield 7 (by omega) _ rfl
  have h6 : m.word (th + 64) = r.r9 := @hfield 8 (by omega) _ rfl
  rw [frameArgs, hnum, h1, h2, h3, h4, h5, h6, hr]
  rfl

/-- `int_handler` calls the handler of the system call. -/
theorem intHandler_ofSyscall {u : Cpu} {next : Word} (hr : r = Registers.ofSyscall u next)
    (impl : Syscall.Handler → SyscallHandler) (intHandlers : Word → Option IntHandler) :
  intHandler (syscallInit impl intHandlers) m th
    = (syscallHandlers impl (u.reg .rax)).bind fun h =>
        (h m (Args.ofCpu u)).map fun p => (p.1.setWord th p.2, th)
  := by
  have hno : m.word (th + 120) = intSyscall := by
    have hfield : m.word (th + 120) = r.intNo := @word_of_frame m th r hw hbound 15 (by omega) _ rfl
    rw [hfield, hr]
    rfl
  have hnum : m.word th = u.reg .rax := by
    rw [Memory.word_eq_of_load hw.1, hr]
    rfl
  have hargs := frameArgs_ofSyscall hw hbound hr
  have hinit : syscallInit impl intHandlers intSyscall
      = some (syscallHandler (syscallHandlers impl)) := by
    simp only [syscallInit, registerIntHandler, Function.update_self]
  rw [intHandler, hno, hinit]
  dsimp only
  rw [syscallHandler, hnum, hargs]
  cases syscallHandlers impl (u.reg .rax) with
  | none => rfl
  | some h => rfl

end Frame

/-! ### From the handler to the program -/

/-- `syscall_return` writes to no memory. -/
theorem syscallReturn_mem (c : Cpu) :
  (syscallReturn c).mem = c.mem
  := rfl

/-- `isr_return` from a system call writes to nothing but the frame. -/
theorem isrReturn_mem {c : Cpu} {r : Registers}
    (hw : c.mem.Words (c.reg .rdi).toNat r.words) (hbound : (c.reg .rdi).toNat + 176 < 2 ^ 64)
    (hint : r.intNo = intSyscall) {x : Nat}
    (hx : x < (c.reg .rdi).toNat ∨ (c.reg .rdi).toNat + 176 ≤ x) :
  (isrReturn c).mem x = c.mem x
  := by
  have hlen : 8 * r.words.length = 176 := rfl
  have hmoved : (exec c (.mov .rsp .rdi)).reg .rsp = c.reg .rdi := Cpu.set_reg_self _ _ _
  have hrflags : (exec c (.mov .rsp .rdi)).word ((exec c (.mov .rsp .rdi)).reg .rsp +
      regOffsetRflags) = r.rflags := by
    rw [hmoved]
    exact @word_of_frame c.mem (c.reg .rdi) r hw hbound 19 (by omega) _ rfl
  have htested := swapgsIfUser_tested hrflags
  obtain ⟨d, hd⟩ : ∃ d, swapgsIfUser (exec c (.mov .rsp .rdi)) = d := ⟨_, rfl⟩
  rw [hd] at htested
  have hrsp : d.reg .rsp = c.reg .rdi := (htested.reg .rsp (by decide)).trans hmoved
  have hmem : d.mem = c.mem := htested.mem
  have hstack : d.Stack r.words := by
    constructor
    · rw [hmem, hrsp]
      exact hw
    · rw [hrsp, hlen]
      exact hbound
  have hblock : isrReturn c = if (isrTested d r).zero then syscallReturn (isrTested d r)
      else execs (isrTested d r) [.pop .rax, .add .rsp 16, .iret] := by
    rw [← execs_isrTested hstack, ← hd]
    rfl
  have hzero : (isrTested d r).zero = true := by
    rw [isrTested, Cpu.setZero_zero, hint]
    rfl
  have hpopped : ((isrPopped d r).reg .rsp).toNat = (d.reg .rsp).toNat + 120 :=
    toNat_add_of_lt (n := 120) (by rw [hrsp]; omega)
  have hpush : (isrTested d r).mem = ((isrPopped d r).push r.rax).mem := rfl
  rw [hblock, if_pos hzero, syscallReturn_mem, hpush,
    Cpu.push_mem_of_notMem (by omega) _ (by rw [hpopped, hrsp]; omega), isrPopped,
    Cpu.withRegs_mem, hmem]

/-! ### One call -/

/-- The handler leaves the frame of the thread alone, and neither the value that it returns nor what
it does to the other memory depends on what is hidden. -/
structure Blind (hidden : Nat → Prop) (th : Word) (h : SyscallHandler) : Prop where
  kept : ∀ {m a m' v}, h m a = some (m', v) →
    ∀ x, th.toNat ≤ x → x < th.toNat + 176 → m' x = m x
  congr : ∀ {m m₁ a m' v}, (∀ x, ¬ hidden x → m₁ x = m x) → h m a = some (m', v) →
    ∃ m₁', h m₁ a = some (m₁', v) ∧ ∀ x, ¬ hidden x → m₁' x = m' x

/-- What a system call writes to besides the work of its handler is hidden: the stack and the
registers of the thread, and the place for the stack pointer of the program. -/
structure Private (hidden : Nat → Prop) (u : Cpu) (th : Word) : Prop where
  room : Thread.offTcb ≤ th.toNat
  stack : ∀ x, th.toNat - Thread.offTcb ≤ x → x < th.toNat + 176 → hidden x
  temp : ∀ x, u.kernelGs.toNat + 56 ≤ x → x < u.kernelGs.toNat + 64 → hidden x

/-- `int_handler`, called in the state `e`, has returned, and what it returns is in `rdi`.  It has
used the stack of the thread. -/
structure Handled (intHandlers : Word → Option IntHandler) (th : Word) (e d : Cpu) : Prop where
  result : ∃ m', intHandler intHandlers e.mem (e.reg .rdi) = some (m', d.reg .rdi)
    ∧ ∀ x, x < th.toNat - Thread.offTcb ∨ th.toNat ≤ x → d.mem x = m' x
  gs : d.gs = e.gs
  kernelGs : d.kernelGs = e.kernelGs

/-- The program `u` at `next`, with the memory and the value that a handler has returned. -/
def answered (u : Cpu) (next : Word) (m : Memory) (v : Word) : Cpu where
  reg := ((Registers.ofSyscall u next).withRax v).toUser
  rip := next
  rflags := (u.rflags &&& sysretMask) ||| 2
  gs := u.gs
  kernelGs := u.kernelGs
  user := true
  mem := m

/-- A system call that is made at once, in the program `u` before the address `next`. -/
def atOnce (impl : Syscall.Handler → SyscallHandler) (u : Cpu) (next : Word) : Option Cpu :=
  (syscallHandlers impl (u.reg .rax)).bind fun h =>
    (h u.mem (Args.ofCpu u)).map fun p => answered u next p.1 p.2

section One

variable {hidden : Nat → Prop} {impl : Syscall.Handler → SyscallHandler}
  {intHandlers : Word → Option IntHandler} {u e d : Cpu} {th next : Word}

/-- The way of a system call through the kernel comes to the same as the call that is made at once,
but for what is hidden. -/
theorem atOnce_of_handled (hruns : Running u th) (huser : u.rflags &&& rflagsIopl ≠ 0)
    (hprivate : Private hidden u th)
    (hblind : ∀ h, syscallHandlers impl (u.reg .rax) = some h → Blind hidden th h)
    (hentered : Entered u th next e) (hd : Handled (syscallInit impl intHandlers) th e d) :
  ∃ c, atOnce impl u next = some c ∧ Alike hidden c (isrReturn d)
  := by
  have hbound := hruns.bound
  have hroom := hprivate.room
  have hlow : 8 ≤ Thread.offTcb := by decide
  obtain ⟨m', hresult, hmem⟩ := hd.result
  rw [hentered.rdi, intHandler_ofSyscall hentered.words (by omega) rfl] at hresult
  obtain ⟨h, hh, hresult⟩ := Option.bind_eq_some_iff.mp hresult
  obtain ⟨⟨m₁, v⟩, hcall, hreturned⟩ := Option.map_eq_some_iff.mp hresult
  obtain ⟨hm', hrdi⟩ := Prod.mk.inj hreturned
  have hhandler := hblind h hh
  have hseen : ∀ x, ¬ hidden x → u.mem x = e.mem x := by
    intro x hx
    symm
    apply hentered.mem
    · by_contra hin
      exact hx (hprivate.stack x (by omega) (by omega))
    · by_contra hin
      exact hx (hprivate.temp x (by omega) (by omega))
  obtain ⟨m₂, hcall', hm₂⟩ := hhandler.congr hseen hcall
  have hframe : d.mem.Words th.toNat ((Registers.ofSyscall u next).withRax v).words := by
    have hkept : m₁.Words th.toNat (Registers.ofSyscall u next).words :=
      hentered.words.congr fun x hx hx' => hhandler.kept hcall x hx hx'
    have hset : m'.Words th.toNat ((Registers.ofSyscall u next).withRax v).words := by
      rw [← hm']
      exact Registers.words_setRax hkept v
    exact hset.congr fun x hx _ => hmem x (by omega)
  rw [hrdi] at hframe
  have hbound' : (d.reg .rdi).toNat + 176 < 2 ^ 64 := by
    rw [← hrdi]
    omega
  obtain ⟨hreturns, hgs, hkernelGs⟩ := isrReturn_returns hframe hbound' rfl huser
  refine ⟨answered u next m₂ v, ?_, ⟨⟨?_, ?_, ?_, ?_, ?_, ?_⟩, ?_⟩⟩
  · rw [atOnce, hh, Option.bind_some, hcall', Option.map_some]
  · exact hreturns.reg
  · exact hreturns.rip
  · exact hreturns.rflags
  · exact hreturns.user
  · rw [hgs, hd.kernelGs, hentered.kernelGs, answered]
  · rw [hkernelGs, hd.gs, hentered.gs, answered]
  · intro x hx
    have hout : x < th.toNat - Thread.offTcb ∨ th.toNat + 176 ≤ x := by
      by_contra hin
      exact hx (hprivate.stack x (by omega) (by omega))
    rw [isrReturn_mem hframe hbound' rfl (by rw [← hrdi]; omega), hmem x (by omega), ← hm',
      setWord_of_notMem _ _ (by omega)]
    exact (hm₂ x hx).symm

end One

/-! ### Programs with system calls -/

/-- What is seen of a program: its steps, and its calls with what they return.  What goes on while a
call is made, in other threads and in the devices, is in `world`. -/
inductive Event (World : Type*) where
  | step
  | call (world : World) (args : Args) (ret : Word)

section Runs

variable {World : Type*} (impl : World → Syscall.Handler → SyscallHandler)
  (prog : Cpu → Cpu → Prop) (calls : Cpu → Word → Prop)

/-- A program on a processor with interrupts, in the thread `th`.  Its calls are `syscall`
instructions before the address `next`, and go through the kernel. -/
inductive Step (hidden : Nat → Prop) (intHandlers : Word → Option IntHandler)
    (entry mask th : Word) : Cpu → Option (Event World) → Cpu → Prop where
  | step {c c' : Cpu} : prog c c' → Step hidden intHandlers entry mask th c (some .step) c'
  | interrupt {c c' : Cpu} : InterruptStep hidden c c' →
      Step hidden intHandlers entry mask th c none c'
  | call {u d : Cpu} {next : Word} {world : World} : calls u next → u.reg .rax ≠ sysFork →
      u.rflags &&& rflagsIopl ≠ 0 → Running u th → Private hidden u th →
      Handled (syscallInit (impl world) intHandlers) th
        (syscallEntry (syscall entry mask next u)) d →
      Step hidden intHandlers entry mask th u
        (some (.call world (Args.ofCpu u) ((isrReturn d).reg .rax))) (isrReturn d)

/-- A program on a processor without interrupts, where a call is one step. -/
inductive AtOnceStep : Cpu → Option (Event World) → Cpu → Prop where
  | step {c c' : Cpu} : prog c c' → AtOnceStep c (some .step) c'
  | call {u c : Cpu} {next : Word} {world : World} : calls u next →
      atOnce (impl world) u next = some c →
      AtOnceStep u (some (.call world (Args.ofCpu u) (c.reg .rax))) c

variable {impl prog calls} {hidden : Nat → Prop} {intHandlers : Word → Option IntHandler}
  {entry mask th next : Word} {c c₁ c₂ c' u : Cpu}

/-- A call that finds a handler, and is none of `fork`, finds one that is blind. -/
theorem blind_of_found {f : Syscall.Handler → SyscallHandler} {h : SyscallHandler}
    (hblind : ∀ handler, handler ≠ .fork → Blind hidden th (f handler))
    (hfork : u.reg .rax ≠ sysFork) (hh : syscallHandlers f (u.reg .rax) = some h) :
  Blind hidden th h
  := by
  obtain ⟨handler, hhandler, rfl⟩ := Option.map_eq_some_iff.mp hh
  apply hblind
  rintro rfl
  apply hfork
  apply BitVec.eq_of_toNat_eq
  unfold Syscall.syscallHandlers at hhandler
  split at hhandler
  all_goals first | assumption | cases hhandler

/-- A call that is made at once does the same in programs that are alike. -/
theorem atOnce_alike {f : Syscall.Handler → SyscallHandler} (halike : Alike hidden c₁ c₂)
    (hblind : ∀ h, syscallHandlers f (c₁.reg .rax) = some h → Blind hidden th h)
    (h : atOnce f c₁ next = some c) :
  ∃ c', atOnce f c₂ next = some c' ∧ Alike hidden c c'
  := by
  obtain ⟨handler, hfound, hcall⟩ := Option.bind_eq_some_iff.mp h
  obtain ⟨⟨m', v⟩, hhandler, rfl⟩ := Option.map_eq_some_iff.mp hcall
  obtain ⟨m₂', hhandler', hmem⟩ := (hblind handler hfound).congr halike.mem hhandler
  have hreg : c₂.reg = c₁.reg := halike.code.reg
  have hrflags : c₂.rflags = c₁.rflags := halike.code.rflags
  have hargs : Args.ofCpu c₂ = Args.ofCpu c₁ := by rw [Args.ofCpu, Args.ofCpu, hreg]
  have hsaved : Registers.ofSyscall c₂ next = Registers.ofSyscall c₁ next := by
    rw [Registers.ofSyscall, Registers.ofSyscall, hreg, hrflags]
  refine ⟨answered c₂ next m₂' v, ?_, ⟨⟨?_, rfl, ?_, rfl, halike.code.gs, halike.code.kernelGs⟩,
    hmem⟩⟩
  · rw [atOnce, hreg, hfound, Option.bind_some, hargs, hhandler', Option.map_some]
  · simp only [answered, hsaved]
  · simp only [answered, hrflags]

/-- System calls are steps.  A program that is interrupted at any places and makes any calls but
`fork`, each of them through the whole of the kernel's way in and out, shows the same steps and
calls with the same results on a processor without interrupts where each call is one step, and comes
to the same registers, flags, mode and memory. -/
theorem calls_atOnce
    (hprog : ∀ {c₁ c₂ c₁' : Cpu}, Alike hidden c₁ c₂ → prog c₁ c₁' →
      ∃ c₂', prog c₂ c₂' ∧ Alike hidden c₁' c₂')
    (hcalls : ∀ {c₁ c₂ : Cpu} {next : Word}, Alike hidden c₁ c₂ → calls c₁ next → calls c₂ next)
    (hblind : ∀ world handler, handler ≠ .fork → Blind hidden th (impl world handler))
    {es : List (Event World)}
    (h : Trace (Step impl prog calls hidden intHandlers entry mask th) c es c') :
  ∃ c₁, Trace (AtOnceStep impl prog calls) c es c₁ ∧ Alike hidden c₁ c'
  := by
  have hsim : ∀ {s t : Cpu} {o : Option (Event World)} {s' : Cpu}, Alike hidden t s →
      Step impl prog calls hidden intHandlers entry mask th s o s' →
      ∃ t', Trace (AtOnceStep impl prog calls) t o.toList t' ∧ Alike hidden t' s' := by
    intro s t o s' hrel hstep
    cases hstep with
    | step hprogram =>
        obtain ⟨t', ht', halike⟩ := hprog hrel.symm hprogram
        exact ⟨t', Trace.single (.step ht'), halike.symm⟩
    | interrupt hinterrupt => exact ⟨t, .nil t, hrel.trans hinterrupt.alike⟩
    | @call d next world hcall hfork huser hruns hprivate hhandled =>
        have hfound := fun h => @blind_of_found hidden th s (impl world) h (hblind world) hfork
        have hentered := syscallEntry_entered hruns entry mask next huser
        obtain ⟨c₁, hc₁, halike⟩ :=
          atOnce_of_handled hruns huser hprivate hfound hentered hhandled
        obtain ⟨t', ht', halike'⟩ := atOnce_alike hrel.symm hfound hc₁
        have hargs : Args.ofCpu t = Args.ofCpu s := by
          rw [Args.ofCpu, Args.ofCpu, hrel.code.reg]
        have hret : t'.reg .rax = (isrReturn d).reg .rax := by
          rw [halike.code.reg, halike'.code.reg]
        have hstep' : AtOnceStep impl prog calls t (some (.call world (Args.ofCpu t) (t'.reg .rax)))
            t' := .call (hcalls hrel.symm hcall) ht'
        rw [hargs, hret] at hstep'
        exact ⟨t', Trace.single hstep', halike'.symm.trans halike⟩
  exact @Trace.simulate _ _ _ (Step impl prog calls hidden intHandlers entry mask th)
    (AtOnceStep impl prog calls) c c' es (fun c c₁ => Alike hidden c₁ c) hsim h c
    (Alike.refl hidden c)

end Runs

/-! ### A program with a call -/

/-- What the kernel keeps for a processor is not hidden. -/
theorem running_of_alike {hidden : Nat → Prop} {u c : Cpu} {th : Word} (hruns : Running u th)
    (halike : Alike hidden u c)
    (hseen : ∀ x, u.kernelGs.toNat ≤ x → x < u.kernelGs.toNat + 72 →
      x < u.kernelGs.toNat + 56 ∨ u.kernelGs.toNat + 64 ≤ x → ¬ hidden x) :
  Running c th
  := by
  have hinside := hruns.inside
  have hword : ∀ {a : Word} {i : Nat}, a.toNat = u.kernelGs.toNat + i → i + 8 ≤ 72 →
      i + 8 ≤ 56 ∨ 64 ≤ i → c.word a = u.word a := by
    intro a i ha hi hi'
    apply Memory.word_congr
    intro x hx hx'
    exact halike.mem x (hseen x (by omega) (by omega) (by omega))
  have hcurrent : (u.kernelGs + Thread.offCurrentThread).toNat = u.kernelGs.toNat + 64 :=
    toNat_add_of_lt (n := 64) (by omega)
  have hstack : (u.kernelGs + gsOffsetStack).toNat = u.kernelGs.toNat + 48 :=
    toNat_add_of_lt (n := 48) (by omega)
  have hgs := halike.code.kernelGs
  constructor
  · rw [hgs, @hword _ 0 rfl (by omega) (by omega)]
    exact hruns.self
  · rw [hgs, hword hcurrent (by omega) (by omega)]
    exact hruns.current
  · rw [hgs, hword hstack (by omega) (by omega)]
    exact hruns.stack
  · rw [hgs]
    exact hruns.inside
  · exact hruns.room
  · exact hruns.bound
  · rw [hgs]
    exact hruns.apart

/-- A program in the thread at `0x5000` that is to make the call number 5. -/
def callingCpu : Cpu :=
  { forkingCpu with reg := fun r => if r = .rax then 5 else if r = .rsp then 0x700000 else 3 }

/-- The stack and the registers of the thread, the place for the stack pointer of the program, and
the stack for interrupts. -/
def scratch (x : Nat) : Prop :=
  (0x42E8 ≤ x ∧ x < 0x50B0) ∨ (0x1038 ≤ x ∧ x < 0x1040) ∨ (0x7000 ≤ x ∧ x < 0x8000)

/-- A handler that sets a byte to 1 and returns its first argument. -/
def setByte (_ : Unit) (_ : Syscall.Handler) : SyscallHandler := fun m a =>
  some (Function.update m 0x600000 1, a.a1)

theorem setByte_blind (world : Unit) (handler : Syscall.Handler) :
  Blind scratch 0x5000 (setByte world handler)
  := by
  have hth : (0x5000 : Word).toNat = 0x5000 := rfl
  constructor
  · rintro m a m' v h x hx hx'
    obtain ⟨rfl, -⟩ := Prod.mk.inj (Option.some.inj h)
    exact Function.update_of_ne (by omega) _ _
  · rintro m m₁ a m' v hmem h
    obtain ⟨rfl, rfl⟩ := Prod.mk.inj (Option.some.inj h)
    refine ⟨_, rfl, fun x hx => ?_⟩
    by_cases hset : x = 0x600000
    · rw [hset, Function.update_self, Function.update_self]
    · rw [Function.update_of_ne hset, Function.update_of_ne hset, hmem x hx]

/-- The program is at its `syscall`. -/
def atSyscall (u : Cpu) (next : Word) : Prop :=
  u.rip = 0x400000 ∧ next = 0x400002

/-- Any interrupt leaves the program ready for its call. -/
theorem callingCpu_ready {c : Cpu} (h : InterruptStep scratch callingCpu c) :
  Running c 0x5000 ∧ Private scratch c 0x5000
  := by
  have halike := h.alike
  have hgs : callingCpu.kernelGs.toNat = 0x1000 := rfl
  have hth : (0x5000 : Word).toNat = 0x5000 := rfl
  have hoff : Thread.offTcb = 0xD18 := rfl
  have hruns : Running callingCpu 0x5000 :=
    ⟨forkingCpu_running.self, forkingCpu_running.current, forkingCpu_running.stack,
      forkingCpu_running.inside, forkingCpu_running.room, forkingCpu_running.bound,
      forkingCpu_running.apart⟩
  constructor
  · apply running_of_alike hruns halike
    rintro x hx hx' hout (hin | hin | hin)
    all_goals omega
  · constructor
    · rw [hth, hoff]
      omega
    · intro x hx hx'
      exact Or.inl (by omega)
    · rw [halike.code.kernelGs, hgs]
      intro x hx hx'
      exact Or.inr (Or.inl (by omega))

theorem calls_atOnce_callingCpu :
  ∃ c c₁, Trace (Step setByte countUp atSyscall scratch (fun _ => none) 0xC000 0x200 0x5000)
      callingCpu [.call () (Args.ofCpu callingCpu) 3, .step] c
    ∧ Trace (AtOnceStep setByte countUp atSyscall) callingCpu
      [.call () (Args.ofCpu callingCpu) 3, .step] c₁
    ∧ Alike scratch c₁ c
  := by
  have htop : (pageFault.top callingCpu).toNat = 0x8000 := by decide
  have hinterrupt : ∃ u, InterruptStep scratch callingCpu u := by
    have hfits : pageFault.Fits 14 callingCpu :=
      ⟨by decide, iff_of_true rfl (by decide), by decide, by decide, by decide⟩
    refine ⟨_, .mk hfits ?_ ⟨rfl, fun _ _ _ => rfl, rfl, rfl⟩ fun _ _ => rfl⟩
    intro x hx hx'
    exact Or.inr (Or.inr (by omega))
  obtain ⟨u, hu⟩ := hinterrupt
  obtain ⟨hruns, hprivate⟩ := callingCpu_ready hu
  have hreg : u.reg = callingCpu.reg := hu.alike.code.reg
  have huser : u.rflags &&& rflagsIopl ≠ 0 := by
    rw [hu.alike.code.rflags]
    decide
  have hentered := syscallEntry_entered hruns 0xC000 0x200 0x400002 huser
  obtain ⟨e, he⟩ : ∃ e, syscallEntry (syscall 0xC000 0x200 0x400002 u) = e := ⟨_, rfl⟩
  rw [he] at hentered
  have hreturn : intHandler (syscallInit (setByte ()) fun _ => none) e.mem 0x5000
      = some (Memory.setWord (Function.update e.mem 0x600000 1) 0x5000 3, 0x5000) := by
    rw [intHandler_ofSyscall hentered.words (by decide) rfl, hreg]
    have hargs : Args.ofCpu u = Args.ofCpu callingCpu := by rw [Args.ofCpu, Args.ofCpu, hreg]
    rw [hargs]
    rfl
  obtain ⟨d, hd⟩ : ∃ d : Cpu, d = { e with
      mem := Memory.setWord (Function.update e.mem 0x600000 1) 0x5000 3 } := ⟨_, rfl⟩
  have hhandled : Handled (syscallInit (setByte ()) fun _ => none) 0x5000 e d := by
    refine ⟨⟨d.mem, ?_, fun x _ => rfl⟩, ?_, ?_⟩
    · have hrdi : d.reg .rdi = 0x5000 := by
        rw [hd]
        exact hentered.rdi
      rw [hrdi, hentered.rdi, hd]
      exact hreturn
    · rw [hd]
    · rw [hd]
  have hrip : atSyscall u 0x400002 := ⟨hu.alike.code.rip, rfl⟩
  have hfork : u.reg .rax ≠ sysFork := by
    rw [hreg]
    decide
  have hcall : Step setByte countUp atSyscall scratch (fun _ => none) 0xC000 0x200 0x5000 u
      (some (.call () (Args.ofCpu u) ((isrReturn d).reg .rax))) (isrReturn d) :=
    .call hrip hfork huser hruns hprivate (he ▸ hhandled)
  have hret : (isrReturn d).reg .rax = 3 := by
    obtain ⟨c, hc, halike⟩ := atOnce_of_handled hruns huser hprivate
      (fun h => blind_of_found (fun handler _ => setByte_blind () handler) hfork) hentered hhandled
    obtain ⟨h, hh, hc⟩ := Option.bind_eq_some_iff.mp hc
    rw [hreg] at hh
    obtain rfl := Option.some.inj hh
    obtain rfl := Option.some.inj hc
    rw [halike.code.reg]
    exact congrFun hreg .rdi
  rw [hret] at hcall
  have hargs : Args.ofCpu u = Args.ofCpu callingCpu := by rw [Args.ofCpu, Args.ofCpu, hreg]
  rw [hargs] at hcall
  have hrun := Trace.silent (.interrupt hu) (Trace.event hcall
    (Trace.event (.step rfl) (.nil (((isrReturn d).set .rax ((isrReturn d).reg .rax + 1)).jump
      ((isrReturn d).rip + 3)))))
  obtain ⟨c₁, hatOnce, halike⟩ := calls_atOnce countUp_alike
    (fun halike hat => ⟨halike.code.rip.trans hat.1, hat.2⟩)
    (fun world handler _ => setByte_blind world handler) hrun
  exact ⟨_, c₁, hrun, hatOnce, halike⟩

end Isr.Call
