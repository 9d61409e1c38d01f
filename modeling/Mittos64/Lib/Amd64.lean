import Mittos64.Lib.Memory
import Mathlib.Logic.Function.Basic

/-!
# Straight-line AMD64 code

The state of a processor is its general registers, `rip`, `rflags`, the two bases that
`swapgs` exchanges, its mode and the memory it sees.  `exec` is the effect of an
instruction and `execs` that of a block without jumps.  A block that pushes registers
leaves their words on the stack, and a block that pops registers takes its words from
there.  Of the flags that comparisons and arithmetic set, only the zero flag is modelled.
-/

/-- A 64-bit word. -/
abbrev Word : Type := BitVec 64

namespace Memory

/-- The word at an address. -/
def word (m : Memory) (a : Word) : Word :=
  BitVec.ofNat 64 (m.load a.toNat 8)

/-- Write a word at an address. -/
def setWord (m : Memory) (a v : Word) : Memory :=
  m.store a.toNat 8 v.toNat

/-- The memory holds the words `ws`, one after the other, from the address `a` on. -/
def Words (m : Memory) : Nat → List Word → Prop
  | _, [] => True
  | a, w :: ws => m.load a 8 = w.toNat ∧ m.Words (a + 8) ws

instance decidableWords (m : Memory) : ∀ (a : Nat) (ws : List Word), Decidable (m.Words a ws)
  | _, [] => isTrue trivial
  | a, w :: ws =>
      have := m.decidableWords (a + 8) ws
      inferInstanceAs (Decidable (m.load a 8 = w.toNat ∧ m.Words (a + 8) ws))

theorem words_append {m : Memory} {ws' : List Word} :
  ∀ {a : Nat} {ws : List Word},
    m.Words a (ws ++ ws') ↔ m.Words a ws ∧ m.Words (a + 8 * ws.length) ws'
  | a, [] => by
      simp only [List.nil_append, Words, true_and, List.length_nil, Nat.mul_zero, Nat.add_zero]
  | a, w :: ws => by
      have hrest : m.Words (a + 8) (ws ++ ws') ↔
          m.Words (a + 8) ws ∧ m.Words (a + 8 + 8 * ws.length) ws' := words_append
      have haddr : a + 8 * (w :: ws).length = a + 8 + 8 * ws.length := by
        rw [List.length_cons]
        omega
      rw [List.cons_append, Words, hrest, Words, haddr, and_assoc]

theorem words_of_load {m : Memory} :
  ∀ {a : Nat} {ws : List Word},
    (∀ i (hi : i < ws.length), m.load (a + 8 * i) 8 = ws[i].toNat) → m.Words a ws
  | _, [], _ => trivial
  | a, w :: ws, h => by
      constructor
      · exact h 0 (Nat.succ_pos _)
      · apply words_of_load
        intro i hi
        have haddr : a + 8 + 8 * i = a + 8 * (i + 1) := by omega
        rw [haddr, h (i + 1) (Nat.succ_lt_succ hi)]
        rfl

/-- A word of a held block is read back. -/
theorem Words.load {m : Memory} :
  ∀ {a : Nat} {ws : List Word}, m.Words a ws → ∀ {i : Nat} (hi : i < ws.length),
    m.load (a + 8 * i) 8 = ws[i].toNat
  | _, _ :: _, h, 0, _ => h.1
  | a, w :: ws, h, i + 1, hi => by
      have haddr : a + 8 * (i + 1) = a + 8 + 8 * i := by omega
      rw [haddr, h.2.load (Nat.lt_of_succ_lt_succ hi)]
      rfl

/-- Write words at offsets from an address, one after the other. -/
def setFields (m : Memory) (a : Nat) : List (Nat × Word) → Memory
  | [] => m
  | (o, v) :: l => (m.store (a + o) 8 v.toNat).setFields a l

/-- The last word of the list for an offset, or the one that was there before. -/
def field (o : Nat) (w : Nat) : List (Nat × Word) → Nat
  | [] => w
  | (o', v) :: l => field o (if o' = o then v.toNat else w) l

/-- Words are held where their bytes are. -/
theorem Words.shift {m m' : Memory} {a b : Nat} {ws : List Word} (h : m.Words a ws)
    (hsame : ∀ i, i < 8 * ws.length → m' (b + i) = m (a + i)) :
  m'.Words b ws
  := by
  apply words_of_load
  intro i hi
  rw [← h.load hi]
  apply load_shift
  intro j hj
  rw [Nat.add_assoc, Nat.add_assoc]
  exact hsame (8 * i + j) (by omega)

/-- Words are held as long as no byte of them is written to. -/
theorem Words.congr {m m' : Memory} {a : Nat} {ws : List Word} (h : m.Words a ws)
    (hsame : ∀ x, a ≤ x → x < a + 8 * ws.length → m' x = m x) :
  m'.Words a ws
  := by
  apply h.shift
  intro i hi
  exact hsame (a + i) (Nat.le_add_right a i) (Nat.add_lt_add_left hi a)

/-- A word depends only on its own bytes. -/
theorem word_congr {m m' : Memory} {a : Word}
    (h : ∀ x, a.toNat ≤ x → x < a.toNat + 8 → m' x = m x) :
  m'.word a = m.word a
  := by
  rw [word, word, load_congr h]

theorem word_eq_of_load {m : Memory} {a w : Word} (h : m.load a.toNat 8 = w.toNat) :
  m.word a = w
  := by
  rw [word, h, BitVec.ofNat_toNat, BitVec.setWidth_eq]

theorem load_store_word (m : Memory) (a : Nat) (v : Word) :
  (m.store a 8 v.toNat).load a 8 = v.toNat
  := by
  rw [load_store]
  exact Nat.mod_eq_of_lt v.isLt

/-- The first word of a block is written. -/
theorem Words.setFirst {m : Memory} {a : Nat} {w : Word} {ws : List Word} (h : m.Words a (w :: ws))
    (v : Word) :
  (m.store a 8 v.toNat).Words a (v :: ws)
  := by
  constructor
  · exact m.load_store_word a v
  · apply h.2.congr
    intro x hx _
    exact store_of_notMem _ _ (by omega)

/-- A field has the last word written to it. -/
theorem load_setFields {a o : Nat} :
  ∀ {m : Memory} {l : List (Nat × Word)},
    (∀ p ∈ l, p.1 = o ∨ p.1 + 8 ≤ o ∨ o + 8 ≤ p.1) →
    (m.setFields a l).load (a + o) 8 = field o (m.load (a + o) 8) l
  | _, [], _ => rfl
  | m, (o', v) :: l, h => by
      have hrest : ∀ p ∈ l, p.1 = o ∨ p.1 + 8 ≤ o ∨ o + 8 ≤ p.1 :=
        fun p hp => h p (List.mem_cons_of_mem _ hp)
      rw [setFields, load_setFields hrest, field]
      apply congrArg fun v => field o v l
      split_ifs with ho
      · rw [ho, load_store_word]
      · have hapart := h (o', v) List.mem_cons_self
        simp only [ho, false_or] at hapart
        exact load_store_of_disjoint m _ (by omega)

/-- Bytes outside the fields are kept. -/
theorem setFields_of_notMem {a x : Nat} :
  ∀ {m : Memory} {l : List (Nat × Word)},
    (∀ p ∈ l, x < a + p.1 ∨ a + p.1 + 8 ≤ x) → (m.setFields a l) x = m x
  | _, [], _ => rfl
  | m, (o, v) :: l, h => by
      have hfirst : x < a + o ∨ a + o + 8 ≤ x := h (o, v) List.mem_cons_self
      have hrest : ∀ p ∈ l, x < a + p.1 ∨ a + p.1 + 8 ≤ x :=
        fun p hp => h p (List.mem_cons_of_mem _ hp)
      rw [setFields, setFields_of_notMem hrest, store_of_notMem m _ hfirst]

end Memory

namespace Amd64

/-- The general registers. -/
inductive Reg where
  | rax | rbx | rcx | rdx | rsi | rdi | rbp | rsp
  | r8 | r9 | r10 | r11 | r12 | r13 | r14 | r15
  deriving DecidableEq, Repr

/-- The state of a processor and the memory it sees. -/
structure Cpu where
  reg : Reg → Word
  rip : Word
  rflags : Word
  gs : Word
  kernelGs : Word
  user : Bool
  mem : Memory

namespace Cpu

/-- The word at an address. -/
def word (c : Cpu) (a : Word) : Word :=
  c.mem.word a

/-- Write a word at an address. -/
def setWord (c : Cpu) (a v : Word) : Cpu :=
  { c with mem := c.mem.setWord a v }

/-- Write a register. -/
def set (c : Cpu) (r : Reg) (v : Word) : Cpu :=
  { c with reg := Function.update c.reg r v }

/-- Write all registers. -/
def withRegs (c : Cpu) (f : Reg → Word) : Cpu :=
  { c with reg := f }

/-- Write the address of the next instruction. -/
def jump (c : Cpu) (a : Word) : Cpu :=
  { c with rip := a }

/-- The zero flag. -/
def zero (c : Cpu) : Bool :=
  c.rflags.getLsbD 6

/-- Set or clear the zero flag. -/
def setZero (c : Cpu) (z : Bool) : Cpu :=
  { c with rflags := if z then c.rflags ||| 0x40 else c.rflags &&& ~~~0x40 }

/-- Put a word on the stack. -/
def push (c : Cpu) (v : Word) : Cpu :=
  (c.setWord (c.reg .rsp - 8) v).set .rsp (c.reg .rsp - 8)

/-- The word on top of the stack. -/
def top (c : Cpu) : Word :=
  c.word (c.reg .rsp)

/-- Take a word off the stack. -/
def drop (c : Cpu) : Cpu :=
  c.set .rsp (c.reg .rsp + 8)

/-- Put words on the stack, one after the other. -/
def pushes (c : Cpu) (vs : List Word) : Cpu :=
  vs.foldl push c

end Cpu

/-- The instructions.  `load d b i` is `mov d, [b + i]`, `store b i s` is `mov [b + i], s`,
and the forms with `Gs` address `[gs:i]`. -/
inductive Instr where
  | push (r : Reg)
  | pushImm (v : Word)
  | pushGs (i : Word)
  | pop (r : Reg)
  | popf
  | mov (d s : Reg)
  | load (d b : Reg) (i : Word)
  | store (b : Reg) (i : Word) (s : Reg)
  | loadGs (d : Reg) (i : Word)
  | storeGs (i : Word) (s : Reg)
  | cmp (r : Reg) (v : Word)
  | and (r : Reg) (v : Word)
  | add (r : Reg) (v : Word)
  | leave
  | ret
  | swapgs
  | sysret
  | iret
  deriving DecidableEq, Repr

/-- The flags that `popf` loads in kernel mode. -/
def popfMask : Word :=
  0x247FD5

/-- The flags that `sysret` loads. -/
def sysretMask : Word :=
  0x3C7FD7

/-- The flags that `iretq` loads. -/
def iretMask : Word :=
  0x3D7FD5

open Cpu in
/-- The effect of an instruction. -/
def exec (c : Cpu) : Instr → Cpu
  | .push r => c.push (c.reg r)
  | .pushImm v => c.push v
  | .pushGs i => c.push (c.word (c.gs + i))
  | .pop r => c.drop.set r c.top
  | .popf => { c.drop with rflags := (c.top &&& popfMask) ||| 2 }
  | .mov d s => c.set d (c.reg s)
  | .load d b i => c.set d (c.word (c.reg b + i))
  | .store b i s => c.setWord (c.reg b + i) (c.reg s)
  | .loadGs d i => c.set d (c.word (c.gs + i))
  | .storeGs i s => c.setWord (c.gs + i) (c.reg s)
  | .cmp r v => c.setZero (c.reg r == v)
  | .and r v => (c.set r (c.reg r &&& v)).setZero (c.reg r &&& v == 0)
  | .add r v => (c.set r (c.reg r + v)).setZero (c.reg r + v == 0)
  | .leave => ((c.set .rsp (c.reg .rbp)).drop).set .rbp (c.set .rsp (c.reg .rbp)).top
  | .ret => c.drop.jump c.top
  | .swapgs => { c with gs := c.kernelGs, kernelGs := c.gs }
  | .sysret =>
      { c with
        rip := c.reg .rcx
        rflags := (c.reg .r11 &&& sysretMask) ||| 2
        user := true }
  | .iret =>
      { c.set .rsp (c.word (c.reg .rsp + 24)) with
        rip := c.top
        rflags := (c.word (c.reg .rsp + 16) &&& iretMask) ||| 2
        user := c.word (c.reg .rsp + 8) &&& 3 == 3 }

/-- The effect of a block. -/
def execs (c : Cpu) (is : List Instr) : Cpu :=
  is.foldl exec c

/-- `syscall`, whose successor is at `next`: control passes to the kernel's entry point. -/
def syscall (entry mask next : Word) (c : Cpu) : Cpu :=
  { (c.set .rcx next).set .r11 c.rflags with
    rip := entry
    rflags := c.rflags &&& ~~~mask
    user := false }

theorem execs_cons (c : Cpu) (i : Instr) (is : List Instr) :
  execs c (i :: is) = execs (exec c i) is
  := rfl

theorem execs_append (c : Cpu) (is js : List Instr) :
  execs c (is ++ js) = execs (execs c is) js
  := by
  rw [execs, List.foldl_append]
  rfl

@[simp]
theorem Cpu.set_reg_self (c : Cpu) (r : Reg) (v : Word) :
  (c.set r v).reg r = v
  := by
  simp only [set, Function.update_self]

@[simp]
theorem Cpu.set_reg_of_ne (c : Cpu) {r r' : Reg} (v : Word) (h : r' ≠ r) :
  (c.set r v).reg r' = c.reg r'
  := by
  simp only [set, Function.update_of_ne h]

theorem Cpu.set_set (c : Cpu) (r : Reg) (v v' : Word) :
  (c.set r v).set r v' = c.set r v'
  := by
  simp only [set, Function.update_idem]

@[simp]
theorem Cpu.withRegs_reg (c : Cpu) (f : Reg → Word) :
  (c.withRegs f).reg = f
  := rfl

@[simp]
theorem Cpu.withRegs_mem (c : Cpu) (f : Reg → Word) :
  (c.withRegs f).mem = c.mem
  := rfl

theorem Cpu.withRegs_set (c : Cpu) (f : Reg → Word) (r : Reg) (v : Word) :
  (c.withRegs f).set r v = c.withRegs (Function.update f r v)
  := rfl

@[simp]
theorem exec_swapgs_reg (c : Cpu) :
  (exec c .swapgs).reg = c.reg
  := rfl

@[simp]
theorem exec_swapgs_mem (c : Cpu) :
  (exec c .swapgs).mem = c.mem
  := rfl

@[simp]
theorem exec_swapgs_gs (c : Cpu) :
  (exec c .swapgs).gs = c.kernelGs
  := rfl

@[simp]
theorem exec_swapgs_kernelGs (c : Cpu) :
  (exec c .swapgs).kernelGs = c.gs
  := rfl

/-- A word that does not meet the written one is kept. -/
theorem Cpu.setWord_word (c : Cpu) {a b : Word} (v : Word)
    (h : b.toNat + 8 ≤ a.toNat ∨ a.toNat + 8 ≤ b.toNat) :
  (c.setWord a v).word b = c.word b
  := by
  apply Memory.word_congr
  intro x hx hx'
  exact Memory.store_of_notMem c.mem v.toNat (by omega)

@[simp]
theorem Cpu.setWord_word_self (c : Cpu) (a v : Word) :
  (c.setWord a v).word a = v
  := by
  exact Memory.word_eq_of_load (c.mem.load_store_word a.toNat v)

/-! ### The zero flag -/

@[simp]
theorem Cpu.setZero_zero (c : Cpu) (z : Bool) :
  (c.setZero z).zero = z
  := by
  cases z with
  | true =>
      rw [Cpu.zero, Cpu.setZero, if_pos rfl, BitVec.getLsbD_or]
      exact Bool.or_true _
  | false =>
      rw [Cpu.zero, Cpu.setZero, if_neg Bool.false_ne_true, BitVec.getLsbD_and]
      exact Bool.and_false _

@[simp]
theorem Cpu.setZero_reg (c : Cpu) (z : Bool) :
  (c.setZero z).reg = c.reg
  := rfl

@[simp]
theorem Cpu.setZero_mem (c : Cpu) (z : Bool) :
  (c.setZero z).mem = c.mem
  := rfl

/-! ### Pushing -/

theorem toNat_sub_of_le {a : Word} {n : Nat} (h : n ≤ a.toNat) :
  (a - BitVec.ofNat 64 n).toNat = a.toNat - n
  := by
  have := a.isLt
  have hn : n % 2 ^ 64 = n := Nat.mod_eq_of_lt (by omega)
  rw [BitVec.toNat_sub, BitVec.toNat_ofNat, hn]
  omega

theorem toNat_add_of_lt {a : Word} {n : Nat} (h : a.toNat + n < 2 ^ 64) :
  (a + BitVec.ofNat 64 n).toNat = a.toNat + n
  := by
  rw [BitVec.toNat_add, BitVec.toNat_ofNat, Nat.mod_eq_of_lt (by omega : n < 2 ^ 64),
    Nat.mod_eq_of_lt h]

theorem Cpu.push_reg_of_ne (c : Cpu) (v : Word) {r : Reg} (h : r ≠ .rsp) :
  (c.push v).reg r = c.reg r
  := Cpu.set_reg_of_ne _ _ h

theorem Cpu.push_rsp (c : Cpu) (v : Word) :
  (c.push v).reg .rsp = c.reg .rsp - 8
  := Cpu.set_reg_self _ _ _

theorem Cpu.push_rsp_toNat {c : Cpu} (h : 8 ≤ (c.reg .rsp).toNat) (v : Word) :
  ((c.push v).reg .rsp).toNat = (c.reg .rsp).toNat - 8
  := by
  rw [push_rsp]
  exact toNat_sub_of_le h

theorem Cpu.push_mem {c : Cpu} (h : 8 ≤ (c.reg .rsp).toNat) (v : Word) :
  (c.push v).mem = c.mem.store ((c.reg .rsp).toNat - 8) 8 v.toNat
  := by
  have haddr : (c.reg .rsp - 8).toNat = (c.reg .rsp).toNat - 8 := toNat_sub_of_le h
  rw [← haddr]
  rfl

/-- A pushed word is on top of the words that were there. -/
theorem Cpu.push_words {c : Cpu} (h : 8 ≤ (c.reg .rsp).toNat) (v : Word) {ws : List Word}
    (hw : c.mem.Words (c.reg .rsp).toNat ws) :
  (c.push v).mem.Words ((c.push v).reg .rsp).toNat (v :: ws)
  := by
  rw [push_mem h, push_rsp_toNat h]
  constructor
  · exact c.mem.load_store_word _ v
  · rw [Nat.sub_add_cancel h]
    apply hw.congr
    intro x hx _
    exact Memory.store_of_notMem _ _ (by omega)

/-- A push changes only the bytes of its word. -/
theorem Cpu.push_mem_of_notMem {c : Cpu} (h : 8 ≤ (c.reg .rsp).toNat) (v : Word) {x : Nat}
    (hx : x < (c.reg .rsp).toNat - 8 ∨ (c.reg .rsp).toNat ≤ x) :
  (c.push v).mem x = c.mem x
  := by
  rw [push_mem h]
  exact Memory.store_of_notMem _ _ (by omega)

theorem Cpu.pushes_cons (c : Cpu) (v : Word) (vs : List Word) :
  c.pushes (v :: vs) = (c.push v).pushes vs
  := rfl

theorem Cpu.pushes_reg_of_ne {r : Reg} (h : r ≠ .rsp) :
  ∀ (c : Cpu) (vs : List Word), (c.pushes vs).reg r = c.reg r
  | _, [] => rfl
  | c, v :: vs => by
      rw [pushes_cons, pushes_reg_of_ne h, push_reg_of_ne c v h]

theorem Cpu.pushes_gs :
  ∀ (c : Cpu) (vs : List Word), (c.pushes vs).gs = c.gs
  | _, [] => rfl
  | c, v :: vs => pushes_gs (c.push v) vs

theorem Cpu.pushes_kernelGs :
  ∀ (c : Cpu) (vs : List Word), (c.pushes vs).kernelGs = c.kernelGs
  | _, [] => rfl
  | c, v :: vs => pushes_kernelGs (c.push v) vs

theorem Cpu.pushes_user :
  ∀ (c : Cpu) (vs : List Word), (c.pushes vs).user = c.user
  | _, [] => rfl
  | c, v :: vs => pushes_user (c.push v) vs

theorem Cpu.pushes_append (c : Cpu) (vs ws : List Word) :
  c.pushes (vs ++ ws) = (c.pushes vs).pushes ws
  := by
  rw [pushes, List.foldl_append]
  rfl

/-- Pushes depend on the registers and the memory only. -/
theorem Cpu.pushes_congr :
  ∀ {c c' : Cpu} (vs : List Word), c'.reg = c.reg → c'.mem = c.mem →
    (c'.pushes vs).reg = (c.pushes vs).reg ∧ (c'.pushes vs).mem = (c.pushes vs).mem
  | _, _, [], hreg, hmem => ⟨hreg, hmem⟩
  | c, c', v :: vs, hreg, hmem => by
      apply pushes_congr vs
      · rw [push, push, set, set, hreg]
        exact congrArg (fun f => Function.update f _ _) hreg
      · have hstored : (c'.push v).mem = c'.mem.setWord (c'.reg .rsp - 8) v := rfl
        rw [hstored, hreg, hmem]
        rfl

theorem Cpu.pushes_rsp_toNat :
  ∀ {c : Cpu} {vs : List Word}, 8 * vs.length ≤ (c.reg .rsp).toNat →
    ((c.pushes vs).reg .rsp).toNat = (c.reg .rsp).toNat - 8 * vs.length
  | _, [], _ => rfl
  | c, v :: vs, h => by
      rw [List.length_cons] at h ⊢
      have hpush := push_rsp_toNat (by omega : 8 ≤ (c.reg .rsp).toNat) v
      rw [pushes_cons, pushes_rsp_toNat (by omega), hpush]
      omega

/-- Pushed words are on the stack, the last one on top. -/
theorem Cpu.pushes_words :
  ∀ {c : Cpu} {vs ws : List Word}, 8 * vs.length ≤ (c.reg .rsp).toNat →
    c.mem.Words (c.reg .rsp).toNat ws →
    (c.pushes vs).mem.Words ((c.pushes vs).reg .rsp).toNat (vs.reverse ++ ws)
  | _, [], _, _, hw => hw
  | c, v :: vs, ws, h, hw => by
      rw [List.length_cons] at h
      have h8 : 8 ≤ (c.reg .rsp).toNat := by omega
      have hpush := push_rsp_toNat h8 v
      rw [pushes_cons, List.reverse_cons, List.append_assoc]
      apply pushes_words (by omega)
      exact push_words h8 v hw

/-- Pushes change only the bytes of their words. -/
theorem Cpu.pushes_mem_of_notMem :
  ∀ {c : Cpu} {vs : List Word}, 8 * vs.length ≤ (c.reg .rsp).toNat → ∀ {x : Nat},
    x < (c.reg .rsp).toNat - 8 * vs.length ∨ (c.reg .rsp).toNat ≤ x →
    (c.pushes vs).mem x = c.mem x
  | _, [], _, _, _ => rfl
  | c, v :: vs, h, x, hx => by
      rw [List.length_cons] at h hx
      have h8 : 8 ≤ (c.reg .rsp).toNat := by omega
      have hpush := push_rsp_toNat h8 v
      rw [pushes_cons, pushes_mem_of_notMem (by omega) (by omega),
        push_mem_of_notMem h8 v (by omega)]

/-- A block that pushes registers puts their values on the stack. -/
theorem execs_push :
  ∀ {c : Cpu} {rs : List Reg}, .rsp ∉ rs → execs c (rs.map .push) = c.pushes (rs.map c.reg)
  | _, [], _ => rfl
  | c, r :: rs, h => by
      have hsame : rs.map (c.push (c.reg r)).reg = rs.map c.reg := by
        apply List.map_congr_left
        intro r' hr'
        apply Cpu.push_reg_of_ne
        rintro rfl
        exact h (List.mem_cons_of_mem r hr')
      have hrest : .rsp ∉ rs := fun hr => h (List.mem_cons_of_mem r hr)
      rw [List.map_cons, List.map_cons, execs_cons, exec, execs_push hrest, hsame,
        Cpu.pushes_cons]

/-! ### The words on the stack -/

/-- The words `ws` are on the stack, the first one on top. -/
structure Cpu.Stack (c : Cpu) (ws : List Word) : Prop where
  words : c.mem.Words (c.reg .rsp).toNat ws
  bound : (c.reg .rsp).toNat + 8 * ws.length < 2 ^ 64

/-- A word of a block is read at its offset. -/
theorem Cpu.word_of_words {c : Cpu} {a : Word} {ws : List Word} (hw : c.mem.Words a.toNat ws)
    (hbound : a.toNat + 8 * ws.length < 2 ^ 64) {i : Nat} (hi : i < ws.length) :
  c.word (a + BitVec.ofNat 64 (8 * i)) = ws[i]
  := by
  apply Memory.word_eq_of_load
  rw [toNat_add_of_lt (by omega), hw.load hi]

theorem Cpu.Stack.push {c : Cpu} {ws : List Word} (h : c.Stack ws) (h8 : 8 ≤ (c.reg .rsp).toNat)
    (v : Word) :
  (c.push v).Stack (v :: ws)
  := by
  have hbound := h.bound
  constructor
  · exact push_words h8 v h.words
  · rw [push_rsp_toNat h8, List.length_cons]
    omega

theorem Cpu.Stack.pushes {c : Cpu} {vs ws : List Word} (h : c.Stack ws)
    (hroom : 8 * vs.length ≤ (c.reg .rsp).toNat) :
  (c.pushes vs).Stack (vs.reverse ++ ws)
  := by
  have hbound := h.bound
  constructor
  · exact pushes_words hroom h.words
  · rw [pushes_rsp_toNat hroom, List.length_append, List.length_reverse]
    omega

/-- Moving the stack pointer up takes words off the stack. -/
theorem Cpu.Stack.drop {c c' : Cpu} {vs ws : List Word} (h : c.Stack (vs ++ ws))
    (hmem : c'.mem = c.mem)
    (hrsp : c'.reg .rsp = c.reg .rsp + BitVec.ofNat 64 (8 * vs.length)) :
  c'.Stack ws
  := by
  have hbound := h.bound
  rw [List.length_append] at hbound
  have hnat : (c'.reg .rsp).toNat = (c.reg .rsp).toNat + 8 * vs.length := by
    rw [hrsp]
    exact toNat_add_of_lt (by omega)
  constructor
  · rw [hmem, hnat]
    exact (Memory.words_append.mp h.words).2
  · rw [hnat]
    omega

/-- The stack is kept by what changes neither the memory nor the stack pointer. -/
theorem Cpu.Stack.congr {c c' : Cpu} {ws : List Word} (h : c.Stack ws) (hmem : c'.mem = c.mem)
    (hrsp : c'.reg .rsp = c.reg .rsp) :
  c'.Stack ws
  := by
  constructor
  · rw [hmem, hrsp]
    exact h.words
  · rw [hrsp]
    exact h.bound

/-! ### Popping -/

/-- The registers after the words of the list have been written to them. -/
def assign (f : Reg → Word) : List (Reg × Word) → Reg → Word
  | [] => f
  | (r, v) :: l => assign (Function.update f r v) l

theorem update_assign_congr {f g : Reg → Word} {r₀ : Reg} (v₀ : Word)
    (h : ∀ r, r ≠ r₀ → f r = g r) :
  ∀ l : List (Reg × Word),
    Function.update (assign f l) r₀ v₀ = Function.update (assign g l) r₀ v₀
  | [] => by
      funext r
      by_cases hr : r = r₀
      · rw [hr, Function.update_self, Function.update_self]
      · rw [Function.update_of_ne hr, Function.update_of_ne hr]
        exact h r hr
  | (r', v') :: l => by
      apply update_assign_congr v₀ _ l
      intro r hr
      by_cases hr' : r = r'
      · rw [hr', Function.update_self, Function.update_self]
      · rw [Function.update_of_ne hr', Function.update_of_ne hr']
        exact h r hr

theorem Cpu.top_eq {c : Cpu} {w : Word} {ws : List Word}
    (h : c.mem.Words (c.reg .rsp).toNat (w :: ws)) :
  c.top = w
  := by
  exact Memory.word_eq_of_load h.1

/-- A block that pops registers loads them with the words on the stack. -/
theorem execs_pop :
  ∀ {c : Cpu} {rs : List Reg} {ws : List Word}, .rsp ∉ rs → rs.length = ws.length →
    c.mem.Words (c.reg .rsp).toNat ws → (c.reg .rsp).toNat + 8 * ws.length < 2 ^ 64 →
    execs c (rs.map .pop) =
      c.withRegs (Function.update (assign c.reg (rs.zip ws)) .rsp
        (c.reg .rsp + BitVec.ofNat 64 (8 * ws.length)))
  | c, [], [], _, _, _, _ => by
      rw [List.length_nil, Nat.mul_zero, BitVec.add_zero, List.zip_nil_left, assign,
        Function.update_eq_self]
      rfl
  | c, r :: rs, w :: ws, hrsp, hlen, hw, hbound => by
      rw [List.length_cons] at hbound
      have hne : r ≠ .rsp := fun hr => hrsp (hr ▸ List.mem_cons_self)
      have hrest : .rsp ∉ rs := fun hr => hrsp (List.mem_cons_of_mem r hr)
      have hstep : (c.drop.set r w).reg .rsp = c.reg .rsp + BitVec.ofNat 64 8 := by
        rw [Cpu.set_reg_of_ne _ _ hne.symm, Cpu.drop, Cpu.set_reg_self]
        rfl
      have hnat : ((c.drop.set r w).reg .rsp).toNat = (c.reg .rsp).toNat + 8 := by
        rw [hstep]
        exact toNat_add_of_lt (by omega)
      have hwords : (c.drop.set r w).mem.Words ((c.drop.set r w).reg .rsp).toNat ws := by
        rw [hnat]
        exact hw.2
      have hind := @execs_pop (c.drop.set r w) rs ws hrest (Nat.succ.inj hlen) hwords (by omega)
      have hsum : c.reg .rsp + BitVec.ofNat 64 8 + BitVec.ofNat 64 (8 * ws.length) =
          c.reg .rsp + BitVec.ofNat 64 (8 * (w :: ws).length) := by
        rw [BitVec.add_assoc, ← BitVec.ofNat_add, List.length_cons, Nat.mul_succ, Nat.add_comm 8]
      have hregs : Function.update (assign (c.drop.set r w).reg (rs.zip ws)) .rsp
            (c.reg .rsp + BitVec.ofNat 64 (8 * (w :: ws).length)) =
          Function.update (assign (Function.update c.reg r w) (rs.zip ws)) .rsp
            (c.reg .rsp + BitVec.ofNat 64 (8 * (w :: ws).length)) := by
        apply update_assign_congr
        intro r' hr'
        by_cases hr : r' = r
        · rw [hr, Function.update_self, Cpu.set_reg_self]
        · rw [Function.update_of_ne hr, Cpu.set_reg_of_ne _ _ hr, Cpu.drop,
            Cpu.set_reg_of_ne _ _ hr']
      rw [List.map_cons, execs_cons, exec, Cpu.top_eq hw, hind, hstep, hsum, hregs]
      rfl

theorem exec_pop {c : Cpu} (r : Reg) {w : Word} {ws : List Word} (h : c.Stack (w :: ws)) :
  exec c (.pop r) = (c.set .rsp (c.reg .rsp + 8)).set r w
  := by
  rw [exec, Cpu.top_eq h.words, Cpu.drop]

theorem Cpu.Stack.pop {c : Cpu} {r : Reg} (hr : r ≠ .rsp) {w : Word} {ws : List Word}
    (h : c.Stack (w :: ws)) :
  (exec c (.pop r)).Stack ws
  := by
  rw [exec_pop r h]
  apply @Cpu.Stack.drop c _ [w] ws h
  · rfl
  · rw [Cpu.set_reg_of_ne _ _ hr.symm, Cpu.set_reg_self]
    rfl

theorem exec_ret {c : Cpu} {w : Word} {ws : List Word}
    (h : c.mem.Words (c.reg .rsp).toNat (w :: ws)) :
  exec c .ret = (c.set .rsp (c.reg .rsp + 8)).jump w
  := by
  rw [exec, Cpu.top_eq h, Cpu.drop]

theorem exec_leave {c : Cpu} {w : Word} {ws : List Word}
    (h : c.mem.Words (c.reg .rbp).toNat (w :: ws)) :
  exec c .leave = (c.set .rsp (c.reg .rbp + 8)).set .rbp w
  := by
  have htop : (c.set .rsp (c.reg .rbp)).top = w := by
    apply Cpu.top_eq
    rw [Cpu.set_reg_self]
    exact h
  have hdrop : (c.set .rsp (c.reg .rbp)).drop = c.set .rsp (c.reg .rbp + 8) := by
    rw [Cpu.drop, Cpu.set_reg_self, Cpu.set_set]
  rw [exec, htop, hdrop]

theorem exec_push_popf_mem (c : Cpu) (v : Word) :
  (exec (exec c (.pushImm v)) .popf).mem = (c.push v).mem
  := rfl

theorem exec_push_popf_gs (c : Cpu) (v : Word) :
  (exec (exec c (.pushImm v)) .popf).gs = c.gs
  := rfl

theorem exec_push_popf_kernelGs (c : Cpu) (v : Word) :
  (exec (exec c (.pushImm v)) .popf).kernelGs = c.kernelGs
  := rfl

/-- Loading the flags through the stack keeps the registers. -/
theorem exec_push_popf_reg (c : Cpu) (v : Word) :
  (exec (exec c (.pushImm v)) .popf).reg = c.reg
  := by
  have hrsp : c.reg .rsp - 8 + 8 = c.reg .rsp := BitVec.sub_add_cancel (c.reg .rsp) 8
  have hdrop : (exec (exec c (.pushImm v)) .popf).reg = ((c.push v).drop).reg := rfl
  rw [hdrop, Cpu.drop, Cpu.push_rsp, hrsp]
  funext r
  by_cases hr : r = .rsp
  · rw [hr, Cpu.set_reg_self]
  · rw [Cpu.set_reg_of_ne _ _ hr, Cpu.push_reg_of_ne _ _ hr]

end Amd64
