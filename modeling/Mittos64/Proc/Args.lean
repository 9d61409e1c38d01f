import Mittos64.Proc.Elf

/-!
# The block of the arguments

What `exec_elf` writes before the break, on the memory of the process alone: an array of pointers
to the arguments, an array of pointers to the environment, a vector, and behind them the strings,
one after the other.  The strings are read back through the pointers.
-/

namespace Procmm

open Mem

/-! ### Strings behind one another -/

/-- The address of the string number `i`, when the first one is at `pos`. -/
def stringAddr (pos : Nat) (strs : List (List UInt8)) (i : Nat) : Nat :=
  pos + stringsLength (strs.take i)

/-- The memory after the strings have been copied to `pos` and their addresses to `array`. -/
def putStrings : Memory → Nat → Nat → List (List UInt8) → Memory
  | v, _, _, [] => v
  | v, array, pos, str :: strs =>
      putStrings ((v.write array (pointerBytes pos)).write pos (str ++ [0])) (array + 8)
        (pos + (str.length + 1)) strs

/-- The strings are at `pos`, and the words at `array` are their addresses. -/
def Strings (v : Memory) (array pos : Nat) (strs : List (List UInt8)) : Prop :=
  ∀ i, (h : i < strs.length) → v.load (array + 8 * i) 8 = stringAddr pos strs i
    ∧ v.read (stringAddr pos strs i) (strs[i].length + 1) = strs[i] ++ [0]

section Strings

variable {v : Memory} {array pos : Nat} {str : List UInt8} {strs : List (List UInt8)}

theorem stringsLength_cons :
  stringsLength (str :: strs) = str.length + 1 + stringsLength strs
  := by
  rw [stringsLength, stringsLength, List.map_cons, List.sum_cons]

theorem stringsLength_append (strs' : List (List UInt8)) :
  stringsLength (strs ++ strs') = stringsLength strs + stringsLength strs'
  := by
  rw [stringsLength, List.map_append, List.sum_append, ← stringsLength, ← stringsLength]

theorem stringAddr_zero :
  stringAddr pos strs 0 = pos
  := rfl

theorem stringAddr_succ (i : Nat) :
  stringAddr pos (str :: strs) (i + 1) = stringAddr (pos + (str.length + 1)) strs i
  := by
  rw [stringAddr, stringAddr, List.take_succ_cons, stringsLength_cons, ← Nat.add_assoc]

/-- The next string starts behind the final zero. -/
theorem stringAddr_next {i : Nat} (h : i < strs.length) :
  stringAddr pos strs (i + 1) = stringAddr pos strs i + (strs[i].length + 1)
  := by
  rw [stringAddr, stringAddr, List.take_succ_eq_append_getElem h, stringsLength_append, ← Nat.add_assoc]
  rfl

theorem stringAddr_mono {i j : Nat} (h : i ≤ j) :
  stringAddr pos strs i ≤ stringAddr pos strs j
  := by
  rw [stringAddr, stringAddr]
  apply Nat.add_le_add_left
  have hsplit : strs.take j = strs.take i ++ (strs.take j).drop i := by
    have htake := List.take_append_drop i (strs.take j)
    rw [List.take_take, Nat.min_eq_left h] at htake
    exact htake.symm
  rw [hsplit, stringsLength_append]
  exact Nat.le_add_right _ _

/-- The last string ends with the block. -/
theorem stringAddr_le (i : Nat) :
  stringAddr pos strs i ≤ pos + stringsLength strs
  := by
  have hall := congrArg stringsLength (List.take_append_drop i strs)
  rw [stringsLength_append] at hall
  rw [stringAddr]
  omega

/-- The strings do not meet. -/
theorem stringAddr_lt {i j : Nat} (hij : i < j) (hj : j ≤ strs.length) :
  stringAddr pos strs i + (strs[i].length + 1) ≤ stringAddr pos strs j
  := by
  rw [← stringAddr_next (by omega)]
  exact stringAddr_mono hij

/-- The bytes that are not written. -/
theorem putStrings_of_notMem {x : Nat} (hx : x < array ∨ array + 8 * strs.length ≤ x)
    (hx' : x < pos ∨ pos + stringsLength strs ≤ x) :
  putStrings v array pos strs x = v x
  := by
  induction strs generalizing v array pos with
  | nil => rfl
  | cons str strs ih =>
      rw [stringsLength_cons] at hx'
      rw [List.length_cons] at hx
      rw [putStrings, ih (by omega) (by omega), Memory.write_of_notMem, Memory.write_of_notMem]
      · rw [pointerBytes, List.length_map, List.length_range]
        omega
      · rw [List.length_append, List.length_singleton]
        omega

/-- A pointer is read back. -/
theorem load_pointer (v : Memory) (a : Nat) {p : Nat} (hp : p < 2 ^ 64) :
  (v.write a (pointerBytes p)).load a 8 = p
  := by
  rw [Memory.load_eq_of_bytes]
  · exact Nat.mod_eq_of_lt hp
  · intro i hi
    rw [Memory.write_apply_of_lt]
    · simp [pointerBytes]
    · rw [pointerBytes, List.length_map, List.length_range]
      exact hi

/-- A block is read back. -/
theorem read_write (v : Memory) (a : Nat) (l : List UInt8) :
  (v.write a l).read a l.length = l
  := by
  apply List.ext_getElem
  · rw [Memory.read_length]
  · intro i hi hi'
    rw [Memory.read_getElem, Memory.write_apply_of_lt v hi']

/-- The strings are read back through their pointers. -/
theorem putStrings_spec (harray : array + 8 * strs.length ≤ pos)
    (hlt : pos + stringsLength strs < 2 ^ 64) :
  Strings (putStrings v array pos strs) array pos strs
  := by
  induction strs generalizing v array pos with
  | nil => exact fun i hi => absurd hi (Nat.not_lt_zero i)
  | cons str strs ih =>
      rw [stringsLength_cons] at hlt
      rw [List.length_cons] at harray
      have hrest := @ih ((v.write array (pointerBytes pos)).write pos (str ++ [0])) (array + 8)
        (pos + (str.length + 1)) (by omega) (by omega)
      intro i hi
      cases i with
      | zero =>
          rw [stringAddr_zero, Nat.mul_zero, Nat.add_zero, putStrings, List.getElem_cons_zero]
          constructor
          · refine Eq.trans (Memory.load_congr ?_) (load_pointer v array (Nat.lt_of_le_of_lt
              (Nat.le_add_right _ _) hlt))
            intro x hx hx'
            rw [putStrings_of_notMem (by omega) (by omega), Memory.write_of_notMem]
            omega
          · have hlength : str.length + 1 = (str ++ [0]).length := by
              rw [List.length_append, List.length_singleton]
            have hread := read_write (v.write array (pointerBytes pos)) pos (str ++ [0])
            rw [← hlength] at hread
            refine Eq.trans (Memory.read_congr ?_) hread
            intro j hj
            apply putStrings_of_notMem
            · omega
            · omega
      | succ i =>
          have hi' := Nat.lt_of_succ_lt_succ hi
          have haddr : array + 8 * (i + 1) = array + 8 + 8 * i := by omega
          rw [stringAddr_succ, putStrings, List.getElem_cons_succ, haddr]
          exact hrest i hi'

/-- The strings depend on their own bytes and their pointers only. -/
theorem Strings.congr {v' : Memory} (h : Strings v array pos strs)
    (hsame : ∀ x, array ≤ x → x < array + 8 * strs.length → v' x = v x)
    (hsame' : ∀ x, pos ≤ x → x < pos + stringsLength strs → v' x = v x) :
  Strings v' array pos strs
  := by
  intro i hi
  obtain ⟨hpointer, hread⟩ := h i hi
  have hend := @stringAddr_le pos strs (i + 1)
  have hstart := @stringAddr_mono pos strs 0 i (Nat.zero_le i)
  rw [stringAddr_zero] at hstart
  rw [stringAddr_next hi] at hend
  constructor
  · rw [← hpointer]
    apply Memory.load_congr
    intro x hx hx'
    apply hsame
    · omega
    · omega
  · refine Eq.trans (Memory.read_congr ?_) hread
    intro j hj
    apply hsame'
    · omega
    · omega

end Strings

/-! ### The block -/

/-- The memory after `exec_elf` has written the arguments from the address `a` on. -/
def putArguments (v : Memory) (a : Nat) (argv envp : List (List UInt8)) : Memory :=
  let envpp := a + (argv.length + 1) * 8
  let auxv := envpp + (envp.length + 1) * 8
  let pos := auxv + 2 * 8
  let v := putStrings v a pos argv
  let v := v.write (a + argv.length * 8) (pointerBytes 0)
  let v := putStrings v envpp (pos + stringsLength argv) envp
  let v := v.write (envpp + envp.length * 8) (pointerBytes 0)
  v.write auxv (pointerBytes 0)

/-- The arguments can be read from the address `a` on: pointers to the strings `argv` and a null
pointer, pointers to the strings `envp` and a null pointer, and a word that is zero.  The string
number `i` of all is at the address `addr i`, and they do not meet. -/
structure ArgumentBlock (v : Memory) (a : Nat) (argv envp : List (List UInt8)) (addr : Nat → Nat) :
    Prop where
  args : ∀ i, (h : i < argv.length) → v.load (a + 8 * i) 8 = addr i
    ∧ v.read (addr i) (argv[i].length + 1) = argv[i] ++ [0]
  argsEnd : v.load (a + 8 * argv.length) 8 = 0
  env : ∀ i, (h : i < envp.length) →
    v.load (a + 8 * (argv.length + 1) + 8 * i) 8 = addr (argv.length + i)
    ∧ v.read (addr (argv.length + i)) (envp[i].length + 1) = envp[i] ++ [0]
  envEnd : v.load (a + 8 * (argv.length + 1) + 8 * envp.length) 8 = 0
  auxv : v.load (a + 8 * (argv.length + 1) + 8 * (envp.length + 1)) 8 = 0
  apart : ∀ i j, (h : j < (argv ++ envp).length) → (hij : i < j) →
    addr i + ((argv ++ envp)[i].length + 1) ≤ addr j
  inside : ∀ i, (h : i < (argv ++ envp).length) →
    a ≤ addr i ∧ addr i + ((argv ++ envp)[i].length + 1) < a + argLength argv envp

section Block

variable {a : Nat} {argv envp : List (List UInt8)}

/-- The length of what is written. -/
theorem argLength_eq :
  argLength argv envp = 8 * (argv.length + 1) + 8 * (envp.length + 1) + 2 * 8
    + stringsLength argv + stringsLength envp + 1
  := by
  rw [argLength]
  omega

/-- The strings of the environment stand behind the arguments. -/
theorem stringAddr_append {pos : Nat} (i : Nat) :
  stringAddr pos (argv ++ envp) (argv.length + i) = stringAddr (pos + stringsLength argv) envp i
  := by
  rw [stringAddr, stringAddr, List.take_length_add_append, stringsLength_append, Nat.add_assoc]

theorem stringAddr_left {pos i : Nat} (h : i ≤ argv.length) :
  stringAddr pos (argv ++ envp) i = stringAddr pos argv i
  := by
  rw [stringAddr, stringAddr, List.take_append_of_le_length h]

/-- The arguments are read back. -/
theorem putArguments_spec (v : Memory) (hlt : a + argLength argv envp < 2 ^ 64) :
  ArgumentBlock (putArguments v a argv envp) a argv envp
    (stringAddr (a + 8 * (argv.length + 1) + 8 * (envp.length + 1) + 2 * 8) (argv ++ envp))
  := by
  rw [argLength_eq] at hlt
  have hmul : (argv.length + 1) * 8 = 8 * (argv.length + 1) := Nat.mul_comm _ _
  have hmul' : (envp.length + 1) * 8 = 8 * (envp.length + 1) := Nat.mul_comm _ _
  have hnull : (pointerBytes 0).length = 8 := by
    rw [pointerBytes, List.length_map, List.length_range]
  obtain ⟨pos, hpos⟩ : ∃ pos, pos = a + 8 * (argv.length + 1) + 8 * (envp.length + 1) + 2 * 8 :=
    ⟨_, rfl⟩
  rw [putArguments, hmul, hmul', ← hpos]
  obtain ⟨v₁, hv₁⟩ : ∃ v₁, v₁ = putStrings v a pos argv := ⟨_, rfl⟩
  obtain ⟨v₂, hv₂⟩ : ∃ v₂, v₂ = v₁.write (a + argv.length * 8) (pointerBytes 0) := ⟨_, rfl⟩
  obtain ⟨v₃, hv₃⟩ : ∃ v₃, v₃ = putStrings v₂ (a + 8 * (argv.length + 1))
    (pos + stringsLength argv) envp := ⟨_, rfl⟩
  obtain ⟨v₄, hv₄⟩ : ∃ v₄, v₄ = v₃.write (a + 8 * (argv.length + 1) + envp.length * 8)
    (pointerBytes 0) := ⟨_, rfl⟩
  obtain ⟨v₅, hv₅⟩ : ∃ v₅, v₅ = v₄.write (a + 8 * (argv.length + 1) + 8 * (envp.length + 1))
    (pointerBytes 0) := ⟨_, rfl⟩
  rw [← hv₁, ← hv₂, ← hv₃, ← hv₄, ← hv₅]
  -- what each of the writes leaves alone
  have h₅ : ∀ x, x < a + 8 * (argv.length + 1) + 8 * (envp.length + 1) ∨ pos ≤ x → v₅ x = v₄ x := by
    intro x hx
    rw [hv₅, Memory.write_of_notMem]
    omega
  have h₄ : ∀ x, x < a + 8 * (argv.length + 1) + 8 * envp.length ∨ pos ≤ x → v₅ x = v₃ x := by
    intro x hx
    rw [h₅ x (by omega), hv₄, Memory.write_of_notMem]
    omega
  have h₃ : ∀ x, x < a + 8 * (argv.length + 1) ∨ pos ≤ x ∧ x < pos + stringsLength argv →
      v₅ x = v₂ x := by
    intro x hx
    rw [h₄ x (by omega), hv₃, putStrings_of_notMem]
    · omega
    · omega
  have h₂ : ∀ x, x < a + 8 * argv.length ∨ pos ≤ x ∧ x < pos + stringsLength argv →
      v₅ x = v₁ x := by
    intro x hx
    rw [h₃ x (by omega), hv₂, Memory.write_of_notMem]
    omega
  have hargs : Strings v₅ a pos argv := by
    have hspec := @putStrings_spec v a pos argv (by omega) (by omega)
    rw [← hv₁] at hspec
    apply hspec.congr
    · exact fun x hx hx' => h₂ x (Or.inl hx')
    · exact fun x hx hx' => h₂ x (Or.inr ⟨hx, hx'⟩)
  have henv : Strings v₅ (a + 8 * (argv.length + 1)) (pos + stringsLength argv) envp := by
    have hspec := @putStrings_spec v₂ (a + 8 * (argv.length + 1)) (pos + stringsLength argv) envp
      (by omega) (by omega)
    rw [← hv₃] at hspec
    apply hspec.congr
    · exact fun x hx hx' => h₄ x (Or.inl hx')
    · exact fun x hx hx' => h₄ x (Or.inr (by omega))
  refine ⟨?_, ?_, ?_, ?_, ?_, ?_, ?_⟩
  · intro i hi
    rw [stringAddr_left (Nat.le_of_lt hi)]
    exact hargs i hi
  · refine Eq.trans (Memory.load_congr ?_) (load_pointer v₁ (a + 8 * argv.length) (by decide))
    intro x hx hx'
    rw [h₃ x (by omega), hv₂, Nat.mul_comm]
  · intro i hi
    rw [stringAddr_append]
    exact henv i hi
  · refine Eq.trans (Memory.load_congr ?_)
      (load_pointer v₃ (a + 8 * (argv.length + 1) + 8 * envp.length) (by decide))
    intro x hx hx'
    rw [h₅ x (by omega), hv₄, Nat.mul_comm envp.length]
  · rw [hv₅]
    exact load_pointer v₄ _ (by decide)
  · intro i j hj hij
    exact stringAddr_lt hij (Nat.le_of_lt hj)
  · intro i hi
    have hstart := @stringAddr_mono pos (argv ++ envp) 0 i (Nat.zero_le i)
    have hend := @stringAddr_le pos (argv ++ envp) (i + 1)
    rw [stringAddr_zero] at hstart
    rw [stringAddr_next hi, stringsLength_append] at hend
    rw [argLength_eq]
    omega

/-- The block depends on its own bytes only. -/
theorem ArgumentBlock.congr {v v' : Memory} {addr : Nat → Nat} (h : ArgumentBlock v a argv envp addr)
    (hsame : ∀ x, a ≤ x → x < a + argLength argv envp → v' x = v x) :
  ArgumentBlock v' a argv envp addr
  := by
  have hlength := @argLength_eq argv envp
  have hload : ∀ {c}, a ≤ c → c + 8 ≤ a + argLength argv envp → v'.load c 8 = v.load c 8 := by
    intro c hc hc'
    apply Memory.load_congr
    intro x hx hx'
    apply hsame
    · omega
    · omega
  have hread : ∀ i, (hi : i < (argv ++ envp).length) →
      v'.read (addr i) ((argv ++ envp)[i].length + 1)
        = v.read (addr i) ((argv ++ envp)[i].length + 1) := by
    intro i hi
    have hin := h.inside i hi
    apply Memory.read_congr
    intro j hj
    apply hsame
    · omega
    · omega
  refine ⟨?_, ?_, ?_, ?_, ?_, h.apart, h.inside⟩
  · intro i hi
    obtain ⟨hpointer, hstring⟩ := h.args i hi
    have hi' : i < (argv ++ envp).length := by
      rw [List.length_append]
      omega
    have hsame := hread i hi'
    rw [List.getElem_append_left hi] at hsame
    rw [hload (by omega) (by omega), hsame]
    exact ⟨hpointer, hstring⟩
  · rw [hload (by omega) (by omega)]
    exact h.argsEnd
  · intro i hi
    obtain ⟨hpointer, hstring⟩ := h.env i hi
    have hi' : argv.length + i < (argv ++ envp).length := by
      rw [List.length_append]
      omega
    have hsame := hread (argv.length + i) hi'
    rw [List.getElem_append_right (Nat.le_add_right _ _)] at hsame
    simp only [Nat.add_sub_cancel_left] at hsame
    rw [hload (by omega) (by omega), hsame]
    exact ⟨hpointer, hstring⟩
  · rw [hload (by omega) (by omega)]
    exact h.envEnd
  · rw [hload (by omega) (by omega)]
    exact h.auxv

end Block

end Procmm
