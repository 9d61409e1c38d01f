import Mittos64.Proc.Alike
import Mittos64.Proc.Exec

/-!
# Other bytes in the free frames

Two kernels that differ only in the contents of their free frames, but for the pointers of the free
stack.  What the kernel and the processes can read is the same in both.  A page that is mapped to a
frame of the free stack shows what the frame held.
-/

open DList

namespace Procmm

open Mem

/-- The memories agree but for the free frames `fs` behind the pointers in their first words. -/
def Refilled (fs : List Nat) (m m' : Memory) : Prop :=
  ∀ x, (x / pageSize ∈ fs → x % pageSize < 8) → m' x = m x

/-- The kernel with another memory. -/
def Kernel.refill (k : Kernel) (mem : Memory) : Kernel :=
  k.withMachine (k.machine.withMem mem)

/-- What the user of the address space `r` reads at the address `a`.  All tables of the user half
have `PAGE_USER`, so the entry of the page decides. -/
def userRead (s : Machine) (r a : Nat) : Option UInt8 :=
  if isPresent (lookup (words s.mem) r a) ∧ (lookup (words s.mem) r a).testBit 2 then
    some (byteAt s r a)
  else none

/-- The user reads the same at all addresses. -/
def SameView (r : Nat) (s s' : Machine) : Prop :=
  ∀ a < userspaceTop, userRead s' r a = userRead s r a

/-- The user reads at the address `c` what a free frame of the memory `m` holds. -/
def Reveals (fs : List Nat) (m : Memory) (r c : Nat) (s : Machine) : Prop :=
  ∃ f ∈ fs, userRead s r c = some (m (frame f + c % pageSize))

section Refill

variable {b r : Nat} {own : Nat → Prop} {fs : List Nat} {k : Kernel} {mem : Memory}

theorem Refilled.words_eq {m m' : Memory} (h : Refilled fs m m') {n : Nat} (hn : n ∉ fs) :
  words m' n = words m n
  := by
  apply words_of_bytes
  rintro x rfl
  exact h x fun hmem => absurd hmem hn

/-- With other bytes in its free frames a kernel is as before in what the calls read. -/
theorem Ready.alike_refill (h : Ready b own fs k) (hmem : Refilled fs k.machine.mem mem) :
  Alike b fs k (k.refill mem)
  := by
  refine ⟨rfl, rfl, ?_⟩
  rintro x (hx | ⟨-, hlt⟩)
  · exact hmem x fun hfree => absurd hx (h.sound.unused _ hfree).2.1
  · exact hmem x fun _ => hlt

/-- The bytes of the pages of users are not in free frames. -/
theorem Ready.sameView_refill (h : Ready b own fs k) (hmem : Refilled fs k.machine.mem mem)
    (hroot : k.Root r) :
  SameView r k.machine (k.refill mem).machine
  := by
  obtain ⟨-, -, hlookup⟩ := (h.alike_refill hmem).ready h
  intro a ha
  have hsame : lookup (words (k.refill mem).machine.mem) r a = lookup (words k.machine.mem) r a :=
    hlookup r a (Or.inr hroot)
  rw [userRead, userRead, hsame]
  by_cases hne : lookup (words k.machine.mem) r a = 0
  · rw [hne]
    rfl
  · have hbyte : byteAt (k.refill mem).machine r a = byteAt k.machine r a := by
      rw [byteAt, byteAt, place_congr hsame]
      apply hmem
      intro hfree
      rw [place_div] at hfree
      exact absurd ⟨r, a, hroot, (user_ne_kernel ha).1, hne, rfl⟩ (h.sound.unused _ hfree).2.2
    rw [hbyte]

/-- A page that has been mapped to a free frame shows what the frame held. -/
theorem userRead_of_lookup {s : Machine} {c f : Nat}
    (h : lookup (words s.mem) r c = addFlags (frame f) userFlags) :
  userRead s r c = some (s.mem (frame f + c % pageSize))
  := by
  have hflags : isPresent (addFlags (frame f) userFlags)
      ∧ (addFlags (frame f) userFlags).testBit 2 := by
    refine ⟨isPresent_addFlags f rfl, ?_⟩
    rw [addFlags, Nat.testBit_or, Nat.testBit_and]
    exact Bool.or_eq_true_iff.mpr (Or.inr rfl)
  rw [userRead, h, if_pos hflags, byteAt, place, h, (userFlags_entry f).2]

/-- The image is the same with other bytes in the free frames. -/
theorem Image.refill {data size : Nat} (h : Image b fs data size k) (hready : Ready b own fs k)
    (hmem : Refilled fs k.machine.mem mem) :
  Image b fs data size (k.refill mem)
    ∧ ∀ i < size, kernelMemory (frame b) (k.refill mem).machine (data + i)
      = kernelMemory (frame b) k.machine (data + i)
  := by
  obtain ⟨-, hnode, hlookup⟩ := (hready.alike_refill hmem).ready hready
  have hroot : (k.refill mem).Root = k.Root := rfl
  have htranslate : ∀ {a f}, translate (words k.machine.mem) b a = some f →
      translate (words mem) b a = some f := by
    intro a f hf
    apply hready.sound.half.toKernelTables.translate_kept (Or.inl rfl) _ (hlookup b a (Or.inl rfl))
      hf
    intro q p t i hq hp ht hne
    apply congrFun
    apply hmem.words_eq
    intro hfree
    exact (hready.sound.unused t hfree).2.1 ⟨q, p, ⟨hq, by omega⟩, ht⟩
  refine ⟨⟨?_, h.apart⟩, ?_⟩
  · intro i hi
    obtain ⟨f, hf, hfree, htable, hmapped⟩ := h.page i hi
    refine ⟨f, htranslate hf, hfree, ?_, ?_⟩
    · rw [hroot, hnode]
      exact htable
    · rw [hroot]
      rintro ⟨q, c, hq, hc, hne, heq⟩
      have hsame : lookup (words (k.refill mem).machine.mem) q c
          = lookup (words k.machine.mem) q c := hlookup q c (Or.inr hq)
      rw [hsame] at hne heq
      exact hmapped ⟨q, c, hq, hc, hne, heq⟩
  · intro i hi
    obtain ⟨f, hf, hfree, -, -⟩ := h.page i hi
    have hrefill : kernelMemory (frame b) (k.refill mem).machine (data + i)
        = mem (frame f + (data + i) % pageSize) := kernelMemory_eq (htranslate hf)
    rw [kernelMemory_eq hf, hrefill]
    apply hmem
    rw [frame, Nat.mul_add_div (by decide), Nat.div_eq_of_lt (Nat.mod_lt _ (by decide)),
      Nat.add_zero]
    exact fun hin => absurd hin hfree

end Refill

section Lists

variable {bootP4 m data : Nat} {grow : Nat → Nat} {k k' : Kernel}

/-- `load_elf_segment` maps an area, and changes the machine only after that. -/
theorem loadElfSegment_lists {p : PHead} (h : loadElfSegment bootP4 grow k m data p = some k') :
  ∃ a k₁ s, procmmMap bootP4 grow k m p.virtualAddress (incptr p.virtualAddress p.memSize) 0
      = some (a, k₁) ∧ k' = k₁.withMachine s
  := by
  rw [loadElfSegment] at h
  dsimp only at h
  split at h
  · cases h
  · rename_i a k₁ hmap
    obtain rfl := Option.some.inj h
    exact ⟨a, k₁, _, hmap, rfl⟩

/-- The end of the last area of a map, when segments have been loaded. -/
theorem loadAll_last {ps : List PHead} {E : Nat → Prop}
    (hcall : loadAll bootP4 grow m data k ps = some k')
    (hps : ∀ p ∈ ps, E (incptr p.virtualAddress p.memSize))
    (hlast : ∀ last ∈ (k.map m).areas.prev, last < k.areas ∧ E (k.area last).stop) :
  ∀ last ∈ (k'.map m).areas.prev, last < k'.areas ∧ E (k'.area last).stop
  := by
  induction ps generalizing k with
  | nil =>
      obtain rfl := Option.some.inj hcall
      exact hlast
  | cons p ps ih =>
      rw [List.forall_mem_cons] at hps
      rw [loadAll] at hcall
      split at hcall
      · cases hcall
      · rename_i k₁ hload
        obtain ⟨a, k₂, s, hmap, rfl⟩ := loadElfSegment_lists hload
        have hadded := procmmMap_areas hmap
        apply ih hcall hps.2
        intro last
        rw [Kernel.withMachine_map, Kernel.withMachine_areas, Kernel.withMachine_area, hadded.areas]
        intro hmem
        obtain hold | hnew := hadded.last
        · rw [hold] at hmem
          obtain ⟨hlt, hend⟩ := hlast last hmem
          rw [hadded.old last hlt]
          exact ⟨Nat.lt_succ_of_lt hlt, hend⟩
        · rw [hnew] at hmem
          obtain rfl := Option.some.inj hmem
          rw [hadded.new]
          exact ⟨Nat.lt_succ_self _, hps.1⟩

end Lists

end Procmm
