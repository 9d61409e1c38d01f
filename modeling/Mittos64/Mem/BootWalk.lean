import Mittos64.Mem.KernelRun

/-!
# The software walk and the walk of the processor

`vmm_get_page` and `vmm_set_page` on `BootP4`, compared with the processor.  They agree, and
`vmm_find_page` reads and writes entries of page tables only, for addresses that are not under an
entry of `BootP2`; for an address under such an entry `vmm_find_page` takes the first frame of the
two mebibytes for a table.
-/

namespace Mem

open Trie (Forest Node)

/-- The tables with an entry that `vmm_find_page` reads or writes, each with the machine at that
time; the last one is the P1, whose entry its caller reads or writes. -/
def tablesUsed (touch : Bool) : Machine → Nat → List (Fin 512) → List (Machine × Nat)
  | s, table, [] => [(s, table)]
  | s, table, i :: path =>
      (s, table) :: match nextTable touch s table i with
        | none => []
        | some (e, s) => if e = 0 then [] else tablesUsed touch s (stripFlags e) path

section Used

variable {Dom : Nat → List (Fin 512) → Prop} {Shared : List (Fin 512) → Prop} {r : Nat}
  {path : List (Fin 512)} {T : Words}

/-- `vmm_find_page` passes tables only. -/
theorem tablesUsed_spec {I : List Nat → Machine → Prop} (hI : Source I)
    (hshared : ∀ p j, Shared p → Shared (p ++ [j])) (hdom : Dom r path)
    (hhuge : NoHuge T r path) {touch : Bool} {p q : List (Fin 512)} {s : Machine} {t : Nat}
    {fs new : List Nat} (hpath : path = q ++ p)
    (hgrown : Grown Dom Shared r path T (words s.mem) new)
    (ht : walk (words s.mem) r q = some t) (hfs : I fs s) (hnodup : fs.Nodup)
    (hfresh : ∀ f ∈ fs, frame f < 2 ^ 64 ∧ ¬ Node child T Dom f ∧ f ∉ new)
    (henough : touch = true → missing (words s.mem) t p ≤ fs.length) :
  ∀ x ∈ tablesUsed touch s (frame t) p, ∃ n, x.2 = frame n ∧ Node child (words x.1.mem) Dom n
  := by
  have hclosed : ∀ {q l : List (Fin 512)} {s : Machine} {new : List Nat},
      Grown Dom Shared r path T (words s.mem) new → path = q ++ l → Dom r q := by
    intro q l s new hgrown hl
    apply hgrown.forest.closed_append l
    rw [← hl]
    apply hdom
  induction p generalizing q s t new fs with
  | nil =>
      intro x hx
      rw [tablesUsed, List.mem_singleton] at hx
      subst hx
      exact ⟨t, rfl, r, q, hclosed hgrown hpath, ht⟩
  | cons i p ih =>
      have hpath' : path = (q ++ [i]) ++ p := by
        rw [hpath, List.append_cons]
      have hq : q ++ [i] <+: path := by
        rw [hpath']
        apply List.prefix_append
      intro x hx
      rw [tablesUsed, List.mem_cons] at hx
      obtain rfl | hx := hx
      · exact ⟨t, rfl, r, q, hclosed hgrown hpath, ht⟩
      · by_cases hzero : words s.mem t i = 0
        · cases touch with
          | false =>
              rw [nextTable_of_eq hzero] at hx
              simp at hx
          | true =>
              have hmissing : missing (words s.mem) t (i :: p) = p.length + 1 := by
                rw [missing, hzero]
                rfl
              have hlen := henough rfl
              rw [hmissing] at hlen
              cases fs with
              | nil => simp at hlen
              | cons f fs =>
                  obtain ⟨s', hnext, hgrown', ht', hfs'⟩ :=
                    hgrown.nextTable hI hshared hdom hq ht hzero hfs hnodup hfresh
                  obtain ⟨hne, -, -⟩ := child_addFlags f
                  rw [hnext] at hx
                  simp only [if_neg hne] at hx
                  rw [stripFlags_eq, addFlags_div, frame_div] at hx
                  obtain ⟨hnotMem, hnodup⟩ := List.nodup_cons.mp hnodup
                  apply ih hpath' hgrown' ht' hfs' hnodup _ _ x hx
                  · intro g hg
                    obtain ⟨hlt, hnode, hnew⟩ := hfresh g (List.mem_cons_of_mem f hg)
                    refine ⟨hlt, hnode, ?_⟩
                    rw [List.mem_append, List.mem_singleton]
                    rintro (hmem | rfl)
                    · apply hnew hmem
                    · apply hnotMem hg
                  · intro _
                    have hle := missing_le (words s'.mem) f p
                    rw [List.length_cons] at hlen
                    omega
        · have hchild := hgrown.child_eq hdom hhuge hq ht hzero
          have ht' : walk (words s.mem) r (q ++ [i]) = some (words s.mem t i / pageSize) := by
            rw [walk_concat, ht, Option.bind_some, hchild]
          rw [nextTable_of_ne hzero] at hx
          simp only [if_neg hzero] at hx
          rw [stripFlags_eq] at hx
          apply ih hpath' hgrown ht' hfs hnodup hfresh _ x hx
          intro htouch
          have hlen := henough htouch
          rw [missing, hchild] at hlen
          apply hlen

end Used

/-! ### Runs of `vmm_set_page` -/

/-- One call of `vmm_set_page` on `BootP4`, for an address that is not under `BootP2` and a
physical address. -/
def BootStep (b : Nat) (s s' : Space) : Prop :=
  ∃ addr phys flags, phys < 2 ^ 52 ∧ s.Allowed b (.setPage 0 addr phys flags)
    ∧ s.step b (.setPage 0 addr phys flags) = some s'

/-- The boot tables have been extended, and point to physical addresses. -/
structure BootInv (b : Nat) (s : Space) : Prop where
  inv : s.Inv b
  live : s.live = []
  physical : ∀ a, lookup (words s.machine.mem) b a < 2 ^ 52

theorem addFlags_lt_physical {phys : Nat} (flags : Nat) (h : phys < 2 ^ 52) :
  addFlags phys flags < 2 ^ 52
  := by
  apply Nat.or_lt_two_pow h
  apply Nat.lt_of_le_of_lt Nat.and_le_right
  decide

theorem Booted.bootInv {b : Nat} {s : Space} (h : Booted b s) :
  BootInv b s
  := by
  refine ⟨h.inv, h.2.2, ?_⟩
  intro a
  rw [lookup]
  cases ht : walk (words s.machine.mem) b (tablePath a) with
  | none => exact Nat.two_pow_pos 52
  | some t =>
      have hlen := tablePath_length a
      obtain ⟨hp, -⟩ | ⟨hp, -⟩ | ⟨hp, -⟩ := h.2.1.walk_eq ht
      all_goals
        rw [hp] at hlen
        cases hlen

theorem BootInv.of_run {b : Nat} {s : Space} (h : Reachable (Booted b) (BootStep b) s) :
  BootInv b s
  := by
  apply h.invariant
  · intro s hs
    apply hs.bootInv
  · rintro s s' hs ⟨addr, phys, flags, hphys, hallowed, hstep⟩
    have hcareful : s.Careful b (.setPage 0 addr phys flags) := by
      intro hmem
      rw [hs.live] at hmem
      exact absurd hmem List.not_mem_nil
    obtain ⟨hinv, r, hr, -, hlookup⟩ := hs.inv.setPage hallowed hcareful hstep
    refine ⟨hinv, ?_, ?_⟩
    · rw [Space.step_setPage hstep, hs.live]
    · intro a
      rw [hlookup b a (Or.inl rfl), setLookup]
      split_ifs
      · apply addFlags_lt_physical flags hphys
      · apply hs.physical

/-- In every state that calls of `vmm_set_page` reach from the boot tables, for addresses that are
not under `BootP2`: the frame of an address that the processor translates is the one that
`vmm_get_page` reports, and `vmm_find_page` reads and writes entries of page tables only. -/
theorem walks_agree_of_run {b : Nat} {s : Space} (h : Reachable (Booted b) (BootStep b) s) {a : Nat}
    (ha : ¬ UnderHuge a) :
  (∀ f, translate (words s.machine.mem) b a = some f →
      stripFlags (vmmGetPage (frame b) s.machine 0 a) = frame f)
    ∧ ∀ touch fs, Supply fs s.machine → fs.Nodup →
      (touch = true → missing (words s.machine.mem) b (tablePath a) ≤ fs.length) →
      (∀ f ∈ fs, Unused b (words s.machine.mem) s.Live f) →
      ∀ x ∈ tablesUsed touch s.machine (frame b) (tablePath (stripFlags a)),
        ∃ n, x.2 = frame n ∧ Node child (words x.1.mem) (Tables (Roots b s.Live)) n
  := by
  have hs := BootInv.of_run h
  have hroot : Roots b s.Live b := Or.inl rfl
  have hhuge := hs.inv.half.noHuge hroot ha
  constructor
  · intro f hf
    have hboot : resolveP4 (frame b) 0 = frame b := by
      rw [resolveP4, if_pos rfl]
    have hlt : ∀ p u, p <+: tablePath a → walk (words s.machine.mem) b p = some u → u < 2 ^ 40 := by
      intro p u hp hu
      have hframe := hs.inv.half.direct ⟨hroot, hp.length_le⟩ hu
      rw [frame, pageSize] at hframe
      omega
    rw [translate] at hf
    split_ifs at hf
    obtain ⟨t, ht, -, rfl⟩ := descend_eq hhuge hlt hf
    have hentry : lookup (words s.machine.mem) b a = words s.machine.mem t (p1Offset a) := by
      rw [lookup, ht]
    have hphysical := hs.physical a
    rw [hs.inv.half.vmmGetPage_eq hroot hboot ha, stripFlags_eq, hentry, frameOf_eq]
    rw [hentry] at hphysical
    rw [pageSize]
    omega
  · intro touch fs hfs hnodup henough hunused
    rw [tablePath_stripFlags]
    apply tablesUsed_spec supply_source (fun p j hp => UnderKernel.append j hp)
      (tables_tablePath hroot a) hhuge (q := []) rfl (.refl hs.inv.half.forest) rfl hfs hnodup _
      henough
    intro f hf
    obtain ⟨hlt, hnode, -⟩ := hunused f hf
    exact ⟨(p2v_ne_zero hlt).2, hnode, List.not_mem_nil⟩

/-- A page of the kernel heap is mapped from the boot tables: what the processor finds there is
what `vmm_get_page` reports. -/
theorem walks_agree_of_run_heap :
  ∃ s, Reachable (Booted 16) (BootStep 16) s
    ∧ vmmGetPage (frame 16) s.machine 0 kernelHeapS = addFlags (frame 64) 3
    ∧ ∀ f, translate (words s.machine.mem) 16 kernelHeapS = some f → f = 64
  := by
  have hheap : ¬ UnderHuge kernelHeapS := by decide
  have hallowed : bootSpace.Allowed 16 (.setPage 0 kernelHeapS (frame 64) 3) := by
    refine ⟨Or.inl rfl, hheap, by decide, [32, 33, 34, 35], supply_bootSpace, by decide, ?_, ?_⟩
    · apply Nat.le_succ_of_le
      apply missing_le
    · intro f hf
      have hf' : 32 ≤ f ∧ f < 64 := by
        simp only [List.mem_cons, List.not_mem_nil, or_false] at hf
        omega
      refine ⟨unused_bootSpace hf'.1 hf'.2, ?_⟩
      rw [frame_div]
      omega
  have hcareful : bootSpace.Careful 16 (.setPage 0 kernelHeapS (frame 64) 3) :=
    fun hmem => absurd hmem List.not_mem_nil
  obtain ⟨s, hstep, hinv, r, -, hroot, hlookup⟩ :=
    booted_bootSpace.inv.setPage_spec hallowed hcareful
  have hs : Reachable (Booted 16) (BootStep 16) s :=
    (Reachable.start booted_bootSpace).next ⟨_, _, _, by decide, hallowed, hstep⟩
  have hboot : resolveP4 (frame 16) 0 = frame 16 := rfl
  obtain rfl : 16 = r := frame_inj (hboot.symm.trans hroot)
  have hget : vmmGetPage (frame 16) s.machine 0 kernelHeapS = addFlags (frame 64) 3 := by
    rw [hinv.half.vmmGetPage_eq (Or.inl rfl) hboot hheap, hlookup 16 _ (Or.inl rfl), setLookup,
      if_pos ⟨⟨rfl, rfl⟩, Or.inl rfl⟩]
  refine ⟨s, hs, hget, ?_⟩
  intro f hf
  have hframe := (walks_agree_of_run hs hheap).1 f hf
  rw [hget, stripFlags_eq, addFlags_div, frame_div] at hframe
  apply (frame_inj hframe).symm

/-- At boot the address `KERNEL_OFFSET + PAGE_SIZE` lies in the second frame, but `vmm_get_page`
reports the first one, which it has read as a page table. -/
theorem walks_differ_under_huge :
  Reachable (Booted 16) (BootStep 16) bootSpace
    ∧ translate (words bootSpace.machine.mem) 16 (kernelOffset + 0x1000) = some 1
    ∧ stripFlags (vmmGetPage (frame 16) bootSpace.machine 0 (kernelOffset + 0x1000)) = frame 0
    ∧ frame 0 ∈ (tablesUsed false bootSpace.machine (frame 16)
          (tablePath (stripFlags (kernelOffset + 0x1000)))).map Prod.snd
    ∧ ¬ Node child (words bootSpace.machine.mem) (Tables (Roots 16 bootSpace.Live)) 0
  := by
  refine ⟨.start booted_bootSpace, ?_, ?_, ?_, ?_⟩
  · rw [words_bootSpace]
    decide +kernel
  · decide +kernel
  · decide +kernel
  · rintro ⟨r, p, ⟨hr, -⟩, hwalk⟩
    obtain rfl := hr.resolve_right List.not_mem_nil
    obtain ⟨-, h⟩ | ⟨-, h⟩ | ⟨-, h⟩ := booted_bootSpace.2.1.walk_eq hwalk
    all_goals cases h

end Mem
