import Mittos64.Mem.Kernel

/-!
# Runs of the page tables

The page tables of `boot_structures.S` and what any sequence of `vmm_new_P4`, `vmm_set_page` and
`vmm_free_P4` makes of them.  In every state of a run the live address spaces have the kernel half
of `BootP4`.  The walk of `vmm_find_page` is that of the processor, except under the entries of
`BootP2`, whose `PAGE_HUGE` the source does not know.
-/

namespace Mem

open Trie (Forest Node)

/-- The machine, with the addresses of the P4s that have been made and not freed. -/
structure Space where
  machine : Machine
  live : List Nat

/-- The frame of a live P4. -/
def Space.Live (s : Space) (r : Nat) : Prop :=
  frame r ∈ s.live

/-- The calls of a run. -/
inductive VmmCall where
  | newP4
  | setPage (P4 addr phys flags : Nat)
  | freeP4 (P4 : Nat)

/-- One call, with `BootP4` in the frame `b`. -/
def Space.step (b : Nat) (s : Space) : VmmCall → Option Space
  | .newP4 => (vmmNewP4 (frame b) s.machine).map fun x => ⟨x.2, x.1 :: s.live⟩
  | .setPage P4 addr phys flags =>
      (vmmSetPage (frame b) s.machine P4 addr phys flags).map fun x => ⟨x.2, s.live⟩
  | .freeP4 P4 => some ⟨vmmFreeP4 s.machine P4, s.live.filter fun P => P ≠ P4⟩

theorem Space.step_setPage {b P4 addr phys flags : Nat} {s s' : Space}
    (h : s.step b (.setPage P4 addr phys flags) = some s') :
  s'.live = s.live
  := by
  rw [Space.step] at h
  cases hset : vmmSetPage (frame b) s.machine P4 addr phys flags with
  | none =>
      rw [hset] at h
      cases h
  | some x =>
      rw [hset] at h
      obtain rfl := Option.some.inj h
      rfl

/-! ### The boot tables -/

/-- The words of `BootP4`, `BootP3` and `BootP2`, in the frames `b`, `b + 1` and `b + 2`, when
`_start` has removed the identity mapping. -/
structure BootTables (b : Nat) (T : Words) : Prop where
  p4 : ∀ i, T b i = if i = 511 then frame (b + 1) + (pagePresent ||| pageWrite) else 0
  p3 : ∀ i, T (b + 1) i = if i = 0 then frame (b + 2) + (pagePresent ||| pageWrite) else 0
  p2 : ∀ i, T (b + 2) i = i.val <<< 21 + (pagePresent ||| pageWrite ||| pageHuge)

/-- The state at boot. -/
def Booted (b : Nat) (s : Space) : Prop :=
  frame (b + 2) < 2 ^ 39 ∧ BootTables b (words s.machine.mem) ∧ s.live = []

theorem child_boot (n : Nat) :
  child (frame n + (pagePresent ||| pageWrite)) = some n
    ∧ isHuge (frame n + (pagePresent ||| pageWrite)) = false
  := by
  have hflags : pagePresent ||| pageWrite = 3 := rfl
  have hhuge : isHuge (frame n + (pagePresent ||| pageWrite)) = false := by
    rw [isHuge, Nat.testBit_eq_decide_div_mod_eq, decide_eq_false_iff_not, hflags, frame, pageSize]
    omega
  refine ⟨?_, hhuge⟩
  rw [child_of_ne _ hhuge]
  · congr 1
    rw [hflags, frame, pageSize]
    omega
  · rw [hflags]
    omega

theorem isHuge_boot (i : Fin 512) :
  isHuge (i.val <<< 21 + (pagePresent ||| pageWrite ||| pageHuge)) = true
  := by
  have hflags : pagePresent ||| pageWrite ||| pageHuge = 0x83 := rfl
  rw [isHuge, Nat.testBit_eq_decide_div_mod_eq, decide_eq_true_iff, hflags, Nat.shiftLeft_eq]
  omega

section Boot

variable {b : Nat} {T : Words} (h : BootTables b T)

include h

/-- The tables at boot. -/
theorem BootTables.walk_eq {p : List (Fin 512)} {t : Nat} (ht : walk T b p = some t) :
  (p = [] ∧ t = b) ∨ (p = [511] ∧ t = b + 1) ∨ (p = [511, 0] ∧ t = b + 2)
  := by
  cases p with
  | nil =>
      left
      exact ⟨rfl, (Option.some.inj ht).symm⟩
  | cons i p =>
      right
      rw [walk_cons, h.p4] at ht
      split_ifs at ht with hi
      · rw [(child_boot _).1, Option.bind_some] at ht
        cases p with
        | nil =>
            left
            rw [hi]
            exact ⟨rfl, (Option.some.inj ht).symm⟩
        | cons j p =>
            right
            rw [walk_cons, h.p3] at ht
            split_ifs at ht with hj
            · rw [(child_boot _).1, Option.bind_some] at ht
              cases p with
              | nil =>
                  rw [hi, hj]
                  exact ⟨rfl, (Option.some.inj ht).symm⟩
              | cons k p =>
                  rw [walk_cons, h.p2, child, if_pos (Or.inr (isHuge_boot k))] at ht
                  cases ht
            · cases ht
      · cases ht

/-- The entries of the boot tables are present. -/
theorem BootTables.present :
  Present b T (fun _ => False)
  := by
  have hflags : pagePresent ||| pageWrite = 3 := rfl
  have hflags' : pagePresent ||| pageWrite ||| pageHuge = 0x83 := rfl
  intro r p t i hr _ ht hne
  obtain rfl := hr.resolve_right id
  obtain ⟨-, rfl⟩ | ⟨-, rfl⟩ | ⟨-, rfl⟩ := h.walk_eq ht
  · rw [h.p4] at hne ⊢
    split_ifs at hne ⊢
    · rw [isPresent, Nat.testBit_eq_decide_div_mod_eq, decide_eq_true_iff, hflags, frame, pageSize]
      omega
    · exact absurd rfl hne
  · rw [h.p3] at hne ⊢
    split_ifs at hne ⊢
    · rw [isPresent, Nat.testBit_eq_decide_div_mod_eq, decide_eq_true_iff, hflags, frame, pageSize]
      omega
    · exact absurd rfl hne
  · rw [h.p2, isPresent, Nat.testBit_eq_decide_div_mod_eq, decide_eq_true_iff, hflags',
      Nat.shiftLeft_eq]
    omega

/-- At boot there are no live address spaces. -/
theorem BootTables.kernelHalf (hb : frame (b + 2) < 2 ^ 39) :
  KernelHalf b T (fun _ => False)
  := by
  refine ⟨⟨?_, ?_, ?_, ?_, ?_, ?_⟩, ?_⟩
  · constructor
    · apply tables_closed
    · rintro r s p q t ⟨hr, -⟩ ⟨hs, -⟩ ht hs'
      obtain rfl := hr.resolve_right id
      obtain rfl := hs.resolve_right id
      refine ⟨?_, Or.inl rfl⟩
      obtain ⟨rfl, hp⟩ | ⟨rfl, hp⟩ | ⟨rfl, hp⟩ := h.walk_eq ht
      all_goals
        obtain ⟨rfl, hq⟩ | ⟨rfl, hq⟩ | ⟨rfl, hq⟩ := h.walk_eq hs'
        all_goals first | rfl | omega
  · intro r p t i hr _ ht hhuge
    obtain rfl := hr.resolve_right id
    obtain ⟨-, rfl⟩ | ⟨-, rfl⟩ | ⟨rfl, -⟩ := h.walk_eq ht
    · rw [h.p4] at hhuge
      split_ifs at hhuge
      · rw [(child_boot _).2] at hhuge
        cases hhuge
      · cases hhuge
    · rw [h.p3] at hhuge
      split_ifs at hhuge
      · rw [(child_boot _).2] at hhuge
        cases hhuge
      · cases hhuge
    · rfl
  · rintro r p t ⟨hr, -⟩ ht
    obtain rfl := hr.resolve_right id
    simp only [frame, pageSize] at hb ⊢
    obtain ⟨-, rfl⟩ | ⟨-, rfl⟩ | ⟨-, rfl⟩ := h.walk_eq ht
    all_goals omega
  · rw [h.p4, if_pos rfl]
    have hflags : pagePresent ||| pageWrite = 3 := rfl
    omega
  · exact id
  · exact False.elim
  · rintro f ⟨r, a, hr, -⟩
    exact hr.elim

end Boot

/-! ### Runs -/

/-- What a run may call: `vmm_set_page` and `vmm_free_P4` on live address spaces, the former for
addresses that are not under `BootP2`, while `pmm_alloc` returns frames that are not in use.  The
frame that is to be mapped counts as one in use. -/
def Space.Allowed (b : Nat) (s : Space) : VmmCall → Prop
  | .newP4 => ∃ f, Supply [f] s.machine ∧ Unused b (words s.machine.mem) s.Live f
  | .setPage P4 addr phys flags =>
      (P4 = 0 ∨ P4 ∈ s.live) ∧ ¬ UnderHuge addr ∧ phys < 2 ^ 64
        ∧ ∃ fs, Supply fs s.machine ∧ fs.Nodup
          ∧ missing (words s.machine.mem) (resolveP4 (frame b) P4 / pageSize) (tablePath addr)
            ≤ fs.length
          ∧ ∀ f ∈ fs, Unused b (words s.machine.mem) s.Live f
            ∧ (addFlags phys flags ≠ 0 → f ≠ phys / pageSize)
  | .freeP4 P4 => P4 ∈ s.live

/-- The call maps no page table at a user address of a live address space. -/
def Space.Careful (b : Nat) (s : Space) : VmmCall → Prop
  | .setPage P4 addr phys flags =>
      P4 ∈ s.live → p4Offset addr ≠ 511 → addFlags phys flags ≠ 0 →
        ¬ Node child (words s.machine.mem) (Tables (Roots b s.Live)) (phys / pageSize)
  | _ => True

/-- The live address spaces share the kernel half. -/
structure Space.Inv (b : Nat) (s : Space) : Prop where
  half : KernelHalf b (words s.machine.mem) s.Live
  aligned : ∀ P4 ∈ s.live, ∃ r, P4 = frame r

theorem Booted.inv {b : Nat} {s : Space} (h : Booted b s) :
  s.Inv b
  := by
  obtain ⟨hb, hboot, hlive⟩ := h
  have hnone : s.Live = fun _ => False := by
    funext r
    simp [Space.Live, hlive]
  constructor
  · rw [hnone]
    apply hboot.kernelHalf hb
  · simp [hlive]

section Step

variable {b : Nat} {s s' : Space} (h : s.Inv b)

include h

/-- The table a call of `vmm_set_page` starts at. -/
theorem Space.Inv.root {P4 : Nat} (hP4 : P4 = 0 ∨ P4 ∈ s.live) :
  ∃ r, Roots b s.Live r ∧ resolveP4 (frame b) P4 = frame r ∧ (s.Live r → P4 ∈ s.live)
  := by
  by_cases hzero : P4 = 0
  · refine ⟨b, Or.inl rfl, by rw [resolveP4, if_pos hzero], ?_⟩
    intro hlive
    exact absurd hlive h.half.notBoot
  · obtain ⟨r, rfl⟩ := h.aligned P4 (hP4.resolve_left hzero)
    exact ⟨r, Or.inr (hP4.resolve_left hzero), by rw [resolveP4, if_neg hzero], id⟩

theorem Space.Inv.newP4 (hallowed : s.Allowed b .newP4) (hstep : s.step b .newP4 = some s') :
  s'.Inv b
  := by
  obtain ⟨f, hfs, hunused⟩ := hallowed
  have hb : b ≠ f := by
    rintro rfl
    apply hunused.2.1 (roots_node (Or.inl rfl))
  obtain ⟨m, hnew, hwords, -⟩ := vmmNewP4_spec supply_source hfs List.not_mem_nil hb
  rw [step, hnew] at hstep
  obtain rfl := Option.some.inj hstep
  have hlive : Space.Live ⟨m, frame f :: s.live⟩ = withRoot f s.Live := by
    funext r
    apply propext
    rw [Space.Live, List.mem_cons, withRoot]
    apply or_congr_left
    constructor
    · apply frame_inj
    · rintro rfl
      rfl
  constructor
  · rw [hlive, hwords]
    apply h.half.newRoot hunused.2.1 hunused.1 hunused.2.2
  · exact List.forall_mem_cons.mpr ⟨⟨f, rfl⟩, h.aligned⟩

/-- A call of `vmm_set_page` that a run may make. -/
theorem Space.Inv.setPage_spec {P4 addr phys flags : Nat}
    (hallowed : s.Allowed b (.setPage P4 addr phys flags))
    (hcareful : s.Careful b (.setPage P4 addr phys flags)) :
  ∃ s', s.step b (.setPage P4 addr phys flags) = some s' ∧ s'.Inv b
    ∧ ∃ r, Roots b s.Live r ∧ resolveP4 (frame b) P4 = frame r
      ∧ ∀ q c, Roots b s.Live q → lookup (words s'.machine.mem) q c
          = setLookup (words s.machine.mem) r addr (addFlags phys flags) q c
  := by
  obtain ⟨hP4, haddr, hphys, fs, hfs, hnodup, hlen, hunused⟩ := hallowed
  obtain ⟨r, hr, hroot, hlive⟩ := h.root hP4
  have hv : s.Live r → p4Offset addr ≠ 511 → addFlags phys flags ≠ 0 →
      ¬ Node child (words s.machine.mem) (Tables (Roots b s.Live)) (phys / pageSize)
        ∧ phys / pageSize ∉ fs := by
    intro hr' huser hne
    refine ⟨hcareful (hlive hr') huser hne, ?_⟩
    intro hmem
    apply (hunused _ hmem).2 hne rfl
  obtain ⟨m, new, fs', -, hset, hhalf, hlookup, -⟩ | ⟨hfew, -⟩ :=
    h.half.vmmSetPage supply_source flags hr hroot haddr hphys hfs hnodup
      (fun f hf => (hunused f hf).1) hv
  · refine ⟨⟨m, s.live⟩, ?_, ⟨hhalf, h.aligned⟩, r, hr, hroot, hlookup⟩
    rw [step, hset]
    rfl
  · rw [hroot, frame_div] at hlen
    omega

theorem Space.Inv.setPage {P4 addr phys flags : Nat}
    (hallowed : s.Allowed b (.setPage P4 addr phys flags))
    (hcareful : s.Careful b (.setPage P4 addr phys flags))
    (hstep : s.step b (.setPage P4 addr phys flags) = some s') :
  s'.Inv b ∧ ∃ r, Roots b s.Live r ∧ resolveP4 (frame b) P4 = frame r
    ∧ ∀ q c, Roots b s.Live q → lookup (words s'.machine.mem) q c
        = setLookup (words s.machine.mem) r addr (addFlags phys flags) q c
  := by
  obtain ⟨u, hstep', hspec⟩ := h.setPage_spec hallowed hcareful
  obtain rfl := Option.some.inj (hstep.symm.trans hstep')
  apply hspec

theorem Space.Inv.freeP4 {P4 : Nat} (hP4 : P4 ∈ s.live) :
  ∃ r, P4 = frame r ∧ s.Live r
    ∧ (⟨vmmFreeP4 s.machine P4, s.live.filter fun P => P ≠ P4⟩ : Space).Inv b
  := by
  obtain ⟨r, rfl⟩ := h.aligned P4 hP4
  have hlt := (p2v_ne_zero (h.half.frame_lt (Or.inr hP4))).2
  obtain ⟨es, -, -, -, -, hwords, -⟩ := (h.half.userTree hP4).vmmFreeP4 hlt
  refine ⟨r, rfl, hP4, ?_⟩
  have hlive : Space.Live ⟨vmmFreeP4 s.machine (frame r), s.live.filter fun P => P ≠ frame r⟩
      = withoutRoot r s.Live := by
    funext q
    apply propext
    rw [Space.Live, List.mem_filter, decide_eq_true_iff, withoutRoot]
    apply and_congr_right
    intro _
    apply not_congr
    constructor
    · apply frame_inj
    · rintro rfl
      rfl
  constructor
  · rw [hlive]
    apply h.half.withoutRoot hP4 hwords
  · intro P hP
    apply h.aligned P (List.mem_filter.mp hP).1

/-- Every call of a run keeps the kernel half shared. -/
theorem Space.Inv.step {e : VmmCall} (hallowed : s.Allowed b e) (hcareful : s.Careful b e)
    (hstep : s.step b e = some s') :
  s'.Inv b
  := by
  cases e with
  | newP4 => exact h.newP4 hallowed hstep
  | setPage P4 addr phys flags => exact (h.setPage hallowed hcareful hstep).1
  | freeP4 P4 =>
      obtain ⟨-, -, -, hinv⟩ := h.freeP4 hallowed
      obtain rfl := Option.some.inj hstep
      apply hinv

end Step

/-! ### The kernel half in a run -/

/-- The read of a page in two address spaces with the same entry of the P4. -/
theorem findTable_congr {s : Machine} {t u : Nat} {i : Fin 512} (p : List (Fin 512))
    (h : entry s.mem t i = entry s.mem u i) :
  findTable false s t (i :: p) = findTable false s u (i :: p)
  := by
  simp only [findTable, nextTable, h, Bool.false_eq_true, if_false]

/-- The processor sees the same frame, when the tables are kept. -/
theorem KernelTables.translate_congr {b r : Nat} {T T' : Words} {live : Nat → Prop}
    (h : KernelTables b T live) (hr : Roots b live r)
    (hT : ∀ n, (∃ p, Tables (Roots b live) r p ∧ walk T r p = some n) → T' n = T n) (a : Nat) :
  translate T' r a = translate T r a
  := by
  have hprefix : ∀ p i, p ++ [i] <+: tablePath a ++ [p1Offset a] → Tables (Roots b live) r p := by
    intro p i hp
    have hlen := hp.length_le
    rw [List.length_append, List.length_append, tablePath_length] at hlen
    exact ⟨hr, Nat.le_of_add_le_add_right hlen⟩
  have hroot : T' r = T r := by
    apply hT
    exact ⟨[], ⟨hr, Nat.zero_le 3⟩, rfl⟩
  rw [translate, translate, hroot, descend_congr]
  · intro p u hp hne hu
    have hlen : p.length ≤ 3 := by
      have hle := hp.length_le
      have hne' : p.length ≠ (tablePath a ++ [p1Offset a]).length := by
        intro heq
        apply hne (hp.eq_of_length heq)
      rw [List.length_append, tablePath_length, List.length_singleton] at hle hne'
      omega
    have hlt := h.direct ⟨hr, hlen⟩ hu
    rw [frame, pageSize] at hlt
    omega
  · intro p i u hp hu
    rw [hT u]
    exact ⟨p, hprefix p i hp, hu⟩

/-- The calls of a run in which no page table is mapped for a user. -/
def CarefulStep (b : Nat) (s s' : Space) : Prop :=
  ∃ e, s.Allowed b e ∧ s.Careful b e ∧ s.step b e = some s'

theorem Space.Inv.of_run {b : Nat} {s : Space} (h : Reachable (Booted b) (CarefulStep b) s) :
  s.Inv b
  := by
  apply h.invariant
  · intro s hs
    apply hs.inv
  · rintro s s' hs ⟨e, hallowed, hcareful, hstep⟩
    apply hs.step hallowed hcareful hstep

section Run

variable {b : Nat} {s : Space}

theorem Space.Inv.entry_eq (h : s.Inv b) {P4 : Nat} (hP4 : P4 ∈ s.live) :
  entry s.machine.mem P4 511 = entry s.machine.mem (frame b) 511
  := by
  obtain ⟨r, rfl⟩ := h.aligned P4 hP4
  apply h.half.kernel hP4

/-- A kernel address is read alike in all address spaces. -/
theorem Space.Inv.vmmGetPage_eq (h : s.Inv b) {P4 a : Nat} (hP4 : P4 = 0 ∨ P4 ∈ s.live)
    (ha : p4Offset a = 511) :
  vmmGetPage (frame b) s.machine P4 a = vmmGetPage (frame b) s.machine 0 a
  := by
  by_cases hzero : P4 = 0
  · rw [hzero]
  · have hentry := h.entry_eq (hP4.resolve_left hzero)
    have hfind := findTable_congr [p3Offset a, p2Offset a] hentry
    have hboot : resolveP4 (frame b) 0 = frame b := by
      rw [resolveP4, if_pos rfl]
    have hproc : resolveP4 (frame b) P4 = P4 := by
      rw [resolveP4, if_neg hzero]
    simp only [vmmGetPage, vmmFindPage]
    rw [hproc, hboot, tablePath_stripFlags, tablePath, ha, hfind]

/-- The tables that `BootP4` and all live address spaces have in common. -/
def Space.SharedTable (b : Nat) (s : Space) (t : Nat) : Prop :=
  ∃ p, p.length ≤ 3 ∧ UnderKernel p ∧ walk (words s.machine.mem) b p = some t

/-- In every state of a run the entry 511 of every live P4 is that of `BootP4`, so that kernel
addresses are read alike in all address spaces; and `vmm_free_P4` changes no translation of a
kernel address and frees none of the shared tables. -/
theorem kernelHalf_of_run (h : Reachable (Booted b) (CarefulStep b) s) :
  (∀ P4 ∈ s.live, entry s.machine.mem P4 511 = entry s.machine.mem (frame b) 511)
    ∧ (∀ P4 ∈ s.live, ∀ a, p4Offset a = 511 →
        vmmGetPage (frame b) s.machine P4 a = vmmGetPage (frame b) s.machine 0 a)
    ∧ (∀ P4 ∈ s.live, ∀ a, p4Offset a = 511 →
        (∀ r, r = b ∨ (s.Live r ∧ frame r ≠ P4) →
          translate (words (vmmFreeP4 s.machine P4).mem) r a = translate (words s.machine.mem) r a)
        ∧ (¬ UnderHuge a → ∀ Q, Q = 0 ∨ (Q ∈ s.live ∧ Q ≠ P4) →
          vmmGetPage (frame b) (vmmFreeP4 s.machine P4) Q a = vmmGetPage (frame b) s.machine Q a))
    ∧ (∀ P4 ∈ s.live, ∃ L, (vmmFreeP4 s.machine P4).freed = L ++ s.machine.freed
        ∧ ∀ t, s.SharedTable b t → t ∉ L)
  := by
  have hinv := Space.Inv.of_run h
  refine ⟨fun P4 hP4 => hinv.entry_eq hP4, fun P4 hP4 a ha => hinv.vmmGetPage_eq (Or.inr hP4) ha,
    ?_, ?_⟩
  · intro P4 hP4 a ha
    obtain ⟨r, rfl, hr, hafter⟩ := hinv.freeP4 hP4
    have hb : b ≠ r := by
      rintro rfl
      apply hinv.half.notBoot hr
    have hlt := (p2v_ne_zero (hinv.half.frame_lt (Or.inr hr))).2
    obtain ⟨es, -, -, -, -, hwords, -⟩ := (hinv.half.userTree hr).vmmFreeP4 hlt
    constructor
    · intro q hq
      have hq' : Roots b (withoutRoot r s.Live) q := by
        apply hq.imp_right
        rintro ⟨hlive, hne⟩
        refine ⟨hlive, ?_⟩
        rintro rfl
        apply hne rfl
      apply hinv.half.translate_congr ((roots_withoutRoot hb).mp hq').1
      rintro n ⟨p, hp, hn⟩
      apply hwords
      intro hframe
      apply hinv.half.not_node_of_userFrame hr hframe
      exact ⟨q, p, ⟨hq', hp.2⟩, hn⟩
    · intro hhuge Q hQ
      have hQ' : Q = 0 ∨ Q ∈ s.live.filter fun P => P ≠ frame r := by
        apply hQ.imp_right
        rintro ⟨hmem, hne⟩
        rw [List.mem_filter, decide_eq_true_iff]
        exact ⟨hmem, hne⟩
      have hboot : resolveP4 (frame b) 0 = frame b := by
        rw [resolveP4, if_pos rfl]
      have hnew := hafter.vmmGetPage_eq hQ' ha
      simp only at hnew
      rw [hnew, hinv.vmmGetPage_eq (hQ.imp_right And.left) ha,
        hinv.half.vmmGetPage_eq (Or.inl rfl) hboot hhuge]
      have hread := hafter.half.vmmGetPage_eq (Or.inl rfl) hboot hhuge
      simp only at hread
      rw [hread]
      apply hinv.half.lookup_withoutRoot hr hwords (Or.inl rfl)
  · intro P4 hP4
    obtain ⟨r, rfl⟩ := hinv.aligned P4 hP4
    have hlt := (p2v_ne_zero (hinv.half.frame_lt (Or.inr hP4))).2
    obtain ⟨es, hes, -, -, hfreed, -⟩ := (hinv.half.userTree hP4).vmmFreeP4 hlt
    refine ⟨_, hfreed, ?_⟩
    rintro t ⟨p, hp, -, ht⟩ hmem
    have hframe : UserFrame (words s.machine.mem) r t := by
      obtain rfl | hmem := List.mem_cons.mp hmem
      · left
        rfl
      · right
        obtain ⟨e, he, rfl⟩ := List.mem_map.mp hmem
        obtain ⟨hedge, huser⟩ := (hes e).mp he
        exact ⟨e, hedge, huser, rfl⟩
    apply hinv.half.not_node_of_userFrame hP4 hframe
    exact ⟨b, p, ⟨Or.inl rfl, hp⟩, ht⟩

end Run

/-! ### A machine at boot -/

/-- The words of the boot tables, and zeros. -/
def bootWords (b : Nat) : Words := fun n i =>
  if n = b ∧ i = 511 then frame (b + 1) + (pagePresent ||| pageWrite)
  else if n = b + 1 ∧ i = 0 then frame (b + 2) + (pagePresent ||| pageWrite)
  else if n = b + 2 then i.val <<< 21 + (pagePresent ||| pageWrite ||| pageHuge)
  else 0

/-- A machine at boot, with `BootP4` in the frame 16 and free memory from the frame 32 on. -/
def bootSpace : Space where
  machine :=
    { mem := ofWords (bootWords 16)
      pmmRunning := false
      pmmPos := p2v (frame 32)
      pmmStack := 0
      taken := []
      freed := [] }
  live := []

theorem bootWords_lt (n : Nat) (i : Fin 512) :
  bootWords 16 n i < 2 ^ 64
  := by
  have hflags : pagePresent ||| pageWrite = 3 := rfl
  have hflags' : pagePresent ||| pageWrite ||| pageHuge = 0x83 := rfl
  have hi := i.isLt
  rw [bootWords, hflags', hflags]
  simp only [Nat.shiftLeft_eq, frame, pageSize]
  split_ifs
  · omega
  · omega
  · omega
  · omega

theorem words_bootSpace :
  words bootSpace.machine.mem = bootWords 16
  := by
  funext n i
  apply words_ofWords (bootWords_lt n i)

theorem bootTables_bootWords (b : Nat) :
  BootTables b (bootWords b)
  := by
  constructor
  · intro i
    simp [bootWords]
  · intro i
    simp [bootWords]
  · intro i
    simp [bootWords]

theorem booted_bootSpace :
  Booted 16 bootSpace
  := by
  refine ⟨by decide, ?_, rfl⟩
  rw [words_bootSpace]
  apply bootTables_bootWords

theorem supply_bootSpace :
  Supply [32, 33, 34, 35] bootSpace.machine
  := ⟨_, rfl, _, rfl, _, rfl, _, rfl, trivial⟩

/-- A frame behind the boot tables is no table at boot. -/
theorem not_node_bootSpace {f : Nat} (hf : 32 ≤ f) :
  ¬ Node child (words bootSpace.machine.mem) (Tables (Roots 16 bootSpace.Live)) f
  := by
  rintro ⟨r, p, ⟨hr, -⟩, hwalk⟩
  have hnone : ¬ bootSpace.Live r := List.not_mem_nil
  obtain rfl := hr.resolve_right hnone
  obtain ⟨-, rfl⟩ | ⟨-, rfl⟩ | ⟨-, rfl⟩ := booted_bootSpace.2.1.walk_eq hwalk
  all_goals omega

theorem unused_bootSpace {f : Nat} (hf : 32 ≤ f) (hf' : f < 64) :
  Unused 16 (words bootSpace.machine.mem) bootSpace.Live f
  := by
  refine ⟨?_, not_node_bootSpace hf, ?_⟩
  · rw [frame, pageSize]
    omega
  · rintro ⟨r, a, hr, -⟩
    exact absurd hr List.not_mem_nil

/-- The machine at boot after one call of `vmm_new_P4`. -/
theorem newP4_bootSpace :
  ∃ s, CarefulStep 16 bootSpace s ∧ s.live = [frame 32] ∧ s.machine.freed = []
    ∧ words s.machine.mem = newRoot 16 32 (bootWords 16) ∧ Supply [33, 34, 35] s.machine
  := by
  obtain ⟨m, hnew, hwords, hfs⟩ :=
    vmmNewP4_spec supply_source supply_bootSpace (b := 16) (by decide) (by decide)
  refine ⟨⟨m, [frame 32]⟩, ⟨.newP4, ?_, trivial, ?_⟩, rfl, ?_, ?_, hfs⟩
  · obtain ⟨s', halloc, -⟩ := supply_bootSpace
    exact ⟨32, ⟨s', halloc, trivial⟩, unused_bootSpace (Nat.le_refl 32) (by decide)⟩
  · rw [Space.step, hnew]
    rfl
  · obtain ⟨s', halloc, -⟩ := supply_bootSpace
    rw [vmmNewP4, halloc] at hnew
    obtain ⟨-, rfl⟩ := Prod.mk.inj (Option.some.inj hnew)
    apply (pmmAlloc_taken halloc).2
  · rw [hwords, words_bootSpace]

/-- The first address space has the kernel half of `BootP4`. -/
theorem kernelHalf_of_run_newP4 :
  ∃ s, Reachable (Booted 16) (CarefulStep 16) s ∧ s.live = [frame 32]
    ∧ entry s.machine.mem (frame 32) 511 = entry s.machine.mem (frame 16) 511
  := by
  obtain ⟨s, hstep, hlive, -⟩ := newP4_bootSpace
  have hs := (Reachable.start booted_bootSpace).next hstep
  refine ⟨s, hs, hlive, ?_⟩
  apply (kernelHalf_of_run hs).1
  simp [hlive]

/-- When a page of an address space is the frame of `BootP3`, `vmm_free_P4` frees this shared
table. -/
theorem sharedTable_freed :
  ∃ s, Reachable (Booted 16) (fun s s' => ∃ e, s.Allowed 16 e ∧ s.step 16 e = some s') s
    ∧ ∃ P4 ∈ s.live, ∃ t, s.SharedTable 16 t ∧ t ∉ s.machine.freed
      ∧ t ∈ (vmmFreeP4 s.machine P4).freed
  := by
  obtain ⟨s, ⟨e, hallowed, hcareful, hstep⟩, hlive, hfreed, hwords, hfs⟩ := newP4_bootSpace
  have hs : Reachable (Booted 16) (fun s s' => ∃ e, s.Allowed 16 e ∧ s.step 16 e = some s') s :=
    (Reachable.start booted_bootSpace).next ⟨e, hallowed, hstep⟩
  have hinv := booted_bootSpace.inv.step hallowed hcareful hstep
  have hroot : s.Live 32 := by
    rw [Space.Live, hlive]
    exact List.mem_singleton.mpr rfl
  have hboot := booted_bootSpace.inv.half
  have hnode32 := not_node_bootSpace (Nat.le_refl 32)
  have hrootWords : words s.machine.mem = newRoot 16 32 (words bootSpace.machine.mem) := by
    rw [hwords, words_bootSpace]
  have hempty : ∀ c, p4Offset c ≠ 511 → lookup (words s.machine.mem) 32 c = 0 := by
    intro c hc
    rw [hrootWords]
    apply lookup_newRoot_self hc
  have hlive' : ∀ r, s.Live r → r = 32 := by
    intro r hr
    rw [Space.Live, hlive] at hr
    apply frame_inj (List.mem_singleton.mp hr)
  have hunused : ∀ f ∈ [33, 34, 35], Unused 16 (words s.machine.mem) s.Live f := by
    intro f hf
    have hf' : 33 ≤ f ∧ f < 64 := by
      simp only [List.mem_cons, List.not_mem_nil, or_false] at hf
      omega
    refine ⟨?_, ?_, ?_⟩
    · rw [frame, pageSize]
      omega
    · have hsame : Roots 16 s.Live = Roots 16 (withRoot 32 bootSpace.Live) := by
        funext r
        rw [Roots, Roots, withRoot, Space.Live, Space.Live, hlive]
        simp only [List.mem_singleton, bootSpace, List.not_mem_nil, or_false, eq_iff_iff]
        apply or_congr_right
        exact ⟨frame_inj, congrArg frame⟩
      rw [hsame, hrootWords, hboot.node_newRoot hnode32, not_or]
      exact ⟨not_node_bootSpace (by omega), by omega⟩
    · rintro ⟨r, c, hr, hc, hne, -⟩
      rw [hlive' r hr] at hne
      apply hne (hempty c hc)
  -- the page of `BootP3` is mapped
  have hR : Roots 16 s.Live 32 := Or.inr hroot
  have hdom := tables_tablePath hR 0x400000
  have hhuge : ¬ UnderHuge 0x400000 := by decide
  have hP4 : resolveP4 (frame 16) (frame 32) = frame 32 := rfl
  obtain ⟨m, t, T', new, fs', hnew, hset, hgrown, ht, hm, -, -, hfreed'⟩ | ⟨hlen, -⟩ :=
    vmmSetPage_spec (supply_source.freed []) (fun p j hp => hp.append j) 7 hinv.half.forest hdom hP4
      (hinv.half.noHuge hR hhuge) (fun t ht => hinv.half.pointer hR ht) ⟨hfs, hfreed⟩ (by decide)
      (fun f hf => ⟨(p2v_ne_zero (hunused f hf).1).2, (p2v_ne_zero (hunused f hf).1).1,
        (hunused f hf).2.1⟩) (show frame 17 < 2 ^ 64 by decide)
  · have hstep' : s.step 16 (.setPage (frame 32) 0x400000 (frame 17) 7) = some ⟨m, s.live⟩ := by
      rw [Space.step, hset]
      rfl
    have hmem : frame 32 ∈ s.live := hroot
    have hallowed' : s.Allowed 16 (.setPage (frame 32) 0x400000 (frame 17) 7) := by
      refine ⟨Or.inr hmem, hhuge, by decide, [33, 34, 35], hfs, by decide, ?_, ?_⟩
      · apply missing_le
      · intro f hf
        refine ⟨hunused f hf, ?_⟩
        rintro - rfl
        revert hf
        decide
    have htables := hinv.half.toKernelTables.setWord hR hgrown ht (addFlags (frame 17) 7) (by
      intro f hf
      apply (hunused f _).1
      rw [hnew]
      apply List.mem_append_left _ hf)
    rw [← hm] at htables
    have hshared : walk (words m.mem) 16 [511] = some 17 := by
      have hentry := (hinv.half.toKernelTables.kernel_setWord hR hgrown ht
        (addFlags (frame 17) 7) (Or.inl rfl)).1
      rw [← hm, hwords, newRoot_of_ne (by decide), (bootTables_bootWords 16).p4, if_pos rfl]
        at hentry
      rw [walk_cons, hentry, (child_boot _).1]
      rfl
    have hT : UserTree (words m.mem) 32 := by
      apply htables.userTree hroot
      intro c q hc hne hq hq' hwalk'
      rw [hm, hinv.half.toKernelTables.lookup_setWord hR hgrown ht _ hR, setLookup, hempty c hc]
        at hne hwalk'
      split_ifs at hne hwalk'
      · obtain ⟨rfl, -⟩ := htables.forest.unique ⟨hR, hq⟩
          ⟨Or.inl rfl, (by decide : [511].length ≤ 3)⟩ (hm ▸ hwalk') hshared
        apply hq' rfl
      · apply hne rfl
    refine ⟨⟨m, s.live⟩, hs.next ⟨_, hallowed', hstep'⟩, frame 32, hmem, 17, ?_, ?_, ?_⟩
    · rw [Space.SharedTable]
      refine ⟨[511], by decide, rfl, ?_⟩
      apply hshared
    · simp only [hfreed']
      exact List.not_mem_nil
    · have hpage : lookup (words m.mem) 32 0x400000 = addFlags (frame 17) 7 := by
        rw [hm, hinv.half.toKernelTables.lookup_setWord hR hgrown ht _ hR, setLookup,
          if_pos ⟨⟨rfl, rfl⟩, Or.inl rfl⟩]
      have hfree := hT.mem_freed (by decide) (by decide) (a := 0x400000) (by
        rw [hpage]
        decide)
      rw [hpage, addFlags_div, frame_div] at hfree
      apply hfree
  · have hle := missing_le (words s.machine.mem) 32 (tablePath 0x400000)
    rw [tablePath_length] at hle
    simp only [List.length_cons, List.length_nil] at hlen
    omega

end Mem
