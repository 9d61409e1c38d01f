import Mittos64.Proc.Pages

/-!
# Copying between address spaces

`vmm_p4_memcpy` and `vmm_p4_memset` go through the pages of an address space by its page tables.
When the pages they write are mapped, to other frames than the frame 0, they write all bytes of
the range and no other byte of the memory.
-/

namespace Procmm

open Mem

/-! ### The bytes of an address space -/

/-- The physical address of the address `a` in the address space `r`. -/
def place (T : Words) (r a : Nat) : Nat :=
  frame (lookup T r a / pageSize) + a % pageSize

/-- The byte at the address `a` of the address space `r`. -/
def byteAt (s : Machine) (r a : Nat) : UInt8 :=
  s.mem (place (words s.mem) r a)

/-- The pages of the `n` addresses from `a` on are mapped, and not to the frame 0. -/
def Backed (T : Words) (r a n : Nat) : Prop :=
  ∀ i < n, ¬ UnderHuge (a + i) ∧ lookup T r (a + i) / pageSize ≠ 0

/-- The bytes `bytes` have been written to the `n` addresses from `a` on. -/
structure Written (T : Words) (r a n : Nat) (bytes : Nat → UInt8) (m m' : Memory) : Prop where
  written : ∀ i < n, m' (place T r (a + i)) = bytes i
  other : ∀ x, (∀ i < n, x ≠ place T r (a + i)) → m' x = m x

theorem lookup_stripFlags (T : Words) (r a : Nat) :
  lookup T r (stripFlags a) = lookup T r a
  := by
  have hp1 : p1Offset (stripFlags a) = p1Offset a := tableOffset_stripFlags a (Nat.le_refl 12)
  rw [lookup, lookup, tablePath_stripFlags, hp1]

/-- The addresses of a page have the same entry. -/
theorem lookup_of_div_eq (T : Words) (r : Nat) {a c : Nat} (h : a / pageSize = c / pageSize) :
  lookup T r a = lookup T r c
  := by
  rw [← lookup_stripFlags T r a, ← lookup_stripFlags T r c, stripFlags_eq, stripFlags_eq, h]

theorem place_congr {T T' : Words} {r a : Nat} (h : lookup T' r a = lookup T r a) :
  place T' r a = place T r a
  := by
  rw [place, place, h]

theorem place_div (T : Words) (r a : Nat) :
  place T r a / pageSize = lookup T r a / pageSize
  := by
  rw [place, frame, Nat.mul_add_div (by decide), Nat.div_eq_of_lt (Nat.mod_lt a (by decide)),
    Nat.add_zero]

theorem place_mod (T : Words) (r a : Nat) :
  place T r a % pageSize = a % pageSize
  := by
  rw [place, frame, Nat.mul_add_mod, Nat.mod_mod]

/-- The places of the addresses of a page follow one another. -/
theorem place_add (T : Words) (r : Nat) {a i : Nat} (h : a % pageSize + i < pageSize) :
  place T r (a + i) = place T r a + i
  := by
  have hdiv : (a + i) / pageSize = a / pageSize := by
    rw [pageSize] at h ⊢
    omega
  have hmod : (a + i) % pageSize = a % pageSize + i := by
    rw [pageSize] at h ⊢
    omega
  rw [place, place, lookup_of_div_eq T r hdiv, hmod, Nat.add_assoc]

/-- A byte is part of a word. -/
theorem byte_of_word {m m' : Memory} {x : Nat}
    (h : words m' (x / pageSize) (Fin.ofNat 512 (x / 8))
      = words m (x / pageSize) (Fin.ofNat 512 (x / 8))) :
  m' x = m x
  := by
  have hx : frame (x / pageSize) + 8 * (Fin.ofNat 512 (x / 8)).val + x % 8 = x := by
    simp only [frame, pageSize, Fin.val_ofNat]
    omega
  rw [← hx]
  exact Memory.bytes_of_load h _ (Nat.mod_lt x (by decide))

/-- The bytes of a frame are those of its words. -/
theorem bytes_of_words {m m' : Memory} {x : Nat}
    (h : words m' (x / pageSize) = words m (x / pageSize)) :
  m' x = m x
  := byte_of_word (congrFun h _)

theorem words_of_bytes {m m' : Memory} {n : Nat} (h : ∀ x, x / pageSize = n → m' x = m x) :
  words m' n = words m n
  := by
  funext i
  apply words_congr
  intro x hx hx'
  apply h
  rw [frame] at hx hx'
  rw [pageSize] at hx hx' ⊢
  omega

section Written

variable {T : Words} {r a n : Nat} {bytes : Nat → UInt8} {m m' : Memory}

/-- A block inside a page. -/
theorem written_write {l : List UInt8} (hl : a % pageSize + l.length ≤ pageSize) :
  Written T r a l.length (fun i => l.getD i 0) m (m.write (place T r a) l)
  := by
  constructor
  · intro i hi
    rw [place_add T r (by omega), Memory.write_apply_of_lt m hi]
    simp [hi]
  · intro x hx
    apply Memory.write_of_notMem
    by_contra hin
    apply hx (x - place T r a) (by omega)
    rw [place_add T r (by omega)]
    omega

/-- The bytes of one page, copied to a page. -/
theorem written_copy {r' src : Nat} (ha : a % pageSize + n ≤ pageSize)
    (hsrc : src % pageSize + n ≤ pageSize) :
  Written T r a n (fun i => m (place T r' (src + i))) m
    (m.write (place T r a) (m.read (place T r' src) n))
  := by
  have hw := @written_write T r a m (m.read (place T r' src) n) (by
    rw [Memory.read_length]
    exact ha)
  rw [Memory.read_length] at hw
  refine ⟨?_, hw.other⟩
  intro i hi
  have hlen : i < (m.read (place T r' src) n).length := by
    rw [Memory.read_length]
    exact hi
  rw [hw.written i hi, place_add T r' (by omega), ← Memory.read_getElem m hlen,
    List.getD_eq_getElem?_getD, List.getElem?_eq_getElem hlen, Option.getD_some]

theorem Written.refl (T : Words) (r a : Nat) (bytes : Nat → UInt8) (m : Memory) :
  Written T r a 0 bytes m m
  := ⟨fun i hi => absurd hi (Nat.not_lt_zero i), fun _ _ => rfl⟩

theorem written_fill {c : UInt8} (hn : a % pageSize + n ≤ pageSize) :
  Written T r a n (fun _ => c) m (m.fill (place T r a) c n)
  := by
  constructor
  · intro i hi
    rw [place_add T r (by omega)]
    apply Memory.fill_of_mem
    · omega
    · omega
  · intro x hx
    apply Memory.fill_of_notMem
    by_contra hin
    apply hx (x - place T r a) (by omega)
    rw [place_add T r (by omega)]
    omega

/-- One block after the other. -/
theorem Written.append {k : Nat} {m'' : Memory} (hk : k ≤ n) (h : Written T r a k bytes m m')
    (h' : Written T r (a + k) (n - k) (fun i => bytes (k + i)) m' m'')
    (hdisj : ∀ i j, i < k → k ≤ j → j < n → place T r (a + i) ≠ place T r (a + j)) :
  Written T r a n bytes m m''
  := by
  constructor
  · intro i hi
    by_cases hik : i < k
    · rw [h'.other, h.written i hik]
      intro j hj
      rw [Nat.add_assoc]
      exact hdisj i (k + j) hik (by omega) (by omega)
    · have hw := h'.written (i - k) (by omega)
      rw [Nat.add_assoc, Nat.add_sub_cancel' (Nat.le_of_not_lt hik)] at hw
      exact hw
  · intro x hx
    rw [h'.other, h.other]
    · intro i hi
      exact hx i (by omega)
    · intro i hi
      rw [Nat.add_assoc]
      exact hx (k + i) (by omega)

/-- What is written depends on the entries of the pages only. -/
theorem Written.congr {T' : Words} (hT : ∀ i < n, lookup T' r (a + i) = lookup T r (a + i))
    (h : Written T r a n bytes m m') :
  Written T' r a n bytes m m'
  := by
  have hplace : ∀ i < n, place T' r (a + i) = place T r (a + i) := by
    intro i hi
    rw [place, place, hT i hi]
  constructor
  · intro i hi
    rw [hplace i hi]
    exact h.written i hi
  · intro x hx
    apply h.other
    intro i hi
    rw [← hplace i hi]
    exact hx i hi

end Written

/-! ### The loops -/

section Loops

variable {b q P4 : Nat} {own live : Nat → Prop} {fs : List Nat}

/-- Two user addresses with the same place are the same address. -/
theorem Sound.place_inj {s : Machine} {q' a a' : Nat} (h : Sound b own live fs s) (hq : own q)
    (hq' : live q') (ha : a < userspaceTop) (ha' : a' < userspaceTop)
    (hne : lookup (words s.mem) q a ≠ 0) (hne' : lookup (words s.mem) q' a' ≠ 0)
    (heq : place (words s.mem) q a = place (words s.mem) q' a') :
  q = q' ∧ a = a'
  := by
  have hframe : lookup (words s.mem) q a / pageSize = lookup (words s.mem) q' a' / pageSize := by
    rw [← place_div, ← place_div, heq]
  have hoffset : a % pageSize = a' % pageSize := by
    rw [← place_mod (words s.mem) q a, ← place_mod (words s.mem) q' a', heq]
  obtain ⟨hroot, hpage⟩ :=
    h.distinct hq hq' (user_ne_kernel ha).1 (user_ne_kernel ha').1 hne hne' hframe
  rw [userspaceTop] at ha ha'
  rw [samePage_iff (by omega) (by omega)] at hpage
  refine ⟨hroot, ?_⟩
  rw [← Nat.div_add_mod a pageSize, ← Nat.div_add_mod a' pageSize, hpage, hoffset]

theorem lookup_ne_zero {T : Words} {r a : Nat} (h : lookup T r a / pageSize ≠ 0) :
  lookup T r a ≠ 0
  := by
  intro hzero
  rw [hzero, Nat.zero_div] at h
  exact h rfl

/-- Writing to the pages of a user changes neither tables nor free frames. -/
theorem Sound.words_written {s : Machine} {a n : Nat} {bytes : Nat → UInt8} {mem : Memory}
    (h : Sound b own live fs s) (hq : live q) (ha : a + n ≤ userspaceTop)
    (hback : Backed (words s.mem) q a n)
    (hw : Written (words s.mem) q a n bytes s.mem mem) (f : Nat)
    (hf : IsTable b live s f ∨ f ∈ fs) :
  words mem f = words s.mem f
  := by
  apply words_of_bytes
  intro x hx
  apply hw.other
  rintro i hi rfl
  rw [place_div] at hx
  have hmapped : Mapped (words s.mem) live f :=
    ⟨q, a + i, hq, (user_ne_kernel (by omega)).1, lookup_ne_zero (hback i hi).2, hx.symm⟩
  obtain hf | hf := hf
  · exact h.half.mapped hmapped hf
  · exact (h.unused f hf).2.2 hmapped

theorem Sound.written {s : Machine} {a n : Nat} {bytes : Nat → UInt8} {mem : Memory}
    (h : Sound b own live fs s) (hq : live q) (ha : a + n ≤ userspaceTop)
    (hback : Backed (words s.mem) q a n)
    (hw : Written (words s.mem) q a n bytes s.mem mem) :
  Sound b own live fs (s.withMem mem)
    ∧ (∀ n, IsTable b live (s.withMem mem) n ↔ IsTable b live s n)
    ∧ ∀ r c, Roots b live r → lookup (words mem) r c = lookup (words s.mem) r c
  := by
  have hwords := h.words_written hq ha hback hw
  apply h.withMem
  · exact fun n hn => hwords n (Or.inl hn)
  · intro f hf
    rw [hwords f (Or.inr hf)]

/-- The places of a range of user addresses are different ones. -/
theorem Sound.place_ne {s : Machine} {a n i j : Nat} (h : Sound b own live fs s) (hq : own q)
    (ha : a + n ≤ userspaceTop) (hback : Backed (words s.mem) q a n) (hi : i < n) (hj : j < n)
    (hij : i ≠ j) :
  place (words s.mem) q (a + i) ≠ place (words s.mem) q (a + j)
  := by
  intro heq
  obtain ⟨-, heq'⟩ := h.place_inj hq (h.owned hq) (by omega) (by omega) (lookup_ne_zero (hback i hi).2)
    (lookup_ne_zero (hback j hj).2) heq
  omega

/-- The physical address that the loops compute. -/
theorem Sound.page_place {s : Machine} {r a : Nat} (h : Sound b own live fs s) (hr : Roots b live r)
    (hP4 : resolveP4 (frame b) P4 = frame r) (ha : ¬ UnderHuge a) :
  stripFlags (vmmGetPage (frame b) s P4 a) + a % pageSize = place (words s.mem) r a
    ∧ (stripFlags (vmmGetPage (frame b) s P4 a) = 0 ↔ lookup (words s.mem) r a / pageSize = 0)
  := by
  rw [h.half.toKernelTables.vmmGetPage_eq hr hP4 ha, stripFlags_eq]
  refine ⟨rfl, ?_⟩
  rw [frame, Nat.mul_eq_zero]
  constructor
  · rintro (hzero | hzero)
    · cases hzero
    · exact hzero
  · exact Or.inr

theorem Backed.drop {T : Words} {r a n : Nat} (h : Backed T r a n) (k : Nat) :
  Backed T r (a + k) (n - k)
  := by
  intro i hi
  rw [Nat.add_assoc]
  exact h (k + i) (by omega)

theorem Backed.congr {T T' : Words} {r a n : Nat} (h : Backed T r a n)
    (hT : ∀ c, lookup T' r c = lookup T r c) :
  Backed T' r a n
  := by
  intro i hi
  rw [hT]
  exact h i hi

/-- A turn of the loop of `vmm_p4_memcpy`, up to the next end of a page. -/
theorem Sound.memcpyLoop_turn {q' P4' fuel n dst src copied k : Nat} {s : Machine}
    (h : Sound b own live fs s) (hq : own q) (hq' : Roots b live q')
    (hP4 : resolveP4 (frame b) P4 = frame q) (hP4' : resolveP4 (frame b) P4' = frame q')
    (hdst : ¬ UnderHuge dst ∧ lookup (words s.mem) q dst / pageSize ≠ 0)
    (hsrc : ¬ UnderHuge src ∧ lookup (words s.mem) q' src / pageSize ≠ 0)
    (hd : dst + k < 2 ^ 64) (hs : src + k < 2 ^ 64) (hn : n ≠ 0)
    (hk : k = min (min (pageSize - dst % pageSize) (pageSize - src % pageSize)) n) :
  Procmm.memcpyLoop (frame b) P4 P4' (fuel + 1) s dst src n copied
    = Procmm.memcpyLoop (frame b) P4 P4' fuel
        (s.withMem (s.mem.write (place (words s.mem) q dst)
          (s.mem.read (place (words s.mem) q' src) k)))
        (dst + k) (src + k) (n - k) (copied + k)
  := by
  obtain ⟨hdplace, hdzero⟩ := h.page_place (Or.inr (h.owned hq)) hP4 hdst.1
  obtain ⟨hsplace, hszero⟩ := h.page_place hq' hP4' hsrc.1
  have hnot : ¬ (stripFlags (vmmGetPage (frame b) s P4 dst) = 0
      ∨ stripFlags (vmmGetPage (frame b) s P4' src) = 0) := by
    rw [hdzero, hszero]
    exact not_or.mpr ⟨hdst.2, hsrc.2⟩
  rw [Procmm.memcpyLoop, if_neg hn]
  dsimp only
  rw [if_neg hnot, hdplace, hsplace, ← hk, incptr_of_lt hd, incptr_of_lt hs]

/-- The loop of `vmm_p4_memcpy` -/
theorem Sound.memcpyLoop {q' P4' fuel n dst src copied : Nat} {s : Machine}
    (h : Sound b own live fs s) (hq : own q) (hq' : Roots b live q')
    (hP4 : resolveP4 (frame b) P4 = frame q) (hP4' : resolveP4 (frame b) P4' = frame q')
    (hdst : Backed (words s.mem) q dst n) (hsrc : Backed (words s.mem) q' src n)
    (hdisj : ∀ i j, i < n → j < n → lookup (words s.mem) q (dst + i) / pageSize
      ≠ lookup (words s.mem) q' (src + j) / pageSize)
    (hd : dst + n ≤ userspaceTop) (hs : src + n < 2 ^ 64) (hfuel : n ≤ fuel) :
  ∃ mem, memcpyLoop (frame b) P4 P4' fuel s dst src n copied = (copied + n, s.withMem mem)
    ∧ Written (words s.mem) q dst n (fun i => s.mem (place (words s.mem) q' (src + i))) s.mem mem
  := by
  induction fuel generalizing s dst src n copied with
  | zero =>
      obtain rfl := Nat.le_zero.mp hfuel
      exact ⟨s.mem, rfl, .refl _ _ _ _ _⟩
  | succ fuel ih =>
      by_cases hn : n = 0
      · subst hn
        refine ⟨s.mem, ?_, .refl _ _ _ _ _⟩
        rw [Procmm.memcpyLoop, if_pos rfl]
        rfl
      · obtain ⟨k, hk⟩ : ∃ k, k = min (min (pageSize - dst % pageSize) (pageSize - src % pageSize)) n :=
          ⟨_, rfl⟩
        have hdmod : dst % pageSize < pageSize := Nat.mod_lt _ (by decide)
        have hsmod : src % pageSize < pageSize := Nat.mod_lt _ (by decide)
        have hkn : k ≤ n := hk ▸ Nat.min_le_right _ _
        have hkd : dst % pageSize + k ≤ pageSize := by omega
        have hks : src % pageSize + k ≤ pageSize := by omega
        have hkpos : 0 < k := by omega
        have hturn := @Sound.memcpyLoop_turn b q P4 own live fs q' P4' fuel n dst src copied k s h hq
          hq' hP4 hP4' (hdst 0 (by omega)) (hsrc 0 (by omega)) (by rw [userspaceTop] at hd; omega)
          (by omega) hn hk
        -- the first block
        have hfirst := @written_copy (words s.mem) q dst k s.mem q' src hkd hks
        generalize s.mem.write (place (words s.mem) q dst)
          (s.mem.read (place (words s.mem) q' src) k) = mem₁ at hturn hfirst
        have hback₁ : Backed (words s.mem) q dst k := fun i hi => hdst i (by omega)
        obtain ⟨hsound₁, -, hlookup⟩ := h.written (h.owned hq) (by omega) hback₁ hfirst
        have hwords₁ : words (s.withMem mem₁).mem = words mem₁ := rfl
        obtain ⟨mem, hloop, hrest⟩ := @ih (n - k) (dst + k) (src + k) (copied + k)
          (s.withMem mem₁) hsound₁
          ((hdst.drop k).congr fun c => hlookup q c (Or.inr (h.owned hq)))
          ((hsrc.drop k).congr fun c => hlookup q' c hq')
          (by
            intro i j hi hj
            rw [hwords₁, hlookup q _ (Or.inr (h.owned hq)), hlookup q' _ hq', Nat.add_assoc, Nat.add_assoc]
            exact hdisj (k + i) (k + j) (by omega) (by omega))
          (by omega) (by omega) (by omega)
        refine ⟨mem, ?_, ?_⟩
        · rw [hturn, hloop]
          have hsum : copied + k + (n - k) = copied + n := by omega
          rw [hsum]
          rfl
        · apply hfirst.append hkn
          · have hrest' := hrest.congr fun i _ => (hlookup q (dst + k + i) (Or.inr (h.owned hq))).symm
            refine ⟨?_, hrest'.other⟩
            intro i hi
            have hplace : place (words mem₁) q' (src + k + i)
                = place (words s.mem) q' (src + (k + i)) := by
              rw [place, place, hlookup q' _ hq', Nat.add_assoc]
            rw [hrest'.written i hi, hwords₁, hplace]
            apply hfirst.other
            intro j hj heq
            apply hdisj j (k + i) (by omega) (by omega)
            rw [← place_div, ← place_div, heq]
          · intro i j hi hkj hj
            exact h.place_ne hq hd hdst (by omega) hj (by omega)

/-- `vmm_p4_memcpy` takes a page in the frame 0 for a page that is not there. -/
theorem vmmP4Memcpy_null {bootP4 dstP4 dst srcP4 src n : Nat} {s : Machine} (hn : 0 < n)
    (hsrc : stripFlags (vmmGetPage bootP4 s srcP4 src) = 0) :
  vmmP4Memcpy bootP4 s dstP4 dst srcP4 src n = (0, s)
  := by
  obtain ⟨n, rfl⟩ := Nat.exists_eq_succ_of_ne_zero (Nat.ne_of_gt hn)
  rw [vmmP4Memcpy, Procmm.memcpyLoop, if_neg (Nat.succ_ne_zero n)]
  dsimp only
  rw [if_pos (Or.inr hsrc)]

/-- The loop of `vmm_p4_memset` -/
theorem Sound.memsetLoop {fuel n a set : Nat} {c : UInt8} {s : Machine} (h : Sound b own live fs s)
    (hq : own q) (hP4 : resolveP4 (frame b) P4 = frame q) (hback : Backed (words s.mem) q a n)
    (ha : a + n ≤ userspaceTop) (hfuel : n ≤ fuel) :
  ∃ mem, memsetLoop (frame b) P4 c fuel s a n set = (set + n, s.withMem mem)
    ∧ Written (words s.mem) q a n (fun _ => c) s.mem mem
  := by
  induction fuel generalizing s a n set with
  | zero =>
      obtain rfl := Nat.le_zero.mp hfuel
      exact ⟨s.mem, rfl, .refl _ _ _ _ _⟩
  | succ fuel ih =>
      by_cases hn : n = 0
      · subst hn
        refine ⟨s.mem, ?_, .refl _ _ _ _ _⟩
        rw [Procmm.memsetLoop, if_pos rfl]
        rfl
      · obtain ⟨k, hk⟩ : ∃ k, k = min (pageSize - a % pageSize) n := ⟨_, rfl⟩
        have hmod : a % pageSize < pageSize := Nat.mod_lt _ (by decide)
        have hkn : k ≤ n := hk ▸ Nat.min_le_right _ _
        have hka : a % pageSize + k ≤ pageSize := by omega
        obtain ⟨hplace, hzero⟩ := h.page_place (Or.inr (h.owned hq)) hP4 (hback 0 (by omega)).1
        rw [Nat.add_zero] at hplace hzero
        have hne := (hback 0 (by omega)).2
        rw [Nat.add_zero] at hne
        obtain ⟨mem₁, hmem₁⟩ : ∃ mem₁, mem₁ = s.mem.fill (place (words s.mem) q a) c k := ⟨_, rfl⟩
        have hfirst : Written (words s.mem) q a k (fun _ => c) s.mem mem₁ := by
          rw [hmem₁]
          exact written_fill hka
        have hback₁ : Backed (words s.mem) q a k := fun i hi => hback i (by omega)
        obtain ⟨hsound₁, -, hlookup⟩ := h.written (h.owned hq) (by omega) hback₁ hfirst
        have hturn : Procmm.memsetLoop (frame b) P4 c (fuel + 1) s a n set
            = Procmm.memsetLoop (frame b) P4 c fuel (s.withMem mem₁) (a + k) (n - k)
              (set + k) := by
          have hinc : incptr a k = a + k := by
            apply incptr_of_lt
            rw [userspaceTop] at ha
            omega
          rw [Procmm.memsetLoop, if_neg hn]
          dsimp only
          rw [if_neg (hzero.not.mpr hne), hplace, ← hk, ← hmem₁, hinc]
        obtain ⟨mem, hloop, hrest⟩ := @ih (n - k) (a + k) (set + k) (s.withMem mem₁)
          hsound₁ ((hback.drop k).congr fun c => hlookup q c (Or.inr (h.owned hq)))
          (by omega) (by omega)
        refine ⟨mem, ?_, ?_⟩
        · rw [hturn, hloop]
          have hsum : set + k + (n - k) = set + n := by omega
          rw [hsum]
          rfl
        · apply hfirst.append hkn
          · exact hrest.congr (fun i _ => (hlookup q _ (Or.inr (h.owned hq))).symm)
          · intro i j hi hkj hj
            exact h.place_ne hq ha hback (by omega) hj (by omega)

end Loops

end Procmm
