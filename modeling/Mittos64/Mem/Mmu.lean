import Mittos64.Mem.VmmLookup

/-!
# The walk of the processor

What the processor makes of the page tables: at every level an entry must be present, an entry of
a P3 or a P2 with `PAGE_HUGE` ends the walk at a frame of one gibibyte or two mebibytes, and bits
12 to 51 of an entry are the number of the frame it points to.  Where the tables have no
`PAGE_HUGE`, this is the walk of `vmm_find_page`.
-/

namespace Mem

/-- The entry has the flag `PAGE_PRESENT`. -/
def isPresent (e : Nat) : Bool :=
  e.testBit 0

/-- The frame an entry points to. -/
def frameOf (e : Nat) : Nat :=
  e / pageSize % 2 ^ 40

/-- The number of the frame at the end of the indices `path` inside a huge frame. -/
def offsetIn (path : List (Fin 512)) : Nat :=
  path.foldl (fun n i => 512 * n + i) 0

/-- The frame that the processor reaches from the table `t` along the indices. -/
def descend (T : Words) : Nat → List (Fin 512) → Option Nat
  | t, [] => some t
  | t, i :: path =>
      if isPresent (T t i) then
        if isHuge (T t i) ∧ path ≠ [] then
          some (frameOf (T t i) / 512 ^ path.length * 512 ^ path.length + offsetIn path)
        else descend T (frameOf (T t i)) path
      else none

/-- The frame of the address `a` in the address space `r`, for the processor.  In a P4 the bit of
`PAGE_HUGE` is reserved. -/
def translate (T : Words) (r a : Nat) : Option Nat :=
  if isHuge (T r (p4Offset a)) then none else descend T r (tablePath a ++ [p1Offset a])

variable {T T' : Words}

theorem ne_zero_of_isPresent {e : Nat} (h : isPresent e = true) :
  e ≠ 0
  := by
  rintro rfl
  cases h

theorem frameOf_eq {e : Nat} (h : e / pageSize < 2 ^ 40) :
  frameOf e = e / pageSize
  := Nat.mod_eq_of_lt h

/-- The processor depends on the tables it passes only. -/
theorem descend_congr {t : Nat} {path : List (Fin 512)}
    (hlt : ∀ p u, p <+: path → p ≠ path → walk T t p = some u → u < 2 ^ 40)
    (h : ∀ p i u, p ++ [i] <+: path → walk T t p = some u → T' u i = T u i) :
  descend T' t path = descend T t path
  := by
  induction path generalizing t with
  | nil => rfl
  | cons i path ih =>
      have hhere : T' t i = T t i := by
        apply h [] i t _ rfl
        simp
      rw [descend, descend, hhere]
      split_ifs with hpresent hhuge
      · rfl
      · cases path with
        | nil => rfl
        | cons j path =>
            have hsmall : isHuge (T t i) = false := by
              simpa using hhuge
            have hstart := walk_child (ne_zero_of_isPresent hpresent) hsmall
            have hframe := hlt [i] _ (by simp) (by simp) (hstart [])
            rw [frameOf_eq hframe]
            apply ih
            · intro p u hp hne hu
              apply hlt (i :: p) u (by simpa using hp) (by simpa using hne)
              rw [hstart, hu]
            · intro p k u hp hu
              apply h (i :: p) k u (by simpa using hp)
              rw [hstart, hu]
      · rfl

/-- The processor finds a frame again when the entries that were there are the same. -/
theorem descend_mono {t f : Nat} {path : List (Fin 512)}
    (hlt : ∀ p u, p <+: path → p ≠ path → walk T t p = some u → u < 2 ^ 40)
    (h : ∀ p i u, p ++ [i] <+: path → walk T t p = some u → T u i ≠ 0 → T' u i = T u i)
    (hf : descend T t path = some f) :
  descend T' t path = some f
  := by
  induction path generalizing t with
  | nil => exact hf
  | cons i path ih =>
      rw [descend] at hf
      split_ifs at hf with hpresent hhuge
      · have hhere : T' t i = T t i := by
          apply h [] i t _ rfl (ne_zero_of_isPresent hpresent)
          simp
        rw [descend, hhere, if_pos hpresent, if_pos hhuge]
        exact hf
      · have hhere : T' t i = T t i := by
          apply h [] i t _ rfl (ne_zero_of_isPresent hpresent)
          simp
        rw [descend, hhere, if_pos hpresent, if_neg hhuge]
        cases path with
        | nil => exact hf
        | cons j path =>
            have hsmall : isHuge (T t i) = false := by
              simpa using hhuge
            have hstart := walk_child (ne_zero_of_isPresent hpresent) hsmall
            have hframe := hlt [i] _ (by simp) (by simp) (hstart [])
            rw [frameOf_eq hframe] at hf ⊢
            apply ih _ _ hf
            · intro p u hp hne hu
              apply hlt (i :: p) u (by simpa using hp) (by simpa using hne)
              rw [hstart, hu]
            · intro p k u hp hu
              apply h (i :: p) k u (by simpa using hp)
              rw [hstart, hu]

/-- Where there is no `PAGE_HUGE` the processor walks the trie. -/
theorem descend_eq {t : Nat} {path : List (Fin 512)} {i : Fin 512} {f : Nat}
    (hhuge : NoHuge T t path)
    (hlt : ∀ p u, p <+: path → walk T t p = some u → u < 2 ^ 40)
    (h : descend T t (path ++ [i]) = some f) :
  ∃ u, walk T t path = some u ∧ isPresent (T u i) = true ∧ f = frameOf (T u i)
  := by
  induction path generalizing t with
  | nil =>
      rw [List.nil_append, descend] at h
      split_ifs at h with hpresent hif
      · exact absurd rfl hif.2
      · refine ⟨t, rfl, hpresent, ?_⟩
        apply (Option.some.inj h).symm
  | cons j path ih =>
      rw [List.cons_append, descend, hhuge.head] at h
      split_ifs at h with hpresent hif
      · exact hif.1.elim
      · have hne := ne_zero_of_isPresent hpresent
        have hstart := walk_child hne hhuge.head
        have hframe := hlt [j] _ (by simp) (hstart [])
        rw [frameOf_eq hframe] at h
        rw [hstart]
        apply ih (hhuge.rest hne) _ h
        intro p u hp hu
        apply hlt (j :: p) u (by simpa using hp)
        rw [hstart, hu]

/-- Where all entries are present and there is no `PAGE_HUGE`, the processor finds what the walk
of the trie finds. -/
theorem descend_of_walk {t u : Nat} {path : List (Fin 512)} {i : Fin 512}
    (hhuge : NoHuge T t path)
    (hlt : ∀ p u, p <+: path → walk T t p = some u → u < 2 ^ 40)
    (hpresent : ∀ p j u, p ++ [j] <+: path → walk T t p = some u → T u j ≠ 0 →
      isPresent (T u j) = true)
    (hu : walk T t path = some u) (hpage : isPresent (T u i) = true) :
  descend T t (path ++ [i]) = some (frameOf (T u i))
  := by
  induction path generalizing t with
  | nil =>
      obtain rfl := Option.some.inj hu
      rw [List.nil_append, descend, if_pos hpage, if_neg (fun hand => hand.2 rfl), descend]
  | cons j path ih =>
      have hne : T t j ≠ 0 := by
        intro hzero
        rw [walk_cons, hzero] at hu
        cases hu
      have hhere : isPresent (T t j) = true := by
        apply hpresent [] j t _ rfl hne
        simp
      have hstart := walk_child hne hhuge.head
      have hframe := hlt [j] _ (by simp) (hstart [])
      rw [hstart] at hu
      rw [List.cons_append, descend, if_pos hhere, hhuge.head, if_neg (by simp), frameOf_eq hframe]
      apply ih (hhuge.rest hne) _ _ hu
      · intro p u hp hu
        apply hlt (j :: p) u (by simpa using hp)
        rw [hstart, hu]
      · intro p k u hp hu
        apply hpresent (j :: p) k u (by simpa using hp)
        rw [hstart, hu]

/-- The flags of the tables make an entry present. -/
theorem isPresent_addFlags {flags : Nat} (n : Nat) (h : flags.testBit 0 = true) :
  isPresent (addFlags (frame n) flags) = true
  := by
  rw [isPresent, addFlags, Nat.testBit_or, Nat.testBit_and, h]
  simp [pageFlagsMask]

end Mem
