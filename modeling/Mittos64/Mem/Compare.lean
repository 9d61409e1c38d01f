import Mathlib.Data.List.Lex
import Mittos64.Mem.Strings

/-!
# `strncmp` and the standard comparison

The loop of `strncmp` ends at the end of a string, at a difference, or at the bound, and all three
give the difference of the characters it has come to.  At the bound these are characters that it
should not look at.  A block cut off behind its first `n` characters has nothing to read there.
-/

open CString

/-- The sign of `r` is that of the comparison of two strings cut off behind their first `n`
characters. -/
structure Compares (s t : List UInt8) (n : Nat) (r : Int) : Prop where
  neg : r < 0 ↔ s.take n < t.take n
  zero : r = 0 ↔ s.take n = t.take n
  pos : 0 < r ↔ t.take n < s.take n

/-- `strncmp` gives the standard comparison, and finds it in the first `n` characters of the two
blocks. -/
def IsStandard (s t : CString) (n : Nat) : Prop :=
  ∃ r, strncmp s.block t.block n = some r ∧ Compares s.chars t.chars n r
    ∧ strncmp (s.block.take n) (t.block.take n) n = some r

section Signs

variable {c d : UInt8}

theorem charDiff_neg :
  charDiff c d < 0 ↔ c < d
  := by
  rw [charDiff, UInt8.lt_iff_toNat_lt]
  omega

theorem charDiff_pos :
  0 < charDiff c d ↔ d < c
  := by
  rw [charDiff, UInt8.lt_iff_toNat_lt]
  omega

variable {s t : List UInt8} {n : Nat} {r : Int}

/-- The first characters are the same. -/
theorem Compares.cons (c : UInt8) (h : Compares s t n r) :
  Compares (c :: s) (c :: t) (n + 1) r
  := by
  constructor
  · rw [h.neg, List.take_succ_cons, List.take_succ_cons, List.cons_lt_cons_self]
  · rw [h.zero, List.take_succ_cons, List.take_succ_cons, List.cons_inj_right]
  · rw [h.pos, List.take_succ_cons, List.take_succ_cons, List.cons_lt_cons_self]

/-- The first characters differ. -/
theorem compares_of_ne (h : c ≠ d) :
  Compares (c :: s) (d :: t) (n + 1) (charDiff c d)
  := by
  constructor
  · rw [charDiff_neg, List.take_succ_cons, List.take_succ_cons, List.cons_lt_cons_iff]
    simp [h]
  · rw [charDiff_eq_zero_iff, List.take_succ_cons, List.take_succ_cons, List.cons.injEq]
    simp [h]
  · rw [charDiff_pos, List.take_succ_cons, List.take_succ_cons, List.cons_lt_cons_iff]
    simp [h.symm]

end Signs

section Loop

variable {s t u v : List UInt8} {n : Nat} {r : Int}

/-- What lies behind the characters that a comparison comes to makes no difference. -/
theorem strncmp_append (x y : List UInt8) (h : strncmp u v n = some r) :
  strncmp (u ++ x) (v ++ y) n = some r
  := by
  induction u generalizing v n with
  | nil =>
      rw [strncmp] at h
      · cases h
      · simp
      · simp
  | cons c u ih =>
      cases v with
      | nil =>
          rw [strncmp] at h
          · cases h
          · simp
          · simp
      | cons d v =>
          cases n with
          | zero => exact h
          | succ n =>
              rw [strncmp] at h
              rw [List.cons_append, List.cons_append, strncmp]
              split_ifs at h ⊢ with hsame
              · exact ih h
              · exact h

/-- A comparison that comes to the bound looks behind it. -/
theorem strncmp_at_bound (hu : 0 ∉ u) :
  strncmp u u u.length = none
  := by
  induction u with
  | nil => rfl
  | cons c u ih =>
      rw [List.mem_cons, not_or] at hu
      rw [List.length_cons, strncmp, if_pos ⟨Ne.symm hu.1, rfl⟩]
      exact ih hu.2

/-- A comparison that ends before the bound is the standard one. -/
theorem strncmp_before_bound (hs : 0 ∉ s) (ht : 0 ∉ t)
    (h : s.length < n ∨ s.take n ≠ t.take n) :
  ∃ r, strncmp ((s ++ [0]).take n) ((t ++ [0]).take n) n = some r ∧ Compares s t n r
  := by
  induction s generalizing t n with
  | nil =>
      cases n with
      | zero => simp at h
      | succ n =>
          cases t with
          | nil =>
              refine ⟨0, rfl, ?_⟩
              constructor
              · simp
              · simp
              · simp
          | cons d t =>
              have hd : (0 : UInt8) ≠ d := fun heq => ht (heq ▸ List.mem_cons_self)
              refine ⟨charDiff 0 d, rfl, ?_⟩
              have hlt : 0 < d := UInt8.pos_iff_ne_zero.mpr hd.symm
              constructor
              · simp [charDiff_neg, hlt]
              · simp [charDiff_eq_zero_iff, hd]
              · simp [charDiff_pos]
  | cons c s ih =>
      rw [List.mem_cons, not_or] at hs
      cases n with
      | zero => simp at h
      | succ n =>
          cases t with
          | nil =>
              refine ⟨charDiff c 0, if_neg fun heq => heq.1 heq.2, ?_⟩
              have hlt : 0 < c := UInt8.pos_iff_ne_zero.mpr (Ne.symm hs.1)
              constructor
              · simp [charDiff_neg]
              · simp [charDiff_eq_zero_iff, Ne.symm hs.1]
              · simp [charDiff_pos, hlt]
          | cons d t =>
              rw [List.mem_cons, not_or] at ht
              rw [List.cons_append, List.cons_append, List.take_succ_cons, List.take_succ_cons,
                strncmp]
              by_cases hcd : c = d
              · subst hcd
                rw [if_pos ⟨Ne.symm hs.1, rfl⟩]
                have hrest : s.length < n ∨ s.take n ≠ t.take n := by
                  rw [List.length_cons, List.take_succ_cons, List.take_succ_cons, Ne,
                    List.cons_inj_right] at h
                  exact h.imp_left Nat.lt_of_succ_lt_succ
                obtain ⟨r, hr, hcompares⟩ := ih hs.2 ht.2 hrest
                exact ⟨r, hr, hcompares.cons c⟩
              · rw [if_neg fun heq => hcd heq.2]
                exact ⟨_, rfl, compares_of_ne hcd⟩

/-- `strncmp` is the standard comparison just when a string ends, or the two differ, within the
first `n` characters. -/
theorem strncmp_isStandard_iff (s t : CString) (n : Nat) :
  IsStandard s t n ↔ s.chars.length < n ∨ s.chars.take n ≠ t.chars.take n
  := by
  constructor
  · rintro ⟨r, -, -, hwithin⟩
    by_contra hnot
    rw [not_or, not_lt, not_not] at hnot
    obtain ⟨hlen, hsame⟩ := hnot
    have hlen' : n ≤ t.chars.length := by
      have := congrArg List.length hsame
      rw [List.length_take, List.length_take] at this
      omega
    have hbound : strncmp (s.chars.take n) (s.chars.take n) (s.chars.take n).length = none := by
      apply strncmp_at_bound
      exact fun hmem => s.nonzero (List.mem_of_mem_take hmem)
    rw [List.length_take_of_le hlen] at hbound
    rw [block, block, List.take_append_of_le_length hlen, List.take_append_of_le_length hlen',
      ← hsame, hbound] at hwithin
    cases hwithin
  · intro h
    obtain ⟨r, hwithin, hcompares⟩ := strncmp_before_bound s.nonzero t.nonzero h
    refine ⟨r, ?_, hcompares, hwithin⟩
    have hwhole := strncmp_append (s.block.drop n) (t.block.drop n) hwithin
    rw [block, block, List.take_append_drop, List.take_append_drop] at hwhole
    exact hwhole

/-- Two different strings are not the same up to their first 0 characters for `strncmp`. -/
theorem strncmp_zero_differs :
  strncmp (block ⟨[97], by decide⟩) (block ⟨[98], by decide⟩) 0 = some (-1)
    ∧ ¬ IsStandard ⟨[97], by decide⟩ ⟨[98], by decide⟩ 0
  := by
  refine ⟨rfl, ?_⟩
  rintro ⟨r, hr, hcompares, -⟩
  have hzero : r = 0 := hcompares.zero.mpr rfl
  obtain rfl : -1 = r := Option.some_inj.mp hr
  exact absurd hzero (by decide)

end Loop
