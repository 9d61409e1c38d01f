import Mittos64.Lib.CString

/-!
# String functions

The functions of `mem/string.c` that the file system uses, on strings in blocks of memory.  A
pointer is the rest of its block.  `strncmp` compares one character more than its bound
(`strncmp_eq_zero_iff`).
-/

open CString

/-- `strlen(s)` -/
def strlen : List UInt8 → Option Nat
  | [] => none
  | c :: s => if c ≠ 0 then (strlen s).map (· + 1) else some 0

/-- The difference of two characters. -/
def charDiff (c d : UInt8) : Int :=
  c.toNat - d.toNat

/-- `strncmp(s1, s2, n)` -/
def strncmp : List UInt8 → List UInt8 → Nat → Option Int
  | c :: s1, d :: s2, n + 1 =>
      if c ≠ 0 ∧ c = d then strncmp s1 s2 n else some (charDiff c d)
  | c :: _, d :: _, 0 => some (charDiff c d)
  | _, _, _ => none

/-- `strcmp(s1, s2)` -/
def strcmp : List UInt8 → List UInt8 → Option Int
  | c :: s1, d :: s2 => if c ≠ 0 ∧ c = d then strcmp s1 s2 else some (charDiff c d)
  | _, _ => none

theorem charDiff_eq_zero_iff (c d : UInt8) :
  charDiff c d = 0 ↔ c = d
  := by
  rw [← UInt8.toNat_inj, charDiff]
  omega

/-- The length is found within the string and its zero, whatever follows them. -/
theorem strlen_append {s : List UInt8} (hs : 0 ∉ s) (post : List UInt8) :
  strlen (s ++ 0 :: post) = some s.length
  := by
  induction s with
  | nil => rfl
  | cons c s ih =>
      rw [List.mem_cons, not_or] at hs
      rw [List.cons_append, strlen, if_pos (Ne.symm hs.1), ih hs.2]
      rfl

theorem strlen_block (s : CString) :
  strlen s.block = some s.chars.length
  := strlen_append s.nonzero []

/-- The result of a comparison that ends at two characters. -/
theorem charDiff_spec {c d : UInt8} {s t : List UInt8} (h : c = d → s = t) :
  ∃ r, some (charDiff c d) = some r ∧ (r = 0 ↔ c :: s = d :: t)
  := by
  refine ⟨charDiff c d, rfl, (charDiff_eq_zero_iff c d).trans ?_⟩
  rw [List.cons.injEq]
  exact ⟨fun heq => ⟨heq, h heq⟩, And.left⟩

/-- Two strings are compared within their blocks, and they compare equal just when they are the
same up to the character behind the bound. -/
theorem strncmp_spec {s t : List UInt8} (hs : 0 ∉ s) (ht : 0 ∉ t) (x y : List UInt8) (n : Nat) :
  ∃ r, strncmp (s ++ 0 :: x) (t ++ 0 :: y) n = some r
    ∧ (r = 0 ↔ (s ++ [0]).take (n + 1) = (t ++ [0]).take (n + 1))
  := by
  induction s generalizing t n with
  | nil =>
      have hnil : strncmp ([] ++ 0 :: x) (t ++ 0 :: y) n
          = some (charDiff 0 ((t ++ [0]).headD 0)) := by
        cases n <;> cases t <;> rfl
      rw [hnil]
      cases t with
      | nil => exact charDiff_spec fun _ => rfl
      | cons d t =>
          apply charDiff_spec
          rintro rfl
          apply absurd List.mem_cons_self ht
  | cons c s ih =>
      rw [List.mem_cons, not_or] at hs
      cases t with
      | nil =>
          have hnil : strncmp (c :: s ++ 0 :: x) ([] ++ 0 :: y) n = some (charDiff c 0) := by
            cases n with
            | zero => rfl
            | succ n => exact if_neg fun h => hs.1 h.2.symm
          rw [hnil]
          apply charDiff_spec
          intro heq
          apply absurd heq.symm hs.1
      | cons d t =>
          rw [List.mem_cons, not_or] at ht
          cases n with
          | zero => exact charDiff_spec fun _ => rfl
          | succ n =>
              by_cases hcd : c = d
              · obtain ⟨r, hr, hiff⟩ := ih hs.2 ht.2 n
                refine ⟨r, ?_, hiff.trans ?_⟩
                · rw [← hr]
                  exact if_pos ⟨Ne.symm hs.1, hcd⟩
                · rw [hcd, List.cons_append, List.cons_append, List.take_succ_cons,
                    List.take_succ_cons, List.cons.injEq]
                  exact ⟨fun heq => ⟨rfl, heq⟩, And.right⟩
              · have hne : strncmp (c :: s ++ 0 :: x) (d :: t ++ 0 :: y) (n + 1)
                    = some (charDiff c d) := if_neg fun h => hcd h.2
                rw [hne]
                apply charDiff_spec
                intro heq
                apply absurd heq hcd

/-- A bound that the first string does not reach makes no difference. -/
theorem strcmp_eq_strncmp :
  ∀ {s t : List UInt8} {n : Nat}, s.length ≤ n → strcmp s t = strncmp s t n
  | [], _, n, _ => by
      rw [strcmp, strncmp]
      all_goals simp
  | _ :: _, [], n, _ => by
      cases n <;> rfl
  | c :: s, d :: t, n + 1, h => by
      rw [strcmp, strncmp, strcmp_eq_strncmp (Nat.le_of_succ_le_succ h)]

/-- Two strings are compared within their blocks, and they compare equal just when they are the
same. -/
theorem strcmp_spec {s t : List UInt8} (hs : 0 ∉ s) (ht : 0 ∉ t) (y : List UInt8) :
  ∃ r, strcmp (s ++ [0]) (t ++ 0 :: y) = some r ∧ (r = 0 ↔ s = t)
  := by
  obtain ⟨r, hr, hiff⟩ := strncmp_spec hs ht [] y (max s.length t.length + 1)
  refine ⟨r, ?_, hiff.trans ?_⟩
  · rw [← hr]
    apply strcmp_eq_strncmp
    rw [List.length_append, List.length_singleton]
    apply Nat.succ_le_succ (Nat.le_max_left _ _)
  · rw [List.take_of_length_le (by simp; omega), List.take_of_length_le (by simp; omega)]
    apply List.append_left_inj

/-- With a bound of one less than the length of the first string, it is compared as a whole with
the start of the second one. -/
theorem strncmp_eq_zero_iff {s t : CString} {n : Nat} (hn : s.chars.length = n + 1) :
  ∃ r, strncmp s.block t.block n = some r ∧ (r = 0 ↔ s.chars <+: t.chars)
  := by
  obtain ⟨r, hr, hiff⟩ := strncmp_spec s.nonzero t.nonzero [] [] n
  refine ⟨r, hr, hiff.trans ?_⟩
  rw [← hn, List.take_left]
  constructor
  · intro heq
    have hprefix : s.chars <+: t.chars ++ [0] := by
      rw [heq]
      apply List.take_prefix
    obtain hprefix | heq := List.prefix_concat_iff.mp hprefix |>.symm
    · exact hprefix
    · apply absurd _ s.nonzero
      rw [heq]
      simp
  · rintro ⟨rest, hrest⟩
    rw [← hrest, List.append_assoc, List.take_left]
