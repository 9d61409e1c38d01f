import Mittos64.Mem.VmmSpec

/-!
# The tables that `vmm_find_page` follows

`vmm_find_page` takes every entry that is not zero for a pointer to a table, whatever its flags.
What it finds depends on the words of the tables it follows and on nothing else, for any tables,
whether they are well formed or not.
-/

namespace Mem

/-- The table at the end of the path, as `vmm_find_page` follows it. -/
def follow (T : Words) : Nat → List (Fin 512) → Option Nat
  | t, [] => some t
  | t, i :: path => if T t i = 0 then none else follow T (T t i / pageSize) path

/-- The tables that `vmm_find_page` finds along the path from the table `t`. -/
def found (T : Words) : Nat → List (Fin 512) → List Nat
  | t, [] => [t]
  | t, i :: path => t :: if T t i = 0 then [] else found T (T t i / pageSize) path

/-- The entry of the address `a` that `vmm_get_page` finds. -/
def entryAt (T : Words) (r a : Nat) : Nat :=
  match follow T r (tablePath a) with
  | none => 0
  | some t => if p2v (frame t) = 0 then 0 else T t (p1Offset a)

/-- `vmm_find_page` without `touch` follows the path. -/
theorem findTable_follow {s : Machine} {t : Nat} {path : List (Fin 512)} :
  findTable false s (frame t) path
    = some (match follow (words s.mem) t path with
        | none => 0
        | some u => p2v (frame u), s)
  := by
  induction path generalizing t with
  | nil => rfl
  | cons i path ih =>
      by_cases hzero : words s.mem t i = 0
      · rw [findTable, nextTable_of_eq hzero, follow, if_pos hzero]
        rfl
      · rw [findTable, nextTable_of_ne hzero, follow, if_neg hzero]
        simp only [if_neg hzero]
        rw [stripFlags_eq, ih]

/-- A table that an entry points to lies in the physical address space. -/
theorem follow_lt {m : Memory} {t u : Nat} {i : Fin 512} {path : List (Fin 512)}
    (h : follow (words m) t (i :: path) = some u) :
  frame u < 2 ^ 64
  := by
  induction path generalizing t i with
  | nil =>
      rw [follow] at h
      split_ifs at h
      obtain rfl := Option.some.inj h
      apply frame_div_lt (words_lt m t i)
  | cons j path ih =>
      rw [follow] at h
      split_ifs at h
      apply ih h

theorem follow_congr {T T' : Words} {t : Nat} {path : List (Fin 512)}
    (h : ∀ n ∈ found T t path, T' n = T n) :
  follow T' t path = follow T t path
  := by
  induction path generalizing t with
  | nil => rfl
  | cons i path ih =>
      rw [found, List.forall_mem_cons] at h
      rw [follow, follow, h.1]
      split_ifs with hzero
      · rfl
      · rw [if_neg hzero] at h
        apply ih h.2

theorem follow_mem_found {T : Words} {t u : Nat} {path : List (Fin 512)}
    (h : follow T t path = some u) :
  u ∈ found T t path
  := by
  induction path generalizing t with
  | nil =>
      obtain rfl := Option.some.inj h
      apply List.mem_singleton_self
  | cons i path ih =>
      rw [follow] at h
      split_ifs at h with hzero
      rw [found, if_neg hzero]
      apply List.mem_cons_of_mem
      apply ih h

/-- The entry that `vmm_get_page` finds is that of the tables on the way to it. -/
theorem entryAt_congr {T T' : Words} {r a : Nat} (h : ∀ n ∈ found T r (tablePath a), T' n = T n) :
  entryAt T' r a = entryAt T r a
  := by
  rw [entryAt, entryAt, follow_congr h]
  cases ht : follow T r (tablePath a) with
  | none => rfl
  | some t => simp only [h t (follow_mem_found ht)]

/-- The addresses of a page have the same entry. -/
theorem entryAt_of_div_eq (T : Words) (r : Nat) {a c : Nat} (h : a / pageSize = c / pageSize) :
  entryAt T r a = entryAt T r c
  := by
  have hstrip : stripFlags a = stripFlags c := by
    rw [stripFlags_eq, stripFlags_eq, h]
  have hpath : tablePath a = tablePath c := by
    rw [← tablePath_stripFlags a, ← tablePath_stripFlags c, hstrip]
  have hoffset : p1Offset a = p1Offset c := by
    rw [p1Offset, p1Offset, ← tableOffset_stripFlags a (Nat.le_refl 12),
      ← tableOffset_stripFlags c (Nat.le_refl 12), hstrip]
  rw [entryAt, entryAt, hpath, hoffset]

theorem vmmGetPage_follow {bootP4 P4 r : Nat} (s : Machine) (hroot : resolveP4 bootP4 P4 = frame r)
    (a : Nat) :
  vmmGetPage bootP4 s P4 a = entryAt (words s.mem) r a
  := by
  rw [vmmGetPage, vmmFindPage, hroot, tablePath_stripFlags, findTable_follow, entryAt]
  cases ht : follow (words s.mem) r (tablePath a) with
  | none => rfl
  | some t =>
      have hlt : frame t < 2 ^ 64 := follow_lt ht
      by_cases hnull : p2v (frame t) = 0
      · simp only [if_pos hnull]
      · simp only [if_neg hnull, v2p_p2v hlt, entry_frame]

end Mem
