import Mathlib.Data.List.Nodup
import Mittos64.Lib.Memory

/-!
# Bytes moved to a list of addresses

`scatter file pos as m` moves the bytes of `file` from `pos` on to the addresses `as`, one after the
other; of the bytes moved to one address the last one stays.  A block copied to consecutive addresses
is the special case of `List.range'`.  The bytes at `as'` are those of the file, whatever the memory
and the file hold, exactly if every byte was moved last to its place in `as'` (`scatter_places`).
-/

namespace Memory

/-- Move the bytes of `file` from `pos` on to the addresses, one after the other. -/
def scatter (file : Memory) : Nat → List Nat → Memory → Memory
  | _, [], m => m
  | pos, a :: as, m => scatter file (pos + 1) as fun x => if x = a then file pos else m x

variable {file : Memory} {pos : Nat} {as : List Nat} {m : Memory} {a k : Nat}

theorem scatter_append (file : Memory) (pos : Nat) (as bs : List Nat) (m : Memory) :
  scatter file pos (as ++ bs) m = scatter file (pos + as.length) bs (scatter file pos as m)
  := by
  induction as generalizing pos m with
  | nil => rfl
  | cons a as ih =>
      rw [List.cons_append, scatter, scatter, ih, List.length_cons]
      congr 1
      omega

theorem scatter_of_notMem (h : a ∉ as) :
  scatter file pos as m a = m a
  := by
  induction as generalizing pos m with
  | nil => rfl
  | cons b as ih =>
      rw [List.mem_cons, not_or] at h
      rw [scatter, ih h.2, if_neg h.1]

/-- The byte that was moved last to an address stays there. -/
theorem scatter_of_last (hmem : as[k]? = some a) (hlast : a ∉ as.drop (k + 1)) :
  scatter file pos as m a = file (pos + k)
  := by
  induction as generalizing pos m k with
  | nil => cases hmem
  | cons b as ih =>
      rw [scatter]
      cases k with
      | zero =>
          obtain rfl : b = a := Option.some.inj hmem
          have hnot : b ∉ as := hlast
          rw [scatter_of_notMem hnot, if_pos rfl]
          rfl
      | succ k =>
          rw [ih hmem hlast]
          congr 1
          omega

/-- An address of a list has a last place in it. -/
theorem exists_last (h : a ∈ as) :
  ∃ k, as[k]? = some a ∧ a ∉ as.drop (k + 1)
  := by
  induction as with
  | nil => cases h
  | cons b as ih =>
      by_cases hmem : a ∈ as
      · obtain ⟨k, hk, hlast⟩ := ih hmem
        exact ⟨k + 1, hk, hlast⟩
      · obtain rfl : a = b := (List.mem_cons.mp h).resolve_right hmem
        exact ⟨0, rfl, hmem⟩

/-- The byte at `k` of the file is found at an address only if it was moved there last. -/
theorem last_of_scatter
    (h : scatter (fun x => if x = pos + k then 1 else 0) pos as (fun _ => 0) a = 1) :
  as[k]? = some a ∧ a ∉ as.drop (k + 1)
  := by
  by_cases hmem : a ∈ as
  · obtain ⟨k', hk', hlast⟩ := exists_last hmem
    rw [scatter_of_last hk' hlast] at h
    by_cases heq : k' = k
    · subst heq
      exact ⟨hk', hlast⟩
    · rw [if_neg (by omega)] at h
      cases h
  · rw [scatter_of_notMem hmem] at h
    cases h

/-- The first `n` bytes that are moved to `as` are moved to the first `n` places of `as'`, and no
byte after one of them is moved to its place. -/
def Places (n : Nat) (as as' : List Nat) : Prop :=
  ∀ k < n, ∃ a, as'[k]? = some a ∧ as[k]? = some a ∧ a ∉ as.drop (k + 1)

/-- All the bytes are moved to their places exactly if these are the first ones of `as'`, and
distinct. -/
theorem places_length_iff {as as' : List Nat} :
  Places as.length as as' ↔ as = as'.take as.length ∧ as.Nodup
  := by
  constructor
  · intro hplaces
    constructor
    · apply List.ext_getElem?
      intro k
      by_cases hk : k < as.length
      · obtain ⟨a, ha, hmem, -⟩ := hplaces k hk
        rw [List.getElem?_take_of_lt hk, ha, hmem]
      · rw [List.getElem?_eq_none (Nat.le_of_not_lt hk), List.getElem?_eq_none]
        rw [List.length_take]
        omega
    · rw [List.Nodup, List.pairwise_iff_getElem]
      intro i j hi hj hlt heq
      obtain ⟨a, -, hmem, hlast⟩ := hplaces i hi
      apply hlast
      rw [List.getElem?_eq_getElem hi, Option.some.injEq] at hmem
      rw [← hmem, heq, List.mem_drop_iff_getElem]
      exact ⟨j - (i + 1), by omega, by congr 1; omega⟩
  · rintro ⟨htake, hnodup⟩ k hk
    refine ⟨as[k], ?_, List.getElem?_eq_getElem hk, ?_⟩
    · rw [← List.getElem?_take_of_lt hk, ← htake, List.getElem?_eq_getElem hk]
    · intro hmem
      obtain ⟨i, hi, heq⟩ := List.mem_drop_iff_getElem.mp hmem
      have hplace := (List.Nodup.getElem_inj_iff hnodup).mp heq
      omega

/-- The places `as'` hold the first bytes of the file, whatever was in the file and in the memory,
exactly if these bytes were moved there last. -/
theorem scatter_places {n : Nat} {as as' : List Nat} :
  (∀ file pos m, (as'.map (scatter file pos as m)).take n = file.read pos n) ↔ Places n as as'
  := by
  constructor
  · intro hall k hk
    have hbyte := congrArg (·[k]?) (hall (fun x => if x = 0 + k then 1 else 0) 0 (fun _ => 0))
    simp only [List.getElem?_take_of_lt hk, List.getElem?_map, read, List.getElem?_range hk,
      Option.map_some, if_pos] at hbyte
    obtain ⟨a, ha, hone⟩ := Option.map_eq_some_iff.mp hbyte
    exact ⟨a, ha, last_of_scatter hone⟩
  · intro hplaces file pos m
    apply List.ext_getElem?
    intro k
    by_cases hk : k < n
    · obtain ⟨a, ha, hmem, hlast⟩ := hplaces k hk
      rw [List.getElem?_take_of_lt hk, List.getElem?_map, ha, Option.map_some,
        scatter_of_last hmem hlast, read, List.getElem?_map, List.getElem?_range hk]
      rfl
    · rw [List.getElem?_eq_none, List.getElem?_eq_none]
      · rw [read_length]
        omega
      · rw [List.length_take]
        omega

/-- The bytes at a list of addresses determine the list, if they are known for every memory. -/
theorem map_inj_of_all {as as' : List Nat} (h : ∀ m : Memory, as.map m = as'.map m) :
  as = as'
  := by
  have hlen : as.length = as'.length := by
    have hmap := congrArg List.length (h fun _ => 0)
    rwa [List.length_map, List.length_map] at hmap
  apply List.ext_getElem hlen
  intro k hk hk'
  have hbyte := congrArg (·[k]?) (h fun x => if x = as[k] then 1 else 0)
  simp only [List.getElem?_map, List.getElem?_eq_getElem hk, List.getElem?_eq_getElem hk',
    Option.map_some, Option.some.injEq, if_pos] at hbyte
  by_contra hne
  rw [if_neg (Ne.symm hne)] at hbyte
  cases hbyte

/-- A block is the bytes at consecutive addresses. -/
theorem read_eq_map (m : Memory) (a n : Nat) :
  m.read a n = (List.range' a n).map m
  := by
  rw [read, List.range'_eq_map_range, List.map_map]
  rfl

/-- A copied block is moved to consecutive addresses. -/
theorem write_read_eq_scatter (file m : Memory) (a pos n : Nat) :
  m.write a (file.read pos n) = scatter file pos (List.range' a n) m
  := by
  induction n generalizing a pos m with
  | zero =>
      funext x
      rw [write_read, if_neg (by omega)]
      rfl
  | succ n ih =>
      rw [List.range'_succ, scatter, ← ih]
      funext x
      rw [write_read, write_read]
      by_cases hx : x = a
      · subst hx
        rw [if_pos (by omega), if_neg (by omega), if_pos rfl, Nat.sub_self]
        rfl
      · by_cases hin : a ≤ x ∧ x < a + (n + 1)
        · rw [if_pos hin, if_pos (by omega)]
          congr 1
          omega
        · rw [if_neg hin, if_neg (by omega), if_neg hx]

end Memory
