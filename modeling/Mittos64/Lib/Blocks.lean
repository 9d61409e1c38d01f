import Mathlib.Tactic.ByContra

/-!
# Loops that work in blocks

A loop has `n` things to do and does a block of them in every turn; when a block cannot be done,
the loop gives up and returns 0.  `Blocks.loop` is such a loop and `Blocks.count` the number of
things it has done in the end.  `Blocks.Done` lists the states between its turns, and gives the
loop its invariant rule.
-/

universe u

namespace Blocks

variable {σ : Type u}

/-- The loop with `n` things to do and `done` things done.  From the state `s`, the next block is
`block s n`: how many things it does and the state after it, or `none` when it cannot be done. -/
def loop (block : σ → Nat → Option (Nat × σ)) : Nat → σ → Nat → Nat → Nat × σ
  | 0, s, _, done => (done, s)
  | fuel + 1, s, n, done =>
      if n = 0 then (done, s)
      else
        match block s n with
        | none => (0, s)
        | some (k, s) => loop block fuel s (n - k) (done + k)

/-- The number of things that the loop does. -/
def count (block : σ → Nat → Option (Nat × σ)) : Nat → σ → Nat → Nat
  | 0, _, _ => 0
  | fuel + 1, s, n =>
      if n = 0 then 0
      else
        match block s n with
        | none => 0
        | some (k, s) => k + count block fuel s (n - k)

/-- A block does one thing at least, and not more than there are to do. -/
def Proper (block : σ → Nat → Option (Nat × σ)) : Prop :=
  ∀ s n k s', 0 < n → block s n = some (k, s') → 0 < k ∧ k ≤ n

/-- After some turns of the loop on `n` things from the state `s`, there are `d` things done and
the state is `s'`. -/
inductive Done (block : σ → Nat → Option (Nat × σ)) (s : σ) (n : Nat) : Nat → σ → Prop where
  | start : Done block s n 0 s
  | turn {d k : Nat} {s' s'' : σ} (h : Done block s n d s') (hd : d < n)
      (hblock : block s' (n - d) = some (k, s'')) : Done block s n (d + k) s''

/-- No block but the first one fails. -/
def OnlyFirstFails (block : σ → Nat → Option (Nat × σ)) (s : σ) (n : Nat) : Prop :=
  ∀ d s', Done block s n d s' → 0 < d → d < n → block s' (n - d) ≠ none

section Loop

variable {block : σ → Nat → Option (Nat × σ)} {s s' : σ} {n d fuel : Nat}

theorem loop_done (s : σ) (done : Nat) :
  loop block fuel s 0 done = (done, s) ∧ count block fuel s 0 = 0
  := by
  cases fuel with
  | zero => exact ⟨rfl, rfl⟩
  | succ fuel => exact ⟨rfl, rfl⟩

/-- A turn that does a block. -/
theorem loop_turn {k : Nat} (hn : 0 < n) (h : block s n = some (k, s')) (done : Nat) :
  loop block (fuel + 1) s n done = loop block fuel s' (n - k) (done + k)
    ∧ count block (fuel + 1) s n = k + count block fuel s' (n - k)
  := by
  rw [loop, count, if_neg (Nat.ne_of_gt hn), if_neg (Nat.ne_of_gt hn), h]
  exact ⟨rfl, rfl⟩

/-- A turn that gives up. -/
theorem loop_stuck (hn : 0 < n) (h : block s n = none) (done : Nat) :
  loop block (fuel + 1) s n done = (0, s) ∧ count block (fuel + 1) s n = 0
  := by
  rw [loop, count, if_neg (Nat.ne_of_gt hn), if_neg (Nat.ne_of_gt hn), h]
  exact ⟨rfl, rfl⟩

theorem Done.le (hblock : Proper block) (h : Done block s n d s') :
  d ≤ n
  := by
  cases h with
  | start => exact Nat.zero_le n
  | turn _ hd hturn =>
      obtain ⟨-, hk⟩ := hblock _ _ _ _ (Nat.sub_pos_of_lt hd) hturn
      omega

/-- Before the first thing is done the state is the first one. -/
theorem Done.zero (hblock : Proper block) (h : Done block s n 0 s') :
  s' = s
  := by
  generalize hd : 0 = d at h
  cases h with
  | start => rfl
  | turn _ hlt hturn =>
      obtain ⟨hk, -⟩ := hblock _ _ _ _ (Nat.sub_pos_of_lt hlt) hturn
      omega

/-- The loop from the state after some turns on. -/
theorem Done.loop (hblock : Proper block) (h : Done block s n d s') (hfuel : n ≤ fuel) :
  ∃ rest, n - d ≤ rest ∧ Blocks.loop block fuel s n 0 = Blocks.loop block rest s' (n - d) d
    ∧ count block fuel s n = d + count block rest s' (n - d)
  := by
  induction h with
  | start =>
      exact ⟨fuel, hfuel, rfl, (Nat.zero_add _).symm⟩
  | @turn d k s' s'' _ hd hturn ih =>
      obtain ⟨rest, hrest, hloop, hcount⟩ := ih
      obtain ⟨hk, hkn⟩ := hblock _ _ _ _ (Nat.sub_pos_of_lt hd) hturn
      obtain ⟨rest, rfl⟩ : ∃ r, rest = r + 1 := ⟨rest - 1, by omega⟩
      obtain ⟨hloop', hcount'⟩ := @loop_turn _ _ _ _ _ rest _ (Nat.sub_pos_of_lt hd) hturn d
      rw [hloop, hcount, hloop', hcount', Nat.sub_sub]
      exact ⟨rest, by omega, rfl, (Nat.add_assoc d k _).symm⟩

/-- Once all things are done the loop returns their number. -/
theorem Done.loop_all (hblock : Proper block) (h : Done block s n n s') (hfuel : n ≤ fuel) :
  Blocks.loop block fuel s n 0 = (n, s') ∧ count block fuel s n = n
  := by
  obtain ⟨rest, -, hloop, hcount⟩ := h.loop hblock hfuel
  obtain ⟨hloop', hcount'⟩ := @loop_done _ block rest s' n
  rw [Nat.sub_self] at hloop hcount
  rw [hloop, hcount, hloop', hcount']
  exact ⟨rfl, rfl⟩

/-- Where a block cannot be done the loop returns 0, and the things before it have been done. -/
theorem Done.loop_stuck (hblock : Proper block) (h : Done block s n d s') (hd : d < n)
    (hstuck : block s' (n - d) = none) (hfuel : n ≤ fuel) :
  Blocks.loop block fuel s n 0 = (0, s') ∧ count block fuel s n = d
  := by
  obtain ⟨rest, hrest, hloop, hcount⟩ := h.loop hblock hfuel
  obtain ⟨rest, rfl⟩ : ∃ r, rest = r + 1 := ⟨rest - 1, by omega⟩
  obtain ⟨hloop', hcount'⟩ :=
    @Blocks.loop_stuck _ block s' _ rest (Nat.sub_pos_of_lt hd) hstuck d
  rw [hloop, hcount, hloop', hcount']
  exact ⟨rfl, rfl⟩

/-- The turns come to an end: with all things done, or where a block cannot be done. -/
theorem Done.ends (hblock : Proper block) (h : Done block s n d s') :
  ∃ d' s'', Done block s n d' s'' ∧ (d' = n ∨ (d' < n ∧ block s'' (n - d') = none))
  := by
  induction hk : n - d using Nat.strongRecOn generalizing d s' with
  | ind m ih =>
      obtain hlt | heq := Nat.lt_or_eq_of_le (h.le hblock)
      · cases hturn : block s' (n - d) with
        | none => exact ⟨d, s', h, .inr ⟨hlt, hturn⟩⟩
        | some next =>
            obtain ⟨hpos, -⟩ := hblock _ _ _ _ (Nat.sub_pos_of_lt hlt) hturn
            exact ih (n - (d + next.1)) (by omega) (h.turn hlt hturn) rfl
      · exact ⟨d, s', h, .inl heq⟩

/-- The result of the loop does not depend on the bound on its turns. -/
theorem loop_fuel (hblock : Proper block) (s : σ) (hfuel : n ≤ fuel) :
  loop block fuel s n 0 = loop block n s n 0
  := by
  obtain ⟨d, s', hd, rfl | ⟨hlt, hstuck⟩⟩ := Done.start.ends hblock
  · rw [(hd.loop_all hblock hfuel).1, (hd.loop_all hblock (Nat.le_refl _)).1]
  · rw [(hd.loop_stuck hblock hlt hstuck hfuel).1,
      (hd.loop_stuck hblock hlt hstuck (Nat.le_refl n)).1]

/-- The loop returns the number of things it has done if and only if no block but the first one
fails. -/
theorem loop_eq_count_iff (hblock : Proper block) (s : σ) (n : Nat) :
  (loop block n s n 0).1 = count block n s n ↔ OnlyFirstFails block s n
  := by
  constructor
  · intro heq d s' hd hpos hlt hstuck
    obtain ⟨hloop, hcount⟩ := hd.loop_stuck hblock hlt hstuck (Nat.le_refl n)
    rw [hloop, hcount] at heq
    apply Nat.ne_of_lt hpos heq
  · intro hnone
    obtain ⟨d, s', hd, rfl | ⟨hlt, hstuck⟩⟩ := Done.start.ends hblock
    · obtain ⟨hloop, hcount⟩ := hd.loop_all hblock (Nat.le_refl _)
      rw [hloop, hcount]
    · obtain ⟨hloop, hcount⟩ := hd.loop_stuck hblock hlt hstuck (Nat.le_refl n)
      rw [hloop, hcount]
      by_contra hne
      apply hnone d s' hd (Nat.pos_of_ne_zero (Ne.symm hne)) hlt hstuck

/-- A loop that has done nothing has not changed the state. -/
theorem loop_of_count (hblock : Proper block) (s : σ) {n : Nat} (h : count block n s n = 0) :
  (loop block n s n 0).2 = s
  := by
  obtain ⟨d, s', hd, rfl | ⟨hlt, hstuck⟩⟩ := Done.start.ends hblock
  · obtain ⟨hloop, hcount⟩ := hd.loop_all hblock (Nat.le_refl _)
    obtain rfl : 0 = n := h.symm.trans hcount
    rw [hloop]
    apply hd.zero hblock
  · obtain ⟨hloop, hcount⟩ := hd.loop_stuck hblock hlt hstuck (Nat.le_refl n)
    obtain rfl : 0 = d := h.symm.trans hcount
    rw [hloop]
    apply hd.zero hblock

end Loop

end Blocks
