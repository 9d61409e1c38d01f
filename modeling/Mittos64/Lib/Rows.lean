import Mathlib.Data.List.Basic

/-!
# Text in rows

A text is broken into rows at each separator, which is in no row, and behind each `w`th character of
a line.  So there is always a row that the next character goes to, the last one, and this has room
for it.  `lastRows n` is what a screen of `n` rows shows.
-/

universe u

namespace Rows

variable {α : Type u}

/-- A line in pieces of `w` elements, with the last piece shorter than that. -/
def chunks (w : Nat) (line : List α) : List (List α) :=
  if _h : 0 < w ∧ w ≤ line.length then line.take w :: chunks w (line.drop w)
  else [line]
termination_by line.length
decreasing_by
  rw [List.length_drop]
  omega

/-- The rows of a text: its lines, in pieces of `w` elements. -/
def rows [BEq α] (sep : α) (w : Nat) (text : List α) : List (List α) :=
  (text.splitOn sep).flatMap (chunks w)

/-- The last `n` rows. -/
def lastRows (n : Nat) (rs : List (List α)) : List (List α) :=
  rs.drop (rs.length - n)

/-! ### Lines -/

section Lines

variable {w : Nat} {line : List α}

theorem chunks_short (h : line.length < w) :
  chunks w line = [line]
  := by
  rw [chunks, dif_neg (by omega)]

theorem chunks_full (hw : 0 < w) (h : line.length = w) :
  chunks w line = [line, []]
  := by
  rw [chunks, dif_pos ⟨hw, Nat.le_of_eq h.symm⟩, List.take_of_length_le (Nat.le_of_eq h),
    List.drop_of_length_le (Nat.le_of_eq h), chunks_short hw]

/-- One more element goes to the last piece of a line, which has room for it. -/
theorem chunks_snoc (hw : 0 < w) (line : List α) :
  ∃ full row, chunks w line = full ++ [row] ∧ row.length < w
    ∧ ∀ c, chunks w (line ++ [c]) = full ++ chunks w (row ++ [c])
  := by
  induction line using chunks.induct w with
  | case1 line h ih =>
      obtain ⟨full, row, hchunks, hrow, hsnoc⟩ := ih
      refine ⟨line.take w :: full, row, ?_, hrow, ?_⟩
      · rw [chunks, dif_pos h, hchunks, List.cons_append]
      · intro c
        have h' : 0 < w ∧ w ≤ (line ++ [c]).length := by
          rw [List.length_append]
          omega
        rw [chunks, dif_pos h', List.take_append_of_le_length h.2,
          List.drop_append_of_le_length h.2, hsnoc, List.cons_append]
  | case2 line h =>
      refine ⟨[], line, ?_, by omega, fun c => rfl⟩
      rw [chunks, dif_neg h, List.nil_append]

variable [BEq α] [LawfulBEq α] {sep : α}

/-- One more element goes to the last line, when it is no separator. -/
theorem splitOn_snoc (sep : α) (text : List α) :
  ∃ lines line, text.splitOn sep = lines ++ [line]
    ∧ ∀ c, c ≠ sep → (text ++ [c]).splitOn sep = lines ++ [line ++ [c]]
  := by
  induction text with
  | nil =>
      refine ⟨[], [], rfl, ?_⟩
      intro c hc
      apply List.splitOn_eq_singleton
      simpa using hc.symm
  | cons d text ih =>
      obtain ⟨lines, line, hsplit, hsnoc⟩ := ih
      by_cases hd : d = sep
      · refine ⟨[] :: lines, line, ?_, ?_⟩
        · rw [List.splitOn_cons_eq_if_modifyHead, if_pos (beq_iff_eq.mpr hd), hsplit,
            List.cons_append]
        · intro c hc
          rw [List.cons_append, List.splitOn_cons_eq_if_modifyHead, if_pos (beq_iff_eq.mpr hd),
            hsnoc c hc, List.cons_append]
      · have hbeq : ¬ (d == sep) = true := fun h => hd (beq_iff_eq.mp h)
        cases lines with
        | nil =>
            refine ⟨[], d :: line, ?_, ?_⟩
            · rw [List.splitOn_cons_eq_if_modifyHead, if_neg hbeq, hsplit]
              rfl
            · intro c hc
              rw [List.cons_append, List.splitOn_cons_eq_if_modifyHead, if_neg hbeq, hsnoc c hc]
              rfl
        | cons l lines =>
            refine ⟨(d :: l) :: lines, line, ?_, ?_⟩
            · rw [List.splitOn_cons_eq_if_modifyHead, if_neg hbeq, hsplit]
              rfl
            · intro c hc
              rw [List.cons_append, List.splitOn_cons_eq_if_modifyHead, if_neg hbeq, hsnoc c hc]
              rfl

theorem splitOn_snoc_sep (sep : α) (text : List α) :
  (text ++ [sep]).splitOn sep = text.splitOn sep ++ [[]]
  := by
  rw [List.splitOn_append_cons_of_beq text [] (beq_self_eq_true sep)]
  rfl

end Lines

/-! ### Rows -/

section Rows

/-- The row `r` of the last `n` ones. -/
theorem lastRows_getD (n : Nat) (rs : List (List α)) (r : Nat) :
  (lastRows n rs).getD r [] = rs.getD (rs.length - n + r) []
  := by
  rw [lastRows, List.getD_eq_getElem?_getD, List.getD_eq_getElem?_getD, List.getElem?_drop]

variable [BEq α] {w : Nat}

theorem rows_nil (sep : α) (hw : 0 < w) :
  rows sep w [] = [[]]
  := by
  rw [rows, List.splitOn_nil, List.flatMap_cons, List.flatMap_nil, List.append_nil, chunks_short hw]

variable [LawfulBEq α]

/-- What one more element does to the rows of a text. -/
theorem rows_snoc (sep : α) (hw : 0 < w) (text : List α) :
  ∃ above row, rows sep w text = above ++ [row] ∧ row.length < w
    ∧ rows sep w (text ++ [sep]) = above ++ [row] ++ [[]]
    ∧ ∀ c, c ≠ sep → rows sep w (text ++ [c])
      = if row.length + 1 < w then above ++ [row ++ [c]] else above ++ [row ++ [c]] ++ [[]]
  := by
  obtain ⟨lines, line, hsplit, hline⟩ := splitOn_snoc sep text
  obtain ⟨full, row, hchunks, hrow, hsnoc⟩ := chunks_snoc hw line
  have hrows : ∀ l, (lines ++ [l]).flatMap (chunks w) = lines.flatMap (chunks w) ++ chunks w l := by
    intro l
    rw [List.flatMap_append, List.flatMap_cons, List.flatMap_nil, List.append_nil]
  refine ⟨lines.flatMap (chunks w) ++ full, row, ?_, hrow, ?_, ?_⟩
  · rw [rows, hsplit, hrows, hchunks, List.append_assoc]
  · rw [rows, splitOn_snoc_sep, hsplit, List.flatMap_append, hrows, hchunks, List.flatMap_cons,
      List.flatMap_nil, List.append_nil, chunks_short hw, ← List.append_assoc]
  · intro c hc
    have hlen : (row ++ [c]).length = row.length + 1 := List.length_append
    rw [rows, hline c hc, hrows, hsnoc]
    split_ifs with hroom
    · rw [chunks_short (by omega), List.append_assoc]
    · rw [chunks_full hw (by omega), List.append_assoc, List.append_assoc]
      rfl

end Rows

end Rows
