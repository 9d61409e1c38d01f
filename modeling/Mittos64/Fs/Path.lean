import Mittos64.Lib.CString

/-!
# The components of a path

`pathtok` of `fs/vfs.c`, and its calls in the loop of `fs_namef`.  `pathtok` skips slashes, takes
the characters up to the next slash or to the end for a name, and puts a zero in the place of that
slash.  It looks for the end of the string before it skips the slashes, not after that, so a path
that ends with a slash too many has an empty name at its end (`tokens_eq`).
-/

namespace Pathtok

open CString

/-- `sep` -/
def sep : UInt8 := 0x2F

/-- `pathtok(&p)` in the block `m`: the value it returns, the block and the pointer it leaves, or
nothing when it reads behind the block. -/
def pathtok (m : List UInt8) (p : Nat) : Option (Option Nat × List UInt8 × Nat) :=
  m[p]?.bind fun c =>
    if c = 0 then some (none, m, p)
    else
      (scan (fun c => c ≠ 0 ∧ c = sep) m p).bind fun ret =>
        (scan (fun c => c ≠ 0 ∧ c ≠ sep) m ret).bind fun q =>
          m[q]?.map fun c => if c = 0 then (some ret, m, q) else (some ret, m.set q 0, q + 1)

/-- A call that returns a name moves the pointer forward, not further than behind the block. -/
theorem pathtok_moves {m m' : List UInt8} {p p' ret : Nat}
    (h : pathtok m p = some (some ret, m', p')) :
  m'.length = m.length ∧ p < p' ∧ p' ≤ m.length
  := by
  simp only [pathtok, Option.bind_eq_some_iff] at h
  obtain ⟨c, hc, h⟩ := h
  have hzero : c ≠ 0 := by
    rintro rfl
    simp at h
  rw [if_neg hzero] at h
  simp only [Option.bind_eq_some_iff, Option.map_eq_some_iff] at h
  obtain ⟨s, hs, q, hq, d, hd, h⟩ := h
  obtain ⟨hps, -, hslash⟩ := scan_spec hs
  obtain ⟨hsq, hlt, hname⟩ := scan_spec hq
  have hpq : p < q := by
    by_cases hsep : c = sep
    · have hmove := hslash c hc (decide_eq_true ⟨hzero, hsep⟩)
      omega
    · obtain hmove | rfl := Nat.lt_or_eq_of_le hps
      · omega
      · apply hname c hc (decide_eq_true ⟨hzero, hsep⟩)
  split_ifs at h with hend
  · obtain ⟨-, rfl, rfl⟩ : s = ret ∧ m = m' ∧ q = p' := by simpa using h
    exact ⟨rfl, hpq, Nat.le_of_lt hlt⟩
  · obtain ⟨-, rfl, rfl⟩ : s = ret ∧ m.set q 0 = m' ∧ q + 1 = p' := by simpa using h
    rw [List.length_set]
    exact ⟨rfl, by omega, hlt⟩

/-- The calls of `pathtok` in the loop `while((name = pathtok(&p)))`: each name, with the pointer
that the call leaves. -/
def tokens (m : List UInt8) (p : Nat) : Option (List (List UInt8 × Nat)) :=
  match _h : pathtok m p with
  | none => none
  | some (none, _, _) => some []
  | some (some ret, m', p') => (tokens m' p').map ((charsAt m' ret, p') :: ·)
termination_by m.length - p
decreasing_by
  have := pathtok_moves _h
  omega

/-- The maximal non-empty parts of a path without a slash, in order. -/
def components (s : List UInt8) : List (List UInt8) :=
  (s.splitOn sep).filter (· ≠ [])

/-- The path ends with a slash that separates nothing: with two slashes, or it is a slash. -/
def SlashTooMany (s : List UInt8) : Prop :=
  s = [sep] ∨ [sep, sep] <:+ s

instance decidableSlashTooMany (s : List UInt8) : Decidable (SlashTooMany s) :=
  inferInstanceAs (Decidable (_ ∨ _))

/-- The name that `pathtok` finds behind the last component. -/
def lastName (s : List UInt8) : List (List UInt8) :=
  if SlashTooMany s then [[]] else []

/-- The names that `pathtok` finds in a path. -/
def names (s : List UInt8) : List (List UInt8) :=
  components s ++ lastName s

/-! ### Paths from component to component -/

/-- A path is slashes, then characters other than slashes, and then it ends or goes on with a
slash. -/
theorem path_cases (s : List UInt8) :
  ∃ k w, sep ∉ w ∧ (s = List.replicate k sep ++ w
    ∨ ∃ rest, w ≠ [] ∧ s = List.replicate k sep ++ (w ++ sep :: rest))
  := by
  induction s with
  | nil => exact ⟨0, [], List.not_mem_nil, Or.inl rfl⟩
  | cons c s ih =>
      obtain ⟨k, w, hw, hs⟩ := ih
      by_cases hc : c = sep
      · refine ⟨k + 1, w, hw, ?_⟩
        obtain rfl | ⟨rest, hne, rfl⟩ := hs
        · rw [hc]
          exact Or.inl rfl
        · rw [hc]
          exact Or.inr ⟨rest, hne, rfl⟩
      · cases k with
        | zero =>
            refine ⟨0, c :: w, ?_, ?_⟩
            · rintro (_ | ⟨_, hmem⟩)
              · apply hc rfl
              · apply hw hmem
            · obtain rfl | ⟨rest, -, rfl⟩ := hs
              · exact Or.inl rfl
              · exact Or.inr ⟨rest, List.cons_ne_nil _ _, rfl⟩
        | succ k =>
            refine ⟨0, [c], ?_, ?_⟩
            · rw [List.mem_singleton]
              apply Ne.symm hc
            · right
              obtain rfl | ⟨rest, -, rfl⟩ := hs
              · exact ⟨List.replicate k sep ++ w, List.cons_ne_nil _ _, rfl⟩
              · exact ⟨List.replicate k sep ++ (w ++ sep :: rest), List.cons_ne_nil _ _, rfl⟩

/-- Slashes in front make no difference. -/
theorem components_slashes (k : Nat) (s : List UInt8) :
  components (List.replicate k sep ++ s) = components s
  := by
  induction k with
  | zero => rfl
  | succ k ih =>
      rw [← ih, List.replicate_succ, List.cons_append, components]
      have hsplit := List.splitOn_append_cons_self (a := sep) [] (List.replicate k sep ++ s)
      rw [List.nil_append] at hsplit
      rw [hsplit, components]
      rfl

theorem components_cons {w : List UInt8} (hw : sep ∉ w) (hne : w ≠ []) (rest : List UInt8) :
  components (w ++ sep :: rest) = w :: components rest
  := by
  rw [components, List.splitOn_append_cons_self_of_not_mem hw, List.filter_cons_of_pos]
  · rfl
  · apply decide_eq_true hne

theorem components_last {w : List UInt8} (hw : sep ∉ w) :
  components w = if w = [] then [] else [w]
  := by
  rw [components, List.splitOn_eq_singleton hw]
  by_cases hne : w = []
  · rw [if_pos hne, hne]
    rfl
  · rw [if_neg hne, List.filter_cons_of_pos]
    · rfl
    · apply decide_eq_true hne

/-! ### One call -/

section Call

variable (pre : List UInt8) {k : Nat} {w rest : List UInt8} {d : UInt8}

/-- At the end of the string there is no name. -/
theorem pathtok_end :
  pathtok (pre ++ [0]) pre.length = some (none, pre ++ [0], pre.length)
  := by
  rw [pathtok, getElem?_middle, Option.bind_some, if_pos rfl]

/-- A call finds the characters between the slashes in front and the next slash or the end. -/
theorem pathtok_eq (hw : sep ∉ w) (hzero : 0 ∉ w) (hd : d = 0 ∨ d = sep) (hempty : w = [] → d = 0)
    (hne : List.replicate k sep ++ w ≠ []) :
  pathtok (pre ++ (List.replicate k sep ++ (w ++ d :: rest))) pre.length
    = some (some (pre.length + k), pre ++ (List.replicate k sep ++ (w ++ 0 :: rest)),
        if d = 0 then pre.length + k + w.length else pre.length + k + w.length + 1)
  := by
  -- the character at the pointer is not the terminator
  obtain ⟨c, hfirst, hc⟩ : ∃ c, (pre ++ (List.replicate k sep ++ (w ++ d :: rest)))[pre.length]?
      = some c ∧ c ≠ 0 := by
    cases k with
    | zero =>
        cases w with
        | nil => exact absurd rfl hne
        | cons c w =>
            refine ⟨c, getElem?_middle pre, ?_⟩
            rintro rfl
            apply hzero List.mem_cons_self
    | succ k => exact ⟨sep, getElem?_middle pre, by decide⟩
  have hslashes : scan (fun c => c ≠ 0 ∧ c = sep)
      (pre ++ (List.replicate k sep ++ (w ++ d :: rest))) pre.length
      = some (pre.length + k) := by
    obtain ⟨e, post, hpost, he⟩ : ∃ e post, w ++ d :: rest = e :: post
        ∧ decide (e ≠ 0 ∧ e = sep) = false := by
      cases w with
      | nil =>
          refine ⟨d, rest, rfl, decide_eq_false ?_⟩
          rintro ⟨hd', -⟩
          apply hd' (hempty rfl)
      | cons e w =>
          refine ⟨e, w ++ d :: rest, rfl, decide_eq_false ?_⟩
          rintro ⟨-, rfl⟩
          apply hw List.mem_cons_self
    rw [hpost, scan_middle pre _ he, List.length_replicate]
    intro x hx
    rw [List.eq_of_mem_replicate hx]
    decide
  have hname : scan (fun c => c ≠ 0 ∧ c ≠ sep)
      (pre ++ (List.replicate k sep ++ (w ++ d :: rest))) (pre.length + k)
      = some (pre.length + k + w.length) := by
    have hlen : (pre ++ List.replicate k sep).length = pre.length + k := by simp
    rw [← List.append_assoc, ← hlen]
    apply scan_middle
    · intro x hx
      apply decide_eq_true
      constructor
      · rintro rfl
        apply hzero hx
      · rintro rfl
        apply hw hx
    · apply decide_eq_false
      rintro ⟨hd', hsep⟩
      apply hd.elim hd' hsep
  have hlen : (pre ++ (List.replicate k sep ++ w)).length = pre.length + k + w.length := by
    simp
    omega
  have hmid : ∀ e, pre ++ (List.replicate k sep ++ (w ++ e :: rest))
      = (pre ++ (List.replicate k sep ++ w)) ++ e :: rest := by
    simp
  rw [pathtok, hfirst, Option.bind_some, if_neg hc, hslashes, Option.bind_some, hname,
    Option.bind_some, ← hlen, hmid, getElem?_middle, Option.map_some]
  by_cases hd0 : d = 0
  · rw [if_pos hd0, if_pos hd0, hmid, hd0]
  · rw [if_neg hd0, if_neg hd0, hmid, set_middle]

end Call

/-! ### All calls -/

theorem lastName_of_not {s : List UInt8} (h : ¬ SlashTooMany s) :
  lastName s = []
  := if_neg h

theorem slashTooMany_append (x : List UInt8) {c : UInt8} (hc : c ≠ sep) (rest : List UInt8) :
  SlashTooMany (x ++ c :: sep :: rest) ↔ SlashTooMany rest
  := by
  constructor
  · rintro (heq | ⟨t, ht⟩)
    · have hlen := congrArg List.length heq
      rw [List.length_append, List.length_cons, List.length_cons, List.length_singleton] at hlen
      omega
    · obtain ⟨a, -, ha⟩ | ⟨a, -, ha⟩ := List.append_eq_append_iff.mp ht
      · -- the two slashes reach back to the character before the slash
        cases a with
        | nil => exact absurd (List.cons.inj ha).1.symm hc
        | cons e a =>
            have hlen := congrArg List.length ha
            simp only [List.length_append, List.length_cons, List.length_nil] at hlen
            omega
      · cases a with
        | nil => exact absurd (List.cons.inj ha).1 hc
        | cons e a =>
            cases a with
            | nil => exact Or.inl (List.cons.inj (List.cons.inj ha).2).2
            | cons e' a => exact Or.inr ⟨a, (List.cons.inj (List.cons.inj ha).2).2.symm⟩
  · rintro (rfl | ⟨t, rfl⟩)
    · exact Or.inr ⟨x ++ [c], by simp⟩
    · exact Or.inr ⟨x ++ c :: sep :: t, by simp⟩

/-- A component in front does not change how the path ends. -/
theorem lastName_cons (k : Nat) {w : List UInt8} (hw : sep ∉ w) (hne : w ≠ [])
    (rest : List UInt8) :
  lastName (List.replicate k sep ++ (w ++ sep :: rest)) = lastName rest
  := by
  have hiff : SlashTooMany (List.replicate k sep ++ (w ++ sep :: rest)) ↔ SlashTooMany rest := by
    obtain ⟨x, c, rfl⟩ := w.eq_nil_or_concat.resolve_left hne
    have hc : c ≠ sep := by
      rintro rfl
      apply hw
      simp
    rw [List.concat_append, ← List.append_assoc]
    apply slashTooMany_append _ hc
  rw [lastName, lastName]
  simp only [hiff]

theorem tokens_end (pre : List UInt8) :
  tokens (pre ++ [0]) pre.length = some []
  := by
  rw [tokens]
  split
  · rename_i h
    rw [pathtok_end] at h
    cases h
  · rfl
  · rename_i h
    rw [pathtok_end] at h
    cases h

theorem tokens_of_pathtok {m m' : List UInt8} {p p' ret : Nat}
    (h : pathtok m p = some (some ret, m', p')) :
  tokens m p = (tokens m' p').map ((charsAt m' ret, p') :: ·)
  := by
  rw [tokens]
  split
  · rename_i h'
    rw [h] at h'
    cases h'
  · rename_i h'
    rw [h] at h'
    cases h'
  · rename_i h'
    rw [h] at h'
    cases h'
    rfl

/-- The last name is what follows the last slash, unless there is nothing at all. -/
theorem components_lastName {k : Nat} {w : List UInt8} (hw : sep ∉ w)
    (hne : List.replicate k sep ++ w ≠ []) :
  names (List.replicate k sep ++ w) = [w]
  := by
  rw [names, components_slashes, components_last hw]
  obtain rfl | ⟨x, c, rfl⟩ := w.eq_nil_or_concat
  · rw [if_pos rfl, List.nil_append, List.append_nil, lastName, if_pos]
    match k with
    | 0 => exact absurd rfl hne
    | 1 => exact Or.inl rfl
    | k + 2 =>
        right
        rw [List.replicate_add]
        apply List.suffix_append
  · have hnot : ¬ SlashTooMany (List.replicate k sep ++ x.concat c) := by
      have hc : c ≠ sep := by
        rintro rfl
        apply hw
        simp
      rw [List.concat_eq_append, ← List.append_assoc]
      rintro (heq | ⟨t, ht⟩)
      · apply hc
        simpa using congrArg List.getLast? heq
      · apply hc
        simpa using (congrArg List.getLast? ht).symm
    rw [lastName_of_not hnot, if_neg (by simp), List.append_nil]

/-- A call in a string that has not ended finds the next name, and leaves the rest of the
string. -/
theorem pathtok_step (pre : List UInt8) {s : List UInt8} (hs : 0 ∉ s) (hne : s ≠ []) :
  ∃ w rest pre' post ret,
    pathtok (pre ++ (s ++ [0])) pre.length = some (some ret, pre' ++ (rest ++ [0]), pre'.length)
      ∧ (pre' ++ (rest ++ [0])).drop ret = w ++ 0 :: post ∧ 0 ∉ w ∧ 0 ∉ rest
      ∧ names s = w :: names rest ∧ pre'.length + rest.length = pre.length + s.length
      ∧ rest.length < s.length
  := by
  obtain ⟨k, w, hw, rfl | ⟨rest, hwne, rfl⟩⟩ := path_cases s
  · -- the last name, which is empty when there are slashes only
    have hzero : 0 ∉ w := fun h => hs (List.mem_append_right _ h)
    have hcall : pathtok (pre ++ (List.replicate k sep ++ (w ++ 0 :: []))) pre.length = _ :=
      pathtok_eq pre hw hzero (Or.inl rfl) (fun _ => rfl) hne
    refine ⟨w, [], pre ++ (List.replicate k sep ++ w), [], pre.length + k, ?_, ?_, hzero,
      List.not_mem_nil, components_lastName hw hne, by simp, List.length_pos_iff.mpr hne⟩
    · rw [List.append_assoc, hcall, if_pos rfl]
      simp [Nat.add_assoc]
    · simp
  · have hzero : 0 ∉ w := fun h => hs (by simp [h])
    have hrest : 0 ∉ rest := fun h => hs (by simp [h])
    have hcall : pathtok (pre ++ (List.replicate k sep ++ (w ++ sep :: (rest ++ [0])))) pre.length
        = _ :=
      pathtok_eq pre hw hzero (Or.inr rfl) (fun h => absurd h hwne) (by simp [hwne])
    rw [if_neg (by decide)] at hcall
    refine ⟨w, rest, pre ++ (List.replicate k sep ++ (w ++ [0])), rest ++ [0], pre.length + k, ?_,
      ?_, hzero, hrest, ?_, ?_, ?_⟩
    · rw [List.append_assoc, List.append_assoc, List.cons_append, hcall]
      simp [Nat.add_assoc]
    · simp
    · rw [names, components_slashes, components_cons hw hwne, lastName_cons k hw hwne]
      rfl
    · simp
      omega
    · simp
      omega

/-- The loop ends, and it stays before the end of the string. -/
theorem tokens_eq (pre : List UInt8) {s : List UInt8} (hs : 0 ∉ s) :
  ∃ cs, tokens (pre ++ (s ++ [0])) pre.length = some cs ∧ cs.map Prod.fst = names s
    ∧ ∀ c ∈ cs, c.2 ≤ pre.length + s.length
  := by
  induction hn : s.length using Nat.strongRecOn generalizing pre s with
  | ind n ih =>
      obtain rfl | hne := eq_or_ne s []
      · exact ⟨[], tokens_end pre, by decide, by simp⟩
      · obtain ⟨w, rest, pre', post, ret, hcall, hdrop, hw, hrest, hnames, hlen, hlt⟩ :=
          pathtok_step pre hs hne
        rw [hn] at hlen hlt
        obtain ⟨cs, hcs, hnames', hbound⟩ := ih rest.length hlt pre' hrest rfl
        rw [hlen] at hbound
        refine ⟨(w, pre'.length) :: cs, ?_, ?_, ?_⟩
        · rw [tokens_of_pathtok hcall, hcs, charsAt_of_drop hdrop hw]
          rfl
        · rw [List.map_cons, hnames', hnames]
        · rw [List.forall_mem_cons]
          refine ⟨?_, hbound⟩
          rw [← hlen]
          apply Nat.le_add_right

/-- The calls of `pathtok` on a string end, they stay before its end, and they find its
components. -/
def Tokenises (s : CString) : Prop :=
  ∃ cs, tokens s.block 0 = some cs ∧ (∀ c ∈ cs, c.2 ≤ s.chars.length)
    ∧ cs.map Prod.fst = components s.chars

/-- The calls of `pathtok` on a string always end and stay before its end, and they find its
components just when it does not end with a slash too many. -/
theorem tokenises_iff (s : CString) :
  (Tokenises s ↔ ¬ SlashTooMany s.chars)
    ∧ ∃ cs, tokens s.block 0 = some cs ∧ (∀ c ∈ cs, c.2 ≤ s.chars.length)
        ∧ cs.map Prod.fst = names s.chars
  := by
  obtain ⟨cs, hcs, hnames, hbound⟩ := tokens_eq [] s.nonzero
  rw [List.nil_append, List.length_nil, ← block] at hcs
  rw [List.length_nil, Nat.zero_add] at hbound
  refine ⟨⟨?_, ?_⟩, cs, hcs, hbound, hnames⟩
  · rintro ⟨cs', hcs', -, hnames'⟩ hslash
    obtain rfl := Option.some_inj.mp (hcs.symm.trans hcs')
    rw [hnames', names, lastName, if_pos hslash, List.self_eq_append_right] at hnames
    cases hnames
  · intro hslash
    rw [names, lastName_of_not hslash, List.append_nil] at hnames
    exact ⟨cs, hcs, hbound, hnames⟩

/-- The path `a//`. -/
def twoSlashes : CString where
  chars := [0x61, sep, sep]
  nonzero := by decide

/-- `a//` has an empty name at its end. -/
theorem twoSlashes_tokens :
  (∃ cs, tokens twoSlashes.block 0 = some cs ∧ cs.map Prod.fst = [[0x61], []])
    ∧ components twoSlashes.chars = [[0x61]] ∧ ¬ Tokenises twoSlashes
  := by
  obtain ⟨cs, hcs, hnames, -⟩ := tokens_eq [] twoSlashes.nonzero
  have htwo : names twoSlashes.chars = [[0x61], []] := by decide
  rw [htwo] at hnames
  refine ⟨⟨cs, hcs, hnames⟩, by decide, ?_⟩
  rintro ⟨cs', hcs', -, hnames'⟩
  obtain rfl := Option.some_inj.mp (hcs'.symm.trans hcs)
  rw [hnames] at hnames'
  apply absurd hnames' (by decide)

end Pathtok
