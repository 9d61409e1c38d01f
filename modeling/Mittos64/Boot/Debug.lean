import Mathlib.Data.List.Induction
import Mathlib.Data.Nat.Digits.Lemmas
import Mittos64.Lib.CString
import Mittos64.Lib.Memory

/-!
# Printing numbers

`num2str` of `boot/debug.c`.  The digits are written from the last one on and then turned around
by two indices that go towards each other.  Their sum does not change on the way, so it still tells
where the zero behind the digits goes.
-/

namespace Debug

/-- `chars`, without its zero at the end -/
def chars : List UInt8 :=
  [48, 49, 50, 51, 52, 53, 54, 55, 56, 57, 65, 66, 67, 68, 69, 70]

/-- `chars[d]` -/
def digitChar (d : Nat) : UInt8 :=
  chars.getD d 0

/-- The loop of `num2str` that builds the string, for `fuel` turns. -/
def buildDigits (base buf : Nat) : Nat → Memory → Nat → Nat → Option (Memory × Nat)
  | 0, _, _, _ => none
  | fuel + 1, m, i, num =>
      if num > 0 then
        buildDigits base buf fuel (m.write (buf + i) [digitChar (num % base)]) ((i + 1) % 2 ^ 32)
          (num / base)
      else some (m, i)

/-- The loop of `num2str` that turns the string around. -/
def invertString (buf : Nat) (m : Memory) (i j : Nat) : Memory × Nat × Nat :=
  if j < i then
    let t := m (buf + i)
    let m := m.write (buf + i) [m (buf + j)]
    let m := m.write (buf + j) [t]
    invertString buf m (i - 1) (j + 1)
  else (m, i, j)
termination_by i - j

/-- `i--` of a 32-bit number -/
def pred32 (i : Nat) : Nat :=
  (i + (2 ^ 32 - 1)) % 2 ^ 32

/-- The end of `num2str`: it puts a zero behind the string and returns its length. -/
def terminate (buf : Nat) : Memory × Nat × Nat → Memory × Nat
  | (m, i, j) => (m.write (buf + (i + j + 1) % 2 ^ 32) [0], (i + j + 1) % 2 ^ 32)

/-- `num2str(num, base, buf)`, with at most `fuel` turns of its first loop -/
def num2str (fuel : Nat) (m : Memory) (num base buf : Nat) : Option (Memory × Nat) :=
  if num = 0 then some ((m.write buf [digitChar 0]).write (buf + 1) [0], 0)
  else
    (buildDigits base buf fuel m 0 num).map fun (m, i) =>
      terminate buf (invertString buf m (pred32 i) 0)

/-! ### Numerals -/

/-- The number that is written as `text`. -/
def numberValue (base : Nat) (text : List UInt8) : Nat :=
  text.foldl (fun v c => chars.idxOf c + base * v) 0

/-- The text is the number `num` written in the base, in at most 64 digits and without zeros at the
front. -/
structure Numeral (base num : Nat) (text : List UInt8) : Prop where
  digits : ∀ c ∈ text, c ∈ chars.take base
  value : numberValue base text = num
  front : (num = 0 ∧ text = [digitChar 0]) ∨ (num ≠ 0 ∧ text.head? ≠ some (digitChar 0))
  pos : 0 < text.length
  length : text.length ≤ 64

/-- The number `num` in the base, the last digit first. -/
def digitsUp (base num : Nat) : List UInt8 :=
  (Nat.digits base num).map digitChar

section Digits

variable {base num : Nat}

theorem digitChar_mem {d : Nat} (hd : d < base) (hbase : base ≤ 16) :
  digitChar d ∈ chars.take base
  := by
  have hlen : chars.length = 16 := rfl
  rw [digitChar, List.getD_eq_getElem?_getD, List.getElem?_eq_getElem (by omega), Option.getD_some,
    List.mem_take_iff_getElem]
  exact ⟨d, by omega, rfl⟩

theorem idxOf_digitChar {d : Nat} (hd : d < 16) :
  chars.idxOf (digitChar d) = d
  := by
  have hall : ∀ d < 16, chars.idxOf (digitChar d) = d := by decide
  exact hall d hd

/-- The digits have the value that they are the digits of. -/
theorem numberValue_digitsUp (hbase : 1 < base) (hbase' : base ≤ 16) :
  numberValue base (digitsUp base num).reverse = num
  := by
  rw [numberValue, List.foldl_reverse, digitsUp, List.foldr_map]
  conv_rhs => rw [← Nat.ofDigits_digits base num, Nat.ofDigits_eq_foldr]
  apply List.foldr_ext
  intro d hd v
  rw [idxOf_digitChar (Nat.lt_of_lt_of_le (Nat.digits_lt_base hbase hd) hbase')]
  rfl

/-- The first digit is not a zero. -/
theorem head?_digitsUp (hbase : 1 < base) (hbase' : base ≤ 16) (hnum : num ≠ 0) :
  (digitsUp base num).reverse.head? ≠ some (digitChar 0)
  := by
  have hne : Nat.digits base num ≠ [] := Nat.digits_ne_nil_iff_ne_zero.mpr hnum
  have hlast := Nat.getLast_digit_ne_zero base hnum
  rw [List.head?_reverse, digitsUp, List.getLast?_map, List.getLast?_eq_some_getLast hne,
    Option.map_some]
  intro heq
  have hlt := Nat.digits_lt_base hbase (List.getLast_mem hne)
  have hidx := congrArg chars.idxOf (Option.some_inj.mp heq)
  rw [idxOf_digitChar (by omega), idxOf_digitChar (by decide)] at hidx
  exact hlast hidx

theorem digitsUp_length_le (hbase : 1 < base) (hnum : num < 2 ^ 64) :
  (digitsUp base num).length ≤ 64
  := by
  rw [digitsUp, List.length_map, Nat.digits_length_le_iff hbase]
  exact Nat.lt_of_lt_of_le hnum (Nat.pow_le_pow_left hbase 64)

/-- The digits of a number that is not zero are a numeral for it. -/
theorem numeral_digitsUp (hbase : 1 < base) (hbase' : base ≤ 16) (hnum : num < 2 ^ 64)
    (hne : num ≠ 0) :
  Numeral base num (digitsUp base num).reverse
  := by
  constructor
  · intro c hc
    rw [List.mem_reverse, digitsUp, List.mem_map] at hc
    obtain ⟨d, hd, rfl⟩ := hc
    exact digitChar_mem (Nat.digits_lt_base hbase hd) hbase'
  · exact numberValue_digitsUp hbase hbase'
  · exact Or.inr ⟨hne, head?_digitsUp hbase hbase' hne⟩
  · rw [List.length_reverse, digitsUp, List.length_map, List.length_pos_iff]
    exact Nat.digits_ne_nil_iff_ne_zero.mpr hne
  · rw [List.length_reverse]
    exact digitsUp_length_le hbase hnum

theorem numeral_zero (hbase : 1 < base) :
  Numeral base 0 [digitChar 0]
  := by
  constructor
  · intro c hc
    rw [List.mem_singleton.mp hc, List.mem_take_iff_getElem]
    exact ⟨0, by rw [show chars.length = 16 from rfl]; omega, rfl⟩
  · rfl
  · exact Or.inl ⟨rfl, rfl⟩
  · exact Nat.one_pos
  · exact Nat.le_of_ble_eq_true rfl

end Digits

/-! ### The two loops -/

section Loops

variable {m : Memory} {base buf num : Nat}

/-- The first loop writes the digits one after the other. -/
theorem buildDigits_eq (hbase : 1 < base) {fuel i : Nat} (hfuel : (digitsUp base num).length < fuel)
    (hi : i + (digitsUp base num).length < 2 ^ 32) :
  buildDigits base buf fuel m i num
    = some (m.write (buf + i) (digitsUp base num), i + (digitsUp base num).length)
  := by
  induction fuel generalizing m i num with
  | zero => exact absurd hfuel (Nat.not_lt_zero _)
  | succ fuel ih =>
      rw [buildDigits]
      split_ifs with hpos
      · have hcons : digitsUp base num = digitChar (num % base) :: digitsUp base (num / base) := by
          rw [digitsUp, Nat.digits_def' hbase hpos, List.map_cons]
          rfl
        rw [hcons, List.length_cons] at hfuel hi
        have hwrite := m.write_append (buf + i) [digitChar (num % base)] (digitsUp base (num / base))
        rw [List.singleton_append, List.length_singleton, Nat.add_assoc] at hwrite
        rw [Nat.mod_eq_of_lt (show i + 1 < 2 ^ 32 by omega), ih (by omega) (by omega), hcons, hwrite,
          List.length_cons, Nat.add_assoc i, Nat.add_comm 1]
      · obtain rfl : num = 0 := by omega
        have hnil : digitsUp base 0 = [] := by
          rw [digitsUp, Nat.digits_zero, List.map_nil]
        rw [hnil]
        congr
        funext x
        rw [Memory.write_of_notMem]
        rw [List.length_nil]
        omega

/-- Writing over a byte of a block. -/
theorem write_write_middle (pre post : List UInt8) (c d : UInt8) :
  (m.write buf (pre ++ c :: post)).write (buf + pre.length) [d] = m.write buf (pre ++ d :: post)
  := by
  funext x
  by_cases hx : x = buf + pre.length
  · subst hx
    rw [Memory.write_apply_of_lt m (by simp)]
    simp [Memory.write]
  · rw [Memory.write_of_notMem _ (by rw [List.length_singleton]; omega)]
    by_cases hin : buf ≤ x ∧ x < buf + (pre ++ c :: post).length
    · obtain ⟨k, rfl⟩ := Nat.exists_eq_add_of_le hin.1
      have hk : k < (pre ++ c :: post).length := by omega
      have hk' : k < (pre ++ d :: post).length := by simpa using hk
      rw [Memory.write_apply_of_lt m hk, Memory.write_apply_of_lt m hk']
      rw [← List.getElem_set_ne (show pre.length ≠ k by omega) (by simpa using hk)]
      congr 1
      apply CString.set_middle
    · rw [Memory.write_of_notMem m (by omega), Memory.write_of_notMem m]
      simp only [List.length_append, List.length_cons] at hin ⊢
      omega

theorem write_middle (pre post : List UInt8) (c : UInt8) :
  m.write buf (pre ++ c :: post) (buf + pre.length) = c
  := by
  rw [Memory.write_apply_of_lt m (by simp)]
  simp

/-- The second loop turns the part of the string around that lies between its indices, and keeps
their sum. -/
theorem invertString_eq (mid : List UInt8) :
  ∀ (pre post : List UInt8) {i j : Nat}, pre.length = j → i + 1 = j + mid.length →
    ∃ i' j', i' + j' = i + j
      ∧ invertString buf (m.write buf (pre ++ (mid ++ post))) i j
        = (m.write buf (pre ++ (mid.reverse ++ post)), i', j')
  := by
  induction mid using List.bidirectionalRec with
  | nil =>
      intro pre post i j _ hi
      rw [invertString, if_neg (by rw [List.length_nil] at hi; omega)]
      exact ⟨i, j, rfl, rfl⟩
  | singleton c =>
      intro pre post i j _ hi
      rw [invertString, if_neg (by rw [List.length_singleton] at hi; omega)]
      exact ⟨i, j, rfl, rfl⟩
  | cons_append c mid d ih =>
      intro pre post i j hj hi
      simp only [List.length_cons, List.length_append, List.length_nil] at hi
      have hlast : (pre ++ c :: mid).length = i := by
        rw [List.length_append, List.length_cons]
        omega
      -- the string with the last character of the part, and with the first one, in the middle
      have hfirst : pre ++ (c :: (mid ++ [d]) ++ post) = pre ++ c :: (mid ++ d :: post) := by simp
      have hend : pre ++ c :: (mid ++ d :: post) = (pre ++ c :: mid) ++ d :: post := by simp
      have hswap : (pre ++ c :: mid) ++ c :: post = pre ++ c :: (mid ++ c :: post) := by simp
      have hrest : pre ++ d :: (mid ++ c :: post) = (pre ++ [d]) ++ (mid ++ c :: post) := by simp
      obtain ⟨i', j', hsum, hinvert⟩ := @ih (pre ++ [d]) (c :: post) (i - 1) (j + 1)
        (by simp [hj]) (by omega)
      refine ⟨i', j', by omega, ?_⟩
      rw [invertString, if_pos (by omega)]
      simp only
      have hread : m.write buf (pre ++ c :: (mid ++ d :: post)) (buf + j) = c := by
        rw [← hj]
        apply write_middle
      have hread' : m.write buf (pre ++ c :: (mid ++ d :: post)) (buf + i) = d := by
        rw [hend, ← hlast]
        apply write_middle
      rw [hfirst, hread, hread']
      have hwrite : (m.write buf (pre ++ c :: (mid ++ d :: post))).write (buf + i) [c]
          = m.write buf (pre ++ c :: (mid ++ c :: post)) := by
        rw [hend, ← hlast, write_write_middle, hswap]
      have hwrite' : (m.write buf (pre ++ c :: (mid ++ c :: post))).write (buf + j) [d]
          = m.write buf (pre ++ d :: (mid ++ c :: post)) := by
        rw [← hj, write_write_middle]
      rw [hwrite, hwrite', hrest, hinvert]
      simp

/-- What `num2str` writes for a number that is not zero. -/
theorem num2str_of_ne_zero (hbase : 1 < base) (hnum : num < 2 ^ 64) (hne : num ≠ 0) {fuel : Nat}
    (hfuel : 64 < fuel) :
  num2str fuel m num base buf
    = some (m.write buf ((digitsUp base num).reverse ++ [0]), (digitsUp base num).length)
  := by
  have hlen := @digitsUp_length_le base num hbase hnum
  have hpos : 0 < (digitsUp base num).length := by
    rw [digitsUp, List.length_map, List.length_pos_iff]
    exact Nat.digits_ne_nil_iff_ne_zero.mpr hne
  have hbuild : buildDigits base buf fuel m 0 num
      = some (m.write buf (digitsUp base num), (digitsUp base num).length) := by
    rw [buildDigits_eq hbase (by omega) (by omega), Nat.add_zero, Nat.zero_add]
  obtain ⟨i, j, hsum, hinvert⟩ := @invertString_eq m buf (digitsUp base num) [] []
    ((digitsUp base num).length - 1) 0 rfl (by omega)
  rw [List.append_nil, List.append_nil, List.nil_append, List.nil_append] at hinvert
  have hdec : pred32 (digitsUp base num).length = (digitsUp base num).length - 1 := by
    rw [pred32]
    omega
  have hend : (i + j + 1) % 2 ^ 32 = (digitsUp base num).length := by omega
  rw [num2str, if_neg hne, hbuild, Option.map_some]
  dsimp only
  rw [hdec, hinvert, terminate, hend, Memory.write_append, List.length_reverse]

/-- `num2str` writes the digits of the number and a zero behind them, and nothing else. -/
theorem num2str_roundTrip (m : Memory) (buf : Nat) {num base : Nat} (hnum : num < 2 ^ 64)
    (hbase : 2 ≤ base) (hbase' : base ≤ 16) :
  ∃ text m' ret, Numeral base num text
    ∧ (∀ fuel, 64 < fuel → num2str fuel m num base buf = some (m', ret))
    ∧ m'.Holds buf (text ++ [0])
    ∧ ∀ x, x < buf ∨ buf + text.length < x → m' x = m x
  := by
  have hother : ∀ (text : List UInt8) x, x < buf ∨ buf + text.length < x →
      m.write buf (text ++ [0]) x = m x := by
    intro text x hx
    apply Memory.write_of_notMem
    rw [List.length_append, List.length_singleton]
    omega
  by_cases hne : num = 0
  · subst hne
    refine ⟨[digitChar 0], _, 0, numeral_zero hbase, ?_, Memory.holds_write m buf _, hother _⟩
    intro fuel _
    rw [num2str, if_pos rfl, Memory.write_append]
    rfl
  · refine ⟨(digitsUp base num).reverse, _, (digitsUp base num).length,
      numeral_digitsUp hbase hbase' hnum hne, ?_, Memory.holds_write m buf _, hother _⟩
    intro fuel hfuel
    exact num2str_of_ne_zero hbase hnum hne hfuel

/-- The number 255 in the base 16. -/
theorem num2str_roundTrip_hex :
  ∃ text m' ret, Numeral 16 255 text
    ∧ (∀ fuel, 64 < fuel → num2str fuel (fun _ => 0) 255 16 0 = some (m', ret))
    ∧ m'.Holds 0 (text ++ [0])
    ∧ ∀ x, x < 0 ∨ 0 + text.length < x → m' x = 0
  := num2str_roundTrip (fun _ => 0) 0 (by decide) (by decide) (by decide)

end Loops

end Debug
