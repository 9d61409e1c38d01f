import Mathlib.Data.List.Basic

/-!
# Zero-terminated strings

A string of characters other than zero lies in a block of memory with a zero behind it.  A
pointer into the block is an index, and a loop that moves a pointer as long as the character
there passes a test (`scan`) finds nothing to read behind the block.
-/

/-- The characters of a string, without the zero that ends it in memory. -/
structure CString where
  chars : List UInt8
  nonzero : 0 ∉ chars

namespace CString

/-- The block of memory that holds the string. -/
def block (s : CString) : List UInt8 :=
  s.chars ++ [0]

/-- The string at the pointer `p` into a block. -/
def charsAt (m : List UInt8) (p : Nat) : List UInt8 :=
  (m.drop p).takeWhile (· ≠ 0)

/-- The loop `while(f(*p)) p++` over the characters from the pointer on. -/
def scanFrom (f : UInt8 → Bool) : List UInt8 → Nat → Option Nat
  | [], _ => none
  | c :: l, p => if f c then scanFrom f l (p + 1) else some p

/-- The loop `while(f(*p)) p++` in a block: the pointer it ends with, unless it leaves the
block. -/
def scan (f : UInt8 → Bool) (m : List UInt8) (p : Nat) : Option Nat :=
  scanFrom f (m.drop p) p

/-! ### Pointers in the middle of a block -/

section Middle

variable (pre : List UInt8) {post : List UInt8} {w : List UInt8} {c : UInt8}

theorem getElem?_middle :
  (pre ++ c :: post)[pre.length]? = some c
  := by
  simp

theorem set_middle (d : UInt8) :
  (pre ++ c :: post).set pre.length d = pre ++ d :: post
  := by
  simp

/-- The string between a pointer and a zero. -/
theorem charsAt_of_drop {m : List UInt8} {p : Nat} (h : m.drop p = w ++ 0 :: post) (hw : 0 ∉ w) :
  charsAt m p = w
  := by
  rw [charsAt, h, List.takeWhile_append_of_pos]
  · simp
  · intro x hx
    apply decide_eq_true
    rintro rfl
    apply hw hx

variable {f : UInt8 → Bool}

theorem scanFrom_append (hw : ∀ x ∈ w, f x) (hc : f c = false) (p : Nat) :
  scanFrom f (w ++ c :: post) p = some (p + w.length)
  := by
  induction w generalizing p with
  | nil => simp [scanFrom, hc]
  | cons x w ih =>
      rw [List.forall_mem_cons] at hw
      rw [List.cons_append, scanFrom, if_pos hw.1, ih hw.2, List.length_cons]
      congr 1
      omega

/-- The loop moves the pointer over the characters that pass the test. -/
theorem scan_middle (hw : ∀ x ∈ w, f x) (hc : f c = false) :
  scan f (pre ++ (w ++ c :: post)) pre.length = some (pre.length + w.length)
  := by
  rw [scan, List.drop_left]
  apply scanFrom_append hw hc

end Middle

/-! ### What a scan does -/

section Scan

variable {f : UInt8 → Bool} {p q : Nat}

theorem scanFrom_spec :
  ∀ {l : List UInt8} {p : Nat}, scanFrom f l p = some q →
    p ≤ q ∧ q < p + l.length ∧ (∀ c, l[0]? = some c → f c → p < q)
  | c :: l, p, h => by
      rw [scanFrom] at h
      split_ifs at h with hc
      · obtain ⟨hle, hlt, -⟩ := scanFrom_spec h
        rw [List.length_cons]
        refine ⟨by omega, by omega, fun _ _ _ => hle⟩
      · obtain rfl := Option.some_inj.mp h
        refine ⟨Nat.le_refl _, by simp, ?_⟩
        rintro d hd hf
        obtain rfl : c = d := by simpa using hd
        apply absurd hf hc

/-- The loop ends at a pointer into the block, and it moves when the first character passes the
test. -/
theorem scan_spec {m : List UInt8} (h : scan f m p = some q) :
  p ≤ q ∧ q < m.length ∧ (∀ c, m[p]? = some c → f c → p < q)
  := by
  obtain ⟨hle, hlt, hmove⟩ := scanFrom_spec h
  rw [List.length_drop] at hlt
  refine ⟨hle, by omega, ?_⟩
  intro c hc
  apply hmove c
  rw [List.getElem?_drop, Nat.add_zero, hc]

end Scan

end CString
