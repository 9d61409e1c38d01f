import Mathlib.Algebra.Group.Nat.Even
import Mathlib.Data.List.DropRight
import Mittos64.Boot.Debug
import Mittos64.Drivers.Vga
import Mittos64.Mem.Strings

/-!
# Formatted printing

`debug_vprintf` of `boot/debug.c`.  The format is a pointer into a block of characters, which ends
with the zero behind the format or goes on behind it, and a character outside of the block is not
there to read.  A run of other characters is printed at once; a percent sign and the character
behind it are a directive, even when this character is the zero.  So a format that ends in a
percent sign of its own is not read up to its zero, but beyond.
-/

namespace Debug

/-- `'%'` -/
def percent : UInt8 := 37

/-- `DEBUG_VPRINTF_BASE_CHAR` -/
def baseChar : Nat := 255

/-- `DEBUG_VPRINTF_BASE_STR` -/
def baseStr : Nat := 1024

/-- An argument: a number, or a pointer to a block of characters. -/
inductive Arg where
  | word (num : UInt64)
  | pointer (block : List UInt8)

/-- `va_arg(args, uint64_t)` -/
def vaWord : List Arg → Option (UInt64 × List Arg)
  | .word num :: args => some (num, args)
  | _ => none

/-- `va_arg(args, char *)` -/
def vaPointer : List Arg → Option (List UInt8 × List Arg)
  | .pointer block :: args => some (block, args)
  | _ => none

/-- The `switch` of `debug_vprintf`: the prefix and the base, which is 0 in the other cases. -/
def conversion (c : UInt8) : List UInt8 × Nat :=
  if c = 98 then ([48, 98], 2)
  else if c = 111 then ([48], 8)
  else if c = 100 then ([], 10)
  else if c = 120 then ([48, 120], 16)
  else if c = 99 then ([], baseChar)
  else if c = 115 then ([], baseStr)
  else ([], 0)

/-- `str[len] && str[len] != '%'` -/
def isLiteral (c : UInt8) : Bool :=
  c ≠ 0 ∧ c ≠ percent

/-- The loop of `debug_vprintf` that counts the characters up to the next directive. -/
def literalLength : List UInt8 → Option Nat
  | [] => none
  | c :: str => if isLiteral c then (literalLength str).map (· + 1) else some 0

/-- `buf` after `num2str(num, base, buf)`, with the contents `junk` before. -/
def numberBuf (junk : Memory) (num : UInt64) (base : Nat) : Option (List UInt8) :=
  (num2str 65 junk num.toNat base 0).map fun r => r.1.read 0 128

section Source

variable {σ : Type} (putch : σ → UInt8 → Option σ) (junk : List UInt8 → Memory)

/-- `debug_putsn(s, n)`.  The terminal is in the state `t`, and `putch` is `debug_putch`. -/
def debugPutsn : σ → List UInt8 → Nat → Option σ
  | t, _, 0 => some t
  | _, [], _ + 1 => none
  | t, c :: s, n + 1 => (putch t c).bind fun t => debugPutsn t s n

/-- `debug_puts(s)` -/
def debugPuts (t : σ) (s : List UInt8) : Option σ :=
  (strlen s).bind fun n => debugPutsn putch t s n

/-- The part of `debug_vprintf` that prints a directive, from the `switch` over its character `c`
on, with the arguments behind it. -/
def printDirective (buf : Memory) (t : σ) (c : UInt8) (args : List Arg) :
    Option (σ × List Arg) :=
  let (numPre, base) := conversion c
  if base = 0 then (putch t percent).map fun t => (t, args)
  else if base = baseStr then
    (vaPointer args).bind fun (s, args) => (debugPuts putch t s).map fun t => (t, args)
  else if base = baseChar then
    (vaWord args).bind fun (num, args) => (putch t num.toUInt8).map fun t => (t, args)
  else
    (vaWord args).bind fun (num, args) =>
      (numberBuf buf num base).bind fun s =>
        (debugPuts putch t (numPre ++ [0])).bind fun t =>
          (debugPuts putch t s).map fun t => (t, args)

/-- `debug_vprintf(str, args)`, with at most `fuel` calls, and the arguments that are left.  The
calls share `args`, since a `va_list` is an array.  `junk` is what `buf` holds in each call. -/
def debugVprintf : Nat → σ → List UInt8 → List Arg → Option (σ × List Arg)
  | 0, _, _, _ => none
  | _ + 1, _, [], _ => none
  | fuel + 1, t, c :: str, args =>
      if c = 0 then some (t, args)
      else if c ≠ percent then
        (literalLength (c :: str)).bind fun len =>
          (debugPutsn putch t (c :: str) len).bind fun t =>
            debugVprintf fuel t ((c :: str).drop len) args
      else
        match str with
        | [] => none
        | d :: str =>
            (printDirective putch (junk str) t d args).bind fun (t, args) =>
              debugVprintf fuel t str args

end Source

/-! ### What a format prints -/

/-- The bases that numbers are printed in. -/
inductive Radix where
  | bin
  | oct
  | dec
  | hex

namespace Radix

/-- The number of digits. -/
def base : Radix → Nat
  | bin => 2
  | oct => 8
  | dec => 10
  | hex => 16

/-- What stands before a number: `0b`, `0` or `0x`. -/
def numPre : Radix → List UInt8
  | bin => [48, 98]
  | oct => [48]
  | dec => []
  | hex => [48, 120]

end Radix

/-- The directives.  Those with another character than `b`, `o`, `d`, `x`, `c` and `s` take no
argument. -/
inductive Directive where
  | number (r : Radix)
  | char
  | str
  | other

/-- The directive with this character behind the percent sign. -/
def directive (c : UInt8) : Directive :=
  if c = 98 then .number .bin
  else if c = 111 then .number .oct
  else if c = 100 then .number .dec
  else if c = 120 then .number .hex
  else if c = 99 then .char
  else if c = 115 then .str
  else .other

/-- A format consists of characters that are printed as they are, and of directives. -/
inductive Piece where
  | text (c : UInt8)
  | directive (d : Directive)

/-- The pieces of a format.  A percent sign at its end, with no character for it, is text. -/
def pieces : List UInt8 → List Piece
  | [] => []
  | [c] => [.text c]
  | c :: d :: s =>
      if c = percent then .directive (directive d) :: pieces s else .text c :: pieces (d :: s)

/-- The number `num` in the base. -/
def numeral (base num : Nat) : List UInt8 :=
  if num = 0 then [digitChar 0] else (digitsUp base num).reverse

/-- The arguments that a directive takes, and what it prints for them. -/
inductive Directive.Prints : Directive → List Arg → List UInt8 → Prop where
  | number (r : Radix) (num : UInt64) :
      Prints (.number r) [.word num] (r.numPre ++ numeral r.base num.toNat)
  | char (num : UInt64) : Prints .char [.word num] [num.toUInt8]
  | str (s : CString) (post : List UInt8) : Prints .str [.pointer (s.chars ++ 0 :: post)] s.chars
  | other : Prints .other [] [percent]

/-- The arguments that match the pieces of a format, and the output for them. -/
inductive Output : List Piece → List Arg → List UInt8 → Prop where
  | nil : Output [] [] []
  | text (c : UInt8) {ps : List Piece} {args : List Arg} {out : List UInt8}
      (h : Output ps args out) : Output (.text c :: ps) args (c :: out)
  | directive {d : Directive} {ps : List Piece} {args args' : List Arg} {out out' : List UInt8}
      (h : d.Prints args out) (h' : Output ps args' out') :
      Output (.directive d :: ps) (args ++ args') (out ++ out')

/-- With arguments that match the format and any others behind them, `debug_vprintf` prints what
the format stands for and takes the arguments that match.  It does so wherever the block of the
format ends behind the zero, and in at most one call more than the format has characters. -/
def Formats (s : CString) : Prop :=
  ∀ (σ : Type) (putch : σ → UInt8 → Option σ) (junk : List UInt8 → Memory) (t : σ)
    (args rest : List Arg) (out post : List UInt8),
    Output (pieces s.chars) args out → ∀ fuel > s.chars.length,
      debugVprintf putch junk fuel t (s.chars ++ 0 :: post) (args ++ rest)
        = (out.foldlM putch t).map fun t => (t, rest)

/-- The number of percent signs at the end of a format. -/
def percentsAtEnd (s : List UInt8) : Nat :=
  (s.rtakeWhile (· = percent)).length

/-! ### Printing an argument -/

section Numbers

variable {base num : Nat}

theorem numeral_numeral (hbase : 1 < base) (hbase' : base ≤ 16) (hnum : num < 2 ^ 64) :
  Numeral base num (numeral base num)
  := by
  rw [numeral]
  split_ifs with hne
  · subst hne
    exact numeral_zero hbase
  · exact numeral_digitsUp hbase hbase' hnum hne

/-- `num2str` writes the numeral and a zero. -/
theorem num2str_numeral (m : Memory) (buf : Nat) (hbase : 1 < base) (hnum : num < 2 ^ 64) :
  ∃ ret, num2str 65 m num base buf = some (m.write buf (numeral base num ++ [0]), ret)
  := by
  by_cases hne : num = 0
  · subst hne
    refine ⟨0, ?_⟩
    rw [num2str, if_pos rfl, numeral, if_pos rfl, Memory.write_append]
    rfl
  · refine ⟨(digitsUp base num).length, ?_⟩
    rw [num2str_of_ne_zero hbase hnum hne (Nat.lt_succ_self 64), numeral, if_neg hne]

/-- A numeral has no zero in it. -/
theorem Numeral.nonzero {text : List UInt8} (h : Numeral base num text) :
  0 ∉ text
  := by
  intro hzero
  have hchars : (0 : UInt8) ∈ chars := List.mem_of_mem_take (h.digits 0 hzero)
  exact absurd hchars (by decide)

end Numbers

theorem Radix.base_gt (r : Radix) :
  1 < r.base
  := by
  cases r <;> decide

theorem Radix.base_le (r : Radix) :
  r.base ≤ 16
  := by
  cases r <;> decide

/-- The buffer holds the numeral with a zero behind it. -/
theorem numberBuf_eq (junk : Memory) (num : UInt64) (r : Radix) :
  0 ∉ numeral r.base num.toNat
    ∧ ∃ post, numberBuf junk num r.base = some (numeral r.base num.toNat ++ 0 :: post)
  := by
  have hnumeral := numeral_numeral r.base_gt r.base_le num.toNat_lt
  refine ⟨hnumeral.nonzero, ?_⟩
  obtain ⟨ret, hret⟩ := num2str_numeral junk 0 r.base_gt num.toNat_lt
  generalize numeral r.base num.toNat = text at hnumeral hret ⊢
  have hlen := hnumeral.length
  have hread : (junk.write 0 (text ++ [0])).read 0 (text ++ [0]).length = text ++ [0] :=
    Memory.holds_write junk 0 (text ++ [0])
  have hbuf : (text ++ [0]).length + (127 - text.length) = 128 := by
    rw [List.length_append, List.length_singleton]
    omega
  refine ⟨(junk.write 0 (text ++ [0])).read (text ++ [0]).length (127 - text.length), ?_⟩
  rw [numberBuf, hret, Option.map_some, ← hbuf, Memory.read_add, hread, Nat.zero_add,
    List.append_assoc, List.singleton_append]

section Run

variable {σ : Type} {putch : σ → UInt8 → Option σ} {junk : List UInt8 → Memory} {t : σ}
  {args rest : List Arg} {out s : List UInt8} {c d : UInt8} {fuel : Nat}

theorem foldlM_singleton (t : σ) (c : UInt8) :
  [c].foldlM putch t = putch t c
  := by
  rw [List.foldlM_cons, Option.bind_eq_bind]
  exact Option.bind_fun_some (putch t c)

theorem debugPutsn_append (t : σ) (w post : List UInt8) :
  debugPutsn putch t (w ++ post) w.length = w.foldlM putch t
  := by
  induction w generalizing t with
  | nil =>
      rw [List.length_nil, debugPutsn]
      rfl
  | cons c w ih =>
      rw [List.cons_append, List.length_cons, debugPutsn, List.foldlM_cons, Option.bind_eq_bind]
      simp only [ih]

theorem debugPuts_append (t : σ) {w : List UInt8} (hw : 0 ∉ w) (post : List UInt8) :
  debugPuts putch t (w ++ 0 :: post) = w.foldlM putch t
  := by
  rw [debugPuts, strlen_append hw, Option.bind_some, debugPutsn_append]

/-- What the `switch` finds out about a directive. -/
def Directive.code : Directive → List UInt8 × Nat
  | number r => (r.numPre, r.base)
  | char => ([], baseChar)
  | str => ([], baseStr)
  | other => ([], 0)

theorem conversion_eq (c : UInt8) :
  conversion c = (directive c).code
  := by
  rw [conversion, directive]
  split_ifs <;> rfl

/-- A directive takes its argument and prints it. -/
theorem printDirective_eq (buf : Memory) (t : σ) (h : (directive c).Prints args out)
    (rest : List Arg) :
  printDirective putch buf t c (args ++ rest) = (out.foldlM putch t).map fun t => (t, rest)
  := by
  rw [printDirective, conversion_eq]
  generalize directive c = d at h ⊢
  cases h with
  | number r num =>
      obtain ⟨hnonzero, post, hbuf⟩ := numberBuf_eq buf num r
      have hpre : 0 ∉ r.numPre := by
        cases r <;> decide
      have hbase : r.base ≠ 0 ∧ r.base ≠ baseStr ∧ r.base ≠ baseChar := by
        cases r <;> decide
      obtain ⟨hne, hstr, hchar⟩ := hbase
      simp only [Directive.code, if_neg hne, if_neg hstr, if_neg hchar, List.singleton_append,
        vaWord, Option.bind_some, hbuf, debugPuts_append _ hpre, debugPuts_append _ hnonzero,
        List.foldlM_append, Option.bind_eq_bind, Option.map_bind]
      rfl
  | char num =>
      have hcode : baseChar ≠ 0 ∧ baseChar ≠ baseStr := by decide
      obtain ⟨hne, hstr⟩ := hcode
      simp only [Directive.code, if_neg hne, if_neg hstr, if_pos, List.singleton_append,
        vaWord, Option.bind_some, foldlM_singleton]
  | str s post =>
      have hne : baseStr ≠ 0 := by decide
      simp only [Directive.code, if_neg hne, if_pos, List.singleton_append, vaPointer,
        Option.bind_some, debugPuts_append _ s.nonzero]
  | other =>
      simp only [Directive.code, if_pos, List.nil_append, foldlM_singleton]

/-! ### One call -/

theorem debugVprintf_zero (t : σ) (s : List UInt8) (args : List Arg) :
  debugVprintf putch junk (fuel + 1) t (0 :: s) args = some (t, args)
  := by
  rw [debugVprintf.eq_def]
  exact if_pos rfl

/-- At a percent sign, the character behind it is not looked at before it is passed. -/
theorem debugVprintf_percent (t : σ) (d : UInt8) (s : List UInt8) (args : List Arg) :
  debugVprintf putch junk (fuel + 1) t (percent :: d :: s) args
    = (printDirective putch (junk s) t d args).bind fun (t, args) =>
        debugVprintf putch junk fuel t s args
  := by
  have hpercent : percent ≠ 0 := by decide
  rw [debugVprintf, if_neg hpercent, if_neg (not_not_intro rfl)]

theorem isLiteral_iff :
  isLiteral c ↔ c ≠ 0 ∧ c ≠ percent
  := by
  rw [isLiteral, decide_eq_true_iff]

/-- At any other character, the call prints a run of characters. -/
theorem debugVprintf_run (hc : isLiteral c) :
  debugVprintf putch junk (fuel + 1) t (c :: s) args
    = (literalLength s).bind fun len => (putch t c).bind fun t =>
        (debugPutsn putch t s len).bind fun t => debugVprintf putch junk fuel t (s.drop len) args
  := by
  obtain ⟨hzero, hpercent⟩ := isLiteral_iff.mp hc
  rw [debugVprintf.eq_def]
  simp only [if_neg hzero, if_pos hpercent]
  rw [literalLength, if_pos hc, Option.bind_map]
  congr 1
  funext len
  rw [Function.comp_apply, debugPutsn, Option.bind_assoc, List.drop_succ_cons]

/-- The character before a run is printed by the call that prints the run. -/
theorem debugVprintf_literal (hc : isLiteral c) (hd : isLiteral d) :
  debugVprintf putch junk (fuel + 1) t (c :: d :: s) args
    = (putch t c).bind fun t => debugVprintf putch junk (fuel + 1) t (d :: s) args
  := by
  rw [debugVprintf_run hc, literalLength, if_pos hd]
  simp only [debugVprintf_run hd]
  cases literalLength s with
  | none =>
      rw [Option.map_none, Option.bind_none]
      simp only [Option.bind_none, Option.bind_fun_none]
  | some len =>
      simp only [Option.map_some, Option.bind_some, debugPutsn, Option.bind_assoc,
        List.drop_succ_cons]

/-- Before a zero or a percent sign, a run ends and with it the call. -/
theorem debugVprintf_break (hc : isLiteral c) (hd : isLiteral d = false) :
  debugVprintf putch junk (fuel + 1) t (c :: d :: s) args
    = (putch t c).bind fun t => debugVprintf putch junk fuel t (d :: s) args
  := by
  rw [debugVprintf_run hc, literalLength, if_neg (by rw [hd]; decide), Option.bind_some]
  congr 1

end Run

/-! ### All pieces of a format -/

/-- Every percent sign of the format has a character for its directive. -/
inductive Complete : List UInt8 → Prop where
  | nil : Complete []
  | text {c : UInt8} {s : List UInt8} (hc : c ≠ percent) (h : Complete s) : Complete (c :: s)
  | directive (d : UInt8) {s : List UInt8} (h : Complete s) : Complete (percent :: d :: s)

section Pieces

variable {s pre : List UInt8}

theorem pieces_text {c : UInt8} (hc : c ≠ percent) (s : List UInt8) :
  pieces (c :: s) = .text c :: pieces s
  := by
  cases s with
  | nil => rfl
  | cons d s => rw [pieces, if_neg hc]

theorem pieces_directive (d : UInt8) (s : List UInt8) :
  pieces (percent :: d :: s) = .directive (directive d) :: pieces s
  := by
  rw [pieces, if_pos rfl]

/-- A percent sign behind a complete format is a piece of its own. -/
theorem Complete.pieces_snoc (h : Complete pre) :
  pieces (pre ++ [percent]) = pieces pre ++ [.text percent]
  := by
  induction h with
  | nil => rfl
  | text hc _ ih => rw [List.cons_append, pieces_text hc, pieces_text hc, ih, List.cons_append]
  | directive d _ ih =>
      rw [List.cons_append, List.cons_append, pieces_directive, pieces_directive, ih,
        List.cons_append]

/-- At most the last percent sign has no character for its directive. -/
theorem complete_or :
  ∀ s : List UInt8, Complete s ∨ ∃ pre, Complete pre ∧ s = pre ++ [percent]
  | [] => Or.inl .nil
  | [c] => by
      by_cases hc : c = percent
      · exact Or.inr ⟨[], .nil, by rw [hc]; rfl⟩
      · exact Or.inl (.text hc .nil)
  | c :: d :: s => by
      by_cases hc : c = percent
      · subst hc
        obtain h | ⟨pre, h, rfl⟩ := complete_or s
        · exact Or.inl (.directive d h)
        · exact Or.inr ⟨percent :: d :: pre, .directive d h, rfl⟩
      · obtain h | ⟨pre, h, heq⟩ := complete_or (d :: s)
        · exact Or.inl (.text hc h)
        · exact Or.inr ⟨c :: pre, .text hc h, by rw [heq]; rfl⟩

theorem percentsAtEnd_append (pre s : List UInt8) :
  percentsAtEnd (pre ++ s)
    = if percentsAtEnd s = s.length then s.length + percentsAtEnd pre else percentsAtEnd s
  := by
  simp only [percentsAtEnd, List.rtakeWhile, List.reverse_append, List.takeWhile_append,
    List.length_reverse]
  split_ifs
  · rw [List.length_append, List.length_reverse]
  · rfl

theorem percentsAtEnd_snoc (s : List UInt8) :
  percentsAtEnd (s ++ [percent]) = percentsAtEnd s + 1
  := by
  rw [percentsAtEnd, List.rtakeWhile_concat, if_pos (decide_eq_true rfl), List.length_append,
    List.length_singleton, percentsAtEnd]

theorem percentsAtEnd_snoc_of_ne (s : List UInt8) {c : UInt8} (hc : c ≠ percent) :
  percentsAtEnd (s ++ [c]) = 0
  := by
  rw [percentsAtEnd, List.rtakeWhile_concat, if_neg (by rw [decide_eq_true_iff]; exact hc)]
  rfl

/-- The percent signs at the end of a complete format come in pairs. -/
theorem Complete.even (h : Complete s) :
  Even (percentsAtEnd s)
  := by
  induction h with
  | nil => exact ⟨0, rfl⟩
  | @text c s hc _ ih =>
      have hnone : percentsAtEnd [c] = 0 := percentsAtEnd_snoc_of_ne [] hc
      rw [← List.singleton_append, percentsAtEnd_append, hnone, Nat.add_zero]
      split_ifs with hall
      · rw [← hall]
        exact ih
      · exact ih
  | @directive d s _ ih =>
      have hpair : Even (percentsAtEnd [percent, d]) := by
        by_cases hd : d = percent
        · subst hd
          decide
        · have hnone : percentsAtEnd [percent, d] = 0 := percentsAtEnd_snoc_of_ne [percent] hd
          rw [hnone]
          exact Even.zero
      have happend : percent :: d :: s = [percent, d] ++ s := rfl
      rw [happend, percentsAtEnd_append]
      split_ifs with hall
      · rw [← hall]
        exact ih.add hpair
      · exact ih

end Pieces

/-! ### Printing a format -/

section Format

variable {σ : Type} (putch : σ → UInt8 → Option σ) (junk : List UInt8 → Memory)
  {args : List Arg} {out s pre : List UInt8}

/-- A complete format is printed piece after piece, up to a zero or a percent sign behind it. -/
theorem debugVprintf_complete (h : Complete s) (hs : 0 ∉ s) {e : UInt8} (he : isLiteral e = false)
    (post : List UInt8) (hout : Output (pieces s) args out) (rest : List Arg) :
  ∃ n ≤ s.length, (s ≠ [] → 0 < n) ∧ ∀ fuel t,
    debugVprintf putch junk (fuel + n) t (s ++ e :: post) (args ++ rest)
      = (out.foldlM putch t).bind fun t => debugVprintf putch junk fuel t (e :: post) rest
  := by
  induction h generalizing args out with
  | nil =>
      cases hout
      refine ⟨0, Nat.le_refl _, fun hne => absurd rfl hne, ?_⟩
      intro fuel t
      rw [List.foldlM_nil, Option.pure_def, Option.bind_some]
      rfl
  | @text c s hc _ ih =>
      rw [List.mem_cons, not_or] at hs
      rw [pieces_text hc] at hout
      cases hout with
      | text _ hout =>
          obtain ⟨n, hn, hpos, hrun⟩ := ih hs.2 hout
          have hliteral : isLiteral c := isLiteral_iff.mpr ⟨Ne.symm hs.1, hc⟩
          obtain ⟨d, tail, htail, hne⟩ :
              ∃ d tail, s ++ e :: post = d :: tail ∧ (isLiteral d → s ≠ []) := by
            cases s with
            | nil => exact ⟨e, post, rfl, fun h => absurd h (by rw [he]; decide)⟩
            | cons d s => exact ⟨d, _, rfl, fun _ => List.cons_ne_nil d s⟩
          simp only [List.cons_append, htail, List.foldlM_cons, Option.bind_eq_bind,
            Option.bind_assoc, ← hrun]
          -- whether the call goes on with the next character
          by_cases hd : isLiteral d
          · have hmore := hpos (hne hd)
            refine ⟨n, Nat.le_succ_of_le hn, fun _ => hmore, ?_⟩
            intro fuel t
            obtain ⟨k, rfl⟩ := Nat.exists_eq_succ_of_ne_zero (Nat.ne_of_gt hmore)
            apply debugVprintf_literal hliteral hd
          · refine ⟨n + 1, Nat.succ_le_succ hn, fun _ => Nat.succ_pos n, ?_⟩
            intro fuel t
            apply debugVprintf_break hliteral (Bool.eq_false_of_not_eq_true hd)
  | @directive d s _ ih =>
      rw [List.mem_cons, List.mem_cons, not_or, not_or] at hs
      rw [pieces_directive] at hout
      cases hout with
      | @directive _ _ args args' out out' hprints hout =>
          obtain ⟨n, hn, -, hrun⟩ := ih hs.2.2 hout
          refine ⟨n + 1, by simp only [List.length_cons]; omega, fun _ => Nat.succ_pos n, ?_⟩
          intro fuel t
          simp only [List.cons_append, List.append_assoc, ← Nat.add_assoc, debugVprintf_percent,
            printDirective_eq _ _ hprints, Option.bind_map, Function.comp_def, hrun,
            List.foldlM_append, Option.bind_eq_bind, Option.bind_assoc]

/-- A complete format is printed up to its zero. -/
theorem Complete.formats {s : CString} (h : Complete s.chars) :
  Formats s
  := by
  intro σ putch junk t args rest out post hout fuel hfuel
  have hzero : isLiteral 0 = false := by decide
  obtain ⟨n, hn, -, hrun⟩ := debugVprintf_complete putch junk h s.nonzero hzero post hout rest
  obtain ⟨k, rfl⟩ : ∃ k, fuel = k + 1 + n := ⟨fuel - 1 - n, by omega⟩
  simp only [hrun, debugVprintf_zero, Option.map_eq_bind]
  rfl

/-- Behind a complete format with another percent sign, a percent sign is printed and then what
follows the zero. -/
theorem debugVprintf_unpaired (h : Complete pre) (hpre : 0 ∉ pre) (post : List UInt8)
    (hout : Output (pieces pre) args out) (rest : List Arg) :
  ∃ n ≤ pre.length, ∀ fuel t,
    debugVprintf putch junk (fuel + 1 + n) t (pre ++ percent :: 0 :: post) (args ++ rest)
      = ((out ++ [percent]).foldlM putch t).bind fun t => debugVprintf putch junk fuel t post rest
  := by
  have hpercent : isLiteral percent = false := by decide
  obtain ⟨n, hn, -, hrun⟩ :=
    debugVprintf_complete putch junk h hpre hpercent (0 :: post) hout rest
  refine ⟨n, hn, ?_⟩
  intro fuel t
  have hother : (directive 0).Prints [] [percent] := .other
  have hprint : ∀ t, printDirective putch (junk post) t 0 rest
      = ([percent].foldlM putch t).map fun t => (t, rest) :=
    fun t => printDirective_eq (junk post) t hother rest
  simp only [hrun, debugVprintf_percent, hprint, Option.bind_map, Function.comp_def,
    List.foldlM_append, Option.bind_eq_bind, Option.bind_assoc]

/-- Every directive has arguments. -/
theorem Directive.exists_prints :
  ∀ d : Directive, ∃ args out, d.Prints args out
  | .number r => ⟨_, _, .number r 0⟩
  | .char => ⟨_, _, .char 0⟩
  | .str => ⟨_, _, .str ⟨[], List.not_mem_nil⟩ []⟩
  | .other => ⟨_, _, .other⟩

theorem exists_output :
  ∀ ps : List Piece, ∃ args out, Output ps args out
  | [] => ⟨_, _, .nil⟩
  | .text c :: ps => by
      obtain ⟨args, out, h⟩ := exists_output ps
      exact ⟨_, _, .text c h⟩
  | .directive d :: ps => by
      obtain ⟨args, out, h⟩ := d.exists_prints
      obtain ⟨args', out', h'⟩ := exists_output ps
      exact ⟨_, _, .directive h h'⟩

theorem Output.snoc {ps : List Piece} (h : Output ps args out) (c : UInt8) :
  Output (ps ++ [.text c]) args (out ++ [c])
  := by
  induction h with
  | nil => exact .text c .nil
  | text d _ ih => exact .text d ih
  | directive hd _ ih =>
      rw [List.append_assoc]
      exact .directive hd ih

/-- A terminal that prints everything. -/
theorem foldlM_unit (out : List UInt8) :
  out.foldlM (fun _ _ => some ()) () = some ()
  := by
  induction out with
  | nil => rfl
  | cons c out ih => rw [List.foldlM_cons, Option.bind_eq_bind, Option.bind_some, ih]

/-- With another percent sign behind it, a complete format is not printed. -/
theorem Complete.not_formats {s : CString} (h : Complete pre) (hs : s.chars = pre ++ [percent]) :
  ¬ Formats s
  := by
  intro hformats
  obtain ⟨args, out, hout⟩ := exists_output (pieces pre)
  have hsnoc : Output (pieces s.chars) args (out ++ [percent]) := by
    rw [hs, h.pieces_snoc]
    exact hout.snoc percent
  have hpre : 0 ∉ pre := by
    intro hzero
    apply s.nonzero
    rw [hs]
    exact List.mem_append_left _ hzero
  have hlen : s.chars.length = pre.length + 1 := by
    rw [hs, List.length_append, List.length_singleton]
  -- the block ends right behind the zero
  obtain ⟨n, hn, hrun⟩ :=
    debugVprintf_unpaired (fun _ _ => some ()) (fun _ _ => 0) h hpre [] hout []
  have hprinted := hformats Unit (fun _ _ => some ()) (fun _ _ => 0) () args [] _ [] hsnoc
    (pre.length + 1 + 1 + n) (by omega)
  have hbeyond : ∀ fuel, debugVprintf (fun _ _ => some ()) (fun _ _ => 0) fuel () [] [] = none := by
    intro fuel
    cases fuel <;> rfl
  rw [hs, List.append_assoc, List.singleton_append, hrun, foldlM_unit, Option.bind_some, hbeyond]
    at hprinted
  cases hprinted

theorem formats_of_even {s : CString} (heven : Even (percentsAtEnd s.chars)) :
  Formats s
  := by
  obtain h | ⟨pre, h, hs⟩ := complete_or s.chars
  · exact h.formats
  · rw [hs, percentsAtEnd_snoc, Nat.even_add_one] at heven
    exact absurd h.even heven

theorem Formats.even {s : CString} (hformats : Formats s) :
  Even (percentsAtEnd s.chars)
  := by
  obtain h | ⟨pre, h, hs⟩ := complete_or s.chars
  · exact h.even
  · exact absurd hformats (h.not_formats hs)

end Format

/-- `debug_vprintf` prints a format, whatever its arguments are and wherever its block ends behind
the zero, just when the percent signs at the end of the format come in pairs. -/
theorem formats_iff (s : CString) :
  Formats s ↔ Even (percentsAtEnd s.chars)
  := ⟨Formats.even, formats_of_even⟩

/-- A terminal that keeps what is printed. -/
def record (text : List UInt8) (c : UInt8) : Option (List UInt8) :=
  some (text ++ [c])

/-- The format `%` is not printed.  Its zero is passed, and when its block ends there, nothing is
left to read; when an `A` and a zero follow, the output is `%A`. -/
theorem not_formats_percent :
  ¬ Formats ⟨[percent], by decide⟩
    ∧ (∀ fuel, debugVprintf record (fun _ _ => 0) fuel [] [percent, 0] [] = none)
    ∧ debugVprintf record (fun _ _ => 0) 3 [] [percent, 0, 65, 0] [] = some ([percent, 65], [])
  := by
  refine ⟨Complete.not_formats .nil rfl, ?_, rfl⟩
  rintro (_ | _ | fuel)
  · rfl
  · rfl
  · rfl

/-! ### The console and the serial port -/

/-- The console, and what has been written to the serial port. -/
structure Terminal where
  console : Vga.Console
  serial : List UInt8

/-- `debug_putch(c)`, where the serial port gets ready in the end. -/
def debugPutch (img : Vga.Image) (t : Terminal) (c : UInt8) : Option Terminal :=
  (Vga.vgaPrintch img t.console c).map fun s => ⟨s, t.serial ++ [c]⟩

section Console

variable {img : Vga.Image} {s₀ : Vga.Console} {text out : List UInt8}

theorem foldlM_debugPutch (t : Terminal) (out : List UInt8) :
  out.foldlM (debugPutch img) t
    = (out.foldlM (Vga.vgaPrintch img) t.console).map fun s => ⟨s, t.serial ++ out⟩
  := by
  induction out generalizing t with
  | nil => simp
  | cons c out ih =>
      simp only [List.foldlM_cons, Option.bind_eq_bind, debugPutch, Option.bind_map,
        Function.comp_def, ih, Option.map_bind, List.append_assoc, List.singleton_append]

theorem printText_append (text out : List UInt8) :
  Vga.printText img s₀ (text ++ out)
    = (Vga.printText img s₀ text).bind fun s => out.foldlM (Vga.vgaPrintch img) s
  := by
  simp only [Vga.printText, List.foldlM_append, Option.bind_eq_bind, Option.bind_assoc]

/-- What a format prints comes behind all that was printed since `vga_init`: the serial port gets
it, and the console shows it. -/
theorem debugVprintf_shows {s : CString} (h : Even (percentsAtEnd s.chars))
    (junk : List UInt8 → Memory) {t : Terminal}
    (ht : Vga.printText img s₀ text = some t.console) {args : List Arg}
    (hout : Output (pieces s.chars) args out) (rest : List Arg) (post : List UInt8) :
  ∃ t' above row,
    (∀ fuel > s.chars.length,
      debugVprintf (debugPutch img) junk fuel t (s.chars ++ 0 :: post) (args ++ rest)
        = some (t', rest))
    ∧ t'.serial = t.serial ++ out
    ∧ Rows.rows Vga.newline Vga.vgaWidth (text ++ out) = above ++ [row]
    ∧ Vga.At img s₀.mem above row t'.console
  := by
  obtain ⟨console, above, row, hprint, hrows, hat⟩ := Vga.printText_at img s₀ (text ++ out)
  rw [printText_append, ht, Option.bind_some] at hprint
  refine ⟨⟨console, t.serial ++ out⟩, above, row, ?_, rfl, hrows, hat⟩
  intro fuel hfuel
  have hformats : Formats s := formats_of_even h
  rw [hformats _ _ junk t args rest out post hout fuel hfuel, foldlM_debugPutch, hprint]
  rfl

end Console

end Debug
