import Mathlib.Algebra.Order.BigOperators.Group.List
import Mathlib.Algebra.Order.Ring.Nat
import Mittos64.Fs.AtaFaults

/-!
# What faults do to reads and writes of a disk

`ata_read` and `ata_write` do not look at what `ata_read_block` and `ata_write_block` return, and
always return the number of bytes they were asked for.  A block that could not be read leaves what
was in the buffer before; on the way of a write it goes to the drive.  The results here say for
which requests and which faults the bytes returned and the bytes written are right whatever the
drive and the buffers hold.
-/

namespace Ata.Faulty

/-- The bytes of the buffer that `ata_read` counts are bytes of the drive. -/
def ReadsRight (faults : Faults) (drive : Drive) (nbyte offset : Nat) (sectors : Sectors)
    (blkBuf buffer : Memory) : Prop :=
  let r := ataRead faults sectors drive blkBuf buffer nbyte offset
  r.2.read 0 r.1 = (flat sectors drive).read offset r.1

/-- The bytes of the parts whose write has succeeded. -/
def stored (faults : Faults) (nbyte offset : Nat) : Nat :=
  (((parts nbyte 0 offset).filter fun p => Accepted (faults.write p.count)).map Part.len).sum

/-- `ata_write` changes no byte of the drive outside of the request, and counts no more bytes than
were stored. -/
def WritesRight (faults : Faults) (drive : Drive) (nbyte offset : Nat) (sectors : Sectors)
    (blkBuf buffer : Memory) : Prop :=
  let r := ataWrite faults sectors drive blkBuf buffer nbyte offset
  (∀ x, x < offset ∨ offset + nbyte ≤ x → flat r.2 drive x = flat sectors drive x)
    ∧ r.1 ≤ stored faults nbyte offset

variable {faults : Faults} {drive : Drive} (hms : drive.ms = 0 ∨ drive.ms = 0x10)
  {nbyte offset : Nat}

theorem ataRead_present (h : drive.present = true) (sectors : Sectors) (blkBuf buffer : Memory) :
  ataRead faults sectors drive blkBuf buffer nbyte offset
    = (nbyte, ((parts nbyte 0 offset).foldl (readStep faults sectors drive) (blkBuf, buffer)).2)
  := by
  rw [ataRead, if_pos h, readLoop_eq faults sectors drive (Nat.zero_le nbyte)]

theorem ataWrite_present (h : drive.present = true) (sectors : Sectors) (blkBuf buffer : Memory) :
  ataWrite faults sectors drive blkBuf buffer nbyte offset
    = (nbyte, ((parts nbyte 0 offset).foldl (writeStep faults drive buffer) (blkBuf, sectors)).2)
  := by
  rw [ataWrite, if_pos h, writeLoop_eq faults drive buffer (Nat.zero_le nbyte)]

/-- No attempt to read a block succeeds, and every write does. -/
def unreadable : Faults where
  read _ _ := ataErr
  write _ := ataDrq
  rejected sector _ := sector

/-- Every attempt to read or to write a block succeeds. -/
def faultless : Faults where
  read _ _ := ataDrq
  write _ := ataDrq
  rejected sector _ := sector

theorem accepted_ataDrq : Accepted ataDrq := by decide

theorem unreadable_fails (count : Nat) : ReadFails (unreadable.read count) := by
  have herr : ¬ Accepted ataErr := by decide
  intro _ _
  exact herr

theorem faultless_reads (count : Nat) : ¬ ReadFails (faultless.read count) := by
  intro hfails
  exact hfails 0 (by norm_num) accepted_ataDrq

/-- Sectors that hold the given bytes. -/
def ofFlat (m : Memory) : Sectors :=
  fun _ n y => m (n * 512 + y)

@[simp]
theorem flat_ofFlat (m : Memory) : flat (ofFlat m) drive = m := by
  funext x
  rw [flat, ofFlat, Nat.div_add_mod']

theorem flat_at (sectors : Sectors) (n : Nat) {y : Nat} (hy : y < 512) :
  sectors drive.slave n y = flat sectors drive (n * 512 + y)
  := by
  have hdiv : (n * 512 + y) / 512 = n := by omega
  have hmod : (n * 512 + y) % 512 = y := by omega
  rw [flat, hdiv, hmod]

/-- A part is determined by where it starts in the request. -/
theorem IsPart.eq_of_count {p q : Part} (hp : IsPart nbyte offset p) (hq : IsPart nbyte offset q)
    (hcount : q.count = p.count) :
  q = p
  := by
  have hoff : q.offset = p.offset := by rw [hq.offset_eq, hp.offset_eq, hcount]
  have hlen : q.len = p.len := by rw [hq.len_eq, hp.len_eq, hcount, hoff]
  cases p
  cases q
  simp_all only

/-- Two parts of a request that stays on the drive are in different sectors. -/
theorem IsPart.eq_of_sector {p q : Part} (hp : IsPart nbyte offset p) (hq : IsPart nbyte offset q)
    (hrange : offset + nbyte ≤ 2 ^ 37)
    (hsector : q.offset / 512 % 2 ^ 28 = p.offset / 512 % 2 ^ 28) :
  q = p
  := by
  apply hp.eq_of_count hq
  have hp' := hp.offset_eq
  have hq' := hq.offset_eq
  have hplt := hp.lt
  have hqlt := hq.lt
  have hpstart := hp.start
  have hqstart := hq.start
  omega

/-- Next to a part that does not fill its block there is a byte of the block outside of the
request. -/
theorem IsPart.exists_outside {p : Part} (hp : IsPart nbyte offset p)
    (hrange : offset + nbyte ≤ 2 ^ 37) (hlen : p.len ≠ 512) :
  ∃ y, y / 512 = p.offset / 512 % 2 ^ 28 ∧ (y < offset ∨ offset + nbyte ≤ y)
    ∧ ¬ (p.offset % 512 ≤ y % 512 ∧ y % 512 < p.offset % 512 + p.len)
  := by
  obtain ⟨-, hend, hblock⟩ := hp.bounds
  have hoff := hp.offset_eq
  have hlt := hp.lt
  by_cases hstart : p.offset % 512 = 0
  · have hlast := hp.last (by omega)
    exact ⟨p.offset + p.len, by omega, by omega, by omega⟩
  · have hfirst := hp.start.resolve_right hstart
    exact ⟨p.offset - 1, by omega, by omega, by omega⟩

/-! ### Reads -/

section Reads

include hms

/-- When every block is read, the buffer gets the bytes at the addresses modulo the size of the
drive. -/
theorem ataRead_bytes (hoffset : offset < 2 ^ 64) (h : drive.present = true)
    (hreads : ∀ p ∈ parts nbyte 0 offset, ¬ ReadFails (faults.read p.count)) (sectors : Sectors)
    (blkBuf buffer : Memory) {x : Nat} (hx : x < nbyte) :
  (ataRead faults sectors drive blkBuf buffer nbyte offset).2 x
    = flat sectors drive ((offset + x) % 2 ^ 37)
  := by
  have hstep : ∀ p ∈ parts nbyte 0 offset, ∀ s : Memory × Memory,
      (readStep faults sectors drive s p).2 x
        = if p.count ≤ x ∧ x < p.count + p.len then flat sectors drive ((offset + x) % 2 ^ 37)
          else s.2 x := by
    intro p hp s
    have hpart := isPart_of_parts hoffset hp
    rw [readStep_buffer hms hpart.bounds.2.2, if_neg (hreads p hp)]
    split_ifs with hin
    · obtain ⟨hsector, hbyte⟩ := hpart.address hin.1 hin.2
      rw [flat, hsector, hbyte]
    · rfl
  obtain ⟨p, hp, hle, hlt⟩ : ∃ p ∈ parts nbyte 0 offset, p.count ≤ x ∧ x < p.count + p.len :=
    exists_part (Nat.zero_le x) hx
  obtain ⟨before, after, hsplit⟩ := List.append_of_mem hp
  rw [ataRead_present h]
  rw [hsplit] at hstep ⊢
  apply foldl_establish (P := fun _ => True)
    (Q := fun s : Memory × Memory => s.2 x = flat sectors drive ((offset + x) % 2 ^ 37))
  · simp only [implies_true]
  · intro s _
    rw [hstep p (by simp) s, if_pos ⟨hle, hlt⟩]
  · intro q hq s _ hgoal
    rw [hstep q (by simp [hq]) s, hgoal, ite_self]
  · trivial

/-- Buffers of zeros stay so when every block that is read is of zeros. -/
theorem ataRead_zero (hoffset : offset < 2 ^ 64) (h : drive.present = true) (sectors : Sectors)
    (hzero : ∀ p ∈ parts nbyte 0 offset, ReadFails (faults.read p.count)
      ∨ ∀ y < 512, sectors drive.slave (p.offset / 512 % 2 ^ 28) y = 0) (x : Nat) :
  (ataRead faults sectors drive (fun _ => 0) (fun _ => 0) nbyte offset).2 x = 0
  := by
  rw [ataRead_present h]
  refine (foldl_invariant (P := fun s : Memory × Memory => (∀ y, s.1 y = 0) ∧ ∀ y, s.2 y = 0)
    (fun p hp s hs => ?_) ⟨fun _ => rfl, fun _ => rfl⟩).2 x
  have hpart := isPart_of_parts hoffset hp
  constructor
  · intro y
    rw [readStep_blkBuf hms]
    split_ifs with hread
    · exact (hzero p hp).resolve_left hread.2.2 y hread.2.1
    · exact hs.1 y
  · intro y
    have hblock := hpart.bounds.2.2
    rw [readStep_buffer hms hblock]
    split_ifs with hin hfails hlen
    · exact hs.2 y
    · exact hs.1 _
    · exact (hzero p hp).resolve_left hfails _ (by omega)
    · exact hs.2 y

/-- The bytes that `ata_read` counts are bytes of the drive, whatever the drive and the buffers hold,
exactly if the request stays on the drive and no block of it fails at every attempt. -/
theorem readsRight_iff (hoffset : offset < 2 ^ 64) :
  (∀ sectors blkBuf buffer, ReadsRight faults drive nbyte offset sectors blkBuf buffer)
    ↔ drive.present = false ∨ nbyte = 0 ∨ (offset + nbyte ≤ 2 ^ 37
        ∧ ∀ p ∈ parts nbyte 0 offset, ¬ ReadFails (faults.read p.count))
  := by
  constructor
  · intro hall
    by_contra hnot
    rw [not_or, not_or, Bool.not_eq_false] at hnot
    obtain ⟨hpresent, hpos, hnot⟩ := hnot
    -- a byte that a read from zeros does not move
    have hlost : ∀ sectors : Sectors, (∀ p ∈ parts nbyte 0 offset, ReadFails (faults.read p.count)
        ∨ ∀ y < 512, sectors drive.slave (p.offset / 512 % 2 ^ 28) y = 0) →
        ∀ i < nbyte, flat sectors drive (offset + i) = 0 := by
      intro sectors hzero i hi
      have hright := hall sectors (fun _ => 0) (fun _ => 0)
      rw [ReadsRight, Memory.read_inj, ataRead_present hpresent] at hright
      have hbyte := ataRead_zero hms hoffset hpresent sectors hzero (0 + i)
      rw [ataRead_present hpresent, hright i hi] at hbyte
      exact hbyte
    by_cases hrange : offset + nbyte ≤ 2 ^ 37
    · rw [not_and] at hnot
      apply hnot hrange
      intro p hp hfails
      have hpart := isPart_of_parts hoffset hp
      have hoff := hpart.offset_eq
      have hlt := hpart.lt
      have hone := hlost (ofFlat fun x => if x = offset + p.count then 1 else 0) (by
        intro q hq
        by_cases hsector : q.offset / 512 % 2 ^ 28 = p.offset / 512 % 2 ^ 28
        · rw [hpart.eq_of_sector (isPart_of_parts hoffset hq) hrange hsector]
          exact Or.inl hfails
        · right
          intro y hy
          rw [ofFlat, if_neg]
          omega) p.count hlt
      rw [flat_ofFlat, if_pos rfl] at hone
      cases hone
    · have hone := hlost (ofFlat fun x => if 2 ^ 37 ≤ x then 1 else 0) (by
        intro q hq
        right
        intro y hy
        rw [ofFlat, if_neg]
        omega) (nbyte - 1) (by omega)
      rw [flat_ofFlat, if_pos (by omega)] at hone
      cases hone
  · rintro hright sectors blkBuf buffer
    rw [ReadsRight, Memory.read_inj]
    intro i hi
    cases hpresent : drive.present with
    | false =>
        rw [ataRead, hpresent] at hi
        cases hi
    | true =>
        rw [ataRead_present hpresent] at hi
        obtain habsent | hzero | ⟨hrange, hreads⟩ := hright
        · rw [habsent] at hpresent
          cases hpresent
        · omega
        · rw [Nat.zero_add, ataRead_bytes hms hoffset hpresent hreads _ _ _ hi,
            Nat.mod_eq_of_lt (by simp only at hi; omega)]

omit hms in
/-- The first byte of a drive of ones is counted as read and stays what it was in the buffer. -/
theorem unreadable_not_right :
  ¬ ReadsRight unreadable { present := true, ms := 0 } 1 0 (fun _ _ _ => 1) (fun _ => 0)
      (fun _ => 0)
  := by
  rw [ReadsRight, Memory.read_inj, ataRead_present rfl]
  intro hright
  have hbyte := hright 0 Nat.zero_lt_one
  have hzero : (ataRead unreadable (fun _ _ _ => 1) { present := true, ms := 0 } (fun _ => 0)
      (fun _ => 0) 1 0).2 (0 + 0) = 0 :=
    ataRead_zero (Or.inl rfl) (by norm_num) rfl _ (fun p _ => Or.inl (unreadable_fails p.count)) _
  rw [ataRead_present rfl, hbyte] at hzero
  revert hzero
  decide

omit hms in
/-- A drive without faults is read right. -/
theorem readsRight_iff_faultless :
  ReadsRight faultless { present := true, ms := 0 } 1 0 (fun _ _ _ => 1) (fun _ => 0) (fun _ => 0)
  := (readsRight_iff (Or.inl rfl) (by norm_num)).mpr
    (Or.inr (Or.inr ⟨by norm_num, fun p _ => faultless_reads p.count⟩)) _ _ _

end Reads

/-! ### Writes -/

/-- The lengths of all the elements add up to no more than those of the chosen ones only if all are
chosen. -/
theorem sum_filter_ge {α : Type} {len : α → Nat} {P : α → Prop} [DecidablePred P]
    {xs : List α} (hpos : ∀ x ∈ xs, 0 < len x)
    (hle : (xs.map len).sum ≤ ((xs.filter fun x => P x).map len).sum) :
  ∀ x ∈ xs, P x
  := by
  have hless : ∀ ys : List α, ((ys.filter fun x => P x).map len).sum ≤ (ys.map len).sum :=
    fun ys => (List.filter_sublist.map len).sum_le_sum fun _ _ => Nat.zero_le _
  induction xs with
  | nil => simp
  | cons x xs ih =>
      rw [List.forall_mem_cons] at hpos ⊢
      rw [List.map_cons, List.sum_cons, List.filter_cons] at hle
      split_ifs at hle with hx
      · rw [List.map_cons, List.sum_cons] at hle
        exact ⟨of_decide_eq_true hx, ih hpos.2 (by omega)⟩
      · have hrest := hless xs
        omega

/-- As many bytes are stored as were asked for exactly if every write succeeds. -/
theorem stored_ge (hoffset : offset < 2 ^ 64) :
  nbyte ≤ stored faults nbyte offset
    ↔ ∀ p ∈ parts nbyte 0 offset, Accepted (faults.write p.count)
  := by
  have hsum : ((parts nbyte 0 offset).map Part.len).sum = nbyte - 0 :=
    sum_len_parts (Nat.zero_le nbyte)
  rw [Nat.sub_zero] at hsum
  constructor
  · intro hle
    apply sum_filter_ge (P := fun p : Part => Accepted (faults.write p.count))
    · intro p hp
      exact (isPart_of_parts hoffset hp).bounds.1
    · rw [hsum]
      exact hle
  · intro hall
    rw [stored, List.filter_eq_self.mpr, hsum]
    intro p hp
    exact decide_eq_true (hall p hp)

section Writes

include hms

/-- A request that stays on the drive changes no byte outside of it when the blocks that it does not
fill are read and all are written. -/
theorem ataWrite_outside (hoffset : offset < 2 ^ 64) (h : drive.present = true)
    (haccepted : ∀ p ∈ parts nbyte 0 offset, Accepted (faults.write p.count))
    (hrange : offset + nbyte ≤ 2 ^ 37)
    (hreads : ∀ p ∈ parts nbyte 0 offset, p.len ≠ 512 → ¬ ReadFails (faults.read p.count))
    (sectors : Sectors) (blkBuf buffer : Memory) {x : Nat} (hx : x < offset ∨ offset + nbyte ≤ x) :
  flat (ataWrite faults sectors drive blkBuf buffer nbyte offset).2 drive x = flat sectors drive x
  := by
  rw [ataWrite_present h]
  apply foldl_invariant (P := fun s : Memory × Sectors => flat s.2 drive x = flat sectors drive x)
  · intro p hp s hs
    have hpart := isPart_of_parts hoffset hp
    obtain ⟨-, hend, hblock⟩ := hpart.bounds
    have hoff := hpart.offset_eq
    rw [writeStep_flat hms hblock (haccepted p hp)]
    split_ifs with hsector hin hfails
    · omega
    · by_cases hlen : p.len = 512
      · omega
      · exact (hreads p hp hlen hfails).elim
    · exact hs
    · exact hs
  · rfl

/-- A request never changes a byte that no command can address. -/
theorem ataWrite_beyond (h : drive.present = true) (sectors : Sectors) (blkBuf buffer : Memory)
    {x : Nat} (hx : 2 ^ 37 ≤ x) :
  flat (ataWrite faults sectors drive blkBuf buffer nbyte offset).2 drive x = flat sectors drive x
  := by
  rw [ataWrite_present h]
  apply foldl_invariant (P := fun s : Memory × Sectors => flat s.2 drive x = flat sectors drive x)
  · intro p _ s hs
    rw [writeStep_beyond hms buffer s hx, hs]
  · rfl

/-- Zeros in the local buffer and on the drive, but for the sector `n`. -/
def Zeros (drive : Drive) (n : Nat) (s : Memory × Sectors) : Prop :=
  (∀ i, s.1 i = 0) ∧ ∀ x, x / 512 ≠ n → flat s.2 drive x = 0

/-- A part of zeros keeps the zeros, when it does not read the sector `n`. -/
theorem writeStep_zeros {p : Part} {n : Nat} (hblock : p.offset % 512 + p.len ≤ 512)
    (haccepted : Accepted (faults.write p.count))
    (hsector : p.offset / 512 % 2 ^ 28 = n → ReadFails (faults.read p.count))
    {s : Memory × Sectors} (hs : Zeros drive n s) :
  Zeros drive n (writeStep faults drive (fun _ => 0) s p)
    ∧ ∀ x, flat s.2 drive x = 0 → flat (writeStep faults drive (fun _ => 0) s p).2 drive x = 0
  := by
  have hflat : ∀ x, flat s.2 drive x = 0 →
      flat (writeStep faults drive (fun _ => 0) s p).2 drive x = 0 := by
    intro x hx
    rw [writeStep_flat hms hblock haccepted]
    split_ifs with hin hbyte hfails
    · rfl
    · apply hs.1
    · exact hx
    · exact hx
  refine ⟨⟨?_, fun x hx => hflat x (hs.2 x hx)⟩, hflat⟩
  intro i
  rw [writeStep_blkBuf hms]
  split_ifs with hfull hin hread
  · exact hs.1 i
  · rfl
  · rw [flat_at s.2 (p.offset / 512 % 2 ^ 28) hread.1]
    apply hs.2
    intro hsame
    apply hread.2 (hsector _)
    omega
  · exact hs.1 i

/-- A part that could not be read before it is written takes what was in the local buffer to the
drive: a byte next to the request is lost. -/
theorem ataWrite_failed (hoffset : offset < 2 ^ 64) (h : drive.present = true)
    (haccepted : ∀ p ∈ parts nbyte 0 offset, Accepted (faults.write p.count))
    (hrange : offset + nbyte ≤ 2 ^ 37) {p : Part} (hp : p ∈ parts nbyte 0 offset)
    (hlen : p.len ≠ 512) (hfails : ReadFails (faults.read p.count)) :
  ∃ sectors x, (x < offset ∨ offset + nbyte ≤ x) ∧
    flat (ataWrite faults sectors drive (fun _ => 0) (fun _ => 0) nbyte offset).2 drive x
      ≠ flat sectors drive x
  := by
  have hpart := isPart_of_parts hoffset hp
  obtain ⟨y, hsector, hout, hnotin⟩ := hpart.exists_outside hrange hlen
  have hstep : ∀ q ∈ parts nbyte 0 offset, ∀ s, Zeros drive (p.offset / 512 % 2 ^ 28) s →
      Zeros drive (p.offset / 512 % 2 ^ 28) (writeStep faults drive (fun _ => 0) s q)
        ∧ ∀ x, flat s.2 drive x = 0 →
          flat (writeStep faults drive (fun _ => 0) s q).2 drive x = 0 := by
    intro q hq s hs
    have hpart' := isPart_of_parts hoffset hq
    apply writeStep_zeros hms hpart'.bounds.2.2 (haccepted q hq) _ hs
    intro hsame
    rw [hpart.eq_of_sector hpart' hrange hsame]
    exact hfails
  refine ⟨ofFlat fun x => if x / 512 = p.offset / 512 % 2 ^ 28 then 1 else 0, y, hout, ?_⟩
  rw [flat_ofFlat, if_pos hsector, ataWrite_present h]
  have hzero : flat ((parts nbyte 0 offset).foldl (writeStep faults drive fun _ => 0)
      (fun _ => 0, ofFlat fun x => if x / 512 = p.offset / 512 % 2 ^ 28 then 1 else 0)).2 drive y
      = 0 := by
    obtain ⟨before, after, hsplit⟩ := List.append_of_mem hp
    rw [hsplit] at hstep ⊢
    apply foldl_establish (P := Zeros drive (p.offset / 512 % 2 ^ 28))
      (Q := fun s : Memory × Sectors => flat s.2 drive y = 0)
    · intro q hq s hs
      apply (hstep q hq s hs).1
    · intro s hs
      rw [writeStep_flat hms hpart.bounds.2.2 (haccepted p hp), if_pos hsector, if_neg hnotin,
        if_pos hfails, hs.1]
    · intro q hq s hs hgoal
      apply (hstep q (by simp [hq]) s hs).2 y hgoal
    · refine ⟨fun i => rfl, fun x hx => ?_⟩
      rw [flat_ofFlat, if_neg hx]
  rw [hzero]
  decide

/-- Ones everywhere but perhaps at the first byte of the drive and of the local buffer. -/
def Ones (drive : Drive) (s : Memory × Sectors) : Prop :=
  (∀ x, x ≠ 0 → flat s.2 drive x = 1) ∧ ∀ i, i ≠ 0 → s.1 i = 1

/-- A part at the start of a block keeps the ones, and writes the first byte if it is at its
address. -/
theorem writeStep_ones {p : Part} (hblock : p.offset % 512 + p.len ≤ 512) (hlen : 0 < p.len)
    (haccepted : Accepted (faults.write p.count)) (hstart : p.offset % 512 = 0)
    {s : Memory × Sectors} (hs : Ones drive s) :
  Ones drive (writeStep faults drive (fun _ => 1) s p)
    ∧ (flat s.2 drive 0 = 1 ∨ p.offset % 2 ^ 37 = 0 →
        flat (writeStep faults drive (fun _ => 1) s p).2 drive 0 = 1)
  := by
  refine ⟨⟨?_, ?_⟩, ?_⟩
  · intro x hx
    rw [writeStep_flat hms hblock haccepted]
    split_ifs with hsector hin hfails
    · rfl
    · apply hs.2
      omega
    · apply hs.1 x hx
    · apply hs.1 x hx
  · intro i hi
    rw [writeStep_blkBuf hms]
    split_ifs with hfull hin hread
    · apply hs.2 i hi
    · rfl
    · rw [flat_at s.2 (p.offset / 512 % 2 ^ 28) hread.1]
      apply hs.1
      omega
    · apply hs.2 i hi
  · intro hfirst
    rw [writeStep_flat hms hblock haccepted]
    split_ifs with hsector hin hfails
    · rfl
    · omega
    · omega
    · apply hfirst.resolve_right
      omega

/-- The first part, from ones everywhere but at the byte where it starts or at the first one. -/
theorem writeStep_first {p : Part} (hblock : p.offset % 512 + p.len ≤ 512) (hlen : 0 < p.len)
    (haccepted : Accepted (faults.write p.count)) {z : Nat} (hz : z = p.offset % 2 ^ 37 ∨ z = 0) :
  let s := writeStep faults drive (fun _ => 1) (fun _ => 1, ofFlat fun x => if x = z then 0 else 1) p
  Ones drive s ∧ (z = p.offset % 2 ^ 37 → flat s.2 drive 0 = 1)
  := by
  have hflat : ∀ x, z = p.offset % 2 ^ 37 ∨ x ≠ 0 → flat (writeStep faults drive (fun _ => 1)
      (fun _ => 1, ofFlat fun x => if x = z then 0 else 1) p).2 drive x = 1 := by
    intro x hx
    rw [writeStep_flat hms hblock haccepted, flat_ofFlat]
    split_ifs with hsector hin hfails hxz
    · rfl
    · rfl
    · omega
    · rfl
    · omega
    · rfl
  refine ⟨⟨fun x hx => hflat x (Or.inr hx), ?_⟩, fun hz' => hflat 0 (Or.inl hz')⟩
  intro i hi
  rw [writeStep_blkBuf hms]
  split_ifs with hfull hin hread
  · rfl
  · rfl
  · simp only [ofFlat]
    rw [if_neg]
    omega
  · rfl

/-- The first part of a request, and the others: they start at a block, behind the first one. -/
theorem exists_first (hoffset : offset < 2 ^ 64) (hpos : 0 < nbyte)
    (haccepted : ∀ p ∈ parts nbyte 0 offset, Accepted (faults.write p.count)) :
  ∃ p ps, parts nbyte 0 offset = p :: ps ∧ p.offset = offset
    ∧ IsPart nbyte offset p ∧ Accepted (faults.write p.count)
    ∧ (∀ q ∈ ps, ∀ s, Ones drive s → Ones drive (writeStep faults drive (fun _ => 1) s q)
      ∧ (flat s.2 drive 0 = 1 ∨ q.offset % 2 ^ 37 = 0 →
        flat (writeStep faults drive (fun _ => 1) s q).2 drive 0 = 1))
    ∧ ∀ i, p.len ≤ i → i < nbyte → (offset + i) % 512 = 0 →
      ∃ q ∈ ps, q.offset = (offset + i) % 2 ^ 64
  := by
  have hcons : parts nbyte 0 offset = Part.mk 0 offset (blockLen nbyte 0 offset)
      :: parts nbyte (0 + blockLen nbyte 0 offset) ((offset + blockLen nbyte 0 offset) % 2 ^ 64) := by
    rw [parts, dif_pos hpos]
  have hmem : ∀ q ∈ parts nbyte (0 + blockLen nbyte 0 offset)
      ((offset + blockLen nbyte 0 offset) % 2 ^ 64), q ∈ parts nbyte 0 offset
        ∧ IsPart nbyte offset q ∧ q.offset % 512 = 0 := by
    intro q hq
    have hq' : q ∈ parts nbyte 0 offset := hcons ▸ List.mem_cons_of_mem _ hq
    have hpart := isPart_of_parts hoffset hq'
    have hle := le_count_of_mem q hq
    have hlen := (blockLen_pos offset hpos).1
    exact ⟨hq', hpart, hpart.start.resolve_left (by omega)⟩
  have hfirst : Part.mk 0 offset (blockLen nbyte 0 offset) ∈ parts nbyte 0 offset :=
    hcons ▸ List.mem_cons_self
  refine ⟨_, _, hcons, rfl, isPart_of_parts hoffset hfirst, haccepted _ hfirst, ?_, ?_⟩
  · intro q hq s hs
    obtain ⟨hq', hpart, hstart⟩ := hmem q hq
    obtain ⟨hpos', -, hblock⟩ := hpart.bounds
    apply writeStep_ones hms hblock hpos' (haccepted q hq') hstart hs
  · intro i hle hlt hblock
    obtain ⟨q, hq, hcount, hend⟩ : ∃ q ∈ parts nbyte (0 + blockLen nbyte 0 offset)
        ((offset + blockLen nbyte 0 offset) % 2 ^ 64), q.count ≤ i ∧ i < q.count + q.len := by
      apply exists_part _ hlt
      rw [Nat.zero_add]
      exact hle
    obtain ⟨-, hpart, hstart⟩ := hmem q hq
    have hoff := hpart.offset_eq
    have hbound := hpart.bounds
    refine ⟨q, hq, ?_⟩
    omega

/-- A request that does not start at the first byte and goes beyond the addresses of the drive
writes a byte before it. -/
theorem exists_wrapped (hoffset : offset < 2 ^ 64)
    (haccepted : ∀ p ∈ parts nbyte 0 offset, Accepted (faults.write p.count))
    (hpos : 0 < nbyte) (hstart : 0 < offset) (hover : 2 ^ 37 < offset + nbyte) :
  ∃ z < offset, flat ((parts nbyte 0 offset).foldl (writeStep faults drive fun _ => 1)
    (fun _ => 1, ofFlat fun x => if x = z then 0 else 1)).2 drive z = 1
  := by
  obtain ⟨p, ps, hcons, hp, hpart, hfirst, hrest, hnext⟩ :=
    exists_first hms hoffset hpos haccepted
  obtain ⟨hlen, -, hblock⟩ := hpart.bounds
  rw [hcons]
  by_cases hfar : 2 ^ 37 ≤ offset
  · -- the first part writes the byte
    obtain ⟨hones, hzero⟩ := writeStep_first hms hblock hlen hfirst (Or.inl rfl)
    obtain ⟨hones', hzero'⟩ := foldl_invariant
      (P := fun s : Memory × Sectors => Ones drive s ∧ flat s.2 drive 0 = 1)
      (fun q hq s hs => ⟨(hrest q hq s hs.1).1, (hrest q hq s hs.1).2 (Or.inl hs.2)⟩)
      ⟨hones, hzero rfl⟩
    refine ⟨p.offset % 2 ^ 37, by omega, ?_⟩
    rw [List.foldl_cons]
    by_cases hz : p.offset % 2 ^ 37 = 0
    · rw [hz] at hzero' ⊢
      exact hzero'
    · exact hones'.1 _ hz
  · -- the part at `2 ^ 37` writes the first byte of the drive
    obtain ⟨hones, -⟩ := writeStep_first hms hblock hlen hfirst (Or.inr rfl)
    obtain ⟨q, hq, hq0⟩ := hnext (2 ^ 37 - offset) (by omega) (by omega) (by omega)
    obtain ⟨before, after, rfl⟩ := List.append_of_mem hq
    refine ⟨0, hstart, ?_⟩
    rw [List.foldl_cons]
    apply foldl_establish (P := Ones drive) (Q := fun s : Memory × Sectors => flat s.2 drive 0 = 1)
    · intro r hr s hs
      apply (hrest r hr s hs).1
    · intro s hs
      apply (hrest q hq s hs).2 (Or.inr _)
      omega
    · intro r hr s hs hgoal
      apply (hrest r (by simp [hr]) s hs).2 (Or.inl hgoal)
    · exact hones

/-- Such a request changes a byte before it. -/
theorem ataWrite_wrapped (hoffset : offset < 2 ^ 64) (h : drive.present = true)
    (haccepted : ∀ p ∈ parts nbyte 0 offset, Accepted (faults.write p.count))
    (hpos : 0 < nbyte) (hstart : 0 < offset) (hover : 2 ^ 37 < offset + nbyte) :
  ∃ sectors x, (x < offset ∨ offset + nbyte ≤ x) ∧
    flat (ataWrite faults sectors drive (fun _ => 1) (fun _ => 1) nbyte offset).2 drive x
      ≠ flat sectors drive x
  := by
  obtain ⟨z, hz, hone⟩ := exists_wrapped hms hoffset haccepted hpos hstart hover
  refine ⟨ofFlat fun x => if x = z then 0 else 1, z, Or.inl hz, ?_⟩
  rw [ataWrite_present h, hone, flat_ofFlat, if_pos rfl]
  decide

/-- `ata_write` changes no byte outside of the request and counts no byte that was not stored,
whatever the drive and the buffers hold, exactly if every write succeeds and the request stays on
the drive, with no failing read of a block that it does not fill, or covers the whole drive. -/
theorem writesRight_iff (hoffset : offset < 2 ^ 64) :
  (∀ sectors blkBuf buffer, WritesRight faults drive nbyte offset sectors blkBuf buffer)
    ↔ drive.present = false ∨ nbyte = 0
      ∨ ((∀ p ∈ parts nbyte 0 offset, Accepted (faults.write p.count))
        ∧ ((offset = 0 ∧ 2 ^ 37 ≤ nbyte) ∨ (offset + nbyte ≤ 2 ^ 37
          ∧ ∀ p ∈ parts nbyte 0 offset, p.len ≠ 512 → ¬ ReadFails (faults.read p.count))))
  := by
  constructor
  · intro hall
    by_contra hnot
    rw [not_or, not_or, Bool.not_eq_false] at hnot
    obtain ⟨hpresent, hpos, hnot⟩ := hnot
    have haccepted : ∀ p ∈ parts nbyte 0 offset, Accepted (faults.write p.count) := by
      have hcounted := (hall (fun _ _ _ => 0) (fun _ => 0) (fun _ => 0)).2
      rw [ataWrite_present hpresent] at hcounted
      exact (stored_ge hoffset).mp hcounted
    apply hnot ⟨haccepted, ?_⟩
    by_cases hrange : offset + nbyte ≤ 2 ^ 37
    · refine Or.inr ⟨hrange, fun p hp hlen hfails => ?_⟩
      obtain ⟨sectors, x, hx, hlost⟩ :=
        ataWrite_failed hms hoffset hpresent haccepted hrange hp hlen hfails
      exact hlost ((hall sectors _ _).1 x hx)
    · by_contra hshort
      rw [not_or, not_and] at hshort
      have hstart : 0 < offset := by
        by_contra hzero
        apply hshort.1
        · omega
        · omega
      obtain ⟨sectors, x, hx, hlost⟩ := ataWrite_wrapped hms hoffset hpresent haccepted
        (by omega) hstart (Nat.lt_of_not_le hrange)
      exact hlost ((hall sectors _ _).1 x hx)
  · intro hright sectors blkBuf buffer
    cases hpresent : drive.present with
    | false =>
        rw [WritesRight, ataWrite, hpresent]
        exact ⟨fun _ _ => rfl, Nat.zero_le _⟩
    | true =>
        obtain habsent | hzero | ⟨haccepted, hright⟩ := hright
        · rw [habsent] at hpresent
          cases hpresent
        · rw [WritesRight, ataWrite_present hpresent, hzero, parts, dif_neg (Nat.lt_irrefl 0)]
          exact ⟨fun _ _ => rfl, Nat.zero_le _⟩
        · constructor
          · intro x hx
            obtain ⟨hstart, hlong⟩ | ⟨hrange, hreads⟩ := hright
            · apply ataWrite_beyond hms hpresent
              omega
            · apply ataWrite_outside hms hoffset hpresent haccepted hrange hreads _ _ _ hx
          · rw [ataWrite_present hpresent]
            exact (stored_ge hoffset).mpr haccepted

omit hms in
/-- A write of the first byte of a drive of ones takes the second byte to what was in the local
buffer. -/
theorem unreadable_damages :
  ¬ WritesRight unreadable { present := true, ms := 0 } 1 0 (fun _ _ _ => 1) (fun _ => 0)
      (fun _ => 0)
  := by
  rintro ⟨houtside, -⟩
  have hbyte := houtside 1 (Or.inr (Nat.le_refl _))
  have hparts : parts 1 0 0 = [Part.mk 0 0 1] := by
    rw [parts, dif_pos Nat.zero_lt_one]
    simp [blockLen, parts]
  rw [ataWrite_present rfl, hparts, List.foldl_cons, List.foldl_nil,
    writeStep_flat (Or.inl rfl) (by norm_num) (by decide)] at hbyte
  revert hbyte
  decide

omit hms in
/-- A write to a drive without faults damages nothing. -/
theorem writesRight_iff_faultless :
  WritesRight faultless { present := true, ms := 0 } 1 0 (fun _ _ _ => 1) (fun _ => 0) (fun _ => 0)
  := (writesRight_iff (Or.inl rfl) (by norm_num)).mpr (Or.inr (Or.inr
    ⟨fun _ _ => accepted_ataDrq, Or.inr ⟨by norm_num, fun p _ _ => faultless_reads p.count⟩⟩)) _ _ _

end Writes

end Ata.Faulty
