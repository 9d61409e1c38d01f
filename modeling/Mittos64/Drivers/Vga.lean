import Mathlib.Data.List.GetD
import Mittos64.Lib.Rows
import Mittos64.Mem.Memmove

/-!
# The console

`drivers/vga.c`.  The characters go to `buffer`, an array of cells of two bytes, which is copied to
the video memory after each of them.  When the cursor leaves the last line, the lines are moved up
by a line, to lower addresses, so that `memmove` moves them as they are.  A write to `buffer` is
`none` when it is not inside of it.  What the console shows are the last rows of the text.
-/

namespace Vga

open Heap (memcpy memset memmove)
open Rows (rows lastRows)

/-- `VGA_WIDTH` -/
def vgaWidth : Nat := 80

/-- `VGA_LINES` -/
def vgaLines : Nat := 25

/-- `VGA_SIZE` -/
def vgaSize : Nat := vgaWidth * vgaLines

/-- `sizeof(buffer)` -/
def bufferSize : Nat := 2 * vgaSize

/-- `'\n'` -/
def newline : UInt8 := 10

/-- `vidmem` -/
def vidmem : Nat := p2v 0xb8000

/-- Where `KERNEL_START` of `Link.ld` is in the address space. -/
def kernelStart : Nat := p2v 0x100000

/-- The kernel in memory, as far as it is about the console. -/
structure Image where
  buffer : Nat
  low : kernelStart ≤ buffer
  high : buffer + bufferSize ≤ 2 ^ 64

example : Image := ⟨kernelStart, Nat.le_refl _, by decide⟩

/-- `cursor`, with the memory and with what is written to ports. -/
structure Console where
  mem : Memory
  x : Nat
  y : Nat
  style : Nat
  ports : List (Nat × Nat)

/-- `n++` of a 32-bit number -/
def inc32 (n : Nat) : Nat :=
  (n + 1) % 2 ^ 32

/-- A character as a number of 32 bits.  The type `char` is signed. -/
def charValue (c : UInt8) : Nat :=
  if c < 128 then c.toNat else c.toNat + (2 ^ 32 - 2 ^ 8)

/-- `c | (style << 8)` -/
def cellValue (c : UInt8) (style : Nat) : Nat :=
  charValue c ||| style <<< 8

section Source

variable (img : Image)

/-- The memory after the `n` bytes from `a` on have been written, if they lie in `buffer`. -/
def writeBuffer (a n : Nat) (mem : Memory) : Option Memory :=
  if img.buffer ≤ a ∧ a + n ≤ img.buffer + bufferSize then some mem else none

/-- `&buffer[i]` -/
def cellAddr (i : Nat) : Nat :=
  img.buffer + 2 * i

/-- `sync()` -/
def sync (mem : Memory) : Memory :=
  memcpy mem vidmem img.buffer bufferSize

/-- `setcursor()` -/
def setcursor (s : Console) : Console :=
  let position := (s.y * vgaWidth + s.x) % 2 ^ 16
  { s with ports := s.ports ++ [(0x3D4, 0x0F), (0x3D5, position &&& 0xFF),
      (0x3D4, 0x0E), (0x3D5, position >>> 8 &&& 0xF)] }

/-- The body of the loop of `scroll`, up to the cursor. -/
def scrollLine (mem : Memory) : Option Memory :=
  let n := bufferSize - 2 * vgaWidth
  (writeBuffer img (cellAddr img 0) n
      (memmove mem (cellAddr img 0) (cellAddr img vgaWidth) n)).bind fun mem =>
    writeBuffer img (cellAddr img (vgaSize - vgaWidth)) (2 * vgaWidth)
      (memset mem (cellAddr img (vgaSize - vgaWidth)) 0 (2 * vgaWidth))

/-- `scroll()`, from the line `y` of the cursor on -/
def scroll (y : Nat) (mem : Memory) : Option (Memory × Nat) :=
  if y ≥ vgaLines then
    match scrollLine img mem with
    | none => none
    | some mem => scroll (y - 1) mem
  else some (mem, y)
termination_by y
decreasing_by
  rw [vgaLines] at *
  omega

/-- The first part of `vga_printch`: the character, and the cursor behind it. -/
def putch (s : Console) (c : UInt8) : Option Console :=
  if c = newline then some { s with x := 0, y := inc32 s.y }
  else
    let i := (s.y * vgaWidth + s.x) % 2 ^ 32
    (writeBuffer img (cellAddr img i) 2 (s.mem.store (cellAddr img i) 2 (cellValue c s.style))).map
      fun mem => { s with mem := mem, x := inc32 s.x }

/-- The part of `vga_printch` that wraps the line. -/
def wrapLine (s : Console) : Console :=
  if s.x ≥ vgaWidth then { s with x := 0, y := inc32 s.y } else s

/-- The last part of `vga_printch`: `scroll(); sync(); setcursor();` -/
def update (s : Console) : Option Console :=
  (scroll img s.y s.mem).map fun r => setcursor { s with mem := sync img r.1, y := r.2 }

/-- `vga_printch(c)` -/
def vgaPrintch (s : Console) (c : UInt8) : Option Console :=
  (putch img s c).bind fun s => update img (wrapLine s)

/-- `vga_init()` -/
def vgaInit (s : Console) : Option Console :=
  (writeBuffer img img.buffer bufferSize (memset s.mem img.buffer 0 bufferSize)).map fun mem =>
    { s with mem := sync img mem, x := 0, y := 0, style := 0x07 }

/-- What `vga_printch` prints after `vga_init`, character for character. -/
def printText (s : Console) (text : List UInt8) : Option Console :=
  (vgaInit img s).bind fun s => text.foldlM (vgaPrintch img) s

end Source

/-! ### What the console shows -/

/-- The cell of a screen that shows the last of these rows, with zeros where nothing is written. -/
def cell (rs : List (List UInt8)) (r col : Nat) : UInt8 :=
  ((lastRows vgaLines rs).getD r []).getD col 0

/-- The low bytes of the cells in the buffer are those of these rows. -/
def Shows (img : Image) (mem : Memory) (rs : List (List UInt8)) : Prop :=
  ∀ r < vgaLines, ∀ col < vgaWidth, mem (cellAddr img (r * vgaWidth + col)) = cell rs r col

/-- Only the buffer and the video memory have changed. -/
def Frame (img : Image) (m mem : Memory) : Prop :=
  ∀ a, a < img.buffer ∨ img.buffer + bufferSize ≤ a → a < vidmem ∨ vidmem + bufferSize ≤ a →
    mem a = m a

/-- The console shows the text, after it had the memory `m`. -/
structure Renders (img : Image) (m : Memory) (text : List UInt8) (s : Console) : Prop where
  x : s.x < vgaWidth
  y : s.y < vgaLines
  cells : Shows img s.mem (rows newline vgaWidth text)
  video : ∀ i < bufferSize, s.mem (vidmem + i) = s.mem (img.buffer + i)
  frame : Frame img m s.mem

/-- The console shows these rows, with the cursor behind the last one. -/
structure At (img : Image) (m : Memory) (above : List (List UInt8)) (row : List UInt8)
    (s : Console) : Prop where
  x : s.x = row.length
  y : s.y = min above.length (vgaLines - 1)
  room : row.length < vgaWidth
  cells : Shows img s.mem (above ++ [row])
  video : ∀ i < bufferSize, s.mem (vidmem + i) = s.mem (img.buffer + i)
  frame : Frame img m s.mem

section Cells

variable {rs : List (List UInt8)} {r col : Nat}

theorem cell_eq (rs : List (List UInt8)) (r col : Nat) :
  cell rs r col = (rs.getD (rs.length - vgaLines + r) []).getD col 0
  := by
  rw [cell, Rows.lastRows_getD]

/-- A new row is empty. -/
theorem cell_snoc_nil (h : rs.length < vgaLines) :
  cell (rs ++ [[]]) r col = cell rs r col
  := by
  rw [cell_eq, cell_eq, List.length_append, List.length_singleton, Nat.sub_eq_zero_of_le (by omega),
    Nat.sub_eq_zero_of_le (by omega), Nat.zero_add]
  obtain hlt | hge := Nat.lt_or_ge r rs.length
  · rw [List.getD_append _ _ _ _ hlt]
  · rw [List.getD_append_right _ _ _ _ hge, List.getD_eq_default _ _ hge]
    cases r - rs.length with
    | zero => rfl
    | succ n => rfl

/-- A new row moves the others up by one. -/
theorem cell_snoc_nil_full (h : vgaLines ≤ rs.length) (hr : r < vgaLines) :
  cell (rs ++ [[]]) r col = if r + 1 < vgaLines then cell rs (r + 1) col else 0
  := by
  have hindex : (rs ++ [[]]).length - vgaLines + r = rs.length - vgaLines + (r + 1) := by
    rw [List.length_append, List.length_singleton]
    omega
  rw [cell_eq, hindex]
  split_ifs with hlt
  · rw [cell_eq, List.getD_append _ _ _ _ (by omega)]
  · have hlast : rs.length - vgaLines + (r + 1) = rs.length := by omega
    rw [hlast, List.getD_append_right _ _ _ _ (Nat.le_refl _), Nat.sub_self]
    rfl

theorem getD_snoc (row : List UInt8) (c : UInt8) (col : Nat) :
  (row ++ [c]).getD col 0 = if col = row.length then c else row.getD col 0
  := by
  obtain hlt | hge := Nat.lt_or_ge col row.length
  · rw [List.getD_append _ _ _ _ hlt, if_neg (by omega)]
  · rw [List.getD_append_right _ _ _ _ hge]
    split_ifs with heq
    · rw [heq, Nat.sub_self]
      rfl
    · obtain ⟨n, hn⟩ : ∃ n, col - row.length = n + 1 := ⟨col - row.length - 1, by omega⟩
      rw [hn, List.getD_eq_default row _ hge]
      rfl

/-- A character at the end of the last row. -/
theorem cell_snoc (above : List (List UInt8)) (row : List UInt8) (c : UInt8) (r col : Nat) :
  cell (above ++ [row ++ [c]]) r col
    = if r = min above.length (vgaLines - 1) ∧ col = row.length then c
      else cell (above ++ [row]) r col
  := by
  have hlen : ∀ l : List UInt8, (above ++ [l]).length = above.length + 1 :=
    fun l => List.length_append
  have hpos : 0 < vgaLines := by decide
  rw [cell_eq, cell_eq, hlen, hlen]
  obtain ⟨i, hi⟩ : ∃ i, i = above.length + 1 - vgaLines + r := ⟨_, rfl⟩
  rw [← hi]
  obtain hlt | heq | hgt := Nat.lt_trichotomy i above.length
  · rw [List.getD_append _ _ _ _ hlt, List.getD_append _ _ _ _ hlt, if_neg (by omega)]
  · have hrow : r = min above.length (vgaLines - 1) := by omega
    rw [List.getD_append_right _ _ _ _ (Nat.le_of_eq heq.symm),
      List.getD_append_right _ _ _ _ (Nat.le_of_eq heq.symm), heq, Nat.sub_self]
    simp only [List.getD_cons_zero, hrow, true_and]
    apply getD_snoc
  · have hnone : ∀ l, (above ++ [l]).getD i [] = [] := by
      intro l
      apply List.getD_eq_default
      rw [hlen]
      omega
    rw [hnone, hnone, if_neg (by omega)]

end Cells

/-! ### The buffer and the video memory -/

section Memory

variable {img : Image} {m mem : Memory} {rs : List (List UInt8)}

/-- The video memory lies before the kernel. -/
theorem video_below (img : Image) :
  vidmem + bufferSize ≤ img.buffer
  := Nat.le_trans (by decide) img.low

/-- The low byte of a cell is the character. -/
theorem cellValue_low (c : UInt8) (style : Nat) :
  UInt8.ofNat (cellValue c style) = c
  := by
  apply UInt8.toNat_inj.mp
  have hchar : charValue c % 2 ^ 8 = c.toNat := by
    have hlt := c.toNat_lt
    rw [charValue]
    split_ifs
    all_goals omega
  have hstyle : style <<< 8 % 2 ^ 8 = 0 := by
    rw [Nat.shiftLeft_eq]
    exact Nat.mul_mod_left style (2 ^ 8)
  rw [UInt8.toNat_ofNat', cellValue, Nat.or_mod_two_pow, hchar, hstyle, Nat.or_zero]

theorem writeBuffer_some {a n : Nat} (h : img.buffer ≤ a) (h' : a + n ≤ img.buffer + bufferSize) :
  writeBuffer img a n mem = some mem
  := if_pos ⟨h, h'⟩

/-- A change in the buffer keeps what is outside. -/
theorem Frame.change {mem' : Memory} (h : Frame img m mem)
    (hsame : ∀ a, a < img.buffer ∨ img.buffer + bufferSize ≤ a → mem' a = mem a) :
  Frame img m mem'
  := by
  intro a ha ha'
  rw [hsame a ha, h a ha ha']

/-- `sync` copies the buffer to the video memory. -/
theorem sync_moved (img : Image) (mem : Memory) :
  Heap.Moved mem (sync img mem) vidmem img.buffer bufferSize
  := by
  have hbelow := video_below img
  have hhigh := img.high
  apply Heap.memmove_down
  · omega
  · omega
  · omega

/-- After `sync`, the buffer is as before, and the video memory is the same. -/
theorem sync_spec (hshows : Shows img mem rs) (hframe : Frame img m mem) :
  ∃ mem', sync img mem = mem' ∧ Shows img mem' rs
    ∧ (∀ i < bufferSize, mem' (vidmem + i) = mem' (img.buffer + i)) ∧ Frame img m mem'
  := by
  have hbelow := video_below img
  have hmoved := sync_moved img mem
  obtain ⟨mem', hsync⟩ : ∃ mem', sync img mem = mem' := ⟨_, rfl⟩
  rw [hsync] at hmoved
  refine ⟨mem', hsync, ?_, ?_, ?_⟩
  · intro r hr col hcol
    rw [hmoved.other, hshows r hr col hcol]
    rw [cellAddr]
    omega
  · intro i hi
    rw [hmoved.moved i hi, hmoved.other _ (by omega)]
  · intro a ha ha'
    rw [hmoved.other a ha', hframe a ha ha']

/-- Moving the lines up makes room for a new row. -/
theorem scrollLine_spec (hshows : Shows img mem rs) (hframe : Frame img m mem)
    (hrs : vgaLines ≤ rs.length) :
  ∃ mem', scrollLine img mem = some mem' ∧ Shows img mem' (rs ++ [[]]) ∧ Frame img m mem'
  := by
  have hhigh := img.high
  obtain ⟨n, hn⟩ : ∃ n, n = bufferSize - 2 * vgaWidth := ⟨_, rfl⟩
  obtain ⟨a, ha⟩ : ∃ a, a = cellAddr img (vgaSize - vgaWidth) := ⟨_, rfl⟩
  have hzero : cellAddr img 0 = img.buffer := rfl
  have hline : cellAddr img vgaWidth = img.buffer + 2 * vgaWidth := rfl
  have hlast : a = img.buffer + n := by
    rw [ha, hn]
    rfl
  have hsize : bufferSize = n + 2 * vgaWidth := by
    rw [hn]
    rfl
  have hmoved := @Heap.memmove_down mem (cellAddr img 0) (cellAddr img vgaWidth) n (by omega)
    (by omega) (by omega)
  obtain ⟨mem₁, hmem₁⟩ : ∃ mem₁, mem₁ = memmove mem (cellAddr img 0) (cellAddr img vgaWidth) n :=
    ⟨_, rfl⟩
  rw [← hmem₁] at hmoved
  have hset : memset mem₁ a 0 (2 * vgaWidth) = mem₁.fill a 0 (2 * vgaWidth) :=
    Heap.memset_eq 0 (by omega)
  refine ⟨mem₁.fill a 0 (2 * vgaWidth), ?_, ?_, ?_⟩
  · rw [scrollLine, ← hn, ← ha, ← hmem₁, writeBuffer_some (by omega) (by omega),
      Option.bind_some, hset, writeBuffer_some (by omega) (by omega)]
  · intro r hr col hcol
    rw [cell_snoc_nil_full hrs hr, cellAddr]
    have hn' : n = 3840 := hn
    have hline' : cellAddr img vgaWidth = img.buffer + 160 := hline
    by_cases hnext : r + 1 < vgaLines
    · rw [if_pos hnext, ← hshows (r + 1) hnext col hcol, cellAddr]
      rw [vgaWidth, vgaLines] at *
      have hbyte := hmoved.moved (2 * (r * 80 + col)) (by omega)
      rw [hzero, hline'] at hbyte
      rw [Memory.fill_of_notMem _ _ (by omega), hbyte]
      congr 1
      omega
    · rw [if_neg hnext]
      rw [vgaWidth, vgaLines] at *
      rw [Memory.fill_of_mem _ _ (by omega) (by omega)]
  · apply hframe.change
    intro b hb
    rw [Memory.fill_of_notMem _ _ (by omega), hmoved.other b (by omega)]

/-- When the cursor has gone to a new row, `scroll` makes room for it if it has to. -/
theorem scroll_spec (hshows : Shows img mem rs) (hframe : Frame img m mem) (hrs : 0 < rs.length) :
  ∃ mem', scroll img (min (rs.length - 1) (vgaLines - 1) + 1) mem
      = some (mem', min rs.length (vgaLines - 1))
    ∧ Shows img mem' (rs ++ [[]]) ∧ Frame img m mem'
  := by
  have hpos : vgaLines = 25 := rfl
  obtain hfew | hfull := Nat.lt_or_ge rs.length vgaLines
  · refine ⟨mem, ?_, ?_, hframe⟩
    · rw [scroll, if_neg (by omega)]
      congr 2
      omega
    · intro r hr col hcol
      rw [cell_snoc_nil hfew, hshows r hr col hcol]
  · obtain ⟨mem', hscroll, hshows', hframe'⟩ := scrollLine_spec hshows hframe hfull
    refine ⟨mem', ?_, hshows', hframe'⟩
    have hline : min (rs.length - 1) (vgaLines - 1) + 1 = vgaLines := by omega
    rw [hline, scroll, if_pos (Nat.le_refl _), hscroll]
    dsimp only
    rw [scroll, if_neg (by omega)]
    congr 2
    omega

end Memory

/-! ### One character -/

section Step

variable {img : Image} {m : Memory} {above : List (List UInt8)} {row : List UInt8} {s : Console}
  {c : UInt8}

/-- A character goes to the cell behind the last row. -/
theorem At.putch (h : At img m above row s) (hc : c ≠ newline) :
  ∃ mem, Vga.putch img s c = some { s with mem := mem, x := row.length + 1 }
    ∧ Shows img mem (above ++ [row ++ [c]]) ∧ Frame img m mem
  := by
  have hx := h.x
  have hy := h.y
  have hroom := h.room
  have hindex : (s.y * vgaWidth + s.x) % 2 ^ 32 = s.y * vgaWidth + s.x := by
    rw [vgaWidth, vgaLines] at *
    omega
  have hinc : inc32 s.x = row.length + 1 := by
    rw [inc32, hx]
    rw [vgaWidth] at hroom
    omega
  have hin : img.buffer ≤ cellAddr img (s.y * vgaWidth + s.x)
      ∧ cellAddr img (s.y * vgaWidth + s.x) + 2 ≤ img.buffer + bufferSize := by
    simp only [cellAddr, bufferSize, vgaSize, vgaWidth, vgaLines] at *
    omega
  refine ⟨s.mem.store (cellAddr img (s.y * vgaWidth + s.x)) 2 (cellValue c s.style), ?_, ?_, ?_⟩
  · rw [Vga.putch, if_neg hc, hindex]
    dsimp only
    rw [writeBuffer_some hin.1 hin.2, Option.map_some, hinc]
  · intro r hr col hcol
    rw [cell_snoc]
    split_ifs with hcell
    · have haddr : cellAddr img (r * vgaWidth + col) = cellAddr img (s.y * vgaWidth + s.x) := by
        rw [hcell.1, hcell.2, hx, hy]
      rw [haddr, Memory.store, if_pos (by omega), Nat.sub_self, Nat.pow_zero, Nat.div_one,
        cellValue_low]
    · rw [Memory.store_of_notMem, h.cells r hr col hcol]
      simp only [cellAddr, vgaWidth, vgaLines] at *
      omega
  · apply h.frame.change
    intro a ha
    apply Memory.store_of_notMem
    omega

/-- The hardware cursor does not matter for what is shown. -/
theorem At.setcursor (h : At img m above row s) :
  At img m above row (Vga.setcursor s)
  := by
  obtain ⟨hx, hy, hroom, hcells, hvideo, hframe⟩ := h
  exact ⟨hx, hy, hroom, hcells, hvideo, hframe⟩

/-- After a row has ended, the cursor goes to a new one. -/
theorem update_newRow (hx : s.x = 0) (hy : s.y = min above.length (vgaLines - 1) + 1)
    (hshows : Shows img s.mem (above ++ [row])) (hframe : Frame img m s.mem) :
  ∃ s', update img s = some s' ∧ At img m (above ++ [row]) [] s'
  := by
  have hlen : (above ++ [row]).length = above.length + 1 := List.length_append
  obtain ⟨mem, hscroll, hshows', hframe'⟩ := scroll_spec hshows hframe (by omega)
  obtain ⟨mem', hsync, hshown, hvideo, hkept⟩ := sync_spec hshows' hframe'
  rw [hlen, Nat.add_sub_cancel, ← hy] at hscroll
  obtain ⟨y, hline⟩ : ∃ y, y = min (above.length + 1) (vgaLines - 1) := ⟨_, rfl⟩
  have hat : At img m (above ++ [row]) [] { s with mem := mem', y := y } := by
    refine ⟨hx, ?_, by decide, hshown, hvideo, hkept⟩
    rw [hlen]
    exact hline
  refine ⟨_, ?_, hat.setcursor⟩
  rw [update, hscroll, Option.map_some, hsync, ← hline]

/-- Within a row, the cursor stays in its line. -/
theorem update_sameRow (hx : s.x = row.length) (hroom : row.length < vgaWidth)
    (hy : s.y = min above.length (vgaLines - 1)) (hshows : Shows img s.mem (above ++ [row]))
    (hframe : Frame img m s.mem) :
  ∃ s', update img s = some s' ∧ At img m above row s'
  := by
  have hpos : 0 < vgaLines := by decide
  obtain ⟨mem, hsync, hshown, hvideo, hkept⟩ := sync_spec hshows hframe
  have hat : At img m above row { s with mem := mem } :=
    ⟨hx, hy, hroom, hshown, hvideo, hkept⟩
  refine ⟨_, ?_, hat.setcursor⟩
  rw [update, scroll, if_neg (by omega), Option.map_some, hsync]

/-- The next line. -/
theorem At.inc_y (h : At img m above row s) :
  inc32 s.y = min above.length (vgaLines - 1) + 1
  := by
  have hlines : vgaLines = 25 := rfl
  rw [inc32, h.y]
  omega

/-- The end of a line. -/
theorem At.printch_newline (h : At img m above row s) :
  ∃ s', vgaPrintch img s newline = some s' ∧ At img m (above ++ [row]) [] s'
  := by
  have hwidth : 0 < vgaWidth := by decide
  obtain ⟨t, ht⟩ : ∃ t : Console, t = { s with x := 0, y := inc32 s.y } := ⟨_, rfl⟩
  have hx : t.x = 0 := by rw [ht]
  have hy : t.y = min above.length (vgaLines - 1) + 1 := by rw [ht, ← h.inc_y]
  have hmem : t.mem = s.mem := by rw [ht]
  rw [vgaPrintch, Vga.putch, if_pos rfl, Option.bind_some, ← ht, wrapLine, if_neg (by omega)]
  apply update_newRow hx hy
  · rw [hmem]
    exact h.cells
  · rw [hmem]
    exact h.frame

/-- Any other character. -/
theorem At.printch_char (h : At img m above row s) (hc : c ≠ newline) :
  ∃ s', vgaPrintch img s c = some s'
    ∧ if row.length + 1 < vgaWidth then At img m above (row ++ [c]) s'
      else At img m (above ++ [row ++ [c]]) [] s'
  := by
  have hlen : (row ++ [c]).length = row.length + 1 := List.length_append
  obtain ⟨mem, hputch, hshows, hframe⟩ := h.putch hc
  obtain ⟨t, ht⟩ : ∃ t : Console, t = { s with mem := mem, x := row.length + 1 } := ⟨_, rfl⟩
  have hx : t.x = row.length + 1 := by rw [ht]
  have hy : t.y = s.y := by rw [ht]
  have hmem : t.mem = mem := by rw [ht]
  rw [← hmem] at hshows hframe
  rw [vgaPrintch, hputch, Option.bind_some, ← ht, wrapLine]
  split_ifs with hfull hroom hroom
  · omega
  · exact update_newRow rfl (by rw [hy, h.inc_y]) hshows hframe
  · exact update_sameRow (hx.trans hlen.symm) (by omega) (hy.trans h.y) hshows hframe
  · omega

/-- After `vga_init` the console is empty. -/
theorem vgaInit_at (img : Image) (s : Console) :
  ∃ s', vgaInit img s = some s' ∧ At img s.mem [] [] s'
  := by
  have hbelow := video_below img
  have hset : memset s.mem img.buffer 0 bufferSize = s.mem.fill img.buffer 0 bufferSize :=
    Heap.memset_eq 0 img.high
  have hshows : Shows img (s.mem.fill img.buffer 0 bufferSize) ([] ++ [[]]) := by
    intro r hr col hcol
    have hzero : cell ([] ++ [[]]) r col = 0 := by
      rw [cell_eq]
      cases r with
      | zero => rfl
      | succ r => rfl
    rw [hzero, Memory.fill_of_mem]
    · rw [cellAddr]
      omega
    · simp only [cellAddr, bufferSize, vgaSize, vgaWidth, vgaLines] at *
      omega
  have hframe : Frame img s.mem (s.mem.fill img.buffer 0 bufferSize) := by
    intro a ha _
    exact Memory.fill_of_notMem _ _ ha
  obtain ⟨mem, hsync, hshown, hvideo, hkept⟩ := sync_spec hshows hframe
  refine ⟨{ s with mem := mem, x := 0, y := 0, style := 0x07 }, ?_, ?_⟩
  · rw [vgaInit, writeBuffer_some (Nat.le_refl _) (Nat.le_refl _), Option.map_some, hset, hsync]
  · exact ⟨rfl, rfl, by decide, hshown, hvideo, hkept⟩

end Step

/-! ### All characters -/

section Text

variable {img : Image} {m : Memory} {s : Console}

/-- Printing keeps to the rows of the text. -/
theorem printText_at (img : Image) (s : Console) (text : List UInt8) :
  ∃ s' above row, printText img s text = some s'
    ∧ rows newline vgaWidth text = above ++ [row] ∧ At img s.mem above row s'
  := by
  have hwidth : 0 < vgaWidth := by decide
  induction text using List.reverseRecOn with
  | nil =>
      obtain ⟨s', hinit, hat⟩ := vgaInit_at img s
      refine ⟨s', [], [], ?_, Rows.rows_nil newline hwidth, hat⟩
      rw [printText, hinit, Option.bind_some]
      rfl
  | append_singleton text c ih =>
      obtain ⟨s', above, row, hprint, hrows, hat⟩ := ih
      obtain ⟨above', row', hrows', -, hnew, hother⟩ := Rows.rows_snoc newline hwidth text
      obtain ⟨rfl, hrow⟩ := List.append_inj' (hrows.symm.trans hrows') rfl
      obtain rfl := List.singleton_inj.mp hrow
      have hsnoc : printText img s (text ++ [c]) = vgaPrintch img s' c := by
        rw [printText] at hprint ⊢
        obtain ⟨s₀, hinit, hfold⟩ := Option.bind_eq_some_iff.mp hprint
        simp only [hinit, Option.bind_some, List.foldlM_append, hfold, Option.bind_eq_bind,
          List.foldlM_cons, List.foldlM_nil, Option.pure_def, Option.bind_fun_some]
      rw [hsnoc]
      by_cases hc : c = newline
      · subst hc
        obtain ⟨s'', hstep, hat'⟩ := hat.printch_newline
        exact ⟨s'', _, _, hstep, hnew, hat'⟩
      · obtain ⟨s'', hstep, hat'⟩ := hat.printch_char hc
        rw [hother c hc]
        split_ifs at hat' ⊢ with hroom
        · exact ⟨s'', _, _, hstep, rfl, hat'⟩
        · exact ⟨s'', _, _, hstep, rfl, hat'⟩

/-- After `vga_init`, the console shows the last rows of any text that is printed to it, and all
writes to the buffer are inside of it. -/
theorem printText_renders (img : Image) (s : Console) (text : List UInt8) :
  ∃ s', printText img s text = some s' ∧ Renders img s.mem text s'
  := by
  obtain ⟨s', above, row, hprint, hrows, hat⟩ := printText_at img s text
  refine ⟨s', hprint, ?_⟩
  have hx := hat.x
  have hy := hat.y
  have hroom := hat.room
  constructor
  · omega
  · rw [vgaLines] at *
    omega
  · rw [hrows]
    exact hat.cells
  · exact hat.video
  · exact hat.frame

end Text

end Vga
