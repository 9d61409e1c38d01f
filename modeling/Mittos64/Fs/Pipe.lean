import Mathlib.Data.List.Basic
import Mathlib.Logic.Function.Basic
import Mittos64.Lib.Ring
import Mittos64.Lib.Run

/-!
# Pipes

`fs/pipe.c`.  A pipe is a ring of `PIPE_SIZE` bytes with a position to read from and a
position to write to, both counted from the start of the stream.  `pipe_read` and
`pipe_write` work in sections that hold the lock of the pipe: a read that finds the pipe
empty and a write that finds it full unlock it, call `schedule` and start another
section later.

A run is any order of the sections of any number of calls.  Next to the pipe the state of
a run records the stream, the bytes put in by the writes in the order of the sections,
and the bytes given to the reads.  The pipe is a FIFO: what was read is what was written
up to the position read from.
-/

universe u

set_option linter.unusedSectionVars false

namespace Pipe

/-- `PIPE_SIZE` -/
def pipeSize : Nat := 0x1000

/-- `struct pipe_data`, but for its lock, its counts of users and its files. -/
structure PipeData where
  buffer : Memory
  size : Nat
  readPos : Nat
  writePos : Nat

/-- The `pipe_data` that `pipe` sets up in the zeroed memory of `kcalloc`. -/
def pipe : PipeData where
  buffer := fun _ => 0
  size := pipeSize
  readPos := 0
  writePos := 0

/-- A section of `pipe_read`: the value it returns, the bytes it puts in the buffer of
the caller and the pipe it leaves, or `none` when it unlocks an empty pipe to wait. -/
def readSection (d : PipeData) (nbyte : Nat) : Option (Nat × List UInt8 × PipeData) :=
  if d.readPos ≥ d.writePos then none
  else
    let bytes := min (d.writePos - d.readPos) nbyte
    let bufPos := d.readPos % d.size
    let n := min (d.size - bufPos) bytes
    let buf := d.buffer.read bufPos n ++ d.buffer.read 0 (bytes - n)
    some (bytes, buf, { d with readPos := (d.readPos + bytes) % 2 ^ 64 })

/-- The local variables of `pipe_write`, with the bytes of the buffer of the caller. -/
structure Writer where
  buf : List UInt8
  written : Nat
  nbyte : Nat

/-- The local variables at the call `pipe_write(file, buf, nbyte, offset)`. -/
def Writer.start (buf : List UInt8) : Writer where
  buf := buf
  written := 0
  nbyte := buf.length

/-- The bytes that one turn of the loop of `pipe_write` puts in the pipe. -/
def depositBytes (d : PipeData) (w : Writer) : Nat :=
  min ((d.size + 2 ^ 64 - (d.writePos + 2 ^ 64 - d.readPos) % 2 ^ 64) % 2 ^ 64) w.nbyte

/-- One turn of the loop of `pipe_write`, in a pipe that is not full. -/
def deposit (d : PipeData) (w : Writer) : PipeData × Writer :=
  let bytes := depositBytes d w
  let bufPos := d.writePos % d.size
  let n := min (d.size - bufPos) bytes
  let buffer := d.buffer.write bufPos ((w.buf.drop w.written).take n)
  let buffer := buffer.write 0 ((w.buf.drop (w.written + n)).take (bytes - n))
  ({ d with buffer := buffer, writePos := (d.writePos + bytes) % 2 ^ 64 },
    { w with nbyte := w.nbyte - bytes, written := (w.written + bytes) % 2 ^ 64 })

/-- A section of `pipe_write`: turns of its loop until the bytes are written or the pipe
is full.  The call returns at the end of a section with no bytes left. -/
def writeSection : Nat → PipeData → Writer → Option (PipeData × Writer)
  | 0, _, _ => none
  | fuel + 1, d, w =>
      if w.nbyte = 0 then some (d, w)
      else if d.writePos ≥ (d.readPos + d.size) % 2 ^ 64 then some (d, w)
      else
        let dw := deposit d w
        writeSection fuel dw.1 dw.2

/-! ### Runs -/

/-- A call of `pipe_read` or `pipe_write`, before, between and after its sections. -/
inductive Call where
  | idle
  | reading (nbyte : Nat)
  | readDone (nbyte : Nat) (buf : List UInt8) (ret : Nat)
  | writing (w : Writer)
  | writeDone (buf : List UInt8) (ret : Nat)

/-- A pipe with its calls.  `stream` and `delivered` record the bytes put in and taken
out by the sections so far, each with its call. -/
structure State (ι : Type u) where
  pipe : PipeData
  calls : ι → Call
  stream : List (ι × UInt8)
  delivered : List (ι × UInt8)

/-- What can happen: a call starts, or a call that has not returned gets the lock. -/
inductive Event (ι : Type u) where
  | read (i : ι) (nbyte : Nat)
  | write (i : ι) (buf : List UInt8)
  | lock (i : ι)

variable {ι : Type u} [DecidableEq ι]

/-- The effect of a section of the call `i`. -/
def runSection (s : State ι) (i : ι) : Option (State ι) :=
  match s.calls i with
  | .reading nbyte =>
      match readSection s.pipe nbyte with
      | none => some s
      | some (ret, buf, d) =>
          some { s with
            pipe := d
            calls := Function.update s.calls i (.readDone nbyte buf ret)
            delivered := s.delivered ++ buf.map (i, ·) }
  | .writing w =>
      match writeSection (w.nbyte + 1) s.pipe w with
      | none => none
      | some (d, w') =>
          let call := if w'.nbyte = 0 then .writeDone w'.buf w'.written else .writing w'
          let moved := (w.buf.drop w.written).take (w'.written - w.written)
          some { s with
            pipe := d
            calls := Function.update s.calls i call
            stream := s.stream ++ moved.map (i, ·) }
  | _ => none

/-- One step of a run. -/
def step (s : State ι) : Event ι → Option (State ι)
  | .read i nbyte =>
      match s.calls i with
      | .idle => some { s with calls := Function.update s.calls i (.reading nbyte) }
      | _ => none
  | .write i buf =>
      match s.calls i with
      | .idle =>
          if buf.length < 2 ^ 64 then
            some { s with calls := Function.update s.calls i (.writing (Writer.start buf)) }
          else none
      | _ => none
  | .lock i => runSection s i

/-- A new pipe without calls. -/
def start : State ι where
  pipe := pipe
  calls := fun _ => .idle
  stream := []
  delivered := []

/-- A state of a run that has put less than `2 ^ 64 - PIPE_SIZE` bytes in the pipe. -/
def Run (s : State ι) : Prop :=
  Reachable (· = start)
    (fun s s' => ∃ e, step s e = some s' ∧ s'.stream.length + pipeSize < 2 ^ 64) s

/-! ### The sections -/

/-- The pipe holds the part of the stream from the position read from on. -/
structure HoldsStream (d : PipeData) (stream : List UInt8) : Prop where
  size : d.size = pipeSize
  writePos : d.writePos = stream.length
  read_le : d.readPos ≤ d.writePos
  write_le : d.writePos ≤ d.readPos + d.size
  ring : Ring.Holds d.buffer d.size d.readPos (stream.drop d.readPos)

/-- The writer has its written bytes behind it and the others before it. -/
structure Writer.Ok (w : Writer) : Prop where
  bound : w.buf.length < 2 ^ 64
  split : w.written + w.nbyte = w.buf.length

/-- A new pipe holds the empty stream. -/
theorem holdsStream_pipe :
  HoldsStream pipe []
  := by
  constructor
  · rfl
  · rfl
  · exact Nat.le_refl 0
  · exact Nat.zero_le _
  · intro i hi
    simp at hi

/-- Moving the position read from forward leaves the rest of the stream in the pipe. -/
theorem HoldsStream.advance {d : PipeData} {stream : List UInt8} {k : Nat}
    (h : HoldsStream d stream) (hk : k ≤ d.writePos - d.readPos) :
  HoldsStream { d with readPos := d.readPos + k } stream
  := by
  have hread := h.read_le
  have hwrite := h.write_le
  constructor
  · exact h.size
  · exact h.writePos
  · show d.readPos + k ≤ d.writePos
    omega
  · show d.writePos ≤ d.readPos + k + d.size
    omega
  · show Ring.Holds d.buffer d.size (d.readPos + k) (stream.drop (d.readPos + k))
    rw [← List.drop_drop]
    exact h.ring.drop k

/-- A read that does not wait gets the bytes of the stream that come next. -/
theorem readSection_spec {d : PipeData} {stream : List UInt8} (nbyte : Nat)
    (h : HoldsStream d stream) (hbound : stream.length + pipeSize < 2 ^ 64)
    (hne : d.readPos < d.writePos) :
  ∃ bytes, bytes = min (d.writePos - d.readPos) nbyte
    ∧ readSection d nbyte
      = some (bytes, (stream.drop d.readPos).take bytes, { d with readPos := d.readPos + bytes })
  := by
  refine ⟨min (d.writePos - d.readPos) nbyte, rfl, ?_⟩
  have hlen := h.writePos
  have hle := h.write_le
  rw [pipeSize] at hbound
  have hbytes : min (d.writePos - d.readPos) nbyte ≤ (stream.drop d.readPos).length := by
    rw [List.length_drop]
    omega
  have hfit : (stream.drop d.readPos).length ≤ d.size := by
    rw [List.length_drop]
    omega
  have hcopy := h.ring.copyOut hbytes hfit
  rw [Ring.copyOut] at hcopy
  simp only [readSection, ge_iff_le]
  rw [if_neg (by omega), hcopy, Nat.mod_eq_of_lt (by omega)]

/-- In a pipe that holds its stream, a turn of the loop of `pipe_write` puts in what
fits. -/
theorem depositBytes_eq {d : PipeData} {stream : List UInt8} (h : HoldsStream d stream)
    (w : Writer) :
  depositBytes d w = min (d.readPos + d.size - d.writePos) w.nbyte
  := by
  have := h.writePos
  have := h.read_le
  have := h.write_le
  have hsize := h.size
  rw [pipeSize] at hsize
  rw [depositBytes]
  omega

theorem deposit_size (d : PipeData) (w : Writer) :
  (deposit d w).1.size = d.size
  := by
  obtain ⟨buffer, size, readPos, writePos⟩ := d
  rfl

theorem deposit_readPos (d : PipeData) (w : Writer) :
  (deposit d w).1.readPos = d.readPos
  := by
  obtain ⟨buffer, size, readPos, writePos⟩ := d
  rfl

theorem deposit_writePos (d : PipeData) (w : Writer) :
  (deposit d w).1.writePos = (d.writePos + depositBytes d w) % 2 ^ 64
  := by
  simp only [deposit]

theorem deposit_writer (d : PipeData) (w : Writer) :
  (deposit d w).2 =
    { w with
      nbyte := w.nbyte - depositBytes d w
      written := (w.written + depositBytes d w) % 2 ^ 64 }
  := by
  simp only [deposit]

/-- The two blocks a turn copies are those of one copy into the ring. -/
theorem deposit_buffer (d : PipeData) (w : Writer)
    (h : depositBytes d w ≤ w.buf.length - w.written) :
  (deposit d w).1.buffer
    = Ring.copyIn d.buffer d.size d.writePos ((w.buf.drop w.written).take (depositBytes d w))
  := by
  have hlen : ((w.buf.drop w.written).take (depositBytes d w)).length = depositBytes d w := by
    rw [List.length_take, List.length_drop]
    omega
  simp only [deposit, Ring.copyIn, hlen]
  rw [List.take_take, List.drop_take, List.drop_drop, Nat.min_assoc, Nat.min_self]

/-- A turn of the loop of `pipe_write` extends the stream by what fits. -/
theorem deposit_spec {d : PipeData} {stream : List UInt8} {w : Writer} {bytes : Nat}
    (h : HoldsStream d stream) (hw : w.Ok) (hbound : stream.length + pipeSize < 2 ^ 64)
    (hbytes : bytes = min (d.readPos + d.size - d.writePos) w.nbyte) :
  HoldsStream (deposit d w).1 (stream ++ (w.buf.drop w.written).take bytes)
    ∧ (deposit d w).2 = { w with written := w.written + bytes, nbyte := w.nbyte - bytes }
    ∧ (deposit d w).1.writePos = d.writePos + bytes
  := by
  have hdeposit : depositBytes d w = bytes := (depositBytes_eq h w).trans hbytes.symm
  have hsplit := hw.split
  have hbuf := hw.bound
  have hread := h.read_le
  have hwrite := h.write_le
  have hpos := h.writePos
  have hsize := h.size
  rw [pipeSize] at hsize hbound
  have hlen : ((w.buf.drop w.written).take bytes).length = bytes := by
    rw [List.length_take, List.length_drop]
    omega
  have hwritePos : (deposit d w).1.writePos = d.writePos + bytes := by
    rw [deposit_writePos, hdeposit]
    omega
  refine ⟨?_, ?_, hwritePos⟩
  · constructor
    · rw [deposit_size, h.size]
    · rw [hwritePos, List.length_append, hlen, hpos]
    · rw [hwritePos, deposit_readPos]
      omega
    · rw [hwritePos, deposit_readPos, deposit_size]
      omega
    · rw [deposit_readPos, deposit_size, deposit_buffer d w (by omega), hdeposit,
        List.drop_append_of_le_length (by omega)]
      have hend : d.writePos = d.readPos + (stream.drop d.readPos).length := by
        rw [List.length_drop]
        omega
      rw [hend]
      apply h.ring.copyIn
      rw [hlen, List.length_drop]
      omega
  · rw [deposit_writer, hdeposit, Nat.mod_eq_of_lt (by omega)]

/-- A section of `pipe_write` puts in what fits and ends: it never runs out of turns. -/
theorem writeSection_spec {d : PipeData} {stream : List UInt8} {w : Writer}
    (h : HoldsStream d stream) (hw : w.Ok) (hbound : stream.length + pipeSize < 2 ^ 64) :
  ∃ d' bytes, bytes = min (d.readPos + d.size - d.writePos) w.nbyte
    ∧ writeSection (w.nbyte + 1) d w
        = some (d', { w with written := w.written + bytes, nbyte := w.nbyte - bytes })
    ∧ HoldsStream d' (stream ++ (w.buf.drop w.written).take bytes)
    ∧ d'.readPos = d.readPos
  := by
  obtain ⟨bytes, hbytes⟩ : ∃ bytes, bytes = min (d.readPos + d.size - d.writePos) w.nbyte :=
    ⟨_, rfl⟩
  have hturn := deposit_spec h hw hbound hbytes
  have hread := h.read_le
  have hwrite := h.write_le
  have hpos := h.writePos
  have hsize := h.size
  rw [pipeSize] at hsize hbound
  by_cases hstop : bytes = 0
  · -- nothing to write, or no room: the section ends at once
    refine ⟨d, 0, hstop ▸ hbytes, ?_, by simpa using h, rfl⟩
    rw [writeSection, Nat.add_zero, Nat.sub_zero]
    by_cases hn : w.nbyte = 0
    · rw [if_pos hn]
    · rw [if_neg hn, if_pos (by omega)]
  · -- one turn, after which nothing is left or the pipe is full
    obtain ⟨hd', hw', hwrite'⟩ := hturn
    obtain ⟨n, hn⟩ : ∃ n, w.nbyte + 1 = n + 2 := ⟨w.nbyte - 1, by omega⟩
    refine ⟨(deposit d w).1, bytes, hbytes, ?_, hd', deposit_readPos d w⟩
    rw [hn, writeSection, if_neg (by omega), if_neg (by omega)]
    simp only [writeSection, deposit_readPos, deposit_size, hwrite', hw']
    by_cases hleft : w.nbyte - bytes = 0
    · rw [if_pos hleft]
    · rw [if_neg hleft, if_pos (by omega)]

/-- What fits in an empty pipe is written at once, and a read that follows gets it. -/
theorem write_then_read {d : PipeData} {stream buf : List UInt8} {nbyte : Nat}
    (h : HoldsStream d stream) (hempty : d.readPos = d.writePos)
    (hbound : stream.length + 2 * pipeSize < 2 ^ 64) (hne : buf ≠ [])
    (hfit : buf.length ≤ pipeSize) (hroom : buf.length ≤ nbyte) :
  ∃ d' d'', writeSection (buf.length + 1) d (Writer.start buf)
      = some (d', { buf := buf, written := buf.length, nbyte := 0 })
    ∧ readSection d' nbyte = some (buf.length, buf, d'')
  := by
  have hpos := h.writePos
  have hsize := h.size
  have hbufpos := List.length_pos_iff.mpr hne
  rw [pipeSize] at hbound hfit hsize
  have hok : (Writer.start buf).Ok := ⟨by simp only [Writer.start]; omega, Nat.zero_add _⟩
  obtain ⟨d', bytes, hbytes, hwrite, hholds, hread⟩ :=
    writeSection_spec h hok (by rw [pipeSize]; omega)
  obtain rfl : bytes = buf.length := by
    rw [hbytes, Writer.start]
    simp only
    omega
  have hstream : stream ++ ((Writer.start buf).buf.drop (Writer.start buf).written).take buf.length
      = stream ++ buf := by
    rw [Writer.start, List.drop_zero, List.take_length]
  rw [hstream] at hholds
  have hpos' := hholds.writePos
  rw [List.length_append] at hpos'
  obtain ⟨n, hn, hsection⟩ := readSection_spec nbyte hholds
    (by rw [List.length_append, pipeSize]; omega) (by omega)
  obtain rfl : n = buf.length := by omega
  refine ⟨d', { d' with readPos := d'.readPos + buf.length }, ?_, ?_⟩
  · simpa [Writer.start] using hwrite
  · have hdrop : (stream ++ buf).drop d'.readPos = buf := by
      rw [hread, hempty, hpos, List.drop_left]
    rw [hsection, hdrop, List.take_length]

/-! ### The invariant -/

/-- The bytes of a record that belong to the call `i`. -/
def bytesOf (i : ι) (l : List (ι × UInt8)) : List UInt8 :=
  (l.filter fun b => decide (b.1 = i)).map Prod.snd

@[simp]
theorem bytesOf_nil (i : ι) :
  bytesOf i [] = []
  := rfl

theorem bytesOf_append_same (i : ι) (l : List (ι × UInt8)) (buf : List UInt8) :
  bytesOf i (l ++ buf.map (i, ·)) = bytesOf i l ++ buf
  := by
  simp [bytesOf, List.filter_map, Function.comp_def]

theorem bytesOf_append_other {i j : ι} (hne : j ≠ i) (l : List (ι × UInt8)) (buf : List UInt8) :
  bytesOf j (l ++ buf.map (i, ·)) = bytesOf j l
  := by
  simp [bytesOf, List.filter_map, Function.comp_def, hne.symm]

/-- What a call has put in the pipe and got from it. -/
def CallOk : Call → List UInt8 → List UInt8 → Prop
  | .idle, sent, received => sent = [] ∧ received = []
  | .reading _, sent, received => sent = [] ∧ received = []
  | .readDone nbyte buf ret, sent, received =>
      sent = [] ∧ received = buf ∧ ret = buf.length ∧ ret ≤ nbyte
  | .writing w, sent, received => w.Ok ∧ sent = w.buf.take w.written ∧ received = []
  | .writeDone buf ret, sent, received => sent = buf ∧ ret = buf.length ∧ received = []

/-- The pipe is a FIFO, and every call has got and put in what it should have. -/
structure Inv (s : State ι) : Prop where
  bound : s.stream.length + pipeSize < 2 ^ 64
  holds : HoldsStream s.pipe (s.stream.map Prod.snd)
  readPos : s.pipe.readPos = s.delivered.length
  delivered : s.delivered.map Prod.snd = (s.stream.map Prod.snd).take s.pipe.readPos
  calls : ∀ i, CallOk (s.calls i) (bytesOf i s.stream) (bytesOf i s.delivered)

theorem start_inv :
  Inv (start : State ι)
  := by
  constructor
  · show 0 + pipeSize < 2 ^ 64
    decide
  · exact holdsStream_pipe
  · rfl
  · rfl
  · intro i
    exact ⟨rfl, rfl⟩

/-- Changing one call, and adding to the records of that call only, keeps the other
calls. -/
theorem Inv.update_call {s : State ι} (h : Inv s) (i : ι) (call : Call) (put got : List UInt8)
    (hcall : CallOk call (bytesOf i s.stream ++ put) (bytesOf i s.delivered ++ got)) :
  ∀ j, CallOk (Function.update s.calls i call j) (bytesOf j (s.stream ++ put.map (i, ·)))
    (bytesOf j (s.delivered ++ got.map (i, ·)))
  := by
  intro j
  by_cases hj : j = i
  · subst hj
    rw [Function.update_self, bytesOf_append_same, bytesOf_append_same]
    exact hcall
  · rw [Function.update_of_ne hj, bytesOf_append_other hj, bytesOf_append_other hj]
    exact h.calls j

/-- A call starts with nothing put in or got. -/
theorem Inv.start_call {s : State ι} (h : Inv s) {i : ι} {call : Call}
    (hidle : s.calls i = .idle) (hcall : CallOk call [] []) :
  Inv { s with calls := Function.update s.calls i call }
  := by
  have hi := h.calls i
  rw [hidle] at hi
  obtain ⟨hput, hgot⟩ := hi
  constructor
  · exact h.bound
  · exact h.holds
  · exact h.readPos
  · exact h.delivered
  · have hcalls := h.update_call i call [] [] (by simpa [hput, hgot] using hcall)
    simpa using hcalls

/-- A section of `pipe_read` keeps the invariant. -/
theorem Inv.read {s : State ι} (h : Inv s) {i : ι} {nbyte ret : Nat} {buf : List UInt8}
    {d : PipeData} (hcall : s.calls i = .reading nbyte)
    (hsection : readSection s.pipe nbyte = some (ret, buf, d)) :
  Inv { s with
    pipe := d
    calls := Function.update s.calls i (.readDone nbyte buf ret)
    delivered := s.delivered ++ buf.map (i, ·) }
  := by
  have hne : s.pipe.readPos < s.pipe.writePos := by
    by_contra hempty
    rw [readSection, if_pos (by omega)] at hsection
    cases hsection
  have hbound : (s.stream.map Prod.snd).length + pipeSize < 2 ^ 64 := by
    rw [List.length_map]
    exact h.bound
  obtain ⟨bytes, hmin, hspec⟩ := readSection_spec nbyte h.holds hbound hne
  have hbytes : bytes ≤ s.pipe.writePos - s.pipe.readPos := by omega
  have hn : bytes ≤ nbyte := by omega
  rw [hsection] at hspec
  obtain ⟨rfl, rfl, rfl⟩ := hspec
  have hlen : (((s.stream.map Prod.snd).drop s.pipe.readPos).take ret).length = ret := by
    have hpos := h.holds.writePos
    rw [List.length_take, List.length_drop]
    omega
  have hi := h.calls i
  rw [hcall] at hi
  obtain ⟨hput, hgot⟩ := hi
  constructor
  · exact h.bound
  · exact h.holds.advance hbytes
  · show s.pipe.readPos + ret = _
    rw [List.length_append, List.length_map, hlen, h.readPos]
  · show _ = (s.stream.map Prod.snd).take (s.pipe.readPos + ret)
    rw [List.map_append, h.delivered, List.take_add]
    simp [Function.comp_def]
  · have hcalls := h.update_call i
      (.readDone nbyte (((s.stream.map Prod.snd).drop s.pipe.readPos).take ret) ret) []
      (((s.stream.map Prod.snd).drop s.pipe.readPos).take ret)
      ⟨by rw [hput, List.nil_append], by rw [hgot, List.nil_append], hlen.symm, hn⟩
    simpa using hcalls

/-- A section of `pipe_write` ends and keeps the invariant. -/
theorem Inv.write {s : State ι} (h : Inv s) {i : ι} {w : Writer} (hcall : s.calls i = .writing w) :
  ∃ d w', writeSection (w.nbyte + 1) s.pipe w = some (d, w')
    ∧ ∀ s', s' = { s with
        pipe := d
        calls := Function.update s.calls i
          (if w'.nbyte = 0 then .writeDone w'.buf w'.written else .writing w')
        stream := s.stream ++ ((w.buf.drop w.written).take (w'.written - w.written)).map (i, ·) }
      → s'.stream.length + pipeSize < 2 ^ 64 → Inv s'
  := by
  have hi := h.calls i
  rw [hcall] at hi
  obtain ⟨hw, hput, hgot⟩ := hi
  have hbound : (s.stream.map Prod.snd).length + pipeSize < 2 ^ 64 := by
    rw [List.length_map]
    exact h.bound
  obtain ⟨d, bytes, hmin, hsection, hholds, hread⟩ := writeSection_spec h.holds hw hbound
  have hbytes : bytes ≤ w.nbyte := hmin ▸ Nat.min_le_right _ _
  refine ⟨d, _, hsection, ?_⟩
  rintro s' rfl hbound'
  have hsplit := hw.split
  have hbuf := hw.bound
  have hstream : ∀ l : List UInt8, (s.stream ++ l.map (i, ·)).map Prod.snd
      = s.stream.map Prod.snd ++ l := by
    intro l
    simp [Function.comp_def]
  simp only [Nat.add_sub_cancel_left] at hbound' ⊢
  constructor
  · exact hbound'
  · simp only [hstream]
    exact hholds
  · simp only [hread]
    exact h.readPos
  · simp only [hread, hstream]
    rw [List.take_append_of_le_length, h.delivered]
    rw [← h.holds.writePos]
    exact h.holds.read_le
  · have hsent : w.buf.take w.written ++ (w.buf.drop w.written).take bytes
        = w.buf.take (w.written + bytes) := List.take_add.symm
    have hcalls := h.update_call i
      (if w.nbyte - bytes = 0 then .writeDone w.buf (w.written + bytes)
        else .writing { w with written := w.written + bytes, nbyte := w.nbyte - bytes })
      ((w.buf.drop w.written).take bytes) []
      (by
        rw [hput, hgot, hsent, List.append_nil]
        split_ifs with hdone
        · have hall : w.written + bytes = w.buf.length := by
            omega
          exact ⟨List.take_of_length_le (by omega), hall, rfl⟩
        · exact ⟨⟨hbuf, by simp only; omega⟩, rfl, rfl⟩)
    simpa using hcalls

/-- Every step of a run keeps the invariant. -/
theorem Inv.step {s s' : State ι} (h : Inv s) {e : Event ι} (hstep : Pipe.step s e = some s')
    (hbound : s'.stream.length + pipeSize < 2 ^ 64) :
  Inv s'
  := by
  cases e with
  | read i nbyte =>
      simp only [Pipe.step] at hstep
      split at hstep
      next hidle =>
        cases hstep
        exact h.start_call hidle ⟨rfl, rfl⟩
      next => cases hstep
  | write i buf =>
      simp only [Pipe.step] at hstep
      split at hstep
      next hidle =>
        split_ifs at hstep with hlen
        cases hstep
        exact h.start_call hidle ⟨⟨hlen, Nat.zero_add _⟩, rfl, rfl⟩
      next => cases hstep
  | lock i =>
      simp only [Pipe.step, runSection] at hstep
      split at hstep
      next nbyte hcall =>
        split at hstep
        next =>
          cases hstep
          exact h
        next ret buf d hsection =>
          cases hstep
          exact h.read hcall hsection
      next w hcall =>
        obtain ⟨d, w', hsection, hinv⟩ := h.write hcall
        rw [hsection] at hstep
        exact hinv s' (Option.some.inj hstep).symm hbound
      next => cases hstep

/-- The invariant holds in every state of a run. -/
theorem Run.inv {s : State ι} (h : Run s) :
  Inv s
  := by
  refine Reachable.invariant ?_ ?_ h
  · rintro s rfl
    exact start_inv
  · rintro s s' hs ⟨e, hstep, hbound⟩
    exact hs.step hstep hbound

/-- A call that has not returned can always take the lock: its section ends. -/
theorem Run.lock {s : State ι} (h : Run s) {i : ι}
    (hcall : (∃ nbyte, s.calls i = .reading nbyte) ∨ ∃ w, s.calls i = .writing w) :
  ∃ s', step s (.lock i) = some s'
  := by
  obtain ⟨nbyte, hcall⟩ | ⟨w, hcall⟩ := hcall
  · simp only [step, runSection, hcall]
    split
    · exact ⟨_, rfl⟩
    · exact ⟨_, rfl⟩
  · obtain ⟨d, w', hsection, -⟩ := h.inv.write hcall
    simp only [step, runSection, hcall, hsection]
    exact ⟨_, rfl⟩

/-- The pipe is a FIFO under every interleaving: the positions never cross and are never
further apart than the size of the ring, the bytes read are the bytes written up to the
position read from, and a call that has returned has put in, or got, its bytes in order
and nothing else. -/
theorem fifo_of_run {s : State ι} (h : Run s) :
  s.pipe.readPos ≤ s.pipe.writePos
    ∧ s.pipe.writePos ≤ s.pipe.readPos + s.pipe.size
    ∧ s.stream.length = s.pipe.writePos
    ∧ s.delivered.length = s.pipe.readPos
    ∧ s.delivered.map Prod.snd = (s.stream.map Prod.snd).take s.pipe.readPos
    ∧ (∀ i buf ret, s.calls i = .writeDone buf ret →
        ret = buf.length ∧ bytesOf i s.stream = buf)
    ∧ (∀ i nbyte buf ret, s.calls i = .readDone nbyte buf ret →
        ret = buf.length ∧ ret ≤ nbyte ∧ bytesOf i s.delivered = buf)
  := by
  have hinv := h.inv
  refine ⟨hinv.holds.read_le, hinv.holds.write_le, ?_, hinv.readPos.symm, hinv.delivered, ?_, ?_⟩
  · rw [hinv.holds.writePos, List.length_map]
  · intro i buf ret hcall
    have hi := hinv.calls i
    rw [hcall] at hi
    exact ⟨hi.2.1, hi.1⟩
  · intro i nbyte buf ret hcall
    have hi := hinv.calls i
    rw [hcall] at hi
    exact ⟨hi.2.2.1, hi.2.2.2, hi.2.1⟩

/-- Call `0` writes three bytes and call `1` reads two of them. -/
theorem fifo_of_run_two_calls :
  ∃ s : State Nat, [.write 0 [7, 8, 9], .lock 0, .read 1 2, .lock 1].foldlM step start = some s
    ∧ s.calls 0 = .writeDone [7, 8, 9] 3
    ∧ bytesOf 0 s.stream = [7, 8, 9]
    ∧ s.delivered.map Prod.snd = [7, 8]
  := by
  obtain ⟨s, hs, hcall, hread, hstream⟩ :
      ∃ s : State Nat, [.write 0 [7, 8, 9], .lock 0, .read 1 2, .lock 1].foldlM step start = some s
        ∧ s.calls 0 = .writeDone [7, 8, 9] 3 ∧ s.pipe.readPos = 2
        ∧ s.stream.map Prod.snd = [7, 8, 9] :=
    ⟨_, rfl, rfl, rfl, rfl⟩
  refine ⟨s, hs, hcall, ?_⟩
  have hrun : Run s := by
    obtain rfl := Option.some.inj hs
    refine .next (.next (.next (.next (.start rfl)
      ⟨.write 0 [7, 8, 9], rfl, ?_⟩) ⟨.lock 0, rfl, ?_⟩) ⟨.read 1 2, rfl, ?_⟩) ⟨.lock 1, rfl, ?_⟩
    all_goals decide
  obtain ⟨-, -, -, -, hdelivered, hwrites, -⟩ := fifo_of_run hrun
  constructor
  · exact (hwrites 0 _ _ hcall).2
  · rw [hdelivered, hstream, hread]
    rfl

end Pipe
