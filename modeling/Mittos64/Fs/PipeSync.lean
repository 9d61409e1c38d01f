import Mittos64.Cpu.SyncRuns
import Mittos64.Fs.Pipe

/-!
# Pipes of several processors

The sections of `pipe_read` and `pipe_write` of `fs/pipe.c`, load by load and store by store, between
`spin_lock` and `spin_unlock`.  On any number of processors, whatever the order of their loads and
stores and of the stores that leave their buffers, the sections of a pipe work on a queue of at most
`PIPE_SIZE` bytes, one section at a time, up to where nearly `2 ^ 64` bytes have been put in.
-/

open Tso

namespace Pipe

/-! ### The code -/

/-- The fields of `struct pipe_data` that are used with its lock, and the bytes of its buffer. -/
inductive Field where
  | size
  | readPos
  | writePos
  | buffer (i : Nat)
  deriving DecidableEq

/-- The values of the fields. -/
abbrev Field.Val : Field → Type
  | .size => Nat
  | .readPos => Nat
  | .writePos => Nat
  | .buffer _ => UInt8

/-- Programs of loads and stores of the fields. -/
abbrev PipeCode : Type → Type := Code Field.Val

/-- `d->size`, `d->read_pos` and `d->write_pos` -/
def loadSize : PipeCode Nat := Code.read Field.size
def loadReadPos : PipeCode Nat := Code.read Field.readPos
def loadWritePos : PipeCode Nat := Code.read Field.writePos

/-- The loads of a `memcpy` of `n` bytes from `&d->buffer[i]`. -/
def loadBytes (i : Nat) : Nat → PipeCode (List UInt8)
  | 0 => pure []
  | n + 1 => do
      let b ← Code.read (.buffer i)
      return b :: (← loadBytes (i + 1) n)

/-- The stores of a `memcpy` to `&d->buffer[i]`. -/
def storeBytes (i : Nat) : List UInt8 → PipeCode PUnit
  | [] => pure ⟨⟩
  | b :: bs => do
      Code.write (.buffer i) b
      storeBytes (i + 1) bs

/-- What a section returns: `pipe_read` has to wait, or returns with these bytes; or the local
variables of `pipe_write`, which returns when no bytes are left. -/
inductive Res where
  | wait
  | got (ret : Nat) (buf : List UInt8)
  | writer (w : Writer)

/-- The copies of `pipe_read`, of `n` bytes before the end of the buffer and the others behind it. -/
def copyOut (bufPos n bytes : Nat) : PipeCode (List UInt8) := do
  let first ← loadBytes bufPos n
  if bytes - n ≠ 0 then
    return first ++ (← loadBytes 0 (bytes - n))
  else
    return first

/-- A section of `pipe_read`. -/
def readCode (nbyte : Nat) : PipeCode Res := do
  if (← loadReadPos) ≥ (← loadWritePos) then
    return .wait
  else
    let bytes := min ((← loadWritePos) - (← loadReadPos)) nbyte
    let bufPos := (← loadReadPos) % (← loadSize)
    let n := min ((← loadSize) - bufPos) bytes
    let buf ← copyOut bufPos n bytes
    Code.write .readPos (((← loadReadPos) + bytes) % 2 ^ 64)
    return .got bytes buf

/-- The copies of `pipe_write`, in the same way. -/
def copyIn (w : Writer) (bufPos n bytes : Nat) : PipeCode PUnit := do
  storeBytes bufPos ((w.buf.drop w.written).take n)
  if bytes - n ≠ 0 then
    storeBytes 0 ((w.buf.drop (w.written + n)).take (bytes - n))

/-- A turn of the loop of `pipe_write` in a pipe that is not full. -/
def depositCode (w : Writer) : PipeCode Writer := do
  let used := ((← loadWritePos) + 2 ^ 64 - (← loadReadPos)) % 2 ^ 64
  let bytes := min (((← loadSize) + 2 ^ 64 - used) % 2 ^ 64) w.nbyte
  let bufPos := (← loadWritePos) % (← loadSize)
  let n := min ((← loadSize) - bufPos) bytes
  copyIn w bufPos n bytes
  Code.write .writePos (((← loadWritePos) + bytes) % 2 ^ 64)
  return { w with nbyte := w.nbyte - bytes, written := (w.written + bytes) % 2 ^ 64 }

/-- A section of `pipe_write`, for `fuel` turns of its loop. -/
def writeCode : Nat → Writer → PipeCode Res
  | 0, w => return .writer w
  | fuel + 1, w => do
      if w.nbyte = 0 then
        return .writer w
      else if (← loadWritePos) ≥ ((← loadReadPos) + (← loadSize)) % 2 ^ 64 then
        return .writer w
      else
        writeCode fuel (← depositCode w)

/-- A section of `pipe_read(file, buffer, nbyte, offset)`, or of a call of `pipe_write` that has come
to these local variables. -/
inductive Section where
  | read (nbyte : Nat)
  | write (w : Writer) (ok : w.Ok)

/-- What is done between `spin_lock` and `spin_unlock`. -/
def body : Section → PipeCode Res
  | .read nbyte => readCode nbyte
  | .write w _ => writeCode (w.nbyte + 1) w

/-! ### What the code does when nothing comes in between -/

/-- The values of the fields of a pipe. -/
def PipeData.fields (d : PipeData) : ∀ a, Field.Val a
  | .size => d.size
  | .readPos => d.readPos
  | .writePos => d.writePos
  | .buffer i => d.buffer i

section Run

variable (d : PipeData)

@[simp]
theorem run_loadSize : loadSize.run d.fields = (d.size, d.fields) := rfl

@[simp]
theorem run_loadReadPos : loadReadPos.run d.fields = (d.readPos, d.fields) := rfl

@[simp]
theorem run_loadWritePos : loadWritePos.run d.fields = (d.writePos, d.fields) := rfl

@[simp]
theorem run_loadBytes (i n : Nat) :
  (loadBytes i n).run d.fields = (d.buffer.read i n, d.fields)
  := by
  induction n generalizing i with
  | zero => rfl
  | succ n ih =>
      have hfirst : d.buffer.read i (n + 1) = d.buffer i :: d.buffer.read (i + 1) n := by
        rw [Nat.add_comm, Memory.read_add]
        rfl
      rw [loadBytes, Code.run_bind, Code.run_read, Code.run_bind, ih, Code.run_pure, hfirst]
      rfl

/-- A store to one field. -/
theorem run_write_fields {a : Field} {v : Field.Val a} {d' : PipeData} (hself : d'.fields a = v)
    (hother : ∀ b, b ≠ a → d'.fields b = d.fields b) :
  (Code.write a v).run d.fields = (⟨⟩, d'.fields)
  := by
  rw [Code.run_write]
  congr 1
  funext b
  by_cases hb : b = a
  · subst hb
    rw [Function.update_self, hself]
  · rw [Function.update_of_ne hb, hother b hb]

@[simp]
theorem run_storeReadPos (pos : Nat) :
  (Code.write .readPos pos).run d.fields = (⟨⟩, { d with readPos := pos }.fields)
  := by
  apply run_write_fields
  · rfl
  · intro b hb
    cases b with
    | readPos => exact absurd rfl hb
    | size => rfl
    | writePos => rfl
    | buffer i => rfl

@[simp]
theorem run_storeWritePos (pos : Nat) :
  (Code.write .writePos pos).run d.fields = (⟨⟩, { d with writePos := pos }.fields)
  := by
  apply run_write_fields
  · rfl
  · intro b hb
    cases b with
    | writePos => exact absurd rfl hb
    | size => rfl
    | readPos => rfl
    | buffer i => rfl

theorem run_storeByte (i : Nat) (b : UInt8) :
  (Code.write (.buffer i) b).run d.fields
    = (⟨⟩, { d with buffer := d.buffer.write i [b] }.fields)
  := by
  apply run_write_fields
  · exact Memory.write_apply_of_lt (l := [b]) (i := 0) d.buffer (Nat.lt_succ_self 0)
  · intro c hc
    cases c with
    | size => rfl
    | readPos => rfl
    | writePos => rfl
    | buffer j =>
        have hj : j ≠ i := fun h => hc (congrArg Field.buffer h)
        apply Memory.write_of_notMem
        rw [List.length_singleton]
        omega

theorem write_nil (m : Memory) (i : Nat) : m.write i [] = m := by
  funext x
  apply Memory.write_of_notMem
  rw [List.length_nil]
  omega

@[simp]
theorem run_storeBytes (i : Nat) (bs : List UInt8) :
  (storeBytes i bs).run d.fields = (⟨⟩, { d with buffer := d.buffer.write i bs }.fields)
  := by
  induction bs generalizing i d with
  | nil =>
      rw [write_nil]
      rfl
  | cons b bs ih =>
      have hsplit := Memory.write_append d.buffer i [b] bs
      rw [List.singleton_append, List.length_singleton] at hsplit
      rw [storeBytes, Code.run_bind, run_storeByte, ih, hsplit]

@[simp]
theorem run_copyOut (bufPos n bytes : Nat) :
  (copyOut bufPos n bytes).run d.fields
    = (d.buffer.read bufPos n ++ d.buffer.read 0 (bytes - n), d.fields)
  := by
  rw [copyOut, Code.run_bind, run_loadBytes]
  split_ifs with hrest
  · rw [Code.run_bind, run_loadBytes, Code.run_pure]
  · have hnone : d.buffer.read 0 (bytes - n) = [] := by
      rw [not_not.mp hrest]
      rfl
    rw [Code.run_pure, hnone, List.append_nil]

/-- The loads and stores of a section of `pipe_read` do what it does in the model of the pipe. -/
theorem run_readCode (nbyte : Nat) :
  (readCode nbyte).run d.fields =
    match readSection d nbyte with
    | none => (.wait, d.fields)
    | some (ret, buf, d') => (.got ret buf, d'.fields)
  := by
  rw [readCode, Code.run_bind, run_loadReadPos, Code.run_bind, run_loadWritePos, readSection]
  split_ifs with hempty
  · rfl
  · simp only [Code.run_bind, run_loadReadPos, run_loadWritePos, run_loadSize, run_copyOut,
      run_storeReadPos, Code.run_pure]

@[simp]
theorem run_copyIn (w : Writer) (bufPos n bytes : Nat) :
  (copyIn w bufPos n bytes).run d.fields
    = (⟨⟩, { d with
        buffer := ((d.buffer.write bufPos ((w.buf.drop w.written).take n)).write 0
          ((w.buf.drop (w.written + n)).take (bytes - n))) }.fields)
  := by
  rw [copyIn, Code.run_bind, run_storeBytes]
  split_ifs with hrest
  · rw [run_storeBytes]
  · rw [Code.run_pure, not_not.mp hrest, List.take_zero, write_nil]

theorem run_depositCode (w : Writer) :
  (depositCode w).run d.fields = ((deposit d w).2, (deposit d w).1.fields)
  := by
  simp only [depositCode, Code.run_bind, run_loadReadPos, run_loadWritePos, run_loadSize,
    run_copyIn, run_storeWritePos, Code.run_pure]
  rfl

/-- The loads and stores of a section of `pipe_write` do what it does in the model of the pipe. -/
theorem run_writeCode {fuel : Nat} {w w' : Writer} {d d' : PipeData}
    (h : writeSection fuel d w = some (d', w')) :
  (writeCode fuel w).run d.fields = (.writer w', d'.fields)
  := by
  induction fuel generalizing d w with
  | zero => cases h
  | succ fuel ih =>
      rw [writeSection] at h
      rw [writeCode]
      split_ifs at h ⊢ with hdone hfull
      · obtain ⟨rfl, rfl⟩ := Prod.mk.inj (Option.some.inj h)
        rfl
      · obtain ⟨rfl, rfl⟩ := Prod.mk.inj (Option.some.inj h)
        rw [Code.run_bind, run_loadWritePos, Code.run_bind, run_loadReadPos, Code.run_bind,
          run_loadSize, if_pos hfull]
        rfl
      · rw [Code.run_bind, run_loadWritePos, Code.run_bind, run_loadReadPos, Code.run_bind,
          run_loadSize, if_neg hfull, Code.run_bind, run_depositCode]
        exact ih h

end Run

/-! ### A queue of bytes -/

section Queue

variable (ι : Type)

/-- A queue of bytes, with the number of bytes that have been put in, and the processors that work
on it. -/
structure Bytes where
  queue : List UInt8
  put : Nat
  status : ι → Sync.Status Section Res

end Queue

/-- The empty queue before the first call. -/
def Bytes.start {ι : Type} : Bytes ι where
  queue := []
  put := 0
  status := fun _ => .idle

/-- The bytes that a call of `pipe_write` puts in a queue that has `length` bytes. -/
def Writer.fitting (w : Writer) (length : Nat) : Nat :=
  min (pipeSize - length) w.nbyte

/-- A call of `pipe_write` after these bytes. -/
def Writer.after (w : Writer) (bytes : Nat) : Writer :=
  { w with written := w.written + bytes, nbyte := w.nbyte - bytes }

variable {ι : Type} [DecidableEq ι]

/-- The steps of a queue of at most `PIPE_SIZE` bytes: a read waits while it is empty and takes bytes
from its front, a write puts what fits at its end. -/
inductive Bytes.Step : Bytes ι → Option (Sync.Event ι Section Res) → Bytes ι → Prop where
  | call {f : Bytes ι} {i : ι} (c : Section) : f.status i = .idle →
      Step f (some (.call i c)) { f with status := Function.update f.status i (.called c) }
  | wait {f : Bytes ι} {i : ι} {nbyte : Nat} : f.status i = .called (.read nbyte) →
      f.queue = [] →
      Step f none { f with status := Function.update f.status i (.finished .wait) }
  | read {f : Bytes ι} {i : ι} {nbyte : Nat} : f.status i = .called (.read nbyte) →
      f.queue ≠ [] →
      Step f none ⟨f.queue.drop (min f.queue.length nbyte), f.put, Function.update f.status i
        (.finished (.got (min f.queue.length nbyte) (f.queue.take (min f.queue.length nbyte))))⟩
  | write {f : Bytes ι} {i : ι} {w : Writer} {ok : w.Ok} : f.status i = .called (.write w ok) →
      Step f none ⟨f.queue ++ (w.buf.drop w.written).take (w.fitting f.queue.length),
        f.put + w.fitting f.queue.length, Function.update f.status i
          (.finished (.writer (w.after (w.fitting f.queue.length))))⟩
  | ret {f : Bytes ι} {i : ι} {x : Res} : f.status i = .finished x →
      Step f (some (.ret i x)) { f with status := Function.update f.status i .idle }

/-- The positions of the pipe are about to leave the 64-bit numbers. -/
def Bytes.Full (f : Bytes ι) : Prop :=
  2 ^ 64 ≤ f.put + pipeSize

/-- The pipe in memory has the bytes of the queue, and its positions are far from the end of the
64-bit numbers. -/
structure BytesRel (t : Sync.Serial Field.Val ι Section Res) (f : Bytes ι) : Prop where
  status : f.status = t.status
  data : ∃ d stream, t.data = d.fields ∧ HoldsStream d stream ∧ f.queue = stream.drop d.readPos
    ∧ f.put = stream.length
  bound : ¬ f.Full

omit [DecidableEq ι] in
/-- A new pipe is an empty queue. -/
theorem bytesRel_start : BytesRel (Sync.Serial.start pipe.fields) (Bytes.start : Bytes ι) where
  status := rfl
  data := ⟨pipe, [], rfl, holdsStream_pipe, rfl, rfl⟩
  bound := by
    have hzero : (Bytes.start : Bytes ι).put = 0 := rfl
    rw [Bytes.Full, hzero, pipeSize]
    omega

/-- What fits in the queue is what fits in the pipe. -/
theorem HoldsStream.fitting {d : PipeData} {stream : List UInt8} (h : HoldsStream d stream)
    (w : Writer) :
  w.fitting (stream.drop d.readPos).length = min (d.readPos + d.size - d.writePos) w.nbyte
  := by
  have hpos := h.writePos
  have hread := h.read_le
  have hwrite := h.write_le
  rw [Writer.fitting, List.length_drop, ← h.size]
  omega

/-- Every step of processors that do the work of a section at once is a step of the queue, until the
positions of the pipe are about to leave the 64-bit numbers. -/
theorem BytesRel.step {t t' : Sync.Serial Field.Val ι Section Res} {f : Bytes ι}
    (h : BytesRel t f) {o : Option (Sync.Event ι Section Res)}
    (hstep : Sync.Serial.Step body t o t') :
  ∃ f', Trace Bytes.Step f o.toList f' ∧ (BytesRel t' f' ∨ f'.Full)
  := by
  have hstatus := h.status
  have hbound := h.bound
  obtain ⟨d, stream, hdata, hholds, hqueue, hput⟩ := h.data
  have hstream : stream.length + pipeSize < 2 ^ 64 := by
    rw [Bytes.Full, hput] at hbound
    omega
  cases hstep with
  | @call i c hi =>
      rw [← hstatus] at hi
      refine ⟨_, .single (.call c hi), Or.inl ⟨?_, ?_, hbound⟩⟩
      · rw [hstatus]
      · exact ⟨d, stream, hdata, hholds, hqueue, hput⟩
  | @ret i x hi =>
      rw [← hstatus] at hi
      refine ⟨_, .single (.ret hi), Or.inl ⟨?_, ?_, hbound⟩⟩
      · rw [hstatus]
      · exact ⟨d, stream, hdata, hholds, hqueue, hput⟩
  | @work i c hi =>
      rw [← hstatus] at hi
      cases c with
      | read nbyte =>
          have hrun := run_readCode d nbyte
          rw [← hdata] at hrun
          have hlength : f.queue.length = d.writePos - d.readPos := by
            rw [hqueue, List.length_drop, hholds.writePos]
          by_cases hempty : f.queue = []
          · have hnone : readSection d nbyte = none := by
              rw [hempty, List.length_nil] at hlength
              rw [readSection, if_pos (by omega)]
            rw [hnone] at hrun
            refine ⟨_, .single (.wait hi hempty), Or.inl ⟨?_, ?_, hbound⟩⟩
            · rw [hstatus, body, hrun]
            · rw [body, hrun]
              exact ⟨d, stream, hdata, hholds, hqueue, hput⟩
          · have hpos := List.length_pos_iff.mpr hempty
            obtain ⟨bytes, hbytes, hsection⟩ :=
              readSection_spec nbyte hholds hstream (by omega)
            rw [hsection] at hrun
            rw [← hlength] at hbytes
            refine ⟨_, .single (.read hi hempty), Or.inl ⟨?_, ?_, hbound⟩⟩
            · rw [hstatus, body, hrun, ← hbytes, hqueue]
            · rw [body, hrun]
              refine ⟨_, stream, rfl, hholds.advance (by omega), ?_, hput⟩
              rw [← hbytes, hqueue, List.drop_drop]
      | write w ok =>
          obtain ⟨d', bytes, hbytes, hsection, hholds', hread⟩ := writeSection_spec hholds ok hstream
          have hrun := run_writeCode hsection
          rw [← hdata] at hrun
          rw [← hholds.fitting, ← hqueue] at hbytes
          refine ⟨_, .single (.write hi), ?_⟩
          rw [body, hrun]
          by_cases hfull : 2 ^ 64 ≤ f.put + w.fitting f.queue.length + pipeSize
          · exact Or.inr hfull
          · refine Or.inl ⟨?_, ⟨d', _, rfl, hholds', ?_, ?_⟩, hfull⟩
            · rw [hstatus, ← hbytes]
              rfl
            · have hle := hholds.read_le
              rw [hholds.writePos] at hle
              rw [hread, List.drop_append_of_le_length hle, ← hqueue, hbytes]
            · have hwritten : bytes ≤ (w.buf.drop w.written).length := by
                have hsplit := ok.split
                have hnbyte : bytes ≤ w.nbyte := hbytes.trans_le (min_le_right _ _)
                rw [List.length_drop]
                omega
              rw [List.length_append, List.length_take_of_le hwritten, hput, hbytes]

/-- Any number of processors that call the sections of `pipe_read` and `pipe_write` for one pipe,
with their loads and stores in any order and stores that leave the buffers of the processors at any
time, have the calls and results of a queue of at most `PIPE_SIZE` bytes, at least up to where nearly
`2 ^ 64` bytes have been put in. -/
theorem bytes_of_trace (es : List (Sync.Event ι Section Res))
    {s : Sync.System Field.Val ι Section Res}
    (h : Trace (Sync.Step body) (Sync.start pipe.fields) es s) :
  (∃ f : Bytes ι, Trace Bytes.Step Bytes.start es f)
    ∨ ∃ es' f, es' <+: es ∧ Trace Bytes.Step (Bytes.start : Bytes ι) es' f ∧ f.Full
  := by
  obtain ⟨t, ht, -⟩ := Sync.rel_of_trace h
  rcases ht.simulate_until (fun hrel hstep => hrel.step hstep) bytesRel_start with
    ⟨f, hf, -⟩ | hfull
  · exact Or.inl ⟨f, hf⟩
  · exact Or.inr hfull

/-- A call of `pipe_write` for one byte. -/
theorem writerOk (b : UInt8) : (Writer.start [b]).Ok where
  bound := by
    change 1 < 2 ^ 64
    omega
  split := rfl

/-- The processor `false` writes a byte, and the processor `true` reads it. -/
theorem write_read_run :
  ∃ s : Sync.System Field.Val Bool Section Res,
    Trace (Sync.Step body) (Sync.start pipe.fields)
      [.call false (.write (Writer.start [7]) (writerOk 7)),
        .ret false (.writer ((Writer.start [7]).after 1)), .call true (.read 5),
        .ret true (.got 1 [7])] s
  := by
  apply Sync.trace_of_serial
  · exact .event (.call _ rfl) <| .silent (.work (i := false) rfl) <| .event (.ret rfl) <|
      .event (.call _ rfl) <| .silent (.work (i := true) rfl) <| .event (.ret rfl) <| .nil _

theorem bytes_of_trace_write_read :
  (∃ f : Bytes Bool, Trace Bytes.Step Bytes.start
    [.call false (.write (Writer.start [7]) (writerOk 7)),
      .ret false (.writer ((Writer.start [7]).after 1)), .call true (.read 5),
      .ret true (.got 1 [7])] f)
    ∨ ∃ es' f, es' <+: [.call false (.write (Writer.start [7]) (writerOk 7)),
      .ret false (.writer ((Writer.start [7]).after 1)), .call true (.read 5),
      .ret true (.got 1 [7])] ∧ Trace Bytes.Step (Bytes.start : Bytes Bool) es' f ∧ f.Full
  := by
  obtain ⟨s, hs⟩ := write_read_run
  exact bytes_of_trace _ hs

end Pipe
