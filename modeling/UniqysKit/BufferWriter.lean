import UniqysKit.Serialize

/-!
# The buffer writer

`BufferWriter` of `packages/serialize`, over buffers as they are in memory.  The writer has a reference
to its buffer, which is replaced when it is too small, and `ensure` returns a slice that is a view of a
buffer.  What comes out are the bytes that serializers are modelled by.

The loop that doubles the size has a bound on its turns; without a result it has not ended by then.
-/

namespace UniqysKit

/-! ## Buffers -/

/-- `source.copy(target, start)`: what does not fit is not copied. -/
def copyInto (source target : Bytes) (start : Nat) : Bytes :=
  target.take start ++ (source.take (target.length - start) ++ target.drop (start + source.length))

@[simp] theorem length_copyInto (source target : Bytes) (start : Nat) :
    (copyInto source target start).length = target.length := by
  simp only [copyInto, List.length_append, List.length_take, List.length_drop]
  omega

/-- Bytes that are copied behind those that are there, over zeros. -/
theorem copyInto_append (source bytes : Bytes) {room : Nat} (h : source.length ≤ room) :
    copyInto source (bytes ++ List.replicate room 0) bytes.length =
      bytes ++ source ++ List.replicate (room - source.length) 0 := by
  have hfits : source.take ((bytes ++ List.replicate room (0 : UInt8)).length - bytes.length) =
      source := by
    refine List.take_of_length_le ?_
    rw [List.length_append, List.length_replicate]
    omega
  rw [copyInto, hfits, List.take_left, List.drop_append, List.drop_replicate]
  simp

/-- A view of the buffer with this reference. -/
structure Slice where
  buffer : Nat
  start : Nat
  length : Nat

/-- What is done to the bytes of a slice. -/
abbrev Filler := { fill : Bytes → Bytes // ∀ bytes, (fill bytes).length = bytes.length }

/-! ## The writer -/

/-- The buffers that were allocated, the reference to `_buffer`, and `_length`. -/
structure BufferWriter where
  allocated : List Bytes
  current : Nat
  length : Nat

namespace BufferWriter

/-- `Buffer.alloc(size || 64)`. -/
def new (size : Option Nat) : BufferWriter :=
  let size := match size with
    | some 0 => 64
    | some size => size
    | none => 64
  ⟨[List.replicate size 0], 0, 0⟩

def memory (writer : BufferWriter) : Bytes := writer.allocated.getD writer.current []

def buffer (writer : BufferWriter) : Bytes := writer.memory.take writer.length

/-- The loop of `_resize`. -/
def doubled (need : Nat) : Nat → Nat → Option Nat
  | 0, next => if need > next then none else some next
  | turns + 1, next => if need > next then doubled need turns (next * 2) else some next

variable (turns : Nat)

def resize (need : Nat) (writer : BufferWriter) : Option BufferWriter :=
  let current := writer.memory.length
  if need > current then
    (doubled need turns current).map fun next =>
      { writer with
        allocated := writer.allocated ++ [copyInto writer.memory (List.replicate next 0) 0]
        current := writer.allocated.length }
  else some writer

def append (buffer : Bytes) (writer : BufferWriter) : Option BufferWriter :=
  (writer.resize turns (writer.length + buffer.length)).map fun writer =>
    { writer with
      allocated := writer.allocated.set writer.current (copyInto buffer writer.memory writer.length)
      length := writer.length + buffer.length }

def ensure (length : Nat) (writer : BufferWriter) : Option (Slice × BufferWriter) :=
  (writer.resize turns (writer.length + length)).map fun writer =>
    (⟨writer.current, writer.length, length⟩, { writer with length := writer.length + length })

/-- The bytes of the slice are written. -/
def fill (slice : Slice) (filler : Filler) (writer : BufferWriter) : BufferWriter :=
  let target := writer.allocated.getD slice.buffer []
  let bytes := filler.1 ((target.drop slice.start).take slice.length)
  { writer with allocated := writer.allocated.set slice.buffer (copyInto bytes target slice.start) }

inductive Call
  | append (buffer : Bytes)
  /-- The slice is filled before the next call. -/
  | ensure (length : Nat) (filler : Filler)

def serve (writer : BufferWriter) : Call → Option BufferWriter
  | .append buffer => writer.append turns buffer
  | .ensure length filler =>
      (writer.ensure turns length).map fun result => result.2.fill result.1 filler

/-- The calls one after another. -/
def serveAll : BufferWriter → List Call → Option BufferWriter
  | writer, [] => some writer
  | writer, call :: calls => (writer.serve turns call).bind fun writer => serveAll writer calls

/-! ## What is written -/

/-- The buffer that is appended, or the slice as it is filled. -/
def written : Call → Bytes
  | .append buffer => buffer
  | .ensure length filler => filler.1 (List.replicate length 0)

/-- The invariant: the memory of the writer has these bytes, and zeros behind them. -/
structure Holds (writer : BufferWriter) (bytes : Bytes) : Prop where
  current : writer.current < writer.allocated.length
  length : writer.length = bytes.length
  memory : ∃ room, writer.memory = bytes ++ List.replicate room 0
  pos : 0 < writer.memory.length

variable {turns} {writer : BufferWriter} {bytes : Bytes}

theorem Holds.buffer (h : Holds writer bytes) : writer.buffer = bytes := by
  rcases h.memory with ⟨room, hmemory⟩
  rw [BufferWriter.buffer, hmemory, h.length, List.take_left]

theorem holds_new (size : Option Nat) : Holds (new size) [] := by
  rcases size with _ | _ | size
  · exact ⟨Nat.zero_lt_one, rfl, ⟨64, rfl⟩, by decide⟩
  · exact ⟨Nat.zero_lt_one, rfl, ⟨64, rfl⟩, by decide⟩
  · exact ⟨Nat.zero_lt_one, rfl, ⟨size + 1, rfl⟩, by simp [new, memory]⟩

/-- The loop ends, as the size it starts with is not zero. -/
theorem exists_doubled {need next : Nat} (hnext : 0 < next) (hturns : need ≤ next + turns) :
    ∃ result, doubled need turns next = some result ∧ need ≤ result := by
  induction turns generalizing next with
  | zero =>
      rw [doubled, if_neg (by omega)]
      exact ⟨next, rfl, by omega⟩
  | succ turns ih =>
      rw [doubled]
      split
      · exact ih (by omega) (by omega)
      · exact ⟨next, rfl, by omega⟩

theorem Holds.resize (h : Holds writer bytes) {need : Nat} (hturns : need ≤ turns) :
    ∃ writer', writer.resize turns need = some writer' ∧ Holds writer' bytes ∧
      need ≤ writer'.memory.length := by
  rw [BufferWriter.resize]
  by_cases hneed : need > writer.memory.length
  · simp only [if_pos hneed]
    obtain ⟨next, hnext, hle⟩ : ∃ next,
        doubled need turns writer.memory.length = some next ∧ need ≤ next :=
      exists_doubled h.pos (by omega)
    rw [hnext, Option.map_some]
    -- the new memory is the former one, copied to its start, with zeros behind it
    rcases h.memory with ⟨room, hmemory⟩
    have hcopy := copyInto_append writer.memory [] (by omega : writer.memory.length ≤ next)
    rw [List.nil_append, List.nil_append, List.length_nil] at hcopy
    have hnew : BufferWriter.memory { writer with
        allocated := writer.allocated ++ [copyInto writer.memory (List.replicate next 0) 0]
        current := writer.allocated.length } =
          writer.memory ++ List.replicate (next - writer.memory.length) 0 := by
      rw [← hcopy]
      simp [BufferWriter.memory]
    refine ⟨_, rfl, ⟨?_, h.length, ?_, ?_⟩, ?_⟩
    · simp
    · refine ⟨room + (next - writer.memory.length), ?_⟩
      rw [hnew, hmemory, List.append_assoc, List.replicate_append_replicate]
    · rw [hnew, List.length_append]
      have hpos := h.pos
      omega
    · rw [hnew, List.length_append, List.length_replicate]
      omega
  · simp only [if_neg hneed]
    exact ⟨writer, rfl, h, by omega⟩

/-- Bytes that are written into the memory behind those that are there, where they fit. -/
theorem Holds.write (h : Holds writer bytes) (added : Bytes)
    (hfits : bytes.length + added.length ≤ writer.memory.length) :
    Holds { writer with
      allocated := writer.allocated.set writer.current (copyInto added writer.memory writer.length)
      length := writer.length + added.length } (bytes ++ added) := by
  have hnew : BufferWriter.memory { writer with
      allocated := writer.allocated.set writer.current (copyInto added writer.memory writer.length)
      length := writer.length + added.length } = copyInto added writer.memory writer.length := by
    simp [BufferWriter.memory, h.current]
  rcases h.memory with ⟨room, hmemory⟩
  have hroom : added.length ≤ room := by
    rw [hmemory, List.length_append, List.length_replicate] at hfits
    omega
  refine ⟨?_, ?_, ?_, ?_⟩
  · rw [List.length_set]
    exact h.current
  · rw [List.length_append, h.length]
  · refine ⟨room - added.length, ?_⟩
    rw [hnew, h.length, hmemory, copyInto_append added bytes hroom]
  · rw [hnew, length_copyInto]
    exact h.pos

theorem Holds.append (h : Holds writer bytes) (added : Bytes)
    (hturns : bytes.length + added.length ≤ turns) :
    ∃ writer', writer.append turns added = some writer' ∧ Holds writer' (bytes ++ added) := by
  rw [← h.length] at hturns
  rcases h.resize hturns with ⟨writer', hresize, hholds, hfits⟩
  rw [BufferWriter.append, hresize, Option.map_some]
  rw [h.length] at hfits
  exact ⟨_, rfl, hholds.write added hfits⟩

/-- The slice that `ensure` returns is behind the bytes that are there, and filling it writes them. -/
theorem Holds.ensure (h : Holds writer bytes) (length : Nat) (filler : Filler)
    (hturns : bytes.length + length ≤ turns) :
    ∃ slice writer', writer.ensure turns length = some (slice, writer') ∧
      Holds (writer'.fill slice filler) (bytes ++ filler.1 (List.replicate length 0)) := by
  rw [← h.length] at hturns
  rcases h.resize hturns with ⟨writer', hresize, hholds, hfits⟩
  rw [BufferWriter.ensure, hresize, Option.map_some]
  refine ⟨_, _, rfl, ?_⟩
  rcases hholds.memory with ⟨room, hmemory⟩
  have hroom : length ≤ room := by
    rw [hmemory, List.length_append, List.length_replicate, h.length] at hfits
    omega
  -- the slice has had nothing but zeros so far
  have hslice : (writer'.memory.drop writer'.length).take length = List.replicate length 0 := by
    rw [hholds.length, hmemory, List.drop_left, List.take_replicate, Nat.min_eq_left hroom]
  have hlength : (filler.1 (List.replicate length 0)).length = length := by
    rw [filler.2, List.length_replicate]
  have hwrite := hholds.write (filler.1 (List.replicate length 0)) (by
    rw [hlength, ← h.length]
    exact hfits)
  rw [hlength, ← hslice] at hwrite
  rw [← hslice]
  exact hwrite

theorem length_written_ensure (length : Nat) (filler : Filler) :
    (written (.ensure length filler)).length = length := by
  rw [written, filler.2, List.length_replicate]

theorem Holds.serve (h : Holds writer bytes) (call : Call)
    (hturns : bytes.length + (written call).length ≤ turns) :
    ∃ writer', writer.serve turns call = some writer' ∧ Holds writer' (bytes ++ written call) := by
  cases call with
  | append buffer => exact h.append buffer hturns
  | ensure length filler =>
      rw [length_written_ensure] at hturns
      rcases h.ensure length filler hturns with ⟨slice, writer', hensure, hholds⟩
      exact ⟨writer'.fill slice filler, by rw [BufferWriter.serve, hensure, Option.map_some], hholds⟩

theorem Holds.serveAll (h : Holds writer bytes) (calls : List Call)
    (hturns : bytes.length + (calls.map written).flatten.length ≤ turns) :
    ∃ writer', writer.serveAll turns calls = some writer' ∧
      Holds writer' (bytes ++ (calls.map written).flatten) := by
  induction calls generalizing writer bytes with
  | nil => exact ⟨writer, rfl, by simpa using h⟩
  | cons call calls ih =>
      rw [List.map_cons, List.flatten_cons, List.length_append] at hturns
      rcases h.serve call (by omega : bytes.length + (written call).length ≤ turns) with
        ⟨writer', hserve, hholds⟩
      rcases ih hholds (by rw [List.length_append]; omega) with ⟨writer'', hcalls, hresult⟩
      refine ⟨writer'', ?_, ?_⟩
      · rw [BufferWriter.serveAll, hserve, Option.bind_some, hcalls]
      · rwa [List.map_cons, List.flatten_cons, ← List.append_assoc]

/-- Whatever the size is at first: every loop ends, and the buffer is what was written, one after
another. -/
theorem buffer_serveAll (size : Option Nat) (calls : List Call) :
    ∃ bound, ∀ turns ≥ bound, ∃ writer, (new size).serveAll turns calls = some writer ∧
      writer.buffer = (calls.map written).flatten := by
  refine ⟨(calls.map written).flatten.length, fun turns hturns => ?_⟩
  rcases (holds_new size).serveAll calls (by simpa using hturns) with ⟨writer, hserve, hholds⟩
  exact ⟨writer, hserve, hholds.buffer⟩

end BufferWriter
end UniqysKit
