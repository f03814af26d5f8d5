import UniqysKit.EasyFramework.MemcachedProtocol
import UniqysKit.Library.Runs

/-!
# Packet boundaries of the memcached text protocol

A `Reader` takes the bytes of a client one by one, so it knows of no packets.  `processChunk` does to
a chunk what the reader does to its bytes, except in three cases:

* a CR ends a chunk and the LF starts the next one: the end of the line is not seen,
* a command or a data block throws in the middle of a chunk: the rest of the chunk is lost,
* a storage command has a negative length: the end of its chunk is cut by that length.

Where none of them happens, what a connection does is a function of the bytes alone.
-/

namespace UniqysKit
namespace EasyFramework
namespace Memcached

open Connection MemcachedTextProtocol
open Library (Along)

/-! ## Reading byte by byte -/

/-- A connection of which the bytes are read one by one: those of the line or of the data block so
far, and the data block that is waited for, with the bytes it still needs. -/
structure Reader where
  pending : Bytes
  block : Option DataBlock
  connection : Connection

namespace Reader

def new : Reader := ⟨[], none, .new⟩

section Feed

variable (implementation : MemcachedSubset)

/-- A line, and the data block of its command if it needs no byte. -/
def command (line : Bytes) : Connection.Code (Option DataBlock) := do
  match ← processLine implementation line with
  | none => return none
  | some (bytes, handler) =>
      if bytes ≤ 0 then done (runHandler implementation handler [])
      else return some (bytes, handler)

/-- The byte is the end of a line. -/
def EndsLine (reader : Reader) (byte : UInt8) : Prop :=
  reader.block = none ∧ reader.pending.getLast? = some 13 ∧ byte = 10

/-- What a byte completes. -/
def due (reader : Reader) (byte : UInt8) : Option (Connection.Code (Option DataBlock)) :=
  match reader.block with
  | none =>
      if reader.pending.getLast? = some 13 ∧ byte = 10 then
        some (command implementation reader.pending.dropLast)
      else none
  | some (bytes, handler) =>
      if bytes ≤ 1 then some (done (runHandler implementation handler (reader.pending ++ [byte])))
      else none

/-- After a line or a data block; an error is written. -/
def settle : EStateM.Result Failure Connection (Option DataBlock) → Reader
  | .ok block connection => ⟨[], block, connection⟩
  | .error e connection => ⟨[], none, Library.Fallible.final (writeFailure e connection)⟩

def feed (reader : Reader) (byte : UInt8) : Reader :=
  match due implementation reader byte with
  | some code => settle (code reader.connection)
  | none =>
      ⟨reader.pending ++ [byte], reader.block.map fun (bytes, handler) => (bytes - 1, handler),
        reader.connection⟩

/-! ## What depends on packets -/

/-- The chunk starts with the second half of the end of a line. -/
def Splits (reader : Reader) (chunk : Bytes) : Prop :=
  reader.block = none ∧ reader.pending.getLast? = some 13 ∧ chunk.head? = some 10

def throws : EStateM.Result Failure Connection (Option DataBlock) → Bool
  | .ok _ _ => false
  | .error _ _ => true

/-- The byte completes something that throws, and bytes follow in its chunk. -/
def CutsShort (reader : Reader) (byte : UInt8) (rest : Bytes) : Prop :=
  rest ≠ [] ∧ (due implementation reader byte).any fun code => throws (code reader.connection)

/-- The command asks for a data block of a negative length, and more bytes than that are left. -/
def asksBack (left : Nat) : EStateM.Result Failure Connection (Option DataBlock) → Bool
  | .ok (some (bytes, _)) _ => bytes < 0 && -bytes < left
  | _ => false

/-- The byte ends a storage command with a negative length, and more bytes than that follow in its
chunk. -/
def Overruns (reader : Reader) (byte : UInt8) (rest : Bytes) : Prop :=
  reader.EndsLine byte ∧
    asksBack rest.length (processLine implementation reader.pending.dropLast reader.connection)

/-- No byte of the chunk does either. -/
def Calm : Reader → Bytes → Prop
  | _, [] => True
  | reader, byte :: rest =>
      ¬CutsShort implementation reader byte rest ∧ ¬Overruns implementation reader byte rest ∧
        Calm (feed implementation reader byte) rest

instance (reader : Reader) (byte : UInt8) : Decidable (reader.EndsLine byte) :=
  inferInstanceAs (Decidable (_ ∧ _ ∧ _))

instance (reader : Reader) (chunk : Bytes) : Decidable (reader.Splits chunk) :=
  inferInstanceAs (Decidable (_ ∧ _ ∧ _))

instance (reader : Reader) (byte : UInt8) (rest : Bytes) :
    Decidable (CutsShort implementation reader byte rest) :=
  inferInstanceAs (Decidable (_ ∧ _))

instance (reader : Reader) (byte : UInt8) (rest : Bytes) :
    Decidable (Overruns implementation reader byte rest) :=
  inferInstanceAs (Decidable (_ ∧ _))

instance decidableCalm : (reader : Reader) → (chunk : Bytes) →
    Decidable (Calm implementation reader chunk)
  | _, [] => isTrue trivial
  | reader, byte :: rest =>
      have := decidableCalm (feed implementation reader byte) rest
      inferInstanceAs (Decidable (_ ∧ _ ∧ _))

end Feed

end Reader

/-- What a protocol is, without its packets. -/
def MemcachedTextProtocol.reader (protocol : MemcachedTextProtocol) : Reader where
  pending := protocol.buffer.flatten
  block := protocol.dataHandler.map fun handler => (protocol.remainBytes, handler)
  connection := protocol.connection

/-- None of the three cases happens with the chunk. -/
def Clean (implementation : MemcachedSubset) (protocol : MemcachedTextProtocol) (chunk : Bytes) :
    Prop :=
  ¬protocol.reader.Splits chunk ∧ protocol.reader.Calm implementation chunk

instance (implementation : MemcachedSubset) (protocol : MemcachedTextProtocol) (chunk : Bytes) :
    Decidable (Clean implementation protocol chunk) :=
  inferInstanceAs (Decidable (_ ∧ _))

namespace Reader

variable {implementation : MemcachedSubset} {reader : Reader} {byte : UInt8}
  {pending text chunk : Bytes} {connection : Connection} {bytes : Int} {handler : DataHandler}

theorem Calm.of_append {rest : Bytes} (h : reader.Calm implementation (text ++ rest)) :
    (text.foldl (feed implementation) reader).Calm implementation rest := by
  induction text generalizing reader with
  | nil => exact h
  | cons byte text ih => exact ih h.2.2

/-! ## Bytes that complete nothing -/

/-- Bytes of a line. -/
theorem foldl_feed_text (htext : crlfIndex text = none)
    (hsplit : ¬(pending.getLast? = some 13 ∧ text.head? = some 10)) :
    text.foldl (feed implementation) ⟨pending, none, connection⟩ =
      ⟨pending ++ text, none, connection⟩ := by
  induction text generalizing pending with
  | nil => simp
  | cons byte text ih =>
      have hdue : due implementation ⟨pending, none, connection⟩ byte = none := by
        simp only [due]
        rw [if_neg]
        rintro ⟨hlast, rfl⟩
        exact hsplit ⟨hlast, rfl⟩
      unfold crlfIndex at htext
      split at htext
      · cases htext
      · rename_i hcrlf
        rw [List.foldl_cons, feed, hdue]
        simp only [Option.map_none]
        rw [ih (Option.map_eq_none_iff.mp htext) (by simpa using hcrlf)]
        simp

/-- Bytes of a data block. -/
theorem foldl_feed_data (hshort : (text.length : Int) < bytes) :
    text.foldl (feed implementation) ⟨pending, some (bytes, handler), connection⟩ =
      ⟨pending ++ text, some (bytes - text.length, handler), connection⟩ := by
  induction text generalizing pending bytes with
  | nil => simp
  | cons byte text ih =>
      simp only [List.length_cons, Nat.cast_add, Nat.cast_one] at hshort ⊢
      have hdue : due implementation ⟨pending, some (bytes, handler), connection⟩ byte = none := by
        simp only [due]
        rw [if_neg (by omega)]
      rw [List.foldl_cons, feed, hdue]
      simp only [Option.map_some]
      rw [ih (by omega)]
      have hcount : bytes - 1 - (text.length : Int) = bytes - (text.length + 1) := by omega
      rw [hcount, List.append_assoc, List.singleton_append]

/-! ## Bytes that complete something -/

/-- The line that the first CR before a LF ends. -/
theorem crlfIndex_spec {i : Nat} (hcrlf : crlfIndex chunk = some i) :
    chunk = (chunk.take i ++ [13]) ++ 10 :: chunk.drop (i + 2) ∧
      crlfIndex (chunk.take i ++ [13]) = none := by
  induction chunk generalizing i with
  | nil => cases hcrlf
  | cons byte rest ih =>
      unfold crlfIndex at hcrlf
      split at hcrlf
      · rename_i h
        cases hcrlf
        -- the line end is right here
        rcases h with ⟨rfl, hhead⟩
        cases rest with
        | nil => cases hhead
        | cons next rest =>
            cases hhead
            exact ⟨rfl, rfl⟩
      · rename_i h
        rcases Option.map_eq_some_iff.mp hcrlf with ⟨j, hj, rfl⟩
        rcases ih hj with ⟨hchunk, hnone⟩
        refine ⟨by simpa using hchunk, ?_⟩
        rw [List.take_succ_cons, List.cons_append, crlfIndex, hnone, if_neg]
        · rfl
        · -- a CR here would have been the first one
          rintro ⟨hbyte, hhead⟩
          apply h
          refine ⟨hbyte, ?_⟩
          rw [hchunk, List.append_assoc]
          cases htake : rest.take j with
          | nil => rw [htake] at hhead; cases hhead
          | cons first others =>
              rw [htake] at hhead
              exact hhead

/-- The reader at the end of a line. -/
theorem foldl_feed_line {i : Nat} (hcrlf : crlfIndex chunk = some i)
    (hsplit : ¬(pending.getLast? = some 13 ∧ chunk.head? = some 10)) :
    (chunk.take i ++ [13]).foldl (feed implementation) ⟨pending, none, connection⟩ =
      ⟨pending ++ chunk.take i ++ [13], none, connection⟩ := by
  rcases crlfIndex_spec hcrlf with ⟨hchunk, hnone⟩
  have hhead : (chunk.take i ++ [13]).head? = chunk.head? := by
    conv_rhs => rw [hchunk]
    cases chunk.take i with
    | nil => rfl
    | cons first others => rfl
  rw [foldl_feed_text hnone (by rw [hhead]; exact hsplit), List.append_assoc]

theorem due_line :
    due implementation ⟨pending ++ [13], none, connection⟩ 10 =
      some (command implementation pending) := by
  simp [due]

theorem due_data :
    due implementation ⟨pending, some (1, handler), connection⟩ byte =
      some (done (runHandler implementation handler (pending ++ [byte]))) := by
  simp [due]

/-! ## Readers that wait for bytes -/

/-- A data block that is waited for needs bytes. -/
def Waits (reader : Reader) : Prop :=
  ∀ bytes handler, reader.block = some (bytes, handler) → 0 < bytes

theorem waits_settle_done {code : Connection.Code Unit} : (settle (done code connection)).Waits := by
  intro bytes handler hblock
  rcases Library.Fallible.bind_cases code (fun _ => return none) connection with
    ⟨-, after, -, hdone⟩ | ⟨e, after, -, hdone⟩
  · rw [done, hdone] at hblock
    cases hblock
  · rw [done, hdone] at hblock
    cases hblock

theorem waits_settle_command {line : Bytes} :
    (settle (command implementation line connection)).Waits := by
  rw [command]
  rcases Library.Fallible.bind_cases (processLine implementation line) _ connection with
    ⟨block, after, -, hcommand⟩ | ⟨e, after, -, hcommand⟩
  · rw [hcommand]
    cases block with
    | none =>
        intro bytes handler hblock
        cases hblock
    | some block =>
        rcases block with ⟨bytes, handler⟩
        simp only
        split
        · exact waits_settle_done
        · rintro bytes' handler' hblock
          cases hblock
          omega
  · rw [hcommand]
    intro bytes handler hblock
    cases hblock

theorem Waits.feed (h : reader.Waits) : (feed implementation reader byte).Waits := by
  rcases reader with ⟨pending, block, connection⟩
  unfold Reader.feed
  -- a line that is complete and a block that is complete are both settled at once
  cases block with
  | none =>
      simp only [due]
      split
      · rename_i code hcode
        split at hcode
        · cases hcode
          exact waits_settle_command
        · cases hcode
      · intro bytes handler hblock
        cases hblock
  | some block =>
      rcases block with ⟨bytes, handler⟩
      simp only [due]
      split
      · rename_i code hcode
        split at hcode
        · cases hcode
          exact waits_settle_done
        · cases hcode
      · -- a byte is missing still, so the block is not complete
        rename_i hcode
        intro bytes' handler' hblock
        cases hblock
        split at hcode
        · cases hcode
        · omega

theorem Waits.foldl (h : reader.Waits) : (text.foldl (Reader.feed implementation) reader).Waits := by
  induction text generalizing reader with
  | nil => exact h
  | cons byte text ih => exact ih h.feed

end Reader

/-! ## A chunk and its bytes -/

namespace MemcachedTextProtocol

open Reader

variable {implementation : MemcachedSubset} {protocol : MemcachedTextProtocol}
  {chunk rest : Bytes} {connection : Connection} {fuel i : Nat} {handler : DataHandler}

/-- What is left of a chunk, after code with a result. -/
def Continues (implementation : MemcachedSubset)
    (whole : EStateM.Result Failure MemcachedTextProtocol Unit)
    (result : EStateM.Result Failure Connection (Option DataBlock)) (rest : Bytes) : Prop :=
  match result with
  | .ok block connection =>
      ∃ fuel protocol, 2 * rest.length + 2 ≤ fuel ∧ protocol.reader = ⟨[], block, connection⟩ ∧
        whole = processChunk implementation fuel rest protocol
  | .error e connection =>
      ∃ protocol, protocol.reader = ⟨[], none, connection⟩ ∧ whole = .error e protocol

theorem reader_caught_error {e : Failure} (h : protocol.reader = ⟨[], none, connection⟩) :
    (caught (.error e protocol)).reader = settle (.error e connection) := by
  have hconnection : protocol.connection = connection := congrArg Reader.connection h
  have hwritten : caught (.error e protocol) =
      { protocol with connection := Library.Fallible.final (writeFailure e connection) } := by
    rw [← hconnection]
    simp only [caught, onConnection]
    cases writeFailure e protocol.connection with
    | ok a after => rfl
    | error e after => rfl
  rw [hwritten]
  have hpending := congrArg Reader.pending h
  have hblock := congrArg Reader.block h
  simp only [MemcachedTextProtocol.reader] at hpending hblock
  simp only [MemcachedTextProtocol.reader, settle, hpending]
  rw [Option.map_eq_none_iff.mp hblock]
  rfl

/-- A data block of no bytes takes nothing from the rest of the chunk. -/
theorem slice_of_nonpos {bytes : Int} (hbytes : bytes ≤ 0) (h : ¬(bytes < 0 ∧ -bytes < chunk.length)) :
    slice chunk 0 bytes = [] ∧ slice chunk bytes chunk.length = chunk := by
  have hindex : sliceIndex chunk.length bytes = 0 := by
    unfold sliceIndex
    split
    · omega
    · omega
  simp [slice, hindex]

/-- A line, with the data block of its command if it needs no byte. -/
theorem continues_line (hmode : protocol.dataHandler = none) (hcrlf : crlfIndex chunk = some i)
    (hcalm : ∀ bytes handler connection,
      processLine implementation (lineAt protocol chunk i) protocol.connection =
        .ok (some (bytes, handler)) connection →
      ¬(bytes < 0 ∧ -bytes < (chunk.drop (i + 2)).length))
    (hfuel : 2 * chunk.length + 2 ≤ fuel) :
    Continues implementation (processChunk implementation fuel chunk protocol)
      (command implementation (lineAt protocol chunk i) protocol.connection)
      (chunk.drop (i + 2)) := by
  have hlength := crlfIndex_lt hcrlf
  have hrest : (chunk.drop (i + 2)).length + 2 ≤ chunk.length := by
    rw [List.length_drop]
    omega
  -- the line takes one turn, and a handler without bytes another one
  obtain ⟨fuel, rfl⟩ : ∃ n, fuel = n + 2 := ⟨fuel - 2, by omega⟩
  rw [processChunk_succ, hmode, hcrlf]
  simp only [command]
  cases hline : processLine implementation (lineAt protocol chunk i) protocol.connection with
  | error e connection =>
      rw [Library.Fallible.bind_error hline]
      exact ⟨_, by simp [MemcachedTextProtocol.reader], rfl⟩
  | ok block connection =>
      rw [Library.Fallible.bind_ok hline]
      cases block with
      | none =>
          refine ⟨fuel + 1, _, by omega, ?_, rfl⟩
          simp [MemcachedTextProtocol.reader, waiting, hmode]
      | some block =>
          rcases block with ⟨bytes, handler⟩
          by_cases hbytes : bytes ≤ 0
          · -- the handler runs in the next turn
            rcases slice_of_nonpos hbytes (hcalm bytes handler connection hline) with ⟨hdata, hleft⟩
            have hlong : bytes ≤ (chunk.drop (i + 2)).length := by omega
            simp only [if_pos hbytes, done, waiting]
            rw [processChunk_succ]
            simp only [if_pos hlong, dataAt, List.flatten_nil, List.nil_append, hdata, hleft]
            cases hrun : runHandler implementation handler [] connection with
            | error e after =>
                rw [Library.Fallible.bind_error hrun]
                exact ⟨_, by simp [MemcachedTextProtocol.reader], rfl⟩
            | ok _ after =>
                rw [Library.Fallible.bind_ok hrun]
                exact ⟨fuel, _, by omega, by simp [MemcachedTextProtocol.reader], rfl⟩
          · -- the handler waits for its bytes
            simp only [if_neg hbytes]
            refine ⟨fuel + 1, _, by omega, ?_, rfl⟩
            simp [MemcachedTextProtocol.reader, waiting]

/-- The end of a data block. -/
theorem continues_data (hmode : protocol.dataHandler = some handler)
    (hwaits : 0 < protocol.remainBytes) (hlong : protocol.remainBytes ≤ chunk.length)
    (hfuel : 2 * chunk.length + 2 ≤ fuel) :
    Continues implementation (processChunk implementation fuel chunk protocol)
      (done (runHandler implementation handler (dataAt protocol chunk)) protocol.connection)
      (slice chunk protocol.remainBytes chunk.length) := by
  obtain ⟨fuel, rfl⟩ : ∃ n, fuel = n + 1 := ⟨fuel - 1, by omega⟩
  rw [processChunk_succ, hmode]
  simp only [if_pos hlong, done]
  cases hrun : runHandler implementation handler (dataAt protocol chunk) protocol.connection with
  | error e connection =>
      rw [Library.Fallible.bind_error hrun]
      exact ⟨_, by simp [MemcachedTextProtocol.reader], rfl⟩
  | ok _ connection =>
      rw [Library.Fallible.bind_ok hrun]
      refine ⟨fuel, _, ?_, by simp [MemcachedTextProtocol.reader], rfl⟩
      -- the block takes at least one byte, so the fuel that is left is enough for the rest
      have : (slice chunk protocol.remainBytes chunk.length).length + 1 ≤ chunk.length := by
        simp only [slice, sliceIndex_length, List.take_length, List.length_drop]
        unfold sliceIndex
        split
        · omega
        · omega
      omega

/-- After a line or a data block a reader is in the middle of nothing. -/
theorem not_splits_settle {result : EStateM.Result Failure Connection (Option DataBlock)} :
    ¬(settle result).Splits chunk := by
  rintro ⟨-, hlast, -⟩
  cases result with
  | ok block connection => cases hlast
  | error e connection => cases hlast

/-- A byte that completes something, and the rest of the chunk behind it. -/
theorem Continues.reader {before : Bytes} {byte : UInt8} {code : Connection.Code (Option DataBlock)}
    {whole : EStateM.Result Failure MemcachedTextProtocol Unit} {reader : Reader}
    (h : Continues implementation whole (code reader.connection) rest)
    (hbefore : before.foldl (feed implementation) protocol.reader = reader)
    (hdue : due implementation reader byte = some code) (hwaits : protocol.reader.Waits)
    (hcalm : protocol.reader.Calm implementation (before ++ byte :: rest))
    (ih : ∀ fuel (protocol : MemcachedTextProtocol), 2 * rest.length + 2 ≤ fuel →
      protocol.reader.Waits → Clean implementation protocol rest →
      (caught (processChunk implementation fuel rest protocol)).reader =
        rest.foldl (feed implementation) protocol.reader) :
    (caught whole).reader = (before ++ byte :: rest).foldl (feed implementation) protocol.reader := by
  have hfeed : feed implementation reader byte = settle (code reader.connection) := by
    simp only [feed, hdue]
  rcases hcalm.of_append with ⟨hshort, -, hrest⟩
  have hnext : (feed implementation reader byte).Waits := by
    rw [← hbefore]
    exact hwaits.foldl.feed
  rw [hbefore] at hshort hrest
  rw [List.foldl_append, List.foldl_cons, hbefore, hfeed]
  rw [hfeed] at hrest hnext
  cases hresult : code reader.connection with
  | ok block connection =>
      rw [hresult] at h hrest hnext
      rcases h with ⟨fuel, protocol, hfuel, hreader, rfl⟩
      have hsettle : protocol.reader = settle (.ok block connection) := hreader
      rw [← hsettle] at hrest hnext ⊢
      refine ih fuel protocol hfuel hnext ⟨?_, hrest⟩
      rw [hsettle]
      exact not_splits_settle
  | error e connection =>
      -- what throws is the last of its chunk
      have hlast : rest = [] := by
        by_contra hne
        apply hshort
        refine ⟨hne, ?_⟩
        rw [hdue, Option.any_some, hresult]
        rfl
      rw [hresult] at h
      rcases h with ⟨protocol, hreader, rfl⟩
      rw [hlast]
      exact reader_caught_error hreader

/-- A chunk with the last byte of a data block. -/
theorem chunk_eq_of_data {bytes : Int} (hwaits : 0 < bytes) (hlong : bytes ≤ chunk.length) :
    ∃ before byte, (before.length : Int) = bytes - 1 ∧ slice chunk 0 bytes = before ++ [byte] ∧
      chunk = before ++ byte :: slice chunk bytes chunk.length := by
  obtain ⟨n, rfl⟩ : ∃ n : Nat, bytes = n + 1 := ⟨(bytes - 1).toNat, by omega⟩
  have hindex : sliceIndex chunk.length ((n : Int) + 1) = n + 1 := by
    unfold sliceIndex
    rw [if_neg (by omega)]
    omega
  have hn : n < chunk.length := by omega
  refine ⟨chunk.take n, chunk[n], ?_, ?_, ?_⟩
  · rw [List.length_take]
    omega
  · rw [slice, hindex, sliceIndex_zero, List.drop_zero, List.take_succ_eq_append_getElem hn]
  · have hrest : slice chunk ((n : Int) + 1) chunk.length = chunk.drop (n + 1) := by
      simp [slice, hindex]
    rw [hrest, ← List.drop_eq_getElem_cons hn, List.take_append_drop]

/-- `processChunk` feeds the bytes of the chunk to the reader. -/
theorem reader_processChunk (hwaits : protocol.reader.Waits)
    (hclean : Clean implementation protocol chunk) (hfuel : 2 * chunk.length + 2 ≤ fuel) :
    (caught (processChunk implementation fuel chunk protocol)).reader =
      chunk.foldl (feed implementation) protocol.reader := by
  -- on the length of the chunk; each line or data block leaves a shorter one
  induction hlength : chunk.length using Nat.strong_induction_on
    generalizing chunk protocol fuel with
  | _ length ih =>
      subst hlength
      rcases hclean with ⟨hsplit, hcalm⟩
      rcases protocol with ⟨buffer, remainBytes, dataHandler, connection⟩
      cases dataHandler with
      | none =>
          have hsplit' : ¬(buffer.flatten.getLast? = some 13 ∧ chunk.head? = some 10) := by
            rintro ⟨hlast, hhead⟩
            exact hsplit ⟨rfl, hlast, hhead⟩
          cases hcrlf : crlfIndex chunk with
          | none =>
              obtain ⟨fuel, rfl⟩ : ∃ n, fuel = n + 1 := ⟨fuel - 1, by omega⟩
              rw [processChunk_succ]
              simp only [hcrlf, caught, MemcachedTextProtocol.reader, Option.map_none,
                List.flatten_append, List.flatten_cons, List.flatten_nil, List.append_nil]
              exact (foldl_feed_text hcrlf hsplit').symm
          | some i =>
              rcases crlfIndex_spec hcrlf with ⟨hchunk, -⟩
              have hshorter := crlfIndex_lt hcrlf
              have hrest : (chunk.drop (i + 2)).length < chunk.length := by
                rw [List.length_drop]
                omega
              rw [hchunk] at hcalm
              -- a data block of a negative length leaves the rest of the chunk
              have hover (bytes : Int) (handler : DataHandler) (after : Connection)
                  (hline : processLine implementation (buffer.flatten ++ chunk.take i) connection =
                    .ok (some (bytes, handler)) after) :
                  ¬(bytes < 0 ∧ -bytes < (chunk.drop (i + 2)).length) := by
                intro hover
                have hno := hcalm.of_append.2.1
                rw [MemcachedTextProtocol.reader, Option.map_none,
                  foldl_feed_line hcrlf hsplit'] at hno
                apply hno
                refine ⟨⟨rfl, by simp, rfl⟩, ?_⟩
                simp only [List.dropLast_concat, hline, asksBack]
                simpa using hover
              have hcont : Continues implementation
                  (processChunk implementation fuel chunk ⟨buffer, remainBytes, none, connection⟩)
                  (command implementation (buffer.flatten ++ chunk.take i) connection)
                  (chunk.drop (i + 2)) := continues_line rfl hcrlf hover hfuel
              refine (hcont.reader (foldl_feed_line hcrlf hsplit') due_line hwaits hcalm ?_).trans ?_
              · intro fuel protocol hfuel hwaits hclean
                exact ih _ hrest hwaits hclean hfuel rfl
              · rw [← hchunk]
      | some handler =>
          have hpos : 0 < remainBytes := hwaits remainBytes handler rfl
          by_cases hlong : remainBytes ≤ chunk.length
          · rcases chunk_eq_of_data hpos hlong with ⟨before, byte, hbefore, hslice, hchunk⟩
            have hrest : (slice chunk remainBytes chunk.length).length < chunk.length := by
              conv_rhs => rw [hchunk]
              simp only [List.length_append, List.length_cons]
              omega
            have hdata : dataAt ⟨buffer, remainBytes, some handler, connection⟩ chunk =
                buffer.flatten ++ before ++ [byte] := by
              rw [dataAt, hslice, List.append_assoc]
            have hfed : before.foldl (feed implementation)
                ⟨buffer.flatten, some (remainBytes, handler), connection⟩ =
                  ⟨buffer.flatten ++ before, some (1, handler), connection⟩ := by
              have hone : remainBytes - (before.length : Int) = 1 := by omega
              rw [foldl_feed_data (by omega), hone]
            rw [hchunk] at hcalm
            have hcont : Continues implementation
                (processChunk implementation fuel chunk
                  ⟨buffer, remainBytes, some handler, connection⟩)
                (done (runHandler implementation handler (buffer.flatten ++ before ++ [byte]))
                  connection)
                (slice chunk remainBytes chunk.length) := by
              rw [← hdata]
              exact continues_data rfl hpos hlong hfuel
            refine (hcont.reader hfed due_data hwaits hcalm ?_).trans ?_
            · intro fuel protocol hfuel hwaits hclean
              exact ih _ hrest hwaits hclean hfuel rfl
            · rw [← hchunk]
          · obtain ⟨fuel, rfl⟩ : ∃ n, fuel = n + 1 := ⟨fuel - 1, by omega⟩
            rw [processChunk_succ]
            simp only [if_neg hlong, caught, MemcachedTextProtocol.reader, Option.map_some,
              List.flatten_append, List.flatten_cons, List.flatten_nil, List.append_nil]
            exact (foldl_feed_data (by omega)).symm

/-! ## Runs -/

theorem waits_new : new.reader.Waits := by
  intro bytes handler hblock
  cases hblock

/-- A run feeds the bytes of all its chunks to the reader. -/
theorem reader_run {chunks : List Bytes} (hwaits : protocol.reader.Waits)
    (hclean : Along (receive implementation) protocol chunks (Clean implementation)) :
    (run implementation protocol chunks).reader =
      chunks.flatten.foldl (feed implementation) protocol.reader := by
  induction chunks generalizing protocol with
  | nil => rfl
  | cons chunk chunks ih =>
      rcases Library.along_cons_iff.mp hclean with ⟨hfirst, hrest⟩
      have hreceive : (receive implementation protocol chunk).reader =
          chunk.foldl (feed implementation) protocol.reader :=
        reader_processChunk hwaits hfirst le_rfl
      have hwaits' : (receive implementation protocol chunk).reader.Waits := by
        rw [hreceive]
        exact hwaits.foldl
      calc (run implementation (receive implementation protocol chunk) chunks).reader
          = chunks.flatten.foldl (feed implementation)
              (receive implementation protocol chunk).reader := ih hwaits' hrest
        _ = (chunk :: chunks).flatten.foldl (feed implementation) protocol.reader := by
            rw [hreceive, List.flatten_cons, List.foldl_append]

/-- Two ways to cut the bytes of a client lead to the same calls and the same replies. -/
def SameConnection (implementation : MemcachedSubset) (chunks chunks' : List Bytes) : Prop :=
  (run implementation new chunks).connection.calls =
      (run implementation new chunks').connection.calls ∧
    (run implementation new chunks).connection.written =
      (run implementation new chunks').connection.written

/-- Cuts at which nothing is lost do not matter. -/
theorem same_connection_of_clean {chunks chunks' : List Bytes}
    (hbytes : chunks.flatten = chunks'.flatten)
    (hclean : Along (receive implementation) new chunks (Clean implementation))
    (hclean' : Along (receive implementation) new chunks' (Clean implementation)) :
    SameConnection implementation chunks chunks' := by
  have hreader : (run implementation new chunks).reader = (run implementation new chunks').reader := by
    rw [reader_run waits_new hclean, reader_run waits_new hclean', hbytes]
  have hconnection := congrArg Reader.connection hreader
  exact ⟨congrArg Connection.calls hconnection, congrArg Connection.written hconnection⟩

/-- An implementation with the last value of each key. -/
def storing : MemcachedSubset where
  response _ _ := .ok .stored
  number _ _ := .ok none
  values calls call :=
    let last (key : Text) : List Response.Value :=
      (calls.reverse.filterMap fun
        | .set stored flags data => if stored = key then some ⟨key, flags, data, none⟩ else none
        | _ => none).take 1
    match call with
    | .get keys => (keys.flatMap last, none)
    | _ => ([], none)
  stats _ _ := ([], none)
  version _ := .ok ['1']
  quit _ := .ok ()

def ascii (text : String) : Bytes := text.toList.map fun char => UInt8.ofNat char.toNat

/-- A data block with an end of line in it, where it is cut, and a line with an error at the end. -/
theorem same_connection_of_cut_block :
    SameConnection storing [ascii "set k 0 0 4\r\na\r\nb\r\nget k\r\nget\r\n"]
      [ascii "set k 0 0 4\r\na\r", ascii "\nb\r\nge", ascii "t k\r\nget\r\n"] := by
  apply same_connection_of_clean
  · decide +kernel
  · decide +kernel
  · decide +kernel

/-- The end of a line that is cut in two is not seen: two commands become one. -/
theorem cut_line_end_changes_calls :
    ¬∀ (implementation : MemcachedSubset) (chunks chunks' : List Bytes),
      (∀ chunk ∈ chunks, chunk ≠ []) → (∀ chunk ∈ chunks', chunk ≠ []) →
      chunks.flatten = chunks'.flatten → SameConnection implementation chunks chunks' := by
  intro h
  have hcalls := (h storing [ascii "get a\r\nget b\r\n"] [ascii "get a\r", ascii "\nget b\r\n"]
    (by decide +kernel) (by decide +kernel) (by decide +kernel)).1
  revert hcalls
  decide +kernel

end MemcachedTextProtocol

end Memcached
end EasyFramework
end UniqysKit
