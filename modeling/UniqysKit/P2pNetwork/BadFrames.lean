import UniqysKit.P2pNetwork.MessageChannel
import UniqysKit.Protocol.Message

/-!
# Frames that are not well formed

What a remote peer can do to the handler of `message-channel.ts`.  The handler has no way out for a
frame that does not decode, and a frame without bytes never does: it throws out of the callback of
the stream and leaves its buffers full, so that it throws again at each later chunk.
-/

namespace UniqysKit
namespace P2pNetwork

open Library.BigEndian

/-! ## The frames of a stream -/

theorem deserialize_size {size : Bytes} (h : size.length = 8) (rest : Bytes) :
    UInt64.deserialize (size ++ rest) = .ok (ofBytes (size.drop 2), rest) := by
  rw [UInt64.deserialize, consume_append h]
  exact if_pos h

theorem deserialize_of_lt {stream : Bytes} (h : stream.length < 8) :
    UInt64.deserialize stream = .error .outOfRange := by
  have hne : (stream.take 8).length ≠ 8 := by
    rw [List.length_take]
    omega
  exact if_neg hne

theorem length_lt_of_deserialize {stream rest : Bytes} {size : Nat}
    (h : UInt64.deserialize stream = .ok (size, rest)) : rest.length < stream.length := by
  rcases Nat.lt_or_ge stream.length 8 with hlt | hge
  · rw [deserialize_of_lt hlt] at h
    cases h
  · have hlength : (stream.take 8).length = 8 := by
      rw [List.length_take]
      omega
    rw [← List.take_append_drop 8 stream, deserialize_size hlength] at h
    cases h
    rw [List.length_drop]
    omega

/-- A frame: the size it states, those bytes of its message that have come, and what is behind. -/
structure Frame where
  size : Nat
  bytes : Bytes
  rest : Bytes

/-- All bytes of the message have come. -/
def Frame.Complete (frame : Frame) : Prop := frame.bytes.length = frame.size

instance (frame : Frame) : Decidable frame.Complete := inferInstanceAs (Decidable (_ = _))

/-- The frames of a stream, whether or not their messages decode. -/
def frames (stream : Bytes) : List Frame :=
  match _h : UInt64.deserialize stream with
  | .ok (size, rest) => ⟨size, rest.take size, rest.drop size⟩ :: frames (rest.drop size)
  | .error _ => []
termination_by stream.length
decreasing_by
  have hlt := length_lt_of_deserialize _h
  rw [List.length_drop]
  omega

theorem frames_of_lt {stream : Bytes} (h : stream.length < 8) : frames stream = [] := by
  have hread := deserialize_of_lt h
  rw [frames]
  split
  · rename_i heq
    rw [hread] at heq
    cases heq
  · rfl

theorem frames_size {size : Bytes} (h : size.length = 8) (rest : Bytes) :
    frames (size ++ rest) =
      ⟨ofBytes (size.drop 2), rest.take (ofBytes (size.drop 2)), rest.drop (ofBytes (size.drop 2))⟩ ::
        frames (rest.drop (ofBytes (size.drop 2))) := by
  have hread := deserialize_size h rest
  rw [frames]
  split
  · rename_i heq
    rw [hread] at heq
    cases heq
    rfl
  · rename_i heq
    rw [hread] at heq
    cases heq

/-- A frame at the start of the stream. -/
theorem frames_frame {size bytes : Bytes} (h : size.length = 8)
    (hsize : ofBytes (size.drop 2) = bytes.length) (rest : Bytes) :
    frames (size ++ (bytes ++ rest)) = ⟨bytes.length, bytes, rest⟩ :: frames rest := by
  rw [frames_size h, hsize, List.take_left, List.drop_left]

variable {α : Type}

/-- The message of a complete frame, if it decodes. -/
def Frame.message (deserializer : Deserializer α) (frame : Frame) : Option α :=
  if frame.Complete then (deserializer frame.bytes).toOption.map Prod.fst else none

/-! ## A stream that goes on after a throw -/

/-- What the chunks of a stream lead to: the errors thrown out of the callback, and the channel. -/
def deliver (fits : Nat → Bool) (deserializer : Deserializer α) :
    List Bytes → Channel α → List Error × Channel α
  | [], channel => ([], channel)
  | chunk :: chunks, channel =>
      match Channel.handler fits deserializer chunk channel with
      | .ok () next => deliver fits deserializer chunks next
      | .error e next =>
          let (thrown, last) := deliver fits deserializer chunks next
          (e :: thrown, last)

namespace Channel

section Passes

variable (fits : Nat → Bool) (deserializer : Deserializer α)

/-- The bytes of the frame that the channel is in. -/
def held (channel : Channel α) : Bytes :=
  match channel.msgBuff with
  | none => channel.sizeBuff.content
  | some msgBuff => channel.sizeBuff.buff ++ msgBuff.content

/-- Where the handler can stand: in a size, or in a message. Only one without bytes can be complete
already. -/
inductive Midway (channel : Channel α) : Prop where
  | size (hmsg : channel.msgBuff = none) (hroom : ¬channel.sizeBuff.Full)
  | message {msgBuff : Filling} (hmsg : channel.msgBuff = some msgBuff)
      (hreset : channel.sizeBuff.filled = 0)
      (hsize : ofBytes (channel.sizeBuff.buff.drop 2) = msgBuff.buff.length)
      (hfits : fits msgBuff.buff.length = true) (hroom : msgBuff.Full → msgBuff.buff = [])

/-- The frame fits, and its message is decoded. -/
def Emits (frame : Frame) (message : α) : Prop :=
  fits frame.size = true ∧ frame.Complete ∧ ∃ left, deserializer frame.bytes = .ok (message, left)

/-- Between two places in a stream the frames are well formed, and their messages are emitted. -/
structure Passes (channel : Channel α) (stream : Bytes) (next : Channel α) (left : Bytes) : Prop where
  midway : Midway fits next
  emitted : ∃ done messages, frames (channel.held ++ stream) = done ++ frames (next.held ++ left) ∧
    List.Forall₂ (Emits fits deserializer) done messages ∧
      next.messages = channel.messages ++ messages

/-- Before `stream` has come, a frame makes the handler throw. A message without bytes does so only
when something comes behind it, and `again` if it comes with no byte. -/
def Stops (channel : Channel α) (stream : Bytes) (again : Prop) : Prop :=
  ∃ done frame later, frames (channel.held ++ stream) = done ++ frame :: later ∧
    (fits frame.size = false ∨ (frame.Complete ∧ ∃ e, deserializer frame.bytes = .error e) ∧
      (frame.size = 0 → frame.rest = [] → again))

end Passes

section Passes

variable {fits : Nat → Bool} {deserializer : Deserializer α} {channel next last : Channel α}
  {stream left chunk : Bytes} {again again' : Prop}

theorem Passes.same (hmidway : Midway fits next) (hheld : next.held ++ left = channel.held ++ stream)
    (hmessages : next.messages = channel.messages) :
    Passes fits deserializer channel stream next left := by
  refine ⟨hmidway, [], [], ?_, .nil, ?_⟩
  · rw [hheld, List.nil_append]
  · rw [hmessages, List.append_nil]

theorem Passes.trans {rest : Bytes} (h : Passes fits deserializer channel stream next left)
    (h' : Passes fits deserializer next left last rest) :
    Passes fits deserializer channel stream last rest := by
  rcases h.emitted with ⟨done, messages, hframes, hall, hmessages⟩
  rcases h'.emitted with ⟨done', messages', hframes', hall', hmessages'⟩
  refine ⟨h'.midway, done ++ done', messages ++ messages', ?_, List.rel_append hall hall', ?_⟩
  · rw [hframes, hframes', List.append_assoc]
  · rw [hmessages', hmessages, List.append_assoc]

theorem Passes.stops (h : Passes fits deserializer channel stream next left)
    (h' : Stops fits deserializer next left again') (hagain : again' → again) :
    Stops fits deserializer channel stream again := by
  rcases h.emitted with ⟨done, messages, hframes, -, -⟩
  rcases h' with ⟨done', frame, later, hframes', hstop⟩
  refine ⟨done ++ done', frame, later, ?_, ?_⟩
  · rw [hframes, hframes', List.append_assoc]
  · exact hstop.imp_right fun hbad => ⟨hbad.1, fun hsize hrest => hagain (hbad.2 hsize hrest)⟩

/-- One pass goes on in the frame, emits its message, or throws because of it. -/
theorem consumeChunk_midway (h : Midway fits channel) (rest : Bytes) :
    (∃ consumed next, consumeChunk fits deserializer chunk channel = .ok consumed next ∧
      Passes fits deserializer channel (chunk ++ rest) next (chunk.drop consumed ++ rest)) ∨
    (∃ e next, consumeChunk fits deserializer chunk channel = .error e next ∧
      Stops fits deserializer channel (chunk ++ rest) (chunk = [] ∧ rest = [])) := by
  cases h with
  | size hmsg hroom =>
      have hsize : (channel.sizeBuff.copy chunk).2.buff.length = 8 :=
        (Filling.length_buff_copy chunk channel.sizeBuff).trans channel.sizeBuff_size
      have hheld : channel.held = channel.sizeBuff.content := by simp only [held, hmsg]
      have hbytes := Filling.content_copy_append chunk channel.sizeBuff rest
      by_cases hfull : (channel.sizeBuff.copy chunk).2.Full
      · -- the size is complete, and a buffer is needed for the message
        rw [Filling.content_of_full hfull] at hbytes
        have hread := deserialize_size hsize []
        rw [List.append_nil] at hread
        cases hfits : fits (ofBytes ((channel.sizeBuff.copy chunk).2.buff.drop 2)) with
        | true =>
            have halloc : sizedBuffer fits (channel.sizeBuff.copy chunk).2.buff =
                .ok (.alloc (ofBytes ((channel.sizeBuff.copy chunk).2.buff.drop 2))) := by
              simp only [sizedBuffer, hread, Result.ok_bind, hfits, if_true, Result.pure_eq]
            refine .inl ⟨(channel.sizeBuff.copy chunk).1, { channel with
              sizeBuff := (channel.sizeBuff.copy chunk).2.reset, sizeBuff_size := hsize
              msgBuff := some (.alloc (ofBytes ((channel.sizeBuff.copy chunk).2.buff.drop 2))) },
              ?_, ?_⟩
            · simp only [consumeChunk, hmsg, if_pos hfull, halloc]
            · refine .same (.message rfl rfl ?_ ?_ ?_) ?_ rfl
              · rw [Filling.length_buff_alloc]
                rfl
              · rw [Filling.length_buff_alloc]
                exact hfits
              · -- a new buffer is only full if it has no room at all
                intro hempty
                rw [Filling.Full] at hempty
                exact List.eq_nil_of_length_eq_zero hempty.symm
              · rw [hheld, ← hbytes]
                simp only [held, Filling.content_alloc, List.append_nil]
                rfl
        | false =>
            have halloc : sizedBuffer fits (channel.sizeBuff.copy chunk).2.buff =
                .error ⟨"ERR_INVALID_OPT_VALUE"⟩ := by
              simp only [sizedBuffer, hread, Result.ok_bind, hfits, Bool.false_eq_true, if_false,
                Result.throw_eq]
            refine .inr ⟨⟨"ERR_INVALID_OPT_VALUE"⟩, { channel with
              sizeBuff := (channel.sizeBuff.copy chunk).2, sizeBuff_size := hsize }, ?_, ?_⟩
            · simp only [consumeChunk, hmsg, if_pos hfull, halloc]
            · have hframes := frames_size hsize (chunk.drop (channel.sizeBuff.copy chunk).1 ++ rest)
              rw [hbytes, ← hheld] at hframes
              exact ⟨[], _, _, hframes, .inl hfits⟩
      · refine .inl ⟨(channel.sizeBuff.copy chunk).1, { channel with
          sizeBuff := (channel.sizeBuff.copy chunk).2, sizeBuff_size := hsize }, ?_, ?_⟩
        · simp only [consumeChunk, hmsg, if_neg hfull]
        · refine .same (.size hmsg hfull) ?_ rfl
          rw [hheld, ← hbytes]
          simp only [held, hmsg]
  | @message msgBuff hmsg hreset hsize hfits hroom =>
      have hheld : channel.held = channel.sizeBuff.buff ++ msgBuff.content := by simp only [held, hmsg]
      have hlength := Filling.length_buff_copy chunk msgBuff
      have hbytes := Filling.content_copy_append chunk msgBuff rest
      by_cases hfull : (msgBuff.copy chunk).2.Full
      · -- the message is complete
        rw [Filling.content_of_full hfull] at hbytes
        have hframes : frames (channel.held ++ (chunk ++ rest)) =
            ⟨msgBuff.buff.length, (msgBuff.copy chunk).2.buff, chunk.drop (msgBuff.copy chunk).1 ++ rest⟩ ::
              frames (chunk.drop (msgBuff.copy chunk).1 ++ rest) := by
          rw [hheld, List.append_assoc, ← hbytes, ← hlength]
          exact frames_frame channel.sizeBuff_size (hsize.trans hlength.symm) _
        cases hread : deserializer (msgBuff.copy chunk).2.buff with
        | ok decoded =>
            refine .inl ⟨(msgBuff.copy chunk).1, { channel with
              msgBuff := none, messages := channel.messages ++ [decoded.1] }, ?_, ?_⟩
            · simp only [consumeChunk, hmsg, if_pos hfull, hread]
            · have hnone : channel.sizeBuff.content = [] :=
                List.eq_nil_of_length_eq_zero (by rw [Filling.length_content, hreset])
              refine ⟨.size rfl ?_, [⟨msgBuff.buff.length, (msgBuff.copy chunk).2.buff,
                chunk.drop (msgBuff.copy chunk).1 ++ rest⟩], [decoded.1], ?_, .cons ?_ .nil, rfl⟩
              · rw [Filling.Full, hreset, channel.sizeBuff_size]
                decide
              · rw [hframes]
                simp only [held, hnone, List.nil_append, List.singleton_append]
              · exact ⟨hfits, hlength, decoded.2, hread⟩
        | error e =>
            refine .inr ⟨e, { channel with msgBuff := some (msgBuff.copy chunk).2 }, ?_, ?_⟩
            · simp only [consumeChunk, hmsg, if_pos hfull, hread]
            · refine ⟨[], _, _, hframes, .inr ⟨⟨hlength, e, hread⟩, ?_⟩⟩
              -- of a chunk nothing fits into a buffer without room
              intro hzero hrest
              have hconsumed : (msgBuff.copy chunk).1 = 0 := by
                rw [Filling.copy_fst, show msgBuff.buff.length = 0 from hzero]
                omega
              rw [show (Frame.mk _ _ _).rest = _ from rfl, hconsumed] at hrest
              exact List.append_eq_nil_iff.mp hrest
      · refine .inl ⟨(msgBuff.copy chunk).1, { channel with msgBuff := some (msgBuff.copy chunk).2 },
          ?_, ?_⟩
        · simp only [consumeChunk, hmsg, if_neg hfull]
        · refine .same (.message rfl hreset ?_ ?_ fun h => absurd h hfull) ?_ rfl
          · rw [hlength]
            exact hsize
          · rw [hlength]
            exact hfits
          · rw [hheld]
            simp only [held, List.append_assoc, hbytes]

theorem handler_midway (h : Midway fits channel) (rest : Bytes) :
    (∃ next, handler fits deserializer chunk channel = .ok () next ∧
      Passes fits deserializer channel (chunk ++ rest) next rest) ∨
    (∃ e next, handler fits deserializer chunk channel = .error e next ∧
      Stops fits deserializer channel (chunk ++ rest) (chunk = [] ∧ rest = [])) := by
  fun_induction handler fits deserializer chunk channel with
  | case1 chunk channel e next herror =>
      rcases consumeChunk_midway h rest with ⟨consumed, next', hok, -⟩ | ⟨e', next', herror', hstops⟩
      · rw [herror] at hok
        cases hok
      · exact .inr ⟨e, next, rfl, hstops⟩
  | case2 chunk channel consumed next hpass hlt ih =>
      rcases consumeChunk_midway h rest with ⟨consumed', next', hok, hpasses⟩ | ⟨e, next', herror, -⟩
      · rw [hpass] at hok
        cases hok
        refine (ih hpasses.midway).imp ?_ ?_
        · rintro ⟨last, hlast, hpasses'⟩
          exact ⟨last, hlast, hpasses.trans hpasses'⟩
        · rintro ⟨e, last, hlast, hstops⟩
          refine ⟨e, last, hlast, hpasses.stops hstops ?_⟩
          -- the rest of the chunk is handled because it is not empty
          rintro ⟨hnone, -⟩
          have hlength := congrArg List.length hnone
          rw [List.length_drop, List.length_nil] at hlength
          omega
      · rw [hpass] at herror
        cases herror
  | case3 chunk channel consumed next hpass hle =>
      rcases consumeChunk_midway h rest with ⟨consumed', next', hok, hpasses⟩ | ⟨e, next', herror, -⟩
      · rw [hpass] at hok
        cases hok
        rw [List.drop_eq_nil_of_le (Nat.le_of_not_lt hle), List.nil_append] at hpasses
        exact .inl ⟨next, rfl, hpasses⟩
      · rw [hpass] at herror
        cases herror

/-- A message without bytes that has not been handled yet. -/
def Pending (channel : Channel α) : Prop := ∃ msgBuff, channel.msgBuff = some msgBuff ∧ msgBuff.Full

/-- An empty chunk is enough for it. -/
theorem not_pending_of_handler_nil (h : Midway fits channel)
    (hok : handler fits deserializer [] channel = .ok () next) : ¬ next.Pending := by
  rw [handler] at hok
  split at hok
  · cases hok
  · -- nothing is left of an empty chunk, so there is a single turn
    rename_i consumed next' hpass
    rw [dif_neg (by exact Nat.not_lt_zero consumed)] at hok
    cases hok
    unfold consumeChunk at hpass
    split at hpass
    · rename_i msgBuff hmsg
      simp only at hpass
      split at hpass
      · split at hpass
        · cases hpass
          rintro ⟨msgBuff', hsome, -⟩
          cases hsome
        · cases hpass
      · rename_i hroom
        cases hpass
        rintro ⟨msgBuff', hsome, hfull⟩
        cases hsome
        exact hroom hfull
    · rename_i hmsg
      -- between two turns the buffer of the size is never full
      have hroom : ¬ (channel.sizeBuff.copy []).2.Full := by
        cases h with
        | size _ hroom =>
            intro hfull
            rw [Filling.Full, Filling.copy_filled, Filling.length_buff_copy] at hfull
            exact hroom (by simpa [Filling.Full] using hfull)
        | message hsome => exact absurd (hmsg.symm.trans hsome) (by simp)
      rw [if_neg hroom] at hpass
      cases hpass
      rintro ⟨msgBuff', hsome, -⟩
      exact absurd (hmsg.symm.trans hsome) (by simp)

/-- A stream either passes, and at the end at most a message without bytes is left that no chunk came
behind, or a frame makes the handler throw. -/
theorem deliver_midway {chunks : List Bytes} (h : Midway fits channel) :
    (∃ last, deliver fits deserializer chunks channel = ([], last) ∧
      Passes fits deserializer channel chunks.flatten last [] ∧
        (chunks.getLast? = some [] → ¬ last.Pending)) ∨
    ((deliver fits deserializer chunks channel).1 ≠ [] ∧
      Stops fits deserializer channel chunks.flatten (chunks.getLast? = some [])) := by
  induction chunks generalizing channel with
  | nil => exact .inl ⟨channel, rfl, .same h rfl rfl, nofun⟩
  | cons chunk chunks ih =>
      rw [List.flatten_cons]
      rcases @handler_midway _ _ deserializer _ _ h chunks.flatten with
        ⟨next, hok, hpasses⟩ | ⟨e, next, herror, hstops⟩
      · have hdeliver : deliver fits deserializer (chunk :: chunks) channel =
            deliver fits deserializer chunks next := by
          rw [deliver, hok]
        rw [hdeliver]
        refine (ih hpasses.midway).imp ?_ ?_
        · rintro ⟨last, hlast, hpasses', hend⟩
          refine ⟨last, hlast, hpasses.trans hpasses', ?_⟩
          -- the empty chunk at the end is this one or a later one
          cases chunks with
          | nil =>
              intro hnil
              cases hlast
              cases hnil
              exact not_pending_of_handler_nil h hok
          | cons chunk' chunks => exact hend
        · rintro ⟨hthrown, hstops⟩
          refine ⟨hthrown, hpasses.stops hstops ?_⟩
          cases chunks with
          | nil => nofun
          | cons chunk' chunks => exact id
      · refine .inr ⟨?_, ?_⟩
        · rw [deliver, herror]
          exact List.cons_ne_nil _ _
        · refine (Passes.same h rfl rfl).stops hstops ?_
          rintro ⟨rfl, hnone⟩
          -- all the chunks are empty, the last one too
          cases hlast : ([] :: chunks).getLast? with
          | none => exact absurd (List.getLast?_eq_none_iff.mp hlast) (List.cons_ne_nil _ _)
          | some last =>
              rcases List.mem_cons.mp (List.mem_of_getLast? hlast) with rfl | hmem
              · rfl
              · rw [List.flatten_eq_nil_iff.mp hnone last hmem]

/-- The frame that a channel is in when the stream ends: it fits, and is not complete unless it is
without bytes. -/
theorem frames_held (h : Midway fits channel) :
    (frames channel.held = [] ∧ ¬ channel.Pending) ∨
      ∃ frame, frames channel.held = [frame] ∧ fits frame.size = true ∧
        (frame.Complete → frame.size = 0 ∧ frame.bytes = [] ∧ frame.rest = [] ∧ channel.Pending) := by
  cases h with
  | size hmsg hroom =>
      -- the size itself is not complete
      refine .inl ⟨frames_of_lt ?_, ?_⟩
      · simp only [held, hmsg]
        rw [Filling.length_content]
        exact lt_of_le_of_ne (by rw [← channel.sizeBuff_size]; exact channel.sizeBuff.filled_le)
          (by rw [← channel.sizeBuff_size]; exact hroom)
      · rintro ⟨msgBuff, hsome, -⟩
        exact absurd (hmsg.symm.trans hsome) (by simp)
  | @message msgBuff hmsg hreset hsize hfits hroom =>
      have hle : msgBuff.content.length ≤ msgBuff.buff.length := by
        rw [Filling.length_content]
        exact msgBuff.filled_le
      have hframes : frames channel.held = [⟨msgBuff.buff.length, msgBuff.content, []⟩] := by
        simp only [held, hmsg]
        rw [frames_size channel.sizeBuff_size, hsize, List.take_of_length_le hle,
          List.drop_eq_nil_of_le hle, frames_of_lt (by decide)]
      refine .inr ⟨_, hframes, hfits, ?_⟩
      intro hcomplete
      -- a full buffer is emptied at once, unless it has no bytes
      have hfull : msgBuff.Full := by
        rw [Filling.Full, ← Filling.length_content]
        exact hcomplete
      have hnone := hroom hfull
      refine ⟨congrArg List.length hnone, ?_, rfl, msgBuff, hmsg, hfull⟩
      rw [show (Frame.mk _ _ _).bytes = _ from rfl, Filling.content_of_full hfull, hnone]

/-- A handler that has thrown does so again. -/
theorem consumeChunk_again {e : Error} (h : consumeChunk fits deserializer chunk channel = .error e next)
    (chunk' : Bytes) : consumeChunk fits deserializer chunk' next = .error e next := by
  unfold consumeChunk at h
  split at h
  · -- the message is complete and does not decode: it is decoded again
    rename_i msgBuff hmsg
    simp only at h
    split at h
    · rename_i hfull
      split at h
      · cases h
      · rename_i hread
        cases h
        simp only [consumeChunk, Filling.copy_of_full hfull, if_pos hfull, hread]
    · cases h
  · -- the size is complete and no message of that size fits: it is asked for again
    rename_i hmsg
    simp only at h
    split at h
    · rename_i hfull
      split at h
      · cases h
      · rename_i halloc
        cases h
        simp only [consumeChunk, hmsg, Filling.copy_of_full hfull, if_pos hfull, halloc]
    · cases h

theorem handler_again {e : Error} (h : handler fits deserializer chunk channel = .error e next)
    (chunk' : Bytes) : handler fits deserializer chunk' next = .error e next := by
  fun_induction handler fits deserializer chunk channel with
  | case1 chunk channel e' next' herror =>
      cases h
      have hagain := consumeChunk_again herror chunk'
      rw [handler]
      split
      · rename_i herror'
        rw [hagain] at herror'
        cases herror'
        rfl
      · rename_i hok
        rw [hagain] at hok
        cases hok
  | case2 chunk channel consumed next' hpass hlt ih => exact ih h
  | case3 chunk channel consumed next' hpass hle => cases h

/-- After a throw no frame is emitted any more, and each chunk leads to the same throw. -/
theorem deliver_again {e : Error} (h : handler fits deserializer chunk channel = .error e next)
    (chunks : List Bytes) :
    deliver fits deserializer (chunk :: chunks) channel =
      (List.replicate (chunks.length + 1) e, next) := by
  have hrest : deliver fits deserializer chunks next = (List.replicate chunks.length e, next) := by
    induction chunks with
    | nil => rfl
    | cons chunk' chunks ih => simp only [deliver, handler_again h chunk', ih, List.length_cons,
        List.replicate_succ]
  simp only [deliver, h, hrest, List.replicate_succ]

end Passes

end Channel

/-! ## Harmless streams -/

section Harmless

variable (fits : Nat → Bool) (deserializer : Deserializer α) (chunks : List Bytes)

/-- Nothing is thrown out of the callback, and each well-formed frame is emitted once, in order. -/
def Harmless : Prop :=
  (deliver fits deserializer chunks .new).1 = [] ∧
    (deliver fits deserializer chunks .new).2.messages =
      (frames chunks.flatten).filterMap (Frame.message deserializer)

/-- Each size fits into a buffer and each message that has come decodes, but for one without bytes that
nothing comes behind. -/
def WellFormed : Prop :=
  ∀ frame ∈ frames chunks.flatten, fits frame.size = true ∧ (frame.Complete →
    (∃ message left, deserializer frame.bytes = .ok (message, left)) ∨
      (frame.size = 0 ∧ frame.rest = [] ∧ chunks.getLast? ≠ some []))

variable {fits deserializer chunks}

theorem Channel.midway_new : Channel.Midway fits (Channel.new : Channel α) :=
  .size rfl (Nat.zero_ne_add_one 7)

theorem frames_held_new (stream : Bytes) : frames ((Channel.new : Channel α).held ++ stream) =
    frames stream := rfl

/-- Frames whose messages are emitted decode to these messages. -/
theorem filterMap_message_of_emits {done : List Frame} {messages : List α}
    (h : List.Forall₂ (Channel.Emits fits deserializer) done messages) :
    done.filterMap (Frame.message deserializer) = messages := by
  induction h with
  | nil => rfl
  | @cons frame message done messages hframe _ ih =>
      rcases hframe with ⟨-, hcomplete, left, hread⟩
      have hmessage : frame.message deserializer = some message := by
        rw [Frame.message, if_pos hcomplete, hread]
        rfl
      rw [List.filterMap_cons_some hmessage, ih]

theorem harmless_iff_wellFormed (hempty : ∃ e, deserializer [] = .error e) :
    Harmless fits deserializer chunks ↔ WellFormed fits deserializer chunks := by
  rcases hempty with ⟨e, hempty⟩
  rcases @Channel.deliver_midway _ fits deserializer _ chunks Channel.midway_new with
    ⟨last, hlast, hpasses, hend⟩ | ⟨hthrown, hstops⟩
  · -- the handler goes on: the frames that are done are the ones that came out
    rcases hpasses.emitted with ⟨done, messages, hframes, hall, hmessages⟩
    rw [frames_held_new, List.append_nil] at hframes
    refine iff_of_true ⟨by rw [hlast], ?_⟩ ?_
    · -- the frame at the end of the stream has no message
      have hnone : (frames last.held).filterMap (Frame.message deserializer) = [] := by
        rcases Channel.frames_held hpasses.midway with ⟨hnil, -⟩ | ⟨frame, hframe, -, hcomplete⟩
        · rw [hnil]
          rfl
        · have hmessage : frame.message deserializer = none := by
            unfold Frame.message
            split
            · rename_i hcompleted
              rw [(hcomplete hcompleted).2.1, hempty]
              rfl
            · rfl
          rw [hframe, List.filterMap_cons_none hmessage]
          rfl
      rw [hlast, hframes, List.filterMap_append, filterMap_message_of_emits hall, hnone,
        List.append_nil]
      exact hmessages
    · intro frame hmem
      rw [hframes] at hmem
      -- a frame that is done gave its message, the one in hand is complete only when it is empty
      rcases List.mem_append.mp hmem with hdone | hheld
      · rcases List.getElem_of_mem hdone with ⟨i, hi, hframe⟩
        have hemits := (List.forall₂_iff_get.mp hall).2 i hi (hall.length_eq ▸ hi)
        simp only [List.get_eq_getElem, hframe] at hemits
        exact ⟨hemits.1, fun _ => .inl ⟨_, hemits.2.2⟩⟩
      · rcases Channel.frames_held hpasses.midway with ⟨hnil, -⟩ | ⟨frame', hframe, hfits, hcomplete⟩
        · rw [hnil] at hheld
          cases hheld
        · rw [hframe] at hheld
          cases List.mem_singleton.mp hheld
          refine ⟨hfits, fun hcompleted => .inr ?_⟩
          rcases hcomplete hcompleted with ⟨hsize, -, hrest, hpending⟩
          exact ⟨hsize, hrest, fun hnil => hend hnil hpending⟩
  · -- the handler has thrown, and the frame where it did is not well formed
    refine iff_of_false (fun h => hthrown h.1) ?_
    rcases hstops with ⟨done, frame, later, hframes, hstop⟩
    rw [frames_held_new] at hframes
    intro hwell
    rcases hwell frame (by rw [hframes]; simp) with ⟨hfits, hcomplete⟩
    rcases hstop with hunfit | ⟨⟨hcompleted, e', herror⟩, hagain⟩
    · rw [hfits] at hunfit
      cases hunfit
    · rcases hcomplete hcompleted with ⟨message, left, hread⟩ | ⟨hsize, hrest, hlast⟩
      · rw [herror] at hread
        cases hread
      · exact hlast (hagain hsize hrest)

end Harmless

/-- A frame with a code that is not known, and then one with the height of a new block. -/
def unknownCode : List Bytes :=
  [[0, 0, 0, 0, 0, 0, 0, 1, 255, 0, 0, 0, 0, 0, 0, 0, 9, 0x12, 0, 0, 0, 0, 0, 0, 0, 7]]

end P2pNetwork
end UniqysKit
