import UniqysKit.Serialize

/-!
# Messages over a byte stream

`message-channel.ts` of `packages/p2p-network`.  A message is sent behind its size, and the receiver
fills one buffer with the size and then another one with the message, from chunks that the stream
cuts where it likes.
-/

namespace UniqysKit
namespace P2pNetwork

open Library.BigEndian

/-! ## Buffers that are filled -/

/-- A buffer, and how much of it has been written. -/
structure Filling where
  buff : Bytes
  filled : Nat
  filled_le : filled ≤ buff.length

namespace Filling

/-- `Buffer.alloc`. -/
def alloc (size : Nat) : Filling := ⟨List.replicate size 0, 0, Nat.zero_le _⟩

/-- `chunk.copy(buff, filled)`: the number of bytes copied, and the buffer with them. -/
def copy (chunk : Bytes) (f : Filling) : Nat × Filling :=
  let consumed := min chunk.length (f.buff.length - f.filled)
  (consumed, {
    buff := f.buff.take f.filled ++ (chunk.take consumed ++ f.buff.drop (f.filled + consumed))
    filled := f.filled + consumed
    filled_le := by
      have hle := f.filled_le
      simp only [List.length_append, List.length_take, List.length_drop]
      omega })

def Full (f : Filling) : Prop := f.filled = f.buff.length

instance (f : Filling) : Decidable f.Full := inferInstanceAs (Decidable (_ = _))

/-- The buffer is used again. -/
def reset (f : Filling) : Filling := { f with filled := 0, filled_le := Nat.zero_le _ }

/-- The bytes written so far. -/
def content (f : Filling) : Bytes := f.buff.take f.filled

variable (chunk : Bytes) (f : Filling)

@[simp] theorem content_alloc (size : Nat) : (alloc size).content = [] := rfl

@[simp] theorem length_buff_alloc (size : Nat) : (alloc size).buff.length = size := by
  simp [alloc]

@[simp] theorem length_content : f.content.length = f.filled := by
  have hle := f.filled_le
  simp [content, hle]

@[simp] theorem copy_fst : (copy chunk f).1 = min chunk.length (f.buff.length - f.filled) := rfl

@[simp] theorem copy_filled : (copy chunk f).2.filled = f.filled + (copy chunk f).1 := rfl

@[simp] theorem length_buff_copy : (copy chunk f).2.buff.length = f.buff.length := by
  have hle := f.filled_le
  simp only [copy, List.length_append, List.length_take, List.length_drop]
  omega

/-- The bytes copied come behind those that are there. -/
theorem content_copy : (copy chunk f).2.content = f.content ++ chunk.take (copy chunk f).1 := by
  have hle := f.filled_le
  have hlength : (f.buff.take f.filled ++ chunk.take (copy chunk f).1).length =
      f.filled + (copy chunk f).1 := by
    simp only [copy_fst, List.length_append, List.length_take]
    omega
  rw [content, copy_filled, ← hlength, content, copy]
  simp only [← List.append_assoc]
  exact List.take_left

/-- What was there, the bytes copied and the bytes not copied are the bytes that came. -/
theorem content_copy_append (rest : Bytes) :
    (copy chunk f).2.content ++ (chunk.drop (copy chunk f).1 ++ rest) =
      f.content ++ (chunk ++ rest) := by
  rw [content_copy, List.append_assoc, ← List.append_assoc (chunk.take _), List.take_append_drop]

variable {chunk f}

theorem content_of_full (h : f.Full) : f.content = f.buff := by
  rw [content, h, List.take_length]

/-- If nothing is copied of a chunk, then there is no room. -/
theorem full_of_copy (h : (copy chunk f).1 = 0) (hchunk : 0 < chunk.length) : f.Full := by
  have hle := f.filled_le
  rw [copy_fst] at h
  unfold Full
  omega

/-- If there is room, the chunk has been copied as a whole. -/
theorem copy_of_not_full (h : ¬(copy chunk f).2.Full) : (copy chunk f).1 = chunk.length := by
  have hle := f.filled_le
  unfold Full at h
  rw [copy_filled, length_buff_copy, copy_fst] at h
  rw [copy_fst]
  omega

/-- Into a full buffer nothing is copied. -/
theorem copy_of_full (h : f.Full) : copy chunk f = (0, f) := by
  have hconsumed : min chunk.length (f.buff.length - f.filled) = 0 := by
    rw [h, Nat.sub_self, Nat.min_zero]
  simp only [copy, hconsumed, List.take_zero, List.nil_append, Nat.add_zero, List.take_append_drop]

end Filling

/-! ## The channel -/

variable {α : Type}

/-- What `Channel.sendMessage` writes to the stream. -/
def sendMessage (serializer : Serializer α) (message : α) : Result Bytes := do
  let msgBuff ← serializer message
  let size ← UInt64.serialize msgBuff.length
  return size ++ msgBuff

/-- The variables of `Channel.handle`, and the messages emitted. -/
structure Channel (α : Type) where
  sizeBuff : Filling
  msgBuff : Option Filling
  messages : List α
  sizeBuff_size : sizeBuff.buff.length = 8

namespace Channel

def new : Channel α := ⟨.alloc 8, none, [], Filling.length_buff_alloc 8⟩

/-- What the handler makes of a full size: the buffer for a message of that size. `fits` says for
which sizes `Buffer.alloc` does not throw. -/
def sizedBuffer (fits : Nat → Bool) (sizeBuff : Bytes) : Result Filling := do
  let (size, _) ← UInt64.deserialize sizeBuff
  if fits size then return .alloc size else throw ⟨"ERR_INVALID_OPT_VALUE"⟩

/-- The body of the handler: how much of the chunk it consumes. -/
def consumeChunk (fits : Nat → Bool) (deserializer : Deserializer α) (chunk : Bytes) :
    Action (Channel α) Nat :=
  fun channel =>
    match channel.msgBuff with
    | some msgBuff =>
        let (consumed, msgBuff) := msgBuff.copy chunk
        if msgBuff.Full then
          match deserializer msgBuff.buff with
          | .ok (msg, _) =>
              .ok consumed { channel with msgBuff := none, messages := channel.messages ++ [msg] }
          | .error e => .error e { channel with msgBuff := some msgBuff }
        else .ok consumed { channel with msgBuff := some msgBuff }
    | none =>
        let copied := channel.sizeBuff.copy chunk
        let sizeBuff := copied.2
        have hsize : sizeBuff.buff.length = 8 :=
          (Filling.length_buff_copy chunk channel.sizeBuff).trans channel.sizeBuff_size
        if sizeBuff.Full then
          match sizedBuffer fits sizeBuff.buff with
          | .ok msgBuff =>
              .ok copied.1 { channel with
                sizeBuff := sizeBuff.reset, sizeBuff_size := hsize, msgBuff := some msgBuff }
          | .error e => .error e { channel with sizeBuff := sizeBuff, sizeBuff_size := hsize }
        else .ok copied.1 { channel with sizeBuff := sizeBuff, sizeBuff_size := hsize }

/-- How often the body can run without consuming anything: a full size is read, then a message
without bytes is emitted. -/
def idle (channel : Channel α) : Nat :=
  (if channel.sizeBuff.Full then 2 else 0) + (if channel.msgBuff.isSome then 1 else 0)

theorem consumeChunk_progress {fits : Nat → Bool} {deserializer : Deserializer α} {chunk : Bytes}
    {channel next : Channel α} {consumed : Nat}
    (h : consumeChunk fits deserializer chunk channel = .ok consumed next)
    (hlt : consumed < chunk.length) : 0 < consumed ∨ next.idle < channel.idle := by
  refine (Nat.eq_zero_or_pos consumed).symm.imp_right ?_
  intro hzero
  unfold consumeChunk at h
  split at h
  · rename_i msgBuff hmsg
    simp only at h
    split at h
    · -- the message was complete before, and is emitted
      split at h
      · cases h
        simp [idle, hmsg]
      · cases h
    · rename_i hroom
      have hcopied := Filling.copy_of_not_full hroom
      cases h
      omega
  · rename_i hmsg
    simp only at h
    split at h
    · split at h
      · -- the size was complete before, and its buffer is used again
        have hreset : ¬(channel.sizeBuff.copy chunk).2.reset.Full := by
          simp [Filling.Full, Filling.reset, channel.sizeBuff_size]
        cases h
        have hfull := Filling.full_of_copy hzero (Nat.zero_lt_of_lt hlt)
        simp [idle, hmsg, hfull, hreset]
      · cases h
    · rename_i hroom
      have hcopied := Filling.copy_of_not_full hroom
      cases h
      omega

/-- The handler of the chunks. -/
def handler (fits : Nat → Bool) (deserializer : Deserializer α) (chunk : Bytes)
    (channel : Channel α) : EStateM.Result Error (Channel α) Unit :=
  match _h : consumeChunk fits deserializer chunk channel with
  | .error e next => .error e next
  | .ok consumed next =>
      if _hlt : consumed < chunk.length then
        handler fits deserializer (chunk.drop consumed) next
      else .ok () next
termination_by (chunk.length, channel.idle)
decreasing_by
  rcases Nat.eq_zero_or_pos consumed with rfl | hpos
  · rw [List.drop_zero]
    exact Prod.Lex.right _ ((consumeChunk_progress _h _hlt).resolve_left (Nat.lt_irrefl 0))
  · refine Prod.Lex.left _ _ ?_
    rw [List.length_drop]
    omega

/-- The chunks of a stream, until one throws, where there is memory for messages of any size. -/
def receive (deserializer : Deserializer α) : List Bytes → Action (Channel α) Unit
  | [] => pure ()
  | chunk :: chunks => do
      handler (fun _ => true) deserializer chunk
      receive deserializer chunks

/-- No byte is held. -/
def Drained (channel : Channel α) : Prop := channel.msgBuff = none ∧ channel.sizeBuff.filled = 0

end Channel

/-! ## Frames -/

/-- The bytes are those of the frames of the messages. -/
inductive Frames (serializer : Serializer α) (deserializer : Deserializer α) : List α → Bytes → Prop where
  | nil : Frames serializer deserializer [] []
  | cons {message : α} {messages : List α} {size msgBuff left stream : Bytes} :
      serializer message = .ok msgBuff → msgBuff ≠ [] → UInt64.serialize msgBuff.length = .ok size →
      deserializer msgBuff = .ok (message, left) → Frames serializer deserializer messages stream →
      Frames serializer deserializer (message :: messages) (size ++ (msgBuff ++ stream))

/-- A message that the channel can carry: it is written with a byte at least, and read back. -/
def Carried (serializer : Serializer α) (deserializer : Deserializer α) (message : α) : Prop :=
  ∃ msgBuff left, serializer message = .ok msgBuff ∧ msgBuff ≠ [] ∧
    deserializer msgBuff = .ok (message, left)

section Receiving

variable {serializer : Serializer α} {deserializer : Deserializer α} {messages later : List α}
  {chunk stream rest : Bytes} {channel : Channel α}

/-- What is sent is a stream of frames. -/
theorem frames_of_sent {sent : List Bytes} (hsent : messages.mapM (sendMessage serializer) = .ok sent)
    (hcarried : ∀ message ∈ messages, Carried serializer deserializer message) :
    Frames serializer deserializer messages sent.flatten := by
  induction messages generalizing sent with
  | nil =>
      cases hsent
      exact .nil
  | cons message messages ih =>
      rw [List.mapM_cons] at hsent
      rcases Result.bind_eq_ok.mp hsent with ⟨frame, hframe, hsent⟩
      rcases Result.bind_eq_ok.mp hsent with ⟨others, hothers, hsent⟩
      cases hsent
      rcases Result.bind_eq_ok.mp hframe with ⟨msgBuff, hmsg, hframe⟩
      rcases Result.bind_eq_ok.mp hframe with ⟨size, hsize, hframe⟩
      cases hframe
      rcases hcarried message List.mem_cons_self with ⟨written, left, hwritten, hne, hread⟩
      rw [hmsg] at hwritten
      cases hwritten
      have hrest := ih hothers fun message hmem => hcarried message (List.mem_cons_of_mem _ hmem)
      rw [List.flatten_cons, List.append_assoc]
      exact .cons hmsg hne hsize hread hrest

/-- A stream of frames that starts with eight bytes starts with the size of a message. -/
theorem Frames.of_size {size : Bytes}
    (h : Frames serializer deserializer messages (size ++ stream)) (hsize : size.length = 8) :
    ∃ message later msgBuff left rest, messages = message :: later ∧ msgBuff ≠ [] ∧
      UInt64.deserialize size = .ok (msgBuff.length, []) ∧
      deserializer msgBuff = .ok (message, left) ∧ stream = msgBuff ++ rest ∧
      Frames serializer deserializer later rest := by
  generalize hbytes : size ++ stream = bytes at h
  cases h with
  | nil =>
      rw [List.append_eq_nil_iff.mp hbytes |>.1] at hsize
      cases hsize
  | @cons message later written msgBuff left rest _ hne hwritten hread hlater =>
      have hlength : size.length = written.length := by
        rw [hsize, (UInt64.serialize_ok hwritten).2]
        rfl
      rcases List.append_inj hbytes hlength with ⟨rfl, rfl⟩
      have hnumber := UInt64.deserialize_append hwritten []
      rw [List.append_nil] at hnumber
      exact ⟨message, later, msgBuff, left, rest, rfl, hne, hnumber, hread, rfl, hlater⟩

/-- Fewer than eight bytes are no frame. -/
theorem Frames.eq_nil_of_lt (h : Frames serializer deserializer messages stream)
    (hlt : stream.length < 8) : messages = [] ∧ stream = [] := by
  cases h with
  | nil => exact ⟨rfl, rfl⟩
  | @cons _ _ size msgBuff left rest _ _ hwritten _ _ =>
      rw [List.length_append, (UInt64.serialize_ok hwritten).2, List.length_append,
        length_toBytes] at hlt
      exact absurd hlt (by simp)

namespace Channel

/-- How a channel that is to emit `messages` stands in the stream: before or inside a size, or inside
a message of which a byte is missing at least. -/
inductive Awaits (serializer : Serializer α) (deserializer : Deserializer α) (messages : List α)
    (channel : Channel α) (stream : Bytes) : Prop where
  | size {later : List α} (hmsg : channel.msgBuff = none) (hroom : ¬channel.sizeBuff.Full)
      (hframes : Frames serializer deserializer later (channel.sizeBuff.content ++ stream))
      (hmessages : messages = channel.messages ++ later)
  | message {msgBuff : Filling} {bytes left rest : Bytes} {message : α} {later : List α}
      (hmsg : channel.msgBuff = some msgBuff) (hreset : channel.sizeBuff.filled = 0)
      (hroom : ¬msgBuff.Full) (hsize : msgBuff.buff.length = bytes.length)
      (hstream : msgBuff.content ++ stream = bytes ++ rest)
      (hread : deserializer bytes = .ok (message, left))
      (hframes : Frames serializer deserializer later rest)
      (hmessages : messages = channel.messages ++ message :: later)

theorem awaits_new (h : Frames serializer deserializer messages stream) :
    Awaits serializer deserializer messages new stream :=
  .size rfl (Nat.zero_ne_add_one 7) h rfl

/-- One pass takes its bytes off the stream, and emits the message that they complete. -/
theorem consumeChunk_awaits
    (h : Awaits serializer deserializer messages channel (chunk ++ rest)) :
    ∃ consumed next, consumeChunk (fun _ => true) deserializer chunk channel = .ok consumed next ∧
      Awaits serializer deserializer messages next (chunk.drop consumed ++ rest) := by
  cases h with
  | @size later hmsg hroom hframes hmessages =>
      have hsize : (channel.sizeBuff.copy chunk).2.buff.length = 8 :=
        (Filling.length_buff_copy chunk channel.sizeBuff).trans channel.sizeBuff_size
      rw [← Filling.content_copy_append] at hframes
      by_cases hfull : (channel.sizeBuff.copy chunk).2.Full
      -- the size is complete, and the buffer for the message is allocated
      · rw [Filling.content_of_full hfull] at hframes
        obtain ⟨message, later, bytes, left, rest', rfl, hne, hnumber, hread, hstream, hlater⟩ :=
          hframes.of_size hsize
        refine ⟨(channel.sizeBuff.copy chunk).1, { channel with
          sizeBuff := (channel.sizeBuff.copy chunk).2.reset, sizeBuff_size := hsize
          msgBuff := some (.alloc bytes.length) }, ?_, ?_⟩
        · have halloc : sizedBuffer (fun _ => true) (channel.sizeBuff.copy chunk).2.buff =
              .ok (.alloc bytes.length) := by
            simp only [sizedBuffer, hnumber, Result.ok_bind, if_true, Result.pure_eq]
          simp only [consumeChunk, hmsg, if_pos hfull, halloc]
        · refine .message rfl rfl ?_ (Filling.length_buff_alloc _) ?_ hread hlater hmessages
          · -- the message has a byte, so its buffer is not full from the start
            intro hempty
            rw [Filling.Full, Filling.length_buff_alloc] at hempty
            exact hne (List.eq_nil_of_length_eq_zero hempty.symm)
          · rw [Filling.content_alloc, List.nil_append, hstream]
      · -- the chunk ends within the size
        refine ⟨(channel.sizeBuff.copy chunk).1, { channel with
          sizeBuff := (channel.sizeBuff.copy chunk).2, sizeBuff_size := hsize }, ?_, ?_⟩
        · simp only [consumeChunk, hmsg, if_neg hfull]
        · exact .size hmsg hfull hframes hmessages
  | @message msgBuff bytes left rest' message later hmsg hreset hroom hsize hstream hread hframes
      hmessages =>
      rw [← Filling.content_copy_append] at hstream
      by_cases hfull : (msgBuff.copy chunk).2.Full
      · rw [Filling.content_of_full hfull] at hstream
        -- the message is complete, and its bytes are those of the frame
        obtain ⟨hbytes, hrest⟩ := List.append_inj hstream (by rw [Filling.length_buff_copy, hsize])
        refine ⟨(msgBuff.copy chunk).1, { channel with
          msgBuff := none, messages := channel.messages ++ [message] }, ?_, ?_⟩
        · simp only [consumeChunk, hmsg, if_pos hfull, hbytes, hread]
        · have hnone : channel.sizeBuff.content = [] :=
            List.eq_nil_of_length_eq_zero (by rw [Filling.length_content, hreset])
          refine .size rfl ?_ (show Frames serializer deserializer later _ from ?_) ?_
          · rw [Filling.Full, hreset, channel.sizeBuff_size]
            decide
          · rw [hnone, List.nil_append, hrest]
            exact hframes
          · rw [hmessages, List.append_assoc, List.singleton_append]
      · -- the chunk ends within the message
        refine ⟨(msgBuff.copy chunk).1, { channel with msgBuff := some (msgBuff.copy chunk).2 }, ?_, ?_⟩
        · simp only [consumeChunk, hmsg, if_neg hfull]
        · exact .message rfl hreset hfull (by rw [Filling.length_buff_copy, hsize]) hstream hread
            hframes hmessages

/-- The handler takes the chunk off the stream. -/
theorem handler_awaits (h : Awaits serializer deserializer messages channel (chunk ++ rest)) :
    ∃ next, handler (fun _ => true) deserializer chunk channel = .ok () next ∧
      Awaits serializer deserializer messages next rest := by
  fun_induction handler (fun _ => true) deserializer chunk channel with
  | case1 chunk channel e next herror =>
      rcases consumeChunk_awaits h with ⟨consumed, next', hok, -⟩
      rw [herror] at hok
      cases hok
  | case2 chunk channel consumed next hpass hlt ih =>
      rcases consumeChunk_awaits h with ⟨consumed', next', hok, hnext⟩
      rw [hpass] at hok
      cases hok
      exact ih hnext
  | case3 chunk channel consumed next hpass hle =>
      rcases consumeChunk_awaits h with ⟨consumed', next', hok, hnext⟩
      rw [hpass] at hok
      cases hok
      rw [List.drop_eq_nil_of_le (Nat.le_of_not_lt hle), List.nil_append] at hnext
      exact ⟨next, rfl, hnext⟩

theorem receive_awaits {chunks : List Bytes}
    (h : Awaits serializer deserializer messages channel (chunks.flatten ++ rest)) :
    ∃ next, receive deserializer chunks channel = .ok () next ∧
      Awaits serializer deserializer messages next rest := by
  induction chunks generalizing channel with
  | nil => exact ⟨channel, rfl, h⟩
  | cons chunk chunks ih =>
      rw [List.flatten_cons, List.append_assoc] at h
      rcases handler_awaits h with ⟨next, hnext, hawaits⟩
      rcases ih hawaits with ⟨last, hlast, hawaits⟩
      refine ⟨last, ?_, hawaits⟩
      rw [receive, Library.Fallible.bind_ok hnext, hlast]

/-- At the end of the stream every message has been emitted. -/
theorem Awaits.of_nil (h : Awaits serializer deserializer messages channel []) :
    channel.messages = messages ∧ channel.Drained := by
  cases h with
  | size hmsg hroom hframes hmessages =>
      have hlt : channel.sizeBuff.filled < 8 :=
        lt_of_le_of_ne (by rw [← channel.sizeBuff_size]; exact channel.sizeBuff.filled_le)
          (by rw [← channel.sizeBuff_size]; exact hroom)
      rw [List.append_nil] at hframes
      rcases hframes.eq_nil_of_lt (by rw [Filling.length_content]; exact hlt) with ⟨rfl, hnone⟩
      rw [List.append_nil] at hmessages
      refine ⟨hmessages.symm, hmsg, ?_⟩
      rw [← Filling.length_content, hnone]
      rfl
  | @message msgBuff _ _ _ _ _ hmsg hreset hroom hsize hstream hread hframes hmessages =>
      -- a byte of the message would be missing, and the stream has none left
      have hlength := congrArg List.length hstream
      rw [List.append_nil, Filling.length_content, List.length_append, ← hsize] at hlength
      have hle := msgBuff.filled_le
      unfold Filling.Full at hroom
      omega

end Channel

end Receiving

/-- However the stream cuts the frames of some messages into chunks, the channel at its other end
emits these messages, in order and each of them once, and holds no byte in the end. -/
theorem receives_what_is_sent {α : Type} (serializer : Serializer α) (deserializer : Deserializer α)
    (messages : List α) (hcarried : ∀ message ∈ messages, Carried serializer deserializer message)
    (sent : List Bytes) (hsent : messages.mapM (sendMessage serializer) = .ok sent)
    (chunks : List Bytes) (hchunks : chunks.flatten = sent.flatten) :
    ∃ channel, Channel.receive deserializer chunks Channel.new = .ok () channel ∧
      channel.messages = messages ∧ channel.Drained := by
  have hnew := Channel.awaits_new (frames_of_sent hsent hcarried)
  rw [← hchunks, ← List.append_nil chunks.flatten] at hnew
  rcases Channel.receive_awaits hnew with ⟨channel, hreceive, hawaits⟩
  exact ⟨channel, hreceive, hawaits.of_nil⟩

/-- Two numbers, with the second size cut in two. -/
theorem receives_what_is_sent_sample :
    ∃ channel, Channel.receive UInt32.deserialize
        [[0, 0, 0, 0, 0], [0, 0, 4, 0, 0, 0, 11, 0, 0], [0, 0, 0, 0, 0, 4, 0, 0, 0, 12]] .new =
          .ok () channel ∧ channel.messages = [11, 12] ∧ channel.Drained :=
  receives_what_is_sent UInt32.serialize UInt32.deserialize [11, 12]
    (by
      intro message hmem
      have hlt : message < 2 ^ 32 := by
        rcases List.mem_pair.mp hmem with rfl | rfl <;> decide
      have hwritten := UInt32.serialize_of_lt hlt
      have hread := UInt32.deserialize_append hwritten []
      rw [List.append_nil] at hread
      exact ⟨_, [], hwritten, List.cons_ne_nil _ _, hread⟩)
    [[0, 0, 0, 0, 0, 0, 0, 4, 0, 0, 0, 11], [0, 0, 0, 0, 0, 0, 0, 4, 0, 0, 0, 12]] (by decide)
    _ (by decide)

end P2pNetwork
end UniqysKit
