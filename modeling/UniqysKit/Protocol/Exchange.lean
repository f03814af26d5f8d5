import UniqysKit.Library.Runs
import UniqysKit.Lock
import UniqysKit.P2pNetwork.MessageChannel
import UniqysKit.Protocol.Message

/-!
# Requests and responses between two nodes

`Protocol` of `packages/protocol` at both ends of a connection, the channel between them, and
`RemoteNode.use` of `packages/chain-core`, behind whose mutex requests are made.

A response does not say which request it belongs to: the one `receiver` takes it.  That each `fetch`
settles with the answer to its own request is because the tasks of a node wait for each other, and a
task for its `fetch`.  `Phase` says where the one request under way is.
-/

namespace UniqysKit
namespace Protocol

open Library Lock P2pNetwork

/-! ## The classes of messages -/

/-- `Message.Type`. -/
inductive MessageType
  | event
  | request
  | response
  deriving DecidableEq

namespace Message

def type : Message → MessageType
  | .hello .. | .newTransaction .. | .newBlock .. | .newBlockHeight .. | .newConsensusMessage .. =>
      .event
  | .getConsentedHeader .. | .getHeaders .. | .getBodies .. => .request
  | .consentedHeader .. | .headers .. | .bodies .. => .response

/-- The response is of the class that `fetchConsentedHeader`, `fetchHeaders` and `fetchBodies` wait
for after the request. -/
def answers : Message → Message → Bool
  | .consentedHeader .., .getConsentedHeader .. => true
  | .headers .., .getHeaders .. => true
  | .bodies .., .getBodies .. => true
  | _, _ => false

theorem type_of_answers {response request : Message} (h : response.answers request) :
    response.type = .response := by
  unfold answers at h
  split at h
  · rfl
  · rfl
  · rfl
  · cases h

/-- What is written is read back. -/
theorem carried {msg : Message} {frame : Bytes} (h : sendMessage serialize msg = .ok frame) :
    Carried serialize deserialize msg := by
  rcases Result.bind_eq_ok.mp h with ⟨msgBuff, hmsg, -⟩
  refine ⟨msgBuff, [], hmsg, ?_⟩
  rcases Result.bind_eq_ok.mp hmsg with ⟨code, hcode, hmsg⟩
  rcases Result.bind_eq_ok.mp hmsg with ⟨fields, hfields, hmsg⟩
  cases hmsg
  have hread : deserialize (code ++ fields) = .ok (msg, []) := by
    rw [deserialize, UInt8.deserialize_append hcode]
    have hrest := deserializeFields_append hfields []
    rw [List.append_nil] at hrest
    exact hrest
  refine ⟨?_, hread⟩
  intro hempty
  rw [hempty] at hread
  cases hread

end Message

/-! ## One direction of a connection -/

/-- The bytes that are under way, the channel that will read them, and all messages that were sent. -/
structure Line where
  sent : List Message
  wire : Bytes
  channel : Channel Message

namespace Line

def new : Line := ⟨[], [], .new⟩

/-- `Channel.sendMessage`. -/
def sendMessage (msg : Message) (line : Line) : Result Line := do
  let frame ← P2pNetwork.sendMessage Message.serialize msg
  return { line with sent := line.sent ++ [msg], wire := line.wire ++ frame }

/-- A chunk of `size` bytes comes to the handler: the messages that it emits. -/
def receive (size : Nat) (line : Line) : List Message × Line :=
  match Channel.handler (fun _ => true) Message.deserialize (line.wire.take size) line.channel with
  | .ok _ channel | .error _ channel =>
      (channel.messages.drop line.channel.messages.length,
        { line with wire := line.wire.drop size, channel })

/-- The messages that were sent and not emitted yet. -/
def pending (line : Line) : List Message := line.sent.drop line.channel.messages.length

/-- The channel is at its place in the frames of what was sent. -/
def Sound (line : Line) : Prop :=
  Channel.Awaits Message.serialize Message.deserialize line.sent line.channel line.wire

end Line

/-! ## One end of a connection -/

/-- A call of `fetch`, and what its promise settled with. -/
structure Fetch where
  request : Message
  result : Option (Except Error Message)

/-- The request and its response. -/
def Fetch.exchange (f : Fetch) : Option (Message × Message) :=
  match f.result with
  | some (.ok response) => some (f.request, response)
  | _ => none

/-- The side that asks: the tasks of `RemoteNode.use`, their calls of `fetch`, and the `receiver`, with
the number of the fetch that it settles and the request that was made.  `told` are the events sent. -/
structure Asking where
  mutex : Mutex
  used : Nat
  finished : List Nat
  awaits : Nat → Option Nat
  fetches : List Fetch
  receiver : Option (Nat × Message)
  told : List Message

/-- The side that answers: the requests whose handlers have not settled, those that were answered and
those that were not, with the error that was emitted, and the events that were handled. -/
structure Answering where
  handling : List Message
  answered : List (Message × Message)
  failures : List (Message × Option Error)
  heard : List Message

structure Endpoint where
  asking : Asking
  answering : Answering
  errors : List Error

def unexpectedResponse : Error := ⟨"unexpected response"⟩

namespace Asking

def new : Asking := ⟨.new, 0, [], fun _ => none, [], none, []⟩

/-- The exchanges that were completed. -/
def exchanges (asking : Asking) : List (Message × Message) :=
  asking.fetches.filterMap Fetch.exchange

/-- `RemoteNode.use`. -/
def use (asking : Asking) : Asking :=
  { asking with used := asking.used + 1, mutex := asking.mutex.lock asking.used }

/-- The task has the mutex and does not await anything. -/
def Runs (task : Nat) (asking : Asking) : Prop :=
  task ∈ asking.mutex.holders ∧ asking.awaits task = none

instance (task : Nat) (asking : Asking) : Decidable (asking.Runs task) :=
  inferInstanceAs (Decidable (_ ∧ _))

/-- `fetch` up to the message that it sends. -/
def fetch (task : Nat) (request : Message) (asking : Asking) : Asking :=
  { asking with
    fetches := asking.fetches ++ [⟨request, none⟩]
    receiver := some (asking.fetches.length, request)
    awaits := Function.update asking.awaits task (some asking.fetches.length) }

/-- The promise of the fetch settles. -/
def settle (n : Nat) (result : Except Error Message) (asking : Asking) : Asking :=
  { asking with fetches := asking.fetches.modify n fun f => { f with result := some result } }

/-- The task goes on when the promise that it awaits has settled. -/
def resume (task : Nat) (asking : Asking) : Asking :=
  match asking.awaits task with
  | some n =>
      match asking.fetches[n]? with
      | some ⟨_, some _⟩ => { asking with awaits := Function.update asking.awaits task none }
      | _ => asking
  | none => asking

/-- The task is done, and the mutex is unlocked. -/
def finish (task : Nat) (asking : Asking) : Asking :=
  if asking.Runs task then
    { asking with finished := asking.finished ++ [task], mutex := asking.mutex.unlock task }
  else asking

/-- `handleResponse` and the `receiver` that `fetch` has set, with the errors that are emitted. -/
def handleResponse (msg : Message) (asking : Asking) : Asking × List Error :=
  match asking.receiver with
  | some (n, request) =>
      let asking := { asking with receiver := none }
      if msg.answers request then (asking.settle n (.ok msg), [])
      else (asking.settle n (.error unexpectedResponse), [unexpectedResponse])
  | none => (asking, [unexpectedResponse])

end Asking

namespace Answering

def new : Answering := ⟨[], [], [], []⟩

/-- `handleEvent`: the handler of the class is called. -/
def handleEvent (msg : Message) (answering : Answering) : Answering :=
  { answering with heard := answering.heard ++ [msg] }

/-- `handleRequest`: the handler of the class is called, and will settle at some time. -/
def handleRequest (msg : Message) (answering : Answering) : Answering :=
  { answering with handling := answering.handling ++ [msg] }

/-- The handler of the request has settled, and the response is sent. -/
def answer (i : Nat) (request response : Message) (answering : Answering) : Answering :=
  { answering with
    handling := answering.handling.eraseIdx i
    answered := answering.answered ++ [(request, response)] }

/-- The handler of the request has rejected, or what it settled with cannot be written. -/
def fail (i : Nat) (request : Message) (error : Option Error) (answering : Answering) : Answering :=
  { answering with
    handling := answering.handling.eraseIdx i
    failures := answering.failures ++ [(request, error)] }

end Answering

namespace Endpoint

def new : Endpoint := ⟨.new, .new, []⟩

/-- The listener that `start` gives to the channel. -/
def handle (msg : Message) (endpoint : Endpoint) : Endpoint :=
  match msg.type with
  | .event => { endpoint with answering := endpoint.answering.handleEvent msg }
  | .request => { endpoint with answering := endpoint.answering.handleRequest msg }
  | .response =>
      let (asking, errors) := endpoint.asking.handleResponse msg
      { endpoint with asking, errors := endpoint.errors ++ errors }

end Endpoint

/-! ## The connection -/

/-- The two ends, and the lines from the one here to the one there and back. -/
structure Connection where
  here : Endpoint
  there : Endpoint
  out : Line
  back : Line

inductive Side
  | here
  | there

/-- What can happen at an end. -/
inductive Action
  /-- A task is given to `use`. -/
  | use
  /-- The task calls `fetch`, and awaits it. -/
  | fetch (task : Nat) (request : Message)
  | resume (task : Nat)
  | finish (task : Nat)
  /-- An event is sent. -/
  | tell (msg : Message)
  /-- The handler of a request that is handled resolves. -/
  | respond (i : Nat) (response : Message)
  /-- The handler of a request that is handled rejects. -/
  | reject (i : Nat) (error : Error)
  /-- Some of the bytes that are under way to this end come. -/
  | receive (size : Nat)

namespace Connection

def new : Connection := ⟨.new, .new, .new, .new⟩

/-- The same connection, seen from the other end. -/
def swap (connection : Connection) : Connection :=
  ⟨connection.there, connection.here, connection.back, connection.out⟩

/-- What can happen at the end that is here; an action that is not possible does nothing. -/
def act (connection : Connection) : Action → Connection
  | .use => { connection with here.asking := connection.here.asking.use }
  | .fetch task request =>
      if request.type = .request ∧ connection.here.asking.Runs task then
        let asking := connection.here.asking.fetch task request
        match connection.out.sendMessage request with
        | .ok out => { connection with here.asking := asking, out }
        | .error e =>
            let asking := asking.settle connection.here.asking.fetches.length (.error e)
            { connection with here.asking := asking }
      else connection
  | .resume task => { connection with here.asking := connection.here.asking.resume task }
  | .finish task => { connection with here.asking := connection.here.asking.finish task }
  | .tell msg =>
      if msg.type = .event then
        match connection.out.sendMessage msg with
        | .ok out =>
            { connection with here.asking.told := connection.here.asking.told ++ [msg], out }
        | .error _ => connection
      else connection
  | .respond i response =>
      match connection.here.answering.handling[i]? with
      | some request =>
          if response.answers request then
            match connection.out.sendMessage response with
            | .ok out =>
                let answering := connection.here.answering.answer i request response
                { connection with here.answering := answering, out }
            | .error _ =>
                let answering := connection.here.answering.fail i request none
                { connection with here.answering := answering }
          else connection
      | none => connection
  | .reject i error =>
      match connection.here.answering.handling[i]? with
      | some request =>
          { connection with
            here.answering := connection.here.answering.fail i request (some error)
            here.errors := connection.here.errors ++ [error] }
      | none => connection
  | .receive size =>
      let (messages, back) := connection.back.receive size
      let here := messages.foldl (fun endpoint msg => endpoint.handle msg) connection.here
      { connection with here, back }

/-- A step of the connection. -/
def step (connection : Connection) : Side × Action → Connection
  | (.here, action) => connection.act action
  | (.there, action) => (connection.swap.act action).swap

end Connection

/-! ## What a line carries -/

section Lines

variable {messages later : List Message} {channel : Channel Message} {stream rest : Bytes}
  {line : Line} {msg : Message}

theorem frames_append {serializer : Serializer Message} {deserializer : Deserializer Message}
    (h : Frames serializer deserializer messages stream)
    (hlater : Frames serializer deserializer later rest) :
    Frames serializer deserializer (messages ++ later) (stream ++ rest) := by
  induction h with
  | nil => exact hlater
  | cons hmsg hne hsize hread hframes ih =>
      rw [List.cons_append, List.append_assoc, List.append_assoc]
      exact .cons hmsg hne hsize hread ih

/-- What is sent later comes behind. -/
theorem awaits_append {serializer : Serializer Message} {deserializer : Deserializer Message}
    (h : Channel.Awaits serializer deserializer messages channel stream)
    (hlater : Frames serializer deserializer later rest) :
    Channel.Awaits serializer deserializer (messages ++ later) channel (stream ++ rest) := by
  cases h with
  | size hmsg hroom hframes hmessages =>
      refine .size hmsg hroom ?_ (by rw [hmessages, List.append_assoc])
      rw [← List.append_assoc]
      exact frames_append hframes hlater
  | message hmsg hreset hroom hsize hstream hread hframes hmessages =>
      refine .message hmsg hreset hroom hsize ?_ hread (frames_append hframes hlater) ?_
      · rw [← List.append_assoc, hstream, List.append_assoc]
      · rw [hmessages, List.append_assoc, List.cons_append]

/-- The messages emitted are the first of those that the channel is to emit. -/
theorem prefix_of_awaits {serializer : Serializer Message} {deserializer : Deserializer Message}
    (h : Channel.Awaits serializer deserializer messages channel stream) :
    channel.messages <+: messages := by
  cases h with
  | size hmsg hroom hframes hmessages =>
      rw [hmessages]
      exact List.prefix_append ..
  | message hmsg hreset hroom hsize hstream hread hframes hmessages =>
      rw [hmessages]
      exact List.prefix_append ..

/-- A pass over a chunk only adds to the messages emitted. -/
theorem consumeChunk_emits {fits : Nat → Bool} {deserializer : Deserializer Message} {chunk : Bytes}
    {consumed : Nat} {next : Channel Message}
    (h : Channel.consumeChunk fits deserializer chunk channel = .ok consumed next) :
    channel.messages <+: next.messages := by
  unfold Channel.consumeChunk at h
  split at h
  · simp only at h
    split at h
    · split at h
      · cases h
        exact List.prefix_append ..
      · cases h
    · cases h
      exact List.prefix_rfl
  · simp only at h
    split at h
    · split at h
      · cases h
        exact List.prefix_rfl
      · cases h
    · cases h
      exact List.prefix_rfl

theorem handler_emits {fits : Nat → Bool} {deserializer : Deserializer Message} {chunk : Bytes}
    {next : Channel Message} (h : Channel.handler fits deserializer chunk channel = .ok () next) :
    channel.messages <+: next.messages := by
  fun_induction Channel.handler fits deserializer chunk channel with
  | case1 chunk channel e next' herror => cases h
  | case2 chunk channel consumed next' hpass hlt ih =>
      exact (consumeChunk_emits hpass).trans (ih h)
  | case3 chunk channel consumed next' hpass hle =>
      cases h
      exact consumeChunk_emits hpass

namespace Line

theorem sound_new : new.Sound := Channel.awaits_new .nil

/-- What is sent is pending behind the rest. -/
theorem Sound.sendMessage {line' : Line} (h : line.Sound) (hsend : line.sendMessage msg = .ok line') :
    line'.Sound ∧ line'.pending = line.pending ++ [msg] := by
  rcases Result.bind_eq_ok.mp hsend with ⟨frame, hframe, hline⟩
  cases hline
  have hframes : Frames Message.serialize Message.deserialize [msg] [frame].flatten := by
    refine frames_of_sent ?_ ?_
    · simp [hframe]
    · intro message hmem
      rw [List.mem_singleton.mp hmem]
      exact Message.carried hframe
  rw [List.flatten_singleton] at hframes
  refine ⟨awaits_append h hframes, ?_⟩
  exact List.drop_append_of_le_length (prefix_of_awaits h).length_le

/-- The bytes that come complete the first of the messages that are pending. -/
theorem Sound.receive (h : line.Sound) (size : Nat) :
    (line.receive size).2.Sound ∧
      line.pending = (line.receive size).1 ++ (line.receive size).2.pending := by
  have hstream : Channel.Awaits Message.serialize Message.deserialize line.sent line.channel
      (line.wire.take size ++ line.wire.drop size) := by
    rw [List.take_append_drop]
    exact h
  rcases Channel.handler_awaits hstream with ⟨next, hnext, hawaits⟩
  simp only [Line.receive, hnext]
  refine ⟨hawaits, ?_⟩
  rcases handler_emits hnext with ⟨emitted, hemitted⟩
  rcases prefix_of_awaits hawaits with ⟨left, hleft⟩
  simp only [pending, ← hleft, ← hemitted, List.drop_left, List.append_assoc]
  rw [List.length_append, ← List.drop_drop, List.drop_left, List.drop_left]

/-- When no byte is under way, no message is. -/
theorem Sound.pending_eq_nil (h : line.Sound) (hwire : line.wire = []) : line.pending = [] := by
  rw [Sound, hwire] at h
  rw [pending, ← h.of_nil.1, List.drop_length]

end Line

end Lines

/-! ## Where the request under way is -/

def ofType (type : MessageType) (messages : List Message) : List Message :=
  messages.filter fun msg => msg.type = type

/-- The place of a request whose `fetch` has not settled: on the way, with the handler, or on the way
back as its response, unless the handler has failed. -/
inductive Place (request : Message) (exchanges : List (Message × Message)) (answering : Answering)
    (requests responses : List Message) : Prop
  | requested (hrequests : requests = [request]) (hhandling : answering.handling = [])
      (hresponses : responses = []) (hanswered : answering.answered = exchanges)
  | handled (hrequests : requests = []) (hhandling : answering.handling = [request])
      (hresponses : responses = []) (hanswered : answering.answered = exchanges)
  | responded {response : Message} (hanswers : response.answers request) (hrequests : requests = [])
      (hhandling : answering.handling = []) (hresponses : responses = [response])
      (hanswered : answering.answered = exchanges ++ [(request, response)])
  | failed (hrequests : requests = []) (hhandling : answering.handling = [])
      (hresponses : responses = []) (hanswered : answering.answered = exchanges)
      (hfailures : answering.failures ≠ [])

def Settled (f : Fetch) : Prop := f.result ≠ none

/-- No request is under way, or that of the last `fetch`, which the task with the mutex awaits. -/
inductive Phase (asking : Asking) (answering : Answering) (requests responses : List Message) : Prop
  | idle (hsettled : ∀ f ∈ asking.fetches, Settled f) (hrequests : requests = [])
      (hhandling : answering.handling = []) (hresponses : responses = [])
      (hanswered : answering.answered = asking.exchanges)
  | waiting {task : Nat} {before : List Fetch} {request : Message}
      (hfetches : asking.fetches = before ++ [⟨request, none⟩]) (hbefore : ∀ f ∈ before, Settled f)
      (hholders : asking.mutex.holders = [task]) (hawaits : asking.awaits task = some before.length)
      (hreceiver : asking.receiver = some (before.length, request))
      (hplace : Place request asking.exchanges answering requests responses)

/-- One end asks and the other answers: what the two know, and what is under way between them. -/
structure Paired (asking : Asking) (answering : Answering) (out back : List Message) : Prop where
  exclusive : asking.mutex.Exclusive
  turns : asking.finished ++ asking.mutex.holders ++ asking.mutex.queue = List.range asking.used
  phase : Phase asking answering (ofType .request out) (ofType .response back)
  refused : ∀ f ∈ asking.fetches, ∀ e, f.result = some (.error e) →
    sendMessage Message.serialize f.request = .error e
  heard : answering.heard ++ ofType .event out = asking.told

section Steps

variable {asking : Asking} {answering : Answering} {out back out' back' : List Message}
  {requests responses : List Message} {task i n : Nat} {msg request response : Message} {e : Error}

@[simp] theorem ofType_append (type : MessageType) (messages later : List Message) :
    ofType type (messages ++ later) = ofType type messages ++ ofType type later :=
  List.filter_append ..

theorem ofType_singleton (type : MessageType) (msg : Message) :
    ofType type [msg] = if msg.type = type then [msg] else [] := by
  by_cases htype : msg.type = type <;> simp [ofType, htype]

theorem ofType_cons (type : MessageType) (msg : Message) (messages : List Message) :
    ofType type (msg :: messages) =
      if msg.type = type then msg :: ofType type messages else ofType type messages := by
  by_cases htype : msg.type = type <;> simp [ofType, htype]

theorem exchanges_append (before : List Fetch) (f : Fetch) (h : asking.fetches = before ++ [f]) :
    asking.exchanges = before.filterMap Fetch.exchange ++ f.exchange.toList := by
  rw [Asking.exchanges, h, List.filterMap_append]
  cases hexchange : f.exchange <;> simp [hexchange]

/-- The fetch that was called last settles. -/
theorem fetches_settle {before : List Fetch} {f : Fetch} {result : Except Error Message}
    (h : asking.fetches = before ++ [f]) :
    (asking.settle before.length result).fetches = before ++ [{ f with result := some result }] := by
  have hlt : before.length < (before ++ [f]).length := by simp
  simp only [Asking.settle, h, List.modify_eq_take_cons_drop hlt]
  simp

/-- Only the messages of the types that matter are looked at. -/
theorem Paired.congr (h : Paired asking answering out back)
    (hrequests : ofType .request out' = ofType .request out)
    (hevents : ofType .event out' = ofType .event out)
    (hresponses : ofType .response back' = ofType .response back) :
    Paired asking answering out' back' := by
  refine ⟨h.exclusive, h.turns, ?_, h.refused, ?_⟩
  · rw [hrequests, hresponses]
    exact h.phase
  · rw [hevents]
    exact h.heard

/-- A task that runs awaits nothing, so nothing is under way. -/
theorem Phase.idle_of_runs (h : Phase asking answering requests responses)
    (hruns : asking.Runs task) :
    (∀ f ∈ asking.fetches, Settled f) ∧ requests = [] ∧ answering.handling = [] ∧ responses = [] ∧
      answering.answered = asking.exchanges := by
  cases h with
  | idle hsettled hrequests hhandling hresponses hanswered =>
      exact ⟨hsettled, hrequests, hhandling, hresponses, hanswered⟩
  | waiting hfetches hbefore hholders hawaits hreceiver hplace =>
      have hmem := hruns.1
      rw [hholders] at hmem
      have hnone := hruns.2
      rw [List.mem_singleton.mp hmem, hawaits] at hnone
      cases hnone

/-! ### The end that asks -/

theorem Paired.use (h : Paired asking answering out back) :
    Paired asking.use answering out back := by
  refine ⟨h.exclusive.lock _, ?_, ?_, h.refused, h.heard⟩
  · have hturns := h.turns
    rcases h.exclusive.lock_cases asking.used with ⟨hholders, hqueue, hlock⟩ | ⟨holder, hholders, hlock⟩
    · rw [hholders, hqueue] at hturns
      simp only [Asking.use, hlock, List.range_succ, ← hturns, List.append_nil]
    · rw [hholders] at hturns
      simp only [Asking.use, hlock, List.range_succ, ← hturns, List.append_assoc]
  · cases h.phase with
    | idle hsettled hrequests hhandling hresponses hanswered =>
        exact .idle hsettled hrequests hhandling hresponses hanswered
    | waiting hfetches hbefore hholders hawaits hreceiver hplace =>
        refine .waiting hfetches hbefore ?_ hawaits hreceiver hplace
        rcases h.exclusive.lock_cases asking.used with ⟨hnone, -, -⟩ | ⟨holder, hholder, hlock⟩
        · rw [hholders] at hnone
          cases hnone
        · rw [hholders] at hholder
          simp only [Asking.use, hlock, hholder]

/-- A request that is sent is the only one. -/
theorem Paired.fetch (h : Paired asking answering out back) (hruns : asking.Runs task)
    (htype : request.type = .request) :
    Paired (asking.fetch task request) answering (out ++ [request]) back := by
  rcases h.phase.idle_of_runs hruns with ⟨hsettled, hrequests, hhandling, hresponses, hanswered⟩
  have hholders : asking.mutex.holders = [task] := (h.exclusive.unlock_cases hruns.1).1
  refine ⟨h.exclusive, h.turns, ?_, ?_, ?_⟩
  · refine .waiting rfl hsettled hholders (Function.update_self ..) rfl ?_
    refine .requested ?_ hhandling hresponses ?_
    · rw [ofType_append, hrequests, ofType_singleton, if_pos htype, List.nil_append]
    · have hexchanges :=
        @exchanges_append (asking.fetch task request) asking.fetches ⟨request, none⟩ rfl
      rw [hanswered, hexchanges]
      simp [Fetch.exchange, Asking.exchanges]
  · intro f hmem e hresult
    rcases List.mem_append.mp hmem with hold | hnew
    · exact h.refused f hold e hresult
    · rw [List.mem_singleton.mp hnew] at hresult
      cases hresult
  · rw [ofType_append, ofType_singleton, htype]
    simpa [Asking.fetch] using h.heard

/-- A request that cannot be written is refused at once, and the `receiver` stays. -/
theorem Paired.fetch_refused (h : Paired asking answering out back) (hruns : asking.Runs task)
    (hsend : sendMessage Message.serialize request = .error e) :
    Paired ((asking.fetch task request).settle asking.fetches.length (.error e)) answering out back := by
  rcases h.phase.idle_of_runs hruns with ⟨hsettled, hrequests, hhandling, hresponses, hanswered⟩
  have hfetches := @fetches_settle (asking.fetch task request) asking.fetches ⟨request, none⟩
    (.error e) rfl
  refine ⟨h.exclusive, h.turns, ?_, ?_, h.heard⟩
  · refine .idle ?_ hrequests hhandling hresponses ?_
    · intro f hmem
      rw [hfetches] at hmem
      rcases List.mem_append.mp hmem with hold | hnew
      · exact hsettled f hold
      · rw [List.mem_singleton.mp hnew]
        exact Option.some_ne_none _
    · rw [hanswered, exchanges_append _ _ hfetches]
      simp [Fetch.exchange, Asking.exchanges]
  · intro f hmem e' hresult
    rw [hfetches] at hmem
    rcases List.mem_append.mp hmem with hold | hnew
    · exact h.refused f hold e' hresult
    · rw [List.mem_singleton.mp hnew] at hresult ⊢
      cases hresult
      exact hsend

/-- The task whose request is under way does not go on. -/
theorem Paired.resume (h : Paired asking answering out back) (task : Nat) :
    Paired (asking.resume task) answering out back := by
  unfold Asking.resume
  split
  · rename_i n hn
    split
    · rename_i request' result hget
      refine ⟨h.exclusive, h.turns, ?_, h.refused, h.heard⟩
      cases h.phase with
      | idle hsettled hrequests hhandling hresponses hanswered =>
          exact .idle hsettled hrequests hhandling hresponses hanswered
      | @waiting holder before request hfetches hbefore hholders hawaits hreceiver hplace =>
          refine .waiting hfetches hbefore hholders ?_ hreceiver hplace
          have hne : holder ≠ task := by
            rintro rfl
            rw [hawaits] at hn
            cases hn
            rw [hfetches, List.getElem?_concat_length] at hget
            cases hget
          rw [← hawaits]
          exact Function.update_of_ne hne ..
    · exact h
  · exact h

theorem Paired.finish (h : Paired asking answering out back) (task : Nat) :
    Paired (asking.finish task) answering out back := by
  unfold Asking.finish
  split
  · rename_i hruns
    rcases h.phase.idle_of_runs hruns with ⟨hsettled, hrequests, hhandling, hresponses, hanswered⟩
    refine ⟨h.exclusive.unlock hruns.1, ?_, ?_, h.refused, h.heard⟩
    · have hturns := h.turns
      rcases h.exclusive.unlock_cases hruns.1 with
        ⟨hholders, ⟨hqueue, hunlock⟩ | ⟨queued, queue, hqueue, hunlock⟩⟩
      · rw [hholders, hqueue] at hturns
        simp only [hunlock, Mutex.new, ← hturns, List.append_nil]
      · rw [hholders, hqueue] at hturns
        simp only [hunlock, ← hturns, List.append_assoc, List.cons_append, List.nil_append]
    · exact .idle hsettled hrequests hhandling hresponses hanswered
  · exact h

theorem Paired.tell (h : Paired asking answering out back) (htype : msg.type = .event) :
    Paired { asking with told := asking.told ++ [msg] } answering (out ++ [msg]) back := by
  refine ⟨h.exclusive, h.turns, ?_, h.refused, ?_⟩
  · rw [ofType_append, ofType_singleton, htype]
    simp only [reduceCtorEq, if_false, List.append_nil]
    cases h.phase with
    | idle hsettled hrequests hhandling hresponses hanswered =>
        exact .idle hsettled hrequests hhandling hresponses hanswered
    | waiting hfetches hbefore hholders hawaits hreceiver hplace =>
        exact .waiting hfetches hbefore hholders hawaits hreceiver hplace
  · rw [ofType_append, ofType_singleton, if_pos htype, ← List.append_assoc, h.heard]

/-- The response under way is taken for the fetch of its request, which nothing else can be. -/
theorem Paired.handleResponse (h : Paired asking answering out (msg :: back))
    (htype : msg.type = .response) :
    Paired (asking.handleResponse msg).1 answering out back ∧ (asking.handleResponse msg).2 = [] := by
  have hphase := h.phase
  rw [ofType_cons, if_pos htype] at hphase
  cases hphase with
  | idle hsettled hrequests hhandling hresponses hanswered => cases hresponses
  | @waiting task before request hfetches hbefore hholders hawaits hreceiver hplace =>
      cases hplace with
      | requested hrequests hhandling hresponses hanswered => cases hresponses
      | handled hrequests hhandling hresponses hanswered => cases hresponses
      | failed hrequests hhandling hresponses hanswered hfailures => cases hresponses
      | @responded response hanswers hrequests hhandling hresponses hanswered =>
          obtain ⟨rfl, hrest⟩ := List.cons.inj hresponses
          have hhandle : asking.handleResponse msg =
              ({ asking with receiver := none }.settle before.length (.ok msg), []) := by
            simp only [Asking.handleResponse, hreceiver, hanswers, if_true]
          rw [hhandle]
          have hsettle := @fetches_settle { asking with receiver := none } before ⟨request, none⟩
            (.ok msg) hfetches
          refine ⟨⟨h.exclusive, h.turns, ?_, ?_, h.heard⟩, rfl⟩
          · refine .idle ?_ hrequests hhandling hrest ?_
            · intro f hmem
              rw [hsettle] at hmem
              rcases List.mem_append.mp hmem with hold | hnew
              · exact hbefore f hold
              · rw [List.mem_singleton.mp hnew]
                exact Option.some_ne_none _
            · rw [hanswered, exchanges_append _ _ hfetches, exchanges_append _ _ hsettle]
              simp [Fetch.exchange]
          · intro f hmem e hresult
            rw [hsettle] at hmem
            rcases List.mem_append.mp hmem with hold | hnew
            · refine h.refused f ?_ e hresult
              rw [hfetches]
              exact List.mem_append_left _ hold
            · rw [List.mem_singleton.mp hnew] at hresult
              cases hresult

/-! ### The end that answers -/

theorem Paired.handleEvent (h : Paired asking answering (msg :: out) back) (htype : msg.type = .event) :
    Paired asking (answering.handleEvent msg) out back := by
  have hphase := h.phase
  have hheard := h.heard
  rw [ofType_cons, htype] at hphase
  rw [ofType_cons, if_pos htype, List.append_cons] at hheard
  refine ⟨h.exclusive, h.turns, ?_, h.refused, hheard⟩
  cases hphase with
  | idle hsettled hrequests hhandling hresponses hanswered =>
      exact .idle hsettled hrequests hhandling hresponses hanswered
  | waiting hfetches hbefore hholders hawaits hreceiver hplace =>
      refine .waiting hfetches hbefore hholders hawaits hreceiver ?_
      cases hplace with
      | requested hrequests hhandling hresponses hanswered =>
          exact .requested hrequests hhandling hresponses hanswered
      | handled hrequests hhandling hresponses hanswered =>
          exact .handled hrequests hhandling hresponses hanswered
      | responded hanswers hrequests hhandling hresponses hanswered =>
          exact .responded hanswers hrequests hhandling hresponses hanswered
      | failed hrequests hhandling hresponses hanswered hfailures =>
          exact .failed hrequests hhandling hresponses hanswered hfailures

/-- The request that arrives is that of the fetch under way. -/
theorem Paired.handleRequest (h : Paired asking answering (msg :: out) back)
    (htype : msg.type = .request) : Paired asking (answering.handleRequest msg) out back := by
  have hphase := h.phase
  have hheard := h.heard
  rw [ofType_cons, if_pos htype] at hphase
  rw [ofType_cons, htype] at hheard
  refine ⟨h.exclusive, h.turns, ?_, h.refused, hheard⟩
  cases hphase with
  | idle hsettled hrequests hhandling hresponses hanswered => cases hrequests
  | waiting hfetches hbefore hholders hawaits hreceiver hplace =>
      refine .waiting hfetches hbefore hholders hawaits hreceiver ?_
      cases hplace with
      | requested hrequests hhandling hresponses hanswered =>
          obtain ⟨rfl, hrest⟩ := List.cons.inj hrequests
          refine .handled hrest ?_ hresponses hanswered
          rw [Answering.handleRequest, hhandling, List.nil_append]
      | handled hrequests hhandling hresponses hanswered => cases hrequests
      | responded hanswers hrequests hhandling hresponses hanswered => cases hrequests
      | failed hrequests hhandling hresponses hanswered hfailures => cases hrequests

/-- A request that is handled is that of the fetch under way. -/
theorem Phase.handled (h : Phase asking answering requests responses)
    (hget : answering.handling[i]? = some request) :
    ∃ task before, asking.fetches = before ++ [⟨request, none⟩] ∧ (∀ f ∈ before, Settled f) ∧
      asking.mutex.holders = [task] ∧ asking.awaits task = some before.length ∧
      asking.receiver = some (before.length, request) ∧ requests = [] ∧
      answering.handling = [request] ∧ i = 0 ∧ responses = [] ∧
      answering.answered = asking.exchanges := by
  have hne : answering.handling ≠ [] := by
    intro hnil
    rw [hnil] at hget
    cases hget
  cases h with
  | idle hsettled hrequests hhandling hresponses hanswered => exact absurd hhandling hne
  | @waiting task before request' hfetches hbefore hholders hawaits hreceiver hplace =>
      cases hplace with
      | requested hrequests hhandling hresponses hanswered => exact absurd hhandling hne
      | responded hanswers hrequests hhandling hresponses hanswered => exact absurd hhandling hne
      | failed hrequests hhandling hresponses hanswered hfailures => exact absurd hhandling hne
      | handled hrequests hhandling hresponses hanswered =>
          rw [hhandling] at hget
          rcases List.getElem?_eq_some_iff.mp hget with ⟨hlt, hrequest⟩
          obtain rfl : i = 0 := Nat.lt_one_iff.mp hlt
          obtain rfl : request' = request := hrequest
          exact ⟨task, before, hfetches, hbefore, hholders, hawaits, hreceiver, hrequests, hhandling,
            rfl, hresponses, hanswered⟩

theorem Paired.answer (h : Paired asking answering out back)
    (hget : answering.handling[i]? = some request) (hanswers : response.answers request) :
    Paired asking (answering.answer i request response) out (back ++ [response]) := by
  rcases h.phase.handled hget with ⟨task, before, hfetches, hbefore, hholders, hawaits, hreceiver,
    hrequests, hhandling, rfl, hresponses, hanswered⟩
  refine ⟨h.exclusive, h.turns, ?_, h.refused, h.heard⟩
  refine .waiting hfetches hbefore hholders hawaits hreceiver (.responded hanswers hrequests ?_ ?_ ?_)
  · simp [Answering.answer, hhandling]
  · rw [ofType_append, hresponses, ofType_singleton, if_pos (Message.type_of_answers hanswers),
      List.nil_append]
  · rw [Answering.answer, hanswered]

/-- A handler that fails leaves the fetch without a response for good. -/
theorem Paired.fail (h : Paired asking answering out back)
    (hget : answering.handling[i]? = some request) (error : Option Error) :
    Paired asking (answering.fail i request error) out back := by
  rcases h.phase.handled hget with ⟨task, before, hfetches, hbefore, hholders, hawaits, hreceiver,
    hrequests, hhandling, rfl, hresponses, hanswered⟩
  refine ⟨h.exclusive, h.turns, ?_, h.refused, h.heard⟩
  refine .waiting hfetches hbefore hholders hawaits hreceiver
    (.failed hrequests ?_ hresponses hanswered ?_)
  · simp [Answering.fail, hhandling]
  · simp [Answering.fail]

end Steps

/-! ## The invariant -/

/-- Both ends ask and answer, and the only errors that are emitted are those of handlers. -/
structure Linked (here there : Endpoint) (out back : List Message) : Prop where
  hereAsks : Paired here.asking there.answering out back
  thereAsks : Paired there.asking here.answering back out
  hereErrors : here.errors = here.answering.failures.filterMap Prod.snd
  thereErrors : there.errors = there.answering.failures.filterMap Prod.snd

namespace Linked

variable {here there : Endpoint} {out back messages : List Message} {msg : Message}

theorem swap (h : Linked here there out back) : Linked there here back out :=
  ⟨h.thereAsks, h.hereAsks, h.thereErrors, h.hereErrors⟩

/-- A message that arrives matters to the side that it is for. -/
theorem handle (h : Linked here there out (msg :: back)) : Linked (here.handle msg) there out back := by
  have hfor (type : MessageType) (hne : msg.type ≠ type) :
      ofType type back = ofType type (msg :: back) := by
    rw [ofType_cons, if_neg hne]
  unfold Endpoint.handle
  split
  · rename_i htype
    have hasks := h.hereAsks.congr rfl rfl (hfor .response (by simp [htype]))
    exact ⟨hasks, h.thereAsks.handleEvent htype, h.hereErrors, h.thereErrors⟩
  · rename_i htype
    have hasks := h.hereAsks.congr rfl rfl (hfor .response (by simp [htype]))
    exact ⟨hasks, h.thereAsks.handleRequest htype, h.hereErrors, h.thereErrors⟩
  · rename_i htype
    rcases h.hereAsks.handleResponse htype with ⟨hasks, hnone⟩
    have hanswers := h.thereAsks.congr (hfor .request (by simp [htype]))
      (hfor .event (by simp [htype])) rfl
    refine ⟨hasks, hanswers, ?_, h.thereErrors⟩
    simp only [hnone, List.append_nil]
    exact h.hereErrors

theorem handleAll (h : Linked here there out (messages ++ back)) :
    Linked (messages.foldl (fun endpoint msg => endpoint.handle msg) here) there out back := by
  induction messages generalizing here with
  | nil => exact h
  | cons msg messages ih => exact ih h.handle

end Linked

/-- The two ends are linked by what the two lines carry. -/
structure Connected (connection : Connection) : Prop where
  out : connection.out.Sound
  back : connection.back.Sound
  linked : Linked connection.here connection.there connection.out.pending connection.back.pending

namespace Connected

variable {connection : Connection}

theorem init : Connected .new := by
  have hpaired : Paired .new .new [] [] :=
    ⟨Mutex.exclusive_new, rfl, .idle (by simp [Asking.new]) rfl rfl rfl rfl, by simp [Asking.new], rfl⟩
  exact ⟨Line.sound_new, Line.sound_new, hpaired, hpaired, rfl, rfl⟩

theorem swap (h : Connected connection) : Connected connection.swap :=
  ⟨h.back, h.out, h.linked.swap⟩

/-- Whatever happens at an end. -/
theorem act (h : Connected connection) (action : Action) : Connected (connection.act action) := by
  have hlinked := h.linked
  cases action with
  | use =>
      exact ⟨h.out, h.back, hlinked.hereAsks.use, hlinked.thereAsks, hlinked.hereErrors,
        hlinked.thereErrors⟩
  | fetch task request =>
      simp only [Connection.act]
      split
      · rename_i hcan
        split
        · rename_i out hsend
          rcases h.out.sendMessage hsend with ⟨hsound, hpending⟩
          refine ⟨hsound, h.back, ?_, ?_, hlinked.hereErrors, hlinked.thereErrors⟩
          · rw [hpending]
            exact hlinked.hereAsks.fetch hcan.2 hcan.1
          · refine hlinked.thereAsks.congr rfl rfl ?_
            rw [hpending, ofType_append, ofType_singleton, hcan.1]
            simp
        · rename_i e hsend
          have hrefused : sendMessage Message.serialize request = .error e := by
            rw [Line.sendMessage] at hsend
            cases hframe : sendMessage Message.serialize request with
            | ok frame =>
                rw [hframe] at hsend
                cases hsend
            | error e' =>
                rw [hframe] at hsend
                cases hsend
                rfl
          exact ⟨h.out, h.back, hlinked.hereAsks.fetch_refused hcan.2 hrefused, hlinked.thereAsks,
            hlinked.hereErrors, hlinked.thereErrors⟩
      · exact h
  | resume task =>
      exact ⟨h.out, h.back, hlinked.hereAsks.resume task, hlinked.thereAsks, hlinked.hereErrors,
        hlinked.thereErrors⟩
  | finish task =>
      exact ⟨h.out, h.back, hlinked.hereAsks.finish task, hlinked.thereAsks, hlinked.hereErrors,
        hlinked.thereErrors⟩
  | tell msg =>
      simp only [Connection.act]
      split
      · rename_i htype
        split
        · rename_i out hsend
          rcases h.out.sendMessage hsend with ⟨hsound, hpending⟩
          refine ⟨hsound, h.back, ?_, ?_, hlinked.hereErrors, hlinked.thereErrors⟩
          · rw [hpending]
            exact hlinked.hereAsks.tell htype
          · refine hlinked.thereAsks.congr rfl rfl ?_
            rw [hpending, ofType_append, ofType_singleton, htype]
            simp
        · exact h
      · exact h
  | respond i response =>
      simp only [Connection.act]
      split
      · rename_i request hget
        split
        · rename_i hanswers
          have htype := Message.type_of_answers hanswers
          split
          · rename_i out hsend
            rcases h.out.sendMessage hsend with ⟨hsound, hpending⟩
            refine ⟨hsound, h.back, ?_, ?_, hlinked.hereErrors, hlinked.thereErrors⟩
            · refine hlinked.hereAsks.congr ?_ ?_ rfl
              · rw [hpending, ofType_append, ofType_singleton, htype]
                simp
              · rw [hpending, ofType_append, ofType_singleton, htype]
                simp
            · rw [hpending]
              exact hlinked.thereAsks.answer hget hanswers
          · refine ⟨h.out, h.back, hlinked.hereAsks, hlinked.thereAsks.fail hget none, ?_,
              hlinked.thereErrors⟩
            simpa [Answering.fail] using hlinked.hereErrors
        · exact h
      · exact h
  | reject i error =>
      simp only [Connection.act]
      split
      · rename_i request hget
        refine ⟨h.out, h.back, hlinked.hereAsks, hlinked.thereAsks.fail hget (some error), ?_,
          hlinked.thereErrors⟩
        simp [Answering.fail, hlinked.hereErrors]
      · exact h
  | receive size =>
      rcases h.back.receive size with ⟨hsound, hpending⟩
      refine ⟨h.out, hsound, ?_⟩
      rw [hpending] at hlinked
      exact hlinked.handleAll

theorem step (h : Connected connection) (event : Side × Action) :
    Connected (connection.step event) := by
  rcases event with ⟨side, action⟩
  cases side with
  | here => exact h.act action
  | there => exact (h.swap.act action).swap

end Connected

/-! ## Runs -/

/-- What the protocol is for, of the requests and events of one end. -/
structure Correct (asker answerer : Endpoint) (out back : Line) : Prop where
  /-- Tasks have the connection one at a time, in the order in which they were given to `use`. -/
  turns : asker.asking.finished ++ asker.asking.mutex.holders ++ asker.asking.mutex.queue =
    List.range asker.asking.used ∧ asker.asking.mutex.holders.length ≤ 1
  /-- Each `fetch` that resolves does so with what the handler has answered to its request: the
  exchanges are the same at both ends, in the same order, but for a response that is under way. -/
  exchanged : ∃ underway, answerer.answering.answered = asker.asking.exchanges ++ underway ∧
    underway.length ≤ 1
  /-- A `fetch` that rejects is one whose request could not be written. -/
  refused : ∀ f ∈ asker.asking.fetches, ∀ e, f.result = some (.error e) →
    sendMessage Message.serialize f.request = .error e
  /-- The only errors that are emitted are those of handlers. -/
  errors : asker.errors = asker.answering.failures.filterMap Prod.snd
  /-- Events are handled once and in the order in which they were sent. -/
  heard : answerer.answering.heard <+: asker.asking.told
  /-- When nothing is under way and no handler has failed, every `fetch` has settled and every event
  has been handled. -/
  quiet : out.wire = [] → back.wire = [] → answerer.answering.handling = [] →
    answerer.answering.failures = [] → (∀ f ∈ asker.asking.fetches, Settled f) ∧
      answerer.answering.answered = asker.asking.exchanges ∧
      answerer.answering.heard = asker.asking.told

namespace Connected

variable {connection : Connection}

theorem correct (h : Connected connection) :
    Correct connection.here connection.there connection.out connection.back := by
  have hasks := h.linked.hereAsks
  refine ⟨⟨hasks.turns, ?_⟩, ?_, hasks.refused, h.linked.hereErrors, ⟨_, hasks.heard⟩, ?_⟩
  · cases hasks.exclusive with
    | free hlocked hqueue hholders => simp [hholders]
    | held hlocked hholders => simp [hholders]
  · cases hasks.phase with
    | idle hsettled hrequests hhandling hresponses hanswered => exact ⟨[], by simp [hanswered], by simp⟩
    | waiting hfetches hbefore hholders hawaits hreceiver hplace =>
        cases hplace with
        | requested hrequests hhandling hresponses hanswered =>
            exact ⟨[], by simp [hanswered], by simp⟩
        | handled hrequests hhandling hresponses hanswered => exact ⟨[], by simp [hanswered], by simp⟩
        | responded hanswers hrequests hhandling hresponses hanswered =>
            exact ⟨_, hanswered, Nat.le_refl 1⟩
        | failed hrequests hhandling hresponses hanswered hfailures =>
            exact ⟨[], by simp [hanswered], by simp⟩
  · intro hout hback hhandling hfailures
    have hphase := hasks.phase
    have hheard := hasks.heard
    rw [h.out.pending_eq_nil hout, h.back.pending_eq_nil hback] at hphase
    rw [h.out.pending_eq_nil hout, ofType, List.filter_nil, List.append_nil] at hheard
    cases hphase with
    | idle hsettled hrequests hhandling' hresponses hanswered => exact ⟨hsettled, hanswered, hheard⟩
    | waiting hfetches hbefore hholders hawaits hreceiver hplace =>
        -- a request that is under way would be somewhere
        cases hplace with
        | requested hrequests hhandling' hresponses hanswered => cases hrequests
        | handled hrequests hhandling' hresponses hanswered =>
            rw [hhandling] at hhandling'
            cases hhandling'
        | responded hanswers hrequests hhandling' hresponses hanswered => cases hresponses
        | failed hrequests hhandling' hresponses hanswered hne => exact absurd hfailures hne

end Connected

end Protocol
end UniqysKit
