import UniqysKit.EasyFramework.Numbers
import UniqysKit.EasyFramework.Transaction

/-!
# The memcached text protocol

`memcached-compatible-server/protocol.ts` and `parameter-fetcher.ts` of `packages/easy-framework`.  A
connection gets chunks of bytes.  Outside of a data block they are lines of text, each with a command;
a storage command is followed by a data block of a given length.

The implementation behind the protocol is a parameter.  What it answers to a call depends on the
calls before.  `calls` and `written` list what the implementation and the socket were given; the
program has no such lists.
-/

namespace UniqysKit
namespace EasyFramework
namespace Memcached

/-- A JavaScript string. What comes from UTF-8 has no lone surrogates. -/
abbrev Text := List Char

/-- `Buffer.toString()`. -/
def toText (bytes : Bytes) : Text := Utf8.decode none bytes

/-- The length of a string, in 16-bit units. -/
def Text.length (text : Text) : Nat :=
  (text.map fun char => if char.toNat < 0x10000 then 1 else 2).sum

/-! ## Parameters -/

/-- A thrown error: a `ClientError` or another one. -/
structure Failure where
  isClient : Bool
  message : Text
  deriving DecidableEq

namespace Checker

def clientError {α : Type} (message : Text) : Except Failure α := .error ⟨true, message⟩

/-- The check of `Checker.get` before any parameter. -/
def atMost (count : Nat) (params : List Text) : Except Failure Unit :=
  if params.length > count then clientError "too many parameters".toList else .ok ()

def «def» : Option Text → Except Failure Text
  | none => clientError "missing parameter".toList
  | some raw => .ok raw

/-- The white space that `parseInt` skips. -/
def isSpace (char : Char) : Bool :=
  [0x9, 0xA, 0xB, 0xC, 0xD, 0x20, 0xA0, 0x1680, 0x2028, 0x2029, 0x202F, 0x205F, 0x3000, 0xFEFF].contains
    char.toNat || (0x2000 ≤ char.toNat && char.toNat ≤ 0x200A)

/-- The number that the digits at the start make. -/
def digits (text : Text) : Option Nat :=
  match text.takeWhile Char.isDigit with
  | [] => none
  | ds => some (ds.foldl (fun n d => n * 10 + (d.toNat - '0'.toNat)) 0)

/-- `parseInt(text, 10)`. -/
def parseInt (text : Text) : Number :=
  let exact := match text.dropWhile isSpace with
    | '-' :: rest => (digits rest).map fun n => -(n : Int)
    | '+' :: rest => (digits rest).map fun n => (n : Int)
    | rest => (digits rest).map fun n => (n : Int)
  (exact.map Number.nearest).getD .nan

def number (raw : Option Text) : Except Failure Number := do
  let str ← «def» raw
  let num := parseInt str
  if num = .nan then clientError ("bad number format: ".toList ++ str)
  return num

def key (raw : Option Text) : Except Failure Text := do
  let key ← «def» raw
  if Text.length key > 250 then clientError ("bad key format: ".toList ++ key)
  return key

def flags (raw : Option Text) : Except Failure Int := do
  let flags ← number raw
  if flags.less (.integer 0) ∨ (Number.integer 0xffffffff).less flags then
    clientError ("bad flags format: ".toList ++ flags.toText)
  return flags.toInt

def noReply : Option Text → Except Failure Bool
  | none => .ok false
  | some raw =>
      if raw = "noreply".toList then .ok true
      else clientError ("bad noreply format: ".toList ++ raw)

end Checker

namespace ParameterFetcher

open Checker

def none (params : List Text) : Except Failure Unit := atMost 0 params

structure StorageParams where
  key : Text
  flags : Int
  bytes : Int
  noReply : Bool

def storage (params : List Text) : Except Failure StorageParams := do
  atMost 5 params
  let key ← Checker.key params[0]?
  let flags ← Checker.flags params[1]?
  let _ ← Checker.number params[2]?
  let bytes ← Checker.number params[3]?
  let noReply ← Checker.noReply params[4]?
  return ⟨key, flags, bytes.toInt, noReply⟩

def cas (params : List Text) : Except Failure (StorageParams × Int) := do
  atMost 6 params
  let key ← Checker.key params[0]?
  let flags ← Checker.flags params[1]?
  let _ ← Checker.number params[2]?
  let bytes ← Checker.number params[3]?
  let cas ← Checker.number params[4]?
  let noReply ← Checker.noReply params[5]?
  return (⟨key, flags, bytes.toInt, noReply⟩, cas.toInt)

def get (params : List Text) : Except Failure (List Text) :=
  if params.length = 0 then clientError "missing keys".toList
  else params.mapM fun param => Checker.key (some param)

def del (params : List Text) : Except Failure (Text × Bool) := do
  atMost 2 params
  let key ← Checker.key params[0]?
  let noReply ← Checker.noReply params[1]?
  return (key, noReply)

def incrDecr (params : List Text) : Except Failure (Text × Number × Bool) := do
  atMost 3 params
  let key ← Checker.key params[0]?
  let value ← Checker.number params[1]?
  let noReply ← Checker.noReply params[2]?
  return (key, value, noReply)

/-- The flag for no reply; the delay is not used. -/
def flush (params : List Text) : Except Failure Bool :=
  match params with
  | [] => .ok false
  | first :: _ =>
      if first = "noreply".toList then .ok true
      else do
        let _ ← Checker.number (some first)
        Checker.noReply params[1]?

def verb (params : List Text) : Except Failure (Number × Bool) := do
  atMost 2 params
  let level ← Checker.number params[0]?
  let noReply ← Checker.noReply params[1]?
  return (level, noReply)

end ParameterFetcher

/-! ## Calls and replies -/

inductive Response where
  | ok
  | stored
  | notStored
  | exists
  | notFound
  | deleted
  | touched
  deriving DecidableEq

namespace Response

def text : Response → Text
  | ok => "OK".toList
  | stored => "STORED".toList
  | notStored => "NOT_STORED".toList
  | «exists» => "EXISTS".toList
  | notFound => "NOT_FOUND".toList
  | deleted => "DELETED".toList
  | touched => "TOUCHED".toList

/-- A value that `get` yields; `gets` adds a `cas`. -/
structure Value where
  key : Text
  flags : Int
  data : Bytes
  cas : Option Int
  deriving DecidableEq

structure Stat where
  name : Text
  value : Text
  deriving DecidableEq

end Response

/-- A call of the implementation. -/
inductive Call where
  | set (key : Text) (flags : Int) (data : Bytes)
  | add (key : Text) (flags : Int) (data : Bytes)
  | replace (key : Text) (flags : Int) (data : Bytes)
  | append (key : Text) (data : Bytes)
  | prepend (key : Text) (data : Bytes)
  | cas (key : Text) (flags casUniq : Int) (data : Bytes)
  | get (keys : List Text)
  | gets (keys : List Text)
  | delete (key : Text)
  | incr (key : Text) (value : Number)
  | decr (key : Text) (value : Number)
  | stats (args : List Text)
  | flush
  | version
  | verbosity (level : Number)
  | quit
  deriving DecidableEq

/-- What the implementation answers, by the kind of the answer, from the calls before and the call.
An iteration can yield some items and then throw. -/
structure MemcachedSubset where
  response : List Call → Call → Except Failure Response
  /-- `none` for `NOT_FOUND`. -/
  number : List Call → Call → Except Failure (Option Number)
  values : List Call → Call → List Response.Value × Option Failure
  stats : List Call → Call → List Response.Stat × Option Failure
  version : List Call → Except Failure Text
  quit : List Call → Except Failure Unit

/-- What the socket is given. -/
inductive Written where
  | text (text : Text)
  | data (data : Bytes)
  | close
  deriving DecidableEq

/-! ## Commands -/

/-- What waits for the data block of a storage command. -/
structure DataHandler where
  call : Bytes → Call
  noReply : Bool

/-- What a command waits for: a data block of some length, and its handler. -/
abbrev DataBlock := Int × DataHandler

/-- What went over a connection. -/
structure Connection where
  calls : List Call
  written : List Written
  deriving DecidableEq

namespace Connection

def new : Connection := ⟨[], []⟩

/-- Code of the protocol. -/
abbrev Code := EStateM Failure Connection

def crlf : Text := ['\r', '\n']

/-- `socket.write` of a text, and the end of the line. -/
def write (text : Text) : Code Unit :=
  modify fun connection => { connection with written := connection.written ++ [.text (text ++ crlf)] }

def writeResponse (noReply : Bool) (response : Response) : Code Unit :=
  if noReply then return else write response.text

def writeNumber (noReply : Bool) (num : Number) : Code Unit :=
  if noReply then return else write num.toText

def writeValue (value : Response.Value) : Code Unit := do
  let cas := match value.cas with
    | none => []
    | some cas => ' ' :: (toString cas).toList
  write ("VALUE ".toList ++ value.key ++ ' ' :: (toString value.flags).toList ++
    ' ' :: (toString value.data.length).toList ++ cas)
  modify fun connection => { connection with written := connection.written ++ [.data value.data] }
  write []

def writeStat (stat : Response.Stat) : Code Unit :=
  write ("STAT ".toList ++ stat.name ++ ' ' :: stat.value)

def writeVersion (version : Text) : Code Unit := write ("VERSION ".toList ++ version)

def writeEnd : Code Unit := write "END".toList

def writeError : Code Unit := write "ERROR".toList

def writeServerError (message : Text) : Code Unit := write ("SERVER_ERROR ".toList ++ message)

def writeClientError (message : Text) : Code Unit := write ("CLIENT_ERROR ".toList ++ message)

def closeSocket : Code Unit :=
  modify fun connection => { connection with written := connection.written ++ [.close] }

/-- Code that can throw and changes nothing. -/
def fetch {α : Type} : Except Failure α → Code α
  | .ok a => pure a
  | .error e => throw e

/-- A call: it is noted, and answered by the calls before it. -/
def invoke {α : Type} (answer : List Call → Call → Except Failure α) (call : Call) : Code α := do
  let calls := (← get).calls
  modify fun connection => { connection with calls := calls ++ [call] }
  fetch (answer calls call)

/-- A call that yields items, each of which is written as it comes. -/
def iterate {α : Type} (answer : List Call → Call → List α × Option Failure) (call : Call)
    (writeItem : α → Code Unit) : Code Unit := do
  let calls := (← get).calls
  modify fun connection => { connection with calls := calls ++ [call] }
  let (items, failure) := answer calls call
  items.forM writeItem
  match failure with
  | none => return
  | some e => throw e

/-- A command without a data block. -/
def done (code : Code Unit) : Code (Option DataBlock) := do
  code
  return none

section Commands

variable (implementation : MemcachedSubset)

/-- The five storage commands without `cas`. -/
def store (params : List Text) (call : Text → Int → Bytes → Call) : Code (Option DataBlock) := do
  let ⟨key, flags, bytes, noReply⟩ ← fetch (ParameterFetcher.storage params)
  return some (bytes, ⟨call key flags, noReply⟩)

def processCas (params : List Text) : Code (Option DataBlock) := do
  let (⟨key, flags, bytes, noReply⟩, cas) ← fetch (ParameterFetcher.cas params)
  return some (bytes, ⟨Call.cas key flags cas, noReply⟩)

/-- `get` and `gets`. -/
def retrieve (params : List Text) (call : List Text → Call) : Code Unit := do
  let keys ← fetch (ParameterFetcher.get params)
  iterate implementation.values (call keys) writeValue
  writeEnd

/-- `incr` and `decr`. -/
def count (params : List Text) (call : Text → Number → Call) : Code Unit := do
  let (key, value, noReply) ← fetch (ParameterFetcher.incrDecr params)
  match ← invoke implementation.number (call key value) with
  | none => writeResponse noReply .notFound
  | some res => writeNumber noReply res

/-- The data handler that a command sets is what it returns. -/
def processCommand (command : Text) (params : List Text) : Code (Option DataBlock) :=
  if command = [] then return none
  else if command = "set".toList then store params Call.set
  else if command = "add".toList then store params Call.add
  else if command = "replace".toList then store params Call.replace
  else if command = "append".toList then store params fun key _ => Call.append key
  else if command = "prepend".toList then store params fun key _ => Call.prepend key
  else if command = "cas".toList then processCas params
  else if command = "get".toList then done (retrieve implementation params Call.get)
  else if command = "gets".toList then done (retrieve implementation params Call.gets)
  else if command = "delete".toList then done do
    let (key, noReply) ← fetch (ParameterFetcher.del params)
    writeResponse noReply (← invoke implementation.response (.delete key))
  else if command = "incr".toList then done (count implementation params Call.incr)
  else if command = "decr".toList then done (count implementation params Call.decr)
  else if command = "stats".toList then done do
    iterate implementation.stats (.stats params) writeStat
    writeEnd
  else if command = "flush_all".toList then done do
    let noReply ← fetch (ParameterFetcher.flush params)
    writeResponse noReply (← invoke implementation.response .flush)
  else if command = "version".toList then done do
    fetch (ParameterFetcher.none params)
    writeVersion (← invoke (fun calls _ => implementation.version calls) .version)
  else if command = "verbosity".toList then done do
    let (level, noReply) ← fetch (ParameterFetcher.verb params)
    writeResponse noReply (← invoke implementation.response (.verbosity level))
  else if command = "quit".toList then done do
    fetch (ParameterFetcher.none params)
    invoke (fun calls _ => implementation.quit calls) .quit
    closeSocket
  else done writeError

/-- A line of text: a command and its parameters. -/
def processLine (line : Bytes) : Code (Option DataBlock) :=
  match (toText line).splitOn ' ' with
  | [] => processCommand implementation [] []
  | command :: params => processCommand implementation command params

/-- What a storage command does with its data. -/
def runHandler (handler : DataHandler) (data : Bytes) : Code Unit := do
  writeResponse handler.noReply (← invoke implementation.response (handler.call data))

end Commands

/-- What the `catch` of `handle` does with an error. -/
def writeFailure (e : Failure) : Code Unit :=
  if e.isClient then writeClientError e.message else writeServerError e.message

end Connection

/-! ## Chunks -/

structure MemcachedTextProtocol where
  buffer : List Bytes
  remainBytes : Int
  dataHandler : Option DataHandler
  connection : Connection

namespace MemcachedTextProtocol

open Connection

def new : MemcachedTextProtocol := ⟨[], 0, none, .new⟩

/-- Code that does not touch the fields of the protocol. -/
def onConnection {α : Type} (code : Code α) : EStateM Failure MemcachedTextProtocol α :=
  fun protocol =>
    match code protocol.connection with
    | .ok a connection => .ok a { protocol with connection }
    | .error e connection => .error e { protocol with connection }

def setBuffer (buffer : List Bytes) : EStateM Failure MemcachedTextProtocol Unit :=
  modify fun protocol => { protocol with buffer }

def setDataHandler : Option DataBlock → EStateM Failure MemcachedTextProtocol Unit
  | none => return
  | some (bytes, handler) =>
      modify fun protocol => { protocol with remainBytes := bytes, dataHandler := some handler }

/-- The first place in the chunk with a CR before a LF. -/
def crlfIndex : Bytes → Option Nat
  | [] => none
  | byte :: rest =>
      if byte = 13 ∧ rest.head? = some 10 then some 0 else (crlfIndex rest).map (· + 1)

section Chunks

variable (implementation : MemcachedSubset)

/-- `processChunk`, in at most `fuel` turns. -/
def processChunk : Nat → Bytes → EStateM Failure MemcachedTextProtocol Unit
  | 0, _ => return
  | fuel + 1, chunk => do
      let ⟨buffer, remainBytes, dataHandler, _⟩ ← get
      match dataHandler with
      | none =>
          match crlfIndex chunk with
          | some i =>
              let line := (buffer ++ [chunk.take i]).flatten
              setBuffer []
              setDataHandler (← onConnection (processLine implementation line))
              processChunk fuel (chunk.drop (i + 2))
          | none => setBuffer (buffer ++ [chunk])
      | some handler =>
          if (chunk.length : Int) ≥ remainBytes then
            let data := (buffer ++ [slice chunk 0 remainBytes]).flatten
            setBuffer []
            -- the handler is taken away before it runs
            modify fun protocol => { protocol with dataHandler := none }
            onConnection (runHandler implementation handler data)
            processChunk fuel (slice chunk remainBytes chunk.length)
          else
            modify fun protocol => { protocol with remainBytes := remainBytes - chunk.length }
            setBuffer (buffer ++ [chunk])

/-! ### What a turn does -/

variable {implementation}

/-- The protocol after a command that waits for `block`. -/
def waiting (protocol : MemcachedTextProtocol) (connection : Connection) :
    Option DataBlock → MemcachedTextProtocol
  | none => { protocol with buffer := [], connection }
  | some (bytes, handler) => ⟨[], bytes, some handler, connection⟩

/-- The bytes of the line that ends at `i`. -/
def lineAt (protocol : MemcachedTextProtocol) (chunk : Bytes) (i : Nat) : Bytes :=
  protocol.buffer.flatten ++ chunk.take i

/-- The bytes of a data block that ends in the chunk. -/
def dataAt (protocol : MemcachedTextProtocol) (chunk : Bytes) : Bytes :=
  protocol.buffer.flatten ++ slice chunk 0 protocol.remainBytes

variable {protocol : MemcachedTextProtocol} {chunk : Bytes} {fuel i : Nat} {handler : DataHandler}
  {connection : Connection}

/-- A turn of `processChunk` without the monad. -/
theorem processChunk_succ :
    processChunk implementation (fuel + 1) chunk protocol =
      match protocol.dataHandler with
      | none =>
          match crlfIndex chunk with
          | some i =>
              match processLine implementation (lineAt protocol chunk i) protocol.connection with
              | .ok block connection =>
                  processChunk implementation fuel (chunk.drop (i + 2))
                    (waiting protocol connection block)
              | .error e connection => .error e { protocol with buffer := [], connection }
          | none => .ok () { protocol with buffer := protocol.buffer ++ [chunk] }
      | some handler =>
          if protocol.remainBytes ≤ chunk.length then
            match runHandler implementation handler (dataAt protocol chunk) protocol.connection with
            | .ok _ connection =>
                processChunk implementation fuel (slice chunk protocol.remainBytes chunk.length)
                  ⟨[], protocol.remainBytes, none, connection⟩
            | .error e connection => .error e ⟨[], protocol.remainBytes, none, connection⟩
          else
            .ok () { protocol with
              buffer := protocol.buffer ++ [chunk]
              remainBytes := protocol.remainBytes - chunk.length } := by
  rcases protocol with ⟨buffer, remainBytes, dataHandler, before⟩
  have hlast (bytes : Bytes) : (buffer ++ [bytes]).flatten = buffer.flatten ++ bytes := by simp
  cases dataHandler with
  | none =>
      rw [processChunk, Library.Fallible.get_bind]
      simp only
      -- a command line ends in this chunk, or all of it is kept
      cases crlfIndex chunk with
      | none => rfl
      | some i =>
          simp only
          rw [setBuffer, Library.Fallible.modify_bind]
          simp only [bind, EStateM.bind, onConnection, hlast, lineAt]
          cases processLine implementation (buffer.flatten ++ chunk.take i) before with
          | error e connection => rfl
          | ok block connection =>
              cases block with
              | none => rfl
              | some block => rfl
  | some handler =>
      rw [processChunk, Library.Fallible.get_bind]
      -- a data block ends in this chunk, or all of it is kept
      simp only [ge_iff_le]
      split
      · rw [setBuffer, Library.Fallible.modify_bind, Library.Fallible.modify_bind]
        simp only [bind, EStateM.bind, onConnection, hlast, dataAt]
        cases runHandler implementation handler (buffer.flatten ++ slice chunk 0 remainBytes)
          before with
        | error e connection => rfl
        | ok _ connection => rfl
      · rfl

theorem crlfIndex_lt (hcrlf : crlfIndex chunk = some i) : i + 2 ≤ chunk.length := by
  induction chunk generalizing i with
  | nil => cases hcrlf
  | cons byte rest ih =>
      unfold crlfIndex at hcrlf
      split at hcrlf
      · rename_i h
        cases hcrlf
        rcases h with ⟨-, hhead⟩
        cases rest with
        | nil => cases hhead
        | cons next rest => simp
      · rcases Option.map_eq_some_iff.mp hcrlf with ⟨j, hj, rfl⟩
        have := ih hj
        simp only [List.length_cons]
        omega

/-- What `2 * length + 2` turns do not do, one more turn does not do. -/
theorem processChunk_fuel (hfuel : 2 * chunk.length + 2 ≤ fuel) :
    processChunk implementation (fuel + 1) chunk protocol =
      processChunk implementation fuel chunk protocol := by
  suffices h : ∀ (fuel : Nat) (chunk : Bytes) (protocol : MemcachedTextProtocol),
      2 * chunk.length + 1 + (if protocol.dataHandler = none then 0 else 1) ≤ fuel →
        processChunk implementation (fuel + 1) chunk protocol =
          processChunk implementation fuel chunk protocol by
    apply h
    split
    · omega
    · omega
  clear hfuel
  -- a line takes two bytes or more, a data block its handler
  intro fuel
  induction fuel with
  | zero => intro chunk protocol hfuel; omega
  | succ fuel ih =>
      intro chunk protocol hfuel
      rw [processChunk_succ, processChunk_succ]
      cases hmode : protocol.dataHandler with
      | none =>
          cases hcrlf : crlfIndex chunk with
          | none => rfl
          | some i =>
              have := crlfIndex_lt hcrlf
              simp only
              cases processLine implementation (lineAt protocol chunk i) protocol.connection with
              | error e connection => rfl
              | ok block connection =>
                  apply ih
                  simp only [List.length_drop]
                  split
                  · omega
                  · omega
      | some handler =>
          have hslice : (slice chunk protocol.remainBytes chunk.length).length ≤ chunk.length := by
            simp [slice]
          simp only
          split
          · cases runHandler implementation handler (dataAt protocol chunk) protocol.connection with
            | error e connection => rfl
            | ok _ connection =>
                apply ih
                simp only [hmode, reduceCtorEq, if_false, if_true] at hfuel ⊢
                omega
          · rfl

variable (implementation)

/-- The error of some code is written. -/
def caught (result : EStateM.Result Failure MemcachedTextProtocol Unit) : MemcachedTextProtocol :=
  match result with
  | .ok _ protocol => protocol
  | .error e protocol => Library.Fallible.final (onConnection (writeFailure e) protocol)

/-- The handler of the event `data`. Each turn of `processChunk` takes bytes from the chunk or ends a
data block. -/
def receive (protocol : MemcachedTextProtocol) (chunk : Bytes) : MemcachedTextProtocol :=
  caught (processChunk implementation (2 * chunk.length + 2) chunk protocol)

variable {implementation} in
/-- `receive` does not stop before the program: no more turns do anything else. -/
theorem receive_eq (hfuel : 2 * chunk.length + 2 ≤ fuel) :
    receive implementation protocol chunk = caught (processChunk implementation fuel chunk protocol) := by
  obtain ⟨more, rfl⟩ := Nat.exists_eq_add_of_le hfuel
  rw [receive]
  congr 1
  induction more with
  | zero => rfl
  | succ more ih => exact (ih (by omega)).trans (processChunk_fuel (by omega)).symm

/-- A connection that gets some chunks. -/
def run (protocol : MemcachedTextProtocol) (chunks : List Bytes) : MemcachedTextProtocol :=
  chunks.foldl (receive implementation) protocol

end Chunks

end MemcachedTextProtocol

end Memcached
end EasyFramework
end UniqysKit
