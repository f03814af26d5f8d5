import UniqysKit.EasyFramework.InterleavedCalls

/-!
# Writes of two APIs and of many connections

A call is disturbed by calls that it does not wait for: a memcached command by requests to the inner
API, which have a mutex of their own, and any call by a `flush`, which has none.  As long as such
calls keep apart, no update is lost, and the commands of any number of connections are linearizable.
Where they overlap, both build on one root, and the update that is saved first is lost.
-/

namespace UniqysKit
namespace EasyFramework

open Library

namespace Serving

/-- What one event keeps, if the calls keep apart. -/
theorem InOrder.step_apart {c : Crypto} {memcached : EasyMemcached} {start : Contents} {s : Serving}
    {event : ServingEvent} (h : s.InOrder c memcached start) (hwaiting : s.Waiting)
    (hapart : s.Apart c event) :
    (s.step c memcached event).InOrder c memcached start ∧ (s.step c memcached event).Waiting :=
  ⟨h.step (hwaiting.undisturbed hapart), hwaiting.step⟩

/-! ## The two APIs -/

/-- The trie has the contents after the calls that were answered, one after another in some order. -/
def Sequential (c : Crypto) (memcached : EasyMemcached) (start : Contents) (s : Serving) : Prop :=
  ∃ order : List Call, order.Perm (s.answered.map Prod.fst) ∧
    Represents c s.trie (Call.replies memcached order start).2

/-- Whatever memcached commands and requests to the inner API are served at the same time: if those
that do not wait for each other keep apart, no update is lost. -/
theorem no_lost_update {c : Crypto} {memcached : EasyMemcached} {trie : MerklePatriciaTrie}
    {start : Contents} (hrep : Represents c trie start) (events : List ServingEvent)
    (hapart : Along (step c memcached) ⟨trie, [], []⟩ events (Apart c))
    (hc : NoCollision c (events.foldl (step c memcached) ⟨trie, [], []⟩).trie.saved) :
    let s := events.foldl (step c memcached) ⟨trie, [], []⟩
    s.underway = [] → s.Sequential c memcached start := by
  intro s hidle
  have hinit : InOrder c memcached start ⟨trie, [], []⟩ ∧ Waiting ⟨trie, [], []⟩ :=
    ⟨fun _ => ⟨start, correct_nil hrep⟩, .nil⟩
  have hthroughout : Throughout (step c memcached) ⟨trie, [], []⟩ events fun s =>
      s.InOrder c memcached start ∧ s.Waiting :=
    hapart.throughout hinit fun s event h hevent => h.1.step_apart h.2 hevent
  rcases (hthroughout events [] (List.append_nil _).symm).1 hc with ⟨contents, hcorrect⟩
  exact ⟨_, .refl _, hcorrect.replies.2 hidle⟩

theorem no_lost_update_commandAndRequest :
    let s := commandAndRequest.foldl (step .transparent ⟨false, .readWrite⟩) ⟨freshTrie, [], []⟩
    s.underway = [] → s.Sequential .transparent ⟨false, .readWrite⟩ fun _ => none :=
  no_lost_update represents_freshTrie commandAndRequest (by decide +kernel) (by decide +kernel)

/-- A `set` and a `PUT` of a balance, both of which report success: the request looks at the root
before the command assigns its own. -/
def overlappingWrites : List ServingEvent :=
  [.call (.set [1] 0 [7]), .call (.putBalance (some Address.zero) (some 5)), .goOn 0 [], .goOn 1 [],
    .goOn 1 [], .goOn 1 []] ++ List.replicate 7 (.goOn 1 []) ++ List.replicate 6 (.goOn 0 [])

/-- Of two calls with different mutexes one is lost. -/
theorem lost_update :
    let s := overlappingWrites.foldl (step .transparent ⟨false, .readWrite⟩) ⟨freshTrie, [], []⟩
    NoCollision .transparent s.trie.saved ∧ s.underway = [] ∧
      s.answered.map Prod.snd = [.ok (.balance 5), .ok (.response .stored)] ∧
      ¬s.Sequential .transparent ⟨false, .readWrite⟩ fun _ => none := by
  refine ⟨by decide +kernel, by decide +kernel, by decide +kernel, ?_⟩
  rintro ⟨order, hperm, hrep⟩
  -- after both calls, in either order, the account is there
  have hall : ∀ order ∈ ([.putBalance (some Address.zero) (some 5), .set [1] 0 [7]] :
      List Call).permutations', (Call.replies ⟨false, .readWrite⟩ order fun _ => none).2
        Address.zero.buffer ≠ none := by decide +kernel
  have hanswered : (overlappingWrites.foldl (step .transparent ⟨false, .readWrite⟩)
      ⟨freshTrie, [], []⟩).answered.map Prod.fst =
        [.putBalance (some Address.zero) (some 5), .set [1] 0 [7]] := by decide +kernel
  rw [hanswered] at hperm
  have hstored := hall order (List.mem_permutations'.mpr hperm)
  have hget := congrArg Fallible.outcome (hrep.get Address.zero.buffer)
  have hnone : Fallible.outcome (MerklePatriciaTrie.get Address.zero.buffer
      (overlappingWrites.foldl (step .transparent ⟨false, .readWrite⟩) ⟨freshTrie, [], []⟩).trie) =
        .ok none := by decide +kernel
  rw [hnone] at hget
  exact hstored (Except.ok.inj hget).symm

end Serving

/-! ## Connections -/

/-- The commands of some connections.  A connection sends a command once it has the answer to the one
before. -/
structure Connections where
  serving : Serving
  /-- The commands under way, in the order of `serving.underway`. -/
  pending : List (Nat × Call)
  sent : List (Nat × Call)
  received : List (Nat × Call × Except Error Reply)

inductive ConnectionEvent
  | send (connection : Nat) (command : Call)
  | goOn (i : Nat) (path : List (Fin 16))

namespace Connections

/-- The entries of one connection. -/
def ofConnection {α : Type} (connection : Nat) (entries : List (Nat × α)) : List α :=
  (entries.filter fun entry => entry.1 = connection).map Prod.snd

section Definitions

variable (c : Crypto) (memcached : EasyMemcached)

def new (trie : MerklePatriciaTrie) : Connections := ⟨⟨trie, [], []⟩, [], [], []⟩

/-- While a command is processed, the socket of its connection is paused. -/
def send (s : Connections) (connection : Nat) (command : Call) : Connections :=
  if connection ∈ s.pending.map Prod.fst then s
  else
    { s with
      serving := s.serving.step c memcached (.call command)
      pending := s.pending ++ [(connection, command)]
      sent := s.sent ++ [(connection, command)] }

def goOn (s : Connections) (i : Nat) (path : List (Fin 16)) : Connections :=
  let serving := s.serving.goOn c i path
  match s.pending[i]?, serving.answered.drop s.serving.answered.length with
  | some (connection, _), answer :: _ =>
      { s with
        serving
        pending := s.pending.eraseIdx i
        received := s.received ++ [(connection, answer)] }
  | _, _ => { s with serving }

def step (s : Connections) : ConnectionEvent → Connections
  | .send connection command => s.send c memcached connection command
  | .goOn i path => s.goOn c i path

/-- The step does not disturb commands that do not wait for the same mutex. -/
def Apart (s : Connections) : ConnectionEvent → Prop
  | .send _ _ => True
  | .goOn i path => s.serving.Apart c (.goOn i path)

instance (s : Connections) (event : ConnectionEvent) : Decidable (s.Apart c event) :=
  match event with
  | .send _ _ => isTrue trivial
  | .goOn i path => inferInstanceAs (Decidable (s.serving.Apart c (.goOn i path)))

/-- There is an order of the commands in which those of each connection stand as it sent them, and in
which they have, one after another, the answers that came and the contents of the trie. -/
def Linearizable (start : Contents) (s : Connections) : Prop :=
  ∃ order : List (Nat × Call × Except Error Reply),
    (∀ connection, (ofConnection connection order).map Prod.fst = ofConnection connection s.sent) ∧
    (∀ connection, ofConnection connection order = ofConnection connection s.received) ∧
    (Call.replies memcached (order.map fun entry => entry.2.1) start).1 =
      order.map (fun entry => entry.2.2) ∧
    Represents c s.serving.trie (Call.replies memcached (order.map fun entry => entry.2.1) start).2

end Definitions

/-! ### The order of a connection -/

section OfConnection

variable {α : Type} {entries : List (Nat × α)} {n i : Nat}

theorem ofConnection_append (entries' : List (Nat × α)) :
    ofConnection n (entries ++ entries') = ofConnection n entries ++ ofConnection n entries' := by
  rw [ofConnection, List.filter_append, List.map_append]
  rfl

theorem ofConnection_self (a : α) : ofConnection n [(n, a)] = [a] := by
  simp [ofConnection]

theorem ofConnection_other {entry : Nat × α} (h : entry.1 ≠ n) : ofConnection n [entry] = [] := by
  simp [ofConnection, h]

theorem ofConnection_eq_nil (h : n ∉ entries.map Prod.fst) : ofConnection n entries = [] := by
  refine List.map_eq_nil_iff.mpr (List.filter_eq_nil_iff.mpr ?_)
  intro entry hentry heq
  exact h (List.mem_map.mpr ⟨entry, hentry, of_decide_eq_true heq⟩)

/-- Without one entry: for its connection nothing is left, for others all is as before. -/
theorem ofConnection_eraseIdx {entry : Nat × α} (hnodup : (entries.map Prod.fst).Nodup)
    (hentry : entries[i]? = some entry) :
    ofConnection n entries =
      ofConnection n [entry] ++ ofConnection n (entries.eraseIdx i) := by
  rcases List.getElem?_eq_some_iff.mp hentry with ⟨hi, rfl⟩
  have hsplit : entries = entries.take i ++ ([entries[i]] ++ entries.drop (i + 1)) := by
    rw [List.singleton_append, ← List.drop_eq_getElem_cons hi, List.take_append_drop]
  rw [List.eraseIdx_eq_take_drop_succ]
  by_cases hn : entries[i].1 = n
  · have hbefore : ofConnection n (entries.take i) = [] := by
      refine ofConnection_eq_nil ?_
      rw [hsplit, List.map_append, List.nodup_append] at hnodup
      intro hmem
      exact hnodup.2.2 n hmem n
        (List.mem_map.mpr ⟨entries[i], List.mem_append_left _ (List.mem_singleton_self _), hn⟩) rfl
    nth_rewrite 1 [hsplit]
    rw [ofConnection_append, ofConnection_append, ofConnection_append, hbefore, List.nil_append,
      List.nil_append]
  · nth_rewrite 1 [hsplit]
    rw [ofConnection_append, ofConnection_append, ofConnection_append, ofConnection_other hn,
      List.nil_append, List.nil_append]

theorem count_ofConnection [DecidableEq α] (a : α) :
    (ofConnection n entries).count a = entries.count (n, a) := by
  rw [ofConnection, List.count, List.countP_map, List.countP_filter, List.count]
  refine List.countP_congr ?_
  rintro ⟨m, b⟩ _
  simp [Prod.ext_iff, and_comm]

/-- The entries of all connections, in any order. -/
theorem perm_of_ofConnection [DecidableEq α] {entries' : List (Nat × α)}
    (h : ∀ n, ofConnection n entries = ofConnection n entries') : entries.Perm entries' := by
  refine List.perm_iff_count.mpr ?_
  rintro ⟨n, a⟩
  rw [← count_ofConnection, ← count_ofConnection, h]

end OfConnection

/-! ### The invariant -/

/-- Each connection has the answers to the commands that it sent, save one that is under way. -/
structure InTurn (s : Connections) : Prop where
  nodup : (s.pending.map Prod.fst).Nodup
  pending : s.pending.map Prod.snd = s.serving.underway.map Underway.call
  received : s.received.map Prod.snd = s.serving.answered
  sent : ∀ n, ofConnection n s.sent =
    (ofConnection n s.received).map Prod.fst ++ ofConnection n s.pending

section Invariant

variable {c : Crypto} {memcached : EasyMemcached} {s : Connections} {event : ConnectionEvent}

theorem inTurn_new (trie : MerklePatriciaTrie) : (new trie).InTurn :=
  ⟨.nil, rfl, rfl, fun _ => rfl⟩

theorem InTurn.send (h : s.InTurn) (connection : Nat) (command : Call) :
    (s.send c memcached connection command).InTurn := by
  rw [Connections.send]
  split
  · exact h
  · rename_i hnew
    refine ⟨?_, ?_, h.received, ?_⟩
    · rw [List.map_append, List.map_singleton]
      exact h.nodup.append (List.nodup_singleton _) (by simpa using hnew)
    · change _ = (s.serving.underway ++ [_]).map Underway.call
      rw [List.map_append, List.map_append, h.pending]
      rfl
    · intro n
      rw [ofConnection_append, ofConnection_append, h.sent n, List.append_assoc]

theorem InTurn.goOn (h : s.InTurn) (i : Nat) (path : List (Fin 16)) : (s.goOn c i path).InTurn := by
  rw [Connections.goOn]
  rcases s.serving.goOn_cases (c := c) i path with hsame | ⟨u, hu, -, hnext | ⟨answer, hends, hanswer⟩⟩
  · rw [hsame, List.drop_length]
    cases s.pending[i]? with
    | none => exact h
    | some entry => exact h
  · rcases hnext with ⟨u', hcall, hunderway, hanswered⟩
    have hcalls : s.pending.map Prod.snd = (s.serving.goOn c i path).underway.map Underway.call := by
      rcases List.getElem?_eq_some_iff.mp hu with ⟨hi, rfl⟩
      rw [hunderway, List.map_set, hcall, h.pending, ← List.getElem_map Underway.call,
        List.set_getElem_self]
      simpa using hi
    have hinTurn : Connections.InTurn { s with serving := s.serving.goOn c i path } :=
      ⟨h.nodup, hcalls, h.received.trans hanswered.symm, h.sent⟩
    rw [hanswered, List.drop_length]
    cases s.pending[i]? with
    | none => exact hinTurn
    | some entry => exact hinTurn
  · have hget : (s.pending.map Prod.snd)[i]? = some u.call := by
      rw [h.pending, List.getElem?_map, hu]
      rfl
    rw [List.getElem?_map] at hget
    rcases Option.map_eq_some_iff.mp hget with ⟨⟨connection, command⟩, hentry, hcommand⟩
    obtain rfl : command = u.call := hcommand
    rw [hentry, hanswer, List.drop_left]
    refine ⟨?_, ?_, ?_, ?_⟩
    · exact h.nodup.sublist ((List.eraseIdx_sublist ..).map _)
    · rw [hends, ← List.eraseIdx_map, ← List.eraseIdx_map, h.pending]
    · rw [List.map_append, h.received]
      exact hanswer.symm
    · intro n
      rw [h.sent n, ofConnection_eraseIdx h.nodup hentry, ofConnection_append, List.map_append,
        List.append_assoc]
      by_cases hn : connection = n
      · subst hn
        rw [ofConnection_self, ofConnection_self]
        rfl
      · rw [ofConnection_other hn, ofConnection_other hn]
        rfl

/-- The calls are in order, those of one mutex wait, and the connections take turns. -/
structure InOrder (c : Crypto) (memcached : EasyMemcached) (start : Contents) (s : Connections) :
    Prop where
  serving : s.serving.InOrder c memcached start
  waiting : s.serving.Waiting
  inTurn : s.InTurn

theorem InOrder.step {start : Contents} (h : s.InOrder c memcached start) (hapart : s.Apart c event) :
    (s.step c memcached event).InOrder c memcached start := by
  cases event with
  | send connection command =>
      have hcall := h.serving.step_apart h.waiting
        (show s.serving.Apart c (.call command) from trivial)
      have hturn : (s.send c memcached connection command).InTurn := h.inTurn.send connection command
      rw [Connections.step]
      by_cases hbusy : connection ∈ s.pending.map Prod.fst
      · rw [Connections.send, if_pos hbusy]
        exact h
      · rw [Connections.send, if_neg hbusy] at hturn ⊢
        exact ⟨hcall.1, hcall.2, hturn⟩
  | goOn i path =>
      have hgoOn := h.serving.step_apart h.waiting
        (show s.serving.Apart c (.goOn i path) from hapart)
      have hserving : (s.goOn c i path).serving = s.serving.goOn c i path := by
        rw [Connections.goOn]
        split
        · rfl
        · rfl
      refine ⟨?_, ?_, h.inTurn.goOn i path⟩
      · rw [Connections.step, hserving]
        exact hgoOn.1
      · rw [Connections.step, hserving]
        exact hgoOn.2

end Invariant

/-- Whatever the connections send: if commands that do not wait for each other keep apart, there is an
order of all commands that explains what was answered and what is in the trie. -/
theorem linearizable {c : Crypto} {memcached : EasyMemcached} {trie : MerklePatriciaTrie}
    {start : Contents} (hrep : Represents c trie start) (events : List ConnectionEvent)
    (hapart : Along (step c memcached) (new trie) events (Apart c))
    (hc : NoCollision c (events.foldl (step c memcached) (new trie)).serving.trie.saved) :
    let s := events.foldl (step c memcached) (new trie)
    s.serving.underway = [] → s.Linearizable c memcached start := by
  intro s hidle
  have hinit : InOrder c memcached start (new trie) :=
    ⟨fun _ => ⟨start, correct_nil hrep⟩, .nil, inTurn_new trie⟩
  have hthroughout := hapart.throughout hinit fun s event h hevent => h.step hevent
  have horder : s.InOrder c memcached start := hthroughout events [] (List.append_nil _).symm
  rcases horder.serving hc with ⟨contents, hcorrect⟩
  -- the commands in the order of their answers
  have hreplies := hcorrect.replies
  rw [← horder.inTurn.received, List.map_map, List.map_map] at hreplies
  have hpending : s.pending = [] := by
    have hcalls := horder.inTurn.pending
    rw [hidle] at hcalls
    exact List.map_eq_nil_iff.mp hcalls
  refine ⟨s.received, ?_, fun _ => rfl, hreplies.1, hreplies.2 hidle⟩
  intro connection
  rw [horder.inTurn.sent, hpending]
  exact (List.append_nil _).symm

/-- Two connections: one sends an `incr` while the `set` of the other one is under way, and a `flush`
once it has the answer. -/
def setIncrFlush : List ConnectionEvent :=
  [.send 0 (.set [1] 0 [55]), .goOn 0 [], .send 1 (.incr [1] (.integer 1)), .goOn 1 []] ++
    List.replicate 17 (.goOn 0 []) ++ .send 1 .flush :: List.replicate 8 (.goOn 0 [])

theorem linearizable_setIncrFlush :
    let s := setIncrFlush.foldl (step .transparent ⟨false, .readWrite⟩) (new freshTrie)
    s.serving.underway = [] → s.Linearizable .transparent ⟨false, .readWrite⟩ fun _ => none :=
  linearizable represents_freshTrie setIncrFlush (by decide +kernel) (by decide +kernel)

/-- One connection has set an item and flushes; an `append` of the other one has looked at the item
before, and writes it after. -/
def overlappingFlush : List ConnectionEvent :=
  .send 0 (.set [1] 0 [55]) :: List.replicate 7 (.goOn 0 []) ++
    [.send 0 .flush, .send 1 (.append [1] [56])] ++ List.replicate 4 (.goOn 1 []) ++
      List.replicate 12 (.goOn 0 [])

/-- `flush` has no mutex, and what it clears can come back. -/
theorem not_linearizable :
    let s := overlappingFlush.foldl (step .transparent ⟨false, .readWrite⟩) (new freshTrie)
    NoCollision .transparent s.serving.trie.saved ∧ s.serving.underway = [] ∧
      ¬s.Linearizable .transparent ⟨false, .readWrite⟩ fun _ => none := by
  refine ⟨by decide +kernel, by decide +kernel, ?_⟩
  rintro ⟨order, hsent, hreceived, -, hrep⟩
  -- the flush comes after the set, and then nothing is left to append to
  have hall : ∀ order ∈ ([(0, .set [1] 0 [55], .ok (.response .stored)), (0, .flush,
      .ok (.response .ok)), (1, .append [1] [56], .ok (.response .stored))] :
        List (Nat × Call × Except Error Reply)).permutations',
      (ofConnection 0 order).map Prod.fst = [.set [1] 0 [55], .flush] →
        (Call.replies ⟨false, .readWrite⟩ (order.map fun entry => entry.2.1) fun _ => none).2
          (State.appKey [1]) = none := by decide +kernel
  have hevaluated :
      let s := overlappingFlush.foldl (step .transparent ⟨false, .readWrite⟩) (new freshTrie)
      s.received = [(0, .set [1] 0 [55], .ok (.response .stored)), (0, .flush,
        .ok (.response .ok)), (1, .append [1] [56], .ok (.response .stored))] ∧
      ofConnection 0 s.sent = [.set [1] 0 [55], .flush] ∧
      Fallible.outcome (MerklePatriciaTrie.get (State.appKey [1]) s.serving.trie) ≠ .ok none := by
    decide +kernel
  have hperm := perm_of_ofConnection hreceived
  rw [hevaluated.1] at hperm
  have hnone := hall order (List.mem_permutations'.mpr hperm) ((hsent 0).trans hevaluated.2.1)
  have hget := congrArg Fallible.outcome (hrep.get (State.appKey [1]))
  rw [hnone] at hget
  exact hevaluated.2.2 hget

end Connections

end EasyFramework
end UniqysKit
