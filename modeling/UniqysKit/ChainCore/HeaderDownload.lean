import UniqysKit.ChainCore.Synchronizer
import UniqysKit.Library.Loops

/-!
# The loop of `catchUpHeaders`

A turn asks a remote node for headers below `last` and takes them one by one.  Every header takes
`last` down by one, so the loop comes to its end as long as each turn gets one; an empty list is taken
as well, and leaves the loop where it is (`headersEnd_iff`).  A node that runs `Responder.getHeaders`
on a chain that reaches so far does not send one.

A turn is taken in one piece here.  `follow_turn` says that this is what the steps of `CatchUp.next`
come to.
-/

namespace UniqysKit
namespace ChainCore

open Library

/-- What a turn meets: the height of the chain as it reads it, what the remote node sends, unless the
request fails, and the first write of a header to fail, if there is one. -/
structure HeaderTurn where
  height : Nat
  reply : Option (List BlockHeader)
  failedWrite : Option Nat

/-- How a turn ends. -/
inductive TurnEnd
  | leaves
  | throws
  | goesOn (last : BlockHeader)

section Turn

variable (c : Crypto)

/-- The `for` loop over the headers, backward. `none` where it throws. -/
def takeHeaders (failedWrite : Option Nat) (last : BlockHeader) :
    List BlockHeader → Option BlockHeader
  | [] => some last
  | header :: rest =>
      if header.height + 1 ≠ last.height ∨ header.hash c ≠ last.lastBlockHash then none
      -- the header is written before it becomes `last`
      else if failedWrite = some 0 then none
      else takeHeaders (failedWrite.map Nat.pred) header rest

/-- A turn of the `while` loop. -/
def HeaderTurn.run (turn : HeaderTurn) (last : BlockHeader) : TurnEnd :=
  if last.height ≤ turn.height + 1 then .leaves
  else
    match turn.reply.bind fun headers => takeHeaders c turn.failedWrite last headers.reverse with
    | some last => .goesOn last
    | none => .throws

/-- The `while` loop goes on with another `last`, or ends. -/
def headerLoop (last : BlockHeader) (turn : HeaderTurn) : Option BlockHeader :=
  match turn.run c last with
  | .goesOn last => some last
  | _ => none

/-- `last` at the start of a turn. -/
def lastAt (turns : Nat → HeaderTurn) (target : BlockHeader) : Nat → Option BlockHeader :=
  stateAt (headerLoop c) turns target

/-- Each turn that goes on takes the height of `last` down, and the loop ends. -/
structure HeadersEnd (turns : Nat → HeaderTurn) (target : BlockHeader) : Prop where
  decreases : ∀ n last last', lastAt c turns target n = some last →
    (turns n).run c last = .goesOn last' → last'.height < last.height
  ends : ∃ n, lastAt c turns target n = none

/-- The remote node is asked, and sends an empty list. -/
def HeaderTurn.Empty (turn : HeaderTurn) (last : BlockHeader) : Prop :=
  turn.height + 1 < last.height ∧ turn.reply = some []

end Turn

section Progress

variable {c : Crypto} {failedWrite : Option Nat} {last last' : BlockHeader} {turn : HeaderTurn}

/-- Every header that was taken has taken the height down by one. -/
theorem height_of_takeHeaders {headers : List BlockHeader}
    (h : takeHeaders c failedWrite last headers = some last') :
    last'.height + headers.length = last.height := by
  induction headers generalizing failedWrite last with
  | nil =>
      cases h
      rfl
  | cons header rest ih =>
      rw [takeHeaders] at h
      split at h
      · cases h
      · rename_i hfits
        split at h
        · cases h
        · -- the header was compared with `last`, so it is the one right below
          have hheight : header.height + 1 = last.height := not_not.mp (not_or.mp hfits).1
          have hrest := ih h
          rw [List.length_cons]
          omega

theorem HeaderTurn.goesOn_iff : turn.run c last = .goesOn last' ↔ turn.height + 1 < last.height ∧
    ∃ headers, turn.reply = some headers ∧
      takeHeaders c turn.failedWrite last headers.reverse = some last' := by
  rw [HeaderTurn.run]
  split
  · rename_i hle
    exact iff_of_false nofun fun h => absurd h.1 (Nat.not_lt.mpr hle)
  · rename_i hgt
    rw [and_iff_right (Nat.not_le.mp hgt), ← Option.bind_eq_some_iff]
    cases turn.reply.bind fun headers =>
      takeHeaders c turn.failedWrite last headers.reverse with
    | none => exact iff_of_false nofun nofun
    | some result =>
        constructor
        · intro h
          cases h
          rfl
        · intro h
          cases h
          rfl

theorem headerLoop_eq_some : headerLoop c last turn = some last' ↔ turn.run c last = .goesOn last' := by
  rw [headerLoop]
  cases turn.run c last with
  | leaves => exact iff_of_false nofun nofun
  | throws => exact iff_of_false nofun nofun
  | goesOn result => simp

/-- A turn that gets a header goes down. -/
theorem HeaderTurn.decreases (hgoes : turn.run c last = .goesOn last')
    (hempty : ¬ turn.Empty last) : last'.height < last.height := by
  rcases HeaderTurn.goesOn_iff.mp hgoes with ⟨hasks, headers, hreply, htakes⟩
  have hheight := height_of_takeHeaders htakes
  have hpos : 0 < headers.length := by
    refine List.length_pos_iff.mpr ?_
    rintro rfl
    exact hempty ⟨hasks, hreply⟩
  rw [List.length_reverse] at hheight
  omega

/-- After an empty list the next turn starts where this one did. -/
theorem HeaderTurn.Empty.stays (h : turn.Empty last) : turn.run c last = .goesOn last :=
  HeaderTurn.goesOn_iff.mpr ⟨h.1, [], h.2, rfl⟩

end Progress

/-- The download of headers goes down and ends exactly if no turn that asks gets an empty list. -/
theorem headersEnd_iff (c : Crypto) (turns : Nat → HeaderTurn) (target : BlockHeader) :
    HeadersEnd c turns target ↔
      ∀ n last, lastAt c turns target n = some last → ¬ (turns n).Empty last := by
  constructor
  · -- an empty list would have to take the height down, and leaves it
    intro h n last hlast hempty
    exact absurd (h.decreases n last last hlast hempty.stays) (lt_irrefl _)
  · intro hempty
    have hdown : ∀ n last last', lastAt c turns target n = some last →
        (turns n).run c last = .goesOn last' → last'.height < last.height := by
      intro n last last' hlast hgoes
      exact HeaderTurn.decreases hgoes (hempty n last hlast)
    -- the measure is the height of `last`, whatever the height of the chain does meanwhile
    refine ⟨hdown, exists_end BlockHeader.height ?_⟩
    intro n last last' hlast hloop
    exact hdown n last last' hlast (headerLoop_eq_some.mp hloop)

/-- A remote node that answers each request with nothing. -/
def silent : Nat → HeaderTurn := fun _ => ⟨1, some [], none⟩

def farHeader : BlockHeader :=
  { sampleGenesis.header with height := 7, height_lt := BlockHeader.seven_lt }

/-- The loop asks such a node again and again. -/
theorem not_headersEnd :
    ¬ ∀ (c : Crypto) (turns : Nat → HeaderTurn) (target : BlockHeader),
      HeadersEnd c turns target := by
  intro h
  rcases (h .transparent silent farHeader).ends with ⟨n, hend⟩
  have hfixed : ∀ n, headerLoop .transparent farHeader (silent n) = some farHeader := fun _ => rfl
  rw [lastAt, stateAt_of_fixed hfixed] at hend
  cases hend

/-! ## The answers of `Responder.getHeaders` -/

/-- `Responder.getHeaders`: the headers from a height on, as far as the chain reaches. -/
def Responder.getHeaders (store : BlockStore) (first count : Nat) : Result (List BlockHeader) :=
  (List.range' first (min (store.getHeight + 1) (first + count) - first)).mapM store.getHeader

theorem Responder.length_getHeaders {store : BlockStore} {first count : Nat}
    {headers : List BlockHeader} (h : getHeaders store first count = .ok headers) :
    headers.length = min (store.getHeight + 1) (first + count) - first := by
  rw [Result.length_of_mapM h, List.length_range']

/-- A node that has the header below `last` does not answer the request of a turn with an empty
list. -/
theorem Responder.not_empty {options : SynchronizerOptions} {store : BlockStore}
    {last : BlockHeader} {turn : HeaderTurn} {headers : List BlockHeader}
    (hmax : 1 ≤ options.maxFetchHeaders) (hheight : last.height ≤ store.getHeight + 1)
    (hreply : turn.reply = some headers)
    (hheaders : getHeaders store (max (last.height - options.maxFetchHeaders) (turn.height + 1))
      (last.height - max (last.height - options.maxFetchHeaders) (turn.height + 1)) = .ok headers) :
    ¬ turn.Empty last := by
  rintro ⟨hasks, hempty⟩
  have hlength := length_getHeaders hheaders
  cases hreply.symm.trans hempty
  rw [List.length_nil] at hlength
  omega

/-! ## A turn, step by step -/

section Follow

variable (c : Crypto) (blockchain : Blockchain) (options : SynchronizerOptions)

/-- `catchUpAsync` goes on with some replies, each with the store as it is then. -/
def CatchUp.follow (place : Option CatchUp) (events : List (BlockStore × Reply)) : Option CatchUp :=
  events.foldl (fun place event => place.bind fun place =>
    match place.next c blockchain options event.1 event.2 with
    | some (_, next) => next
    | none => some place) place

variable {c blockchain options} {consented : ConsentedHeader} {last : BlockHeader}

theorem CatchUp.follow_none (events : List (BlockStore × Reply)) :
    follow c blockchain options none events = none := by
  rw [follow]
  induction events with
  | nil => rfl
  | cons event events ih => rw [List.foldl_cons, Option.bind_none, ih]

theorem CatchUp.follow_cons {place : CatchUp} {event : BlockStore × Reply}
    {events : List (BlockStore × Reply)} {write : Option Write} {next : Option CatchUp}
    (h : place.next c blockchain options event.1 event.2 = some (write, next)) :
    follow c blockchain options (some place) (event :: events) =
      follow c blockchain options next events := by
  rw [follow, List.foldl_cons, Option.bind_some, h]
  rfl

/-- The steps of the `for` loop. -/
theorem CatchUp.follow_headers (store : BlockStore) (headers : List BlockHeader) :
    follow c blockchain options (nextHeader c consented last headers)
        (List.replicate headers.length (store, .done)) =
      (takeHeaders c none last headers).map (.readUnknown consented) := by
  induction headers generalizing last with
  | nil => rfl
  | cons header rest ih =>
      rw [nextHeader, takeHeaders]
      split
      · rw [follow_none]
        rfl
      · rw [List.length_cons, List.replicate_succ, follow_cons rfl, ih]
        rfl

/-- The steps of a turn that asks and gets a reply, where no write fails. -/
theorem CatchUp.follow_turn {turn : HeaderTurn} {headers : List BlockHeader}
    {store store' store'' : BlockStore} (hheight : store.getHeight = turn.height)
    (hasks : turn.height + 1 < last.height) (hreply : turn.reply = some headers)
    (hwrite : turn.failedWrite = none) :
    follow c blockchain options (some (.readUnknown consented last))
        ((store, .done) :: (store', .headers headers) ::
          List.replicate headers.length (store'', .done)) =
      (headerLoop c last turn).map (.readUnknown consented) := by
  have hread : (readUnknown consented last).next c blockchain options store .done =
      some (none, some (.fetchHeaders consented last
        (max (last.height - options.maxFetchHeaders) (turn.height + 1))
        (last.height - max (last.height - options.maxFetchHeaders) (turn.height + 1)))) := by
    rw [CatchUp.next, hheight, if_neg (Nat.not_le.mpr hasks)]
  rw [follow_cons hread, follow_cons rfl, ← List.length_reverse, follow_headers, headerLoop,
    HeaderTurn.run, if_neg (Nat.not_le.mpr hasks), hreply, hwrite, Option.bind_some]
  cases takeHeaders c none last headers.reverse with
  | none => rfl
  | some last' => rfl

end Follow

end ChainCore
end UniqysKit
