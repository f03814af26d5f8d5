import UniqysKit.EasyFramework.Contents

/-!
# Items

What the commands of `memcached-implementation.ts` do with the item of a key, on the contents of the
trie: an item is read from its entry, and written with its token, if tokens are used.  Commands but `set`
and `flush` read the item first and then act on it.
-/

namespace UniqysKit
namespace EasyFramework

open Library

/-! ## Reading and writing -/

namespace Item

/-- The bytes before the data. -/
def headerLength (useCas : Bool) : Nat := if useCas then 12 else 4

variable {useCas : Bool} {item : Item} {value : Bytes}

/-- What an item is written as, part by part. -/
theorem serialize_eq_ok (h : item.serialize useCas = .ok value) :
    ∃ cas flags, (if useCas then UInt64.serialize item.casUniq else .ok []) = .ok cas ∧ 0 ≤ item.flags ∧
      UInt32.serialize item.flags.toNat = .ok flags ∧ value = cas ++ flags ++ item.data := by
  -- the flags and the data, behind what was written of the token
  have hparts : ∀ cas, (if item.flags < 0 then do
        let flags ← Except.error Error.outOfRange
        pure (cas ++ flags ++ item.data)
      else do
        let flags ← UInt32.serialize item.flags.toNat
        pure (cas ++ flags ++ item.data) : Result Bytes) = .ok value →
      0 ≤ item.flags ∧ ∃ flags, UInt32.serialize item.flags.toNat = .ok flags ∧
        value = cas ++ flags ++ item.data := by
    intro cas hcas
    split at hcas
    · cases hcas
    · rename_i hpos
      rcases Result.bind_eq_ok.mp hcas with ⟨flags, hflags, hvalue⟩
      exact ⟨not_lt.mp hpos, flags, hflags, (Except.ok.inj hvalue).symm⟩
  cases useCas with
  | false =>
      simp only [Item.serialize, Bool.false_eq_true, if_false] at h ⊢
      rcases hparts [] h with ⟨hpos, flags, hflags, hvalue⟩
      exact ⟨[], flags, rfl, hpos, hflags, hvalue⟩
  | true =>
      simp only [Item.serialize, if_true] at h ⊢
      rcases Result.bind_eq_ok.mp h with ⟨cas, hcas, hrest⟩
      rcases hparts cas hrest with ⟨hpos, flags, hflags, hvalue⟩
      exact ⟨cas, flags, hcas, hpos, hflags, hvalue⟩

theorem deserialize_eq (value : Bytes) : Item.deserialize useCas value =
    ((if useCas then UInt64.deserialize value else .ok (0, value)) >>= fun (casUniq, rest) =>
      UInt32.deserialize rest >>= fun (flags, rest) => .ok (⟨flags, casUniq, rest⟩ : Item)) := by
  cases useCas with
  | false => rfl
  | true => rfl

/-- What is written of an item is read again; without tokens, the token is zero. -/
theorem deserialize_of_serialize (h : item.serialize useCas = .ok value) :
    Item.deserialize useCas value =
        .ok ⟨item.flags, if useCas then item.casUniq else 0, item.data⟩ ∧
      value.length = headerLength useCas + item.data.length := by
  rcases serialize_eq_ok h with ⟨cas, flags, hcas, hpos, hflags, rfl⟩
  have hread := UInt32.deserialize_append hflags item.data
  have hint : ((item.flags.toNat : Nat) : Int) = item.flags := Int.toNat_of_nonneg hpos
  have hlength : flags.length = 4 := by
    rw [UInt32.serialize_of_lt (UInt32.lt_of_serialize hflags)] at hflags
    cases hflags
    simp
  -- the unique number comes first, where there is one
  cases useCas with
  | false =>
      cases hcas
      refine ⟨?_, ?_⟩
      · simp only [deserialize_eq, List.nil_append, Bool.false_eq_true, if_false, Result.ok_bind, hread,
          hint]
      · simp [headerLength, hlength]
  | true =>
      rcases UInt64.serialize_ok hcas with ⟨-, hbytes⟩
      refine ⟨?_, ?_⟩
      · simp only [deserialize_eq, List.append_assoc, if_true, UInt64.deserialize_append hcas,
          Result.ok_bind, hread, hint]
      · simp only [hbytes, List.length_append, hlength, BigEndian.length_toBytes, headerLength, if_true]
        rfl

/-- The numbers of an item that was read have room where they were. -/
structure InRange (item : Item) : Prop where
  flags_nonneg : 0 ≤ item.flags
  flags_lt : item.flags < 2 ^ 32
  casUniq_lt : item.casUniq < 2 ^ 48

theorem inRange_of_deserialize (h : Item.deserialize useCas value = .ok item) : item.InRange := by
  rw [deserialize_eq] at h
  rcases Result.bind_eq_ok.mp h with ⟨⟨casUniq, rest⟩, hcas, hrest⟩
  rcases Result.bind_eq_ok.mp hrest with ⟨⟨flags, rest'⟩, hflags, hitem⟩
  cases hitem
  have hflags_lt : flags < 2 ^ 32 := by
    simp only [UInt32.deserialize] at hflags
    split at hflags
    · rename_i hlength
      cases hflags
      have hlt := BigEndian.ofBytes_lt (consume 4 rest).1
      rw [hlength] at hlt
      exact hlt
    · cases hflags
  have hcas_lt : casUniq < 2 ^ 48 := by
    cases useCas with
    | false =>
        cases hcas
        decide
    | true => exact UInt64.lt_of_deserialize hcas
  refine ⟨Int.natCast_nonneg flags, ?_, hcas_lt⟩
  show (flags : Int) < 2 ^ 32
  omega

/-- An item in this range can be written, if its token can. -/
theorem exists_serialize (hpos : 0 ≤ item.flags) (hlt : item.flags < 2 ^ 32)
    (hcas : useCas = true → item.casUniq < 2 ^ 48) : ∃ value, item.serialize useCas = .ok value := by
  have hflags := UInt32.serialize_of_lt (n := item.flags.toNat) (by omega)
  unfold Item.serialize
  cases useCas with
  | false =>
      simp only [Bool.false_eq_true, if_false, Result.ok_bind, if_neg (not_lt.mpr hpos), hflags]
      exact ⟨_, rfl⟩
  | true =>
      simp only [if_true, UInt64.serialize_of_lt (hcas rfl), Result.ok_bind, if_neg (not_lt.mpr hpos),
        hflags]
      exact ⟨_, rfl⟩

end Item

/-! ## Commands -/

namespace EasyMemcached

variable (memcached : EasyMemcached)

/-- `getItem` on what the store returned. -/
def itemOf : Option Bytes → Result (Option Item)
  | some value => do return some (← Item.deserialize memcached.useCas value)
  | none => .ok none

/-- What `setItem` puts into the store. -/
def written (key : Bytes) (item : Item) : Result Content := do
  State.content (State.appKey key) (← item.serialize memcached.useCas)

variable {memcached} {key : Bytes} {contents : Contents} {item : Item}

theorem getItem_onContents (key : Bytes) (contents : Contents) :
    (memcached.getItemCode key).onContents contents =
      Action.fromResult (memcached.itemOf (contents (State.appKey key))) contents := by
  have hrun : (memcached.getItemCode key).onContents contents =
      Code.onContents (match contents (State.appKey key) with
        | some v => do return some (← .done (Item.deserialize memcached.useCas v))
        | none => return none) contents := rfl
  rw [hrun]
  cases contents (State.appKey key) with
  | none => rfl
  | some value =>
      simp only [itemOf, Code.onContents, Program.run_bind]
      cases Item.deserialize memcached.useCas value with
      | ok item => rfl
      | error e => rfl

theorem setItem_onContents (key : Bytes) (item : Item) (contents : Contents) :
    (memcached.setItemCode key item).onContents contents =
      match memcached.written key item with
      | .ok content => .ok () ((Operation.set content).update contents)
      | .error e => .error e contents := by
  simp only [setItemCode, Code.onContents, Program.run_bind, written]
  cases item.serialize memcached.useCas with
  | error e => rfl
  | ok value =>
      simp only [Program.run, pure_bind, Result.ok_bind]
      cases State.content (State.appKey key) value with
      | error e => rfl
      | ok content => rfl

/-- The entry of a key after an item was written there. -/
theorem itemOf_written {content : Content} (h : memcached.written key item = .ok content) :
    memcached.itemOf ((Operation.set content).update contents (State.appKey key)) =
      .ok (some ⟨item.flags, if memcached.useCas then item.casUniq else 0, item.data⟩) := by
  rcases Result.bind_eq_ok.mp h with ⟨value, hvalue, hcontent⟩
  rcases content_ok hcontent with ⟨hkey, hvalue'⟩
  simp only [Operation.update, hkey, hvalue', if_true, itemOf, (Item.deserialize_of_serialize hvalue).1,
    Result.ok_bind, Result.pure_eq]

/-- An item that was written has room for its token and its data. -/
theorem room_of_written {content : Content} (h : memcached.written key item = .ok content) :
    (memcached.useCas = true → item.casUniq < 2 ^ 48) ∧
      Item.headerLength memcached.useCas + item.data.length < 2 ^ 31 := by
  rcases Result.bind_eq_ok.mp h with ⟨value, hvalue, hcontent⟩
  refine ⟨?_, ?_⟩
  · intro huse
    rcases Item.serialize_eq_ok hvalue with ⟨cas, flags, hcas, -⟩
    rw [if_pos huse] at hcas
    exact (UInt64.serialize_ok hcas).1
  · rcases content_ok hcontent with ⟨-, hvalue'⟩
    rw [← (Item.deserialize_of_serialize hvalue).2, ← hvalue']
    exact content.value_lt

/-- What keeps an item that was read from being written with other data and its next token. -/
theorem written_error {e : Error} (hrange : item.InRange) (hkey : (State.appKey key).length < 2 ^ 31)
    {data : Bytes}
    (h : memcached.written key ⟨item.flags, item.casUniq + 1, data⟩ = .error e) :
    memcached.useCas = true ∧ item.casUniq = 2 ^ 48 - 1 ∨
      2 ^ 31 ≤ Item.headerLength memcached.useCas + data.length := by
  by_contra hrefused
  rw [not_or, not_and, not_le] at hrefused
  have hcas : memcached.useCas = true → item.casUniq + 1 < 2 ^ 48 := by
    intro huse
    have hne := hrefused.1 huse
    have hlt := hrange.casUniq_lt
    omega
  -- otherwise every number fits and the entry is not too long
  obtain ⟨value, hvalue⟩ := @Item.exists_serialize memcached.useCas
    ⟨item.flags, item.casUniq + 1, data⟩ hrange.flags_nonneg hrange.flags_lt hcas
  have hlength := (Item.deserialize_of_serialize hvalue).2
  have hsmall : (State.appKey key).length < 2 ^ 31 ∧ value.length < 2 ^ 31 := by
    rw [hlength]
    exact ⟨hkey, hrefused.2⟩
  have hok : memcached.written key ⟨item.flags, item.casUniq + 1, data⟩ =
      .ok ⟨State.appKey key, value, hsmall.1, hsmall.2⟩ := by
    rw [written, hvalue, Result.ok_bind, State.content, dif_pos hsmall]
  rw [hok] at h
  cases h

/-- In the read-only mode. -/
theorem getAndAct_readOnly (hmode : memcached.mode = .readOnly) (key : Bytes)
    (action : Option Item → Option Item × Reply) (contents : Contents) :
    (memcached.getAndActCode key action).onContents contents =
      .error ⟨"current mode is read only"⟩ contents := by
  simp only [getAndActCode, Code.onContents, Program.run_bind, checkWritableCode, if_pos hmode]
  rfl

/-- In the other mode the item is read and the action done. -/
theorem getAndAct_onContents (hmode : memcached.mode = .readWrite) (key : Bytes)
    (action : Option Item → Option Item × Reply) (contents : Contents) :
    (memcached.getAndActCode key action).onContents contents =
      match memcached.itemOf (contents (State.appKey key)) with
      | .error e => .error e contents
      | .ok found =>
          match (action found).1 with
          | none => .ok (action found).2 contents
          | some item =>
              match memcached.written key item with
              | .ok content => .ok (action found).2 ((Operation.set content).update contents)
              | .error e => .error e contents := by
  have hwritable : memcached.checkWritableCode = pure () := by
    rw [checkWritableCode, hmode]
    rfl
  simp only [getAndActCode, Code.onContents, Program.run_bind, hwritable, Program.run_pure, pure_bind]
  have hget := @getItem_onContents memcached key contents
  cases hitem : memcached.itemOf (contents (State.appKey key)) with
  | error e =>
      rw [hitem] at hget
      exact Fallible.bind_error hget
  | ok found =>
      rw [hitem] at hget
      rw [Fallible.bind_ok hget]
      simp only
      -- without an item the action writes nothing
      rcases action found with ⟨_ | item, reply⟩
      · rfl
      · -- the action has an item to write
        have hset := @setItem_onContents memcached key item contents
        simp only [Program.run_bind]
        cases hwritten : memcached.written key item with
        | error e =>
            rw [hwritten] at hset
            exact Fallible.bind_error hset
        | ok content =>
            rw [hwritten] at hset
            rw [Fallible.bind_ok hset]
            rfl

end EasyMemcached

/-! ## Items of a state -/

section Represents

variable {c : Crypto} {memcached : EasyMemcached} {state : State} {contents : Contents} {key : Bytes}
  {item : Item}

/-- What the call is answered. -/
def Call.answer (c : Crypto) (memcached : EasyMemcached) (call : Call) (state : State) : Result Reply :=
  Fallible.outcome ((call.code memcached).onTrie c state.top)

theorem Represents.answer_eq (h : Represents c state.top contents) (call : Call)
    (hc : NoCollision c (call.serve c memcached state).saved) :
    call.answer c memcached state = Fallible.outcome ((call.code memcached).onContents contents) := by
  unfold State.saved at hc
  rw [Call.top_serve] at hc
  exact ((call.code memcached).simulates_onContents.same state.top contents h hc).1

/-- `gets`, for one key. -/
theorem Represents.getItem_eq (h : Represents c state.top contents) (key : Bytes) :
    Fallible.outcome (memcached.getItem key state) =
      memcached.itemOf (contents (State.appKey key)) := by
  have hget : State.appGet key state = .ok (contents (State.appKey key)) state := by
    simp only [State.appGet, State.onTop, h.get]
  unfold EasyMemcached.getItem
  rw [Fallible.bind_ok hget]
  cases contents (State.appKey key) with
  | none => rfl
  | some value =>
      simp only [EasyMemcached.itemOf]
      cases Item.deserialize memcached.useCas value with
      | ok item => rfl
      | error e => rfl

/-- A key with an entry is a buffer. -/
theorem Represents.key_lt {trie : MerklePatriciaTrie} {value : Bytes} (h : Represents c trie contents)
    (hvalue : contents key = some value) : key.length < 2 ^ 31 := by
  rcases h with ⟨t, ht, hcontents⟩
  rcases Option.map_eq_some_iff.mp ((hcontents key).trans hvalue) with ⟨content, hlookup, -⟩
  have hkey : content.key = key := Key.bufferToKey_injective (ht.located _ content hlookup)
  exact hkey ▸ content.key_lt

theorem EasyMemcached.itemOf_eq_some {entry : Option Bytes}
    (h : memcached.itemOf entry = .ok (some item)) :
    ∃ value, entry = some value ∧ Item.deserialize memcached.useCas value = .ok item := by
  cases entry with
  | none => cases h
  | some value =>
      rcases Result.bind_eq_ok.mp h with ⟨item', hitem, hsome⟩
      cases hsome
      exact ⟨value, rfl, hitem⟩

end Represents

end EasyFramework
end UniqysKit
