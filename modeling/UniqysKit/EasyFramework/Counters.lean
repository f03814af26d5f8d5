import UniqysKit.EasyFramework.Items

/-!
# Counters

`incr` and `decr` of `memcached-implementation.ts`.  A counter is an item whose data are the text of an
integer from zero to the greatest integer that is safe.  The code reads it with `parseInt`, does not look
at what it has read, and bounds the result from above when it adds and from below when it subtracts.  An
amount may be negative, so `counts_iff` has a condition for each of the two.
-/

namespace UniqysKit
namespace EasyFramework

open Library

open EasyMemcached (maxSafeInteger)

/-- The nearest integer that a counter can have; none is near `NaN`. -/
def saturated : Number → Option Int
  | .nan => none
  | .infinity isNegative => some (if isNegative then 0 else maxSafeInteger)
  | .integer n => some (max 0 (min n maxSafeInteger))

/-- The call reports an error and the item stays, or the item becomes the text of its old value after the
change, which is also returned. `reading` says which data are an integer, and which one. -/
def Counts (c : Crypto) (memcached : EasyMemcached) (reading : Bytes → Option Int) (key : Bytes) (item : Item)
    (change : Number → Number) (call : Call) (state : State) : Prop :=
  match call.answer c memcached state with
  | .error _ =>
      Fallible.outcome (memcached.getItem key (call.serve c memcached state)) = .ok (some item)
  | .ok reply =>
      ∃ count n, reading item.data = some count ∧ saturated (change (.integer count)) = some n ∧
        reply = .number (.integer n) ∧
          ∃ changed, Fallible.outcome (memcached.getItem key (call.serve c memcached state)) =
              .ok (some changed) ∧
            changed.data = numberToText (.integer n)

/-- There is no token after this one, or nothing is written at all. -/
def Unwritable (memcached : EasyMemcached) (item : Item) : Prop :=
  memcached.mode = .readOnly ∨ memcached.useCas = true ∧ item.casUniq = 2 ^ 48 - 1

/-! ## Saturation -/

section Saturation

variable {a : Number} {n : Int}

theorem saturated_range (h : saturated a = some n) : 0 ≤ n ∧ n ≤ maxSafeInteger := by
  cases a with
  | nan => cases h
  | infinity isNegative =>
      cases h
      cases isNegative <;> decide
  | integer m =>
      cases h
      unfold maxSafeInteger
      omega

theorem exists_saturated (h : a ≠ .nan) : ∃ n, saturated a = some n := by
  cases a with
  | nan => exact absurd rfl h
  | infinity isNegative => exact ⟨_, rfl⟩
  | integer m => exact ⟨_, rfl⟩

/-- The bound from above is enough for what is not negative, and for nothing else. -/
theorem rounded_min_eq (hpos : 0 ≤ n) :
    a.rounded.min (.integer maxSafeInteger) = .integer n ↔
      a.less (.integer 0) = false ∧ saturated a = some n := by
  cases a with
  | nan => exact iff_of_false nofun nofun
  | infinity isNegative =>
      cases isNegative with
      | false => simp [Number.rounded, Number.min, Number.less, saturated]
      | true => simp [Number.rounded, Number.min, Number.less]
  | integer m =>
      have hmin : (Number.nearest m).min (.integer maxSafeInteger) =
          if maxSafeInteger < m then .integer maxSafeInteger else .nearest m := by
        simp [Number.min, Number.nearest_ne_nan, Number.less_nearest (m := maxSafeInteger) (by decide)]
      simp only [Number.rounded, hmin, Number.less, saturated, decide_eq_false_iff_not, not_lt,
        Option.some.injEq]
      split
      · -- too great a sum
        rw [Number.integer.injEq]
        unfold maxSafeInteger at *
        omega
      · rcases lt_or_ge m 0 with hneg | hnonneg
        · refine iff_of_false ?_ ?_
          · intro h
            have hless := Number.nearest_less (n := m) (m := 0) (by decide)
            rw [h, Number.less, decide_eq_decide] at hless
            omega
          · omega
        · have hsmall : m.natAbs < 2 ^ 53 := by
            unfold maxSafeInteger at *
            omega
          rw [Number.nearest_of_lt hsmall, Number.integer.injEq]
          omega

/-- The bound from below is enough for what is not too great. -/
theorem rounded_max_eq (hle : n ≤ maxSafeInteger) :
    a.rounded.max (.integer 0) = .integer n ↔
      (Number.integer maxSafeInteger).less a = false ∧ saturated a = some n := by
  cases a with
  | nan => exact iff_of_false nofun nofun
  | infinity isNegative =>
      cases isNegative with
      | false => simp [Number.rounded, Number.max, Number.less]
      | true => simp [Number.rounded, Number.max, Number.less, saturated]
  | integer m =>
      have hmax : (Number.nearest m).max (.integer 0) =
          if m < 0 then .integer 0 else .nearest m := by
        simp [Number.max, Number.nearest_ne_nan, Number.nearest_less (m := 0) (by decide)]
      simp only [Number.rounded, hmax, Number.less, saturated, decide_eq_false_iff_not, not_lt,
        Option.some.injEq]
      split
      · rw [Number.integer.injEq]
        unfold maxSafeInteger at *
        omega
      · rcases lt_or_ge maxSafeInteger m with hgreat | hsmall
        · refine iff_of_false ?_ ?_
          · intro h
            have hless := Number.less_nearest (n := m) (m := maxSafeInteger) (by decide)
            rw [h, Number.less, decide_eq_decide] at hless
            omega
          · omega
        · have hdigits : m.natAbs < 2 ^ 53 := by
            unfold maxSafeInteger at *
            omega
          rw [Number.nearest_of_lt hdigits, Number.integer.injEq]
          omega

end Saturation

/-! ## Both commands -/

section Both

variable {c : Crypto} {memcached : EasyMemcached} {state : State} {contents : Contents} {key : Bytes}
  {item : Item} {reading : Bytes → Option Int} {change bounded : Number → Number} {call : Call}

/-- What `incr` and `decr` have in common. -/
def countCode (memcached : EasyMemcached) (key : Bytes) (bounded : Number → Number) : Code Reply :=
  memcached.getAndActCode key fun
    | some item =>
        let newCount := bounded (parseInt item.data)
        (some ⟨item.flags, item.casUniq + 1, numberToText newCount⟩, .number newCount)
    | none => (none, .response .notFound)

/-- The command on an item that can be written. -/
theorem countCode_onContents (hmode : memcached.mode = .readWrite)
    (hitem : memcached.itemOf (contents (State.appKey key)) = .ok (some item)) :
    (countCode memcached key bounded).onContents contents =
      match memcached.written key
          ⟨item.flags, item.casUniq + 1, numberToText (bounded (parseInt item.data))⟩ with
      | .ok content =>
          .ok (.number (bounded (parseInt item.data))) ((Operation.set content).update contents)
      | .error e => .error e contents := by
  have hact := fun action => EasyMemcached.getAndAct_onContents hmode key action contents
  cases hwritten : memcached.written key
      ⟨item.flags, item.casUniq + 1, numberToText (bounded (parseInt item.data))⟩ with
  | ok content => simp only [countCode, hact, hitem, hwritten]
  | error e => simp only [countCode, hact, hitem, hwritten]

/-- The answer and the item after a call. -/
theorem counts_iff_onContents (hrep : Represents c state.top contents)
    (hc : NoCollision c (call.serve c memcached state).saved) :
    Counts c memcached reading key item change call state ↔
      match (call.code memcached).onContents contents with
      | .error _ after => memcached.itemOf (after (State.appKey key)) = .ok (some item)
      | .ok reply after =>
          ∃ count n, reading item.data = some count ∧ saturated (change (.integer count)) = some n ∧
            reply = .number (.integer n) ∧
              ∃ changed, memcached.itemOf (after (State.appKey key)) = .ok (some changed) ∧
                changed.data = numberToText (.integer n) := by
  have hafter := represents_serve hrep memcached call hc
  unfold Counts
  rw [hrep.answer_eq call hc, hafter.getItem_eq]
  cases (call.code memcached).onContents contents with
  | ok reply after => exact Iff.rfl
  | error e after => exact Iff.rfl

/-- What was written has a token. -/
theorem not_unwritable {content : Content} {data : Bytes}
    (h : memcached.written key ⟨item.flags, item.casUniq + 1, data⟩ = .ok content)
    (hmode : memcached.mode = .readWrite) : ¬ Unwritable memcached item := by
  rcases EasyMemcached.room_of_written h with ⟨hcas, -⟩
  rintro (hread | ⟨huse, hlast⟩)
  · rw [hread] at hmode
    cases hmode
  · have hlt := hcas huse
    simp only at hlt
    omega

/-- The text of a number is never too long, so only the token can be missing. -/
theorem unwritable_of_error {e : Error} {n : Number} (hrange : item.InRange)
    (hkey : (State.appKey key).length < 2 ^ 31) (hn : n.Bounded)
    (h : memcached.written key ⟨item.flags, item.casUniq + 1, numberToText n⟩ = .error e) :
    Unwritable memcached item := by
  rcases EasyMemcached.written_error hrange hkey h with hcas | hlong
  · exact .inr hcas
  · have hheader : Item.headerLength memcached.useCas ≤ 12 := by
      unfold Item.headerLength
      split <;> omega
    have htext := Number.length_toText hn
    rw [numberToText, List.length_map] at hlong
    omega

/-- A command that counts right for the numbers with some property. -/
theorem counts_iff_bounded {P : Int → Prop} (hrep : Represents c state.top contents)
    (hc : NoCollision c (call.serve c memcached state).saved)
    (hitem : memcached.itemOf (contents (State.appKey key)) = .ok (some item))
    (hreading : ∀ data n, reading data = some n → parseInt data = .nearest n)
    (hcode : call.code memcached = countCode memcached key bounded) (hsize : ∀ n, (bounded n).Bounded)
    (hchange : ∀ count, change (.integer count) ≠ .nan)
    (hbounded : ∀ count n, 0 ≤ n → n ≤ maxSafeInteger → (bounded (.nearest count) = .integer n ↔
      P count ∧ saturated (change (.nearest count)) = some n)) :
    Counts c memcached reading key item change call state ↔
      Unwritable memcached item ∨ ∃ count, reading item.data = some count ∧ P count ∧
        saturated (change (.nearest count)) = saturated (change (.integer count)) := by
  rw [counts_iff_onContents hrep hc, hcode]
  rcases EasyMemcached.itemOf_eq_some hitem with ⟨value, hentry, hvalue⟩
  by_cases hmode : memcached.mode = .readOnly
  · rw [countCode, EasyMemcached.getAndAct_readOnly hmode]
    exact iff_of_true hitem (.inl (.inl hmode))
  · have hmode' : memcached.mode = .readWrite := by
      cases hm : memcached.mode with
      | readWrite => rfl
      | readOnly => exact absurd hm hmode
    rw [countCode_onContents hmode' hitem]
    cases hwritten : memcached.written key
        ⟨item.flags, item.casUniq + 1, numberToText (bounded (parseInt item.data))⟩ with
    | error e =>
        -- a refused call leaves the item, which is one way to be right
        exact iff_of_true hitem (.inl (unwritable_of_error (Item.inRange_of_deserialize hvalue)
          (hrep.key_lt hentry) (hsize _) hwritten))
    | ok content =>
        -- the item was written, so it has to be the number that counts
        have hafter := @EasyMemcached.itemOf_written memcached key contents _ content hwritten
        constructor
        · rintro ⟨count, n, hcount, hn, hreply, -⟩
          rcases saturated_range hn with ⟨hpos, hle⟩
          rw [hreading _ _ hcount] at hreply
          rcases (hbounded count n hpos hle).mp (Reply.number.inj hreply) with ⟨hP, hsame⟩
          exact .inr ⟨count, hcount, hP, hsame.trans hn.symm⟩
        · rintro (hunwritable | ⟨count, hcount, hP, hsame⟩)
          · exact absurd hunwritable (not_unwritable hwritten hmode')
          · obtain ⟨n, hn⟩ := exists_saturated (hchange count)
            rcases saturated_range hn with ⟨hpos, hle⟩
            have hnew : bounded (parseInt item.data) = .integer n := by
              rw [hreading _ _ hcount]
              exact (hbounded count n hpos hle).mpr ⟨hP, hsame.trans hn⟩
            rw [hnew] at hafter ⊢
            exact ⟨count, n, hcount, hn, rfl, _, hafter, rfl⟩

end Both

/-- What the protocol takes for a number is one. -/
theorem ne_nan_of_number {raw : Option Memcached.Text} {value : Number}
    (h : Memcached.Checker.number raw = .ok value) : value ≠ .nan := by
  cases raw with
  | none => cases h
  | some text =>
      rintro rfl
      simp only [Memcached.Checker.number, Memcached.Checker.def, bind, Except.bind] at h
      split at h
      · cases h
      · rename_i hne
        exact hne (Except.ok.inj h)

/-- A counter is right after `incr` if and only if the sum is not negative, and after `decr` if and only if
the difference is safe; if the data are an integer that `parseInt` does not round to one with another
result, or the item cannot be written. -/
theorem counts_iff (c : Crypto) (memcached : EasyMemcached) (state : State) (hsound : state.Sound c)
    (key : Bytes) (item : Item) (hitem : Fallible.outcome (memcached.getItem key state) = .ok (some item))
    (reading : Bytes → Option Int)
    (hreading : ∀ data n, reading data = some n → parseInt data = .nearest n)
    (raw : Option Memcached.Text) (value : Number) (hvalue : Memcached.Checker.number raw = .ok value)
    (hincr : NoCollision c ((Call.incr key value).serve c memcached state).saved)
    (hdecr : NoCollision c ((Call.decr key value).serve c memcached state).saved) :
    (Counts c memcached reading key item (·.exactSum value) (.incr key value) state ↔
      Unwritable memcached item ∨ ∃ count, reading item.data = some count ∧
        ((Number.nearest count).exactSum value).less (.integer 0) = false ∧
          saturated ((Number.nearest count).exactSum value) =
            saturated ((Number.integer count).exactSum value)) ∧
    (Counts c memcached reading key item (·.exactDifference value) (.decr key value) state ↔
      Unwritable memcached item ∨ ∃ count, reading item.data = some count ∧
        (Number.integer maxSafeInteger).less ((Number.nearest count).exactDifference value) = false ∧
          saturated ((Number.nearest count).exactDifference value) =
            saturated ((Number.integer count).exactDifference value)) := by
  rcases hsound.represents with ⟨contents, hrep⟩
  rw [hrep.getItem_eq] at hitem
  have hsafe : (Number.integer maxSafeInteger).Bounded := by
    rintro n ⟨⟩
    exact lt_trans (by decide : maxSafeInteger.natAbs < 2 ^ 53) (by decide +kernel)
  have hzero : (Number.integer 0).Bounded := by
    rintro n ⟨⟩
    decide +kernel
  have hnan := ne_nan_of_number hvalue
  refine ⟨?_, ?_⟩
  · -- `incr` has no lower bound
    refine counts_iff_bounded hrep hincr hitem hreading rfl
      (fun n => (Number.bounded_add n value).min hsafe) (fun count => Number.exactSum_ne_nan hnan) ?_
    intro count n hpos _
    rw [Number.add_eq_rounded]
    exact rounded_min_eq hpos
  · -- and `decr` no upper one
    refine counts_iff_bounded hrep hdecr hitem hreading rfl
      (fun n => (Number.bounded_add n value.neg).max hzero)
      (fun count => Number.exactSum_ne_nan (Number.neg_ne_nan hnan)) ?_
    intro count n _ hle
    rw [Number.add_eq_rounded]
    exact rounded_max_eq hle

/-! ### A number and a word -/

def writableMemcached : EasyMemcached := ⟨false, .readWrite⟩

/-- A fresh state where one key was set. -/
def withEntry (data : Bytes) : State :=
  (Call.set [107] 0 data).serve .transparent writableMemcached Controller.freshState

theorem withEntry_sound {data : Bytes} (hc : NoCollision .transparent (withEntry data).saved) :
    (withEntry data).Sound .transparent :=
  (Call.stable_run writableMemcached (.set [107] 0 data)).sound Controller.freshState
    (ready_sound _ _) hc

/-- The counter is written back in decimal digits. -/
example : Fallible.outcome (writableMemcached.getItem [107]
    ((Call.incr [107] (.integer 4)).serve .transparent writableMemcached (withEntry [53]))) =
      .ok (some ⟨0, 0, [57]⟩) := by
  decide +kernel

/-- The integer that `parseInt` reads. -/
def integerOf (data : Bytes) : Option Int :=
  match parseInt data with
  | .integer n => if n.natAbs < 2 ^ 53 then some n else none
  | _ => none

theorem parseInt_of_integerOf (data : Bytes) (n : Int) (h : integerOf data = some n) :
    parseInt data = .nearest n := by
  unfold integerOf at h
  split at h
  · rename_i m hm
    split at h
    · rename_i hlt
      cases h
      rw [hm, Number.nearest_of_lt hlt]
    · cases h
  · cases h

/-- A counter that is five. -/
theorem counts_iff_five :
    (Counts .transparent writableMemcached integerOf [107] ⟨0, 0, [53]⟩ (·.exactSum (.integer 4))
        (.incr [107] (.integer 4)) (withEntry [53]) ↔
      Unwritable writableMemcached ⟨0, 0, [53]⟩ ∨ ∃ count, integerOf [53] = some count ∧
        ((Number.nearest count).exactSum (.integer 4)).less (.integer 0) = false ∧
          saturated ((Number.nearest count).exactSum (.integer 4)) =
            saturated ((Number.integer count).exactSum (.integer 4))) ∧
    (Counts .transparent writableMemcached integerOf [107] ⟨0, 0, [53]⟩
        (·.exactDifference (.integer 4)) (.decr [107] (.integer 4)) (withEntry [53]) ↔
      Unwritable writableMemcached ⟨0, 0, [53]⟩ ∨ ∃ count, integerOf [53] = some count ∧
        (Number.integer maxSafeInteger).less ((Number.nearest count).exactDifference (.integer 4)) =
            false ∧
          saturated ((Number.nearest count).exactDifference (.integer 4)) =
            saturated ((Number.integer count).exactDifference (.integer 4))) :=
  counts_iff .transparent writableMemcached (withEntry [53]) (withEntry_sound (by decide +kernel)) [107]
    ⟨0, 0, [53]⟩ (by decide +kernel) integerOf parseInt_of_integerOf (some ['4']) (.integer 4)
    (by decide +kernel) (by decide +kernel) (by decide +kernel)

/-- Of a word `incr` makes `NaN`. -/
theorem not_counts :
    ¬ ∀ (c : Crypto) (memcached : EasyMemcached) (state : State) (_ : state.Sound c) (key : Bytes)
      (item : Item) (_ : Fallible.outcome (memcached.getItem key state) = .ok (some item))
      (reading : Bytes → Option Int)
      (_ : ∀ data n, reading data = some n → parseInt data = .nearest n)
      (raw : Option Memcached.Text) (value : Number) (_ : Memcached.Checker.number raw = .ok value)
      (_ : NoCollision c ((Call.incr key value).serve c memcached state).saved)
      (_ : NoCollision c ((Call.decr key value).serve c memcached state).saved),
      Counts c memcached reading key item (·.exactSum value) (.incr key value) state ∧
        Counts c memcached reading key item (·.exactDifference value) (.decr key value) state := by
  intro h
  have hsound : (withEntry [97, 98, 99]).Sound .transparent := withEntry_sound (by decide +kernel)
  have hincr : NoCollision .transparent ((Call.incr [107] (.integer 1)).serve .transparent
      writableMemcached (withEntry [97, 98, 99])).saved := by
    decide +kernel
  obtain ⟨hcounts, -⟩ := h .transparent writableMemcached _ hsound [107] ⟨0, 0, [97, 98, 99]⟩
    (by decide +kernel) integerOf parseInt_of_integerOf (some ['1']) (.integer 1) (by decide +kernel)
    hincr (by decide +kernel)
  have hanswer : (Call.incr [107] (.integer 1)).answer .transparent writableMemcached
      (withEntry [97, 98, 99]) = .ok (.number .nan) := by
    decide +kernel
  unfold Counts at hcounts
  rw [hanswer] at hcounts
  rcases hcounts with ⟨count, n, -, -, hreply, -⟩
  cases hreply

end EasyFramework
end UniqysKit
