import UniqysKit.Blockchain.Codec
import UniqysKit.EasyFramework.Calls
import UniqysKit.Library.LastEntry

/-!
# The total power and the powers of the addresses

The constructor of `ValidatorSet` adds up the powers in one pass and fills the table behind `exists`
and `powerOf` in another.  The total counts every entry, rounds each sum to a double, and takes a power
that is no number for a text or makes `NaN` of it; the table keeps the last entry of an address, and
`powerOf` takes a power of zero for a missing entry where `exists` does not.

`totalsMatch_iff` says when the two fit together, for a set that was read and for the one that
`PUT /validators` builds from what the client sent.
-/

namespace UniqysKit

open Library

/-- The total is the sum of the powers of the distinct addresses, where an address on which `powerOf`
throws adds nothing, and an address exists exactly if `powerOf` does not throw. -/
def TotalsMatch {M : Type} [AddCommMonoid M] (addresses : List Address) (totalPower : M)
    (existsAddress : Address → Bool) (powerOf : Address → Result M) : Prop :=
  totalPower = ∑ address ∈ addresses.toFinset, ((powerOf address).toOption.getD 0) ∧
    ∀ address, existsAddress address = true ↔ ∃ p, powerOf address = .ok p

/-- The last entry of no address is zero. -/
def NoLastZero {M : Type} [Zero M] (entries : List (Address × M)) : Prop :=
  ∀ address, lastEntry entries address ≠ some 0

/-- What there is to know of a table for its total to match: `powerOf` gives the last entry of an
address unless it is zero. -/
theorem totalsMatch_iff_heldSum {M : Type} [AddCommMonoid M] {entries : List (Address × M)}
    {totalPower : M} {existsAddress : Address → Bool} {powerOf : Address → Result M}
    (hexists : ∀ address, existsAddress address = (lastEntry entries address).isSome)
    (hpower : ∀ address p, powerOf address = .ok p ↔ lastEntry entries address = some p ∧ p ≠ 0) :
    TotalsMatch (entries.map Prod.fst) totalPower existsAddress powerOf ↔
      totalPower = heldSum entries ∧ NoLastZero entries := by
  have hvalue : ∀ address,
      (powerOf address).toOption.getD 0 = (lastEntry entries address).getD 0 := by
    intro address
    cases hok : powerOf address with
    | ok p => rw [((hpower address p).mp hok).1]; rfl
    | error e =>
        -- there is no entry, or the last one is zero: neither side adds anything
        cases hlast : lastEntry entries address with
        | none => rfl
        | some p =>
            by_cases hzero : p = 0
            · rw [hzero]
              rfl
            · rw [(hpower address p).mpr ⟨hlast, hzero⟩] at hok
              cases hok
  -- `exists` and `powerOf` disagree where the last entry is zero, and nowhere else
  have hexists' : (∀ address, existsAddress address = true ↔ ∃ p, powerOf address = .ok p) ↔
      NoLastZero entries := by
    refine forall_congr' ?_
    intro address
    simp only [hexists, hpower]
    cases lastEntry entries address with
    | none => simp
    | some p => simp
  rw [TotalsMatch, hexists', heldSum]
  simp only [hvalue]

/-- The total of a loop is what the table holds if rounding loses what has been overwritten. -/
theorem eq_heldSum_iff (entries : List (Address × ℚ)) :
    (entries.map Prod.snd).foldl (fun sum y => Doubles.toNumber (sum + y)) 0 = heldSum entries ↔
      Doubles.lost 0 (entries.map Prod.snd) = overwritten entries := by
  have hlost := Doubles.foldl_add_lost 0 (entries.map Prod.snd)
  rw [zero_add, sum_entries] at hlost
  constructor
  · intro h
    linarith
  · intro h
    linarith

namespace ValidatorSet

def TotalsMatch (vs : ValidatorSet) : Prop :=
  UniqysKit.TotalsMatch (vs.validators.map Validator.address) vs.totalPower vs.existsAddress vs.powerOf

/-- The entries with their powers as rational numbers. -/
def numbers (vs : ValidatorSet) : List (Address × ℚ) :=
  vs.entries.map fun entry => (entry.1, (entry.2 : ℚ))

variable {vs : ValidatorSet}

theorem totalsMatch_iff_heldSum : vs.TotalsMatch ↔
    vs.totalPower = heldSum vs.entries ∧ NoLastZero vs.entries := by
  have haddresses : vs.entries.map Prod.fst = vs.validators.map Validator.address := by
    rw [entries, List.map_map]
    rfl
  rw [TotalsMatch, ← haddresses]
  refine UniqysKit.totalsMatch_iff_heldSum ?_ ?_
  · intro address
    rw [existsAddress, power_eq_lastEntry]
  · intro address p
    rw [powerOf_eq_ok_iff, power_eq_lastEntry, Nat.pos_iff_ne_zero]

theorem lastEntry_numbers (address : Address) :
    lastEntry vs.numbers address = (lastEntry vs.entries address).map Nat.cast :=
  lastEntry_map_snd Nat.cast vs.entries address

theorem cast_heldSum : ((heldSum vs.entries : Nat) : ℚ) = heldSum vs.numbers := by
  have hkeys : vs.numbers.map Prod.fst = vs.entries.map Prod.fst := by
    rw [numbers, List.map_map]
    rfl
  rw [heldSum, heldSum, hkeys, Nat.cast_sum]
  refine Finset.sum_congr rfl fun address _ => ?_
  rw [lastEntry_numbers]
  cases lastEntry vs.entries address with
  | none => rfl
  | some p => rfl

theorem cast_totalPower : (vs.totalPower : ℚ) =
    (vs.numbers.map Prod.snd).foldl (fun sum y => Doubles.toNumber (sum + y)) 0 := by
  have hpowers : vs.numbers.map Prod.snd = (vs.validators.map Validator.power).map Nat.cast := by
    rw [numbers, ← map_snd_entries, List.map_map, List.map_map]
    rfl
  rw [totalPower_eq_sum, Doubles.sum, Doubles.cast_foldl_add, hpowers, Nat.cast_zero]

/-- Total and powers fit together if what is lost is what was overwritten. -/
theorem totalsMatch_iff_lost : vs.TotalsMatch ↔
    Doubles.lost 0 (vs.numbers.map Prod.snd) = overwritten vs.numbers ∧ NoLastZero vs.numbers := by
  rw [totalsMatch_iff_heldSum, ← eq_heldSum_iff, ← cast_totalPower, ← cast_heldSum, Nat.cast_inj]
  refine and_congr_right fun _ => forall_congr' fun address => ?_
  rw [lastEntry_numbers]
  cases lastEntry vs.entries address with
  | none => simp
  | some p => simp

/-- Up to `2 ^ 53` nothing is lost, so nothing may be overwritten. -/
theorem totalsMatch_iff_countedOnce (hsum : vs.powerSum ≤ 2 ^ 53) :
    vs.TotalsMatch ↔ CountedOnce vs.entries := by
  rw [totalsMatch_iff_heldSum, totalPower_of_le hsum, powerSum, ← map_snd_entries]
  exact countedOnce_iff fun _ _ => Nat.zero_le _

/-- Where the total matches, all validators together are a quorum. -/
theorem TotalsMatch.quorum (h : vs.TotalsMatch) (hsum : vs.powerSum ≤ 2 ^ 53) (hpos : 0 < vs.totalPower) :
    vs.Quorum ((vs.validators.map Validator.address).toFinset.filter
      fun address => 0 < vs.weight address) := by
  refine ⟨?_, ?_⟩
  · intro address haddress
    exact existsAddress_of_weight_pos (Finset.mem_filter.mp haddress).2
  · have hweight : ∀ address, (vs.powerOf address).toOption.getD 0 = vs.weight address := by
      intro address
      rw [weight]
      cases vs.powerOf address with
      | ok p => rfl
      | error e => rfl
    have hall : ∑ address ∈ (vs.validators.map Validator.address).toFinset.filter
          (fun address => 0 < vs.weight address), vs.weight address = vs.totalPower := by
      rw [h.1, Finset.sum_filter_of_ne fun _ _ hne => Nat.pos_of_ne_zero hne]
      simp only [hweight]
    rw [hall]
    have htotal := totalPower_of_le hsum
    omega

end ValidatorSet

namespace EasyFramework

/-- The `ValidatorSet` that `PUT /validators` builds, with the powers as the client sent them. -/
structure SentValidatorSet where
  validators : List (Address × PowerValue)
  deriving DecidableEq

namespace SentValidatorSet

variable (vs : SentValidatorSet)

def power (address : Address) : Option PowerValue :=
  (vs.validators.reverse.find? fun v => v.1 = address).map Prod.snd

/-- `none` for a text or `NaN`. -/
def totalPower : Option ℚ :=
  vs.validators.foldlM (fun sum v => v.2.addend.map fun n => Doubles.toNumber (sum + n)) 0

def existsAddress (address : Address) : Bool :=
  match vs.power address with
  | none | some .undefined => false
  | some _ => true

def powerOf (address : Address) : Result PowerValue :=
  match vs.power address with
  | some p => if p.isFalsy then .error ⟨"not included in the validator set"⟩ else .ok p
  | none => .error ⟨"not included in the validator set"⟩

/-- What `powerOf` returns, in a sum. -/
def numberOf (address : Address) : Result ℚ := (vs.powerOf address).map fun p => p.addend.getD 0

def TotalsMatch : Prop :=
  ∃ total, vs.totalPower = some total ∧
    UniqysKit.TotalsMatch (vs.validators.map Prod.fst) total vs.existsAddress vs.numberOf

/-- All powers can be added. -/
def Numeric : Prop := ∀ entry ∈ vs.validators, entry.2.addend ≠ none

/-- The entries with what they add. -/
def numbers : List (Address × ℚ) := vs.validators.map fun entry => (entry.1, entry.2.addend.getD 0)

variable {vs}

theorem foldlM_addend (l : List (Address × PowerValue)) (sum total : ℚ) :
    l.foldlM (fun sum v => v.2.addend.map fun n => Doubles.toNumber (sum + n)) sum = some total ↔
      (∀ entry ∈ l, entry.2.addend ≠ none) ∧
        total = (l.map fun entry => entry.2.addend.getD 0).foldl
          (fun sum y => Doubles.toNumber (sum + y)) sum := by
  induction l generalizing sum with
  | nil => simp [eq_comm]
  | cons entry l ih =>
      rw [List.foldlM_cons, List.forall_mem_cons, List.map_cons, List.foldl_cons]
      cases hadd : entry.2.addend with
      | none => simp
      | some n =>
          simp only [Option.map_some, Option.bind_eq_bind, Option.bind_some, Option.getD_some]
          rw [ih]
          simp

/-- There is a total exactly if all powers can be added. -/
theorem totalPower_eq_some {total : ℚ} : vs.totalPower = some total ↔
    vs.Numeric ∧ total = (vs.numbers.map Prod.snd).foldl (fun sum y => Doubles.toNumber (sum + y)) 0 := by
  have hsnd : vs.numbers.map Prod.snd = vs.validators.map fun entry => entry.2.addend.getD 0 := by
    rw [numbers, List.map_map]
    rfl
  rw [hsnd]
  exact foldlM_addend vs.validators 0 total

theorem lastEntry_numbers (address : Address) :
    lastEntry vs.numbers address = (vs.power address).map fun p => p.addend.getD 0 := by
  rw [numbers, lastEntry_map_snd fun p : PowerValue => p.addend.getD 0, lastEntry_eq_find, power]

/-- What is in the table was sent. -/
theorem Numeric.addend_of_power (h : vs.Numeric) {address : Address} {p : PowerValue}
    (hp : vs.power address = some p) : ∃ n, p.addend = some n := by
  rcases Option.map_eq_some_iff.mp hp with ⟨entry, hfind, rfl⟩
  have hmem := List.mem_reverse.mp (List.mem_of_find?_eq_some hfind)
  exact Option.ne_none_iff_exists'.mp (h entry hmem)

theorem Numeric.equal_totals_iff (h : vs.Numeric) (total : ℚ) :
    UniqysKit.TotalsMatch (vs.validators.map Prod.fst) total vs.existsAddress vs.numberOf ↔
      total = heldSum vs.numbers ∧ NoLastZero vs.numbers := by
  have haddresses : vs.numbers.map Prod.fst = vs.validators.map Prod.fst := by
    rw [numbers, List.map_map]
    rfl
  rw [← haddresses]
  refine totalsMatch_iff_heldSum ?_ ?_
  · intro address
    rw [lastEntry_numbers, existsAddress]
    cases hp : vs.power address with
    | none => rfl
    | some p =>
        obtain ⟨n, hn⟩ := h.addend_of_power hp
        cases p with
        | undefined => cases hn
        | _ => rfl
  · intro address q
    rw [lastEntry_numbers, numberOf, powerOf]
    cases hp : vs.power address with
    | none => simp [Except.map]
    | some p =>
        obtain ⟨n, hn⟩ := h.addend_of_power hp
        have hfalsy := PowerValue.isFalsy_iff hn
        simp only [Option.map_some, hn, Option.getD_some, Option.some.injEq]
        by_cases hzero : n = 0
        · rw [if_pos (hfalsy.mpr hzero)]
          refine iff_of_false nofun ?_
          rintro ⟨rfl, hne⟩
          exact hne hzero
        · rw [if_neg fun hf => hzero (hfalsy.mp hf)]
          simp only [Except.map, hn, Option.getD_some, Except.ok.injEq]
          constructor
          · rintro rfl
            exact ⟨rfl, hzero⟩
          · exact And.left

/-- Total and powers fit together if the total is a number and loses what was overwritten. -/
theorem totalsMatch_iff_lost : vs.TotalsMatch ↔ vs.Numeric ∧
    Doubles.lost 0 (vs.numbers.map Prod.snd) = overwritten vs.numbers ∧ NoLastZero vs.numbers := by
  rw [← eq_heldSum_iff]
  constructor
  · rintro ⟨total, htotal, hmatch⟩
    rcases totalPower_eq_some.mp htotal with ⟨hnumeric, rfl⟩
    exact ⟨hnumeric, (hnumeric.equal_totals_iff _).mp hmatch⟩
  · rintro ⟨hnumeric, hheld⟩
    exact ⟨_, totalPower_eq_some.mpr ⟨hnumeric, rfl⟩, (hnumeric.equal_totals_iff _).mpr hheld⟩

/-- The encoder admits no negative power. -/
theorem nonneg_of_written {written : ValidatorSet}
    (h : State.writtenValidatorSet vs.validators = .ok written) :
    ∀ entry ∈ vs.numbers, 0 ≤ entry.2 := by
  rcases Result.bind_eq_ok.mp h with ⟨-, -, hrest⟩
  rcases Result.bind_eq_ok.mp hrest with ⟨validators, hvalidators, -⟩
  intro entry hentry
  rcases List.mem_map.mp hentry with ⟨⟨address, power⟩, hsent, rfl⟩
  rcases Result.ok_of_mapM hvalidators _ hsent with ⟨v, hv⟩
  rcases Result.bind_eq_ok.mp hv with ⟨n, hn, -⟩
  cases power with
  | number m => exact (writtenNumber_eq_ok.mp hn).2.1
  | boolean b => cases b <;> simp [PowerValue.addend]
  | _ => exact le_rfl

/-- If nothing is lost, each entry has to count once. -/
theorem totalsMatch_iff_countedOnce {written : ValidatorSet}
    (h : State.writtenValidatorSet vs.validators = .ok written)
    (hlost : Doubles.lost 0 (vs.numbers.map Prod.snd) = 0) :
    vs.TotalsMatch ↔ vs.Numeric ∧ CountedOnce vs.numbers := by
  rw [totalsMatch_iff_lost, ← countedOnce_iff (nonneg_of_written h), heldSum_eq_sum_iff, hlost,
    eq_comm (a := (0 : ℚ))]
  rfl

end SentValidatorSet

/-- Total and powers fit together exactly if all powers are numbers, no address ends with a power of
zero, and rounding loses what has been overwritten.  Where it loses nothing, as up to `2 ^ 53`, each
entry has no power if and only if a later one is for the same address. -/
theorem totalsMatch_iff (reader : Bytes) (sent : SentValidatorSet) :
    (∀ vs rest, ValidatorSet.deserialize reader = .ok (vs, rest) →
      (vs.TotalsMatch ↔ Doubles.lost 0 (vs.numbers.map Prod.snd) = overwritten vs.numbers ∧
        NoLastZero vs.numbers) ∧
      (vs.powerSum ≤ 2 ^ 53 → (vs.TotalsMatch ↔ CountedOnce vs.entries))) ∧
    ∀ written, State.writtenValidatorSet sent.validators = .ok written →
      (sent.TotalsMatch ↔ sent.Numeric ∧
        Doubles.lost 0 (sent.numbers.map Prod.snd) = overwritten sent.numbers ∧
          NoLastZero sent.numbers) ∧
      (Doubles.lost 0 (sent.numbers.map Prod.snd) = 0 →
        (sent.TotalsMatch ↔ sent.Numeric ∧ CountedOnce sent.numbers)) := by
  refine ⟨?_, ?_⟩
  · intro vs rest _
    exact ⟨ValidatorSet.totalsMatch_iff_lost, ValidatorSet.totalsMatch_iff_countedOnce⟩
  · intro written h
    exact ⟨SentValidatorSet.totalsMatch_iff_lost, SentValidatorSet.totalsMatch_iff_countedOnce h⟩

/-- An address comes twice, first with power one and then with power two. -/
def repeatedValidators : List (Address × PowerValue) :=
  [(Address.zero, .number 1), (Address.zero, .number 2)]

/-- The same, as bytes. -/
def repeatedBytes : Bytes :=
  [0, 0, 0, 2] ++ (Address.zero.buffer ++ [0, 0, 0, 0, 0, 0, 0, 1]) ++
    (Address.zero.buffer ++ [0, 0, 0, 0, 0, 0, 0, 2])

def repeatedSet : ValidatorSet := ⟨[⟨Address.zero, 1⟩, ⟨Address.zero, 2⟩]⟩

theorem deserialize_repeated : ValidatorSet.deserialize repeatedBytes = .ok (repeatedSet, []) := by
  decide +kernel

theorem written_repeated : State.writtenValidatorSet repeatedValidators = .ok repeatedSet := by
  decide +kernel

/-- The total of the repeated address is three, and its power is two. -/
theorem not_totalsMatch :
    ¬ ((∀ reader vs rest, ValidatorSet.deserialize reader = .ok (vs, rest) → vs.TotalsMatch) ∧
      ∀ newValidators written, State.writtenValidatorSet newValidators = .ok written →
        (⟨newValidators⟩ : SentValidatorSet).TotalsMatch) := by
  rintro ⟨hread, -⟩
  have htotal := (hread _ _ _ deserialize_repeated).1
  revert htotal
  decide

theorem totalsMatch_iff_sample :
    ¬ repeatedSet.TotalsMatch ∧ ¬ (⟨repeatedValidators⟩ : SentValidatorSet).TotalsMatch := by
  rcases totalsMatch_iff repeatedBytes ⟨repeatedValidators⟩ with ⟨hread, hsent⟩
  refine ⟨?_, ?_⟩
  · rw [(hread _ _ deserialize_repeated).2 (by decide)]
    decide
  · rw [(hsent _ written_repeated).2 (by decide +kernel)]
    rintro ⟨-, hcounted⟩
    revert hcounted
    decide +kernel

end EasyFramework
end UniqysKit
