import UniqysKit.Library.BigEndian
import UniqysKit.Library.Fallible

/-!
# Serialization

The byte formats of `packages/serialize` and the label byte of `Optional` in `packages/types`.

A `BufferWriter` is modelled by the bytes it has collected and a `BufferReader` by the bytes it has
not read yet.  `consume` is `Buffer.slice`: past the end of the buffer it returns what is left and
does not fail, so every length check sits in the reader of the fixed-width number or in the
constructor of the value.
-/

namespace UniqysKit

/-- The contents of a `Buffer`. -/
abbrev Bytes := List UInt8

/-- A thrown `Error`, identified by its message. -/
structure Error where
  message : String
  deriving DecidableEq, Repr

/-- The outcome of code that can throw. -/
abbrev Result (α : Type) := Except Error α

namespace Result

variable {α β : Type}

@[simp] theorem ok_bind (a : α) (f : α → Result β) : (Except.ok a >>= f) = f a := rfl

@[simp] theorem error_bind (e : Error) (f : α → Result β) :
    (Except.error e >>= f) = Except.error e := rfl

@[simp] theorem pure_eq (a : α) : (pure a : Result α) = .ok a := rfl

@[simp] theorem throw_eq (e : Error) : (throw e : Result α) = .error e := rfl

/-- A sequence of two steps succeeds when both steps do. -/
theorem bind_eq_ok {x : Result α} {f : α → Result β} {b : β} :
    (x >>= f) = .ok b ↔ ∃ a, x = .ok a ∧ f a = .ok b := by
  cases x with
  | error e => simp
  | ok a => simp

theorem mapM_ok {f : α → Result β} {l : List α} (h : ∀ a ∈ l, ∃ b, f a = .ok b) :
    ∃ bs, l.mapM f = .ok bs := by
  induction l with
  | nil => exact ⟨[], rfl⟩
  | cons a l ih =>
      rcases h a (by simp) with ⟨b, hb⟩
      rcases ih fun a' ha' => h a' (by simp [ha']) with ⟨bs, hbs⟩
      exact ⟨b :: bs, by simp [hb, hbs]⟩

theorem ok_of_mapM {f : α → Result β} {l : List α} {bs : List β} (h : l.mapM f = .ok bs) :
    ∀ a ∈ l, ∃ b, f a = .ok b := by
  induction l generalizing bs with
  | nil => exact nofun
  | cons a l ih =>
      rw [List.mapM_cons] at h
      rcases bind_eq_ok.mp h with ⟨b, hb, h⟩
      rcases bind_eq_ok.mp h with ⟨bs', hbs', -⟩
      exact List.forall_mem_cons.mpr ⟨⟨b, hb⟩, ih hbs'⟩

theorem length_of_mapM {f : α → Result β} {l : List α} {bs : List β} (h : l.mapM f = .ok bs) :
    bs.length = l.length := by
  induction l generalizing bs with
  | nil =>
      cases h
      rfl
  | cons a l ih =>
      rw [List.mapM_cons] at h
      rcases bind_eq_ok.mp h with ⟨b, -, h⟩
      rcases bind_eq_ok.mp h with ⟨bs', hbs', h⟩
      cases h
      rw [List.length_cons, List.length_cons, ih hbs']

end Result

/-- Code that can throw over a state: what was written before the throw stays written. -/
abbrev Action (σ α : Type) := EStateM Error σ α

/-- Code that can throw and leaves the state alone. -/
def Action.fromResult {σ α : Type} : Result α → Action σ α
  | .ok a => pure a
  | .error e => throw e

theorem Action.ends_fromResult {σ α : Type} {r : Result α} {s : σ} {Q : α → σ → Prop} {E : σ → Prop}
    (hok : ∀ a, r = .ok a → Q a s) (herror : ∀ e, r = .error e → E s) :
    Library.Fallible.Ends (Action.fromResult r) s Q E := by
  cases r with
  | ok a => exact hok a rfl
  | error e => exact herror e rfl

theorem Action.respects_fromResult {σ α : Type} {R : Library.Fallible.Progress σ} (r : Result α) :
    Library.Fallible.Respects R (Action.fromResult r : Action σ α) := by
  cases r with
  | ok a => exact .pure a
  | error e => exact .throw e

theorem Action.fromResult_bind_ok {σ α β : Type} {r : Result α} {a : α} {f : α → Action σ β} {s : σ}
    (h : r = .ok a) : (Action.fromResult r >>= f) s = f a s := by
  rw [h]
  rfl

theorem Action.fromResult_bind_error {σ α β : Type} {r : Result α} {e : Error} {f : α → Action σ β}
    {s : σ} (h : r = .error e) : (Action.fromResult r >>= f) s = .error e s := by
  rw [h]
  rfl

/-- Node's `ERR_OUT_OF_RANGE`, thrown by `writeUInt*` and `readUInt*`. -/
def Error.outOfRange : Error := ⟨"ERR_OUT_OF_RANGE"⟩

/-- A `TypeError()` without message, thrown by the sized-bytes constructors. -/
def Error.typeError : Error := ⟨"TypeError"⟩

abbrev Serializer (α : Type) := α → Result Bytes

abbrev Deserializer (α : Type) := Bytes → Result (α × Bytes)

/-- `BufferReader.consume`: the bytes read and the bytes left. -/
def consume (length : Nat) (reader : Bytes) : Bytes × Bytes :=
  (reader.take length, reader.drop length)

/-- Reading back exactly the bytes that were written first. -/
@[simp] theorem consume_append {bytes rest : Bytes} {length : Nat} (h : bytes.length = length) :
    consume length (bytes ++ rest) = (bytes, rest) := by
  subst h
  simp [consume]

/-! ## Slices -/

/-- The place in a buffer that an argument of `Buffer.slice` stands for: a negative one counts from
the end. -/
def sliceIndex (length : Nat) (index : Int) : Nat :=
  if index < 0 then (length + index).toNat else min index.toNat length

/-- `Buffer.slice`. -/
def slice (buffer : Bytes) (start stop : Int) : Bytes :=
  (buffer.take (sliceIndex buffer.length stop)).drop (sliceIndex buffer.length start)

@[simp] theorem sliceIndex_zero (length : Nat) : sliceIndex length 0 = 0 := by
  simp [sliceIndex]

@[simp] theorem sliceIndex_length (length : Nat) : sliceIndex length length = length := by
  simp [sliceIndex]

open Library.BigEndian

/-! ## Numbers -/

namespace UInt8

def serialize : Serializer Nat := fun n =>
  if n < 256 then .ok (toBytes 1 n) else .error .outOfRange

def deserialize : Deserializer Nat := fun reader =>
  let (bytes, rest) := consume 1 reader
  if bytes.length = 1 then .ok (ofBytes bytes, rest) else .error .outOfRange

theorem deserialize_append {n : Nat} {bytes : Bytes} (h : serialize n = .ok bytes) (rest : Bytes) :
    deserialize (bytes ++ rest) = .ok (n, rest) := by
  unfold serialize at h
  split at h
  · cases h
    rename_i hn
    simp [deserialize, ofBytes_toBytes (w := 1) (by simpa using hn)]
  · cases h

end UInt8

namespace UInt32

def serialize : Serializer Nat := fun n =>
  if n < 2 ^ 32 then .ok (toBytes 4 n) else .error .outOfRange

def deserialize : Deserializer Nat := fun reader =>
  let (bytes, rest) := consume 4 reader
  if bytes.length = 4 then .ok (ofBytes bytes, rest) else .error .outOfRange

theorem lt_of_serialize {n : Nat} {bytes : Bytes} (h : serialize n = .ok bytes) : n < 2 ^ 32 := by
  unfold serialize at h
  split at h
  · assumption
  · cases h

theorem serialize_of_lt {n : Nat} (h : n < 2 ^ 32) : serialize n = .ok (toBytes 4 n) := by
  simp only [serialize, if_pos h]

theorem deserialize_append {n : Nat} {bytes : Bytes} (h : serialize n = .ok bytes) (rest : Bytes) :
    deserialize (bytes ++ rest) = .ok (n, rest) := by
  unfold serialize at h
  split at h
  · cases h
    rename_i hn
    simp [deserialize, ofBytes_toBytes (w := 4) (lt_of_lt_of_eq hn (by norm_num))]
  · cases h

end UInt32

namespace UInt64

/-- Only 48 bits are used: two zero bytes come first. -/
def serialize : Serializer Nat := fun n =>
  if n > 2 ^ 48 - 1 then .error ⟨"The number is out of 48bit range"⟩
  else .ok ([0, 0] ++ toBytes 6 n)

def deserialize : Deserializer Nat := fun reader =>
  let (bytes, rest) := consume 8 reader
  if bytes.length = 8 then .ok (ofBytes (bytes.drop 2), rest) else .error .outOfRange

theorem lt_of_deserialize {reader rest : Bytes} {n : Nat} (h : deserialize reader = .ok (n, rest)) :
    n < 2 ^ 48 := by
  simp only [deserialize] at h
  split at h
  · rename_i hlength
    cases h
    refine (ofBytes_lt _).trans_le ?_
    rw [List.length_drop, hlength]
    norm_num
  · cases h

theorem serialize_of_lt {n : Nat} (h : n < 2 ^ 48) :
    serialize n = .ok ([0, 0] ++ toBytes 6 n) := by
  have hn : ¬ n > 2 ^ 48 - 1 := by omega
  simp only [serialize, if_neg hn]

theorem serialize_of_not_lt {n : Nat} (h : ¬ n < 2 ^ 48) :
    serialize n = .error ⟨"The number is out of 48bit range"⟩ := by
  have hn : n > 2 ^ 48 - 1 := by omega
  simp only [serialize, if_pos hn]

theorem serialize_ok {n : Nat} {bytes : Bytes} (h : serialize n = .ok bytes) :
    n < 2 ^ 48 ∧ bytes = [0, 0] ++ toBytes 6 n := by
  unfold serialize at h
  split at h
  · cases h
  · cases h
    exact ⟨by omega, rfl⟩

theorem deserialize_append {n : Nat} {bytes : Bytes} (h : serialize n = .ok bytes) (rest : Bytes) :
    deserialize (bytes ++ rest) = .ok (n, rest) := by
  rcases serialize_ok h with ⟨hn, rfl⟩
  rw [deserialize, consume_append (by simp)]
  simp [ofBytes_toBytes (w := 6) (lt_of_lt_of_eq hn (by norm_num))]

end UInt64

/-! ## Buffers, lists and optional values -/

namespace SizedBuffer

def serialize : Serializer Bytes := fun buffer => do
  let length ← UInt32.serialize buffer.length
  return length ++ buffer

def deserialize : Deserializer Bytes := fun reader => do
  let (length, rest) ← UInt32.deserialize reader
  return consume length rest

theorem deserialize_append {buffer bytes : Bytes} (h : serialize buffer = .ok bytes) (rest : Bytes) :
    deserialize (bytes ++ rest) = .ok (buffer, rest) := by
  rcases Result.bind_eq_ok.1 h with ⟨length, hlength, hbytes⟩
  cases hbytes
  rw [deserialize, List.append_assoc, UInt32.deserialize_append hlength]
  simp

end SizedBuffer

namespace List

def serialize {α : Type} (serializer : Serializer α) : Serializer (List α) := fun list => do
  let length ← UInt32.serialize list.length
  let items ← list.mapM serializer
  return length ++ items.flatten

/-- The loop of `List.deserialize`. -/
def read {α : Type} (deserializer : Deserializer α) : Nat → Deserializer (List α)
  | 0, reader => .ok ([], reader)
  | length + 1, reader => do
      let (item, rest) ← deserializer reader
      let (items, rest) ← read deserializer length rest
      return (item :: items, rest)

def deserialize {α : Type} (deserializer : Deserializer α) : Deserializer (List α) :=
  fun reader => do
    let (length, rest) ← UInt32.deserialize reader
    read deserializer length rest

variable {α : Type} {serializer : Serializer α} {deserializer : Deserializer α} {list : List α}
  {bytes : Bytes}

/-- The loop reads the items back whenever each of them does. -/
theorem read_append {items : List Bytes}
    (hitem : ∀ item ∈ list, ∀ bytes rest, serializer item = .ok bytes →
      deserializer (bytes ++ rest) = .ok (item, rest))
    (h : list.mapM serializer = .ok items) (rest : Bytes) :
    read deserializer list.length (items.flatten ++ rest) = .ok (list, rest) := by
  induction list generalizing items with
  | nil =>
      cases h
      rfl
  | cons item list ih =>
      rw [List.mapM_cons] at h
      rcases Result.bind_eq_ok.1 h with ⟨first, hfirst, h⟩
      rcases Result.bind_eq_ok.1 h with ⟨others, hothers, h⟩
      cases h
      have hread := hitem item List.mem_cons_self first (others.flatten ++ rest) hfirst
      have hrest := ih (fun item hmem => hitem item (List.mem_cons_of_mem _ hmem)) hothers
      simp [read, hread, hrest]

theorem deserialize_append
    (hitem : ∀ item ∈ list, ∀ bytes rest, serializer item = .ok bytes →
      deserializer (bytes ++ rest) = .ok (item, rest))
    (h : serialize serializer list = .ok bytes) (rest : Bytes) :
    deserialize deserializer (bytes ++ rest) = .ok (list, rest) := by
  rcases Result.bind_eq_ok.1 h with ⟨length, hlength, h⟩
  rcases Result.bind_eq_ok.1 h with ⟨items, hitems, h⟩
  cases h
  rw [deserialize, List.append_assoc, UInt32.deserialize_append hlength]
  exact read_append hitem hitems rest

/-- A list can be written if its items can, and its length. -/
theorem exists_serialize (hlength : list.length < 2 ^ 32)
    (hitem : ∀ item ∈ list, ∃ bytes, serializer item = .ok bytes) :
    ∃ bytes, serialize serializer list = .ok bytes := by
  rcases Result.mapM_ok hitem with ⟨items, hitems⟩
  refine ⟨toBytes 4 list.length ++ items.flatten, ?_⟩
  simp [serialize, UInt32.serialize_of_lt hlength, hitems]

end List

namespace Optional

def serialize {α : Type} (serializer : Serializer α) : Serializer (Option α)
  | some v => do return [1] ++ (← serializer v)
  | none => .ok [0]

def deserialize {α : Type} (deserializer : Deserializer α) : Deserializer (Option α) :=
  fun reader => do
    let (label, rest) ← UInt8.deserialize reader
    match label with
    | 0 => return (none, rest)
    | 1 => do
        let (v, rest) ← deserializer rest
        return (some v, rest)
    | _ => throw ⟨""⟩

/-- An optional value reads back whenever the value inside does. -/
theorem deserialize_append {α : Type} {serializer : Serializer α} {deserializer : Deserializer α}
    (hinner : ∀ v bytes rest, serializer v = .ok bytes →
      deserializer (bytes ++ rest) = .ok (v, rest))
    {v : Option α} {bytes : Bytes} (h : serialize serializer v = .ok bytes) (rest : Bytes) :
    deserialize deserializer (bytes ++ rest) = .ok (v, rest) := by
  cases v with
  | none =>
      simp only [serialize, Except.ok.injEq] at h
      subst h
      rw [deserialize, UInt8.deserialize_append (show UInt8.serialize 0 = .ok [0] from rfl)]
      rfl
  | some v =>
      cases hv : serializer v with
      | error e =>
          simp [serialize, hv] at h
      | ok inner =>
          have hbytes : bytes = [1] ++ inner := by
            simpa [serialize, hv, eq_comm] using h
          subst hbytes
          rw [deserialize, List.append_assoc,
            UInt8.deserialize_append (show UInt8.serialize 1 = .ok [1] from rfl)]
          simp [hinner v inner rest hv]

end Optional

end UniqysKit
