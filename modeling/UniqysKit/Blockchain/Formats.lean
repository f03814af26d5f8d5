import UniqysKit.Blockchain.Codec
import UniqysKit.Library.Format

/-!
# The formats of numbers, buffers and blocks

Each `deserialize` with its `serialize`, as a `Library.Format`.  The readers are wider than the
writers in two places: the two high bytes of a 64-bit number are not looked at, and a buffer that is
shorter than its size says is taken as it is.
-/

namespace UniqysKit

open Library.BigEndian
open Library (Format)

abbrev ByteFormat (α : Type) := Format UInt8 α

/-! ## Numbers -/

/-- Big-endian numbers of a width. -/
def number (w : Nat) : ByteFormat Nat :=
  (Format.fixed w).map (fun n bytes => n < 256 ^ w ∧ bytes = toBytes w n)
    (by
      rintro n bytes bytes' ⟨-, rfl⟩ ⟨-, rfl⟩
      rfl)
    (by
      rintro n m bytes ⟨hn, rfl⟩ ⟨hm, heq⟩
      exact toBytes_inj hn hm heq)

theorem number_reads {w n : Nat} {b rest : Bytes} :
    (number w).Reads b n rest ↔ w ≤ b.length ∧ n = ofBytes (b.take w) ∧ rest = b.drop w := by
  constructor
  · rintro ⟨bytes, ⟨hn, rfl⟩, -, rfl⟩
    refine ⟨by simp, ?_, ?_⟩
    · rw [List.take_append_of_le_length (by simp), List.take_of_length_le (by simp),
        ofBytes_toBytes hn]
    · rw [List.drop_append_of_le_length (by simp), List.drop_of_length_le (by simp), List.nil_append]
  · rintro ⟨hw, rfl, rfl⟩
    have hlength : (b.take w).length = w := by simp [hw]
    refine ⟨b.take w, ⟨?_, (toBytes_ofBytes hlength).symm⟩, hlength, (List.take_append_drop w b).symm⟩
    have hlt := ofBytes_lt (b.take w)
    rw [hlength] at hlt
    exact hlt

theorem number_writes {w n : Nat} {bytes : Bytes} :
    (number w).Writes n bytes ↔ n < 256 ^ w ∧ bytes = toBytes w n := by
  constructor
  · rintro ⟨-, ⟨hn, rfl⟩, -, rfl⟩
    exact ⟨hn, rfl⟩
  · rintro ⟨hn, rfl⟩
    exact ⟨_, ⟨hn, rfl⟩, length_toBytes w n, rfl⟩

/-- A reader that checks the number of its bytes. -/
theorem consume_eq_ok_iff {w n : Nat} {b rest : Bytes} {e : Error} (value : Bytes → Nat) :
    (if (consume w b).1.length = w then (.ok (value (consume w b).1, (consume w b).2) : Result (Nat × Bytes))
      else .error e) = .ok (n, rest) ↔ w ≤ b.length ∧ n = value (b.take w) ∧ rest = b.drop w := by
  have hlength : (consume w b).1.length = w ↔ w ≤ b.length := by simp [consume]
  split
  · rename_i h
    simp [consume, hlength.mp h, eq_comm]
  · rename_i h
    have hw : ¬w ≤ b.length := fun hw => h (hlength.mpr hw)
    simp [hw]

namespace UInt8

def format : ByteFormat Nat :=
  (number 1).describe (fun b n rest => deserialize b = .ok (n, rest)) (fun n b => serialize n = .ok b)
    (by
      intro b n rest
      rw [number_reads]
      exact consume_eq_ok_iff ofBytes)
    (by
      intro n b
      rw [number_writes, serialize]
      split
      · simp_all [eq_comm]
      · simp_all)

end UInt8

namespace UInt32

def format : ByteFormat Nat :=
  (number 4).describe (fun b n rest => deserialize b = .ok (n, rest)) (fun n b => serialize n = .ok b)
    (by
      intro b n rest
      rw [number_reads]
      exact consume_eq_ok_iff ofBytes)
    (by
      intro n b
      rw [number_writes, serialize]
      split
      · simp_all [eq_comm]
      · simp_all)

end UInt32

namespace UInt64

/-- Two bytes that are not looked at, and six of the number. -/
def format : ByteFormat Nat :=
  (((Format.padding [0, 0]).pair (number 6)).map (fun n p => p.2 = n)
    (by
      rintro n ⟨-, m⟩ ⟨-, m'⟩ rfl rfl
      rfl)
    (by
      rintro n n' p rfl rfl
      rfl)).describe (fun b n rest => deserialize b = .ok (n, rest)) (fun n b => serialize n = .ok b)
    (by
      intro b n rest
      refine (consume_eq_ok_iff fun bytes => ofBytes (bytes.drop 2)).trans ?_
      constructor
      · rintro ⟨hlength, rfl, rfl⟩
        refine ⟨((), _), rfl, b.drop 2, ⟨?_, rfl⟩, number_reads.mpr ⟨?_, ?_, ?_⟩⟩
        · simp
          omega
        · rw [List.length_drop]
          omega
        · rw [List.take_drop]
          rfl
        · rw [List.drop_drop]
      · rintro ⟨p, rfl, mid, ⟨hlength, rfl⟩, hnumber⟩
        rcases number_reads.mp hnumber with ⟨hlength', hn, rfl⟩
        rw [List.length_drop] at hlength'
        simp only [List.length_cons, List.length_nil] at hlength hlength' hn ⊢
        exact ⟨by omega, by rw [hn, List.take_drop], by rw [List.drop_drop]⟩)
    (by
      intro n b
      constructor
      · intro h
        rcases serialize_ok h with ⟨hn, rfl⟩
        exact ⟨((), n), rfl, _, _, rfl, number_writes.mpr ⟨lt_of_lt_of_eq hn (by norm_num), rfl⟩, rfl⟩
      · rintro ⟨p, rfl, _, _, rfl, hnumber, rfl⟩
        rcases number_writes.mp hnumber with ⟨hn, rfl⟩
        exact serialize_of_lt (lt_of_lt_of_eq hn (by norm_num)))

end UInt64

/-! ## Buffers and lists -/

theorem UInt32.peek {b rest : Bytes} {n : Nat} (h : UInt32.format.Reads b n rest) :
    ofBytes (b.take 4) = n := by
  rcases (consume_eq_ok_iff ofBytes).mp h with ⟨-, rfl, -⟩
  rfl

namespace SizedBuffer

/-- A size, and as many bytes or those that are left. -/
def format : ByteFormat Bytes :=
  (Format.tagged UInt32.format (fun b => ofBytes (b.take 4)) UInt32.peek List.length Format.upTo
    (by
      rintro n b buffer rest ⟨rfl, -⟩ hasked
      exact List.length_take_of_le hasked)).describe
    (fun b buffer rest => deserialize b = .ok (buffer, rest)) (fun buffer b => serialize buffer = .ok b)
    (by
      intro b buffer rest
      constructor
      · intro h
        rcases Result.bind_eq_ok.mp h with ⟨⟨n, mid⟩, hn, h⟩
        cases h
        exact ⟨n, mid, hn, rfl, rfl⟩
      · rintro ⟨n, mid, hn, rfl, rfl⟩
        exact Result.bind_eq_ok.mpr ⟨(n, mid), hn, rfl⟩)
    (by
      intro buffer b
      constructor
      · intro h
        rcases Result.bind_eq_ok.mp h with ⟨length, hlength, h⟩
        cases h
        exact ⟨length, buffer, hlength, ⟨rfl, rfl⟩, rfl⟩
      · rintro ⟨length, _, hlength, ⟨-, rfl⟩, rfl⟩
        exact Result.bind_eq_ok.mpr ⟨length, hlength, rfl⟩)

end SizedBuffer

namespace List

variable {α : Type} (f : ByteFormat α) (deserializer : Deserializer α) (serializer : Serializer α)

theorem read_eq_ok_iff (hreads : ∀ b a rest, deserializer b = .ok (a, rest) ↔ f.Reads b a rest)
    {n : Nat} {b rest : Bytes} {list : List α} :
    read deserializer n b = .ok (list, rest) ↔ (f.many n).Reads b list rest := by
  induction n generalizing b list with
  | zero =>
      constructor
      · intro h
        cases h
        exact ⟨rfl, rfl⟩
      · rintro ⟨rfl, rfl⟩
        rfl
  | succ n ih =>
      constructor
      · intro h
        rcases Result.bind_eq_ok.mp h with ⟨⟨a, mid⟩, ha, h⟩
        rcases Result.bind_eq_ok.mp h with ⟨⟨as, last⟩, has, h⟩
        cases h
        exact ⟨(a, as), rfl, mid, (hreads _ _ _).mp ha, ih.mp has⟩
      · rintro ⟨⟨a, as⟩, rfl, mid, ha, has⟩
        refine Result.bind_eq_ok.mpr ⟨(a, mid), (hreads _ _ _).mpr ha, ?_⟩
        exact Result.bind_eq_ok.mpr ⟨(as, rest), ih.mpr has, rfl⟩

theorem mapM_eq_ok_iff (hwrites : ∀ a b, serializer a = .ok b ↔ f.Writes a b) {list : List α}
    {bytes : Bytes} :
    (∃ items, list.mapM serializer = .ok items ∧ bytes = items.flatten) ↔
      (f.many list.length).Writes list bytes := by
  induction list generalizing bytes with
  | nil =>
      constructor
      · rintro ⟨items, h, rfl⟩
        cases h
        exact ⟨rfl, rfl⟩
      · rintro ⟨-, rfl⟩
        exact ⟨[], rfl, rfl⟩
  | cons a list ih =>
      constructor
      · rintro ⟨items, h, rfl⟩
        rw [List.mapM_cons] at h
        rcases Result.bind_eq_ok.mp h with ⟨first, hfirst, h⟩
        rcases Result.bind_eq_ok.mp h with ⟨others, hothers, h⟩
        cases h
        exact ⟨(a, list), rfl, first, others.flatten, (hwrites _ _).mp hfirst,
          ih.mp ⟨others, hothers, rfl⟩, rfl⟩
      · rintro ⟨p, hp, first, others, hfirst, hothers, rfl⟩
        rcases List.cons.inj hp with ⟨rfl, rfl⟩
        rcases ih.mpr hothers with ⟨items, hitems, rfl⟩
        refine ⟨first :: items, ?_, rfl⟩
        rw [List.mapM_cons, (hwrites _ _).mpr hfirst, Result.ok_bind, hitems]
        rfl

def format (hreads : ∀ b a rest, deserializer b = .ok (a, rest) ↔ f.Reads b a rest)
    (hwrites : ∀ a b, serializer a = .ok b ↔ f.Writes a b) : ByteFormat (List α) :=
  (Format.counted UInt32.format (fun b => ofBytes (b.take 4)) UInt32.peek f).describe
    (fun b list rest => deserialize deserializer b = .ok (list, rest))
    (fun list b => serialize serializer list = .ok b)
    (by
      intro b list rest
      constructor
      · intro h
        rcases Result.bind_eq_ok.mp h with ⟨⟨n, mid⟩, hn, h⟩
        exact ⟨n, mid, hn, (read_eq_ok_iff f deserializer hreads).mp h⟩
      · rintro ⟨n, mid, hn, h⟩
        exact Result.bind_eq_ok.mpr ⟨(n, mid), hn, (read_eq_ok_iff f deserializer hreads).mpr h⟩)
    (by
      intro list b
      constructor
      · intro h
        rcases Result.bind_eq_ok.mp h with ⟨length, hlength, h⟩
        rcases Result.bind_eq_ok.mp h with ⟨items, hitems, h⟩
        cases h
        exact ⟨length, items.flatten, hlength,
          (mapM_eq_ok_iff f serializer hwrites).mp ⟨items, hitems, rfl⟩, rfl⟩
      · rintro ⟨length, bytes, hlength, hbytes, rfl⟩
        rcases (mapM_eq_ok_iff f serializer hwrites).mpr hbytes with ⟨items, hitems, rfl⟩
        exact Result.bind_eq_ok.mpr ⟨length, hlength, Result.bind_eq_ok.mpr ⟨items, hitems, rfl⟩⟩)

end List

/-! ## Sized bytes -/

section Sized

variable {α : Type} (n : Nat) (buffer : α → Bytes) (deserialize : Deserializer α)

/-- Values that are a number of bytes. -/
def sized (hbuffer : ∀ {a a' : α}, buffer a = buffer a' → a = a')
    (hsize : ∀ a, (buffer a).length = n)
    (hreads : ∀ b a rest, deserialize b = .ok (a, rest) ↔ b = buffer a ++ rest) : ByteFormat α :=
  ((Format.fixed n).map (fun a bytes => bytes = buffer a)
    (by
      rintro a bytes bytes' rfl rfl
      rfl)
    (by
      rintro a a' bytes rfl heq
      exact hbuffer heq)).describe
    (fun b a rest => deserialize b = .ok (a, rest)) (fun a b => (.ok (buffer a) : Result Bytes) = .ok b)
    (by
      intro b a rest
      rw [hreads]
      constructor
      · rintro rfl
        exact ⟨_, rfl, hsize a, rfl⟩
      · rintro ⟨_, rfl, -, rfl⟩
        rfl)
    (by
      intro a b
      constructor
      · rintro ⟨⟩
        exact ⟨_, rfl, hsize a, rfl⟩
      · rintro ⟨_, rfl, -, rfl⟩
        rfl)

end Sized

def Hash.format : ByteFormat Hash :=
  sized 32 Hash.serialize Hash.deserialize Hash.ext Hash.size
    (by
      intro b h rest
      constructor
      · intro heq
        unfold Hash.deserialize at heq
        simp only at heq
        split at heq
        · cases heq
          exact (List.take_append_drop 32 b).symm
        · cases heq
      · rintro rfl
        exact Hash.deserialize_append h rest)

def Address.format : ByteFormat Address :=
  sized 20 Address.buffer Address.deserialize Address.ext Address.size
    (by
      intro b a rest
      constructor
      · intro heq
        unfold Address.deserialize at heq
        simp only at heq
        split at heq
        · cases heq
          exact (List.take_append_drop 20 b).symm
        · cases heq
      · rintro rfl
        exact Address.deserialize_append a rest)

def Signature.format : ByteFormat Signature :=
  sized 65 Signature.buffer Signature.deserialize Signature.ext Signature.size
    (by
      intro b s rest
      constructor
      · intro heq
        unfold Signature.deserialize at heq
        simp only at heq
        split at heq
        · split at heq
          · cases heq
            exact (List.take_append_drop 65 b).symm
          · cases heq
        · cases heq
      · rintro rfl
        exact Signature.deserialize_append s rest)

/-! ## Votes and certificates -/

section Record

variable {α γ : Type} (f : ByteFormat α) (parts : γ → α) (deserialize : Deserializer γ)
  (serialize : Serializer γ)

/-- A value that is read and written part by part. -/
def parted (hparts : Function.Injective parts)
    (hreads : ∀ b v rest, deserialize b = .ok (v, rest) ↔ f.Reads b (parts v) rest)
    (hwrites : ∀ v b, serialize v = .ok b ↔ f.Writes (parts v) b) : ByteFormat γ :=
  (f.map (fun v p => p = parts v)
    (by
      rintro v p p' rfl rfl
      rfl)
    (by
      rintro v v' p rfl h
      exact hparts h)).describe
    (fun b v rest => deserialize b = .ok (v, rest)) (fun v b => serialize v = .ok b)
    (by
      intro b v rest
      rw [hreads]
      exact ⟨fun h => ⟨_, rfl, h⟩, fun ⟨_, h, hreads⟩ => h ▸ hreads⟩)
    (by
      intro v b
      rw [hwrites]
      exact ⟨fun h => ⟨_, rfl, h⟩, fun ⟨_, h, hwrites⟩ => h ▸ hwrites⟩)

end Record

def Vote.format : ByteFormat Vote :=
  parted (UInt64.format.pair (UInt32.format.pair Hash.format))
    (fun vote => (vote.height, vote.round, vote.blockHash)) deserialize serialize
    (by
      rintro ⟨⟩ ⟨⟩ h
      cases h
      rfl)
    (by
      intro b vote rest
      constructor
      · intro h
        rcases Result.bind_eq_ok.mp h with ⟨⟨height, mid⟩, hheight, h⟩
        rcases Result.bind_eq_ok.mp h with ⟨⟨round, mid'⟩, hround, h⟩
        rcases Result.bind_eq_ok.mp h with ⟨⟨blockHash, last⟩, hhash, h⟩
        cases h
        exact ⟨mid, hheight, mid', hround, hhash⟩
      · rintro ⟨mid, hheight, mid', hround, hhash⟩
        exact Result.bind_eq_ok.mpr ⟨_, hheight, Result.bind_eq_ok.mpr ⟨_, hround,
          Result.bind_eq_ok.mpr ⟨_, hhash, rfl⟩⟩⟩)
    (by
      intro vote b
      constructor
      · intro h
        rcases Result.bind_eq_ok.mp h with ⟨height, hheight, h⟩
        rcases Result.bind_eq_ok.mp h with ⟨round, hround, h⟩
        cases h
        exact ⟨_, _, hheight, ⟨_, _, hround, rfl, rfl⟩, List.append_assoc _ _ _⟩
      · rintro ⟨height, _, hheight, ⟨round, _, hround, ⟨⟩, rfl⟩, rfl⟩
        refine Result.bind_eq_ok.mpr ⟨_, hheight, Result.bind_eq_ok.mpr ⟨_, hround, ?_⟩⟩
        exact congrArg Except.ok (List.append_assoc _ _ _))

def Validator.format : ByteFormat Validator :=
  parted (Address.format.pair UInt64.format) (fun v => (v.address, v.power)) deserialize serialize
    (by
      rintro ⟨⟩ ⟨⟩ h
      cases h
      rfl)
    (by
      intro b v rest
      constructor
      · intro h
        rcases Result.bind_eq_ok.mp h with ⟨⟨address, mid⟩, haddress, h⟩
        rcases Result.bind_eq_ok.mp h with ⟨⟨power, last⟩, hpower, h⟩
        cases h
        exact ⟨mid, haddress, hpower⟩
      · rintro ⟨mid, haddress, hpower⟩
        exact Result.bind_eq_ok.mpr ⟨_, haddress, Result.bind_eq_ok.mpr ⟨_, hpower, rfl⟩⟩)
    (by
      intro v b
      constructor
      · intro h
        rcases Result.bind_eq_ok.mp h with ⟨power, hpower, h⟩
        cases h
        exact ⟨_, _, rfl, hpower, rfl⟩
      · rintro ⟨_, power, ⟨⟩, hpower, rfl⟩
        exact Result.bind_eq_ok.mpr ⟨_, hpower, rfl⟩)

/-- A value that is another one. -/
def ValidatorSet.format : ByteFormat ValidatorSet :=
  parted (List.format Validator.format Validator.deserialize Validator.serialize (fun _ _ _ => Iff.rfl)
      fun _ _ => Iff.rfl)
    ValidatorSet.validators deserialize serialize
    (by
      rintro ⟨⟩ ⟨⟩ h
      cases h
      rfl)
    (by
      intro b vs rest
      constructor
      · intro h
        rcases Result.bind_eq_ok.mp h with ⟨⟨validators, last⟩, hvalidators, h⟩
        cases h
        exact hvalidators
      · intro hvalidators
        exact Result.bind_eq_ok.mpr ⟨_, hvalidators, rfl⟩)
    fun _ _ => Iff.rfl

def Consensus.format : ByteFormat Consensus :=
  parted (Vote.format.pair (List.format Signature.format Signature.deserialize
      (fun s => .ok (Signature.buffer s)) (fun _ _ _ => Iff.rfl) fun _ _ => Iff.rfl))
    (fun consensus => (consensus.vote, consensus.signatures)) deserialize serialize
    (by
      rintro ⟨⟩ ⟨⟩ h
      cases h
      rfl)
    (by
      intro b consensus rest
      constructor
      · intro h
        rcases Result.bind_eq_ok.mp h with ⟨⟨vote, mid⟩, hvote, h⟩
        rcases Result.bind_eq_ok.mp h with ⟨⟨signatures, last⟩, hsignatures, h⟩
        cases h
        exact ⟨mid, hvote, hsignatures⟩
      · rintro ⟨mid, hvote, hsignatures⟩
        exact Result.bind_eq_ok.mpr ⟨_, hvote, Result.bind_eq_ok.mpr ⟨_, hsignatures, rfl⟩⟩)
    (by
      intro consensus b
      constructor
      · intro h
        rcases Result.bind_eq_ok.mp h with ⟨vote, hvote, h⟩
        rcases Result.bind_eq_ok.mp h with ⟨signatures, hsignatures, h⟩
        cases h
        exact ⟨_, _, hvote, hsignatures, rfl⟩
      · rintro ⟨vote, signatures, hvote, hsignatures, rfl⟩
        exact Result.bind_eq_ok.mpr ⟨_, hvote, Result.bind_eq_ok.mpr ⟨_, hsignatures, rfl⟩⟩)

/-! ## Blocks -/

def Transaction.format : ByteFormat Transaction :=
  parted (UInt8.format.pair SizedBuffer.format) (fun tx => (tx.type, tx.data)) deserialize
    (fun tx => .ok (Transaction.serialize tx))
    (by
      rintro ⟨⟩ ⟨⟩ h
      cases h
      rfl)
    (by
      intro b tx rest
      constructor
      · intro h
        rcases Result.bind_eq_ok.mp h with ⟨⟨type, mid⟩, htype, h⟩
        rcases Result.bind_eq_ok.mp h with ⟨⟨data, last⟩, hdata, h⟩
        simp only at h
        split at h
        · cases h
          exact ⟨mid, htype, hdata⟩
        · cases h
      · rintro ⟨mid, htype, hdata⟩
        exact Result.bind_eq_ok.mpr ⟨_, htype, Result.bind_eq_ok.mpr ⟨_, hdata,
          dif_pos ⟨tx.type_lt, tx.data_lt⟩⟩⟩)
    (by
      intro tx b
      rw [← tx.writers_eq]
      constructor
      · intro h
        rcases Result.bind_eq_ok.mp h with ⟨type, htype, h⟩
        rcases Result.bind_eq_ok.mp h with ⟨data, hdata, h⟩
        cases h
        exact ⟨_, _, htype, hdata, rfl⟩
      · rintro ⟨type, data, htype, hdata, rfl⟩
        exact Result.bind_eq_ok.mpr ⟨_, htype, Result.bind_eq_ok.mpr ⟨_, hdata, rfl⟩⟩)

def TransactionList.format : ByteFormat TransactionList :=
  parted (List.format Transaction.format Transaction.deserialize
      (fun tx => .ok (Transaction.serialize tx)) (fun _ _ _ => Iff.rfl) fun _ _ => Iff.rfl)
    TransactionList.transactions deserialize serialize
    (by
      rintro ⟨⟩ ⟨⟩ h
      cases h
      rfl)
    (by
      intro b list rest
      constructor
      · intro h
        rcases Result.bind_eq_ok.mp h with ⟨⟨transactions, last⟩, htransactions, h⟩
        cases h
        exact htransactions
      · intro htransactions
        exact Result.bind_eq_ok.mpr ⟨_, htransactions, rfl⟩)
    fun _ _ => Iff.rfl

def BlockHeader.format : ByteFormat BlockHeader :=
  parted (UInt64.format.pair (UInt64.format.pair (Hash.format.pair (Hash.format.pair
      (Hash.format.pair (Hash.format.pair Hash.format))))))
    (fun header => (header.height, header.timestamp, header.lastBlockHash, header.transactionRoot,
      header.lastBlockConsensusRoot, header.nextValidatorSetRoot, header.appStateHash))
    deserialize (fun header => .ok (BlockHeader.serialize header))
    (by
      rintro ⟨⟩ ⟨⟩ h
      cases h
      rfl)
    (by
      intro b header rest
      constructor
      · intro h
        rcases Result.bind_eq_ok.mp h with ⟨⟨height, mid₁⟩, hheight, h⟩
        rcases Result.bind_eq_ok.mp h with ⟨⟨timestamp, mid₂⟩, htimestamp, h⟩
        rcases Result.bind_eq_ok.mp h with ⟨⟨lastBlockHash, mid₃⟩, hlast, h⟩
        rcases Result.bind_eq_ok.mp h with ⟨⟨transactionRoot, mid₄⟩, htransactions, h⟩
        rcases Result.bind_eq_ok.mp h with ⟨⟨consensusRoot, mid₅⟩, hconsensus, h⟩
        rcases Result.bind_eq_ok.mp h with ⟨⟨validatorSetRoot, mid₆⟩, hvalidators, h⟩
        rcases Result.bind_eq_ok.mp h with ⟨⟨appStateHash, last⟩, happ, h⟩
        simp only at h
        split at h
        · cases h
          exact ⟨_, hheight, _, htimestamp, _, hlast, _, htransactions, _, hconsensus, _, hvalidators,
            happ⟩
        · cases h
      · rintro ⟨_, hheight, _, htimestamp, _, hlast, _, htransactions, _, hconsensus, _, hvalidators,
          happ⟩
        refine Result.bind_eq_ok.mpr ⟨_, hheight, Result.bind_eq_ok.mpr ⟨_, htimestamp, ?_⟩⟩
        refine Result.bind_eq_ok.mpr ⟨_, hlast, Result.bind_eq_ok.mpr ⟨_, htransactions, ?_⟩⟩
        refine Result.bind_eq_ok.mpr ⟨_, hconsensus, Result.bind_eq_ok.mpr ⟨_, hvalidators, ?_⟩⟩
        exact Result.bind_eq_ok.mpr ⟨_, happ, dif_pos ⟨header.height_lt, header.timestamp_lt⟩⟩)
    (by
      intro header b
      have hheight := UInt64.serialize_of_lt header.height_lt
      have htimestamp := UInt64.serialize_of_lt header.timestamp_lt
      constructor
      · rintro ⟨⟩
        refine ⟨_, _, hheight, ⟨_, _, htimestamp, ⟨_, _, rfl, ⟨_, _, rfl, ⟨_, _, rfl,
          ⟨_, _, rfl, rfl, rfl⟩, rfl⟩, rfl⟩, rfl⟩, rfl⟩, ?_⟩
        simp only [BlockHeader.serialize, Hash.serialize, List.append_assoc]
      · rintro ⟨_, _, hx, ⟨_, _, hy, ⟨_, _, ⟨⟩, ⟨_, _, ⟨⟩, ⟨_, _, ⟨⟩, ⟨_, _, ⟨⟩, ⟨⟩, rfl⟩, rfl⟩, rfl⟩, rfl⟩,
          rfl⟩, rfl⟩
        cases hheight.symm.trans hx
        cases htimestamp.symm.trans hy
        simp only [BlockHeader.serialize, Hash.serialize, List.append_assoc])

def BlockBody.format : ByteFormat BlockBody :=
  parted (TransactionList.format.pair Consensus.format)
    (fun body => (body.transactionList, body.lastBlockConsensus)) deserialize serialize
    (by
      rintro ⟨⟩ ⟨⟩ h
      cases h
      rfl)
    (by
      intro b body rest
      constructor
      · intro h
        rcases Result.bind_eq_ok.mp h with ⟨⟨list, mid⟩, hlist, h⟩
        rcases Result.bind_eq_ok.mp h with ⟨⟨consensus, last⟩, hconsensus, h⟩
        cases h
        exact ⟨mid, hlist, hconsensus⟩
      · rintro ⟨mid, hlist, hconsensus⟩
        exact Result.bind_eq_ok.mpr ⟨_, hlist, Result.bind_eq_ok.mpr ⟨_, hconsensus, rfl⟩⟩)
    (by
      intro body b
      constructor
      · intro h
        rcases Result.bind_eq_ok.mp h with ⟨list, hlist, h⟩
        rcases Result.bind_eq_ok.mp h with ⟨consensus, hconsensus, h⟩
        cases h
        exact ⟨_, _, hlist, hconsensus, rfl⟩
      · rintro ⟨list, consensus, hlist, hconsensus, rfl⟩
        exact Result.bind_eq_ok.mpr ⟨_, hlist, Result.bind_eq_ok.mpr ⟨_, hconsensus, rfl⟩⟩)

def Block.format : ByteFormat Block :=
  parted (BlockHeader.format.pair BlockBody.format) (fun block => (block.header, block.body))
    deserialize serialize
    (by
      rintro ⟨⟩ ⟨⟩ h
      cases h
      rfl)
    (by
      intro b block rest
      constructor
      · intro h
        rcases Result.bind_eq_ok.mp h with ⟨⟨header, mid⟩, hheader, h⟩
        rcases Result.bind_eq_ok.mp h with ⟨⟨body, last⟩, hbody, h⟩
        cases h
        exact ⟨mid, hheader, hbody⟩
      · rintro ⟨mid, hheader, hbody⟩
        exact Result.bind_eq_ok.mpr ⟨_, hheader, Result.bind_eq_ok.mpr ⟨_, hbody, rfl⟩⟩)
    (by
      intro block b
      constructor
      · intro h
        rcases Result.bind_eq_ok.mp h with ⟨body, hbody, h⟩
        cases h
        exact ⟨_, _, rfl, hbody, rfl⟩
      · rintro ⟨_, body, ⟨⟩, hbody, rfl⟩
        exact Result.bind_eq_ok.mpr ⟨_, hbody, rfl⟩)

/-! ## Consensus messages -/

def Proposal.format : ByteFormat Proposal :=
  parted (UInt64.format.pair (UInt32.format.pair (UInt32.format.pair Block.format)))
    (fun proposal => (proposal.height, proposal.round, proposal.lockedRound, proposal.block))
    deserialize serialize
    (by
      rintro ⟨⟩ ⟨⟩ h
      cases h
      rfl)
    (by
      intro b proposal rest
      constructor
      · intro h
        rcases Result.bind_eq_ok.mp h with ⟨⟨height, mid⟩, hheight, h⟩
        rcases Result.bind_eq_ok.mp h with ⟨⟨round, mid'⟩, hround, h⟩
        rcases Result.bind_eq_ok.mp h with ⟨⟨lockedRound, mid''⟩, hlocked, h⟩
        rcases Result.bind_eq_ok.mp h with ⟨⟨block, last⟩, hblock, h⟩
        cases h
        exact ⟨mid, hheight, mid', hround, mid'', hlocked, hblock⟩
      · rintro ⟨mid, hheight, mid', hround, mid'', hlocked, hblock⟩
        refine Result.bind_eq_ok.mpr ⟨_, hheight, Result.bind_eq_ok.mpr ⟨_, hround, ?_⟩⟩
        exact Result.bind_eq_ok.mpr ⟨_, hlocked, Result.bind_eq_ok.mpr ⟨_, hblock, rfl⟩⟩)
    (by
      intro proposal b
      constructor
      · intro h
        rcases Result.bind_eq_ok.mp h with ⟨height, hheight, h⟩
        rcases Result.bind_eq_ok.mp h with ⟨round, hround, h⟩
        rcases Result.bind_eq_ok.mp h with ⟨lockedRound, hlocked, h⟩
        rcases Result.bind_eq_ok.mp h with ⟨block, hblock, h⟩
        cases h
        refine ⟨_, _, hheight, ⟨_, _, hround, ⟨_, _, hlocked, hblock, rfl⟩, rfl⟩, ?_⟩
        simp only [List.append_assoc]
      · rintro ⟨height, _, hheight, ⟨round, _, hround, ⟨lockedRound, block, hlocked, hblock, rfl⟩, rfl⟩,
          rfl⟩
        refine Result.bind_eq_ok.mpr ⟨_, hheight, Result.bind_eq_ok.mpr ⟨_, hround, ?_⟩⟩
        refine Result.bind_eq_ok.mpr ⟨_, hlocked, Result.bind_eq_ok.mpr ⟨_, hblock, ?_⟩⟩
        simp only [Result.pure_eq, List.append_assoc])

theorem UInt8.peek {b rest : Bytes} {n : Nat} (h : UInt8.format.Reads b n rest) :
    ofBytes (b.take 1) = n := by
  rcases (consume_eq_ok_iff ofBytes).mp h with ⟨-, rfl, -⟩
  rfl

namespace ConsensusMessage

def label : ConsensusMessage → Nat
  | .proposal _ => 0
  | .prevote _ => VoteType.prevote.label
  | .precommit _ => VoteType.precommit.label

/-- A value and its signature, as a message of one kind. -/
def signed {α : Type} (f : ByteFormat α) (make : α → Signature → ConsensusMessage)
    (hmake : ∀ {a a' s s'}, make a s = make a' s' → a = a' ∧ s = s') : ByteFormat ConsensusMessage :=
  (f.pair Signature.format).map (fun msg p => msg = make p.1 p.2)
    (by
      rintro msg ⟨a, s⟩ ⟨a', s'⟩ rfl h
      rcases hmake h with ⟨rfl, rfl⟩
      rfl)
    (by
      rintro msg msg' p rfl rfl
      rfl)

/-- What is behind a label. -/
def labelled : Nat → ByteFormat ConsensusMessage
  | 0 => signed Proposal.format (fun proposal sign => .proposal ⟨proposal, sign⟩) (by
      rintro _ _ _ _ ⟨⟩
      exact ⟨rfl, rfl⟩)
  | 1 => signed Vote.format (fun vote sign => .prevote ⟨vote, sign⟩) (by
      rintro _ _ _ _ ⟨⟩
      exact ⟨rfl, rfl⟩)
  | 2 => signed Vote.format (fun vote sign => .precommit ⟨vote, sign⟩) (by
      rintro _ _ _ _ ⟨⟩
      exact ⟨rfl, rfl⟩)
  | _ => .impossible

theorem label_of_labelled {n : Nat} {b rest : Bytes} {msg : ConsensusMessage}
    (h : (labelled n).Reads b msg rest) : msg.label = n := by
  match n with
  | 0 =>
      rcases h with ⟨p, rfl, -⟩
      rfl
  | 1 =>
      rcases h with ⟨p, rfl, -⟩
      rfl
  | 2 =>
      rcases h with ⟨p, rfl, -⟩
      rfl
  | _ + 3 => exact h.elim

def format : ByteFormat ConsensusMessage :=
  (Format.tagged UInt8.format (fun b => ofBytes (b.take 1)) UInt8.peek label labelled
    fun h _ => label_of_labelled h).describe
    (fun b msg rest => deserialize b = .ok (msg, rest)) (fun msg b => msg.serialize = .ok b)
    (by
      intro b msg rest
      constructor
      · intro h
        rcases Result.bind_eq_ok.mp h with ⟨⟨n, mid⟩, hlabel, h⟩
        refine ⟨n, mid, hlabel, ?_⟩
        match n with
        | 0 =>
            rcases Result.bind_eq_ok.mp h with ⟨⟨proposed, mid'⟩, hproposed, h⟩
            rcases Result.bind_eq_ok.mp h with ⟨⟨sign, last⟩, hsign, h⟩
            cases h
            exact ⟨(_, _), rfl, _, hproposed, hsign⟩
        | 1 =>
            rcases Result.bind_eq_ok.mp h with ⟨⟨vote, mid'⟩, hvote, h⟩
            rcases Result.bind_eq_ok.mp h with ⟨⟨sign, last⟩, hsign, h⟩
            cases h
            exact ⟨(_, _), rfl, _, hvote, hsign⟩
        | 2 =>
            rcases Result.bind_eq_ok.mp h with ⟨⟨vote, mid'⟩, hvote, h⟩
            rcases Result.bind_eq_ok.mp h with ⟨⟨sign, last⟩, hsign, h⟩
            cases h
            exact ⟨(_, _), rfl, _, hvote, hsign⟩
        | _ + 3 => cases h
      · rintro ⟨n, mid, hlabel, h⟩
        refine Result.bind_eq_ok.mpr ⟨_, hlabel, ?_⟩
        match n with
        | 0 =>
            rcases h with ⟨p, rfl, _, hproposed, hsign⟩
            exact Result.bind_eq_ok.mpr ⟨_, hproposed, Result.bind_eq_ok.mpr ⟨_, hsign, rfl⟩⟩
        | 1 =>
            rcases h with ⟨p, rfl, _, hvote, hsign⟩
            exact Result.bind_eq_ok.mpr ⟨_, hvote, Result.bind_eq_ok.mpr ⟨_, hsign, rfl⟩⟩
        | 2 =>
            rcases h with ⟨p, rfl, _, hvote, hsign⟩
            exact Result.bind_eq_ok.mpr ⟨_, hvote, Result.bind_eq_ok.mpr ⟨_, hsign, rfl⟩⟩
        | _ + 3 => exact h.elim)
    (by
      intro msg b
      cases msg with
      | proposal msg =>
          constructor
          · intro h
            rcases Result.bind_eq_ok.mp h with ⟨label, hlabel, h⟩
            rcases Result.bind_eq_ok.mp h with ⟨proposed, hproposed, h⟩
            cases h
            exact ⟨_, _, hlabel, ⟨(_, _), rfl, _, _, hproposed, rfl, rfl⟩, List.append_assoc _ _ _⟩
          · rintro ⟨label, _, hlabel, ⟨p, hp, proposed, _, hproposed, ⟨⟩, rfl⟩, rfl⟩
            cases hp
            refine Result.bind_eq_ok.mpr ⟨_, hlabel, Result.bind_eq_ok.mpr ⟨_, hproposed, ?_⟩⟩
            exact congrArg Except.ok (List.append_assoc _ _ _)
      | prevote msg =>
          constructor
          · intro h
            rcases Result.bind_eq_ok.mp h with ⟨label, hlabel, h⟩
            rcases Result.bind_eq_ok.mp h with ⟨vote, hvote, h⟩
            cases h
            exact ⟨_, _, hlabel, ⟨(_, _), rfl, _, _, hvote, rfl, rfl⟩, List.append_assoc _ _ _⟩
          · rintro ⟨label, _, hlabel, ⟨p, hp, vote, _, hvote, ⟨⟩, rfl⟩, rfl⟩
            cases hp
            refine Result.bind_eq_ok.mpr ⟨_, hlabel, Result.bind_eq_ok.mpr ⟨_, hvote, ?_⟩⟩
            exact congrArg Except.ok (List.append_assoc _ _ _)
      | precommit msg =>
          constructor
          · intro h
            rcases Result.bind_eq_ok.mp h with ⟨label, hlabel, h⟩
            rcases Result.bind_eq_ok.mp h with ⟨vote, hvote, h⟩
            cases h
            exact ⟨_, _, hlabel, ⟨(_, _), rfl, _, _, hvote, rfl, rfl⟩, List.append_assoc _ _ _⟩
          · rintro ⟨label, _, hlabel, ⟨p, hp, vote, _, hvote, ⟨⟩, rfl⟩, rfl⟩
            cases hp
            refine Result.bind_eq_ok.mpr ⟨_, hlabel, Result.bind_eq_ok.mpr ⟨_, hvote, ?_⟩⟩
            exact congrArg Except.ok (List.append_assoc _ _ _))

end ConsensusMessage

end UniqysKit
