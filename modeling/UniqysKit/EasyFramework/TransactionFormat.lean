import UniqysKit.Blockchain.Formats
import UniqysKit.EasyFramework.Text

/-!
# The format of the data of transactions

`SignedTransaction.deserialize` with its `serialize`, as a `Library.Format`.  A text is read from any
bytes, so a transaction whose texts are no UTF-8 is read as another one than was written.
-/

namespace UniqysKit
namespace EasyFramework

open Library (Format)

/-! ## Requests -/

/-- A text is read from any bytes, and written as its UTF-8. -/
def textFormat : ByteFormat String :=
  (SizedBuffer.format.coarsen Utf8.toString (fun text => text.toUTF8.toList)
    Utf8.toString_toUTF8).describe
    (fun b text rest => deserializeString b = .ok (text, rest))
    (fun text b => serializeString text = .ok b)
    (by
      intro b text rest
      constructor
      · intro h
        rcases Result.bind_eq_ok.mp h with ⟨⟨bytes, last⟩, hbytes, h⟩
        cases h
        exact ⟨bytes, hbytes, rfl⟩
      · rintro ⟨bytes, hbytes, rfl⟩
        exact Result.bind_eq_ok.mpr ⟨_, hbytes, rfl⟩)
    fun _ _ => Iff.rfl

/-- How `HttpRequest.serialize` writes a field of its headers. -/
def serializeHeader : Serializer (String × String) := fun (key, value) => do
  return (← serializeString key) ++ (← serializeString value)

def headerFormat : ByteFormat (String × String) :=
  (textFormat.pair textFormat).describe
    (fun b header rest => HttpRequest.deserializeHeader b = .ok (header, rest))
    (fun header b => serializeHeader header = .ok b)
    (by
      intro b header rest
      constructor
      · intro h
        rcases Result.bind_eq_ok.mp h with ⟨⟨key, mid⟩, hkey, h⟩
        rcases Result.bind_eq_ok.mp h with ⟨⟨value, last⟩, hvalue, h⟩
        cases h
        exact ⟨mid, hkey, hvalue⟩
      · rintro ⟨mid, hkey, hvalue⟩
        exact Result.bind_eq_ok.mpr ⟨_, hkey, Result.bind_eq_ok.mpr ⟨_, hvalue, rfl⟩⟩)
    (by
      intro header b
      constructor
      · intro h
        rcases Result.bind_eq_ok.mp h with ⟨x, hx, h⟩
        rcases Result.bind_eq_ok.mp h with ⟨y, hy, h⟩
        cases h
        exact ⟨x, y, hx, hy, rfl⟩
      · rintro ⟨x, y, hx, hy, rfl⟩
        exact Result.bind_eq_ok.mpr ⟨_, hx, Result.bind_eq_ok.mpr ⟨_, hy, rfl⟩⟩)

def HttpRequest.format : ByteFormat HttpRequest :=
  parted (textFormat.pair (textFormat.pair ((List.format headerFormat HttpRequest.deserializeHeader
      serializeHeader (fun _ _ _ => Iff.rfl) fun _ _ => Iff.rfl).pair SizedBuffer.format)))
    (fun request => (request.method, request.path, request.headers, request.body))
    deserialize serialize
    (by
      rintro ⟨⟩ ⟨⟩ h
      cases h
      rfl)
    (by
      intro b request rest
      constructor
      · intro h
        rcases Result.bind_eq_ok.mp h with ⟨⟨method, mid⟩, hmethod, h⟩
        rcases Result.bind_eq_ok.mp h with ⟨⟨path, mid'⟩, hpath, h⟩
        rcases Result.bind_eq_ok.mp h with ⟨⟨headers, mid''⟩, hheaders, h⟩
        rcases Result.bind_eq_ok.mp h with ⟨⟨body, last⟩, hbody, h⟩
        cases h
        exact ⟨mid, hmethod, mid', hpath, mid'', hheaders, hbody⟩
      · rintro ⟨mid, hmethod, mid', hpath, mid'', hheaders, hbody⟩
        refine Result.bind_eq_ok.mpr ⟨_, hmethod, Result.bind_eq_ok.mpr ⟨_, hpath, ?_⟩⟩
        exact Result.bind_eq_ok.mpr ⟨_, hheaders, Result.bind_eq_ok.mpr ⟨_, hbody, rfl⟩⟩)
    (by
      intro request b
      constructor
      · intro h
        rcases Result.bind_eq_ok.mp h with ⟨method, hmethod, h⟩
        rcases Result.bind_eq_ok.mp h with ⟨path, hpath, h⟩
        rcases Result.bind_eq_ok.mp h with ⟨headers, hheaders, h⟩
        rcases Result.bind_eq_ok.mp h with ⟨body, hbody, h⟩
        cases h
        refine ⟨_, _, hmethod, ⟨_, _, hpath, ⟨_, _, hheaders, hbody, rfl⟩, rfl⟩, ?_⟩
        simp only [List.append_assoc]
      · rintro ⟨method, _, hmethod, ⟨path, _, hpath, ⟨headers, body, hheaders, hbody, rfl⟩, rfl⟩, rfl⟩
        refine Result.bind_eq_ok.mpr ⟨_, hmethod, Result.bind_eq_ok.mpr ⟨_, hpath, ?_⟩⟩
        refine Result.bind_eq_ok.mpr ⟨_, hheaders, Result.bind_eq_ok.mpr ⟨_, hbody, ?_⟩⟩
        simp only [Result.pure_eq, List.append_assoc])

/-! ## Transactions -/

namespace Transaction

/-- The constructor writes the fields to compute the hash, so it makes no transaction that cannot be
written. -/
def format (c : Crypto) : ByteFormat Transaction :=
  ((UInt64.format.pair HttpRequest.format).map
    (fun tx p => p = (tx.nonce, tx.request) ∧ ∃ hash, tx.hash c = .ok hash)
    (by
      rintro tx p p' ⟨rfl, -⟩ ⟨rfl, -⟩
      rfl)
    (by
      rintro ⟨⟩ ⟨⟩ p ⟨rfl, -⟩ ⟨h, -⟩
      cases h
      rfl)).describe
    (fun b tx rest => deserialize c b = .ok (tx, rest)) (fun tx b => tx.serialize = .ok b)
    (by
      intro b tx rest
      constructor
      · intro h
        rcases Result.bind_eq_ok.mp h with ⟨⟨nonce, mid⟩, hnonce, h⟩
        rcases Result.bind_eq_ok.mp h with ⟨⟨request, last⟩, hrequest, h⟩
        rcases Result.bind_eq_ok.mp h with ⟨hash, hhash, h⟩
        cases h
        exact ⟨_, ⟨rfl, hash, hhash⟩, mid, hnonce, hrequest⟩
      · rintro ⟨_, ⟨rfl, hash, hhash⟩, mid, hnonce, hrequest⟩
        exact Result.bind_eq_ok.mpr ⟨_, hnonce, Result.bind_eq_ok.mpr ⟨_, hrequest,
          Result.bind_eq_ok.mpr ⟨_, hhash, rfl⟩⟩⟩)
    (by
      intro tx b
      constructor
      · intro h
        have hhash : tx.hash c = .ok (Hash.fromData c b) := Result.bind_eq_ok.mpr ⟨b, h, rfl⟩
        rcases Result.bind_eq_ok.mp h with ⟨x, hx, h⟩
        rcases Result.bind_eq_ok.mp h with ⟨y, hy, h⟩
        cases h
        exact ⟨_, ⟨rfl, _, hhash⟩, x, y, hx, hy, rfl⟩
      · rintro ⟨_, ⟨rfl, -⟩, x, y, hx, hy, rfl⟩
        exact Result.bind_eq_ok.mpr ⟨_, hx, Result.bind_eq_ok.mpr ⟨_, hy, rfl⟩⟩)

end Transaction

namespace SignedTransaction

theorem new_eq_ok {c : Crypto} {signature : Signature} {transaction : Transaction}
    {tx : SignedTransaction} (h : new c signature transaction = .ok tx) :
    tx.signature = signature ∧ tx.transaction = transaction := by
  rcases Result.bind_eq_ok.mp h with ⟨hash, -, h⟩
  split at h
  · cases h
    exact ⟨rfl, rfl⟩
  · cases h

/-- Signed transactions as their constructor makes them. -/
def format (c : Crypto) : ByteFormat SignedTransaction :=
  ((Signature.format.pair (Transaction.format c)).map
    (fun tx p => p = (tx.signature, tx.transaction) ∧ new c tx.signature tx.transaction = .ok tx)
    (by
      rintro tx p p' ⟨rfl, -⟩ ⟨rfl, -⟩
      rfl)
    (by
      rintro tx tx' p ⟨rfl, hnew⟩ ⟨h, hnew'⟩
      rw [← (Prod.mk.inj h).1, ← (Prod.mk.inj h).2, hnew] at hnew'
      exact Except.ok.inj hnew')).describe
    (fun b tx rest => deserialize c b = .ok (tx, rest))
    (fun tx b => tx.serialize = .ok b ∧ new c tx.signature tx.transaction = .ok tx)
    (by
      intro b tx rest
      constructor
      · intro h
        rcases Result.bind_eq_ok.mp h with ⟨⟨signature, mid⟩, hsignature, h⟩
        rcases Result.bind_eq_ok.mp h with ⟨⟨transaction, last⟩, htransaction, h⟩
        rcases Result.bind_eq_ok.mp h with ⟨made, hnew, h⟩
        cases h
        rcases new_eq_ok hnew with ⟨rfl, rfl⟩
        exact ⟨_, ⟨rfl, hnew⟩, mid, hsignature, htransaction⟩
      · rintro ⟨_, ⟨rfl, hnew⟩, mid, hsignature, htransaction⟩
        exact Result.bind_eq_ok.mpr ⟨_, hsignature, Result.bind_eq_ok.mpr ⟨_, htransaction,
          Result.bind_eq_ok.mpr ⟨_, hnew, rfl⟩⟩⟩)
    (by
      intro tx b
      constructor
      · rintro ⟨h, hnew⟩
        rcases Result.bind_eq_ok.mp h with ⟨y, hy, h⟩
        cases h
        exact ⟨_, ⟨rfl, hnew⟩, _, y, rfl, hy, rfl⟩
      · rintro ⟨_, ⟨rfl, hnew⟩, _, y, ⟨⟩, hy, rfl⟩
        exact ⟨Result.bind_eq_ok.mpr ⟨_, hy, rfl⟩, hnew⟩)

section Plain

variable {c : Crypto} {b rest : Bytes} {tx : SignedTransaction}

theorem new_of_deserialize (h : deserialize c b = .ok (tx, rest)) :
    new c tx.signature tx.transaction = .ok tx := by
  rcases Result.bind_eq_ok.mp h with ⟨⟨signature, mid⟩, -, h⟩
  rcases Result.bind_eq_ok.mp h with ⟨⟨transaction, last⟩, -, h⟩
  rcases Result.bind_eq_ok.mp h with ⟨made, hnew, h⟩
  cases h
  rcases new_eq_ok hnew with ⟨rfl, rfl⟩
  exact hnew

/-- Plain data of which nothing is left over are those that are written. -/
theorem serialize_of_plain (h : deserialize c b = .ok (tx, [])) (hasked : (format c).asked b ≤ b.length)
    (hplain : (format c).Plain b) : tx.serialize = .ok b := by
  rcases ((format c).plain_iff h hasked).mp hplain with ⟨hwritten, -⟩
  have hrest := (format c).rest_eq h
  have hle : b.length ≤ (format c).asked b := List.drop_eq_nil_iff.mp hrest.symm
  rw [List.take_of_length_le hle] at hwritten
  exact hwritten

end Plain

end SignedTransaction

/-! ## A signed transaction with a header -/

def sampleTransaction : Transaction :=
  ⟨1, ⟨"POST", "/move", [("content-type", "text/plain")], [1, 2, 3]⟩⟩

def sampleSigned : SignedTransaction where
  signature := (Consensus.sampleKey 1).sign .transparent
    (Hash.fromData .transparent (sampleTransaction.serialize.toOption.getD []))
  transaction := sampleTransaction
  signer := (Consensus.sampleKey 1).address .transparent

def sampleCore : UniqysKit.Transaction where
  type := TransactionType.normal.toNat
  data := sampleSigned.serialize.toOption.getD []
  type_lt := by decide
  data_lt := by decide +kernel

end EasyFramework
end UniqysKit
