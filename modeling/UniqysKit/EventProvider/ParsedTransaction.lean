import UniqysKit.EasyFramework.TransactionFormat
import UniqysKit.EventProvider.Uniqys

/-!
# Transactions on chain

`Uniqys._parseTransaction` on the bytes that the node writes for a signed transaction.  The cursor is
followed through the nested formats: where it stands, what is before it and what is behind it.
-/

namespace UniqysKit
namespace EventProvider
namespace Uniqys

open Library.BigEndian

/-- The bytes of a text. -/
def textBytes (text : String) : Bytes := text.toUTF8.toList

/-! ## The cursor -/

section Cursor

variable {buf before bytes after content : Bytes}

theorem sized_eq_ok (h : SizedBuffer.serialize content = .ok bytes) :
    content.length < 2 ^ 32 ∧ bytes = toBytes 4 content.length ++ content := by
  rcases Result.bind_eq_ok.mp h with ⟨length, hlength, hbytes⟩
  have hlt := UInt32.lt_of_serialize hlength
  rw [UInt32.serialize_of_lt hlt] at hlength
  cases hlength
  cases hbytes
  exact ⟨hlt, rfl⟩

/-- A number behind `before`. -/
theorem toUint32_append [BytesLib] {n : Nat} (hn : n < 2 ^ 32)
    (hbuf : buf = before ++ (toBytes 4 n ++ after)) :
    BytesLib.toUint32 buf before.length = .ok n := by
  rcases @BytesLib.take_drop_append before (toBytes 4 n) after _ _ rfl (length_toBytes 4 n) with
    ⟨hle, hpart⟩
  rw [hbuf]
  refine BytesLib.toUint32_eq_ok_iff.mpr ⟨hle, ?_⟩
  rw [hpart, ofBytes_toBytes (lt_of_lt_of_eq hn (by norm_num))]

/-- A sized buffer behind `before` is cut out, and the cursor stands behind it. -/
theorem sliceSizedBuffer_append [BytesLib] (hsize : SizedBuffer.serialize content = .ok bytes)
    (hbuf : buf = before ++ (bytes ++ after)) (hlt : buf.length < 2 ^ 32) :
    sliceSizedBuffer buf before.length = .ok (content, (before ++ bytes).length) := by
  rcases sized_eq_ok hsize with ⟨hcontent, hbytes⟩
  have hlength : buf.length = before.length + (4 + content.length) + after.length := by
    rw [hbuf, hbytes]
    simp
    omega
  have hnumber : buf = before ++ (toBytes 4 content.length ++ (content ++ after)) := by
    rw [hbuf, hbytes, List.append_assoc]
  have hrest : buf = (before ++ toBytes 4 content.length) ++ (content ++ after) := by
    rw [hnumber, List.append_assoc]
  have hnext : (before.length + 4) % 2 ^ 32 = before.length + 4 := Nat.mod_eq_of_lt (by omega)
  have hend : (before.length + 4 + content.length) % 2 ^ 32 = before.length + 4 + content.length :=
    Nat.mod_eq_of_lt (by omega)
  rw [sliceSizedBuffer, toUint32_append hcontent hnumber]
  simp only [Result.ok_bind, Result.pure_eq, hnext, hend]
  rw [hrest, BytesLib.slice_append (by simp) rfl, Result.ok_bind, hbytes]
  simp
  omega

end Cursor

/-! ## Headers -/

/-- The bytes of one header. -/
def headerBytes : Serializer (String × String) := fun (key, value) => do
  return (← EasyFramework.serializeString key) ++ (← EasyFramework.serializeString value)

theorem parseHeaders_append [BytesLib] {buf before after : Bytes} {headers : List (String × String)}
    {items : List Bytes} (hitems : headers.mapM headerBytes = .ok items)
    (hbuf : buf = before ++ (items.flatten ++ after)) (hlt : buf.length < 2 ^ 32) :
    parseHeaders buf headers.length before.length = .ok
      (headers.map fun header => textBytes header.1, headers.map fun header => textBytes header.2,
        (before ++ items.flatten).length) := by
  induction headers generalizing before items with
  | nil =>
      cases hitems
      simp [parseHeaders]
  | cons header headers ih =>
      rcases header with ⟨key, value⟩
      rw [List.mapM_cons] at hitems
      rcases Result.bind_eq_ok.mp hitems with ⟨first, hfirst, hitems⟩
      rcases Result.bind_eq_ok.mp hitems with ⟨others, hothers, hitems⟩
      cases hitems
      rcases Result.bind_eq_ok.mp hfirst with ⟨keyBytes, hkey, hfirst⟩
      rcases Result.bind_eq_ok.mp hfirst with ⟨valueBytes, hvalue, hfirst⟩
      cases hfirst
      -- the buffer from the key on, from the value on and from the other headers on
      have hfirst : buf = before ++ (keyBytes ++ (valueBytes ++ (others.flatten ++ after))) := by
        rw [hbuf]
        simp
      have hsecond : buf = (before ++ keyBytes) ++ (valueBytes ++ (others.flatten ++ after)) := by
        rw [hfirst, List.append_assoc]
      have hothersAt : buf = (before ++ keyBytes ++ valueBytes) ++ (others.flatten ++ after) := by
        rw [hsecond]
        simp
      have hread : sliceSizedBuffer buf before.length =
          .ok (textBytes key, (before ++ keyBytes).length) :=
        sliceSizedBuffer_append hkey hfirst hlt
      have hread' : sliceSizedBuffer buf (before ++ keyBytes).length =
          .ok (textBytes value, (before ++ keyBytes ++ valueBytes).length) :=
        sliceSizedBuffer_append hvalue hsecond hlt
      have hrest := ih hothers hothersAt
      rw [List.length_cons, parseHeaders, hread, Result.ok_bind]
      simp only
      rw [hread', Result.ok_bind]
      simp only
      rw [hrest, Result.ok_bind]
      simp

/-! ## Transactions -/

section Transactions

variable {c : Crypto} {ecrecover : Ecrecover} {request : EasyFramework.HttpRequest}

/-- The parts of a request, one behind another. -/
theorem request_parts {bytes : Bytes} (h : request.serialize = .ok bytes) :
    ∃ method path items body, EasyFramework.serializeString request.method = .ok method ∧
      EasyFramework.serializeString request.path = .ok path ∧
      request.headers.length < 2 ^ 32 ∧ request.headers.mapM headerBytes = .ok items ∧
      SizedBuffer.serialize request.body = .ok body ∧
      bytes = method ++ (path ++ (toBytes 4 request.headers.length ++ (items.flatten ++ body))) := by
  rcases Result.bind_eq_ok.mp h with ⟨method, hmethod, h⟩
  rcases Result.bind_eq_ok.mp h with ⟨path, hpath, h⟩
  rcases Result.bind_eq_ok.mp h with ⟨headers, hheaders, h⟩
  rcases Result.bind_eq_ok.mp h with ⟨body, hbody, h⟩
  rcases Result.bind_eq_ok.mp hheaders with ⟨length, hlength, hheaders⟩
  rcases Result.bind_eq_ok.mp hheaders with ⟨items, hitems, hheaders⟩
  have hlt := UInt32.lt_of_serialize hlength
  rw [UInt32.serialize_of_lt hlt] at hlength
  cases hlength
  cases hheaders
  cases h
  refine ⟨method, path, items, body, hmethod, hpath, hlt, hitems, hbody, ?_⟩
  simp

/-- What the parser reads behind the signature and the nonce. -/
def parsed (signer : Address) (request : EasyFramework.HttpRequest) : Transaction where
  signer := signer
  method := textBytes request.method
  path := textBytes request.path
  headerKeys := request.headers.map fun header => textBytes header.1
  headerValues := request.headers.map fun header => textBytes header.2
  body := request.body

/-- The signer of a transaction is the address recovered for the bytes of its fields. -/
theorem address_of_new {tx : EasyFramework.SignedTransaction}
    (h : EasyFramework.SignedTransaction.new c tx.signature tx.transaction = .ok tx) :
    ∃ bytes, tx.transaction.serialize = .ok bytes ∧
      tx.signature.address c (Hash.fromData c bytes) = some tx.signer := by
  rcases Result.bind_eq_ok.mp h with ⟨hash, hhash, h⟩
  rcases Result.bind_eq_ok.mp hhash with ⟨bytes, hbytes, hhash⟩
  cases hhash
  refine ⟨bytes, hbytes, ?_⟩
  cases haddress : tx.signature.address c (Hash.fromData c bytes) with
  | none => simp [haddress] at h
  | some signer =>
      rw [haddress] at h
      exact congrArg some (congrArg EasyFramework.SignedTransaction.signer (Except.ok.inj h))

/-- The request behind a signature and a nonce is read part by part. -/
theorem parseTransaction_eq [BytesLib] {coreTransaction signed : Bytes} {signature : Signature}
    {signer : Address}
    {nonce content : Bytes} {next : Nat} (hread : sliceSizedBuffer coreTransaction 1 = .ok (signed, next))
    (hsigned : signed = signature.buffer ++ (nonce ++ content)) (hnonce : nonce.length = 8)
    (hcontent : request.serialize = .ok content) (hlt : signed.length < 2 ^ 32)
    (hagrees : Agrees c ecrecover)
    (haddress : signature.address c (Hash.fromData c (nonce ++ content)) = some signer) :
    parseTransaction c ecrecover coreTransaction = .ok (parsed signer request) := by
  obtain ⟨method, path, items, body, hmethod, hpath, hheaders, hitems, hbody, rfl⟩ :=
    request_parts hcontent
  have hsize := signature.size
  -- the signature and what it signs
  have hmin : 65 ≤ signed.length := by
    rw [hsigned, List.length_append, hsize]
    exact Nat.le_add_right _ _
  have hlength : (signed.length + 2 ^ 256 - 65) % 2 ^ 256 = signed.length - 65 := by
    rw [Nat.sub_add_comm hmin, Nat.add_mod_right]
    exact Nat.mod_eq_of_lt (by omega)
  have hsignature : BytesLib.slice signed 0 65 = .ok signature.buffer := by
    rw [hsigned, ← List.nil_append (signature.buffer ++ _)]
    exact BytesLib.slice_append rfl hsize
  have hdata : BytesLib.slice signed 65 (signed.length - 65) = .ok (nonce ++
      (method ++ (path ++ (toBytes 4 request.headers.length ++ (items.flatten ++ body))))) := by
    have happend : signed = signature.buffer ++ ((nonce ++ (method ++ (path ++
        (toBytes 4 request.headers.length ++ (items.flatten ++ body))))) ++ []) := by
      rw [hsigned, List.append_nil]
    rw [happend]
    exact BytesLib.slice_append hsize (by simp [hsize])
  have hv : ¬ signature.recovery < 2 := by
    unfold Signature.recovery
    rcases signature.recovery_mem with h | h <;> rw [h] <;> decide
  -- the parts of the request, and what is before each of them
  have hstart : (signature.buffer ++ nonce).length = 65 + 8 := by
    rw [List.length_append, hsize, hnonce]
  have hmethodAt : signed = (signature.buffer ++ nonce) ++ (method ++
      (path ++ (toBytes 4 request.headers.length ++ (items.flatten ++ body)))) := by
    rw [hsigned, List.append_assoc]
  have hpathAt : signed = (signature.buffer ++ nonce ++ method) ++
      (path ++ (toBytes 4 request.headers.length ++ (items.flatten ++ body))) := by
    rw [hmethodAt]
    simp
  have hnumberAt : signed = (signature.buffer ++ nonce ++ method ++ path) ++
      (toBytes 4 request.headers.length ++ (items.flatten ++ body)) := by
    rw [hpathAt]
    simp
  have hheadersAt : signed = (signature.buffer ++ nonce ++ method ++ path ++
      toBytes 4 request.headers.length) ++ (items.flatten ++ body) := by
    rw [hnumberAt]
    simp
  have hbodyAt : signed = (signature.buffer ++ nonce ++ method ++ path ++
      toBytes 4 request.headers.length ++ items.flatten) ++ (body ++ []) := by
    rw [hheadersAt]
    simp
  have hcursor : ((signature.buffer ++ nonce ++ method ++ path).length + 4) % 2 ^ 32 =
      (signature.buffer ++ nonce ++ method ++ path ++ toBytes 4 request.headers.length).length := by
    have hle : (signature.buffer ++ nonce ++ method ++ path).length + 4 ≤ signed.length := by
      rw [hnumberAt]
      simp
      omega
    rw [Nat.mod_eq_of_lt (by omega)]
    simp only [List.length_append, length_toBytes]
  have hreadMethod := sliceSizedBuffer_append hmethod hmethodAt hlt
  rw [hstart] at hreadMethod
  have hreadPath := sliceSizedBuffer_append hpath hpathAt hlt
  have hreadNumber := toUint32_append hheaders hnumberAt
  have hreadHeaders := parseHeaders_append hitems hheadersAt hlt
  have hreadBody := sliceSizedBuffer_append hbody hbodyAt hlt
  rw [parseTransaction, hread]
  simp only [Result.ok_bind, hsignature, hlength, hdata, parseSignature_buffer, if_neg hv, hreadMethod,
    hreadPath, hreadNumber, hcursor, hreadHeaders, hreadBody, hagrees _ _ _ haddress]
  rfl

/-- What the contract reads of a signed transaction in a core transaction, whose type byte it does not
look at. -/
theorem parseTransaction_signed [BytesLib] {tx : EasyFramework.SignedTransaction}
    {coreTx : UniqysKit.Transaction} (hagrees : Agrees c ecrecover)
    (hnew : EasyFramework.SignedTransaction.new c tx.signature tx.transaction = .ok tx)
    (hdata : tx.serialize = .ok coreTx.data) (hsize : coreTx.serialize.length < 2 ^ 32) :
    parseTransaction c ecrecover coreTx.serialize =
      .ok (parsed tx.signer tx.transaction.request) := by
  rcases address_of_new hnew with ⟨bytes, hbytes, haddress⟩
  rcases Result.bind_eq_ok.mp hdata with ⟨bytes', hbytes', hsigned⟩
  rw [hbytes] at hbytes'
  cases hbytes'
  rcases Result.bind_eq_ok.mp hbytes with ⟨nonce, hnonce, hfields⟩
  rcases Result.bind_eq_ok.mp hfields with ⟨content, hcontent, hparts⟩
  cases hparts
  -- the core transaction is a type byte and its sized data
  have hsized : SizedBuffer.serialize coreTx.data =
      .ok (toBytes 4 coreTx.data.length ++ coreTx.data) := by
    rw [SizedBuffer.serialize, UInt32.serialize_of_lt coreTx.data_lt]
    rfl
  have hbuf : coreTx.serialize = toBytes 1 coreTx.type ++
      ((toBytes 4 coreTx.data.length ++ coreTx.data) ++ []) := by
    rw [List.append_nil]
    rfl
  have hread := sliceSizedBuffer_append hsized hbuf hsize
  rw [length_toBytes] at hread
  have hlength := coreTx.length_serialize
  exact parseTransaction_eq hread (Except.ok.inj hsigned).symm
    (by rw [(UInt64.serialize_ok hnonce).2, List.length_append, length_toBytes]; rfl) hcontent
    (by omega) hagrees haddress

end Transactions

/-- The contract reads what the node writes: for a signed transaction in a core transaction the
parser does not revert and gives the signer and the parts of the request.  The type byte is not looked
at, so a normal transaction is one case of this. -/
theorem parses_serialized [BytesLib] (c : Crypto) (ecrecover : Ecrecover) (hagrees : Agrees c ecrecover)
    (tx : EasyFramework.SignedTransaction)
    (hnew : EasyFramework.SignedTransaction.new c tx.signature tx.transaction = .ok tx)
    (coreTx : UniqysKit.Transaction) (hdata : tx.serialize = .ok coreTx.data)
    (hsize : coreTx.serialize.length < 2 ^ 32) :
    parseTransaction c ecrecover coreTx.serialize =
      .ok (parsed tx.signer tx.transaction.request) :=
  parseTransaction_signed hagrees hnew hdata hsize

theorem parses_serialized_sample :
    parseTransaction .transparent (ecrecoverOf .transparent) EasyFramework.sampleCore.serialize =
      .ok (parsed EasyFramework.sampleSigned.signer EasyFramework.sampleTransaction.request) :=
  parses_serialized .transparent (ecrecoverOf .transparent) (agrees_ecrecoverOf .transparent)
    EasyFramework.sampleSigned (by decide +kernel) EasyFramework.sampleCore (by decide +kernel)
    (by decide +kernel)

end Uniqys

end EventProvider
end UniqysKit
