import Mathlib.Data.List.Lex
import UniqysKit.EasyFramework.TransactionFormat
import UniqysKit.Library.Sorting

/-!
# The headers of a request

`HttpHeaders.fromObject` of `packages/easy-types`.  The client makes the headers that it signs from the
names as its caller has written them, the gateway from the same names in lower case.  The names are
sorted before they are brought to lower case, so the two agree only where this keeps their order.  Both
bring the value of the content type to lower case, under two spellings of its name; the client misses it
under any other, and the gateway does not.
-/

namespace UniqysKit
namespace EasyFramework

open Library

/-! ## The order of names -/

/-- A character in UTF-16. -/
def utf16 (c : Char) : List Nat :=
  if c.toNat < 0x10000 then [c.toNat]
  else [0xD800 + (c.toNat - 0x10000) / 0x400, 0xDC00 + (c.toNat - 0x10000) % 0x400]

/-- What `Array.prototype.sort` compares texts by. -/
def codeUnits (text : String) : List Nat := text.toList.flatMap utf16

/-- A character that is one unit is no surrogate. -/
theorem utf16_append_inj {c d : Char} {rest rest' : List Nat} (h : utf16 c ++ rest = utf16 d ++ rest') :
    c = d ∧ rest = rest' := by
  have hc : c.toNat < 0xD800 ∨ 0xDFFF < c.toNat ∧ c.toNat < 0x110000 := c.valid
  have hd : d.toNat < 0xD800 ∨ 0xDFFF < d.toNat ∧ d.toNat < 0x110000 := d.valid
  have heq : c.toNat = d.toNat → c = d := fun hval => Char.toNat_inj.mp hval
  unfold utf16 at h
  split at h
  · split at h
    · rcases List.cons_eq_cons.mp h with ⟨hval, hrest⟩
      exact ⟨heq hval, hrest⟩
    · rcases List.cons_eq_cons.mp h with ⟨hval, -⟩
      omega
  · split at h
    · rcases List.cons_eq_cons.mp h with ⟨hval, -⟩
      omega
    · rcases List.cons_eq_cons.mp h with ⟨hhigh, h⟩
      rcases List.cons_eq_cons.mp h with ⟨hlow, hrest⟩
      exact ⟨heq (by omega), hrest⟩

theorem codeUnits_injective {a b : String} (h : codeUnits a = codeUnits b) : a = b := by
  have hlists : ∀ l l' : List Char, l.flatMap utf16 = l'.flatMap utf16 → l = l' := by
    intro l
    induction l with
    | nil =>
        intro l' hnil
        cases l' with
        | nil => rfl
        | cons d l' =>
            -- each character has a code unit
            exfalso
            rw [List.flatMap_cons, List.flatMap_nil] at hnil
            unfold utf16 at hnil
            split at hnil <;> cases hnil
    | cons c l ih =>
        intro l' hcons
        cases l' with
        | nil =>
            exfalso
            rw [List.flatMap_cons, List.flatMap_nil] at hcons
            unfold utf16 at hcons
            split at hcons <;> cases hcons
        | cons d l' =>
            rw [List.flatMap_cons, List.flatMap_cons] at hcons
            rcases utf16_append_inj hcons with ⟨rfl, hrest⟩
            rw [ih l' hrest]
  exact String.toList_inj.mp (hlists _ _ h)

/-- The comparison of `sort`. -/
def nameLe (a b : String) : Bool := codeUnits a ≤ codeUnits b

theorem nameLe_trans (a b c : String) (h : nameLe a b) (h' : nameLe b c) : nameLe a c := by
  rw [nameLe, decide_eq_true_eq] at h h' ⊢
  exact le_trans h h'

theorem nameLe_total (a b : String) : nameLe a b || nameLe b a := by
  rw [Bool.or_eq_true, nameLe, nameLe, decide_eq_true_eq, decide_eq_true_eq]
  exact le_total _ _

theorem nameLe_antisymm (a b : String) (h : nameLe a b) (h' : nameLe b a) : a = b := by
  rw [nameLe, decide_eq_true_eq] at h h'
  exact codeUnits_injective (le_antisymm h h')

/-! ## Header objects -/

inductive HeaderValue
  | text (value : String)
  | list (values : List String)
  deriving DecidableEq

/-- An object whose properties are headers; `none` is `undefined`. -/
structure HeaderObject where
  properties : List (String × Option HeaderValue)
  nodup : (properties.map Prod.fst).Nodup

namespace HeaderObject

/-- `Object.keys`. -/
def keys (object : HeaderObject) : List String := object.properties.map Prod.fst

def get (object : HeaderObject) (key : String) : Option HeaderValue :=
  (object.properties.find? fun property => property.1 = key).bind Prod.snd

/-- No two names are the same if the case is ignored. -/
def CaseDistinct (toLowerCase : String → String) (object : HeaderObject) : Prop :=
  (object.keys.map toLowerCase).Nodup

instance (toLowerCase : String → String) (object : HeaderObject) :
    Decidable (object.CaseDistinct toLowerCase) :=
  inferInstanceAs (Decidable (List.Nodup _))

/-- The object with all names in lower case. -/
def lowered (toLowerCase : String → String) (object : HeaderObject)
    (h : object.CaseDistinct toLowerCase) : HeaderObject where
  properties := object.properties.map fun (key, value) => (toLowerCase key, value)
  nodup := by
    rw [List.map_map]
    rw [CaseDistinct, keys, List.map_map] at h
    exact h

end HeaderObject

namespace HttpHeaders

/-- The entries of a header under its normalized name. -/
def entries (normalized : String) : Option HeaderValue → List (String × String)
  | some (.list values) => values.map fun value => (normalized, value)
  | some (.text value) => if value = "" then [] else [(normalized, value)]
  | none => []

/-- What `fromObject` makes of one key. -/
def header (toLowerCase : String → String) (object : HeaderObject) (filter : String → Bool)
    (key : String) : List (String × String) :=
  let normalized := toLowerCase key
  if filter normalized then entries normalized (object.get key) else []

def fromObject (toLowerCase : String → String) (object : HeaderObject) (filter : String → Bool) :
    List (String × String) :=
  (object.keys.mergeSort nameLe).flatMap (header toLowerCase object filter)

/-! ## The content type -/

/-- `['Content-Type', 'content-type']`. -/
def contentTypeNames : List String := ["Content-Type", "content-type"]

/-- A list has no `toLowerCase`. -/
def isList : Option HeaderValue → Bool
  | some (.list _) => true
  | _ => false

def lowerValue (toLowerCase : String → String) : Option HeaderValue → Option HeaderValue
  | some (.text value) => some (.text (if value = "" then value else toLowerCase value))
  | value => value

/-- The object with the content type in lower case. -/
def withContentType (toLowerCase : String → String) (object : HeaderObject) : HeaderObject where
  properties := object.properties.map fun (key, value) =>
    (key, if key ∈ contentTypeNames then lowerValue toLowerCase value else value)
  nodup := by
    rw [List.map_map]
    exact object.nodup

/-- The loop over the two names, which throws at a list. -/
def lowerContentType (toLowerCase : String → String) (object : HeaderObject) : Result HeaderObject :=
  if contentTypeNames.any fun key => isList (object.get key) then
    .error ⟨"headers[key].toLowerCase is not a function"⟩
  else .ok (withContentType toLowerCase object)

/-- The headers that the adapter signs, and those of `Headers.pack`. -/
def pack (toLowerCase : String → String) (object : HeaderObject) (filter : String → Bool) :
    Result (List (String × String)) := do
  return fromObject toLowerCase (← lowerContentType toLowerCase object) filter

/-! ## The two ends -/

/-- `/^uniqys-.+/`, where the dot is no line terminator. -/
def isReserved (key : String) : Bool :=
  "uniqys-".toList.isPrefixOf key.toList &&
    (key.toList.drop 7).head?.any fun c => c ∉ ['\n', '\r', '\u2028', '\u2029']

/-- The filter of the adapter and of `Headers.pack`, for the names in `uniqys-include-headers`. -/
def isIncluded (names : List String) (key : String) : Bool := !(isReserved key || !names.contains key)

/-- The hash that is signed or checked for a request with these headers. -/
def transactionHash (c : Crypto) (toLowerCase : String → String) (object : HeaderObject)
    (filter : String → Bool) (nonce : Nat) (method path : String) (body : Bytes) : Result Hash := do
  let headers ← pack toLowerCase object filter
  let tx : Transaction := ⟨nonce, ⟨method, path, headers, body⟩⟩
  tx.hash c

theorem keys_withContentType (toLowerCase : String → String) (object : HeaderObject) :
    (withContentType toLowerCase object).keys = object.keys := by
  simp only [HeaderObject.keys, withContentType, List.map_map]
  rfl

theorem caseDistinct_withContentType {toLowerCase : String → String} {object : HeaderObject}
    (h : object.CaseDistinct toLowerCase) :
    (withContentType toLowerCase object).CaseDistinct toLowerCase := by
  rw [HeaderObject.CaseDistinct, keys_withContentType]
  exact h

/-- What Node delivers of the headers that the adapter sends. -/
def delivered (toLowerCase : String → String) (object : HeaderObject)
    (h : object.CaseDistinct toLowerCase) : HeaderObject :=
  (withContentType toLowerCase object).lowered toLowerCase (caseDistinct_withContentType h)

/-- The gateway, which gets the names in lower case, comes to the list and the hash of the client. -/
structure SameAtBothEnds (toLowerCase : String → String) (object : HeaderObject)
    (h : object.CaseDistinct toLowerCase) (filter : String → Bool) : Prop where
  list : fromObject toLowerCase object filter =
    fromObject toLowerCase (object.lowered toLowerCase h) filter
  hash : ∀ c nonce method path body signed,
    transactionHash c toLowerCase object filter nonce method path body = .ok signed →
      transactionHash c toLowerCase (delivered toLowerCase object h) filter nonce method path body =
        .ok signed

/-- The client can sign some request with these headers. -/
def CanSign (toLowerCase : String → String) (object : HeaderObject) (filter : String → Bool) : Prop :=
  ∃ c nonce method path body signed,
    transactionHash c toLowerCase object filter nonce method path body = .ok signed

/-- Lower case keeps the order of the names that are passed on. -/
def KeepsOrder (toLowerCase : String → String) (object : HeaderObject) (filter : String → Bool) : Prop :=
  ∀ a ∈ object.keys, ∀ b ∈ object.keys, header toLowerCase object filter a ≠ [] →
    header toLowerCase object filter b ≠ [] → nameLe a b → nameLe (toLowerCase a) (toLowerCase b)

/-- A content type under a third spelling of its name is no list, and is in lower case or not passed
on. -/
def ContentTypeLowered (toLowerCase : String → String) (object : HeaderObject) (filter : String → Bool) :
    Prop :=
  ∀ key ∈ object.keys, toLowerCase key = "content-type" → key ∉ contentTypeNames →
    isList (object.get key) = false ∧
      (filter "content-type" → lowerValue toLowerCase (object.get key) = object.get key)

section BothEnds

variable {toLowerCase : String → String} {object : HeaderObject} {filter : String → Bool}

/-- Each property is found under its name. -/
theorem get_of_mem {key : String} {value : Option HeaderValue}
    (h : (key, value) ∈ object.properties) : object.get key = value := by
  have hfind : object.properties.find? (fun property => property.1 = key) = some (key, value) := by
    have hnodup := object.nodup
    revert h hnodup
    generalize object.properties = properties
    induction properties with
    | nil => exact fun h => absurd h List.not_mem_nil
    | cons property properties ih =>
        intro h hnodup
        rw [List.map_cons, List.nodup_cons] at hnodup
        rcases List.mem_cons.mp h with rfl | hmem
        · exact List.find?_cons_of_pos (decide_eq_true rfl)
        · have hne : property.1 ≠ key := by
            rintro rfl
            exact hnodup.1 (List.mem_map.mpr ⟨_, hmem, rfl⟩)
          rw [List.find?_cons_of_neg (by simpa using hne)]
          exact ih hmem hnodup.2
  rw [HeaderObject.get, hfind]
  rfl

theorem keys_lowered (h : object.CaseDistinct toLowerCase) :
    (object.lowered toLowerCase h).keys = object.keys.map toLowerCase := by
  simp only [HeaderObject.keys, HeaderObject.lowered, List.map_map]
  rfl

theorem get_lowered (h : object.CaseDistinct toLowerCase) {key : String} (hkey : key ∈ object.keys) :
    (object.lowered toLowerCase h).get (toLowerCase key) = object.get key := by
  rcases List.mem_map.mp hkey with ⟨⟨_, value⟩, hmem, rfl⟩
  rw [get_of_mem hmem]
  exact get_of_mem (List.mem_map.mpr ⟨_, hmem, rfl⟩)

theorem name_of_mem_header {key : String} {entry : String × String}
    (h : entry ∈ header toLowerCase object filter key) : entry.1 = toLowerCase key := by
  simp only [header] at h
  split at h
  · unfold entries at h
    split at h
    · rcases List.mem_map.mp h with ⟨value, -, rfl⟩
      rfl
    · split at h
      · cases h
      · rw [List.mem_singleton.mp h]
    · cases h
  · cases h

/-- The two lists are the same if lower case keeps the order of the names that are passed on. -/
theorem fromObject_lowered_iff (hidem : ∀ text, toLowerCase (toLowerCase text) = toLowerCase text)
    (h : object.CaseDistinct toLowerCase) :
    fromObject toLowerCase object filter =
        fromObject toLowerCase (object.lowered toLowerCase h) filter ↔
      KeepsOrder toLowerCase object filter := by
  rw [fromObject, fromObject, keys_lowered]
  refine flatMap_mergeSort_iff nameLe_trans nameLe_total nameLe_antisymm h
    (fun key entry => name_of_mem_header) ?_
  intro key hkey
  simp only [header, hidem, get_lowered h hkey]

/-! ### The value of the content type -/

theorem get_of_notMem {key : String} (h : key ∉ object.keys) : object.get key = none := by
  have hfind : object.properties.find? (fun property => property.1 = key) = none := by
    refine List.find?_eq_none.mpr fun property hmem => ?_
    rw [decide_eq_true_iff]
    rintro rfl
    exact h (List.mem_map_of_mem hmem)
  rw [HeaderObject.get, hfind]
  rfl

theorem get_withContentType {key : String} (hkey : key ∈ object.keys) :
    (withContentType toLowerCase object).get key =
      if key ∈ contentTypeNames then lowerValue toLowerCase (object.get key) else object.get key := by
  rcases List.mem_map.mp hkey with ⟨⟨_, value⟩, hmem, rfl⟩
  rw [get_of_mem hmem]
  exact get_of_mem (List.mem_map.mpr ⟨_, hmem, rfl⟩)

theorem lowerValue_lowerValue (hidem : ∀ text, toLowerCase (toLowerCase text) = toLowerCase text)
    (value : Option HeaderValue) :
    lowerValue toLowerCase (lowerValue toLowerCase value) = lowerValue toLowerCase value := by
  rcases value with _ | text | values
  · rfl
  · simp only [lowerValue]
    split
    · rfl
    · rw [hidem, ite_self]
  · rfl

theorem isList_lowerValue (value : Option HeaderValue) :
    isList (lowerValue toLowerCase value) = isList value := by
  rcases value with _ | text | values
  · rfl
  · rfl
  · rfl

/-- The entries show whether the value was in lower case. -/
theorem entries_lowerValue_iff {name : String} {value : Option HeaderValue} :
    entries name (lowerValue toLowerCase value) = entries name value ↔
      lowerValue toLowerCase value = value := by
  refine ⟨?_, fun heq => by rw [heq]⟩
  rcases value with _ | text | values
  · exact fun _ => rfl
  · simp only [lowerValue, entries]
    split
    · exact fun _ => rfl
    · split
      · exact fun heq => absurd heq (by simp)
      · intro heq
        rw [(Prod.mk.inj (List.cons.inj heq).1).2]
  · exact fun _ => rfl

theorem entries_lowerValue_of_nil {name : String} {value : Option HeaderValue}
    (h : entries name value = []) : entries name (lowerValue toLowerCase value) = [] := by
  rcases value with _ | text | values
  · rfl
  · by_cases hempty : text = ""
    · subst hempty
      rfl
    · rw [entries, if_neg hempty] at h
      cases h
  · exact h

/-- A header that is passed on with the content type in lower case was passed on before. -/
theorem header_withContentType_ne_nil {key : String} (hkey : key ∈ object.keys)
    (h : header toLowerCase (withContentType toLowerCase object) filter key ≠ []) :
    header toLowerCase object filter key ≠ [] := by
  revert h
  simp only [header, get_withContentType hkey]
  split
  · split
    · exact mt entries_lowerValue_of_nil
    · exact id
  · exact id

theorem KeepsOrder.withContentType (h : KeepsOrder toLowerCase object filter) :
    KeepsOrder toLowerCase (withContentType toLowerCase object) filter := by
  intro a ha b hb hpassed hpassed'
  rw [keys_withContentType] at ha hb
  exact h a ha b hb (header_withContentType_ne_nil ha hpassed) (header_withContentType_ne_nil hb hpassed')

section Delivered

variable (hidem : ∀ text, toLowerCase (toLowerCase text) = toLowerCase text)
  (hname : toLowerCase "Content-Type" = "content-type") (h : object.CaseDistinct toLowerCase)

theorem keys_delivered : (delivered toLowerCase object h).keys = object.keys.map toLowerCase := by
  rw [delivered, keys_lowered, keys_withContentType]

theorem get_delivered {key : String} (hkey : key ∈ object.keys) :
    (delivered toLowerCase object h).get (toLowerCase key) =
      if key ∈ contentTypeNames then lowerValue toLowerCase (object.get key) else object.get key := by
  rw [delivered, get_lowered _ (by rwa [keys_withContentType]), get_withContentType hkey]

include hidem hname

/-- All names are in lower case, so one of the two spellings does not occur. -/
theorem get_delivered_upper : (delivered toLowerCase object h).get "Content-Type" = none := by
  refine get_of_notMem ?_
  rw [keys_delivered]
  intro hmem
  rcases List.mem_map.mp hmem with ⟨key, -, hkey⟩
  have hlower := hidem key
  rw [hkey, hname] at hlower
  exact absurd hlower (by decide)

/-- The gateway throws exactly if the content type is a list. -/
theorem pack_delivered : pack toLowerCase (delivered toLowerCase object h) filter =
    if isList ((delivered toLowerCase object h).get "content-type") then
      .error ⟨"headers[key].toLowerCase is not a function"⟩
    else .ok (fromObject toLowerCase (withContentType toLowerCase (delivered toLowerCase object h))
      filter) := by
  have hany : (contentTypeNames.any fun key => isList ((delivered toLowerCase object h).get key)) =
      isList ((delivered toLowerCase object h).get "content-type") := by
    simp [contentTypeNames, get_delivered_upper hidem hname h, isList]
  rw [pack, lowerContentType, hany]
  split
  · rfl
  · rfl

/-- Bringing the content type to lower case does not show if it is not passed on, or was so before. -/
theorem fromObject_delivered_iff :
    fromObject toLowerCase (delivered toLowerCase object h) filter =
        fromObject toLowerCase (withContentType toLowerCase (delivered toLowerCase object h)) filter ↔
      (filter "content-type" → lowerValue toLowerCase ((delivered toLowerCase object h).get "content-type") =
        (delivered toLowerCase object h).get "content-type") := by
  have hlower : toLowerCase "content-type" = "content-type" := by
    rw [← hname, hidem]
  have hkeys := keys_withContentType toLowerCase (delivered toLowerCase object h)
  have hnodup : ((delivered toLowerCase object h).keys.mergeSort nameLe).Nodup :=
    (List.mergeSort_perm _ _).nodup_iff.mpr (delivered toLowerCase object h).nodup
  have hoff : ∀ other ∈ (delivered toLowerCase object h).keys.mergeSort nameLe, other ≠ "content-type" →
      header toLowerCase (delivered toLowerCase object h) filter other =
        header toLowerCase (withContentType toLowerCase (delivered toLowerCase object h)) filter other := by
    intro other hother hne
    have hmem := List.mem_mergeSort.mp hother
    have hupper : other ≠ "Content-Type" := by
      rintro rfl
      rw [keys_delivered] at hmem
      rcases List.mem_map.mp hmem with ⟨key, -, hkey⟩
      have hlower' := hidem key
      rw [hkey, hname] at hlower'
      exact absurd hlower' (by decide)
    have hthird : other ∉ contentTypeNames := by simp [contentTypeNames, hne, hupper]
    simp only [header, get_withContentType hmem, if_neg hthird]
  rw [fromObject, fromObject, hkeys]
  by_cases hmem : "content-type" ∈ (delivered toLowerCase object h).keys
  · rw [flatMap_eq_iff_of_eq_off hnodup (List.mem_mergeSort.mpr hmem) hoff]
    simp only [header, hlower, get_withContentType hmem]
    rw [if_pos (by decide : "content-type" ∈ contentTypeNames)]
    split
    · rename_i hfilter
      rw [eq_comm, entries_lowerValue_iff]
      exact ⟨fun heq _ => heq, fun heq => heq hfilter⟩
    · rename_i hfilter
      exact iff_of_true rfl fun hpassed => absurd hpassed hfilter
  · refine iff_of_true ?_ ?_
    · refine List.flatMap_congr ?_
      intro other hother
      exact hoff other hother fun heq => hmem (heq ▸ List.mem_mergeSort.mp hother)
    · rw [get_of_notMem hmem]
      exact fun _ => rfl

end Delivered

/-! ### The hashes -/

/-- A hash function that tells some bytes from all others. -/
def singling (bytes : Bytes) : Crypto :=
  { Crypto.transparent with
    keccak256 := fun data => if data = bytes then Hash.zero else ⟨List.replicate 32 1, by simp⟩ }

theorem fromData_singling {bytes data : Bytes} :
    Hash.fromData (singling bytes) data = Hash.zero ↔ data = bytes := by
  show (if data = bytes then Hash.zero else _) = Hash.zero ↔ data = bytes
  split
  · rename_i h
    exact iff_of_true rfl h
  · rename_i h
    exact iff_of_false (by decide) h

/-- Two transactions that are hashed alike whatever the hash function are the same. -/
theorem transaction_unique {tx tx' : Transaction} {c : Crypto} {signed : Hash} (h : tx.hash c = .ok signed)
    (hsame : ∀ c signed, tx.hash c = .ok signed → tx'.hash c = .ok signed) : tx = tx' := by
  rcases Result.bind_eq_ok.mp h with ⟨bytes, hbytes, -⟩
  have hzero : tx.hash (singling bytes) = .ok Hash.zero :=
    Result.bind_eq_ok.mpr ⟨bytes, hbytes, congrArg Except.ok (fromData_singling.mpr rfl)⟩
  rcases Result.bind_eq_ok.mp (hsame _ Hash.zero hzero) with ⟨bytes', hbytes', hhash⟩
  obtain rfl : bytes' = bytes := fromData_singling.mp (Except.ok.inj hhash)
  have hreads := (Transaction.format c).reads_append hbytes []
  have hreads' := (Transaction.format c).reads_append hbytes' []
  exact (Transaction.format c).unique hreads hreads'

/-- A client that can sign has a content type that is no list, under the two spellings. -/
theorem pack_of_hash {c : Crypto} {nonce : Nat} {method path : String} {body : Bytes} {signed : Hash}
    (h : transactionHash c toLowerCase object filter nonce method path body = .ok signed) :
    (∀ key ∈ contentTypeNames, isList (object.get key) = false) ∧
      (⟨nonce, ⟨method, path, fromObject toLowerCase (withContentType toLowerCase object) filter, body⟩⟩ :
        Transaction).hash c = .ok signed := by
  rcases Result.bind_eq_ok.mp h with ⟨headers, hpack, hhash⟩
  rw [pack, lowerContentType] at hpack
  split at hpack
  · cases hpack
  · rename_i hlist
    cases hpack
    refine ⟨fun key hkey => ?_, hhash⟩
    by_contra htrue
    exact hlist (List.any_eq_true.mpr ⟨key, hkey, Bool.of_not_eq_false htrue⟩)

end BothEnds

/-- The gateway comes to the list and the hash that the client has signed, if and only if no two of the
headers that are passed on change their order in lower case, and the value of the content type is in
lower case where its name is not spelled as the client expects. -/
theorem sameAtBothEnds_iff (toLowerCase : String → String)
    (hidem : ∀ text, toLowerCase (toLowerCase text) = toLowerCase text)
    (hname : toLowerCase "Content-Type" = "content-type") (object : HeaderObject)
    (h : object.CaseDistinct toLowerCase) (filter : String → Bool) :
    SameAtBothEnds toLowerCase object h filter ↔
      KeepsOrder toLowerCase object filter ∧
        (CanSign toLowerCase object filter → ContentTypeLowered toLowerCase object filter) := by
  constructor
  · intro hsame
    have horder := (fromObject_lowered_iff hidem h).mp hsame.list
    refine ⟨horder, ?_⟩
    rintro ⟨c, nonce, method, path, body, signed, hsigned⟩ key hkey hlower hthird
    have hget := get_delivered h hkey
    rw [hlower, if_neg hthird] at hget
    have hsigned' := (pack_of_hash hsigned).2
    have hrebuilt : ∀ c signed,
        transactionHash c toLowerCase object filter nonce method path body = .ok signed →
          isList (object.get key) = false ∧
            (⟨nonce, ⟨method, path, fromObject toLowerCase
              (withContentType toLowerCase (delivered toLowerCase object h)) filter, body⟩⟩ :
                Transaction).hash c = .ok signed := by
      intro c signed hsigned
      have hgateway := hsame.hash c nonce method path body signed hsigned
      rw [transactionHash, pack_delivered hidem hname h, hget] at hgateway
      split at hgateway
      · cases hgateway
      · rename_i hlist
        exact ⟨Bool.of_not_eq_true hlist, hgateway⟩
    refine ⟨(hrebuilt c signed hsigned).1, ?_⟩
    have hpack : pack toLowerCase object filter =
        .ok (fromObject toLowerCase (withContentType toLowerCase object) filter) := by
      rw [pack, lowerContentType, if_neg]
      · rfl
      · intro hany
        rcases List.any_eq_true.mp hany with ⟨other, hother, hlist⟩
        rw [(pack_of_hash hsigned).1 other hother] at hlist
        cases hlist
    have heq := transaction_unique hsigned' fun c signed hhash =>
      (hrebuilt c signed (by rw [transactionHash, hpack]; exact hhash)).2
    have hlists : fromObject toLowerCase (withContentType toLowerCase object) filter =
        fromObject toLowerCase (withContentType toLowerCase (delivered toLowerCase object h)) filter :=
      congrArg (fun tx : Transaction => tx.request.headers) heq
    have hfirst := (fromObject_lowered_iff hidem (caseDistinct_withContentType h)).mpr
      horder.withContentType
    have hdelivered := (fromObject_delivered_iff hidem hname h).mp (hfirst.symm.trans hlists)
    rwa [hget] at hdelivered
  · rintro ⟨horder, hcontent⟩
    refine ⟨(fromObject_lowered_iff hidem h).mpr horder, ?_⟩
    intro c nonce method path body signed hsigned
    have hlowered := hcontent ⟨c, nonce, method, path, body, signed, hsigned⟩
    rcases pack_of_hash hsigned with ⟨hlist, hhash⟩
    have hfirst := (fromObject_lowered_iff hidem (caseDistinct_withContentType h)).mpr
      horder.withContentType
    -- what the gateway finds under the name is no list and in lower case
    have hvalue : isList ((delivered toLowerCase object h).get "content-type") = false ∧
        (filter "content-type" →
          lowerValue toLowerCase ((delivered toLowerCase object h).get "content-type") =
            (delivered toLowerCase object h).get "content-type") := by
      by_cases hmem : "content-type" ∈ (delivered toLowerCase object h).keys
      · rw [keys_delivered] at hmem
        rcases List.mem_map.mp hmem with ⟨key, hkey, hlower⟩
        have hget := get_delivered h hkey
        rw [hlower] at hget
        rw [hget]
        split
        · rename_i hspelled
          rw [isList_lowerValue, lowerValue_lowerValue hidem]
          exact ⟨hlist key hspelled, fun _ => rfl⟩
        · rename_i hthird
          exact hlowered key hkey hlower hthird
      · rw [get_of_notMem hmem]
        exact ⟨rfl, fun _ => rfl⟩
    have hsecond := (fromObject_delivered_iff hidem hname h).mpr hvalue.2
    rw [transactionHash, pack_delivered hidem hname h, if_neg (by rw [hvalue.1]; decide), ← hsecond,
      delivered, ← hfirst]
    exact hhash

/-! ## Names in ASCII -/

/-- `toLowerCase` on names in ASCII, as those of headers are. -/
def asciiLower (text : String) : String := String.ofList (text.toList.map Char.toLower)

theorem toLower_toLower (c : Char) : c.toLower.toLower = c.toLower := by
  by_cases h : c.val ≥ 'A'.val ∧ c.val ≤ 'Z'.val
  · -- what comes out is above the upper case letters
    have hval : c.toLower.val = c.val + ('a'.val - 'A'.val) := by
      unfold Char.toLower
      rw [dif_pos h]
    have hnot : ¬(c.toLower.val ≥ 'A'.val ∧ c.toLower.val ≤ 'Z'.val) := by
      rw [hval]
      rintro ⟨-, hle⟩
      rcases h with ⟨hmin, hmax⟩
      have hA : 'A'.val.toNat = 65 := rfl
      have hZ : 'Z'.val.toNat = 90 := rfl
      have hshift : ('a'.val - 'A'.val).toNat = 32 := rfl
      rw [UInt32.le_iff_toNat_le, UInt32.toNat_add] at hle
      rw [ge_iff_le, UInt32.le_iff_toNat_le] at hmin
      rw [UInt32.le_iff_toNat_le] at hmax
      omega
    generalize c.toLower = d at hnot
    unfold Char.toLower
    rw [dif_neg hnot]
  · have hself : c.toLower = c := by
      unfold Char.toLower
      rw [dif_neg h]
    rw [hself, hself]

theorem asciiLower_idempotent (text : String) : asciiLower (asciiLower text) = asciiLower text := by
  rw [asciiLower, asciiLower, String.toList_ofList, List.map_map]
  refine congrArg String.ofList (List.map_congr_left ?_)
  intro c _
  exact toLower_toLower c

/-- A client that names its headers as it pleases. -/
def sampleHeaders : HeaderObject where
  properties := [("accept", some (.text "text/html")), ("Content-Type", some (.text "text/plain")),
    ("Uniqys-Include-Headers", some (.text "Content-Type, Accept")), ("X-Trace", none)]
  nodup := by decide +kernel

theorem sameAtBothEnds_iff_sample :
    SameAtBothEnds asciiLower sampleHeaders (by decide +kernel) (isIncluded ["content-type"]) ↔
      KeepsOrder asciiLower sampleHeaders (isIncluded ["content-type"]) ∧
        (CanSign asciiLower sampleHeaders (isIncluded ["content-type"]) →
          ContentTypeLowered asciiLower sampleHeaders (isIncluded ["content-type"])) :=
  sameAtBothEnds_iff asciiLower asciiLower_idempotent (by decide +kernel) sampleHeaders
    (by decide +kernel) _

/-- `Content-Type` comes before `accept`, and `content-type` after it. -/
theorem not_sameAtBothEnds :
    ¬ ∀ (object : HeaderObject) (h : object.CaseDistinct asciiLower) (filter : String → Bool),
      SameAtBothEnds asciiLower object h filter := by
  intro h
  have hlist := (h sampleHeaders (by decide +kernel) (isIncluded ["content-type", "accept"])).list
  have hkeeps := (fromObject_lowered_iff asciiLower_idempotent _).mp hlist "Content-Type"
    (by decide +kernel) "accept" (by decide +kernel) (by decide +kernel) (by decide +kernel)
    (by decide +kernel)
  exact absurd hkeeps (by decide +kernel)

end HttpHeaders

end EasyFramework
end UniqysKit
