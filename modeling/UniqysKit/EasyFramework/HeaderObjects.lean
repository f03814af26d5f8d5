import UniqysKit.EasyFramework.Transaction
import UniqysKit.Library.EntryMap

/-!
# Headers as objects

`HttpHeaders.toObject` of `packages/easy-types`.  The object it fills has inherited properties from the
start: what is looked up under the name of one of them is there before any header is, and `__proto__`
is no property to write to, but the prototype.  What is there is tested for truth, and an empty text is
false.
-/

namespace UniqysKit
namespace EasyFramework

open Library

/-! ## Plain objects -/

/-- What can be in an array of header values. -/
inductive HeaderItem
  | string (value : String)
  | number (value : Nat)
  /-- an inherited method -/
  | function (name : String)
  | objectPrototype
  deriving DecidableEq

inductive Property
  | item (value : HeaderItem)
  | array (items : List HeaderItem)
  deriving DecidableEq

/-- The methods that every object inherits. -/
def objectMethods : List String :=
  ["constructor", "hasOwnProperty", "isPrototypeOf", "propertyIsEnumerable", "toLocaleString",
    "toString", "valueOf", "__defineGetter__", "__defineSetter__", "__lookupGetter__",
    "__lookupSetter__"]

/-- An object that begins as `{}`.  The order of its properties is of no account. -/
structure PlainObject where
  own : EntryMap String Property
  /-- The array that is its prototype, where it is no longer `Object.prototype`. -/
  proto : Option (List HeaderItem)

namespace PlainObject

def empty : PlainObject := ⟨.empty, none⟩

/-- The element of an array under the decimal digits of its place. -/
def element (items : List HeaderItem) (field : String) : Option HeaderItem :=
  (items.zipIdx.find? fun (_, i) => toString i = field).map Prod.fst

/-- What is found in `Object.prototype`. -/
def objectProperty (field : String) : Option Property :=
  if field ∈ objectMethods then some (.item (.function field)) else none

/-- What is found in the prototype.  Which methods arrays have is told by `arrayMethod`. -/
def inherited (arrayMethod : String → Bool) (object : PlainObject) (field : String) :
    Option Property :=
  match object.proto with
  | none => if field = "__proto__" then some (.item .objectPrototype) else objectProperty field
  | some items =>
      if field = "__proto__" then some (.array items)
      else if field = "length" then some (.item (.number items.length))
      else match element items field with
        | some item => some (.item item)
        | none =>
            if arrayMethod field then some (.item (.function field)) else objectProperty field

/-- `object[field]`. -/
def get (arrayMethod : String → Bool) (object : PlainObject) (field : String) : Option Property :=
  match object.own.get field with
  | some property => some property
  | none => object.inherited arrayMethod field

/-- `object[field] = property`, where all that is inherited can be overwritten.  The setter of
`__proto__` takes an array for the prototype, and ignores a text. -/
def set (object : PlainObject) (field : String) (property : Property) : PlainObject :=
  if field = "__proto__" then
    match property with
    | .array items => { object with proto := some items }
    | .item _ => object
  else { object with own := object.own.set field property }

theorem set_of_ne {object : PlainObject} {field : String} {property : Property}
    (hne : field ≠ "__proto__") :
    object.set field property = { object with own := object.own.set field property } :=
  if_neg hne

theorem own_set_proto {object : PlainObject} {property : Property} :
    (object.set "__proto__" property).own = object.own := by
  cases property with
  | item value => rfl
  | array items => rfl

end PlainObject

/-! ## The conversion -/

namespace Property

def truthy : Property → Bool
  | item (.string value) => value ≠ ""
  | item (.number value) => value ≠ 0
  | _ => true

/-- The property as an array. -/
def items : Property → List HeaderItem
  | item value => [value]
  | array items => items

end Property

namespace HttpHeaders

def deserialize : Deserializer (List (String × String)) :=
  List.deserialize HttpRequest.deserializeHeader

/-- What a header makes of what is there. -/
def grow (existing : Option Property) (value : String) : Property :=
  match existing with
  | some property =>
      if property.truthy then .array (property.items ++ [.string value]) else .item (.string value)
  | none => .item (.string value)

/-- A turn of the loop of `toObject`.  The array that is pushed to is the one under the field, also
where it has only now been put there. -/
def put (arrayMethod : String → Bool) (object : PlainObject) (header : String × String) :
    PlainObject :=
  object.set header.1 (grow (object.get arrayMethod header.1) header.2)

def toObject (arrayMethod : String → Bool) (list : List (String × String)) : PlainObject :=
  list.foldl (put arrayMethod) .empty

/-! ## What the object is to say -/

/-- The values of a field in the order of the list. -/
def values (field : String) (list : List (String × String)) : List String :=
  list.filterMap fun header => if header.1 = field then some header.2 else none

/-- A text, or an array where the field is repeated. -/
def represent : List String → Option Property
  | [] => none
  | [value] => some (.item (.string value))
  | values => some (.array (values.map .string))

/-- The object has exactly the fields of the list, each with its values. -/
def Survives (arrayMethod : String → Bool) (list : List (String × String)) : Prop :=
  (∀ field, field ∈ (toObject arrayMethod list).own.keys ↔ field ∈ list.map Prod.fst) ∧
    ∀ field ∈ list.map Prod.fst,
      (toObject arrayMethod list).own.get field = represent (values field list)

/-- No field has the name of an inherited property, and none that is repeated begins with an empty
value. -/
def Plain (list : List (String × String)) : Prop :=
  ∀ field ∈ list.map Prod.fst, field ≠ "__proto__" ∧ field ∉ objectMethods ∧
    ∀ rest, values field list = "" :: rest → rest = []

/-! ## Fields one by one -/

section Fields

variable {arrayMethod : String → Bool} {object : PlainObject} {field : String}

theorem own_put_other {header : String × String} (hne : field ≠ header.1) :
    (put arrayMethod object header).own.get field = object.own.get field := by
  by_cases hproto : header.1 = "__proto__"
  · -- the setter leaves the properties of the object alone
    rw [put, hproto, PlainObject.own_set_proto]
  · rw [put, PlainObject.set_of_ne hproto]
    exact EntryMap.get_set.trans (if_neg hne)

theorem own_put_self {header : String × String} (hproto : header.1 ≠ "__proto__") :
    (put arrayMethod object header).own.get header.1 =
      some (grow (object.get arrayMethod header.1) header.2) := by
  rw [put, PlainObject.set_of_ne hproto]
  exact EntryMap.get_set.trans (if_pos rfl)

theorem proto_put {header : String × String} (hproto : header.1 ≠ "__proto__") :
    (put arrayMethod object header).proto = object.proto := by
  rw [put, PlainObject.set_of_ne hproto]

/-- `__proto__` never becomes a property of the object itself. -/
theorem own_put_proto (header : String × String) (h : object.own.get "__proto__" = none) :
    (put arrayMethod object header).own.get "__proto__" = none := by
  by_cases hproto : header.1 = "__proto__"
  · rw [put, hproto, PlainObject.own_set_proto]
    exact h
  · rw [own_put_other (Ne.symm hproto)]
    exact h

theorem own_foldl_proto (list : List (String × String)) (h : object.own.get "__proto__" = none) :
    (list.foldl (put arrayMethod) object).own.get "__proto__" = none := by
  induction list generalizing object with
  | nil => exact h
  | cons header list ih => exact ih (own_put_proto header h)

theorem get_of_proto (hobject : object.proto = none) (hfield : field ≠ "__proto__") :
    object.get arrayMethod field =
      (object.own.get field).or (PlainObject.objectProperty field) := by
  rw [PlainObject.get]
  cases object.own.get field with
  | some property => rfl
  | none =>
      rw [PlainObject.inherited, hobject]
      exact if_neg hfield

/-- One more value under a field that has its place on the object itself. -/
def growField (field : String) (own : Option Property) (value : String) : Option Property :=
  some (grow (own.or (PlainObject.objectProperty field)) value)

/-- Without `__proto__` each field goes its own way. -/
theorem own_foldl (list : List (String × String)) (hproto : "__proto__" ∉ list.map Prod.fst)
    (hobject : object.proto = none) (hfield : field ≠ "__proto__") :
    (list.foldl (put arrayMethod) object).own.get field =
      (values field list).foldl (growField field) (object.own.get field) := by
  induction list generalizing object with
  | nil => rfl
  | cons header list ih =>
      rw [List.map_cons, List.mem_cons, not_or] at hproto
      have hheader : header.1 ≠ "__proto__" := Ne.symm hproto.1
      rw [List.foldl_cons, ih hproto.2 ((proto_put hheader).trans hobject)]
      by_cases hsame : header.1 = field
      · have hvalues : values field (header :: list) = header.2 :: values field list := by
          simp [values, hsame]
        rw [hvalues, List.foldl_cons, growField, ← get_of_proto hobject hfield, ← hsame,
          own_put_self hheader]
      · have hvalues : values field (header :: list) = values field list := by
          simp [values, hsame]
        rw [hvalues, own_put_other (Ne.symm hsame)]

theorem foldl_array (field : String) (items : List HeaderItem) (vs : List String) :
    vs.foldl (growField field) (some (.array items)) =
      some (.array (items ++ vs.map .string)) := by
  induction vs generalizing items with
  | nil => simp
  | cons value vs ih =>
      rw [List.foldl_cons, List.map_cons, ← List.singleton_append, ← List.append_assoc]
      exact ih (items ++ [.string value])

/-- A text that is not empty becomes an array with the value after it. -/
theorem foldl_text {value : String} (h : value ≠ "") (next : String) (vs : List String) :
    (next :: vs).foldl (growField field) (some (.item (.string value))) =
      some (.array ((value :: next :: vs).map .string)) := by
  have hgrow : growField field (some (.item (.string value))) next =
      some (.array [.string value, .string next]) := by
    simp [growField, grow, Property.truthy, Property.items, h]
  rw [List.foldl_cons, hgrow, foldl_array]
  rfl

/-- An inherited method goes before the values. -/
theorem foldl_method (h : field ∈ objectMethods) (value : String) (vs : List String) :
    (value :: vs).foldl (growField field) none =
      some (.array (.function field :: (value :: vs).map .string)) := by
  have hgrow : growField field none value = some (.array [.function field, .string value]) := by
    simp [growField, grow, PlainObject.objectProperty, h, Property.truthy, Property.items]
  rw [List.foldl_cons, hgrow, foldl_array]
  rfl

/-- How many values there are in a property. -/
def itemCount (property : Option Property) : Nat := (property.map fun p => p.items.length).getD 0

theorem itemCount_represent (vs : List String) : itemCount (represent vs) = vs.length := by
  cases vs with
  | nil => rfl
  | cons value vs =>
      cases vs with
      | nil => rfl
      | cons next vs => simp [represent, itemCount, Property.items]

section Plain

variable (h : field ∉ objectMethods)

include h

theorem growField_none (value : String) :
    growField field none value = some (.item (.string value)) := by
  simp [growField, grow, PlainObject.objectProperty, h]

theorem foldl_plain {vs : List String} (hempty : ∀ rest, vs = "" :: rest → rest = []) :
    vs.foldl (growField field) none = represent vs := by
  cases vs with
  | nil => rfl
  | cons value vs =>
      rw [List.foldl_cons, growField_none h]
      cases vs with
      | nil => rfl
      | cons next vs =>
          -- the first of several values is not empty, so the next one finds it
          have hvalue : value ≠ "" := by
            rintro rfl
            exact List.cons_ne_nil next vs (hempty _ rfl)
          exact foldl_text hvalue next vs

/-- An empty value is overwritten by the next one, and nothing makes up for it. -/
theorem itemCount_foldl (own : Option Property) (vs : List String) :
    itemCount (vs.foldl (growField field) own) ≤ itemCount own + vs.length := by
  induction vs generalizing own with
  | nil => simp
  | cons value vs ih =>
      -- a turn adds one value to what is there, or puts one in its place
      have hgrow : itemCount (growField field own value) ≤ itemCount own + 1 := by
        cases own with
        | none => simp [growField_none h, itemCount, Property.items]
        | some property =>
            simp only [growField, grow, Option.some_or]
            split
            · simp [itemCount, Property.items]
            · simp [itemCount, Property.items]
      rw [List.foldl_cons, List.length_cons]
      have hrest := ih (growField field own value)
      omega

theorem foldl_ne_of_empty {next : String} {vs : List String} :
    ("" :: next :: vs).foldl (growField field) none ≠ represent ("" :: next :: vs) := by
  intro heq
  have hnext : growField field (growField field none "") next = some (.item (.string next)) := by
    rw [growField_none h]
    simp [growField, grow, Property.truthy]
  have hcount := itemCount_foldl h (some (.item (.string next))) vs
  rw [List.foldl_cons, List.foldl_cons, hnext] at heq
  rw [heq, itemCount_represent] at hcount
  simp [itemCount, Property.items] at hcount
  omega

end Plain

end Fields

/-! ## When the headers survive -/

theorem values_eq_nil {field : String} {list : List (String × String)} :
    values field list = [] ↔ field ∉ list.map Prod.fst := by
  rw [values, List.filterMap_eq_nil_iff, List.mem_map, not_exists]
  constructor
  · rintro hnone header ⟨hmem, rfl⟩
    simpa using hnone header hmem
  · intro hnot header hmem
    exact if_neg fun hfield => hnot header ⟨hmem, hfield⟩

theorem isSome_represent {vs : List String} : (represent vs).isSome ↔ vs ≠ [] := by
  cases vs with
  | nil => simp [represent]
  | cons value vs =>
      cases vs with
      | nil => simp [represent]
      | cons next vs => simp [represent]

theorem represent_ne_method {name : String} {items : List HeaderItem} (vs : List String) :
    represent vs ≠ some (.array (.function name :: items)) := by
  cases vs with
  | nil => simp [represent]
  | cons value vs =>
      cases vs with
      | nil => simp [represent]
      | cons next vs => simp [represent]

section Survives

variable {arrayMethod : String → Bool} {list : List (String × String)} {field : String}

theorem get_toObject (hproto : "__proto__" ∉ list.map Prod.fst) (hfield : field ≠ "__proto__") :
    (toObject arrayMethod list).own.get field = (values field list).foldl (growField field) none :=
  own_foldl list hproto rfl hfield

theorem Survives.proto_not_mem (h : Survives arrayMethod list) :
    "__proto__" ∉ list.map Prod.fst := by
  intro hmem
  have hkey := EntryMap.isSome_get.mpr ((h.1 "__proto__").mpr hmem)
  have hnone : (toObject arrayMethod list).own.get "__proto__" = none :=
    own_foldl_proto list EntryMap.get_empty
  rw [hnone] at hkey
  cases hkey

theorem Survives.plain (h : Survives arrayMethod list) : Plain list := by
  have hproto := h.proto_not_mem
  intro field hmem
  have hfield : field ≠ "__proto__" := by
    rintro rfl
    exact hproto hmem
  have hvalues := h.2 field hmem
  rw [get_toObject hproto hfield] at hvalues
  obtain ⟨value, vs, hcons⟩ : ∃ value vs, values field list = value :: vs :=
    List.exists_cons_of_ne_nil fun hnil => values_eq_nil.mp hnil hmem
  have hmethod : field ∉ objectMethods := by
    intro hmethod
    rw [hcons, foldl_method hmethod] at hvalues
    exact represent_ne_method _ hvalues.symm
  refine ⟨hfield, hmethod, ?_⟩
  intro rest hempty
  cases rest with
  | nil => rfl
  | cons next vs =>
      rw [hempty] at hvalues
      exact absurd hvalues (foldl_ne_of_empty hmethod)

theorem Plain.get_toObject (h : Plain list) (hmem : field ∈ list.map Prod.fst) :
    (toObject arrayMethod list).own.get field = represent (values field list) := by
  rcases h field hmem with ⟨hfield, hmethod, hempty⟩
  have hproto : "__proto__" ∉ list.map Prod.fst := fun hmem => (h _ hmem).1 rfl
  rw [HttpHeaders.get_toObject hproto hfield, foldl_plain hmethod hempty]

theorem Plain.survives (h : Plain list) : Survives arrayMethod list := by
  have hproto : "__proto__" ∉ list.map Prod.fst := fun hmem => (h _ hmem).1 rfl
  refine ⟨?_, fun field hmem => h.get_toObject hmem⟩
  intro field
  rw [← EntryMap.isSome_get]
  by_cases hmem : field ∈ list.map Prod.fst
  · refine iff_of_true ?_ hmem
    rw [h.get_toObject hmem, isSome_represent]
    exact fun hnil => values_eq_nil.mp hnil hmem
  · -- a name that is not in the list is never written to
    refine iff_of_false ?_ hmem
    by_cases hfield : field = "__proto__"
    · subst hfield
      rw [toObject, own_foldl_proto list EntryMap.get_empty]
      exact Bool.false_ne_true
    · rw [HttpHeaders.get_toObject hproto hfield, values_eq_nil.mpr hmem]
      exact Bool.false_ne_true

end Survives

/-- The headers survive exactly if no field has the name of an inherited property and no field that is
repeated begins with an empty value. -/
theorem survives_iff (arrayMethod : String → Bool) (list : List (String × String)) :
    Survives arrayMethod list ↔ Plain list :=
  ⟨Survives.plain, Plain.survives⟩

example : (toObject (fun name => name = "push")
      [("fizz", "buzz"), ("fizz", "bee"), ("fizz", "biz"), ("foo", "bar")]).own.entries =
    [("fizz", .array [.string "buzz", .string "bee", .string "biz"]),
      ("foo", .item (.string "bar"))] := by
  decide

/-- An empty value before another one is lost, which is a list that is read from bytes. A function is
added to the value of `constructor`, and `__proto__` is no key. -/
theorem not_survives_emptyFirst :
    deserialize [0, 0, 0, 2, 0, 0, 0, 1, 120, 0, 0, 0, 0, 0, 0, 0, 1, 120, 0, 0, 0, 1, 97] =
        .ok ([("x", ""), ("x", "a")], []) ∧
      ¬ Survives (fun name => name = "push") [("x", ""), ("x", "a")] ∧
      ¬ Survives (fun name => name = "push") [("constructor", "a")] ∧
      ¬ Survives (fun name => name = "push") [("__proto__", "a")] := by
  refine ⟨by decide, ?_, ?_, ?_⟩
  · intro h
    exact List.cons_ne_nil _ _ ((h.plain "x" (by decide)).2.2 ["a"] (by decide))
  · intro h
    exact (h.plain "constructor" (by decide)).2.1 (by decide)
  · intro h
    exact (h.plain "__proto__" (by decide)).1 rfl

end HttpHeaders

end EasyFramework
end UniqysKit
