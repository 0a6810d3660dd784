/-
Building the dictionary (dict.cpp): `dict_addvendor`, `dict_addattr`,
`dict_addvalue`, and the parts of `process_vendor` and `dict_init` around
them, with the static caches `last_vendor` and `last_attr`.

Vendors and attributes are objects of the pool: their address is their
index in it, and a table holds addresses, since the same object stands in
two tables and is changed through either. `dict_free` deletes the pool, so
an address from before reads freed memory. `fr_pool_free` does nothing, and
`fr_pool_alloc` and `malloc` succeed. A table is a finite map; a name is
its key without case.

The functions that consult a cache take the lookup as a parameter, which is
the cached one in the source and the plain one of the tables for the
dictionary without caches. Values never change once they are in a table,
so they are stored as such.
-/
import WinRadius.Lib.FiniteMap
import WinRadius.Model.Detail
import WinRadius.Model.Types

namespace WinRadius

open Lib

-- ======== objects

/-- `DICT_VENDOR`. -/
structure PoolVendor where
  name : List UInt8
  vendorpec : Int
  type : Int := 1
  length : Int := 1
  flags : Int := 0
deriving Repr, DecidableEq

/-- `DICT_ATTR`, with the flags only the dictionary has. -/
structure PoolAttr where
  name : List UInt8
  attr : Nat
  type : PwType
  vendor : Int
  flags : AttrFlags := {}
  array : Bool := false
  hasValue : Bool := false
  hasValueAlias : Bool := false
deriving Repr, DecidableEq

/-- `DICT_VALUE`. -/
structure PoolValue where
  attr : Nat := 0
  value : Int
  name : List UInt8
deriving Repr, DecidableEq

/-- The tables, the pool, and the other variables that last. -/
structure Tables where
  vendors : List (Option PoolVendor) := []
  attrs : List (Option PoolAttr) := []
  vendorsByname : AList fun _ : List UInt8 => Nat := ∅
  vendorsByvalue : AList fun _ : Int => Nat := ∅
  attributesByname : AList fun _ : List UInt8 => Nat := ∅
  attributesByvalue : AList fun _ : Int × Nat => Nat := ∅
  valuesByname : AList fun _ : Nat × List UInt8 => PoolValue := ∅
  valuesByvalue : AList fun _ : Nat × Int => PoolValue := ∅
  baseAttrs : AList fun _ : Int => Nat := ∅
  /-- `value_fixup`, from its head on -/
  valueFixup : List (List UInt8 × PoolValue) := []
  maxAttr : Int := 0

/-- The key of a name: `strcasecmp` and `dict_hashname` do not see case. -/
def nameKey (name : List UInt8) : List UInt8 := name.map toLower

/-- An object of the pool. -/
def poolGet {α : Type} (pool : List (Option α)) (a : Nat) : Mem α :=
  match pool[a]? with
  | some (some x) => pure x
  | _ => throw .overread

/-- What `fr_strerror` is left with. -/
inductive DictError where
  | vendorId | vendorName | vendorDuplicate (name : List UInt8)
  | attrName | attrNegative | attrLarge | attrLarger
  | subTlvEncrypted | tlvEncrypted | subTlvTag | tlvTag | unknownVendor
  | attrDuplicate (name : List UInt8)
  | valueEmpty | valueName | valueAlias (attrstr : List UInt8)
  | valueByte | valueShort | valueType (type : PwType)
  | valueDuplicate (name attrstr : List UInt8)
  | fixupAttr (attrstr name : List UInt8)
deriving Repr, DecidableEq

-- ======== vendors

/-- `dict_vendorbyvalue`. -/
def dictVendorbyvalue (t : Tables) (vendorpec : Int) : Option Nat :=
  t.vendorsByvalue.lookup vendorpec

/-- `dict_addvendor`. -/
def addvendor (t : Tables) (name : List UInt8) (value : Int) :
    Mem (Tables × Except DictError Unit) :=
  if 65535 < value then return (t, .error .vendorId)
  else if 128 ≤ name.length then return (t, .error .vendorName)
  else
    let dv : PoolVendor := { name, vendorpec := value }
    let a := t.vendors.length
    let t := { t with vendors := t.vendors ++ [some dv] }
    match t.vendorsByname.lookup (nameKey name) with
    | some old => do
        let old ← poolGet t.vendors old
        if old.vendorpec ≠ value then
          return (t, .error (.vendorDuplicate name))
        return (t, .ok ()) -- Already inserted.
    | none =>
        return ({ t with
          vendorsByname := t.vendorsByname.insert (nameKey name) a
          vendorsByvalue := t.vendorsByvalue.insert value a }, .ok ())

/-- The end of `process_vendor`, for a format that has been read. -/
def setFormat (t : Tables) (value type length flags : Int) : Mem Tables :=
  match dictVendorbyvalue t value with
  | none => return t
  | some a => do
      let dv ← poolGet t.vendors a
      return { t with
        vendors := t.vendors.set a (some { dv with type, length, flags }) }

-- ======== attributes

/-- `dict_attrbyname`. -/
def dictAttrbyname (t : Tables) (name : List UInt8) : Option Nat :=
  t.attributesByname.lookup (nameKey (name.take 128))

/-- The number an attribute gets; none where it exists already. -/
def attrNumber (t : Tables) (name : List UInt8) (vendor value : Int) :
    Tables × Option Int :=
  if value = -1 then
    if (dictAttrbyname t name).isSome then (t, none)
    else ({ t with maxAttr := t.maxAttr + 1 }, some (t.maxAttr + 1))
  else if vendor = 0 ∧ t.maxAttr < value then
    ({ t with maxAttr := value }, some value)
  else (t, some value)

/-- What the flags of a vendor's attribute may not be. -/
def tlvError (flags : AttrFlags) : Option DictError :=
  if flags.isTlv ∧ flags.encrypt ≠ .none then some .subTlvEncrypted
  else if flags.hasTlv ∧ flags.encrypt ≠ .none then some .tlvEncrypted
  else if flags.isTlv ∧ flags.hasTag then some .subTlvTag
  else if flags.hasTlv ∧ flags.hasTag then some .tlvTag
  else none

/-- `attr->attr`: the number with the vendor above it. -/
def attrWord (vendor value : Int) : Nat :=
  (value + vendor * 65536 % 4294967296).toNat

/-- An attribute of the same name leaves the table of values; none where
it has another number. -/
def removeOld (t : Tables) (name : List UInt8) (attr : Nat) :
    Mem (Option Tables) :=
  match t.attributesByname.lookup (nameKey name) with
  | none => return some t
  | some old => do
      let a ← poolGet t.attrs old
      if a.attr ≠ attr then return none
      return some { t with
        attributesByvalue := t.attributesByvalue.erase (a.vendor, a.attr) }

/-- From `Create a new attribute for the list` on. -/
def enterAttr (t : Tables) (name : List UInt8) (vendor : Int)
    (type : PwType) (value : Int) (flags : AttrFlags) (array : Bool) :
    Mem (Tables × Except DictError Unit) := do
  let attr : PoolAttr := {
    name, attr := attrWord vendor value, type, vendor, flags, array }
  let a := t.attrs.length
  let t := { t with attrs := t.attrs ++ [some attr] }
  match ← removeOld t name attr.attr with
  | none => return (t, .error (.attrDuplicate name))
  | some t =>
      let t := { t with
        attributesByname := t.attributesByname.insert (nameKey name) a
        attributesByvalue :=
          t.attributesByvalue.insert (vendor, attr.attr) a }
      if vendor = 0 ∧ 0 < value ∧ value < 256 then
        return ({ t with baseAttrs := t.baseAttrs.insert value a }, .ok ())
      return (t, .ok ())

-- ======== values

/-- `dict_valbyname`. -/
def dictValbyname (t : Tables) (attr : Nat) (name : List UInt8) :
    Option PoolValue :=
  let attr :=
    match t.valuesByname.lookup (attr, []) with
    | some dv => (dv.value % 4294967296).toNat
    | none => attr
  t.valuesByname.lookup (attr, nameKey (name.take 128))

/-- Enforce valid values. -/
def valueError (type : PwType) (value : Int) : Option DictError :=
  match type with
  | .byte => if 255 < value then some .valueByte else none
  | .short => if 65535 < value then some .valueShort else none
  | .octets | .integer => none
  | type => some (.valueType type)

/-- From `Remember which attribute is associated` on, for an attribute
that was found. -/
def enterValue (t : Tables) (namestr attrstr : List UInt8) (value : Int)
    (a : Nat) : Mem (Tables × Except DictError Unit) := do
  let dattr ← poolGet t.attrs a
  if dattr.hasValueAlias then return (t, .error (.valueAlias attrstr))
  match valueError dattr.type value with
  | some e => return (t, .error e)
  | none =>
      let dval : PoolValue := { attr := dattr.attr, value, name := namestr }
      let t := { t with
        attrs := t.attrs.set a (some { dattr with hasValue := true }) }
      let key := (dattr.attr, nameKey namestr)
      if (t.valuesByname.lookup key).isSome then
        match dictValbyname t dattr.attr namestr with
        | some old =>
            if old.value = value then return (t, .ok ())
            return (t, .error (.valueDuplicate namestr attrstr))
        | none => return (t, .error (.valueDuplicate namestr attrstr))
      return ({ t with
        valuesByname := t.valuesByname.insert key dval
        valuesByvalue :=
          t.valuesByvalue.insert (dattr.attr, value) dval }, .ok ())

/-- An attribute that is not there yet: the value waits. -/
def waitValue (t : Tables) (namestr attrstr : List UInt8) (value : Int) :
    Tables :=
  { t with valueFixup :=
      (attrstr.take 127, { value, name := namestr }) :: t.valueFixup }

/-- The end of `dict_init`: the values that waited. -/
def fixups : List (List UInt8 × PoolValue) → Tables →
    Mem (Tables × Except DictError Unit)
  | [], t => return ({ t with valueFixup := [] }, .ok ())
  | (attrstr, dval) :: rest, t =>
      match dictAttrbyname t attrstr with
      | none => return (t, .error (.fixupAttr attrstr dval.name))
      | some a => do
          let dattr ← poolGet t.attrs a
          let dval := { dval with attr := dattr.attr }
          let t := { t with valuesByname :=
            t.valuesByname.insert (dval.attr, nameKey dval.name) dval }
          let t := { t with valuesByvalue :=
            if (t.valuesByvalue.lookup (dval.attr, dval.value)).isSome then
              t.valuesByvalue
            else t.valuesByvalue.insert (dval.attr, dval.value) dval }
          fixups rest { t with valueFixup := rest }

/-- `dict_free`, and the tables `dict_init` creates behind it. The pool is
gone; the other variables stay. -/
def freshTables (t : Tables) : Tables where
  vendors := t.vendors.map fun _ => none
  attrs := t.attrs.map fun _ => none
  maxAttr := t.maxAttr

-- ======== caches

/-- The dictionary with its caches. -/
structure DictState where
  tables : Tables := {}
  lastVendor : Option Nat := none
  lastAttr : Option Nat := none

/-- How a call finds an object, by a number or a name. -/
abbrev Finder (κ : Type) := κ → DictState → Mem (Option Nat × DictState)

/-- The vendor by way of `last_vendor`. -/
def cachedVendor : Finder Int := fun vendor s => do
  let hit ←
    match s.lastVendor with
    | none => pure false
    | some a => do pure (vendor = (← poolGet s.tables.vendors a).vendorpec)
  if hit then return (s.lastVendor, s)
  let dv := dictVendorbyvalue s.tables vendor
  return (dv, { s with lastVendor := dv })

/-- The attribute by way of `last_attr`. -/
def cachedAttr : Finder (List UInt8) := fun attrstr s => do
  let hit ←
    match s.lastAttr with
    | none => pure false
    | some a => do
        pure (nameKey attrstr = nameKey (← poolGet s.tables.attrs a).name)
  if hit then return (s.lastAttr, s)
  let dattr := dictAttrbyname s.tables attrstr
  return (dattr, { s with lastAttr := dattr })

/-- The vendor of the tables. -/
def plainVendor : Finder Int := fun vendor s =>
  return (dictVendorbyvalue s.tables vendor, s)

/-- The attribute of the tables. -/
def plainAttr : Finder (List UInt8) := fun attrstr s =>
  return (dictAttrbyname s.tables attrstr, s)

/-- The new attribute goes into the tables. -/
def addEntered (s : DictState) (name : List UInt8) (vendor : Int)
    (type : PwType) (value : Int) (flags : AttrFlags) (array : Bool) :
    Mem (DictState × Except DictError Unit) := do
  let (t, r) ← enterAttr s.tables name vendor type value flags array
  return ({ s with tables := t }, r)

/-- `dict_addattr`, once the number is known. -/
def addNumbered (find : Finder Int) (s : DictState) (name : List UInt8)
    (vendor : Int) (type : PwType) (value : Int) (flags : AttrFlags)
    (array : Bool) : Mem (DictState × Except DictError Unit) := do
  if value < 0 then return (s, .error .attrNegative)
  if 65536 ≤ value then return (s, .error .attrLarge)
  if vendor = 0 then addEntered s name vendor type value flags array
  else match tlvError flags with
    | some e => return (s, .error e)
    | none =>
        match ← find vendor s with
        | (none, s) => return (s, .error .unknownVendor)
        | (some a, s) =>
            let dv ← poolGet s.tables.vendors a
            if dv.type = 1 ∧ 256 ≤ value ∧ flags.isTlv = false then
              return (s, .error .attrLarger)
            addEntered s name vendor type value flags array

/-- `dict_addattr`. -/
def addattr (find : Finder Int) (s : DictState) (name : List UInt8)
    (vendor : Int) (type : PwType) (value : Int) (flags : AttrFlags)
    (array : Bool) : Mem (DictState × Except DictError Unit) := do
  if 128 ≤ name.length then return (s, .error .attrName)
  match attrNumber s.tables name vendor value with
  | (t, none) => return ({ s with tables := t }, .ok ()) -- don't add again
  | (t, some value) =>
      addNumbered find { s with tables := t } name vendor type value flags
        array

/-- `dict_addvalue`. -/
def addvalue (find : Finder (List UInt8)) (s : DictState)
    (namestr attrstr : List UInt8) (value : Int) :
    Mem (DictState × Except DictError Unit) := do
  if namestr = [] then return (s, .error .valueEmpty)
  if 128 ≤ namestr.length then return (s, .error .valueName)
  match ← find attrstr s with
  | (some a, s) =>
      let (t, r) ← enterValue s.tables namestr attrstr value a
      return ({ s with tables := t }, r)
  | (none, s) =>
      return ({ s with tables := waitValue s.tables namestr attrstr value },
        .ok ())

-- ======== runs

/-- The operations on a dictionary. `reload` is `dict_free` with the start
of `dict_init`, and `fixups` is the end of `dict_init`. -/
inductive DictOp where
  | addvendor (name : List UInt8) (value : Int)
  | setFormat (value type length flags : Int)
  | addattr (name : List UInt8) (vendor : Int) (type : PwType)
      (value : Int) (flags : AttrFlags) (array : Bool)
  | addvalue (namestr attrstr : List UInt8) (value : Int)
  | fixups
  | reload
deriving Repr, DecidableEq

/-- One operation, with the lookups it uses. -/
def dictStep (findVendor : Finder Int) (findAttr : Finder (List UInt8))
    (s : DictState) : DictOp → Mem (DictState × Except DictError Unit)
  | .addvendor name value => do
      let (t, r) ← addvendor s.tables name value
      return ({ s with tables := t }, r)
  | .setFormat value type length flags => do
      let t ← setFormat s.tables value type length flags
      return ({ s with tables := t }, .ok ())
  | .addattr name vendor type value flags array =>
      addattr findVendor s name vendor type value flags array
  | .addvalue namestr attrstr value =>
      addvalue findAttr s namestr attrstr value
  | .fixups => do
      let (t, r) ← fixups s.tables.valueFixup s.tables
      return ({ s with tables := t }, r)
  | .reload => return ({ s with tables := freshTables s.tables }, .ok ())

/-- A run, with the result of each operation. -/
def dictRun (findVendor : Finder Int) (findAttr : Finder (List UInt8)) :
    DictState → List DictOp →
    Mem (DictState × List (Except DictError Unit))
  | s, [] => return (s, [])
  | s, op :: ops => do
      let (s, r) ← dictStep findVendor findAttr s op
      let (s, rs) ← dictRun findVendor findAttr s ops
      return (s, r :: rs)

end WinRadius
