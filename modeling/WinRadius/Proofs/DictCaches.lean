/-
The dictionary with its caches against the dictionary without.

The objects a table points to are in the pool and stand under their own
key (`Tables.Keyed`); every operation keeps that, so the plain lookups
never fault. A call that asks a cache gets what the tables hold as long as
the entry it hits is still the one of the tables (`CacheFresh`), and then
the two dictionaries go on alike.

`Coherent` says of the caches by themselves that they hold what the tables
do. Three kinds of operation break it (`Spoils`): a vendor's number that
gets a new name, an attribute that is entered again, and a reload. A run
without them never asks a cache that is stale.
-/
import WinRadius.Model.DictCaches

namespace WinRadius

open Lib

-- ======== pools

section pools

variable {α : Type} {pool : List (Option α)} {a b : Nat} {x y : α}

theorem poolGet_eq_ok : poolGet pool a = .ok x ↔ pool[a]? = some (some x) := by
  rw [poolGet]
  split
  · next z hz =>
      rw [hz]
      simp
  · next hnone =>
      constructor
      · intro h
        cases h
      · intro h
        exact absurd h (hnone x)

/-- An object in front of a new one. -/
theorem poolGet_append (h : poolGet pool a = .ok x) :
    poolGet (pool ++ [some y]) a = .ok x := by
  rw [poolGet_eq_ok] at h ⊢
  have hlt : a < pool.length := (List.getElem?_eq_some_iff.mp h).1
  rw [List.getElem?_append_left hlt, h]

theorem poolGet_new : poolGet (pool ++ [some x]) pool.length = .ok x := by
  rw [poolGet_eq_ok]
  simp

/-- An object that is changed. -/
theorem poolGet_set_self (h : poolGet pool a = .ok x) :
    poolGet (pool.set a (some y)) a = .ok y := by
  rw [poolGet_eq_ok] at h ⊢
  have hlt : a < pool.length := (List.getElem?_eq_some_iff.mp h).1
  simp [hlt]

theorem poolGet_set_ne (hne : a ≠ b) :
    poolGet (pool.set a (some y)) b = poolGet pool b := by
  rw [poolGet, poolGet, List.getElem?_set_ne hne]

end pools

-- ======== tables

/-- What the tables point to is in the pool, under its own key. -/
structure Tables.Keyed (t : Tables) : Prop where
  vendorsByname : ∀ n a, t.vendorsByname.lookup n = some a →
    ∃ dv, poolGet t.vendors a = .ok dv
  vendorsByvalue : ∀ v a, t.vendorsByvalue.lookup v = some a →
    ∃ dv, poolGet t.vendors a = .ok dv ∧ dv.vendorpec = v
  attributesByname : ∀ n a, t.attributesByname.lookup n = some a →
    ∃ da, poolGet t.attrs a = .ok da ∧ nameKey da.name = n ∧
      da.name.length < 128

/-- An object that the tables hold for its number. -/
def Tables.HasVendor (t : Tables) (a : Nat) : Prop :=
  ∃ dv, poolGet t.vendors a = .ok dv ∧
    t.vendorsByvalue.lookup dv.vendorpec = some a

/-- An object that the tables hold for its name. -/
def Tables.HasAttr (t : Tables) (a : Nat) : Prop :=
  ∃ da, poolGet t.attrs a = .ok da ∧
    t.attributesByname.lookup (nameKey da.name) = some a

/-- The vendors are the same. -/
def SameVendors (t t' : Tables) : Prop :=
  t'.vendors = t.vendors ∧ t'.vendorsByvalue = t.vendorsByvalue

/-- The attributes are the same. -/
def SameAttrs (t t' : Tables) : Prop :=
  t'.attrs = t.attrs ∧ t'.attributesByname = t.attributesByname

section tables

variable {t t' : Tables} {r : Except DictError Unit}

theorem SameVendors.has (h : SameVendors t t') {a : Nat}
    (ha : t.HasVendor a) : t'.HasVendor a := by
  rw [Tables.HasVendor, h.1, h.2]
  exact ha

theorem SameAttrs.has (h : SameAttrs t t') {a : Nat} (ha : t.HasAttr a) :
    t'.HasAttr a := by
  rw [Tables.HasAttr, h.1, h.2]
  exact ha

/-- A lookup behind an insertion. -/
theorem lookup_insert_cases {κ ν : Type} [DecidableEq κ]
    {s : AList fun _ : κ => ν} {k k' : κ} {v w : ν}
    (h : (s.insert k v).lookup k' = some w) :
    (k' = k ∧ w = v) ∨ (k' ≠ k ∧ s.lookup k' = some w) := by
  rw [FiniteMap.lookup_insert] at h
  split at h
  · next hk =>
      injection h with h
      exact .inl ⟨hk, h.symm⟩
  · next hk => exact .inr ⟨hk, h⟩

theorem addvendor_keyed (h : t.Keyed) (name : List UInt8) (value : Int) :
    ∃ t' r, addvendor t name value = .ok (t', r) ∧ t'.Keyed ∧
      SameAttrs t t' ∧ ∀ a dv, poolGet t.vendors a = .ok dv →
        t.vendorsByvalue.lookup dv.vendorpec = some a →
        ¬ (t.vendorsByname.lookup (nameKey name) = none ∧
          dv.vendorpec = value) → t'.HasVendor a := by
  rw [addvendor]
  split_ifs with hvalue hname
  · exact ⟨_, _, rfl, h, ⟨rfl, rfl⟩, fun a dv hdv ha _ => ⟨dv, hdv, ha⟩⟩
  · exact ⟨_, _, rfl, h, ⟨rfl, rfl⟩, fun a dv hdv ha _ => ⟨dv, hdv, ha⟩⟩
  · have happend : ({ t with vendors :=
        t.vendors ++ [some { name, vendorpec := value }] } : Tables).Keyed :=
      { vendorsByname := by
          intro n a ha
          obtain ⟨dv, hdv⟩ := h.vendorsByname n a ha
          exact ⟨dv, poolGet_append hdv⟩
        vendorsByvalue := by
          intro v a ha
          obtain ⟨dv, hdv, hv⟩ := h.vendorsByvalue v a ha
          exact ⟨dv, poolGet_append hdv, hv⟩
        attributesByname := h.attributesByname }
    dsimp only
    split
    · next old hold =>
        obtain ⟨dv, hdv⟩ := happend.vendorsByname _ old hold
        rw [hdv, ok_bind]
        split_ifs
        · exact ⟨_, _, rfl, happend, ⟨rfl, rfl⟩,
            fun a dv hdv ha _ => ⟨dv, poolGet_append hdv, ha⟩⟩
        · exact ⟨_, _, rfl, happend, ⟨rfl, rfl⟩,
            fun a dv hdv ha _ => ⟨dv, poolGet_append hdv, ha⟩⟩
    · next hnew =>
        refine ⟨_, _, rfl, ⟨?_, ?_, h.attributesByname⟩, ⟨rfl, rfl⟩, ?_⟩
        · intro n a ha
          rcases lookup_insert_cases ha with ⟨_, rfl⟩ | ⟨_, ha⟩
          · exact ⟨_, poolGet_new⟩
          · exact happend.vendorsByname n a ha
        · intro v a ha
          rcases lookup_insert_cases ha with ⟨rfl, rfl⟩ | ⟨_, ha⟩
          · exact ⟨_, poolGet_new, rfl⟩
          · exact happend.vendorsByvalue v a ha
        · intro a dv hdv ha hother
          refine ⟨dv, poolGet_append hdv, ?_⟩
          have hne : dv.vendorpec ≠ value := fun hv => hother ⟨hnew, hv⟩
          dsimp only
          rw [FiniteMap.lookup_insert, if_neg hne, ha]

theorem setFormat_keyed (h : t.Keyed) (value type length flags : Int) :
    ∃ t', setFormat t value type length flags = .ok t' ∧ t'.Keyed ∧
      SameAttrs t t' ∧ ∀ a, t.HasVendor a → t'.HasVendor a := by
  rw [setFormat]
  split
  · exact ⟨t, rfl, h, ⟨rfl, rfl⟩, fun _ ha => ha⟩
  · next a ha =>
      obtain ⟨dv, hdv, _⟩ := h.vendorsByvalue value a ha
      have hset : ∀ b e, poolGet t.vendors b = .ok e → ∃ e',
          poolGet (t.vendors.set a (some { dv with type, length, flags })) b
            = .ok e' ∧ e'.vendorpec = e.vendorpec := by
        intro b e he
        by_cases hab : a = b
        · subst hab
          rw [hdv] at he
          injection he with he
          exact ⟨_, poolGet_set_self hdv, by rw [← he]⟩
        · exact ⟨e, (poolGet_set_ne hab).trans he, rfl⟩
      rw [hdv, ok_bind]
      refine ⟨_, rfl, ⟨?_, ?_, h.attributesByname⟩, ⟨rfl, rfl⟩, ?_⟩
      · intro n b hb
        obtain ⟨e, he⟩ := h.vendorsByname n b hb
        obtain ⟨e', he', _⟩ := hset b e he
        exact ⟨e', he'⟩
      · intro v b hb
        obtain ⟨e, he, hev⟩ := h.vendorsByvalue v b hb
        obtain ⟨e', he', hkept⟩ := hset b e he
        exact ⟨e', he', hkept.trans hev⟩
      · intro b hb
        obtain ⟨e, he, hlookup⟩ := hb
        obtain ⟨e', he', hkept⟩ := hset b e he
        exact ⟨e', he', by rw [hkept]; exact hlookup⟩

/-- Attributes that are added or changed under the same name. -/
theorem Tables.Keyed.attrs (h : t.Keyed) {pool : List (Option PoolAttr)}
    (hpool : ∀ a da, poolGet t.attrs a = .ok da → ∃ da',
      poolGet pool a = .ok da' ∧ da'.name = da.name) :
    ({ t with attrs := pool } : Tables).Keyed where
  vendorsByname := h.vendorsByname
  vendorsByvalue := h.vendorsByvalue
  attributesByname := by
    intro n a ha
    obtain ⟨da, hda, hname, hlen⟩ := h.attributesByname n a ha
    obtain ⟨da', hda', heq⟩ := hpool a da hda
    exact ⟨da', hda', by rw [heq, hname], by rw [heq]; exact hlen⟩

theorem removeOld_keyed (h : t.Keyed) (name : List UInt8) (attr : Nat) :
    ∃ found, removeOld t name attr = .ok found ∧ ∀ t', found = some t' →
      t'.Keyed ∧ SameAttrs t t' ∧ SameVendors t t' := by
  rw [removeOld]
  split
  · refine ⟨_, rfl, ?_⟩
    intro t' ht
    injection ht with ht
    subst ht
    exact ⟨h, ⟨rfl, rfl⟩, rfl, rfl⟩
  · next old hold =>
      obtain ⟨a, ha, _⟩ := h.attributesByname _ old hold
      rw [ha, ok_bind]
      split_ifs
      · exact ⟨_, rfl, by simp⟩
      · refine ⟨_, rfl, ?_⟩
        intro t' ht
        injection ht with ht
        subst ht
        exact ⟨⟨h.vendorsByname, h.vendorsByvalue, h.attributesByname⟩,
          ⟨rfl, rfl⟩, rfl, rfl⟩

theorem enterAttr_keyed (h : t.Keyed) {name : List UInt8}
    (hname : name.length < 128) (vendor : Int) (type : PwType) (value : Int)
    (flags : AttrFlags) (array : Bool) :
    ∃ t' r, enterAttr t name vendor type value flags array = .ok (t', r) ∧
      t'.Keyed ∧ SameVendors t t' ∧ ∀ a da, poolGet t.attrs a = .ok da →
        t.attributesByname.lookup (nameKey da.name) = some a →
        nameKey da.name ≠ nameKey name → t'.HasAttr a := by
  have hpool : ({ t with attrs := t.attrs ++ [some ⟨name,
      attrWord vendor value, type, vendor, flags, array, false, false⟩] }
      : Tables).Keyed :=
    h.attrs fun a da hda => ⟨da, poolGet_append hda, rfl⟩
  obtain ⟨found, hfound, hkept⟩ :=
    removeOld_keyed hpool name (attrWord vendor value)
  rw [enterAttr]
  dsimp only
  rw [hfound, ok_bind]
  cases found with
  | none =>
      exact ⟨_, _, rfl, hpool, ⟨rfl, rfl⟩,
        fun a da hda ha _ => ⟨da, poolGet_append hda, ha⟩⟩
  | some kept =>
      obtain ⟨hkeyed, hattrs, hvendors⟩ := hkept kept rfl
      have hentered : ∀ n b,
          (kept.attributesByname.insert (nameKey name) t.attrs.length).lookup n
            = some b →
          ∃ da, poolGet kept.attrs b = .ok da ∧ nameKey da.name = n ∧
            da.name.length < 128 := by
        intro n b hb
        rcases lookup_insert_cases hb with ⟨rfl, rfl⟩ | ⟨_, hb⟩
        · rw [hattrs.1]
          exact ⟨_, poolGet_new, rfl, hname⟩
        · exact hkeyed.attributesByname n b hb
      have hothers : ∀ a da, poolGet t.attrs a = .ok da →
          t.attributesByname.lookup (nameKey da.name) = some a →
          nameKey da.name ≠ nameKey name →
          ∃ da, poolGet kept.attrs a = .ok da ∧
            (kept.attributesByname.insert (nameKey name)
              t.attrs.length).lookup (nameKey da.name) = some a := by
        intro a da hda ha hne
        rw [hattrs.1, hattrs.2]
        refine ⟨da, poolGet_append hda, ?_⟩
        rw [FiniteMap.lookup_insert, if_neg hne]
        exact ha
      dsimp only
      split_ifs
      · exact ⟨_, _, rfl, ⟨hkeyed.vendorsByname, hkeyed.vendorsByvalue,
          hentered⟩, hvendors, hothers⟩
      · exact ⟨_, _, rfl, ⟨hkeyed.vendorsByname, hkeyed.vendorsByvalue,
          hentered⟩, hvendors, hothers⟩

/-- An attribute that has got a value keeps its name. -/
theorem poolGet_hasValue {pool : List (Option PoolAttr)} {a b : Nat}
    {da db : PoolAttr} (hda : poolGet pool a = .ok da)
    (hdb : poolGet pool b = .ok db) :
    ∃ db', poolGet (pool.set a (some { da with hasValue := true })) b
      = .ok db' ∧ db'.name = db.name := by
  by_cases hab : a = b
  · subst hab
    rw [hda] at hdb
    injection hdb with hdb
    exact ⟨_, poolGet_set_self hda, by rw [← hdb]⟩
  · exact ⟨db, (poolGet_set_ne hab).trans hdb, rfl⟩

theorem enterValue_keyed (h : t.Keyed) (namestr attrstr : List UInt8)
    (value : Int) {a : Nat} {da : PoolAttr} (hda : poolGet t.attrs a = .ok da) :
    ∃ t' r, enterValue t namestr attrstr value a = .ok (t', r) ∧
      t'.Keyed ∧ SameVendors t t' ∧ ∀ b, t.HasAttr b → t'.HasAttr b := by
  have hset := h.attrs fun b db (hdb : poolGet t.attrs b = .ok db) =>
    poolGet_hasValue hda hdb
  have hhas : ∀ b, t.HasAttr b → ∃ db,
      poolGet (t.attrs.set a (some { da with hasValue := true })) b = .ok db ∧
        t.attributesByname.lookup (nameKey db.name) = some b := by
    intro b hb
    obtain ⟨db, hdb, hlookup⟩ := hb
    obtain ⟨db', hdb', hname⟩ := poolGet_hasValue hda hdb
    exact ⟨db', hdb', by rw [hname]; exact hlookup⟩
  rw [enterValue, hda, ok_bind]
  split_ifs with halias
  · exact ⟨_, _, rfl, h, ⟨rfl, rfl⟩, fun _ hb => hb⟩
  · split
    · exact ⟨_, _, rfl, h, ⟨rfl, rfl⟩, fun _ hb => hb⟩
    · dsimp only
      split_ifs
      · split
        · split_ifs
          · exact ⟨_, _, rfl, hset, ⟨rfl, rfl⟩, hhas⟩
          · exact ⟨_, _, rfl, hset, ⟨rfl, rfl⟩, hhas⟩
        · exact ⟨_, _, rfl, hset, ⟨rfl, rfl⟩, hhas⟩
      · exact ⟨_, _, rfl, ⟨hset.vendorsByname, hset.vendorsByvalue,
          hset.attributesByname⟩, ⟨rfl, rfl⟩, hhas⟩

theorem fixups_keyed (h : t.Keyed) (l : List (List UInt8 × PoolValue)) :
    ∃ t' r, fixups l t = .ok (t', r) ∧ t'.Keyed ∧ SameVendors t t' ∧
      SameAttrs t t' := by
  induction l generalizing t with
  | nil =>
      exact ⟨_, _, rfl, ⟨h.vendorsByname, h.vendorsByvalue,
        h.attributesByname⟩, ⟨rfl, rfl⟩, rfl, rfl⟩
  | cons f rest ih =>
      obtain ⟨attrstr, dval⟩ := f
      rw [fixups]
      split
      · exact ⟨_, _, rfl, h, ⟨rfl, rfl⟩, rfl, rfl⟩
      · next a ha =>
          obtain ⟨da, hda, _⟩ := h.attributesByname _ a ha
          rw [hda, ok_bind]
          exact ih ⟨h.vendorsByname, h.vendorsByvalue, h.attributesByname⟩

theorem freshTables_keyed (t : Tables) : (freshTables t).Keyed where
  vendorsByname := by
    intro n a ha
    cases ha
  vendorsByvalue := by
    intro v a ha
    cases ha
  attributesByname := by
    intro n a ha
    cases ha

end tables

-- ======== caches

/-- The vendor that is cached, when it has the number, is the one of the
tables. -/
def VendorFresh (s : DictState) (vendor : Int) : Prop :=
  ∀ a, s.lastVendor = some a → ∃ dv, poolGet s.tables.vendors a = .ok dv ∧
    (dv.vendorpec = vendor → dictVendorbyvalue s.tables vendor = some a)

/-- The attribute that is cached, when it has the name, is the one of the
tables. -/
def AttrFresh (s : DictState) (attrstr : List UInt8) : Prop :=
  ∀ a, s.lastAttr = some a → ∃ da, poolGet s.tables.attrs a = .ok da ∧
    (nameKey attrstr = nameKey da.name →
      dictAttrbyname s.tables attrstr = some a)

/-- `dict_addattr` comes to the vendor. -/
def AsksVendor (t : Tables) (name : List UInt8) (vendor value : Int)
    (flags : AttrFlags) : Prop :=
  name.length < 128 ∧ vendor ≠ 0 ∧ tlvError flags = none ∧
    ∃ number, (attrNumber t name vendor value).2 = some number ∧
      0 ≤ number ∧ number < 65536

/-- `dict_addvalue` comes to the attribute. -/
def AsksAttr (namestr : List UInt8) : Prop :=
  namestr ≠ [] ∧ namestr.length < 128

/-- An operation that asks a cache does not hit an entry that another one
has replaced, or that a reload has freed. -/
def CacheFresh (s : DictState) : DictOp → Prop
  | .addattr name vendor _ value flags _ =>
      AsksVendor s.tables name vendor value flags → VendorFresh s vendor
  | .addvalue namestr attrstr _ => AsksAttr namestr → AttrFresh s attrstr
  | _ => True

section caches

variable {s s' p p' : DictState} {r : Except DictError Unit} {op : DictOp}

theorem cachedVendor_fresh {vendor : Int} (h : VendorFresh s vendor) :
    ∃ s', cachedVendor vendor s
        = .ok (dictVendorbyvalue s.tables vendor, s') ∧
      s'.tables = s.tables ∧ s'.lastAttr = s.lastAttr ∧
      s'.lastVendor = dictVendorbyvalue s.tables vendor := by
  rw [cachedVendor]
  cases hlast : s.lastVendor with
  | none => exact ⟨_, rfl, rfl, rfl, rfl⟩
  | some a =>
      obtain ⟨dv, hdv, hfresh⟩ := h a hlast
      dsimp only
      rw [hdv, ok_bind, pure_eq_ok, ok_bind]
      by_cases hhit : vendor = dv.vendorpec
      · rw [if_pos (by simpa using hhit), hfresh hhit.symm]
        exact ⟨s, rfl, rfl, rfl, hlast⟩
      · rw [if_neg (by simpa using hhit)]
        exact ⟨_, rfl, rfl, rfl, rfl⟩

theorem cachedAttr_fresh {attrstr : List UInt8} (h : AttrFresh s attrstr) :
    ∃ s', cachedAttr attrstr s = .ok (dictAttrbyname s.tables attrstr, s') ∧
      s'.tables = s.tables ∧ s'.lastVendor = s.lastVendor ∧
      s'.lastAttr = dictAttrbyname s.tables attrstr := by
  rw [cachedAttr]
  cases hlast : s.lastAttr with
  | none => exact ⟨_, rfl, rfl, rfl, rfl⟩
  | some a =>
      obtain ⟨da, hda, hfresh⟩ := h a hlast
      dsimp only
      rw [hda, ok_bind, pure_eq_ok, ok_bind]
      by_cases hhit : nameKey attrstr = nameKey da.name
      · rw [if_pos (by simpa using hhit), hfresh hhit]
        exact ⟨s, rfl, rfl, rfl, hlast⟩
      · rw [if_neg (by simpa using hhit)]
        exact ⟨_, rfl, rfl, rfl, rfl⟩

/-- Two states that differ in their caches at most go on alike. -/
def Alike (x y : Mem (DictState × Except DictError Unit)) : Prop :=
  ∃ s p r, x = .ok (s, r) ∧ y = .ok (p, r) ∧ s.tables = p.tables ∧
    s.tables.Keyed

/-- Finding a number only counts attributes. -/
theorem attrNumber_tables (t : Tables) (name : List UInt8)
    (vendor value : Int) :
    ∃ m, (attrNumber t name vendor value).1 = { t with maxAttr := m } := by
  rw [attrNumber]
  split_ifs
  · exact ⟨t.maxAttr, rfl⟩
  · exact ⟨_, rfl⟩
  · exact ⟨_, rfl⟩
  · exact ⟨t.maxAttr, rfl⟩

/-- Both enter the attribute into the same tables. -/
theorem addEntered_alike (htables : s.tables = p.tables)
    (hkeyed : s.tables.Keyed) {name : List UInt8}
    (hname : name.length < 128) (vendor : Int) (type : PwType) (value : Int)
    (flags : AttrFlags) (array : Bool) :
    Alike (addEntered s name vendor type value flags array)
      (addEntered p name vendor type value flags array) := by
  obtain ⟨t, r, ht, hkept, _⟩ :=
    enterAttr_keyed hkeyed hname vendor type value flags array
  rw [addEntered, addEntered, ← htables, ht]
  exact ⟨_, _, r, rfl, rfl, rfl, hkept⟩

/-- The vendor is found by way of the cache and without it. -/
theorem addNumbered_alike (htables : s.tables = p.tables)
    (hkeyed : s.tables.Keyed) {name : List UInt8}
    (hname : name.length < 128) {vendor : Int} {type : PwType} {value : Int}
    {flags : AttrFlags} {array : Bool}
    (hfresh : vendor ≠ 0 → tlvError flags = none → 0 ≤ value →
      value < 65536 → VendorFresh s vendor) :
    Alike (addNumbered cachedVendor s name vendor type value flags array)
      (addNumbered plainVendor p name vendor type value flags array) := by
  rw [addNumbered, addNumbered]
  by_cases hneg : value < 0
  · rw [if_pos hneg, if_pos hneg]
    exact ⟨_, _, _, rfl, rfl, htables, hkeyed⟩
  rw [if_neg hneg, if_neg hneg]
  by_cases hlarge : 65536 ≤ value
  · rw [if_pos hlarge, if_pos hlarge]
    exact ⟨_, _, _, rfl, rfl, htables, hkeyed⟩
  rw [if_neg hlarge, if_neg hlarge]
  by_cases hvendor : vendor = 0
  · rw [if_pos hvendor, if_pos hvendor]
    exact addEntered_alike htables hkeyed hname vendor type value flags array
  rw [if_neg hvendor, if_neg hvendor]
  cases htlv : tlvError flags with
  | some e => exact ⟨_, _, _, rfl, rfl, htables, hkeyed⟩
  | none =>
      obtain ⟨s', hs', htables', _⟩ := cachedVendor_fresh
        (hfresh hvendor htlv (by omega) (by omega))
      have hsame : s'.tables = p.tables := htables'.trans htables
      have hkeyed' : s'.tables.Keyed := by
        rw [htables']
        exact hkeyed
      dsimp only
      rw [hs', ok_bind, plainVendor, pure_eq_ok, ok_bind, ← htables]
      cases hfound : dictVendorbyvalue s.tables vendor with
      | none => exact ⟨s', p, _, rfl, rfl, hsame, hkeyed'⟩
      | some a =>
          obtain ⟨dv, hdv, _⟩ := hkeyed.vendorsByvalue vendor a hfound
          dsimp only
          rw [hsame, ← htables, hdv, ok_bind, ok_bind]
          split_ifs
          · exact ⟨s', p, _, rfl, rfl, hsame, hkeyed'⟩
          · exact addEntered_alike hsame hkeyed' hname vendor type value flags
              array

theorem addattr_alike (htables : s.tables = p.tables)
    (hkeyed : s.tables.Keyed) {name : List UInt8} {vendor : Int}
    {type : PwType} {value : Int} {flags : AttrFlags} {array : Bool}
    (hfresh : CacheFresh s (.addattr name vendor type value flags array)) :
    Alike (addattr cachedVendor s name vendor type value flags array)
      (addattr plainVendor p name vendor type value flags array) := by
  rw [addattr, addattr, ← htables]
  by_cases hname : 128 ≤ name.length
  · rw [if_pos hname, if_pos hname]
    exact ⟨s, p, _, rfl, rfl, htables, hkeyed⟩
  rw [if_neg hname, if_neg hname]
  obtain ⟨m, hm⟩ := attrNumber_tables s.tables name vendor value
  have hcounted : ({ s.tables with maxAttr := m } : Tables).Keyed :=
    ⟨hkeyed.vendorsByname, hkeyed.vendorsByvalue, hkeyed.attributesByname⟩
  simp only [CacheFresh, AsksVendor] at hfresh
  generalize attrNumber s.tables name vendor value = numbered
    at hm hfresh ⊢
  obtain ⟨t, number⟩ := numbered
  dsimp only at hm
  subst hm
  cases number with
  | none => exact ⟨_, _, _, rfl, rfl, rfl, hcounted⟩
  | some value =>
      have hlt : name.length < 128 := by omega
      dsimp only
      refine addNumbered_alike
        (s := { s with tables := { s.tables with maxAttr := m } })
        (p := { p with tables := { s.tables with maxAttr := m } })
        rfl hcounted hlt ?_
      intro hvendor htlv hpos hle
      exact hfresh ⟨hlt, hvendor, htlv, value, rfl, hpos, hle⟩

theorem addvalue_alike (htables : s.tables = p.tables)
    (hkeyed : s.tables.Keyed) {namestr attrstr : List UInt8} {value : Int}
    (hfresh : CacheFresh s (.addvalue namestr attrstr value)) :
    Alike (addvalue cachedAttr s namestr attrstr value)
      (addvalue plainAttr p namestr attrstr value) := by
  rw [addvalue, addvalue]
  by_cases hempty : namestr = []
  · rw [if_pos hempty, if_pos hempty]
    exact ⟨s, p, _, rfl, rfl, htables, hkeyed⟩
  rw [if_neg hempty, if_neg hempty]
  by_cases hname : 128 ≤ namestr.length
  · rw [if_pos hname, if_pos hname]
    exact ⟨s, p, _, rfl, rfl, htables, hkeyed⟩
  rw [if_neg hname, if_neg hname]
  obtain ⟨s', hs', htables', _⟩ :=
    cachedAttr_fresh (hfresh ⟨hempty, by omega⟩)
  rw [hs', ok_bind, plainAttr, pure_eq_ok, ok_bind, ← htables]
  cases hfound : dictAttrbyname s.tables attrstr with
  | none =>
      dsimp only
      rw [htables', ← htables]
      refine ⟨_, _, _, rfl, rfl, rfl, ?_⟩
      exact ⟨hkeyed.vendorsByname, hkeyed.vendorsByvalue,
        hkeyed.attributesByname⟩
  | some a =>
      obtain ⟨da, hda, _⟩ := hkeyed.attributesByname _ a hfound
      obtain ⟨t, r, ht, hkept, _⟩ :=
        enterValue_keyed hkeyed namestr attrstr value hda
      dsimp only
      rw [htables', ← htables, ht]
      exact ⟨_, _, r, rfl, rfl, rfl, hkept⟩

/-- One operation. -/
theorem dictStep_alike (htables : s.tables = p.tables)
    (hkeyed : s.tables.Keyed) (hfresh : CacheFresh s op) :
    Alike (dictStep cachedVendor cachedAttr s op)
      (dictStep plainVendor plainAttr p op) := by
  cases op with
  | addvendor name value =>
      obtain ⟨t, r, ht, hkept, _⟩ := addvendor_keyed hkeyed name value
      rw [dictStep, dictStep, ← htables, ht]
      exact ⟨_, _, r, rfl, rfl, rfl, hkept⟩
  | setFormat value type length flags =>
      obtain ⟨t, ht, hkept, _⟩ :=
        setFormat_keyed hkeyed value type length flags
      rw [dictStep, dictStep, ← htables, ht]
      exact ⟨_, _, _, rfl, rfl, rfl, hkept⟩
  | addattr name vendor type value flags array =>
      exact addattr_alike htables hkeyed hfresh
  | addvalue namestr attrstr value =>
      exact addvalue_alike htables hkeyed hfresh
  | fixups =>
      obtain ⟨t, r, ht, hkept, _⟩ := fixups_keyed hkeyed s.tables.valueFixup
      rw [dictStep, dictStep, ← htables, ht]
      exact ⟨_, _, r, rfl, rfl, rfl, hkept⟩
  | reload =>
      rw [dictStep, dictStep, ← htables]
      exact ⟨_, _, _, rfl, rfl, rfl, freshTables_keyed s.tables⟩

end caches

-- ======== runs

/-- No operation of the run asks a cache that is stale. -/
def RunFresh : DictState → List DictOp → Prop
  | _, [] => True
  | s, op :: ops => CacheFresh s op ∧ ∀ s' r,
      dictStep cachedVendor cachedAttr s op = .ok (s', r) → RunFresh s' ops

theorem dictRun_alike {ops : List DictOp} {s p : DictState}
    (htables : s.tables = p.tables) (hkeyed : s.tables.Keyed)
    (hfresh : RunFresh s ops) :
    ∃ s' p' rs, dictRun cachedVendor cachedAttr s ops = .ok (s', rs) ∧
      dictRun plainVendor plainAttr p ops = .ok (p', rs) ∧
      s'.tables = p'.tables := by
  induction ops generalizing s p with
  | nil => exact ⟨s, p, [], rfl, rfl, htables⟩
  | cons op ops ih =>
      obtain ⟨s₁, p₁, r, hs₁, hp₁, htables₁, hkeyed₁⟩ :=
        dictStep_alike htables hkeyed hfresh.1
      obtain ⟨s₂, p₂, rs, hs₂, hp₂, htables₂⟩ :=
        ih htables₁ hkeyed₁ (hfresh.2 s₁ r hs₁)
      refine ⟨s₂, p₂, r :: rs, ?_, ?_, htables₂⟩
      · rw [dictRun, hs₁, ok_bind]
        dsimp only
        rw [hs₂]
        rfl
      · rw [dictRun, hp₁, ok_bind]
        dsimp only
        rw [hp₂]
        rfl

/-- The empty dictionary. -/
theorem empty_keyed : ({} : Tables).Keyed where
  vendorsByname := by
    intro n a ha
    cases ha
  vendorsByvalue := by
    intro v a ha
    cases ha
  attributesByname := by
    intro n a ha
    cases ha

-- ======== spoils

/-- The caches hold what the tables do. -/
structure Coherent (s : DictState) : Prop where
  vendor : ∀ a, s.lastVendor = some a → s.tables.HasVendor a
  attr : ∀ a, s.lastAttr = some a → s.tables.HasAttr a

/-- The vendor in its cache. -/
def DictState.vendorCache (s : DictState) : Option PoolVendor :=
  s.lastVendor.bind fun a => (poolGet s.tables.vendors a).toOption

/-- The attribute in its cache. -/
def DictState.attrCache (s : DictState) : Option PoolAttr :=
  s.lastAttr.bind fun a => (poolGet s.tables.attrs a).toOption

/-- The operations that leave a cache with what the tables no longer hold:
the number of the cached vendor gets a new name, the cached attribute is
entered again, or there is a reload with something cached. -/
def Spoils (s : DictState) : DictOp → Prop
  | .addvendor name value =>
      s.tables.vendorsByname.lookup (nameKey name) = none
        ∧ ∃ dv ∈ s.vendorCache, dv.vendorpec = value
  | .addattr name _ _ _ _ _ =>
      ∃ da ∈ s.attrCache, nameKey da.name = nameKey name
  | .reload => s.lastVendor ≠ none ∨ s.lastAttr ≠ none
  | _ => False

instance (s : DictState) (op : DictOp) : Decidable (Spoils s op) :=
  match op with
  | .addvendor name value => inferInstanceAs (Decidable
      (s.tables.vendorsByname.lookup (nameKey name) = none
        ∧ ∃ dv ∈ s.vendorCache, dv.vendorpec = value))
  | .addattr name _ _ _ _ _ => inferInstanceAs (Decidable
      (∃ da ∈ s.attrCache, nameKey da.name = nameKey name))
  | .reload => inferInstanceAs (Decidable
      (s.lastVendor ≠ none ∨ s.lastAttr ≠ none))
  | .setFormat _ _ _ _ | .addvalue _ _ _ | .fixups =>
      inferInstanceAs (Decidable False)

section coherent

variable {s s' : DictState} {r : Except DictError Unit} {op : DictOp}

theorem mem_vendorCache {a : Nat} {dv : PoolVendor}
    (ha : s.lastVendor = some a) (hdv : poolGet s.tables.vendors a = .ok dv) :
    dv ∈ s.vendorCache := by
  rw [DictState.vendorCache, ha, Option.bind_some, hdv]
  rfl

theorem mem_attrCache {a : Nat} {da : PoolAttr}
    (ha : s.lastAttr = some a) (hda : poolGet s.tables.attrs a = .ok da) :
    da ∈ s.attrCache := by
  rw [DictState.attrCache, ha, Option.bind_some, hda]
  rfl

theorem Coherent.vendorFresh (h : Coherent s) (vendor : Int) :
    VendorFresh s vendor := by
  intro a ha
  obtain ⟨dv, hdv, hlookup⟩ := h.vendor a ha
  refine ⟨dv, hdv, ?_⟩
  intro hv
  rw [dictVendorbyvalue, ← hv, hlookup]

theorem Coherent.attrFresh (h : Coherent s) (hkeyed : s.tables.Keyed)
    (attrstr : List UInt8) : AttrFresh s attrstr := by
  intro a ha
  obtain ⟨da, hda, hlookup⟩ := h.attr a ha
  obtain ⟨db, hdb, _, hlen⟩ := hkeyed.attributesByname _ a hlookup
  rw [hda] at hdb
  injection hdb with hdb
  refine ⟨da, hda, ?_⟩
  intro hname
  have hshort : attrstr.length ≤ 128 := by
    have hsize := congrArg List.length hname
    rw [nameKey, nameKey, List.length_map, List.length_map, hdb] at hsize
    omega
  rw [dictAttrbyname, List.take_of_length_le hshort, hname, hlookup]

theorem Coherent.cacheFresh (h : Coherent s) (hkeyed : s.tables.Keyed) :
    CacheFresh s op := by
  cases op with
  | addattr name vendor type value flags array =>
      exact fun _ => h.vendorFresh vendor
  | addvalue namestr attrstr value => exact fun _ => h.attrFresh hkeyed attrstr
  | addvendor _ _ => exact trivial
  | setFormat _ _ _ _ => exact trivial
  | fixups => exact trivial
  | reload => exact trivial

theorem cachedVendor_coherent {vendor : Int} {found : Option Nat}
    (h : Coherent s) (hkeyed : s.tables.Keyed)
    (hfind : cachedVendor vendor s = .ok (found, s')) :
    Coherent s' ∧ s'.tables = s.tables ∧ s'.lastAttr = s.lastAttr := by
  obtain ⟨s₁, hs₁, htables, hattr, hvendor⟩ :=
    cachedVendor_fresh (h.vendorFresh vendor)
  rw [hs₁] at hfind
  injection hfind with hfind
  injection hfind with _ hsame
  subst hsame
  refine ⟨⟨?_, ?_⟩, htables, hattr⟩
  · intro a ha
    have hlookup : s.tables.vendorsByvalue.lookup vendor = some a :=
      hvendor.symm.trans ha
    obtain ⟨dv, hdv, hv⟩ := hkeyed.vendorsByvalue vendor a hlookup
    rw [htables]
    exact ⟨dv, hdv, by rw [hv]; exact hlookup⟩
  · intro a ha
    rw [htables]
    exact h.attr a (hattr ▸ ha)

theorem cachedAttr_coherent {attrstr : List UInt8} {found : Option Nat}
    (h : Coherent s) (hkeyed : s.tables.Keyed)
    (hfind : cachedAttr attrstr s = .ok (found, s')) :
    Coherent s' ∧ s'.tables = s.tables ∧
      found = dictAttrbyname s.tables attrstr := by
  obtain ⟨s₁, hs₁, htables, hvendor, hattr⟩ :=
    cachedAttr_fresh (h.attrFresh hkeyed attrstr)
  rw [hs₁] at hfind
  injection hfind with hfind
  injection hfind with hfound hsame
  subst hsame
  refine ⟨⟨?_, ?_⟩, htables, hfound.symm⟩
  · intro a ha
    rw [htables]
    exact h.vendor a (hvendor ▸ ha)
  · intro a ha
    have hlookup : s.tables.attributesByname.lookup
        (nameKey (attrstr.take 128)) = some a := hattr.symm.trans ha
    obtain ⟨da, hda, hname, _⟩ := hkeyed.attributesByname _ a hlookup
    rw [htables]
    exact ⟨da, hda, by rw [hname]; exact hlookup⟩

/-- Entering an attribute whose name is not the cached one's. -/
theorem addEntered_coherent (h : Coherent s) (hkeyed : s.tables.Keyed)
    {name : List UInt8} (hname : name.length < 128) {vendor : Int}
    {type : PwType} {value : Int} {flags : AttrFlags} {array : Bool}
    (hother : ∀ a da, s.lastAttr = some a →
      poolGet s.tables.attrs a = .ok da → nameKey da.name ≠ nameKey name)
    (hstep : addEntered s name vendor type value flags array = .ok (s', r)) :
    Coherent s' := by
  obtain ⟨t, r', ht, _, hvendors, hattrs⟩ :=
    enterAttr_keyed hkeyed hname vendor type value flags array
  rw [addEntered, ht] at hstep
  injection hstep with hstep
  injection hstep with hs _
  subst hs
  refine ⟨fun a ha => hvendors.has (h.vendor a ha), ?_⟩
  intro a ha
  obtain ⟨da, hda, hlookup⟩ := h.attr a ha
  exact hattrs a da hda hlookup (hother a da ha hda)

theorem addNumbered_coherent (h : Coherent s) (hkeyed : s.tables.Keyed)
    {name : List UInt8} (hname : name.length < 128) {vendor : Int}
    {type : PwType} {value : Int} {flags : AttrFlags} {array : Bool}
    (hother : ∀ a da, s.lastAttr = some a →
      poolGet s.tables.attrs a = .ok da → nameKey da.name ≠ nameKey name)
    (hstep : addNumbered cachedVendor s name vendor type value flags array
      = .ok (s', r)) : Coherent s' := by
  rw [addNumbered] at hstep
  split_ifs at hstep
  · cases hstep
    exact h
  · cases hstep
    exact h
  · exact addEntered_coherent h hkeyed hname hother hstep
  · cases htlv : tlvError flags with
    | some e =>
        rw [htlv] at hstep
        cases hstep
        exact h
    | none =>
        rw [htlv] at hstep
        dsimp only at hstep
        obtain ⟨⟨found, s₁⟩, hfind, hstep⟩ := bind_eq_ok.mp hstep
        obtain ⟨h₁, htables, hattr⟩ := cachedVendor_coherent h hkeyed hfind
        have hkeyed₁ : s₁.tables.Keyed := by
          rw [htables]
          exact hkeyed
        have hother₁ : ∀ a da, s₁.lastAttr = some a →
            poolGet s₁.tables.attrs a = .ok da →
            nameKey da.name ≠ nameKey name := by
          rw [hattr, htables]
          exact hother
        cases found with
        | none =>
            cases hstep
            exact h₁
        | some a =>
            obtain ⟨dv, _, hstep⟩ := bind_eq_ok.mp hstep
            split_ifs at hstep
            · cases hstep
              exact h₁
            · exact addEntered_coherent h₁ hkeyed₁ hname hother₁ hstep

/-- One step keeps the caches coherent, unless it spoils one. -/
theorem coherent_step (h : Coherent s) (hkeyed : s.tables.Keyed)
    (hop : ¬ Spoils s op)
    (hstep : dictStep cachedVendor cachedAttr s op = .ok (s', r)) :
    Coherent s' := by
  cases op with
  | addvendor name value =>
      obtain ⟨t, r', ht, _, hattrs, hvendors⟩ :=
        addvendor_keyed hkeyed name value
      rw [dictStep, ht] at hstep
      injection hstep with hstep
      injection hstep with hs _
      subst hs
      refine ⟨?_, fun a ha => hattrs.has (h.attr a ha)⟩
      intro a ha
      obtain ⟨dv, hdv, hlookup⟩ := h.vendor a ha
      exact hvendors a dv hdv hlookup
        (fun hnew => hop ⟨hnew.1, dv, mem_vendorCache ha hdv, hnew.2⟩)
  | setFormat value type length flags =>
      obtain ⟨t, ht, _, hattrs, hvendors⟩ :=
        setFormat_keyed hkeyed value type length flags
      rw [dictStep, ht] at hstep
      injection hstep with hstep
      injection hstep with hs _
      subst hs
      exact ⟨fun a ha => hvendors a (h.vendor a ha),
        fun a ha => hattrs.has (h.attr a ha)⟩
  | addattr name vendor type value flags array =>
      rw [dictStep, addattr] at hstep
      by_cases hname : 128 ≤ name.length
      · rw [if_pos hname] at hstep
        cases hstep
        exact h
      rw [if_neg hname] at hstep
      obtain ⟨m, hm⟩ := attrNumber_tables s.tables name vendor value
      generalize attrNumber s.tables name vendor value = numbered
        at hm hstep
      obtain ⟨t, number⟩ := numbered
      dsimp only at hm
      subst hm
      have hcounted : Coherent
          { s with tables := { s.tables with maxAttr := m } } :=
        ⟨h.vendor, h.attr⟩
      cases number with
      | none =>
          cases hstep
          exact hcounted
      | some value =>
          refine addNumbered_coherent hcounted ⟨hkeyed.vendorsByname,
            hkeyed.vendorsByvalue, hkeyed.attributesByname⟩
            (show name.length < 128 by omega) ?_ hstep
          intro a da ha hda hsame
          exact hop ⟨da, mem_attrCache ha hda, hsame⟩
  | addvalue namestr attrstr value =>
      rw [dictStep, addvalue] at hstep
      split_ifs at hstep
      · cases hstep
        exact h
      · cases hstep
        exact h
      obtain ⟨⟨found, s₁⟩, hfind, hstep⟩ := bind_eq_ok.mp hstep
      obtain ⟨h₁, htables, hfound⟩ := cachedAttr_coherent h hkeyed hfind
      cases found with
      | none =>
          cases hstep
          exact ⟨h₁.vendor, h₁.attr⟩
      | some a =>
          obtain ⟨da, hda, _⟩ := hkeyed.attributesByname _ a hfound.symm
          rw [← htables] at hkeyed hda
          obtain ⟨t, r', ht, _, hvendors, hattrs⟩ :=
            enterValue_keyed hkeyed namestr attrstr value hda
          dsimp only at hstep
          rw [ht] at hstep
          cases hstep
          exact ⟨fun b hb => hvendors.has (h₁.vendor b hb),
            fun b hb => hattrs b (h₁.attr b hb)⟩
  | fixups =>
      obtain ⟨t, r', ht, _, hvendors, hattrs⟩ :=
        fixups_keyed hkeyed s.tables.valueFixup
      rw [dictStep, ht] at hstep
      injection hstep with hstep
      injection hstep with hs _
      subst hs
      exact ⟨fun a ha => hvendors.has (h.vendor a ha),
        fun a ha => hattrs.has (h.attr a ha)⟩
  | reload =>
      injection hstep with hstep
      injection hstep with hs _
      subst hs
      refine ⟨fun a ha => absurd (.inl ?_) hop, fun a ha => absurd (.inr ?_) hop⟩
      · rw [show s.lastVendor = some a from ha]
        simp
      · rw [show s.lastAttr = some a from ha]
        simp

end coherent

/-- No operation of the run spoils a cache. -/
def Unspoiled : DictState → List DictOp → Prop
  | _, [] => True
  | s, op :: ops => ¬ Spoils s op
      ∧ match dictStep cachedVendor cachedAttr s op with
        | .ok (s', _) => Unspoiled s' ops
        | .error _ => True

instance decidableUnspoiled :
    (s : DictState) → (ops : List DictOp) → Decidable (Unspoiled s ops)
  | _, [] => inferInstanceAs (Decidable True)
  | s, op :: ops =>
      match h : dictStep cachedVendor cachedAttr s op with
      | .ok (s', _) =>
          have := decidableUnspoiled s' ops
          decidable_of_iff (¬ Spoils s op ∧ Unspoiled s' ops)
            (by rw [Unspoiled, h])
      | .error _ =>
          decidable_of_iff (¬ Spoils s op) (by rw [Unspoiled, h, and_true])

/-- A run that spoils no cache never asks a stale one. -/
theorem runFresh_of_unspoiled {s : DictState} {ops : List DictOp}
    (h : Coherent s) (hkeyed : s.tables.Keyed) (hops : Unspoiled s ops) :
    RunFresh s ops := by
  induction ops generalizing s with
  | nil => exact trivial
  | cons op ops ih =>
      refine ⟨h.cacheFresh hkeyed, ?_⟩
      intro s' r hstep
      obtain ⟨s₁, _, r₁, hs₁, _, _, hkeyed₁⟩ :=
        dictStep_alike rfl hkeyed (h.cacheFresh hkeyed)
      rw [hstep] at hs₁
      injection hs₁ with hs₁
      injection hs₁ with hs₁ _
      subst hs₁
      have hrest := hops.2
      rw [hstep] at hrest
      exact ih (coherent_step h hkeyed hops.1 hstep) hkeyed₁ hrest

/-- Without redefinitions of what is cached, and without a reload, no cache
that is stale is asked, and the results and the contents are those of the
dictionary without caches. -/
theorem dictRun_uncached (ops : List DictOp) (h : Unspoiled {} ops) :
    RunFresh {} ops ∧
      ∃ s p rs, dictRun cachedVendor cachedAttr {} ops = .ok (s, rs) ∧
        dictRun plainVendor plainAttr {} ops = .ok (p, rs) ∧
        s.tables = p.tables := by
  have hempty : Coherent {} :=
    ⟨fun _ ha => (by cases ha), fun _ ha => (by cases ha)⟩
  have hfresh := runFresh_of_unspoiled hempty empty_keyed h
  exact ⟨hfresh, dictRun_alike rfl empty_keyed hfresh⟩

/-- A vendor with two attributes, of which one has two values: the second
attribute finds the vendor in the cache, and the second value the
attribute. -/
def hittingRun : List DictOp :=
  [.addvendor (ascii "Cisco") 9,
    .addattr (ascii "Cisco-AVPair") 9 .string 1 {} false,
    .addattr (ascii "Cisco-Port") 9 .integer 2 {} false,
    .addvalue (ascii "None") (ascii "Cisco-Port") 0,
    .addvalue (ascii "One") (ascii "Cisco-Port") 1]

theorem dictRun_uncached_hits :
    (∃ s p rs, dictRun cachedVendor cachedAttr {} hittingRun = .ok (s, rs) ∧
      dictRun plainVendor plainAttr {} hittingRun = .ok (p, rs) ∧
      rs = List.replicate 5 (.ok ()) ∧ s.tables = p.tables) ∧
    (dictRun cachedVendor cachedAttr {} (hittingRun.take 2)).map
      (fun e => e.1.vendorCache.map PoolVendor.vendorpec) = .ok (some 9) ∧
    (dictRun cachedVendor cachedAttr {} (hittingRun.take 4)).map
      (fun e => e.1.attrCache.map PoolAttr.attr)
      = .ok (some (9 * 65536 + 2)) := by
  refine ⟨?_, by decide, by decide⟩
  obtain ⟨-, s, p, rs, hs, hp, htables⟩ :=
    dictRun_uncached hittingRun (by decide)
  have hrs : (dictRun cachedVendor cachedAttr {} hittingRun).map Prod.snd
      = .ok (List.replicate 5 (.ok ())) := by
    decide
  rw [hs] at hrs
  injection hrs with hrs
  exact ⟨s, p, rs, hs, hp, hrs, htables⟩

/-- A vendor's number gets a new name and a format of two bytes; the next
attribute is still checked by the format of the old entry. -/
theorem dictRun_stale_vendor :
    ¬ ∃ s p rs, dictRun cachedVendor cachedAttr {}
        [.addvendor (ascii "Old") 9,
          .addattr (ascii "First") 9 .integer 1 {} false,
          .addvendor (ascii "New") 9, .setFormat 9 2 1 0,
          .addattr (ascii "Second") 9 .integer 300 {} false]
          = .ok (s, rs) ∧
      dictRun plainVendor plainAttr {}
        [.addvendor (ascii "Old") 9,
          .addattr (ascii "First") 9 .integer 1 {} false,
          .addvendor (ascii "New") 9, .setFormat 9 2 1 0,
          .addattr (ascii "Second") 9 .integer 300 {} false]
          = .ok (p, rs) ∧
      s.tables = p.tables := by
  intro h
  obtain ⟨s, p, rs, hs, hp, _⟩ := h
  have hcached : (dictRun cachedVendor cachedAttr {}
      [.addvendor (ascii "Old") 9,
        .addattr (ascii "First") 9 .integer 1 {} false,
        .addvendor (ascii "New") 9, .setFormat 9 2 1 0,
        .addattr (ascii "Second") 9 .integer 300 {} false]).map Prod.snd
      = .ok [.ok (), .ok (), .ok (), .ok (), .error .attrLarger] := by
    decide
  have hplain : (dictRun plainVendor plainAttr {}
      [.addvendor (ascii "Old") 9,
        .addattr (ascii "First") 9 .integer 1 {} false,
        .addvendor (ascii "New") 9, .setFormat 9 2 1 0,
        .addattr (ascii "Second") 9 .integer 300 {} false]).map Prod.snd
      = .ok [.ok (), .ok (), .ok (), .ok (), .ok ()] := by
    decide
  rw [hs] at hcached
  rw [hp] at hplain
  injection hcached with hcached
  injection hplain with hplain
  exact absurd ((show rs = _ from hcached).symm.trans
    (show rs = _ from hplain)) (by decide)

end WinRadius
