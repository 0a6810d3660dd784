/-
The dictionary as the codec sees it (dict.cpp) and the allocation of
pairs from it (valuepair-lib.cpp), with the library's global settings.

A `Dict` is the four lookup tables after `dict_init`: what
`dict_attrbyvalue`, `dict_vendorbyvalue`, `dict_vendorbyname` and
`dict_valbyattr` answer. The tables are keyed by the numbers stored in
their own entries, which is what the two law fields say: a lookup never
answers with an entry of another number.

`processVendor` is the VENDOR line of a dictionary file, the only code
that sets a vendor's wire format; `DictVendor` carries the formats it
lets through.
-/
import WinRadius.Model.Types

namespace WinRadius

open Lib

-- ======== entries

/-- `DICT_ATTR`. -/
structure DictAttr where
  attr : Nat
  type : PwType
  vendor : Nat := 0
  flags : AttrFlags := {}
deriving Repr, DecidableEq

/-- `DICT_VENDOR`: the number of bytes of a sub-attribute's type
(`type`) and length (`length`) fields, and whether a continuation byte
follows them (`flags`). Only `dict_addvendor` (1,1) and `process_vendor`
write the format, which bounds it. -/
structure DictVendor where
  vendorpec : Nat
  type : Nat := 1
  length : Nat := 1
  flags : Bool := false
  pec_le : vendorpec ≤ 65535
  type_ok : type = 1 ∨ type = 2 ∨ type = 4
  length_ok : length = 0 ∨ length = 1 ∨ length = 2
deriving DecidableEq

/-- A vendor with the format `dict_addvendor` starts with. -/
def DictVendor.ofPec (vendorpec : Nat) (flags : Bool)
    (h : vendorpec ≤ 65535) : DictVendor :=
  ⟨vendorpec, 1, 1, flags, h, Or.inl rfl, Or.inr (Or.inl rfl)⟩

/-- A C string without its terminator. -/
abbrev CString := List Char

/-- The dictionary tables. -/
structure Dict where
  attrbyvalue : Nat → Option DictAttr
  vendorbyvalue : Int → Option DictVendor
  vendorbyname : CString → Option DictVendor
  valbyattr : Nat → UInt32 → Option (List UInt8)
  attr_key : ∀ a da, attrbyvalue a = some da → da.attr = a
  vendor_key : ∀ v dv, vendorbyvalue v = some dv →
    v = (dv.vendorpec : Int)

/-- The dictionary before any file is read. -/
def Dict.empty : Dict where
  attrbyvalue _ := none
  vendorbyvalue _ := none
  vendorbyname _ := none
  valbyattr _ _ := none
  attr_key := by simp
  vendor_key := by simp

/-- The dictionary of given entries. -/
def Dict.ofEntries (attrs : List DictAttr) (vendors : List DictVendor) :
    Dict where
  attrbyvalue a := attrs.find? fun da => decide (da.attr = a)
  vendorbyvalue v := vendors.find? fun dv => decide (v = dv.vendorpec)
  vendorbyname _ := none
  valbyattr _ _ := none
  attr_key := by
    intro a da h
    simpa using List.find?_some h
  vendor_key := by
    intro v dv h
    simpa using List.find?_some h

-- ======== the VENDOR line

/-- What `dict_addvendor` can complain about. -/
inductive AddVendorError where
  | idTooLarge
  | nameTooLong
  | duplicateName (name : CString)
deriving DecidableEq

/-- The text `dict_addvendor` leaves in `fr_strerror`. -/
def AddVendorError.text : AddVendorError → String
  | .idTooLarge =>
      "dict_addvendor: Cannot handle vendor ID larger than 65535"
  | .nameTooLong => "dict_addvendor: vendor name too long"
  | .duplicateName name =>
      "dict_addvendor: Duplicate vendor name " ++ String.ofList name

/-- `tolower` as `strcasecmp` uses it. -/
def lowered (s : CString) : CString := s.map Char.toLower

/-- `dict_addvendor`: the name is entered once, the number is
(re)defined. A repeated line with the same number changes nothing. -/
def dictAddvendor (d : Dict) (name : CString) (value : Nat) :
    Except AddVendorError Dict :=
  if h : 65535 < value then .error .idTooLarge
  else if 128 ≤ name.length then .error .nameTooLong
  else match d.vendorbyname (lowered name) with
    | some old =>
        if old.vendorpec ≠ value then .error (.duplicateName name)
        else .ok d
    | none =>
        let dv : DictVendor :=
          { vendorpec := value, pec_le := by omega,
            type_ok := by decide, length_ok := by decide }
        .ok { d with
          vendorbyname := fun n =>
            if n = lowered name then some dv else d.vendorbyname n
          vendorbyvalue := fun v =>
            if v = (value : Int) then some dv else d.vendorbyvalue v
          vendor_key := by
            intro v dv' h'
            split at h'
            · next hv =>
                cases h'
                exact hv
            · exact d.vendor_key v dv' h' }

/-- `isdigit`. -/
def isdigit (c : Char) : Bool := decide ('0' ≤ c ∧ c ≤ '9')

/-- `c - '0'`. -/
def digitVal (c : Char) : Nat := c.toNat - '0'.toNat

/-- `atoi` of a string that starts with a digit. -/
def atoi (s : CString) : Nat :=
  (s.takeWhile isdigit).foldl (fun n c => n * 10 + digitVal c) 0

/-- What `process_vendor` can complain about. -/
inductive VendorError where
  | entry
  | value
  | add (e : AddVendorError)
  | expectedFormat (got : CString)
  | expectedText (got : CString)
  | failedAdding
  | typeValue (n : Nat)
  | lengthValue (n : Nat)
deriving DecidableEq

/-- The text `process_vendor` leaves in `fr_strerror` for line `line` of
file `fn`. -/
def VendorError.text (fn : String) (line : Nat) : VendorError → String
  | .entry => loc ++ " invalid VENDOR entry"
  | .value => loc ++ ": invalid value"
  | .add e => loc ++ ": " ++ e.text
  | .expectedFormat got =>
      loc ++ ": Invalid format for VENDOR.  Expected \"format=\", got \""
        ++ String.ofList got ++ "\""
  | .expectedText got =>
      loc ++ ": Invalid format for VENDOR.  Expected text like \"1,1\", "
        ++ "got \"" ++ String.ofList got ++ "\""
  | .failedAdding => loc ++ ": Failed adding format for VENDOR"
  | .typeValue n =>
      loc ++ ": invalid type value " ++ toString n ++ " for VENDOR"
  | .lengthValue n =>
      loc ++ ": invalid length value " ++ toString n ++ " for VENDOR"
where
  loc : String := "dict_init: " ++ fn ++ "[" ++ toString line ++ "]"

/-- The text `format=`. -/
def formatWord : CString := ['f', 'o', 'r', 'm', 'a', 't', '=']

/-- The three vendors whose format is fixed up when the line has none. -/
def fixupFormat (value : Nat) : Option CString :=
  if value = 429 then some (formatWord ++ ['4', ',', '0'])
  else if value = 4846 then some (formatWord ++ ['2', ',', '1'])
  else if value = 8164 then some (formatWord ++ ['2', ',', '2'])
  else none

/-- The checks on the text after `format=`: two digits, a comma between
them, and nothing or `,c` after. Answers type, length and the
continuation flag. -/
def parseFormat (p : CString) : Except VendorError (Nat × Nat × Bool) :=
  match p with
  | t :: ',' :: l :: rest =>
      if isdigit t && isdigit l then
        match rest with
        | [] => .ok (digitVal t, digitVal l, false)
        | [',', 'c'] => .ok (digitVal t, digitVal l, true)
        | _ => .error (.expectedText p)
      else .error (.expectedText p)
  | _ => .error (.expectedText p)

/-- `dv->type = type; dv->length = length; dv->flags = continuation`, on
the entry of `value`. -/
def Dict.setFormat (d : Dict) (value : Nat) (dv : DictVendor) : Dict :=
  { d with
    vendorbyvalue := fun v =>
      if v = (value : Int) ∧ dv.vendorpec = value then some dv
      else d.vendorbyvalue v
    vendor_key := by
      intro v dv' h'
      split at h'
      · next hv =>
          cases h'
          rw [hv.1, hv.2]
      · exact d.vendor_key v dv' h' }

/-- `process_vendor`: the arguments of a VENDOR line. -/
def processVendor (d : Dict) (argv : List CString) :
    Except VendorError Dict :=
  match argv with
  | name :: number :: more =>
      if 1 < more.length then .error .entry
      else if !(number.head?.any isdigit) then .error .value
      else
        let value := atoi number
        match dictAddvendor d name value with
        | .error e => .error (.add e)
        | .ok d' =>
            match more.head?.or (fixupFormat value) with
            | none => .ok d'
            | some format =>
                if lowered (format.take 7) ≠ formatWord then
                  .error (.expectedFormat format)
                else match parseFormat (format.drop 7) with
                  | .error e => .error e
                  | .ok (type, length, continuation) =>
                      match d'.vendorbyvalue value with
                      | none => .error .failedAdding
                      | some dv =>
                          if ht : type = 1 ∨ type = 2 ∨ type = 4 then
                            if hl : length = 0 ∨ length = 1
                                ∨ length = 2 then
                              .ok (d'.setFormat value
                                { vendorpec := dv.vendorpec
                                  type := type
                                  length := length
                                  flags := continuation
                                  pec_le := dv.pec_le
                                  type_ok := ht
                                  length_ok := hl })
                            else .error (.lengthValue length)
                          else .error (.typeValue type)
  | _ => .error .entry

-- ======== global settings

/-- The library's settings and the code outside the model: the digest
functions, and whether `vp_print_name` finds room for the name of an
attribute that is not in the dictionary (it writes an unterminated buffer
when the vendor's name is long, so its answer depends on what `malloc`
left there). -/
structure Config where
  dict : Dict
  /-- the build defines `NDEBUG` -/
  ndebug : Bool := true
  /-- `fr_max_attributes`, 0 for no limit -/
  maxAttributes : Nat := 0
  /-- MD5 of the concatenation of the `fr_MD5Update` calls -/
  md5 : List UInt8 → AuthVector
  /-- `fr_hmac_md5` of a text under a key -/
  hmacMd5 : List UInt8 → List UInt8 → AuthVector
  /-- `vp_print_name(_, FR_VP_NAME_LEN, attr) != NULL` -/
  vpPrintName : Nat → Bool := fun _ => true
  /-- what `malloc` leaves in a fresh block -/
  heap : Nat → UInt8 := fun _ => 0
  /-- the difference of two pointers into different objects, which
  `rad_vp2tlv` stores as a length on its error path -/
  strayLength : Nat := 0

/-- No dictionary file read, digests all zero. -/
def bareConfig : Config :=
  { dict := .empty, md5 := fun _ => .zero, hmacMd5 := fun _ _ => .zero }

-- ======== allocating pairs

/-- The length `pairalloc` gives a pair of each type. -/
def typeLength : PwType → Nat
  | .byte => 1
  | .short => 2
  | .integer | .ipaddr | .date | .signed => 4
  | .ifid => 8
  | .ipv6addr => 16
  | .ipv6Prefix => 18
  | .ethernet => 6
  | .string | .abinary | .octets | .comboIp | .tlv => 0

/-- `pairalloc`. -/
def pairalloc : Option DictAttr → ValuePair
  | some da =>
      { attr := da.attr, vendor := da.vendor, type := da.type,
        length := typeLength da.type, op := .opInvalid,
        flags := da.flags }
  | none =>
      { attr := 0, type := .octets, op := .opInvalid,
        flags := { unknownAttr := true } }

/-- `paircreate_raw`, `none` when it returns `NULL`. -/
def paircreateRaw (cfg : Config) (attr : Nat) (type : PwType)
    (vp : ValuePair) : Option ValuePair :=
  if !vp.flags.unknownAttr then none
  else if cfg.vpPrintName attr then
    some { vp with
      vendor := vendorOf attr, attr := attr, op := .opEq, type := type,
      length := 0, flags := { unknownAttr := true } }
  else none

/-- `paircreate`. -/
def paircreate (cfg : Config) (attr : Nat) (type : PwType) :
    Option ValuePair :=
  match cfg.dict.attrbyvalue attr with
  | some da => some { pairalloc (some da) with op := .opEq }
  | none =>
      paircreateRaw cfg attr type { pairalloc none with op := .opEq }

/-- A pair from `paircreate` has the number asked for. -/
theorem paircreate_attr {cfg : Config} {attr : Nat} {type : PwType}
    {vp : ValuePair} (h : paircreate cfg attr type = some vp) :
    vp.attr = attr := by
  unfold paircreate at h
  cases hda : cfg.dict.attrbyvalue attr with
  | some da =>
      rw [hda] at h
      cases h
      exact cfg.dict.attr_key attr da hda
  | none =>
      rw [hda] at h
      simp only [paircreateRaw, pairalloc, Bool.not_true,
        Bool.false_eq_true, if_false] at h
      split at h
      · cases h
        rfl
      · cases h

/-- A pair as `paircreate` leaves it. -/
structure Fresh (cfg : Config) (attr : Nat) (vp : ValuePair) : Prop where
  number : vp.attr = attr
  data : vp.data = []
  length : vp.length = typeLength vp.type
  known : ∀ da, cfg.dict.attrbyvalue attr = some da →
    vp.type = da.type ∧ vp.flags = da.flags
  unknown : cfg.dict.attrbyvalue attr = none → vp.type = .octets

theorem paircreate_fresh {cfg : Config} {attr : Nat} {vp : ValuePair}
    (h : paircreate cfg attr .octets = some vp) :
    Fresh cfg attr vp := by
  have hattr := paircreate_attr h
  unfold paircreate at h
  cases hda : cfg.dict.attrbyvalue attr with
  | some da =>
      rw [hda] at h
      cases h
      refine ⟨hattr, rfl, rfl, ?_, ?_⟩
      · intro da' h'
        cases h'.symm.trans hda
        exact ⟨rfl, rfl⟩
      · intro h'
        cases h'.symm.trans hda
  | none =>
      rw [hda] at h
      simp only [paircreateRaw, pairalloc, Bool.not_true,
        Bool.false_eq_true, if_false] at h
      split at h
      · cases h
        refine ⟨rfl, rfl, rfl, ?_, fun _ => rfl⟩
        intro da h'
        cases h'.symm.trans hda
      · cases h

/-- `paircreate` fails over unknown attributes only. -/
theorem unknown_of_paircreate {cfg : Config} {attr : Nat}
    (h : paircreate cfg attr .octets = none) :
    cfg.dict.attrbyvalue attr = none := by
  unfold paircreate at h
  cases hda : cfg.dict.attrbyvalue attr with
  | none => rfl
  | some da =>
      rw [hda] at h
      cases h

/-- `paircreate` succeeds where an unknown attribute's name fits. -/
theorem paircreate_isSome {cfg : Config} {attr : Nat} (type : PwType)
    (h : cfg.vpPrintName attr = true) :
    ∃ vp, paircreate cfg attr type = some vp := by
  unfold paircreate
  cases cfg.dict.attrbyvalue attr with
  | some da => exact ⟨_, rfl⟩
  | none =>
      simp only [paircreateRaw, pairalloc, Bool.not_true,
        Bool.false_eq_true, if_false, h, if_true]
      exact ⟨_, rfl⟩

end WinRadius
