/-
The statement of health of a Windows client: `soh_verify` and
`eapsoh_mstlv` of soh.cpp.

A pointer into the payload is what lies from it to the end of the payload,
and a read that goes further is the fault `overread`. A counter that would
go below zero is the fault `wrap`, a value that does not fit the buffer of
its pair `overwrite`; the run ends there. The bytes read for debug output
are read. The attributes are in the dictionary, so `pairmake` makes them.
-/
import WinRadius.Model.Detail

namespace WinRadius

open Lib

/-- What must not happen on the way. -/
inductive SohFault where
  | overread
  | overwrite
  | wrap
  | hang
deriving Repr, DecidableEq

-- ======== attributes

def sohMsMachineOsVendor : Nat := 2100
def sohMsMachineOsVersion : Nat := 2101
def sohMsMachineOsRelease : Nat := 2102
def sohMsMachineOsBuild : Nat := 2103
def sohMsMachineSpVersion : Nat := 2104
def sohMsMachineSpRelease : Nat := 2105
def sohMsMachineProcessor : Nat := 2106
def sohMsMachineName : Nat := 2107
def sohMsCorrelationId : Nat := 2108
def sohMsMachineRole : Nat := 2109
def sohMsWindowsHealthStatus : Nat := 2120
def sohMsHealthOther : Nat := 2129

/-- An integer pair. -/
def sohInteger (attr value : Nat) : ValuePair where
  attr := attr
  type := .integer
  length := 4
  lvalue := UInt32.ofNat value

/-- A pair whose `vp_strvalue` is written; its length stays what
`pairmake` gave it. -/
def sohString (attr : Nat) (text : List UInt8) : ValuePair where
  attr := attr
  type := .string
  data := text ++ [0]

-- ======== reading

/-- The bytes `p[off .. off + n)`. -/
def sohRead (p : List UInt8) (off n : Nat) : Except SohFault (List UInt8) :=
  if p.length < off + n then .error .overread
  else .ok ((p.drop off).take n)

/-- Bytes as a number, the first the highest. -/
def beNat (bs : List UInt8) : Nat := bs.foldl (fun n b => 256 * n + b.toNat) 0

/-- `soh_pull_be_16(p + off)`, and those of 24 and 32 bits; one byte. -/
def sohPull (p : List UInt8) (off n : Nat) : Except SohFault Nat :=
  (sohRead p off n).map beNat

/-- `n -= k`. -/
def sohSub (n k : Nat) : Except SohFault Nat :=
  if n < k then .error .wrap else .ok (n - k)

-- ======== eapsoh_mstlv

/-- The switch over the type of an item: the pairs, and the bytes the item
has behind its type. `none` is `return 0`. -/
def tvItem (p : List UInt8) (dataLen c : Nat) :
    Except SohFault (Option (List ValuePair × Nat)) :=
  match c with
  | 1 =>
      if dataLen < 18 then .ok none
      else do
        let version ← sohPull p 0 4
        let release ← sohPull p 4 4
        let build ← sohPull p 8 4
        let spVersion ← sohPull p 12 2
        let spRelease ← sohPull p 14 2
        let processor ← sohPull p 16 2
        .ok (some ([sohInteger sohMsMachineOsVendor 311,
          sohInteger sohMsMachineOsVersion version,
          sohInteger sohMsMachineOsRelease release,
          sohInteger sohMsMachineOsBuild build,
          sohInteger sohMsMachineSpVersion spVersion,
          sohInteger sohMsMachineSpRelease spRelease,
          sohInteger sohMsMachineProcessor processor], 18))
  | 2 => do
      let t ← sohPull p 10 2
      .ok (some ([], 12 + t))
  | 3 => do
      let _ ← sohPull p 0 1
      .ok (some ([], 1))
  | 4 | 7 => do
      let t ← sohPull p 0 2
      .ok (some ([], 2 + t))
  | 5 => do
      let t ← sohPull p 0 2
      let name ← sohRead p 2 t
      -- the zero behind the name is written too
      if maxStringLen < t + 1 then .error .overwrite
      else .ok (some ([sohString sohMsMachineName name], 2 + t))
  | 6 => do
      let id ← sohRead p 0 24
      .ok (some ([{ attr := sohMsCorrelationId, type := .octets
                    length := 24, data := id }], 24))
  | 8 => do
      let role ← sohPull p 4 1
      .ok (some ([sohInteger sohMsMachineRole role], 5))
  | _ => .ok none

/-- `eapsoh_mstlv`: the pairs, and what it returns. -/
def eapsohMstlv : Nat → List UInt8 → Nat → List ValuePair →
    Except SohFault (List ValuePair × Int)
  | 0, _, _, _ => .error .hang
  | fuel + 1, p, dataLen, vps =>
      if dataLen = 0 then .ok (vps, 1)
      else do
        let c ← sohPull p 0 1
        let item ← tvItem (p.drop 1) (dataLen - 1) c
        match item with
        | none => .ok (vps, 0)
        | some (made, size) => do
            let dataLen ← sohSub (dataLen - 1) size
            eapsohMstlv fuel (p.drop (1 + size)) dataLen (vps ++ made)

-- ======== health classes

/-- `clientstatus2str`. -/
def clientstatus2str (hcstatus : Nat) : Option String :=
  match hcstatus with
  | 0xff0005 => some "wua-ok"
  | 0xff0006 => some "wua-missing"
  | 0xff0008 => some "wua-not-started"
  | 0xc0ff000c => some "wua-no-wsus-server"
  | 0xc0ff000d => some "wua-no-wsus-clientid"
  | 0xc0ff000e => some "wua-disabled"
  | 0xc0ff000f => some "wua-comm-failure"
  | 0xc0ff0002 => some "not-installed"
  | 0xc0ff0003 => some "down"
  | 0xc0ff0018 => some "not-started"
  | _ => none

/-- `healthclass2str`; the class is cut to a byte. -/
def healthclass2str (hc : Int) : Option String :=
  match hc % 256 with
  | 0 => some "firewall"
  | 1 => some "antivirus"
  | 2 => some "antispyware"
  | 3 => some "updates"
  | 4 => some "security-updates"
  | _ => none

/-- `%08x`. -/
def hex08 (n : Nat) : String :=
  let digits := Nat.toDigits 16 (n % 4294967296)
  String.ofList (List.replicate (8 - digits.length) '0' ++ digits)

/-- `%i`. -/
def decInt (n : Int) : String :=
  if n < 0 then "-" ++ String.ofList (Nat.toDigits 10 n.natAbs)
  else String.ofList (Nat.toDigits 10 n.natAbs)

/-- What is said of the security updates. -/
def securityUpdates (hcstatus : Nat) : String :=
  match hcstatus with
  | 0xff0005 => "security-updates ok all-installed"
  | 0xff0006 => "security-updates warn some-missing"
  | 0xff0008 => "security-updates warn never-started"
  | 0xc0ff000c => "security-updates error no-wsus-srv"
  | 0xc0ff000d => "security-updates error no-wsus-clid"
  | 0xc0ff000e => "security-updates warn wsus-disabled"
  | 0xc0ff000f => "security-updates error comm-failure"
  | 0xc0ff0010 => "security-updates warn needs-reboot"
  | _ => "security-updates error " ++ hex08 hcstatus

/-- What is said of the automatic updates. -/
def autoUpdates (hcstatus : Nat) : String :=
  match hcstatus with
  | 1 => "auto-updates warn disabled"
  | 2 => "auto-updates ok action=check-only"
  | 3 => "auto-updates ok action=download"
  | 4 => "auto-updates ok action=install"
  | 5 => "auto-updates warn unconfigured"
  | 0xc0ff0003 => "auto-updates warn service-down"
  | 0xc0ff0018 => "auto-updates warn never-started"
  | _ => "auto-updates error " ++ hex08 hcstatus

/-- `hcstatus & flag ? 1 : 0`. -/
def flagBit (hcstatus flag : Nat) : String :=
  if hcstatus &&& flag ≠ 0 then "1" else "0"

/-- What is said of any other class. -/
def otherHealth (currHc : Int) (hcstatus : Nat) : String :=
  match healthclass2str currHc with
  | none => decInt currHc ++ " unknown " ++ hex08 hcstatus
  | some s =>
      if hcstatus &&& 0xff000000 ≠ 0 then
        match clientstatus2str hcstatus with
        | some t => s ++ " error " ++ t
        | none => s ++ " error " ++ hex08 hcstatus
      else
        s ++ " ok snoozed=" ++ flagBit hcstatus 8
          ++ " microsoft=" ++ flagBit hcstatus 4
          ++ " up2date=" ++ flagBit hcstatus 2
          ++ " enabled=" ++ flagBit hcstatus 1

def healthStatus (currHc : Int) (hcstatus : Nat) : String :=
  match currHc with
  | 4 => securityUpdates hcstatus
  | 3 => autoUpdates hcstatus
  | _ => otherHealth currHc hcstatus

-- ======== soh_verify

/-- `curr_shid`, `curr_shid_c` and `curr_hc`: -1 until they are known. -/
structure SohState where
  currShid : Int := -1
  currShidC : Int := -1
  currHc : Int := -1
  vps : List ValuePair
deriving DecidableEq

/-- The switch over the type of a TLV. -/
def sohTlv (p : List UInt8) (tlvType tlvLen : Nat) (st : SohState) :
    Except SohFault SohState :=
  match tlvType with
  | 2 => do
      let shid ← sohPull p 0 3
      let component ← sohPull p 3 1
      .ok { st with currShid := shid, currShidC := component }
  | 7 =>
      if st.currShid = 0x137 ∧ st.currShidC = 0 then do
        let dataLen ← sohSub tlvLen 4
        let (vps, _) ← eapsohMstlv (dataLen + 1) (p.drop 4) dataLen st.vps
        .ok { st with vps := vps }
      else .ok st
  | 8 => do
      let hc ← sohPull p 0 1
      .ok { st with currHc := hc }
  | 9 => do
      let _ ← sohPull p 0 1
      .ok st
  | 11 =>
      if st.currShid = 0x137 ∧ st.currShidC = 128 then do
        let hcstatus ← sohPull p 0 4
        .ok { st with vps := st.vps ++ [sohString sohMsWindowsHealthStatus
          (ascii (healthStatus st.currHc hcstatus))] }
      else
        let shid := hex08 (st.currShid % 4294967296).toNat
        .ok { st with vps := st.vps ++ [sohString sohMsHealthOther
          (ascii (shid ++ "/" ++ decInt st.currShidC ++ " ?"))] }
  | _ => .ok st

/-- The loop over the TLVs. -/
def sohLoop : Nat → List UInt8 → Nat → SohState → Except SohFault SohState
  | 0, _, _, _ => .error .hang
  | fuel + 1, p, dataLen, st =>
      if dataLen < 4 then .ok st
      else do
        let tlvType ← sohPull p 0 2
        let tlvLen ← sohPull p 2 2
        let st ← sohTlv (p.drop 4) tlvType tlvLen st
        let dataLen ← sohSub (dataLen - 4) tlvLen
        sohLoop fuel (p.drop (4 + tlvLen)) dataLen st

/-- From the TLVs on. -/
def sohTlvs (p : List UInt8) (dataLen : Nat) (vps : List ValuePair) :
    Except SohFault (List ValuePair × Int) :=
  (sohLoop (dataLen + 1) p dataLen ⟨-1, -1, -1, vps⟩).map fun st =>
    (st.vps, 0)

/-- The mode sub-header, and what follows it. -/
def sohMode (data : List UInt8) (innerLen : Nat) (vps : List ValuePair) :
    Except SohFault (List ValuePair × Int) := do
  let outerType ← sohPull data 24 2
  let _ ← sohPull data 26 2
  let vendor ← sohPull data 28 4
  let _ ← sohRead data 32 24
  let _ ← sohPull data 56 1
  let contentType ← sohPull data 57 1
  if outerType ≠ 7 ∨ vendor ≠ 0x137 ∨ contentType ≠ 0 then .ok (vps, -1)
  else do
    let dataLen ← sohSub innerLen 34
    sohTlvs (data.drop 58) dataLen vps

/-- `soh_verify`, of the bytes it is given and the pairs there are: the
pairs afterwards, and what it returns. -/
def sohVerify (data : List UInt8) (vps : List ValuePair) :
    Except SohFault (List ValuePair × Int) := do
  let tlvType ← sohPull data 0 2
  let _ ← sohPull data 2 2
  let tlvVendor ← sohPull data 4 4
  if tlvType ≠ 7 ∨ tlvVendor ≠ 0x137 then .ok (vps, -1)
  else do
    let sohType ← sohPull data 8 2
    let _ ← sohPull data 10 2
    if sohType ≠ 1 then .ok (vps, -1)
    else do
      let outerType ← sohPull data 12 2
      let _ ← sohPull data 14 2
      let vendor ← sohPull data 16 4
      let innerType ← sohPull data 20 2
      let innerLen ← sohPull data 22 2
      if outerType ≠ 7 ∨ vendor ≠ 0x137 then .ok (vps, -1)
      else if innerType = 1 then sohTlvs (data.drop 24) innerLen vps
      else if innerType = 2 then sohMode data innerLen vps
      else .ok (vps, -1)

end WinRadius
