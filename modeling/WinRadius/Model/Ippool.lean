/-
The address pool of rlm_ippool.cpp: the session entries by key, and the
count of each address in the ip index.

# The databases

A gdbm file is a finite map. `gdbm_firstkey` and `gdbm_nextkey` give its
keys in an order of their own, and no file is written while it is walked:
a walk is over the list `order`, an enumeration of the keys. No gdbm call
fails.

# Addresses and keys

Addresses are in host order throughout (`ntohl` is applied to what is
stored and to what is put into the reply, never to what is compared). The
key of a request is the digest of the expanded `key` directive; `none` is
an expansion that fails. The mutex is held over each of the two parts of
post-auth, which no other request comes between here.

The count of an address is an `int`: it is not decremented at zero.
-/
import WinRadius.Lib.Run
import WinRadius.Model.Types
import Mathlib.Data.List.AList

namespace WinRadius

-- ======== the entries

/-- `ippool_info`. -/
structure IppoolInfo where
  ipaddr : UInt32
  active : Bool
  cli : List UInt8
  extra : Bool
  timestamp : Nat
  timeout : Nat
  deriving DecidableEq

/-- `ippool_key`: 16 bytes. -/
abbrev IppoolKey := List UInt8

/-- `rlm_ippool_t`: the configuration of an instance. -/
structure RlmIppool where
  name : Option (List UInt8)
  rangeStart : UInt32
  rangeStop : UInt32
  netmask : UInt32
  maxTimeout : Nat
  override : Bool

/-- `data->gdbm` and `data->ip`. -/
structure IppoolDb where
  gdbm : AList fun _ : IppoolKey => IppoolInfo
  ip : AList fun _ : UInt32 => Nat

-- ======== initialisation

/-- Net and broadcast addresses are excluded. -/
def RlmIppool.excluded (data : RlmIppool) (i : UInt32) : Prop :=
  ~~~data.netmask ≠ 0
    ∧ (i ||| data.netmask = data.netmask ∨ ~~~(i ||| data.netmask) = 0)

instance (data : RlmIppool) (i : UInt32) : Decidable (data.excluded i) :=
  inferInstanceAs (Decidable (_ ∧ _))

/-- The digits of a number, with zeros in front. -/
def paddedDigits (width n : Nat) : List UInt8 :=
  let digits := (Nat.toDigits 10 n).map fun c => c.toNat.toUInt8
  List.replicate (width - digits.length) 48 ++ digits

/-- `sprintf(init_str, "%016d", j)`. -/
def initStr (j : UInt32) : List UInt8 :=
  let n := j.toBitVec.toInt
  if n < 0 then 45 :: paddedDigits 15 n.natAbs
  else paddedDigits 16 n.natAbs

/-- An entry that was never active. The caller is `"0"`. -/
def initEntry (i : UInt32) : IppoolInfo where
  ipaddr := i
  active := false
  cli := [48]
  extra := false
  timestamp := 0
  timeout := 0

/-- The loop of `ippool_instantiate` over the range. -/
def initLoop (data : RlmIppool) : Nat → UInt32 → UInt32 →
    AList (fun _ : IppoolKey => IppoolInfo) →
    Option (AList fun _ : IppoolKey => IppoolInfo)
  | 0, _, _, _ => none
  | fuel + 1, i, j, gdbm =>
      if i ≤ data.rangeStop then
        let gdbm := if data.excluded i then gdbm
          else gdbm.insert (initStr j) (initEntry i)
        initLoop data fuel (i + 1) (j - 1) gdbm
      else some gdbm

/-- `ippool_instantiate` with new files. There is no result for a range
it refuses, nor for one that ends at the last address of all, over which
its loop does not end. -/
def ippoolInstantiate (data : RlmIppool) : Option IppoolDb :=
  if data.rangeStart = 0 ∨ data.rangeStop = 0
      ∨ data.rangeStop ≤ data.rangeStart then none
  else (initLoop data (2 ^ 32 + 1) data.rangeStart (~~~0) ∅).map
    fun gdbm => ⟨gdbm, ∅⟩

-- ======== deallocation

/-- `num` of an address. -/
def IppoolDb.num (db : IppoolDb) (a : UInt32) : Nat :=
  (db.ip.lookup a).getD 0

/-- An entry is set inactive, and the count of its address decreased: as
in accounting, so for a stale entry in post-auth. -/
def IppoolDb.deallocate (db : IppoolDb) (key : IppoolKey)
    (entry : IppoolInfo) : IppoolDb :=
  let gdbm := db.gdbm.insert key
    { entry with active := false, timestamp := 0, timeout := 0 }
  match db.ip.lookup entry.ipaddr with
  | none => ⟨gdbm, db.ip⟩
  | some num =>
      if 0 < num then
        let ip := db.ip.insert entry.ipaddr (num - 1)
        -- an entry that was only made for multilink goes
        if 0 < num - 1 ∧ entry.extra = true then ⟨gdbm.erase key, ip⟩
        else ⟨gdbm, ip⟩
      else ⟨gdbm, db.ip⟩

-- ======== requests

/-- The attributes of the reply that the module reads and writes. -/
structure IppoolReply where
  framedIpAddress : Option UInt32
  framedIpNetmask : Option UInt32
  sessionTimeout : Option Nat

/-- What the module reads of a request. -/
structure IppoolRequest where
  acctStatusType : Option Nat
  poolName : Option (List UInt8)
  callingStationId : Option (List UInt8)
  key : Option IppoolKey
  timestamp : Nat
  reply : IppoolReply

/-- `PW_STATUS_STOP`. -/
def pwStatusStop : Nat := 2

/-- The key of an accounting stop. -/
def IppoolRequest.stopKey (request : IppoolRequest) : Option IppoolKey :=
  if request.acctStatusType = some pwStatusStop then request.key else none

/-- `ippool_accounting`. -/
def ippoolAccounting (db : IppoolDb) (request : IppoolRequest) :
    IppoolDb × RlmModule :=
  match request.stopKey with
  | none => (db, .noop)
  | some key =>
      match db.gdbm.lookup key with
      | none => (db, .ok)
      | some entry => (db.deallocate key entry, .ok)

-- ======== post-auth

/-- The `Pool-Name` of the request is the name of this pool, or
`DEFAULT`. -/
def RlmIppool.isNamed (data : RlmIppool) (request : IppoolRequest) :
    Bool :=
  match request.poolName, data.name with
  | some pool, some name =>
      cString name == cString pool
        || cString pool == [68, 69, 70, 65, 85, 76, 84]
  | _, _ => false

/-- The key of a post-auth request for this pool. -/
def RlmIppool.authKey (data : RlmIppool) (request : IppoolRequest) :
    Option IppoolKey :=
  if data.isNamed request = true then request.key else none

/-- A stale entry of the key is deallocated. -/
def IppoolDb.freshen (db : IppoolDb) (key : IppoolKey) : IppoolDb :=
  match db.gdbm.lookup key with
  | none => db
  | some entry =>
      if entry.active = true then db.deallocate key entry else db

/-- `entry.cli` is that of the caller, and the entry is active. -/
def IppoolInfo.isMppp (cli : List UInt8) (entry : IppoolInfo) : Bool :=
  entry.cli == cString cli && entry.active

/-- The entry is not active, or it has expired. -/
def RlmIppool.isOver (data : RlmIppool) (now : Nat) (entry : IppoolInfo) :
    Bool :=
  !entry.active
    || (entry.timestamp != 0
      && ((entry.timeout != 0 && entry.timestamp + entry.timeout ≤ now)
        || (data.maxTimeout != 0
          && entry.timestamp + data.maxTimeout ≤ now)))

/-- A walk through the session database, to the first entry with a
property. -/
def IppoolDb.walk (db : IppoolDb) (p : IppoolInfo → Bool) :
    List IppoolKey → Option (IppoolKey × IppoolInfo)
  | [] => none
  | key :: order =>
      match db.gdbm.lookup key with
      | some entry => if p entry = true then some (key, entry)
          else db.walk p order
      | none => db.walk p order

/-- The first walk: an active entry of the caller. -/
def IppoolDb.findMppp (db : IppoolDb) (request : IppoolRequest)
    (order : List IppoolKey) : Option (IppoolKey × IppoolInfo) :=
  match request.callingStationId with
  | none => none
  | some cli => db.walk (·.isMppp cli) order

/-- The second walk: a free entry. -/
def IppoolDb.findFree (db : IppoolDb) (data : RlmIppool) (now : Nat)
    (order : List IppoolKey) : Option (IppoolKey × IppoolInfo) :=
  db.walk (fun entry => data.isOver now entry && db.num entry.ipaddr == 0)
    order

/-- The entry that is taken goes out of the way: it gets the address of
the key's own entry (`found`), or is deleted. For multilink it stays. -/
def IppoolDb.makeRoom (db : IppoolDb) (found mppp : Bool)
    (key taken : IppoolKey) : AList fun _ : IppoolKey => IppoolInfo :=
  if mppp = true then db.gdbm
  else if found = true then
    match db.gdbm.lookup key with
    | some own => db.gdbm.insert taken own
    | none => db.gdbm
  else db.gdbm.erase taken

/-- The entry that is stored for the request. -/
def IppoolInfo.activate (entry : IppoolInfo) (request : IppoolRequest)
    (mppp : Bool) : IppoolInfo where
  ipaddr := entry.ipaddr
  active := true
  cli := entry.cli
  extra := mppp || entry.extra
  timestamp := request.timestamp
  timeout := request.reply.sessionTimeout.getD 0

/-- The databases after an entry was found. -/
def IppoolDb.allocate (db : IppoolDb) (request : IppoolRequest)
    (found mppp : Bool) (key taken : IppoolKey) (entry : IppoolInfo) :
    IppoolDb :=
  let entry' := entry.activate request mppp
  ⟨(db.makeRoom found mppp key taken).insert key entry',
    db.ip.insert entry'.ipaddr (db.num entry'.ipaddr + 1)⟩

/-- The reply of an allocation. -/
def IppoolReply.give (reply : IppoolReply) (data : RlmIppool)
    (ipaddr : UInt32) : IppoolReply :=
  { reply with
    framedIpAddress := some ipaddr
    framedIpNetmask := reply.framedIpNetmask.or (some data.netmask) }

/-- `Framed-IP-Address` is in the reply already, and is to stay. -/
def RlmIppool.isSettled (data : RlmIppool) (request : IppoolRequest) :
    Bool :=
  request.reply.framedIpAddress.isSome && !data.override

/-- What the second part of post-auth finds: for multilink, or free. -/
def IppoolDb.search (db : IppoolDb) (data : RlmIppool)
    (request : IppoolRequest) (order : List IppoolKey) :
    Option (Bool × IppoolKey × IppoolInfo) :=
  match db.findMppp request order with
  | some hit => some (true, hit)
  | none =>
      (db.findFree data request.timestamp order).map fun hit => (false, hit)

/-- `ippool_postauth`. -/
def ippoolPostauth (data : RlmIppool) (db : IppoolDb)
    (request : IppoolRequest) (order : List IppoolKey) :
    IppoolDb × IppoolReply × RlmModule :=
  match data.authKey request with
  | none => (db, request.reply, .noop)
  | some key =>
      let found := (db.gdbm.lookup key).isSome
      let db := db.freshen key
      if data.isSettled request = true then (db, request.reply, .noop)
      else
        match db.search data request order with
        | none => (db, { request.reply with framedIpAddress := none },
            .notfound)
        | some (mppp, taken, entry) =>
            (db.allocate request found mppp key taken entry,
              request.reply.give data entry.ipaddr, .ok)

-- ======== runs

/-- A request, with the order in which post-auth walks the entries. -/
inductive IppoolCall where
  | postauth (request : IppoolRequest) (order : List IppoolKey)
  | accounting (request : IppoolRequest)

/-- The databases, the `Calling-Station-Id` that each entry was last
activated with, and the addresses that were handed out. -/
structure IppoolRun where
  db : IppoolDb
  caller : IppoolKey → Option (List UInt8)
  handed : List UInt32

namespace IppoolRun

/-- A walk is over all keys. -/
def Admits (data : RlmIppool) (s : IppoolRun) : IppoolCall → Prop
  | .postauth request order => ∀ key, data.authKey request = some key →
      order.Perm (s.db.freshen key).gdbm.keys
  | .accounting _ => True

/-- One request. -/
def call (data : RlmIppool) (s : IppoolRun) : IppoolCall → IppoolRun
  | .accounting request =>
      { s with db := (ippoolAccounting s.db request).1 }
  | .postauth request order =>
      match ippoolPostauth data s.db request order with
      | (db, reply, .ok) =>
          { db := db
            caller := fun key => if data.authKey request = some key
              then request.callingStationId else s.caller key
            handed := reply.framedIpAddress.toList ++ s.handed }
      | (db, _, _) => { s with db := db }

/-- A pool whose files are new. -/
def Initial (data : RlmIppool) (s : IppoolRun) : Prop :=
  ippoolInstantiate data = some s.db ∧ s.handed = []

end IppoolRun

end WinRadius
