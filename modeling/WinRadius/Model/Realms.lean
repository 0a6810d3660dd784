/-
`home_server_ldb` of realms.cpp: the home server that a request of a realm
is sent to.

The random numbers, a new proxy packet and the pair that
`radius_pairmake` makes of "Message-Authenticator" are an `LdbEnv`. The
build has no regular expressions, so realms are found by name only.
-/
import WinRadius.Model.Detail
import WinRadius.Model.Proxy

namespace WinRadius

open Lib

def pwLoadBalanceKey : Nat := 1025

-- ======== the state

/-- `home_server`, what is read of it here. -/
structure LdbServer where
  ipaddr : FrIpaddr
  port : Nat
  srcIpaddr : FrIpaddr := {}
  state : HomeState := .alive
  pingCheck : PingCheck := .none
  currentlyOutstanding : Int := 0
  maxOutstanding : Int := 65536
  messageAuthenticator : Bool := false

/-- `home_pool_type_t`. -/
inductive PoolType where
  | invalid | loadBalance | failOver | clientBalance | clientPortBalance
  | keyedBalance
deriving Repr, DecidableEq

/-- `home_pool_t`. No pool is made without a place for a server. -/
structure HomePool where
  type : PoolType
  servers : List (Option HomeId)
  fallback : Option HomeId := none
  nonempty : 0 < servers.length

/-- `REALM`. -/
structure Realm where
  name : List UInt8
  authPool : Option HomePool := none
  acctPool : Option HomePool := none

/-- `realm_config`, with `realms_byname`. -/
structure RealmConfig where
  fallback : Bool := false
  wakeAllIfAllDead : Bool := false
  realms : List Realm := []

/-- `REQUEST`: `fromDetail` is the type of its listener. -/
structure LdbRequest where
  fromDetail : Bool := false
  packet : RadiusPacket
  configItems : List ValuePair := []
  proxy : Option RadiusPacket := none
  homeServer : Option HomeId := none

/-- What a call takes from outside: what `fr_rand` gives at each call and
count, the packet `rad_alloc` makes, and a Message-Authenticator. -/
structure LdbEnv where
  rand : Nat → Nat → UInt32
  radAlloc : RadiusPacket
  messageAuthenticator : ValuePair

/-- The home servers by address. -/
abbrev LdbServers := HomeId → LdbServer

-- ======== realms

/-- `realm_find`. -/
def realmFind (cfg : RealmConfig) (name : List UInt8) : Option Realm :=
  (cfg.realms.find? fun r => sameNoCase r.name name).or
    (cfg.realms.find? fun r => sameNoCase r.name (ascii "DEFAULT"))

-- ======== the choice

/-- `fr_hash` of the address of the client. -/
def clientHash (ip : FrIpaddr) : UInt32 :=
  if ip.af = afInet ∨ ip.af = afInet6 then frHash ip.octets else 0

/-- `start`. The port is hashed too, but nothing is done with the result. -/
def HomePool.start (pool : HomePool) (request : LdbRequest) : Nat :=
  match pool.type with
  | .clientBalance | .clientPortBalance =>
      (clientHash request.packet.srcIpaddr).toNat % pool.servers.length
  | .keyedBalance =>
      match pairfind request.configItems pwLoadBalanceKey with
      | some vp => (frHash (vp.octets vp.length)).toNat % pool.servers.length
      | none => 0
  | _ => 0

/-- The servers in the order the loop goes through them, each with
`count`. -/
def HomePool.cycle (pool : HomePool) (start : Nat) :
    List (Nat × Option HomeId) :=
  (List.range pool.servers.length).map fun count =>
    (count, pool.servers.getD ((start + count) % pool.servers.length) none)

/-- The packet was read from a detail file, and came from this server. -/
def LdbRequest.cameFrom (request : LdbRequest) (home : LdbServer) : Bool :=
  request.fromDetail && request.packet.code == pwAccountingRequest
    && frIpaddrCmp home.ipaddr request.packet.srcIpaddr == 0

/-- The loop over the home servers: `found` and `zombie`. -/
def ldbLoop (homes : LdbServers) (request : LdbRequest) (type : PoolType)
    (rand : Nat → UInt32) : List (Nat × Option HomeId) →
      Option HomeId → Option HomeId → Option HomeId × Option HomeId
  | [], found, zombie => (found, zombie)
  | (_, none) :: rest, found, zombie =>
      ldbLoop homes request type rand rest found zombie
  | (count, some id) :: rest, found, zombie =>
      let home := homes id
      if home.state = .isDead then
        ldbLoop homes request type rand rest found zombie
      else if home.maxOutstanding ≤ home.currentlyOutstanding then
        ldbLoop homes request type rand rest found zombie
      else if request.cameFrom home = true then
        ldbLoop homes request type rand rest found zombie
      else if home.state = .zombie then
        ldbLoop homes request type rand rest found (zombie.or (some id))
      else if type ≠ .loadBalance then (some id, zombie)
      else
        match found with
        | none => ldbLoop homes request type rand rest (some id) zombie
        | some best =>
            if home.currentlyOutstanding
                < (homes best).currentlyOutstanding then
              ldbLoop homes request type rand rest (some id) zombie
            else if (homes best).currentlyOutstanding
                < home.currentlyOutstanding then
              ldbLoop homes request type rand rest (some best) zombie
            else if UInt32.ofNat (count + 1) * (rand count &&& 0xffff)
                < 0x10000 then
              ldbLoop homes request type rand rest (some id) zombie
            else ldbLoop homes request type rand rest (some best) zombie

/-- `found` before anything is revived: the loop, a zombie, the
fallback. -/
def HomePool.choose (pool : HomePool) (homes : LdbServers)
    (request : LdbRequest) (rand : Nat → UInt32) : Option HomeId :=
  let (found, zombie) := ldbLoop homes request pool.type rand
    (pool.cycle (pool.start request)) none none
  (found.or zombie).or pool.fallback

/-- The loop that marks servers as alive that are not pinged. -/
def wakeLoop : List (Option HomeId) → LdbServers → Option HomeId →
    LdbServers × Option HomeId
  | [], homes, found => (homes, found)
  | none :: rest, homes, found => wakeLoop rest homes found
  | some id :: rest, homes, found =>
      if (homes id).state = .isDead ∧ (homes id).pingCheck = .none then
        wakeLoop rest
          (Function.update homes id { homes id with state := .alive })
          (found.or (some id))
      else wakeLoop rest homes found

/-- `update_and_return`: the request that goes to the server. -/
def updateAndReturn (env : LdbEnv) (homes : LdbServers)
    (request : LdbRequest) (found : HomeId) : LdbRequest :=
  let home := homes found
  let proxy := request.proxy.getD
    { env.radAlloc with vps := request.packet.vps }
  let vps :=
    if home.messageAuthenticator = true
        ∧ request.packet.code = pwAuthenticationRequest
        ∧ pairfind proxy.vps pwMessageAuthenticator = none then
      proxy.vps ++ [env.messageAuthenticator]
    else proxy.vps
  let proxy : RadiusPacket :=
    { proxy with
      srcIpaddr := home.srcIpaddr
      dstIpaddr := home.ipaddr
      dstPort := home.port
      vps := vps }
  { request with proxy := some proxy, homeServer := some found }

/-- What a call leaves, and the server it returns. -/
structure LdbResult where
  homes : LdbServers
  request : LdbRequest
  found : Option HomeId

/-- The pool of a realm for the kind of the request. -/
def Realm.pool (rd : Realm) (request : LdbRequest) : Option HomePool :=
  if request.packet.code = pwAuthenticationRequest then rd.authPool
  else if request.packet.code = pwAccountingRequest then rd.acctPool
  else none

/-- `home_server_ldb`. `none` is a call whose recursion has not come to an
end. -/
def homeServerLdb (cfg : RealmConfig) (env : LdbEnv)
    (request : LdbRequest) :
    Nat → LdbServers → Option (List UInt8) → HomePool → Option LdbResult
  | 0, _, _, _ => none
  | fuel + 1, homes, realmname, pool =>
      match pool.choose homes request (env.rand fuel) with
      | some found =>
          some ⟨homes, updateAndReturn env homes request found, some found⟩
      | none =>
          let (homes', woken) :=
            if cfg.fallback = false ∧ cfg.wakeAllIfAllDead = true then
              wakeLoop pool.servers homes none
            else (homes, none)
          match woken with
          | some found =>
              some ⟨homes', updateAndReturn env homes' request found,
                some found⟩
          | none =>
              match realmname with
              | none => some ⟨homes', request, none⟩
              | some name =>
                  if cfg.fallback = true ∧ cString name ≠ ascii "NULL"
                      ∧ cString name ≠ ascii "DEFAULT" then
                    match realmFind cfg (ascii "DEFAULT") with
                    | none => some ⟨homes', request, none⟩
                    | some rd =>
                        match rd.pool request with
                        | none => some ⟨homes', request, none⟩
                        | some pool =>
                            homeServerLdb cfg env request fuel homes'
                              (some rd.name) pool
                  else some ⟨homes', request, none⟩

end WinRadius
