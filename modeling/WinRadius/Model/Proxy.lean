/-
The proxy side of event.cpp: requests sent to home servers, the hash their
replies are found in, and the state of the home servers.

# Pointers

`proxy_list` holds `&request->proxy`, and `fr_packet2myptr` gets the request
back from that address. The tree holds the packets themselves; `owners` are
the addresses behind them. What the tree compares of a packet is not
written while it is in the list.

# What is outside

Opening a socket, `fr_rand`, the clock and `request_alloc` are the `SendEnv`
of a step. So is what becomes of a request that is given up: the handlers
that run then belong to the side of the client.

Timers are kept as what they call, not as when: an event of a home server
may go off at any step, and so may that of a request.
-/
import WinRadius.Model.PacketList
import WinRadius.Model.Sign

namespace WinRadius

open Lib

-- ======== the state

/-- The address of a `REQUEST`. -/
abbrev RequestId := Nat

/-- The address of a `home_server`. -/
abbrev HomeId := Nat

/-- `REQUEST_QUEUED` to `REQUEST_DONE`. -/
inductive ChildState where
  | queued | running | proxied | rejectDelay | cleanupDelay | done
deriving Repr, DecidableEq

/-- `HOME_STATE_*`. -/
inductive HomeState where
  | alive | zombie | isDead
deriving Repr, DecidableEq

/-- `HOME_PING_CHECK_*`. -/
inductive PingCheck where
  | none | statusServer | request
deriving Repr, DecidableEq

/-- The callback that the event `home->ev` runs. -/
inductive HomeCallback where
  | pingHomeServer | reviveHomeServer
deriving Repr, DecidableEq

def usec : Nat := 1000000

def homeTypeAuth : Nat := 1

/-- `home_server`. Times are in microseconds but for `last_packet` and
`zombie_period`, which are in seconds. -/
structure HomeServer where
  server : Bool := false
  ipaddr : FrIpaddr
  port : Nat
  type : Nat := homeTypeAuth
  secret : List UInt8
  ev : Option HomeCallback := none
  currentlyOutstanding : Int := 0
  lastPacket : Nat := 0
  zombiePeriodStart : Nat := 0
  zombiePeriod : Nat := 40
  state : HomeState := .alive
  pingCheck : PingCheck := .none
  numPingsToAlive : Int := 3
  numReceivedPings : Int := 0
  srcIpaddr : FrIpaddr := {}

/-- The fields of a `REQUEST` that proxying reads. `packet` is `none` for a
status check; `attached` is that the request is its parent's `coa`. -/
structure ProxyRequest where
  packet : Option RadiusPacket := none
  replyCode : Nat := 0
  proxy : RadiusPacket
  proxyReply : Option RadiusPacket := none
  homeServer : Option HomeId := none
  proxyListener : Option Nat := none
  inProxyHash : Bool := false
  numProxiedRequests : Int := 0
  numProxiedResponses : Int := 0
  childState : ChildState := .running
  attached : Bool := false

/-- The variables of event.cpp with the requests and the home servers.
`proxyFds` is -1 where no socket is. -/
structure ProxyState where
  proxyList : PacketList
  owners : List (RadiusPacket × RequestId) := []
  proxyFds : List Int := List.replicate 32 (-1)
  proxyAllUsed : Bool := false
  requests : RequestId → Option ProxyRequest
  homes : HomeId → HomeServer

/-- What a send takes from outside: the numbers `fr_rand() & 0xff` of two
allocations, the socket `proxy_new_listener` opens with what `getsockname`
says of it, and the request that a status check gets. -/
structure SendEnv where
  start : Nat := 0
  listener : Option (Int × Option Sockaddr) := none
  again : Nat := 0
  fresh : RequestId := 0

namespace ProxyState

variable (s : ProxyState)

/-- `*request = q`. -/
def setRequest (r : RequestId) (q : ProxyRequest) : ProxyState :=
  { s with requests := Function.update s.requests r (some q) }

/-- `*home = h`. -/
def setHome (h : HomeId) (home : HomeServer) : ProxyState :=
  { s with homes := Function.update s.homes h home }

/-- `fr_packet2myptr(REQUEST, proxy, proxy_p)`. -/
def ownerOf (p : RadiusPacket) : Option RequestId :=
  (s.owners.find? fun o => o.1 = p).map Prod.snd

-- ======== the packet list

/-- `fr_packet_list_yank(proxy_list, packet)`. -/
def yankProxy (packet : RadiusPacket) : ProxyState :=
  match s.proxyList.yank packet with
  | (pl, none) => { s with proxyList := pl }
  | (pl, some p) =>
      { s with
        proxyList := pl
        owners := s.owners.filter fun o => o.1 ≠ p }

/-- `fr_packet_list_id_free(proxy_list, packet)`. -/
def idFreeProxy (packet : RadiusPacket) : ProxyState :=
  { s with proxyList := (s.proxyList.idFree packet).1 }

/-- `proxy_add_fds`: the entry that is taken. -/
def proxyAddFds (fd : Int) : Option Nat :=
  ringFind 32 (fun i => s.proxyFds.getD i (-1) == -1) 32 (fd % 32).toNat

/-- `proxy_id_alloc`: the packet with its id, and the return. -/
def proxyIdAlloc (packet : RadiusPacket) (env : SendEnv) :
    ProxyState × RadiusPacket × Bool :=
  match s.proxyList.idAlloc packet env.start with
  | (pl, packet, .ok _) => ({ s with proxyList := pl }, packet, true)
  | (pl, packet, .error _) =>
      let s := { s with proxyList := pl }
      if s.proxyAllUsed then (s, packet, false)
      else
        match env.listener with
        | none => (s, packet, false)
        | some (fd, src) =>
            match s.proxyAddFds fd with
            | none => ({ s with proxyAllUsed := true }, packet, false)
            | some i =>
                let s := { s with proxyFds := s.proxyFds.set i fd }
                match s.proxyList.socketAdd fd src with
                | (pl, false) =>
                    ({ s with proxyList := pl }, packet, false)
                | (pl, true) =>
                    match pl.idAlloc packet env.again with
                    | (pl, packet, .error _) =>
                        ({ s with proxyList := pl }, packet, false)
                    | (pl, packet, .ok _) =>
                        ({ s with proxyList := pl }, packet, true)

-- ======== the proxy hash

/-- The request is counted at its home server. -/
def countOutstanding (home : Option HomeId) : ProxyState :=
  match home with
  | none => s
  | some h =>
      s.setHome h { s.homes h with
        currentlyOutstanding := (s.homes h).currentlyOutstanding + 1 }

/-- A request that has no reply so far is counted no more. -/
def uncountOutstanding (q : ProxyRequest) : ProxyState :=
  match q.homeServer with
  | none => s
  | some h =>
      if q.proxyReply = none ∧ (s.homes h).currentlyOutstanding ≠ 0 then
        s.setHome h { s.homes h with
          currentlyOutstanding := (s.homes h).currentlyOutstanding - 1 }
      else s

/-- `insert_into_proxy_hash`, from where the packet has its id on. -/
def listProxy (r : RequestId) (q : ProxyRequest) :
    Option (ProxyState × Bool) :=
  match s.proxyFds.findIdx? fun fd => fd == q.proxy.sockfd with
  | none => some (s.setRequest r q, false)
  | some i => do
      let q := { q with proxyListener := some i }
      match ← s.proxyList.insert q.proxy with
      | (pl, false) =>
          let s := { s with proxyList := pl }
          return ((s.idFreeProxy q.proxy).setRequest r q, false)
      | (pl, true) =>
          let s := { s with
            proxyList := pl
            owners := (q.proxy, r) :: s.owners }
          return (s.setRequest r { q with inProxyHash := true }, true)

/-- `insert_into_proxy_hash`. -/
def insertIntoProxyHash (r : RequestId) (retransmit : Bool)
    (env : SendEnv) : Option (ProxyState × Bool) := do
  let q ← s.requests r
  let s := s.countOutstanding q.homeServer
  if retransmit then
    match s.proxyIdAlloc q.proxy env with
    | (s, _, false) => return (s, false)
    | (s, packet, true) =>
        let s := (s.yankProxy q.proxy).idFreeProxy q.proxy
        s.listProxy r { q with proxy := packet }
  else
    match s.proxyIdAlloc q.proxy env with
    | (s, packet, false) =>
        return (s.setRequest r { q with proxy := packet }, false)
    | (s, packet, true) => s.listProxy r { q with proxy := packet }

/-- `lookup_in_proxy_hash`. -/
def lookupInProxyHash (reply : RadiusPacket) :
    Option (ProxyState × RequestId) := do
  let p ← s.proxyList.findByreply reply
  let r ← s.ownerOf p
  let q ← s.requests r
  let q := { q with numProxiedResponses := q.numProxiedResponses + 1 }
  if q.numProxiedRequests = q.numProxiedResponses then
    let s := (s.yankProxy q.proxy).idFreeProxy q.proxy
    let s := s.setRequest r { q with inProxyHash := false }
    return (s.uncountOutstanding q, r)
  else return ((s.setRequest r q).uncountOutstanding q, r)

/-- `remove_from_proxy_hash`. -/
def removeFromProxyHash (r : RequestId) (q : ProxyRequest) : ProxyState :=
  if q.inProxyHash = false then s
  else
    let s := (s.yankProxy q.proxy).idFreeProxy q.proxy
    let s := s.uncountOutstanding q
    s.setRequest r { q with inProxyHash := false }

/-- `ev_request_free`. -/
def evRequestFree (r : RequestId) : ProxyState :=
  match s.requests r with
  | none => s
  | some q =>
      let s := s.removeFromProxyHash r q
      { s with requests := Function.update s.requests r none }

-- ======== home servers

/-- `revive_home_server`. -/
def reviveHomeServer (h : HomeId) : ProxyState :=
  s.setHome h { s.homes h with
    state := .alive
    currentlyOutstanding := 0
    ev := none }

/-- The status check that `ping_home_server` makes up. -/
def statusCheck (h : HomeId) : ProxyRequest :=
  let home := s.homes h
  { proxy := {
      code :=
        if home.pingCheck = .statusServer then pwStatusServer
        else if home.type = homeTypeAuth then pwAuthenticationRequest
        else pwAccountingRequest
      dstIpaddr := home.ipaddr
      dstPort := home.port }
    homeServer := some h }

/-- `ping_home_server`; false where the status check cannot be inserted and
is discarded. -/
def pingHomeServer (h : HomeId) (env : SendEnv) :
    Option (ProxyState × Bool) :=
  let home := s.homes h
  if home.state = .alive ∨ home.pingCheck = .none ∨ home.ev ≠ none then
    some (s, true)
  else do
    let r := env.fresh
    match ← (s.setRequest r (s.statusCheck h)).insertIntoProxyHash r false
        env with
    | (s, false) => return (s.evRequestFree r, false)
    | (s, true) =>
        let q ← s.requests r
        let s := s.setRequest r { q with childState := .proxied }
        return (s.setHome h { s.homes h with ev := some .pingHomeServer },
          true)

/-- `mark_home_server_dead`. -/
def markHomeServerDead (h : HomeId) (env : SendEnv) :
    Option (ProxyState × Bool) :=
  let previousState := (s.homes h).state
  let s := s.setHome h { s.homes h with
    state := .isDead
    numReceivedPings := 0 }
  if (s.homes h).pingCheck ≠ .none then
    if previousState = .alive then s.pingHomeServer h env
    else some (s, true)
  else
    some (s.setHome h { s.homes h with ev := some .reviveHomeServer },
      true)

/-- `check_for_zombie_home_server`. -/
def checkForZombieHomeServer (h : HomeId) (now : Nat) (env : SendEnv) :
    Option (ProxyState × Bool) :=
  let home := s.homes h
  if home.state ≠ .zombie then some (s, true)
  else if now < home.zombiePeriodStart + home.zombiePeriod * usec then
    some (s, true)
  else s.markHomeServerDead h env

/-- `received_response_to_ping`. -/
def receivedResponseToPing (r : RequestId) (q : ProxyRequest)
    (h : HomeId) : ProxyState :=
  let s := s.setHome h { s.homes h with
    numReceivedPings := (s.homes h).numReceivedPings + 1 }
  let s := s.removeFromProxyHash r q
  let home := s.homes h
  if home.state = .alive then s
  else if home.numReceivedPings < home.numPingsToAlive then s
  else
    s.setHome h { home with
      state := .alive
      currentlyOutstanding := 0
      ev := none }

/-- A request without a reply: `post_proxy_fail_handler` or `wait_a_bit`
leaves it in some state, or frees it. -/
def giveUp (r : RequestId) (fate : Option ChildState) : ProxyState :=
  match s.requests r, fate with
  | some q, some c => s.setRequest r { q with childState := c }
  | _, _ => s.evRequestFree r

/-- `no_response_to_ping`; `late` is whether the wait for its id is over. -/
def noResponseToPing (r : RequestId) (now : Nat) (late : Bool)
    (env : SendEnv) : Option (ProxyState × Bool) := do
  let q ← s.requests r
  let h ← q.homeServer
  let s := s.setHome h { s.homes h with numReceivedPings := 0 }
  let (s, sent) ← s.checkForZombieHomeServer h now env
  return (if late then s.evRequestFree r else s, sent)

/-- The home server becomes a zombie. -/
def markZombie (h : HomeId) : ProxyState :=
  let home := s.homes h
  s.setHome h { home with
    state := .zombie
    zombiePeriodStart := home.lastPacket * usec + usec / 2
    ev := none
    currentlyOutstanding := 0
    numReceivedPings := 0 }

/-- `no_response_to_proxied_request`. -/
def noResponseToProxiedRequest (r : RequestId) (now : Nat)
    (fate : Option ChildState) (env : SendEnv) :
    Option (ProxyState × Bool) := do
  let q ← s.requests r
  let h ← q.homeServer
  if (s.homes h).server then return (s, true)
  else
    let (s, sent) ← s.checkForZombieHomeServer h now env
    let s := s.giveUp r fate
    let home := s.homes h
    if home.state ≠ .alive then return (s, sent)
    else if now / usec ≤ home.lastPacket + (home.zombiePeriod + 3) / 4 then
      return (s, sent)
    else
      let (s, sent') ← (s.markZombie h).pingHomeServer h env
      return (s, sent && sent')

/-- The servers of a pool that `home_server_ldb` wakes when all of them are
dead. -/
def wakeAllIfAllDead (pool : List HomeId) : ProxyState :=
  pool.foldl (fun s h =>
    if (s.homes h).state = .isDead ∧ (s.homes h).pingCheck = .none then
      s.setHome h { s.homes h with state := .alive }
    else s) s

-- ======== requests

/-- `proxy_request`. -/
def proxyRequest (r : RequestId) (env : SendEnv) :
    Option (ProxyState × Bool) := do
  let q ← s.requests r
  let h ← q.homeServer
  if (s.homes h).server then return (s, false)
  else
    match ← s.insertIntoProxyHash r false env with
    | (s, false) => return (s, false)
    | (s, true) =>
        let q ← s.requests r
        return (s.setRequest r { q with
          numProxiedRequests := 1
          numProxiedResponses := 0
          childState := .proxied }, true)

/-- `originated_coa_request`, from where it inserts the packet on. -/
def originatedCoaRequest (r : RequestId) (env : SendEnv) :
    Option (ProxyState × Bool) := do
  match ← s.insertIntoProxyHash r false env with
  | (s, false) => return (s.evRequestFree r, false)
  | (s, true) =>
      let q ← s.requests r
      return (s.setRequest r { q with
        numProxiedRequests := 1
        numProxiedResponses := 0
        childState := .proxied }, true)

/-- `request->num_proxied_requests++`. -/
def countProxied (r : RequestId) : Option ProxyState := do
  let q ← s.requests r
  return s.setRequest r { q with
    numProxiedRequests := q.numProxiedRequests + 1 }

/-- `retransmit_coa_request`, where the packet is sent once more; `stamped`
is the return of `update_event_timestamp`. -/
def retransmitCoaRequest (r : RequestId) (stamped : Bool)
    (env : SendEnv) : Option (ProxyState × Bool) :=
  if stamped then do
    match ← s.insertIntoProxyHash r true env with
    | (s, false) => return (s, false)
    | (s, true) =>
        let q ← s.requests r
        let s := s.setRequest r { q with
          numProxiedRequests := 0
          numProxiedResponses := 0 }
        return (← s.countProxied r, true)
  else do
    return (← s.countProxied r, true)

/-- What `home_server_ldb` writes to a request for which it found a home
server. -/
def readdress (r : RequestId) (q : ProxyRequest) (h : HomeId) :
    ProxyState :=
  s.setRequest r { q with
    proxy := { q.proxy with
      srcIpaddr := (s.homes h).srcIpaddr
      dstIpaddr := (s.homes h).ipaddr
      dstPort := (s.homes h).port }
    homeServer := some h }

/-- `received_retransmit` of a proxied request, its home server dead.
`found` is the home server that `home_server_ldb` finds, `pool` what it
wakes, `fate` what becomes of a request that is not sent. -/
def proxyToAnother (r : RequestId) (q : ProxyRequest)
    (found : Option HomeId) (pool : List HomeId)
    (fate : Option ChildState) (env : SendEnv) :
    Option (ProxyState × Bool) := do
  let s := (s.removeFromProxyHash r q).wakeAllIfAllDead pool
  match found with
  | none => return (s.giveUp r fate, true)
  | some h =>
      let q ← s.requests r
      let s := s.readdress r q h
      if (s.homes h).server then return (s.giveUp r fate, true)
      else
        match ← s.proxyRequest r env with
        | (s, false) => return (s.giveUp r fate, false)
        | (s, true) => return (s, true)

/-- `received_retransmit` of a proxied request. -/
def receivedRetransmit (r : RequestId) (now : Nat)
    (found : Option HomeId) (pool : List HomeId)
    (fate : Option ChildState) (env env' : SendEnv) :
    Option (ProxyState × Bool) := do
  let q ← s.requests r
  let packet ← q.packet
  if packet.code ≠ pwAuthenticationRequest then return (s, true)
  else
    let h ← q.homeServer
    let (s, sent) ← s.checkForZombieHomeServer h now env
    let q ← s.requests r
    if packet.dstPort ≠ 0 ∧ (s.homes h).state = .isDead then
      let (s, sent') ← s.proxyToAnother r q found pool fate env'
      return (s, sent && sent')
    else return (← s.countProxied r, sent)

-- ======== replies

/-- `request->proxy->code` is that of another packet than the client's:
a CoA request of the server's own. -/
def originatedCoa (packet : RadiusPacket) (q : ProxyRequest) : Bool :=
  q.attached || packet.code != q.proxy.code
    && (q.proxy.code == pwCoaRequest || q.proxy.code == pwDisconnectRequest)

/-- `received_proxy_response`, from where the signature is good on. -/
def verifiedResponse (reply : RadiusPacket) (now : Nat) (r : RequestId)
    (q : ProxyRequest) (h : HomeId) : ProxyState × Option RequestId :=
  match q.packet with
  | none =>
      let q := { q with proxyReply := some reply }
      let s := (s.setRequest r q).receivedResponseToPing r q h
      (s.evRequestFree r, none)
  | some packet =>
      let s := s.setHome h { s.homes h with
        state := .alive
        lastPacket := now / usec }
      let coa := originatedCoa packet q
      let q := { q with attached := false }
      let s := s.setRequest r q
      if coa = false ∧ q.replyCode ≠ 0 then (s, none)
      else if q.childState ≠ .proxied then (s, none)
      else
        (s.setRequest r { q with
          proxyReply := some reply
          childState := .queued }, some r)

/-- `received_proxy_response`. -/
def receivedProxyResponse (cfg : Config) (packet : RadiusPacket)
    (now : Nat) : Option (ProxyState × Option RequestId) :=
  match s.lookupInProxyHash packet with
  | none => some (s, none)
  | some (s, r) => do
      let q ← s.requests r
      if q.proxyReply ≠ none then return (s, none)
      else
        let h ← q.homeServer
        match radVerify cfg packet (some q.proxy) (s.homes h).secret with
        | .error _ => none
        | .ok (_, some _) => return (s, none)
        | .ok (packet, none) => return s.verifiedResponse packet now r q h

-- ======== events

/-- A listener of the configuration is opened: `radius_event_init`. -/
def openListener (fd : Int) (src : Option Sockaddr) :
    Option ProxyState := do
  let i ← s.proxyAddFds fd
  match s.proxyList.socketAdd fd src with
  | (_, false) => none
  | (pl, true) =>
      return { s with
        proxyFds := s.proxyFds.set i fd
        proxyList := pl }

end ProxyState

/-- What happens to the proxy side, with what each takes from outside. -/
inductive ProxyEvent where
  | opened (fd : Int) (src : Option Sockaddr)
  | prepared (r : RequestId) (q : ProxyRequest)
  | processed (r : RequestId) (state : ChildState) (replyCode : Nat)
  | proxied (r : RequestId) (env : SendEnv)
  | originated (r : RequestId) (env : SendEnv)
  | retransmitted (r : RequestId) (stamped : Bool) (env : SendEnv)
  | duplicated (r : RequestId) (now : Nat) (found : Option HomeId)
      (pool : List HomeId) (fate : Option ChildState) (env env' : SendEnv)
  | replied (reply : RadiusPacket) (now : Nat)
  | timedOut (r : RequestId) (now : Nat) (fate : Option ChildState)
      (env : SendEnv)
  | pingLost (r : RequestId) (now : Nat) (late : Bool) (env : SendEnv)
  | expired (r : RequestId)
  | pingTimer (h : HomeId) (env : SendEnv)
  | reviveTimer (h : HomeId)
  | woken (pool : List HomeId)
  | commandDead (h : HomeId) (env : SendEnv)
  | commandAlive (h : HomeId)

namespace ProxyState

variable (s : ProxyState)

/-- The request is not in the hash and has no reply: what
`insert_into_proxy_hash` is called for first. -/
def Unsent (q : ProxyRequest) : Prop :=
  q.inProxyHash = false ∧ q.proxyReply = none ∧ q.homeServer ≠ none

instance (q : ProxyRequest) : Decidable (Unsent q) :=
  inferInstanceAs (Decidable (_ ∧ _ ∧ _))

/-- What the callers check, assert or are called for. -/
def Admits : ProxyEvent → Prop
  | .opened .. | .replied .. | .expired _ | .woken _ | .commandAlive _ => True
  | .prepared r q => Unsent q ∧ ∀ q' ∈ s.requests r, q'.inProxyHash = false
  | .processed r c _ => s.requests r ≠ none ∧ c ≠ .proxied
  | .proxied r _ | .originated r _ => ∃ q ∈ s.requests r, Unsent q
  | .retransmitted r _ _ =>
      ∃ q ∈ s.requests r, q.childState = .proxied ∧ q.homeServer ≠ none
  | .duplicated r _ _ _ fate env _ | .timedOut r _ fate env =>
      (∃ q ∈ s.requests r, q.childState = .proxied)
        ∧ s.requests env.fresh = none ∧ fate ≠ some .proxied
  | .pingLost r _ _ env =>
      (∃ q ∈ s.requests r, q.packet = none) ∧ s.requests env.fresh = none
  | .pingTimer h env =>
      (s.homes h).ev = some .pingHomeServer ∧ s.requests env.fresh = none
  | .reviveTimer h => (s.homes h).ev = some .reviveHomeServer
  | .commandDead _ env => s.requests env.fresh = none

instance : (e : ProxyEvent) → Decidable (s.Admits e)
  | .opened .. | .replied .. | .expired _ | .woken _ | .commandAlive _ =>
      .isTrue trivial
  | .prepared r q =>
      inferInstanceAs (Decidable (Unsent q
        ∧ ∀ q' ∈ s.requests r, q'.inProxyHash = false))
  | .processed r c _ =>
      inferInstanceAs (Decidable (s.requests r ≠ none ∧ c ≠ .proxied))
  | .proxied r _ | .originated r _ =>
      inferInstanceAs (Decidable (∃ q ∈ s.requests r, Unsent q))
  | .retransmitted r _ _ =>
      inferInstanceAs (Decidable (∃ q ∈ s.requests r,
        q.childState = .proxied ∧ q.homeServer ≠ none))
  | .duplicated r _ _ _ fate env _ | .timedOut r _ fate env =>
      inferInstanceAs (Decidable ((∃ q ∈ s.requests r,
        q.childState = .proxied) ∧ s.requests env.fresh = none
          ∧ fate ≠ some .proxied))
  | .pingLost r _ _ env =>
      inferInstanceAs (Decidable ((∃ q ∈ s.requests r, q.packet = none)
        ∧ s.requests env.fresh = none))
  | .pingTimer h env =>
      inferInstanceAs (Decidable ((s.homes h).ev = some .pingHomeServer
        ∧ s.requests env.fresh = none))
  | .reviveTimer h =>
      inferInstanceAs (Decidable
        ((s.homes h).ev = some .reviveHomeServer))
  | .commandDead _ env =>
      inferInstanceAs (Decidable (s.requests env.fresh = none))

/-- One event, and whether every packet that it sends gets into the proxy
hash. -/
def run (cfg : Config) : ProxyEvent → Option (ProxyState × Bool)
  | .opened fd src => do return (← s.openListener fd src, true)
  | .prepared r q => some (s.setRequest r q, true)
  | .processed r state replyCode => do
      let q ← s.requests r
      return (s.setRequest r { q with
        childState := state
        replyCode := replyCode }, true)
  | .proxied r env => s.proxyRequest r env
  | .originated r env => s.originatedCoaRequest r env
  | .retransmitted r stamped env => s.retransmitCoaRequest r stamped env
  | .duplicated r now found pool fate env env' =>
      s.receivedRetransmit r now found pool fate env env'
  | .replied reply now => do
      let (s, _) ← s.receivedProxyResponse cfg reply now
      return (s, true)
  | .timedOut r now fate env => s.noResponseToProxiedRequest r now fate env
  | .pingLost r now late env => s.noResponseToPing r now late env
  | .expired r => some (s.evRequestFree r, true)
  | .pingTimer h env =>
      (s.setHome h { s.homes h with ev := none }).pingHomeServer h env
  | .reviveTimer h => some (s.reviveHomeServer h, true)
  | .woken pool => some (s.wakeAllIfAllDead pool, true)
  | .commandDead h env => s.markHomeServerDead h env
  | .commandAlive h => some (s.reviveHomeServer h, true)

/-- A step of the proxy side, labelled with the event and with whether every
packet it sends gets into the hash. -/
def Step (cfg : Config) (s : ProxyState) (e : ProxyEvent × Bool)
    (t : ProxyState) : Prop :=
  s.Admits e.1 ∧ s.run cfg e.1 = some (t, e.2)

/-- The server starts: no request, every home server alive and without an
event. -/
def Initial : Prop :=
  s.proxyList = packetListCreate true ∧ s.owners = []
    ∧ s.proxyFds = List.replicate 32 (-1) ∧ s.proxyAllUsed = false
    ∧ (∀ r, s.requests r = none)
    ∧ ∀ h, (s.homes h).state = .alive ∧ (s.homes h).ev = none
      ∧ (s.homes h).currentlyOutstanding = 0

end ProxyState

end WinRadius
