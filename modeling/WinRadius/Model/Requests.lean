/-
The client side of event.cpp in a server without threads: the list of live
requests, what becomes of a packet that comes in, and the timers of a
request.

# Pointers

The list holds `&request->packet`, and `fr_packet2myptr` gets the request
back from that address. The tree holds the packets themselves; `owners` are
the addresses behind them. `packet->vps`, which is written meanwhile, is
kept in the request.

# What is outside

The modules, the home servers, the sockets and the clock: what they answer
is in `Handling` and `Arrival`. `HAVE_PTHREAD_H` is not defined, so a
request is handled before the next event, and none is told to stop.
-/
import WinRadius.Model.Proxy

namespace WinRadius

open Lib

-- ======== the state

/-- The callback that the event of a request runs. -/
inductive RequestCallback where
  | waitABit | cleanupDelay | rejectDelay | noResponseToProxiedRequest
  | waitForProxyIdToExpire
deriving Repr, DecidableEq

/-- `RAD_LISTEN_TYPE` of the listeners that requests come from. -/
inductive ListenType where
  | auth | acct | coa | detail
deriving Repr, DecidableEq

/-- The configuration of a `home_server`; the windows are in seconds. -/
structure HomeConf where
  server : Bool := false
  responseWindow : Nat := 30
  coaMrd : Nat := 30
  noResponseFail : Bool := false

/-- `main_config_t`; the times are in seconds. -/
structure MainConfig where
  maxRequests : Nat := 1024
  rejectDelay : Nat := 1
  cleanupDelay : Nat := 5
  maxRequestTime : Nat := 30
  proxyRequests : Bool := true

/-- `REQUEST`. Times are in microseconds; `ev` is what the pending event
calls, and when. `proxyCode` is `request->proxy->code`, `proxyReply` is
`request->proxy_reply->code`. -/
structure Request where
  number : Nat
  listener : ListenType
  packet : RadiusPacket
  hasVps : Bool := false
  replyCode : Nat := 0
  replyData : Option (List UInt8) := none
  childState : ChildState := .queued
  inRequestHash : Bool := true
  received : Nat
  when : Nat
  nextWhen : Nat := 0
  nextCallback : Option RequestCallback := none
  ev : Option (RequestCallback × Nat) := none
  proxyCode : Option Nat := none
  proxyReply : Option Nat := none
  homeServer : Option HomeConf := none
  inProxyHash : Bool := false
  proxyWhen : Nat := 0
  numProxiedRequests : Int := 0
  numProxiedResponses : Int := 0

/-- What the server does with the request of a number: its handler runs,
bytes are sent to the client, it is sent to a home server, its reject is
delayed, or the event for that comes. -/
inductive Deed where
  | handled (number : Nat)
  | sent (number : Nat) (bytes : List UInt8)
  | proxied (number : Nat)
  | delayed (number : Nat)
  | rejectDue (number : Nat)
deriving DecidableEq

/-- The variables of event.cpp with the requests. `log` has the last deed
first. -/
structure RequestServer where
  pl : PacketList
  owners : List (RadiusPacket × RequestId) := []
  requests : RequestId → Option Request
  requestNumCounter : Nat := 0
  log : List Deed := []

/-- What `proxy_to_virtual_server` takes from outside: the code of the
reply to the fake request, whether the post-proxy modules let it pass, and
the codes they and the handler leave. -/
structure VirtualRun where
  fakeCode : Nat := 0
  postProxy : Bool := true
  postProxyCode : Nat := 0
  code : Nat := 0

/-- How the pre-proxy modules end. -/
inductive PreProxy where
  | failed | handled | ok
deriving DecidableEq

/-- Where a request is to be sent. -/
inductive Destination where
  | notProxied
  | noHome
  | home (home : HomeConf) (preProxy : PreProxy)

/-- What the handling of a request takes from outside: the clock, the
decoders (`none` is an error, else whether there are attributes), the code
of the reply after each stage, and the reply as it is encoded, with whether
it is signed. -/
structure Handling where
  now : Nat
  decode : Option Bool := some true
  decodeProxy : Bool := true
  postProxy : Bool := true
  postProxyCode : Nat := 0
  code : Nat
  authTypeReject : Bool := false
  destination : Destination := .notProxied
  inserted : Bool := true
  virtualRun : VirtualRun := {}
  failType : Bool := false
  failPostProxy : Bool := true
  failCode : Nat := 0
  responsePacketType : Option Nat := none
  postAuthCode : Nat := pwAuthenticationReject
  encoding : Option (List UInt8 × Bool)

/-- What the arrival of a packet takes from outside: the address of a new
request, and for a duplicate whether the home server is dead, which other
one is found and whether the proxy hash takes the request. -/
structure Arrival where
  fresh : RequestId
  homeDead : Bool := false
  found : Option HomeConf := none
  inserted : Bool := true
  handling : Handling

/-- The function that handles a request. -/
inductive Handler where
  | listener | null | virtualServer
deriving DecidableEq

namespace Request

variable (cfg : MainConfig) (q : Request) (h : Handling)

/-- A request of the server's own, divorced from the one it was made
for. -/
def divorcedCoa : Bool :=
  match q.proxyCode with
  | none => false
  | some code => q.packet.code != code
      && (code == pwCoaRequest || code == pwDisconnectRequest)

-- ======== proxying

/-- `process_proxy_reply`. -/
def processProxyReply (postProxy : Bool) (code : Nat) : Request × Bool :=
  if postProxy then ({ q with replyCode := code }, true)
  else ({ q with replyCode := code, childState := .done }, false)

/-- `request_pre_handler`. -/
def requestPreHandler : Request × Bool :=
  let q := { q with childState := .running }
  if q.packet.dstPort = 0 then (q, true)
  else if q.proxyReply ≠ none then
    if h.decodeProxy then q.processProxyReply h.postProxy h.postProxyCode
    else ({ q with childState := .done }, false)
  else if q.hasVps = false then
    match h.decode with
    | none => ({ q with childState := .done }, false)
    | some hasVps =>
        let q := { q with hasVps := hasVps }
        if q.proxyCode ≠ none then
          q.processProxyReply h.postProxy h.postProxyCode
        else (q, true)
  else if q.proxyCode ≠ none then
    q.processProxyReply h.postProxy h.postProxyCode
  else (q, true)

/-- `setup_post_proxy_fail`. -/
def setupPostProxyFail (failType : Bool) : Option (Request × Bool) :=
  let q := { q with childState := .running }
  if q.packet.code ≠ pwAuthenticationRequest
      ∧ q.packet.code ≠ pwAccountingRequest then some (q, false)
  else if failType = false then some (q, false)
  else if q.proxyReply ≠ none then none
  else some (q, true)

/-- `proxy_request`. -/
def proxyRequest (now : Nat) (inserted : Bool) : Option (Request × Bool) :=
  match q.homeServer with
  | none => none
  | some home =>
      if home.server then some (q, false)
      else if inserted = false then some (q, false)
      else
        let when := q.received + cfg.maxRequestTime * usec
        let nextWhen := now + home.responseWindow * usec
        some ({ q with
          inProxyHash := true
          proxyWhen := now
          nextWhen := if when < nextWhen then when else nextWhen
          nextCallback := some .noResponseToProxiedRequest
          numProxiedRequests := 1
          numProxiedResponses := 0
          childState := .proxied }, true)

/-- The reply to the fake request is that of a proxy, if there is one. -/
def takeFakeReply : Option Request :=
  if h.virtualRun.fakeCode ≠ 0 then
    some { q with proxyReply := some h.virtualRun.fakeCode }
  else (q.setupPostProxyFail h.failType).map Prod.fst

/-- `proxy_to_virtual_server`. -/
def proxyToVirtualServer : Option (Request × Int) :=
  match q.homeServer with
  | none => some (q, 0)
  | some home =>
      if home.server = false then some (q, 0)
      else if q.proxyCode ≠ some pwAuthenticationRequest
          ∧ q.proxyCode ≠ some pwAccountingRequest then some (q, 0)
      else do
        let v := h.virtualRun
        let q ← q.takeFakeReply h
        let q := (q.processProxyReply v.postProxy v.postProxyCode).1
        let q := if q.proxyReply ≠ none then { q with replyCode := v.code }
          else q
        return (q, 2)

/-- `successfully_proxied_request`, for a packet with a port. -/
def successfullyProxiedRequest : Option (Request × Int) :=
  if q.inProxyHash = true ∨ q.proxyReply.getD 0 ≠ 0 then some (q, 0)
  else
    match h.destination with
    | .notProxied => some (q, 0)
    | .noHome => some (q, -1)
    | .home home preProxy =>
        let q := { q with
          homeServer := some home
          proxyCode := some q.packet.code }
        match preProxy with
        | .failed => some (q, -1)
        | .handled => some (q, 0)
        | .ok =>
            if home.server then q.proxyToVirtualServer h
            else do
              match ← q.proxyRequest cfg h.now h.inserted with
              | (q, true) => return (q, 1)
              | (q, false) => return (q, -1)

/-- A request that has no reply is proxied. -/
def proxyUnanswered : Option (Request × Int) :=
  if cfg.proxyRequests = true ∧ q.inProxyHash = false ∧ q.replyCode = 0
      ∧ q.packet.dstPort ≠ 0 ∧ q.packet.code ≠ pwStatusServer then
    q.successfullyProxiedRequest cfg h
  else some (q, 0)

/-- Where proxying has failed, the post-proxy modules are told. -/
def failProxying (rcode : Int) : Option Request :=
  if rcode < 0 then do
    match ← q.setupPostProxyFail h.failType with
    | (q, false) => return q
    | (q, true) => return (q.requestPreHandler { h with
        postProxy := h.failPostProxy
        postProxyCode := h.failCode }).1
  else some q

/-- What the handler makes of the request. -/
def runHandler : Handler → Option Request
  | .listener => some { q with replyCode := h.code }
  | .null => some q
  | .virtualServer => (q.proxyToVirtualServer h).map Prod.fst

-- ======== the reply

/-- `rad_send`: the bytes that are sent, encoded the first time. -/
def radSend (encoding : Option (List UInt8 × Bool)) :
    Request × Option (List UInt8) :=
  if q.packet.sockfd < 0 then (q, none)
  else
    match q.replyData with
    | some bytes => (q, some bytes)
    | none =>
        match encoding with
        | none => (q, none)
        | some (bytes, signed) =>
            ({ q with replyData := some bytes },
              if signed then some bytes else none)

/-- `listener->send`; that of a detail file sends nothing. -/
def listenerSend (encoding : Option (List UInt8 × Bool)) :
    Request × Option (List UInt8) :=
  match q.listener with
  | .detail => (q, none)
  | .acct => if q.replyCode = 0 then (q, none) else q.radSend encoding
  | .auth | .coa => q.radSend encoding

/-- `Auth-Type := Reject`, before the packet is proxied. -/
def catchReject : Request :=
  if q.packet.code = pwAuthenticationRequest ∧ q.replyCode = 0
      ∧ h.authTypeReject = true then
    { q with replyCode := pwAuthenticationReject }
  else q

/-- The reply waits in the list for a while. -/
def cacheReply : Request × Option ChildState :=
  ({ q with
    nextWhen := q.nextWhen + cfg.cleanupDelay * usec
    nextCallback := some .cleanupDelay }, some .cleanupDelay)

/-- A reject is delayed: `none`. -/
def rejectLater : Request × Option ChildState :=
  let q := { q with replyCode := h.postAuthCode }
  let when := q.received + cfg.rejectDelay * usec
  if q.nextWhen < when then
    ({ q with
      nextWhen := when
      nextCallback := some .rejectDelay
      childState := .rejectDelay }, none)
  else q.cacheReply cfg

/-- "Access-Requests get delayed or cached." -/
def settle : Request × Option ChildState :=
  if q.packet.code = pwAuthenticationRequest then
    let q := { q with nextWhen := h.now }
    if q.replyCode = 0 ∧ h.responsePacketType = some 256 then
      ({ q with
        nextWhen := q.nextWhen + cfg.maxRequestTime * usec
        nextCallback := some .cleanupDelay }, some .cleanupDelay)
    else
      let q := if q.replyCode = 0 then
          { q with replyCode :=
              h.responsePacketType.getD pwAuthenticationReject }
        else q
      if q.replyCode = pwAuthenticationReject then q.rejectLater cfg h
      else q.cacheReply cfg
  else if q.packet.code = pwCoaRequest
      ∨ q.packet.code = pwDisconnectRequest then q.cacheReply cfg
  else ({ q with nextCallback := none }, some .done)

end Request

namespace RequestServer

variable (cfg : MainConfig) (s : RequestServer)

-- ======== requests

/-- `*request = q`. -/
def setRequest (r : RequestId) (q : Request) : RequestServer :=
  { s with requests := Function.update s.requests r (some q) }

def note (d : Deed) : RequestServer := { s with log := d :: s.log }

/-- `fr_packet2myptr(REQUEST, packet, packet_p)`. -/
def ownerOf (p : RadiusPacket) : Option RequestId :=
  (s.owners.find? fun o => o.1 = p).map Prod.snd

/-- `INSERT_EVENT`. -/
def insertEvent (r : RequestId) (q : Request) (callback : RequestCallback) :
    RequestServer :=
  s.setRequest r { q with ev := some (callback, q.when) }

/-- `remove_from_request_hash`. -/
def removeFromRequestHash (r : RequestId) (q : Request) : RequestServer :=
  if q.inRequestHash = false then s
  else
    match s.pl.yank q.packet with
    | (pl, found) =>
        { s with
          pl := pl
          owners := s.owners.filter fun o => some o.1 ≠ found
        }.setRequest r { q with inRequestHash := false }

/-- `ev_request_free`. -/
def evRequestFree (r : RequestId) : Option RequestServer := do
  let q ← s.requests r
  if q.childState = .queued then none
  else
    let s := s.removeFromRequestHash r q
    return { s with requests := Function.update s.requests r none }

/-- `request->listener->send(request->listener, request)`. -/
def send (r : RequestId) (q : Request)
    (encoding : Option (List UInt8 × Bool)) : RequestServer :=
  match q.listenerSend encoding with
  | (q, none) => s.setRequest r q
  | (q, some bytes) => (s.setRequest r q).note (.sent q.number bytes)

-- ======== timers

/-- `wait_for_proxy_id_to_expire`. -/
def waitForProxyIdToExpire (r : RequestId) (now : Nat) :
    Option RequestServer := do
  let q ← s.requests r
  let home ← q.homeServer
  if q.proxyCode = none then none
  else
    let window := if q.divorcedCoa then home.coaMrd else home.responseWindow
    let q := { q with when := q.proxyWhen + window * usec }
    let s := s.setRequest r q
    if q.numProxiedRequests = q.numProxiedResponses ∨ q.when < now then
      s.evRequestFree r
    else return s.insertEvent r q .waitForProxyIdToExpire

/-- `cleanup_delay`. -/
def cleanupDelay (r : RequestId) (now : Nat) : Option RequestServer := do
  let q ← s.requests r
  if q.childState ≠ .cleanupDelay ∧ q.childState ≠ .done then none
  else
    let s := s.removeFromRequestHash r q
    if q.proxyCode ≠ none ∧ q.inProxyHash = true then
      s.waitForProxyIdToExpire r now
    else s.evRequestFree r

/-- `reject_delay`. -/
def rejectDelay (r : RequestId)
    (encoding : Option (List UInt8 × Bool)) : Option RequestServer := do
  let q ← s.requests r
  if q.childState ≠ .rejectDelay then none
  else
    let s := (s.note (.rejectDue q.number)).send r q encoding
    let q ← s.requests r
    return s.insertEvent r { q with
      when := q.when + cfg.cleanupDelay * usec
      childState := .cleanupDelay } .cleanupDelay

/-- `wait_a_bit`. -/
def waitABit (r : RequestId) (now : Nat) : Option RequestServer := do
  let q ← s.requests r
  match q.childState with
  | .queued | .running | .done =>
      let s := s.setRequest r { q with childState := .done }
      if q.inRequestHash = false ∧ q.divorcedCoa = true then
        s.evRequestFree r
      else s.cleanupDelay r now
  | .rejectDelay | .cleanupDelay | .proxied =>
      match q.nextCallback with
      | none | some .waitABit => none
      | some callback =>
          return s.insertEvent r { q with
            when := q.nextWhen
            nextCallback := none } callback

-- ======== handling

/-- `request_post_handler`, from where the request is cleaned up on. -/
def finish (r : RequestId) (q : Request) (childState : ChildState)
    (now : Nat) : Option RequestServer :=
  (s.setRequest r { q with
    hasVps := false
    childState := childState }).waitABit r now

/-- `request_post_handler`, from where the reply is made on. -/
def respond (r : RequestId) (q : Request) (h : Handling) :
    Option RequestServer :=
  match q.settle cfg h with
  | (q, none) =>
      some ((s.setRequest r q).note (.delayed q.number))
  | (q, some childState) => do
      if q.replyCode ≠ 0 ∨ q.listener = .detail then
        let s := s.send r q h.encoding
        let q ← s.requests r
        s.finish r q childState h.now
      else s.finish r q childState h.now

/-- `request_post_handler`. -/
def requestPostHandler (r : RequestId) (h : Handling) :
    Option RequestServer := do
  let q ← s.requests r
  if q.childState ≠ .running then none
  else if q.inRequestHash = false
      ∧ (q.proxyCode = some pwCoaRequest
        ∨ q.proxyCode = some pwDisconnectRequest) then
    s.finish r { q with nextCallback := none } .done h.now
  else
    let q := q.catchReject h
    let (q, rcode) ← q.proxyUnanswered cfg h
    if rcode = 1 then
      return (s.setRequest r q).note (.proxied q.number)
    else
      let q ← q.failProxying h rcode
      if q.packet.dstPort = 0 then
        return s.setRequest r { q with childState := .done }
      else s.respond cfg r q h

/-- `radius_handle_request`. -/
def radiusHandleRequest (r : RequestId) (fn : Handler) (h : Handling) :
    Option RequestServer := do
  let q ← s.requests r
  match q.requestPreHandler h with
  | (q, false) => return s.setRequest r q
  | (q, true) => do
      let q ← q.runHandler h fn
      ((s.setRequest r q).note (.handled q.number)).requestPostHandler cfg
        r h

/-- `post_proxy_fail_handler`. -/
def postProxyFailHandler (r : RequestId) (h : Handling) :
    Option RequestServer := do
  let q ← s.requests r
  match ← q.setupPostProxyFail h.failType with
  | (q, false) => (s.setRequest r q).requestPostHandler cfg r h
  | (q, true) =>
      if q.proxyCode = none then none
      else (s.setRequest r { q with childState := .queued })
        |>.radiusHandleRequest cfg r .null h

/-- `proxy_fallback_handler`. -/
def proxyFallbackHandler (r : RequestId) (h : Handling) :
    Option RequestServer := do
  let q ← s.requests r
  if q.proxyCode = none then none
  else (s.setRequest r { q with
      nextWhen := h.now + usec / 10
      nextCallback := some .waitABit
      childState := .queued })
    |>.radiusHandleRequest cfg r .virtualServer h

/-- `no_response_to_proxied_request`. -/
def noResponseToProxiedRequest (r : RequestId) (h : Handling) :
    Option RequestServer := do
  let q ← s.requests r
  if q.childState ≠ .proxied then none
  else
    let home ← q.homeServer
    if home.server then s.waitABit r h.now
    else if home.noResponseFail then s.postProxyFailHandler cfg r h
    else if q.ev ≠ none then none
    else (s.setRequest r { q with childState := .running }).waitABit r h.now

-- ======== packets

/-- `received_retransmit` of a proxied Access-Request whose home server is
dead. -/
def proxyToAnother (r : RequestId) (q : Request) (a : Arrival) :
    Option RequestServer :=
  let q := { q with inProxyHash := false }
  match a.found with
  | none => (s.setRequest r q).postProxyFailHandler cfg r a.handling
  | some home => do
      let q := { q with
        homeServer := some home
        proxyCode := some q.packet.code }
      if home.server then
        (s.setRequest r q).proxyFallbackHandler cfg r a.handling
      else
        match ← q.proxyRequest cfg a.handling.now a.inserted with
        | (q, false) =>
            (s.setRequest r q).postProxyFailHandler cfg r a.handling
        | (q, true) =>
            let callback ← q.nextCallback
            return (s.insertEvent r { q with nextCallback := none }
              callback).note (.proxied q.number)

/-- `received_retransmit`. -/
def receivedRetransmit (r : RequestId) (a : Arrival) :
    Option RequestServer := do
  let q ← s.requests r
  match q.childState with
  | .queued | .running | .rejectDelay => return s
  | .proxied =>
      if q.packet.code ≠ pwAuthenticationRequest then return s
      else if q.packet.dstPort ≠ 0 ∧ a.homeDead = true then
        s.proxyToAnother cfg r q a
      else
        let s := s.setRequest r { q with
          numProxiedRequests := q.numProxiedRequests + 1 }
        return s.note (.proxied q.number)
  | .cleanupDelay | .done =>
      if q.replyCode = 0 then return s
      else return s.send r q a.handling.encoding

/-- `received_conflicting_request`. -/
def receivedConflictingRequest (r : RequestId) (q : Request) :
    Option RequestServer :=
  let s := s.removeFromRequestHash r q
  match q.childState with
  | .rejectDelay | .cleanupDelay | .done => some s
  | .queued | .running | .proxied => if q.ev = none then none else some s

/-- `can_handle_new_request`. -/
def canHandleNewRequest : Bool :=
  cfg.maxRequests = 0 ∨ s.pl.tree.numElements ≤ cfg.maxRequests

/-- The request that is made for a packet. -/
def newRequest (listener : ListenType) (packet : RadiusPacket)
    (now : Nat) : Request where
  number := s.requestNumCounter
  listener := listener
  packet := packet
  received := now
  when := now + usec
  ev := some (.waitABit, now + usec)

/-- `received_request`, from where the packet is known to be new on. -/
def acceptRequest (listener : ListenType) (packet : RadiusPacket)
    (a : Arrival) : Option (RequestServer × Option RequestId) :=
  if listener ≠ .detail ∧ s.canHandleNewRequest cfg = false then
    some (s, none)
  else if s.requests a.fresh ≠ none then none
  else do
    let q := s.newRequest listener packet a.handling.now
    let s := { s with requestNumCounter := s.requestNumCounter + 1 }
    match ← s.pl.insert packet with
    | (pl, false) => return ({ s with pl := pl }, none)
    | (pl, true) =>
        return ({ s with
          pl := pl
          owners := (packet, a.fresh) :: s.owners
        }.setRequest a.fresh q, some a.fresh)

/-- `received_request`. -/
def receivedRequest (listener : ListenType) (packet : RadiusPacket)
    (a : Arrival) : Option (RequestServer × Option RequestId) :=
  match s.pl.find packet with
  | none => s.acceptRequest cfg listener packet a
  | some p => do
      let r ← s.ownerOf p
      let q ← s.requests r
      if q.inRequestHash = false then none
      else if q.packet.dataLen = packet.dataLen
          ∧ q.packet.vector = packet.vector then
        return (← s.receivedRetransmit cfg r a, none)
      else
        match q.childState with
        | .rejectDelay | .cleanupDelay | .done => do
            let s ← (s.setRequest r { q with childState := .done })
              |>.cleanupDelay r a.handling.now
            s.acceptRequest cfg listener packet a
        | .queued | .running | .proxied =>
            if q.replyCode ≠ 0 ∧ q.replyData ≠ none then
              (s.removeFromRequestHash r q).acceptRequest cfg listener
                packet a
            else if a.handling.now < q.received + usec then
              return (s, none)
            else do
              let s ← s.receivedConflictingRequest r q
              s.acceptRequest cfg listener packet a

/-- `event_socket_handler`. -/
def eventSocketHandler (listener : ListenType) (packet : RadiusPacket)
    (a : Arrival) : Option RequestServer := do
  match ← s.receivedRequest cfg listener packet a with
  | (s, none) => return s
  | (s, some r) => s.radiusHandleRequest cfg r .listener a.handling

/-- `received_proxy_response`, from where the request is found on, and the
handling of it. `code` is that of the reply, `verified` the result of
`rad_verify`. -/
def receivedProxyResponse (r : RequestId) (code : Nat) (verified : Bool)
    (h : Handling) : Option RequestServer := do
  let q ← s.requests r
  let q := { q with numProxiedResponses := q.numProxiedResponses + 1 }
  let q := if q.numProxiedRequests = q.numProxiedResponses then
      { q with inProxyHash := false }
    else q
  let s := s.setRequest r q
  if q.proxyReply ≠ none ∨ verified = false then return s
  else if q.divorcedCoa = false ∧ q.replyCode ≠ 0 then return s
  else if q.childState ≠ .proxied then return s
  else
    let q := { q with
      proxyReply := some code
      childState := .queued
      when := h.now + usec }
    (s.insertEvent r q .waitABit).radiusHandleRequest cfg r .listener h

/-- `fr_event_run`: the event is over, and its callback is called. -/
def runEvent (r : RequestId) (h : Handling) : Option RequestServer := do
  let q ← s.requests r
  let (callback, _) ← q.ev
  let s := s.setRequest r { q with ev := none }
  match callback with
  | .waitABit => s.waitABit r h.now
  | .cleanupDelay => s.cleanupDelay r h.now
  | .rejectDelay => s.rejectDelay cfg r h.encoding
  | .noResponseToProxiedRequest => s.noResponseToProxiedRequest cfg r h
  | .waitForProxyIdToExpire => s.waitForProxyIdToExpire r h.now

end RequestServer

/-- What happens: a packet arrives, a home server replies to a request, or
the event of a request is due. -/
inductive RequestEvent where
  | received (listener : ListenType) (packet : RadiusPacket) (a : Arrival)
  | replied (r : RequestId) (code : Nat) (verified : Bool) (h : Handling)
  | timer (r : RequestId) (h : Handling)

namespace RequestServer

/-- `radius_event_init`. -/
def start : RequestServer where
  pl := packetListCreate false
  requests := fun _ => none

/-- What the callers promise: a packet from a socket has addresses of a
known family, a reply is found in the proxy hash, an event is due. -/
def Admits (s : RequestServer) : RequestEvent → Prop
  | .received _ packet _ =>
      (packet.srcIpaddr.af = afInet ∨ packet.srcIpaddr.af = afInet6)
        ∧ (packet.dstIpaddr.af = afInet ∨ packet.dstIpaddr.af = afInet6)
  | .replied r _ _ _ => ∃ q ∈ s.requests r, q.inProxyHash = true
  | .timer r h => ∃ q ∈ s.requests r, ∃ e ∈ q.ev, e.2 ≤ h.now

/-- One event; `none` is a failed assertion. -/
def run (cfg : MainConfig) (s : RequestServer) :
    RequestEvent → Option RequestServer
  | .received listener packet a => s.eventSocketHandler cfg listener packet a
  | .replied r code verified h => s.receivedProxyResponse cfg r code verified h
  | .timer r h => s.runEvent cfg r h

/-- A step of the server. -/
def Step (cfg : MainConfig) (s : RequestServer) (e : RequestEvent)
    (t : RequestServer) : Prop :=
  s.Admits e ∧ s.run cfg e = some t

end RequestServer

end WinRadius
