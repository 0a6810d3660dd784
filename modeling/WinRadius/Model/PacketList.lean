/-
The list of outgoing packets of packet.cpp: sockets, the ids allocated for
each destination, and the tree that replies are matched in.

# Pointers

The tree holds the requests themselves. What its comparison reads of a
request (socket, id, addresses, ports) is written by the allocation of the
id, before the insertion, and not while the request is in the list.

A `fr_packet_dst2id_t` is in the hash table by reference, and its ids are
written through that reference. The table here holds the key and the
number of the id array; the arrays are in `ids`.

# Loops

The searches over the sockets and over the ids go around a ring whose size
is a power of two and give up where they began: `ringFind`.
-/
import WinRadius.Model.Hash
import WinRadius.Model.RbTree
import WinRadius.Model.Types

namespace WinRadius

open Lib

-- ======== addresses

/-- The sign of `memcmp` over buffers of one size. -/
def memcmp : List UInt8 → List UInt8 → Int
  | a :: as, b :: bs =>
      if a < b then -1
      else if b < a then 1
      else memcmp as bs
  | _, _ => 0

/-- `ipaddr.ip4addr`, `ipaddr.ip6addr`: the bytes of an address in its
family. -/
def FrIpaddr.octets (ip : FrIpaddr) : List UInt8 :=
  if ip.af = afInet then padTake 4 ip.ipaddr
  else if ip.af = afInet6 then padTake 16 ip.ipaddr
  else []

/-- `fr_ipaddr_cmp`. -/
def frIpaddrCmp (a b : FrIpaddr) : Int :=
  if a.af < b.af then -1
  else if b.af < a.af then 1
  else if a.af = afInet then memcmp a.octets b.octets
  else if a.af = afInet6 then
    if a.scope < b.scope then -1
    else if b.scope < a.scope then 1
    else memcmp a.octets b.octets
  else -1

/-- `fr_inaddr_any`: -1 is an unknown address family. -/
def frInaddrAny (ip : FrIpaddr) : Int :=
  if ip.af = afInet ∨ ip.af = afInet6 then
    if ip.octets.all (· == 0) then 1 else 0
  else -1

/-- `struct sockaddr_storage` with its length, as `getsockname` fills
it in; the port is in host order. -/
structure Sockaddr where
  ssFamily : Nat
  salen : Nat
  addr : List UInt8
  port : Nat
  scope : Nat := 0

/-- `fr_sockaddr2ipaddr` into an address that is all zeros. -/
def frSockaddr2ipaddr (sa : Sockaddr) : Option (FrIpaddr × Nat) :=
  if sa.ssFamily = afInet then
    if sa.salen < 16 then none
    else some ({ af := afInet, ipaddr := padTake 4 sa.addr }, sa.port)
  else if sa.ssFamily = afInet6 then
    if sa.salen < 28 then none
    else some ({ af := afInet6, ipaddr := padTake 16 sa.addr
                 scope := sa.scope }, sa.port)
  else none

/-- `fr_packet_cmp`. -/
def frPacketCmp (a b : RadiusPacket) : Int :=
  if a.sockfd < b.sockfd then -1
  else if b.sockfd < a.sockfd then 1
  else if a.id < b.id then -1
  else if b.id < a.id then 1
  else if a.srcPort < b.srcPort then -1
  else if b.srcPort < a.srcPort then 1
  else if a.dstPort < b.dstPort then -1
  else if b.dstPort < a.dstPort then 1
  else
    let rcode := frIpaddrCmp a.dstIpaddr b.dstIpaddr
    if rcode ≠ 0 then rcode
    else frIpaddrCmp a.srcIpaddr b.srcIpaddr

-- ======== destinations

/-- `fr_packet_dst2id_t`; `id` is the number of its array. -/
structure Dst2Id where
  dstIpaddr : FrIpaddr
  dstPort : Nat
  id : Nat := 0
deriving DecidableEq

/-- `packet_dst2id_hash`. -/
def packetDst2idHash (pd : Dst2Id) : UInt32 :=
  frHashUpdate pd.dstIpaddr.octets
    (frHash (le32 (UInt32.ofNat pd.dstPort)))

/-- `packet_dst2id_cmp`. -/
def packetDst2idCmp (a b : Dst2Id) : Int :=
  if a.dstPort < b.dstPort then -1
  else if b.dstPort < a.dstPort then 1
  else frIpaddrCmp a.dstIpaddr b.dstIpaddr

def dst2idOps : HashOps Dst2Id :=
  { hash := packetDst2idHash, cmp := some packetDst2idCmp }

-- ======== the list

/-- `fr_packet_socket_t`. -/
structure PacketSocket where
  sockfd : Int := -1
  numOutgoing : Int := 0
  offset : Nat := 0
  inaddrAny : Bool := false
  ipaddr : FrIpaddr := {}
  port : Nat := 0

def maxSockets : Nat := 32

/-- `fr_packet_list_t`. `mask` has a bit for each socket in use, and each
array of `ids` has 256 words of such bits. -/
structure PacketList where
  tree : RbTree RadiusPacket
  dst2idHt : HashTable Dst2Id
  ids : List (List (BitVec 32)) := []
  allocId : Bool
  numOutgoing : Int := 0
  mask : BitVec 32 := 0
  sockets : List PacketSocket

/-- `fr_packet_list_create`. -/
def packetListCreate (allocId : Bool) : PacketList :=
  { tree := rbtreeCreate frPacketCmp false
    dst2idHt := hashTableCreate Dst2Id
    allocId := allocId
    sockets := List.replicate maxSockets {} }

/-- The first place from `i` on for which `p` holds, `n` of them looked
at. -/
def ringFind (size : Nat) (p : Nat → Bool) : Nat → Nat → Option Nat
  | 0, _ => none
  | n + 1, i => if p i then some i else ringFind size p n ((i + 1) % size)

/-- `SOCK2OFFSET`. -/
def sock2offset (sockfd : Int) : Nat := (sockfd * 0x01000193 % 32).toNat

namespace PacketList

variable (pl : PacketList)

/-- `pl->sockets[i]`. -/
def socket (i : Nat) : PacketSocket := pl.sockets.getD i {}

/-- `pl->sockets[i] = ps`. -/
def setSocket (i : Nat) (ps : PacketSocket) : PacketList :=
  { pl with sockets := pl.sockets.set i ps }

/-- `fr_socket_find`: the slot. -/
def socketFind (sockfd : Int) : Option Nat :=
  ringFind maxSockets (fun i => (pl.socket i).sockfd == sockfd)
    maxSockets (sock2offset sockfd)

/-- `fr_packet_list_socket_remove`. -/
def socketRemove (sockfd : Int) : PacketList × Bool :=
  match pl.socketFind sockfd with
  | none => (pl, false)
  | some i =>
      let ps := pl.socket i
      if ps.numOutgoing ≠ 0 then (pl, false)
      else
        ({ pl.setSocket i { ps with sockfd := -1 } with
            mask := pl.mask &&& ~~~((1 : BitVec 32) <<< ps.offset) }, true)

/-- `fr_packet_list_socket_add`; `src` is what `getsockname` returns. On a
failure behind the choice of the slot the descriptor stays there. -/
def socketAdd (sockfd : Int) (src : Option Sockaddr) :
    PacketList × Bool :=
  match ringFind maxSockets (fun i => (pl.socket i).sockfd == -1)
      maxSockets (sock2offset sockfd) with
  | none => (pl, false)
  | some i =>
      let ps : PacketSocket := { sockfd := sockfd, offset := i }
      match src.bind frSockaddr2ipaddr with
      | none => (pl.setSocket i ps, false)
      | some (ipaddr, port) =>
          let ps := { ps with
            ipaddr := ipaddr
            port := port
            inaddrAny := ipaddr.octets.all (· == 0) }
          ({ pl.setSocket i ps with
              mask := pl.mask ||| ((1 : BitVec 32) <<< ps.offset) }, true)

-- ======== lookup

/-- `fr_packet_list_insert`. -/
def insert (request : RadiusPacket) : Option (PacketList × Bool) := do
  let (tree, done) ← rbtreeInsertnode pl.tree request
  return ({ pl with tree := tree }, done)

/-- `fr_packet_list_find`. -/
def find (request : RadiusPacket) : Option RadiusPacket :=
  rbtreeFinddata pl.tree request

/-- The key that `fr_packet_list_find_byreply` looks for; the fields that
no comparison reads are not set there. -/
def requestFromReply (ps : PacketSocket) (reply : RadiusPacket) :
    RadiusPacket :=
  { sockfd := reply.sockfd
    id := reply.id
    srcIpaddr := if ps.inaddrAny then ps.ipaddr else reply.dstIpaddr
    srcPort := ps.port
    dstIpaddr := reply.srcIpaddr
    dstPort := reply.srcPort }

/-- `fr_packet_list_find_byreply`. -/
def findByreply (reply : RadiusPacket) : Option RadiusPacket := do
  let i ← pl.socketFind reply.sockfd
  rbtreeFinddata pl.tree (requestFromReply (pl.socket i) reply)

/-- `fr_packet_list_yank`. -/
def yank (request : RadiusPacket) : PacketList × Option RadiusPacket :=
  match rbtreeFinddata pl.tree request with
  | none => (pl, none)
  | some packet =>
      ({ pl with tree := (rbtreeDeletebydata pl.tree packet).1 },
        some packet)

-- ======== ids

/-- `pd->id[id]`. -/
def idWord (pd : Dst2Id) (id : Nat) : BitVec 32 :=
  (pl.ids.getD pd.id []).getD id 0

/-- `pd->id[id] = word`. -/
def setIdWord (pd : Dst2Id) (id : Nat) (word : BitVec 32) : PacketList :=
  { pl with
    ids := pl.ids.set pd.id ((pl.ids.getD pd.id []).set id word) }

/-- The destination's entry; a new one has no id in use. `none` is a
failed insertion. -/
def dst2id (ipaddr : FrIpaddr) (port : Nat) :
    PacketList × Option Dst2Id :=
  let my : Dst2Id := { dstIpaddr := ipaddr, dstPort := port }
  let (ht, found) := pl.dst2idHt.finddata dst2idOps my
  let pl := { pl with dst2idHt := ht }
  match found with
  | some pd => (pl, some pd)
  | none =>
      let pd := { my with id := pl.ids.length }
      let (ht, done) := pl.dst2idHt.insert dst2idOps pd
      if done then
        ({ pl with
            dst2idHt := ht
            ids := pl.ids ++ [List.replicate 256 0] }, some pd)
      else ({ pl with dst2idHt := ht }, none)

/-- What the search for a socket asks of one, its bit apart. -/
def usable (ps : PacketSocket) (request : RadiusPacket) (srcAny : Bool) :
    Bool :=
  ps.sockfd != -1
    && ps.ipaddr.af == request.dstIpaddr.af
    && !(ps.inaddrAny && !srcAny)
    && !(!ps.inaddrAny && !srcAny
      && frIpaddrCmp request.srcIpaddr ps.ipaddr != 0)

/-- "Special case: unspec == don't care". -/
def withSource (request : RadiusPacket) : RadiusPacket :=
  if request.srcIpaddr.af = afUnspec then
    { request with srcIpaddr := { af := request.dstIpaddr.af } }
  else request

/-- The socket for an id, and its bit set. -/
def takeSocket (pd : Dst2Id) (id : Nat) (request : RadiusPacket)
    (srcAny : Bool) : PacketList × RadiusPacket × Except String Unit :=
  let freeMask := ~~~((~~~pl.idWord pd id) &&& pl.mask)
  match (List.range maxSockets).find? fun i =>
      usable (pl.socket i) request srcAny
        && freeMask &&& ((1 : BitVec 32) <<< i) == 0 with
  | none => (pl, request, .error "Internal sanity check failed")
  | some i =>
      let pl := pl.setIdWord pd id
        (pl.idWord pd id ||| ((1 : BitVec 32) <<< i))
      let ps := pl.socket i
      let pl := pl.setSocket i { ps with
        numOutgoing := ps.numOutgoing + 1 }
      ({ pl with numOutgoing := pl.numOutgoing + 1 },
        { request with
          id := id
          sockfd := ps.sockfd
          srcIpaddr := ps.ipaddr
          srcPort := ps.port }, .ok ())

/-- `fr_packet_list_id_alloc`: the list, the request and the return, 0
with the text of the error. `start` is `fr_rand() & 0xff`. -/
def idAlloc (request : RadiusPacket) (start : Nat) :
    PacketList × RadiusPacket × Except String Unit :=
  if pl.allocId = false then (pl, request, .error "Invalid arguments")
  else if request.dstIpaddr.af = afUnspec ∨ request.dstPort = 0 then
    (pl, request, .error "No destination address/port specified")
  else
    let request := withSource request
    let srcAny := frInaddrAny request.srcIpaddr
    if srcAny < 0 then
      (pl, request, .error "Error checking src IP address")
    else if frInaddrAny request.dstIpaddr ≠ 0 then
      (pl, request, .error "Error checking dst IP address")
    else
      match pl.dst2id request.dstIpaddr request.dstPort with
      | (pl, none) => (pl, request, .error "Failed inserting into hash")
      | (pl, some pd) =>
          match ringFind 256 (fun id => pl.idWord pd id != pl.mask) 256
              start with
          | none => (pl, request, .error "All IDs are being used")
          | some id => pl.takeSocket pd id request (srcAny != 0)

/-- `fr_packet_list_id_free`. -/
def idFree (request : RadiusPacket) : PacketList × Bool :=
  match pl.socketFind request.sockfd with
  | none => (pl, false)
  | some i =>
      let (ht, found) := pl.dst2idHt.finddata dst2idOps
        { dstIpaddr := request.dstIpaddr, dstPort := request.dstPort }
      let pl := { pl with dst2idHt := ht }
      match found with
      | none => (pl, false)
      | some pd =>
          let ps := pl.socket i
          let pl := pl.setIdWord pd request.id.toNat
            (pl.idWord pd request.id.toNat
              &&& ~~~((1 : BitVec 32) <<< ps.offset))
          let pl := pl.setSocket i { ps with
            numOutgoing := ps.numOutgoing - 1 }
          ({ pl with numOutgoing := pl.numOutgoing - 1 }, true)

end PacketList

end WinRadius
