/-
The clients of client.cpp: a red-black tree for each prefix length, and the
search from the longest.

# Objects

A `RADCLIENT` is in two trees by reference, and some of its fields are
written while it is there. What the comparisons and the search read is
written before the insertion: that is `RadClient`, with the address of the
object (`ident`). The fields written later (`lifetime`, `dynamic`,
`number`) are tables over the addresses.

The list is the one in use; the tree of numbers is global in the source.
Statistics blocks and the queue of deleted clients are left out.
-/
import WinRadius.Model.PacketList
import WinRadius.Lib.Prefix

namespace WinRadius

open Lib

-- ======== clients

/-- `RADCLIENT`, as far as it is not changed in the trees. -/
structure RadClient where
  ident : Nat
  ipaddr : FrIpaddr
  prefixLen : Int
  longname : Option (List UInt8) := none
  secret : Option (List UInt8) := none
  shortname : Option (List UInt8) := none
  nastype : Option (List UInt8) := none
  login : Option (List UInt8) := none
  password : Option (List UInt8) := none
  server : Option (List UInt8) := none
  clientServer : Option (List UInt8) := none
  coaName : Option (List UInt8) := none
  coaServer : Nat := 0
  coaPool : Nat := 0
  messageAuthenticator : Int := 0
deriving DecidableEq

/-- What the tree of numbers holds: the number is written before the
insertion. -/
structure ClientNum where
  number : Nat
  ident : Nat
deriving DecidableEq

/-- `client_ipaddr_cmp`. -/
def clientIpaddrCmp (a b : RadClient) : Int := frIpaddrCmp a.ipaddr b.ipaddr

/-- `client_num_cmp`. -/
def clientNumCmp (a b : ClientNum) : Int := a.number - b.number

/-- The list of clients, the tree of numbers, and the fields of the clients
that change. -/
structure ClientList where
  trees : Nat → Option (RbTree RadClient) := fun _ => none
  minPrefix : Int := 128
  treeNum : Option (RbTree ClientNum) := none
  treeNumMax : Nat := 0
  lifetime : Nat → Int := fun _ => 0
  dynamic : Nat → Int := fun _ => 0
  number : Nat → Nat := fun _ => 0

/-- `clients_init`. -/
def clientsInit : ClientList := {}

-- ======== masking

/-- The address with other bytes in its family. -/
def FrIpaddr.withOctets (ip : FrIpaddr) (bs : List UInt8) : FrIpaddr :=
  { ip with ipaddr := bs ++ ip.ipaddr.drop bs.length }

/-- `case 3:` of the switch over the words of an IPv6 address. -/
def maskWord3 (addr mask : List UInt8) : List UInt8 := andWord addr 3 mask

/-- `case 2:`, which falls through. -/
def maskWord2 (addr mask : List UInt8) : List UInt8 :=
  maskWord3 (andWord addr 2 mask) (List.replicate 4 0)

/-- `case 1:`, which falls through. -/
def maskWord1 (addr mask : List UInt8) : List UInt8 :=
  maskWord2 (andWord addr 1 mask) (List.replicate 4 0)

/-- `case 0:`, which falls through. -/
def maskWord0 (addr mask : List UInt8) : List UInt8 :=
  maskWord1 (andWord addr 0 mask) (List.replicate 4 0)

/-- The switch. -/
def maskWords (addr : List UInt8) (prefixLen : Nat) : List UInt8 :=
  let mask := if prefixLen % 32 = 0 then List.replicate 4 0
    else maskWord (prefixLen % 32)
  match prefixLen / 32 with
  | 0 => maskWord0 addr mask
  | 1 => maskWord1 addr mask
  | 2 => maskWord2 addr mask
  | 3 => maskWord3 addr mask
  | _ => addr

/-- `client_sane`: the address with its host bits zeroed, `none` when it
returns 0. -/
def clientSane (ip : FrIpaddr) (prefixLen : Nat) : Option FrIpaddr :=
  if ip.af = afInet then
    if 32 < prefixLen then none
    else if prefixLen = 0 then
      some (ip.withOctets (List.replicate 4 0))
    else if prefixLen < 32 then
      some (ip.withOctets (andWord ip.octets 0 (maskWord prefixLen)))
    else some ip
  else if ip.af = afInet6 then
    if 128 < prefixLen then none
    else if prefixLen = 0 then
      some (ip.withOctets (List.replicate 16 0))
    else if prefixLen < 128 then
      some (ip.withOctets (maskWords ip.octets prefixLen))
    else some ip
  else none

-- ======== finding

/-- One round of `client_find`: the client of the network the address is
in at prefix length `i`. -/
def clientAt (clients : ClientList) (ipaddr : FrIpaddr) (i : Nat) :
    Option RadClient :=
  let myclient : RadClient :=
    { ident := 0, prefixLen := i
      ipaddr := (clientSane ipaddr i).getD ipaddr }
  match clients.trees i with
  | none => none
  | some tree => rbtreeFinddata tree myclient

/-- The loop of `client_find`, from `i` down to the least prefix. -/
def clientFindLoop (clients : ClientList) (ipaddr : FrIpaddr) :
    Nat → Option RadClient
  | 0 => if 0 < clients.minPrefix then none else clientAt clients ipaddr 0
  | i + 1 =>
      if (i + 1 : Int) < clients.minPrefix then none
      else
        match clientAt clients ipaddr (i + 1) with
        | some client => some client
        | none => clientFindLoop clients ipaddr i

/-- `client_find`. -/
def clientFind (clients : ClientList) (ipaddr : FrIpaddr) :
    Option RadClient :=
  if ipaddr.af = afInet then clientFindLoop clients ipaddr 32
  else if ipaddr.af = afInet6 then clientFindLoop clients ipaddr 128
  else none

-- ======== additions

/-- What `client_add` made of a client: it returned 0, it freed a complete
duplicate and returned 1, or it put the client into the trees. -/
inductive ClientAdd where
  | failed
  | duplicate
  | added
deriving DecidableEq

/-- The complete duplicate of a client that is there. -/
def clientDuplicate (clients : ClientList) (old client : RadClient) : Bool :=
  decide (frIpaddrCmp old.ipaddr client.ipaddr = 0
    ∧ old.prefixLen = client.prefixLen
    ∧ old.longname = client.longname ∧ old.secret = client.secret
    ∧ old.shortname = client.shortname ∧ old.nastype = client.nastype
    ∧ old.login = client.login ∧ old.password = client.password
    ∧ old.server = client.server
    ∧ clients.lifetime old.ident = clients.lifetime client.ident
    ∧ old.clientServer = client.clientServer
    ∧ old.coaName = client.coaName ∧ old.coaServer = client.coaServer
    ∧ old.coaPool = client.coaPool
    ∧ old.messageAuthenticator = client.messageAuthenticator)

/-- The tree for a prefix length, created when it is not there. -/
def clientTree (clients : ClientList) (i : Nat) : RbTree RadClient :=
  (clients.trees i).getD (rbtreeCreate clientIpaddrCmp false)

/-- A dynamic client without a lifetime inherits that of the network
`client_find` gives for its address. -/
def inheritLifetime (clients : ClientList) (client : RadClient) :
    ClientList :=
  if clients.dynamic client.ident ≠ 0
      ∧ clients.lifetime client.ident = 0 then
    match clientFind clients client.ipaddr with
    | some network =>
        let lifetime := clients.lifetime network.ident
        { clients with
          lifetime := Function.update clients.lifetime client.ident lifetime }
    | none => clients
  else clients

/-- The client gets its number and goes into the tree of numbers. `none` is
a fault of the tree. -/
def numberClient (clients : ClientList) (client : RadClient) :
    Option ClientList := do
  let treeNum := clients.treeNum.getD (rbtreeCreate clientNumCmp false)
  let number := clients.treeNumMax
  let (treeNum, _) ← rbtreeInsertnode treeNum ⟨number, client.ident⟩
  return { clients with
    number := Function.update clients.number client.ident number
    treeNumMax := number + 1
    treeNum := some treeNum }

/-- `client_add` from the tree for the prefix length on, the client
masked. -/
def clientEnter (clients : ClientList) (client : RadClient) :
    Option (ClientList × ClientAdd) :=
  let i := client.prefixLen.toNat
  let tree := clientTree clients i
  let clients := { clients with
    trees := Function.update clients.trees i (some tree) }
  match rbtreeFinddata tree client with
  | some old =>
      if clientDuplicate clients old client then
        some (clients, .duplicate)
      else some (clients, .failed)
  | none => do
      let (tree, inserted) ← rbtreeInsertnode tree client
      if inserted = false then return (clients, .failed)
      else
        let clients := { clients with
          trees := Function.update clients.trees i (some tree) }
        let clients := inheritLifetime clients client
        let clients ← numberClient clients client
        let minPrefix :=
          if client.prefixLen < clients.minPrefix then client.prefixLen
          else clients.minPrefix
        return ({ clients with minPrefix := minPrefix }, .added)

/-- `client_add`: the list, and what became of the client. `none` is a
fault of a tree. -/
def clientAdd (clients : ClientList) (client : RadClient) :
    Option (ClientList × ClientAdd) :=
  if client.prefixLen < 0 ∨ 128 < client.prefixLen then
    some (clients, .failed)
  else
    match clientSane client.ipaddr client.prefixLen.toNat with
    | none => some (clients, .failed)
    | some ipaddr => clientEnter clients { client with ipaddr := ipaddr }

-- ======== deletion

/-- `client_delete` of a client in the trees. -/
def clientDelete (clients : ClientList) (client : RadClient) :
    ClientList :=
  if clients.dynamic client.ident = 0 then clients
  else
    let i := client.prefixLen.toNat
    let num : ClientNum := ⟨clients.number client.ident, client.ident⟩
    let treeNum := clients.treeNum.map fun t => (rbtreeDeletebydata t num).1
    let tree :=
      (clients.trees i).map fun t => (rbtreeDeletebydata t client).1
    -- 2 until the tree frees it, which queues it and writes 3
    { clients with
      dynamic := Function.update clients.dynamic client.ident 3
      treeNum := treeNum
      trees := Function.update clients.trees i tree }

end WinRadius
