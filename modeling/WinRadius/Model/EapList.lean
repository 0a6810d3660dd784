/-
The sessions of the EAP module: mem.cpp of rlm_eap with the comparison of
rlm_eap.cpp, and `eap_handler` of eap.cpp.

# Memory

A handler is an address, and `handlers` the cells of those that are not
freed. The session tree holds addresses, and each of its operations
compares what lies at them at that time; where nothing lies any more, that
reads as zeros. `myHandler` of `eaplist_find` is on the stack, at the
address 0, which no allocation returns.

# What is left out

The tree of all handlers and `check_handler`, which only prints a warning
for it; what a handler keeps for its EAP type and the fields that neither
these functions nor `eap_handler` read; that the packet is freed where the
handler does not keep it. The words of `eap_rand` are a given sequence.
`pairmake` is a parameter: it can fail, for one when the dictionary has no
such attribute.
-/
import WinRadius.Lib.Cells
import WinRadius.Model.Detail
import WinRadius.Model.Eap
import WinRadius.Model.PacketList

namespace WinRadius

open Lib

-- ======== handlers

def pwUserName : Nat := 1
def pwState : Nat := 24
def eapStateLen : Nat := authVectorLen

/-- `EAP_DS`. -/
structure HandlerDs where
  response : EapResponse
  request : EapResponse :=
    { code := 0, id := 0, length := 0, type := 0, data := [] }
deriving DecidableEq

/-- `EAP_HANDLER`. -/
structure EapHandler where
  prev : Option Nat := none
  next : Option Nat := none
  state : AuthVector := .zero
  srcIpaddr : FrIpaddr := {}
  eapId : Nat := 0
  eapType : Nat := 0
  timestamp : Int := 0
  request : Option Nat := none
  identity : Option (List UInt8) := none
  prevEapds : Option HandlerDs := none
  eapDs : Option HandlerDs := none
  status : Int := 0
  trips : Nat := 0
deriving DecidableEq

/-- `eap_handler_cmp`. Behind the state it compares the addresses only to
print a warning. -/
def eapHandlerCmp (one two : EapHandler) : Int :=
  if one.eapId < two.eapId then -1
  else if two.eapId < one.eapId then 1
  else memcmp one.state.bytes two.state.bytes

/-- The parts of a `REQUEST` that are read or written here; `number` is
its address. -/
structure EapRequest where
  number : Nat
  packet : RadiusPacket
  timestamp : Int
  replyVps : List ValuePair := []

/-- `rlm_eap_t`. -/
structure RlmEap where
  handlers : Cells EapHandler := ∅
  sessionTree : RbTree Nat := rbtreeCreate (fun _ _ => 0) false
  sessionHead : Option Nat := none
  sessionTail : Option Nat := none
  timerLimit : Int
  maxSessions : Int
  randPool : Nat → UInt32
  randcnt : Nat := 0

namespace RlmEap

variable (inst : RlmEap)

/-- `*handler`. -/
def deref (handler : Nat) : Mem EapHandler :=
  match inst.handlers.lookup handler with
  | some h => pure h
  | none => throw .nullDeref

/-- `*handler = h`. -/
def setHandler (handler : Nat) (h : EapHandler) : RlmEap :=
  { inst with handlers := inst.handlers.insert handler h }

/-- An assignment through the pointer. -/
def modify (handler : Nat) (f : EapHandler → EapHandler) : Mem RlmEap := do
  let h ← inst.deref handler
  return inst.setHandler handler (f h)

/-- The address is given back. -/
def release (handler : Nat) : RlmEap :=
  { inst with handlers := inst.handlers.erase handler }

/-- `eap_handler_alloc`, where the allocation returns `handler`. -/
def eapHandlerAlloc (handler : Nat) : RlmEap := inst.setHandler handler {}

/-- `eap_handler_free`. -/
def eapHandlerFree (handler : Nat) : Mem RlmEap := do
  let _ ← inst.deref handler
  return inst.release handler

/-- What the comparison reads at an address. -/
def cell (handler : Nat) : EapHandler :=
  (inst.handlers.lookup handler).getD {}

/-- The session tree, as it compares now. -/
def tree : RbTree Nat :=
  { inst.sessionTree with
    compare := fun a b => eapHandlerCmp (inst.cell a) (inst.cell b) }

/-- `eap_rand`. -/
def eapRand : UInt32 × RlmEap :=
  (inst.randPool inst.randcnt, { inst with randcnt := inst.randcnt + 1 })

-- ======== deleting

/-- `handler->prev->next = handler->next`, or the head of the list. -/
def unspliceNext (handler : Nat) : Mem RlmEap := do
  let h ← inst.deref handler
  match h.prev with
  | some prev => inst.modify prev fun p => { p with next := h.next }
  | none => return { inst with sessionHead := h.next }

/-- `handler->next->prev = handler->prev`, or the tail of the list. -/
def unsplicePrev (handler : Nat) : Mem RlmEap := do
  let h ← inst.deref handler
  match h.next with
  | some next => inst.modify next fun n => { n with prev := h.prev }
  | none => return { inst with sessionTail := h.prev }

/-- `eaplist_delete`: what it returns may lie elsewhere than what is
looked for. -/
def eaplistDelete (handler : Nat) : Mem (RlmEap × Option Nat) :=
  match rbtreeFinddata inst.tree handler with
  | none => return (inst, none)
  | some handler => do
      let inst := { inst with
        sessionTree := (rbtreeDeletebydata inst.tree handler).1 }
      let inst ← inst.unspliceNext handler
      let inst ← inst.unsplicePrev handler
      let inst ← inst.modify handler fun h =>
        { h with prev := none, next := none }
      return (inst, some handler)

/-- A round of `eaplist_expire`. The assertion that the head is in the
tree fails as a `NULL` dereference. -/
def expireRound (timestamp : Int) : Mem RlmEap :=
  match inst.sessionHead with
  | none => return inst
  | some handler => do
      let h ← inst.deref handler
      if timestamp - h.timestamp > inst.timerLimit then
        match rbtreeFinddata inst.tree handler with
        | none => throw .nullDeref
        | some node =>
            let inst := { inst with
              sessionTree := (rbtreeDeletebydata inst.tree node).1
              sessionHead := h.next }
            let inst ← match h.next with
              | some next => inst.modify next fun n => { n with prev := none }
              | none => pure { inst with
                  sessionHead := none, sessionTail := none }
            inst.eapHandlerFree handler
      else return inst

/-- The rounds of `eaplist_expire`. -/
def expireRounds (timestamp : Int) : Nat → RlmEap → Mem RlmEap
  | 0, inst => pure inst
  | i + 1, inst => do
      let inst ← inst.expireRound timestamp
      expireRounds timestamp i inst

/-- `eaplist_expire`. -/
def eaplistExpire (timestamp : Int) : Mem RlmEap :=
  expireRounds timestamp 3 inst

-- ======== adding

end RlmEap

/-- `memcpy` of four random words. -/
def randomState (v w x y : UInt32) : AuthVector :=
  ⟨le32 v ++ le32 w ++ le32 x ++ le32 y, rfl⟩

/-- The bytes of a state that are changed with each round trip. -/
def mixState (state : AuthVector) (trips eapId eapType : Nat) :
    AuthVector :=
  let octet := state.bytes.getD
  ⟨((state.bytes.set 4 (UInt8.ofNat trips ^^^ octet 0 0)).set 5
      (UInt8.ofNat eapId ^^^ octet 1 0)).set 6
      (UInt8.ofNat eapType ^^^ octet 2 0),
    by rw [List.length_set, List.length_set, List.length_set, state.len]⟩

namespace RlmEap

variable (inst : RlmEap)

/-- "Create a unique content for the State variable": a new session gets
a random one. -/
def createState (handler : Nat) : Mem RlmEap := do
  let h ← inst.deref handler
  if h.trips = 0 then
    let (v, inst) := inst.eapRand
    let (w, inst) := inst.eapRand
    let (x, inst) := inst.eapRand
    let (y, inst) := inst.eapRand
    return inst.setHandler handler { h with state := randomState v w x y }
  else return inst

/-- The handler is put behind the last one. -/
def append (handler : Nat) : Mem RlmEap :=
  match inst.sessionTail with
  | some prev => do
      let inst ← inst.modify prev fun p => { p with next := some handler }
      let inst ← inst.modify handler fun h =>
        { h with prev := some prev, next := none }
      return { inst with sessionTail := some handler }
  | none => do
      let inst := { inst with
        sessionHead := some handler, sessionTail := some handler }
      inst.modify handler fun h => { h with next := none, prev := none }

/-- `eaplist_add` of a handler whose request is `request`: with the module
the request, whose reply gets the State, and whether the handler is in the
list. -/
def eaplistAdd (pairmake : List UInt8 → List UInt8 → Option ValuePair)
    (handler : Nat) (request : EapRequest) :
    Mem (RlmEap × EapRequest × Bool) := do
  let h ← inst.deref handler
  if h.request ≠ some request.number then throw .nullDeref
  match pairmake (ascii "State") (ascii "0x00") with
  | none => return (inst, request, false)
  | some state =>
      match h.eapDs with
      | none => throw .nullDeref
      | some eapDs =>
          let inst := inst.setHandler handler { h with
            timestamp := request.timestamp
            status := 1
            srcIpaddr := request.packet.srcIpaddr
            eapId := eapDs.request.id }
          -- a DoS attack: new sessions are discarded
          if inst.maxSessions ≤ inst.sessionTree.numElements then
            let inst ← inst.eaplistExpire request.timestamp
            return (inst, request, false)
          let inst ← inst.createState handler
          let inst ← inst.modify handler fun h =>
            { h with state := mixState h.state h.trips h.eapId h.eapType }
          let h ← inst.deref handler
          let state := { state.setOctets h.state.bytes with
            length := eapStateLen }
          match rbtreeInsertnode inst.tree handler with
          | none => throw .nullDeref
          | some (_, false) => return (inst, request, false)
          | some (tree, true) =>
              let inst := { inst with sessionTree := tree }
              let inst ← inst.append handler
              let inst ← inst.modify handler fun h =>
                { h with request := none }
              return (inst, { request with
                replyVps := request.replyVps ++ [state] }, true)

-- ======== finding

/-- `memcpy` of a State. -/
def stateOf (vp : ValuePair) : AuthVector :=
  ⟨vp.octets 16, padTake_length _ _⟩

/-- `&myHandler`. -/
def myHandler : Nat := 0

/-- `eaplist_find`; `id` is the identifier of the EAP packet. -/
def eaplistFind (request : EapRequest) (id : Nat) :
    Mem (RlmEap × Option Nat) :=
  match pairfind request.packet.vps pwState with
  | none => return (inst, none)
  | some state =>
      if state.length ≠ eapStateLen then return (inst, none)
      else do
        let inst := inst.setHandler myHandler
          { srcIpaddr := request.packet.srcIpaddr
            eapId := id
            state := stateOf state }
        let inst ← inst.eaplistExpire request.timestamp
        let (inst, handler) ← inst.eaplistDelete myHandler
        let inst := inst.release myHandler
        match handler with
        | none => return (inst, none)
        | some handler =>
            let h ← inst.deref handler
            if 50 ≤ h.trips then
              let inst ← inst.eapHandlerFree handler
              return (inst, none)
            return (inst.setHandler handler { h with
              trips := h.trips + 1
              prevEapds := h.eapDs
              eapDs := none }, some handler)

-- ======== handling

end RlmEap

/-- `strncmp` is 0: the strings are equal, or begin alike for `n` bytes. -/
def strncmpEq (n : Nat) (s t : List UInt8) : Bool :=
  (cString s).take n = (cString t).take n

/-- User-Name in the request: it is made where the NAS did not set it, and
has to be the identity where it did. `none` is an error. -/
def nameUser (pairmake : List UInt8 → List UInt8 → Option ValuePair)
    (identity : List UInt8) (request : EapRequest) : Option EapRequest :=
  match pairfind request.packet.vps pwUserName with
  | none =>
      (pairmake (ascii "User-Name") (cString identity)).map fun vp =>
        { request with packet := { request.packet with
            vps := vp :: request.packet.vps } }
  | some vp =>
      if strncmpEq maxStringLen identity (vp.octets maxStringLen) then
        some request
      else none

namespace RlmEap

variable (inst : RlmEap)

/-- The end of `eap_handler`. -/
def startRound (handler : Nat) (packet : List UInt8)
    (request : EapRequest) : Mem RlmEap := do
  let response ← eapBuildds packet
  inst.modify handler fun h => { h with
    eapDs := some { response := response }
    timestamp := request.timestamp
    request := some request.number }

/-- `eap_handler`: the module, the request and the handler. -/
def eapHandler (pairmake : List UInt8 → List UInt8 → Option ValuePair)
    (malloc : Malloc) (packet : List UInt8) (request : EapRequest) :
    Mem (RlmEap × EapRequest × Option Nat) := do
  if !(← eapValidation packet) then return (inst, request, none)
  let type ← fetch packet 4
  if type.toNat ≠ pwEapIdentity then
    let id ← fetch packet 1
    let (inst, found) ← inst.eaplistFind request id.toNat
    match found with
    | none => return (inst, request, none)
    | some handler =>
        let h ← inst.deref handler
        -- a NAK may answer a request for any type
        if type.toNat ≠ pwEapNak ∧ type.toNat ≠ h.eapType then
          return (inst, request, none)
        match h.identity with
        | none => throw .nullDeref
        | some identity =>
            match nameUser pairmake identity request with
            | none => return (inst, request, none)
            | some request =>
                let inst ← inst.startRound handler packet request
                return (inst, request, some handler)
  else
    let handler := malloc.address (0 :: inst.handlers.keys)
    let inst := inst.eapHandlerAlloc handler
    match ← eapIdentity packet with
    | none => return (← inst.eapHandlerFree handler, request, none)
    | some identity =>
        let inst ← inst.modify handler fun h =>
          { h with identity := some identity }
        match nameUser pairmake identity request with
        | none => return (← inst.eapHandlerFree handler, request, none)
        | some request =>
            let inst ← inst.startRound handler packet request
            return (inst, request, some handler)

end RlmEap

end WinRadius
