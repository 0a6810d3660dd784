/-
EAP-TLS fragments (eap_tls.cpp, tls.cpp): `eaptls_request`, which cuts
the TLS records the server has to send into EAP-Requests, and
`eaptls_process`, which puts those of the peer together again.

# What is left out

The TLS library: what it does with a complete record, and what it then
has to send, is not modelled, so `eaptls_process` ends where it hands the
record on (`.deliver`). The debug output is left out, with the two bytes
of an included length that it prints. The session is there: the module
has opened one before the first response it processes.
-/
import WinRadius.Lib.Bytes

namespace WinRadius

open Lib

-- ======== records

/-- `MAX_RECORD_SIZE`. -/
def maxRecordSize : Nat := 16384

/-- `record_t`: the bytes of `data` up to `used`. -/
structure TlsRecord where
  bytes : List UInt8
  fits : bytes.length ≤ maxRecordSize
deriving DecidableEq

/-- `record_init`. -/
def recordInit : TlsRecord := ⟨[], Nat.zero_le _⟩

/-- `record_plus`: how many of the bytes there was room for. -/
def recordPlus (rec : TlsRecord) (bytes : List UInt8) : Nat × TlsRecord :=
  let added := min (maxRecordSize - rec.bytes.length) bytes.length
  (added, ⟨rec.bytes ++ bytes.take added, by
    have := rec.fits
    rw [List.length_append, List.length_take]
    omega⟩)

/-- `record_minus`: the bytes taken off the front. -/
def recordMinus (rec : TlsRecord) (size : Nat) : List UInt8 × TlsRecord :=
  let taken := min rec.bytes.length size
  (rec.bytes.take taken, ⟨rec.bytes.drop taken, by
    have := rec.fits
    rw [List.length_drop]
    omega⟩)

-- ======== session

/-- `ContentType`, as far as the code tells them apart. -/
inductive ContentType where
  | alert | handshake | applicationData | other
deriving DecidableEq

/-- `tls_info_t`: what the TLS library last told of. -/
structure TlsInfo where
  /-- The record was received, not sent. -/
  origin : Nat := 0
  contentType : ContentType := .other
  /-- The handshake message was `finished`. -/
  finished : Bool := false
  initialized : Bool := false
deriving DecidableEq

/-- `tls_session_t`. -/
structure TlsSession where
  info : TlsInfo := {}
  dirtyIn : TlsRecord := recordInit
  dirtyOut : TlsRecord := recordInit
  offset : Nat
  tlsMsgLen : Nat := 0
  fragment : Bool := false
  lengthFlag : Bool
  peapFlag : UInt8 := 0
deriving DecidableEq

-- ======== flags

/-- `TLS_START`. -/
def tlsStart (flags : UInt8) : Bool := flags &&& 0x20 != 0

/-- `TLS_MORE_FRAGMENTS`. -/
def tlsMoreFragments (flags : UInt8) : Bool := flags &&& 0x40 != 0

/-- `TLS_LENGTH_INCLUDED`. -/
def tlsLengthIncluded (flags : UInt8) : Bool := flags &&& 0x80 != 0

/-- `SET_MORE_FRAGMENTS`. -/
def setMoreFragments (flags : UInt8) : UInt8 := flags ||| 0x40

/-- `SET_LENGTH_INCLUDED`. -/
def setLengthIncluded (flags : UInt8) : UInt8 := flags ||| 0x80

-- ======== sending

/-- `eaptls_request` with `eaptls_compose`: the type data of the
EAP-Request, flags first. -/
def eaptlsRequest (ssn : TlsSession) : List UInt8 × TlsSession :=
  let tlsMsgLen :=
    if ssn.fragment then ssn.tlsMsgLen else ssn.dirtyOut.bytes.length
  let more := decide (ssn.offset < ssn.dirtyOut.bytes.length)
  let size := if more then ssn.offset else ssn.dirtyOut.bytes.length
  -- the first fragment has the length in any case
  let lbit := ssn.lengthFlag || (more && !ssn.fragment)
  let flags := if more then setMoreFragments ssn.peapFlag else ssn.peapFlag
  let flags := if lbit then setLengthIncluded flags else flags
  let (bytes, dirtyOut) := recordMinus ssn.dirtyOut size
  let length := if lbit then be32 (UInt32.ofNat tlsMsgLen) else []
  (flags :: (length ++ bytes),
    { ssn with dirtyOut := dirtyOut, tlsMsgLen := tlsMsgLen
               fragment := more })

/-- `eaptls_request` once and again for each acknowledgement, until there
is nothing left to send. -/
def eaptlsFragments : Nat → TlsSession → List (List UInt8) × TlsSession
  | 0, ssn => ([], ssn)
  | fuel + 1, ssn =>
      let (first, ssn) := eaptlsRequest ssn
      if ssn.dirtyOut.bytes = [] then ([first], ssn)
      else
        let (rest, ssn) := eaptlsFragments fuel ssn
        (first :: rest, ssn)

-- ======== receiving

/-- An EAP-Response: its id and its type data, empty where the code has
`NULL`. -/
structure TlsResponse where
  id : Nat
  data : List UInt8
deriving DecidableEq

/-- The length in the header. `eap_buildds` takes as type data what it
leaves behind four bytes of header and one of type. -/
def TlsResponse.length (response : TlsResponse) : Nat :=
  5 + response.data.length

/-- `EAP_DS`: the id of the request that was sent, and the response. -/
structure EapDs where
  requestId : Nat
  response : Option TlsResponse
deriving DecidableEq

/-- `eaptls_status_t`, as far as `eaptls_verify` returns it. -/
inductive EaptlsStatus where
  | invalid | request | success | fail | ok | firstFragment
  | moreFragments | lengthIncluded | moreFragmentsWithLength
deriving DecidableEq

/-- `eaptls_ack_handler`. -/
def eaptlsAckHandler (ssn : TlsSession) : EaptlsStatus × TlsSession :=
  if !ssn.info.initialized then (.request, ssn)
  else
    match ssn.info.contentType with
    | .handshake =>
        if ssn.info.origin = 0 then (.fail, ssn)
        else if ssn.info.finished && ssn.dirtyOut.bytes.isEmpty then
          (.success, { ssn with
            info := { ssn.info with contentType := .applicationData } })
        else (.request, ssn)
    | .applicationData => (.request, ssn)
    | .alert | .other => (.fail, ssn)

/-- The flags of the response before, if there was one with data. -/
def prevFlags (prev : Option EapDs) : Option UInt8 := do
  let ds ← prev
  let response ← ds.response
  response.data.head?

/-- `eaptls_verify`. -/
def eaptlsVerify (prev : Option EapDs) (response : TlsResponse)
    (ssn : TlsSession) : EaptlsStatus × TlsSession :=
  match response.data with
  | [] => acknowledged
  | flags :: _ =>
      -- a header, a type and flags that say nothing
      if response.length = 4 + 2 ∧ flags &&& 0xc0 = 0 then acknowledged
      else if tlsStart flags then (.invalid, ssn)
      else if tlsLengthIncluded flags then
        if tlsMoreFragments flags then
          if (prevFlags prev).any tlsMoreFragments then
            (.moreFragmentsWithLength, ssn)
          else (.firstFragment, ssn)
        else (.lengthIncluded, ssn)
      else if tlsMoreFragments flags then (.moreFragments, ssn)
      else (.ok, ssn)
where
  acknowledged : EaptlsStatus × TlsSession :=
    if prev.any fun ds => ds.requestId == response.id then
      eaptlsAckHandler ssn
    else (.invalid, ssn)

/-- `len`, behind flags and length: a `uint32_t`. -/
def lengthBehind (response : TlsResponse) : Nat :=
  (UInt32.ofNat response.data.length - 5).toNat

/-- `eaptls_extract`: the TLS data of a response, `none` where the code
returns `NULL`. Its assertion about the length holds of any response with
a header. -/
def eaptlsExtract (status : EaptlsStatus) (response : TlsResponse) :
    Mem (Option (List UInt8)) := do
  if status = .invalid then return none
  let flags ← fetch response.data 0
  let included := tlsLengthIncluded flags
  if included ∧ response.length - 1 < 5 then return none
  let dataLen ← if included then
      do
        let field ← fetchN response.data 1 4
        pure (ofBe32 field).toNat
    else pure 0
  if maxRecordSize < dataLen then return none
  match status with
  | .firstFragment | .lengthIncluded | .moreFragmentsWithLength =>
      if response.length - 1 < 5 then return none
      let field ← fetchN response.data 1 4
      let len := lengthBehind response
      let data ← fetchN response.data 5 (min (ofBe32 field).toNat len : Nat)
      return some data
  | .moreFragments | .ok => return some (response.data.drop 1)
  | _ => return none

/-- What `eaptls_process` does about a response: it returns a status,
sends what is left of its own record, fails, acknowledges a fragment, or
hands a complete record to the TLS library. -/
inductive EaptlsOutcome where
  | status (status : EaptlsStatus)
  | request (data : List UInt8)
  | fail
  | ack
  | deliver (bytes : List UInt8)
deriving DecidableEq

/-- `eaptls_process`. -/
def eaptlsProcess (prev : Option EapDs) (response : TlsResponse)
    (ssn : TlsSession) : Mem (EaptlsOutcome × TlsSession) := do
  let (status, ssn) := eaptlsVerify prev response ssn
  match status with
  | .invalid | .fail | .success => return (.status status, ssn)
  | .request =>
      let (data, ssn) := eaptlsRequest ssn
      return (.request data, ssn)
  | .ok | .firstFragment | .moreFragments | .lengthIncluded
  | .moreFragmentsWithLength =>
      match ← eaptlsExtract status response with
      | none => return (.fail, ssn)
      | some data =>
          let (added, dirtyIn) := recordPlus ssn.dirtyIn data
          if data.length ≠ added then
            return (.fail, { ssn with dirtyIn := dirtyIn })
          else if status = .moreFragments
              ∨ status = .moreFragmentsWithLength
              ∨ status = .firstFragment then
            return (.ack, { ssn with dirtyIn := dirtyIn })
          else
            return (.deliver dirtyIn.bytes, { ssn with dirtyIn := recordInit })

/-- The `EAP_DS` that is kept of a response, with the id `eap_compose`
gives the next request. -/
def nextEapDs (response : TlsResponse) : EapDs :=
  ⟨(response.id + 1) % 256, some response⟩

/-- `eaptls_process` on one response after another. -/
def eaptlsReceive : Option EapDs → List TlsResponse → TlsSession →
    Mem (List EaptlsOutcome × TlsSession)
  | _, [], ssn => .ok ([], ssn)
  | prev, response :: rest, ssn => do
      let (first, ssn) ← eaptlsProcess prev response ssn
      let (outcomes, ssn) ← eaptlsReceive (some (nextEapDs response)) rest ssn
      .ok (first :: outcomes, ssn)

end WinRadius
