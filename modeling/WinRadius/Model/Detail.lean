/-
The reader of detail files of detail.cpp: the state machine that
`event_poll_detail` polls, and the completion of its requests.

# Files

A file is the bytes that can be read and the number of bytes after them
that cannot: a read past the first ones is at the end of the file, or an
error. `work` is the file under the name `filename_work`, if there is one.
A file that is there can be opened, and `unlink` removes it.

# Failures

A failed `rad_assert` is a fault, as are reading from a NULL stream,
writing past the end of a buffer and running out of fuel. Memory is there, `fdopen` succeeds, and the clock
does not move during a call. The parse of an attribute line (`userparse`)
and the resolution of a name (`ip_hton`) are parameters.

# Left out

The thread that waits for the signal, log messages, and the address
fields of the packet that are random numbers.
-/
import WinRadius.Model.Event
import WinRadius.Model.Types

namespace WinRadius

-- ======== streams

/-- A file: the bytes that can be read, and how many more there are. -/
structure DetailFile where
  bytes : List UInt8
  lost : Nat := 0
  deriving DecidableEq

/-- `st_size`. -/
def DetailFile.size (file : DetailFile) : Nat :=
  file.bytes.length + file.lost

/-- `FILE *`. -/
structure DetailStream where
  file : DetailFile
  pos : Nat := 0
  feof : Bool := false
  ferror : Bool := false
  deriving DecidableEq

/-- The bytes up to the newline, at most `n`. -/
def lineOf : Nat → List UInt8 → List UInt8
  | 0, _ => []
  | _ + 1, [] => []
  | n + 1, b :: bs => if b = 10 then [b] else b :: lineOf n bs

/-- `fgets(buffer, sizeof(buffer), fp)` with a buffer of 2048 bytes. -/
def DetailStream.fgets (fp : DetailStream) :
    Option (List UInt8) × DetailStream :=
  let line := lineOf 2047 (fp.file.bytes.drop fp.pos)
  let fp' := { fp with pos := fp.pos + line.length }
  if line.length = 2047 ∨ line.getLast? = some 10 then (some line, fp')
  else if 0 < fp.file.lost then (none, { fp' with ferror := true })
  else if line = [] then (none, { fp' with feof := true })
  else (some line, { fp' with feof := true })

/-- What goes wrong. -/
inductive DetailFault where
  | assertion | nullDeref | overflow | outOfFuel
  deriving Repr, DecidableEq

-- ======== scanning

/-- `isspace`. -/
def isSpace (b : UInt8) : Bool := b == 32 || (9 ≤ b && b ≤ 13)

def isDigit (b : UInt8) : Bool := 48 ≤ b && b ≤ 57

/-- What a conversion of `sscanf` comes to. -/
inductive Scan where
  | eof
  | mismatch
  | found (item rest : List UInt8)

/-- `%s`, with a width. -/
def scanWord (width : Nat) (bs : List UInt8) : Scan :=
  let bs := bs.dropWhile isSpace
  let word := (bs.takeWhile (!isSpace ·)).take width
  if bs = [] then .eof else .found word (bs.drop word.length)

/-- `%d`. -/
def scanInt (bs : List UInt8) : Scan :=
  let bs := bs.dropWhile isSpace
  let signed := bs.head? == some 43 || bs.head? == some 45
  let digits := (if signed then bs.tail else bs).takeWhile isDigit
  if bs = [] then .eof
  else if digits = [] then .mismatch
  else .found digits (bs.drop (digits.length + signed.toNat))

/-- A colon. -/
def scanColon : List UInt8 → Scan
  | [] => .eof
  | b :: bs => if b = 58 then .found [b] bs else .mismatch

/-- Conversions one after the other, none of them stored: all are found,
or what `sscanf` returns. An end of the input before the first one has
completed is -1. -/
def scanAll : List (List UInt8 → Scan) → Bool → List UInt8 →
    Except Int (List UInt8)
  | [], _, bs => .ok bs
  | f :: fs, started, bs =>
      match f bs with
      | .eof => .error (if started = true then 0 else -1)
      | .mismatch => .error 0
      | .found _ rest => scanAll fs true rest

/-- `sscanf(buffer, "%*s %*s %*d %*d:%*d:%*d %d", &y)`. -/
def scanHeader (buffer : List UInt8) : Int :=
  match scanAll [scanWord 2048, scanWord 2048, scanInt, scanInt, scanColon,
      scanInt, scanColon, scanInt, scanInt] false (cString buffer) with
  | .ok _ => 1
  | .error code => code

/-- `sscanf(buffer, "%255s %8s %1023s", key, op, value)`, where it finds
all three. The NUL behind 8 characters is written past the end of
`char op[8]`, with a value behind them or not. -/
def scanPair (buffer : List UInt8) :
    Except DetailFault (Option (List UInt8 × List UInt8 × List UInt8)) :=
  match scanWord 255 (cString buffer) with
  | .found key rest =>
      match scanWord 8 rest with
      | .found op rest =>
          if op.length = 8 then .error .overflow
          else
            match scanWord 1023 rest with
            | .found value _ => .ok (some (key, op, value))
            | _ => .ok none
      | _ => .ok none
  | _ => .ok none

def toLower (b : UInt8) : UInt8 := if 65 ≤ b ∧ b ≤ 90 then b + 32 else b

/-- `!strcasecmp(a, b)`. -/
def sameNoCase (a b : List UInt8) : Bool :=
  (cString a).map toLower == (cString b).map toLower

/-- `atoi` of a buffer: an `int`, which saturates. -/
def atoiBytes (bs : List UInt8) : Int :=
  match scanInt bs with
  | .found digits _ =>
      let n : Int := digits.foldl (fun n b => 10 * n + (b.toNat - 48)) 0
      if (bs.dropWhile isSpace).head? = some 45 then max (-2 ^ 31) (-n)
      else min (2 ^ 31 - 1) n
  | _ => 0

-- ======== the listener

/-- `detail_state_t`. -/
inductive DetailState where
  | unopened | unlocked | header | reading | queued | running | noReply
  | replied
  deriving Repr, DecidableEq

/-- `listen_detail_t`, with the descriptor of its listener and the work
file. `delay_time` and the round trip times are 32-bit integers. -/
structure ListenDetail where
  fd : Int := -1
  work : Option DetailFile := none
  delayTime : Int
  vps : List ValuePair := []
  fp : Option DetailStream := none
  offset : Nat := 0
  state : DetailState := .unopened
  timestamp : Int := 0
  running : Nat := 0
  clientIp : FrIpaddr := {}
  loadFactor : Int
  signal : Bool := true
  retryInterval : Nat
  packets : Nat := 0
  tries : Nat := 0
  hasRtt : Bool := false
  srtt : Int := 0
  rttvar : Int := 0
  lastPacket : Timeval := ⟨0, 0⟩

/-- `rad_assert`. -/
def radAssert (p : Prop) [Decidable p] : Except DetailFault Unit :=
  if p then .ok () else .error .assertion

/-- What the calls of a poll are answered. -/
structure DetailEnv where
  /-- the detail file, if it is there and is renamed -/
  detail : Option DetailFile
  fd : Nat
  locked : Bool
  now : Nat
  ipHton : List UInt8 → Option FrIpaddr
  /-- `received_request` takes the packet -/
  received : Bool

def pwEventTimestamp : Nat := 55
def pwAcctDelayTime : Nat := 41
def pwPacketOriginalTimestamp : Nat := 1109
def pwPacketTransmitCounter : Nat := 1134

-- ======== rtt

/-- A 32-bit integer. -/
def int32 (n : Int) : Int := n.bmod (2 ^ 32)

/-- `timercmp(a, b, <)`. -/
def timerLess (a b : Timeval) : Bool :=
  a.tvSec < b.tvSec || (a.tvSec == b.tvSec && a.tvUsec < b.tvUsec)

/-- `detail_send`: the request has timed out, or has a reply. -/
def detailSend (data : ListenDetail) (code : Nat) (now received : Timeval) :
    ListenDetail :=
  if code = 0 then
    { data with
      delayTime := int32 (data.retryInterval * 1000000)
      signal := true
      state := .noReply }
  else
    let hasRtt := data.hasRtt
      && !timerLess data.lastPacket ⟨now.tvSec - 1, now.tvUsec⟩
    let rtt := int32 (now.tvSec - received.tvSec)
    let rtt := int32 (rtt * 1000000)
    let rtt := int32 (rtt + now.tvUsec)
    let rtt := int32 (rtt - received.tvUsec)
    let rttvar := if hasRtt then
        int32 (int32 (data.rttvar - data.rttvar / 4)
          + int32 (data.srtt - rtt))
      else rtt.tdiv 2
    let srtt := if hasRtt then
        int32 (int32 (data.srtt - data.srtt / 8) + rtt / 8)
      else rtt
    let delay := (int32 (srtt * (100 - data.loadFactor))).tdiv
      data.loadFactor
    { data with
      hasRtt := true
      rttvar := rttvar
      srtt := srtt
      delayTime := if 250000 < delay then 250000 else delay
      lastPacket := now
      signal := true
      state := .replied }

-- ======== lines

/-- `!strchr(buffer, '\n')`, negated. -/
def hasNewline (buffer : List UInt8) : Bool := (cString buffer).contains 10

/-- What is made of a line in a record: a fault, skipped, the address or
the time of the packet, or pairs of its own. -/
inductive DetailLine where
  | fault (f : DetailFault)
  | skip
  | clientIp (value : List UInt8)
  | timestamp (value : Int)
  | pairs (first : ValuePair) (others : List ValuePair)

def ascii (s : String) : List UInt8 := s.toList.map (·.toNat.toUInt8)

/-- The checks of an "attribute = value" line. -/
def detailLine (userparse : List UInt8 → Bool × List ValuePair)
    (buffer : List UInt8) : DetailLine :=
  match scanPair buffer with
  | .error f => .fault f
  | .ok none => .skip
  | .ok (some (key, op, value)) =>
      if op.contains 61 = false then .skip
      else if sameNoCase key (ascii "Request-Authenticator") then .skip
      else if sameNoCase key (ascii "Client-IP-Address") then
        .clientIp value
      else if sameNoCase key (ascii "Timestamp") then
        .timestamp (atoiBytes value)
      else
        match userparse buffer with
        | (true, vp :: vps) => .pairs vp vps
        | _ => .skip

/-- The pair of a `Timestamp` line. -/
def originalTimestamp (timestamp : Int) : ValuePair where
  attr := pwPacketOriginalTimestamp
  type := .date
  lvalue := UInt32.ofInt timestamp

-- ======== reading

/-- How the loop over the lines ends. -/
inductive DetailRead where
  | malformed | blank | exhausted
  deriving Repr, DecidableEq

section read

variable (userparse : List UInt8 → Bool × List ValuePair) (env : DetailEnv)

/-- The loop over the lines. `tail` points past `vps`; a line with several
pairs leaves the others behind it, where the next pair replaces them. -/
def readLines : Nat → ListenDetail → List ValuePair → List ValuePair →
    Except DetailFault (DetailRead × ListenDetail)
  | 0, _, _, _ => .error .outOfFuel
  | fuel + 1, data, vps, others =>
      match data.fp with
      | none => .error .nullDeref
      | some fp =>
          match fp.fgets with
          | (none, fp) =>
              .ok (.exhausted, { data with fp := some fp
                                           vps := vps ++ others })
          | (some buffer, fp) =>
              let data := { data with fp := some fp, offset := fp.pos }
              if hasNewline buffer = false then
                .ok (.malformed, { data with vps := [] })
              else if data.state = .reading ∧ buffer.head? = some 10 then
                .ok (.blank, { data with state := .queued
                                         vps := vps ++ others })
              else if data.state = .header then
                let state := if scanHeader buffer ≠ 0 then .reading
                  else .header
                readLines fuel { data with state := state } vps others
              else
                match detailLine userparse buffer with
                | .fault f => .error f
                | .skip => readLines fuel data vps others
                | .clientIp value =>
                    let ip := (env.ipHton value).getD
                      { data.clientIp with af := afInet }
                    readLines fuel { data with clientIp := ip } vps others
                | .timestamp value =>
                    readLines fuel { data with timestamp := value }
                      (vps ++ [originalTimestamp value]) []
                | .pairs vp vps' =>
                    readLines fuel data (vps ++ [vp]) vps'

-- ======== detail_recv

/-- `cleanup`: the work file is removed. -/
def detailCleanup (data : ListenDetail) :
    Except DetailFault (ListenDetail × Option RadiusPacket) := do
  let data := { data with
    work := none, fp := none, fd := -1, state := .unopened }
  radAssert (data.vps = [])
  .ok (data, none)

/-- A pair is updated, or a new one is added. -/
def pairUpdate (vps : List ValuePair) (attr : Nat)
    (f : UInt32 → UInt32) : List ValuePair :=
  if (pairfind vps attr).isSome then
    match vps.span (·.attr != attr) with
    | (before, vp :: after) =>
        before ++ { vp with lvalue := f vp.lvalue } :: after
    | (before, []) => before
  else vps ++ [{ attr := attr, type := .integer, lvalue := f 0 }]

/-- The packet of a record. The source address is looked for in the pairs
of the packet while it has none, so it is not found there. -/
def detailPacket (data : ListenDetail) : RadiusPacket × ListenDetail :=
  let any : FrIpaddr := { af := afInet, ipaddr := [255, 255, 255, 255] }
  let src := if data.clientIp.af ≠ afUnspec then data.clientIp else any
  let timestamp := match pairfind data.vps pwEventTimestamp with
    | some vp => (vp.lvalue.toNat : Int)
    | none => data.timestamp
  let late := if timestamp ≠ 0 then UInt32.ofInt (env.now - timestamp) else 0
  let vps := pairUpdate data.vps pwAcctDelayTime (· + late)
  let vps := pairUpdate vps pwPacketTransmitCounter
    fun _ => data.tries.toUInt32
  ({ sockfd := -1
     srcIpaddr := src
     code := pwAccountingRequest
     vps := vps }, { data with timestamp := timestamp })

/-- `alloc_packet`. -/
def allocPacket (data : ListenDetail) :
    Except DetailFault (ListenDetail × Option RadiusPacket) :=
  let data := { data with tries := data.tries + 1 }
  if data.state ≠ .queued then detailCleanup data
  else if data.vps = [] then
    let data := { data with state := .header }
    match data.fp with
    | none => detailCleanup data
    | some fp => if fp.feof = true then detailCleanup data
        else .ok (data, none)
  else
    let (packet, data) := detailPacket env data
    if env.received = false then
      .ok ({ data with state := .noReply }, none)
    else .ok ({ data with state := .running, running := env.now },
      some packet)

/-- Reading a record, and what follows. -/
def readRecord (data : ListenDetail) :
    Except DetailFault (ListenDetail × Option RadiusPacket) := do
  let left := match data.fp with
    | some fp => fp.file.bytes.length - fp.pos
    | none => 0
  let (how, data) ← readLines userparse env (left + 1) data data.vps []
  match how with
  | .malformed => detailCleanup data
  | _ =>
      if (data.fp.map (·.ferror)) = some true then detailCleanup data
      else allocPacket env { data with tries := 0
                                       packets := data.packets + 1 }

/-- `do_header` with a stream that is open. -/
def atHeader (data : ListenDetail) (fp : DetailStream) :
    Except DetailFault (ListenDetail × Option RadiusPacket) :=
  let data := { data with tries := 0 }
  if fp.pos = fp.file.size then detailCleanup data
  else if fp.feof = true then detailCleanup data
  else readRecord userparse env data

/-- `detail_open`: the work file, or else the detail file under its
name. -/
def detailOpen (data : ListenDetail) :
    Except DetailFault (Option (ListenDetail × DetailFile)) := do
  radAssert (data.state = .unopened)
  match data.work.or env.detail with
  | none => .ok none
  | some file => do
      radAssert (data.vps = [])
      radAssert (data.fp = none)
      .ok (some ({ data with
        delayTime := 1000000
        fd := env.fd
        work := some file
        state := .unlocked
        clientIp := { data.clientIp with af := afUnspec }
        timestamp := 0
        offset := 0
        packets := 0
        tries := 0 }, file))

/-- `open_file`, and the lock. -/
def openFile (data : ListenDetail) :
    Except DetailFault (ListenDetail × Option RadiusPacket) := do
  radAssert (data.fd < 0)
  match ← detailOpen env data with
  | none => .ok ({ data with delayTime := 1000000 }, none)
  | some (data, file) => do
      radAssert (data.state = .unlocked)
      radAssert (0 ≤ data.fd)
      if env.locked = false then
        .ok ({ data with fd := -1, state := .unopened }, none)
      else
        let fp : DetailStream := { file := file }
        atHeader userparse env { data with
          fp := some fp
          state := .header
          delayTime := 1000000
          vps := [] } fp

/-- `do_header`. -/
def doHeader (data : ListenDetail) :
    Except DetailFault (ListenDetail × Option RadiusPacket) :=
  match data.fp with
  | none => openFile userparse env { data with tries := 0
                                               state := .unopened }
  | some fp => atHeader userparse env data fp

/-- `STATE_UNLOCKED` at the start of a call: the lock is tried again. -/
def lockAgain (data : ListenDetail) :
    Except DetailFault (ListenDetail × Option RadiusPacket) :=
  if env.locked = false then
    .ok ({ data with fd := -1, state := .unopened }, none)
  else
    match data.work with
    | none => .error .nullDeref
    | some file =>
        let fp : DetailStream := { file := file }
        atHeader userparse env { data with
          fp := some fp
          state := .header
          delayTime := 1000000
          vps := [] } fp

/-- `detail_recv`. -/
def detailRecv (data : ListenDetail) :
    Except DetailFault (ListenDetail × Option RadiusPacket) :=
  if data.signal = true then .ok (data, none)
  else
    match data.state with
    | .unopened => openFile userparse env data
    | .unlocked => lockAgain userparse env data
    | .header => doHeader userparse env data
    | .reading =>
        match data.fp with
        | some fp => if fp.feof = true then
            allocPacket env { data with state := .queued }
          else readRecord userparse env data
        | none => allocPacket env { data with state := .queued }
    | .queued => allocPacket env data
    | .running =>
        if env.now < data.running + data.retryInterval then .ok (data, none)
        else allocPacket env { data with state := .queued }
    | .noReply => allocPacket env { data with state := .queued }
    | .replied =>
        doHeader userparse env { data with vps := [], state := .header }

/-- `detail_encode`, as far as it changes the reader. -/
def detailEncode (data : ListenDetail) : ListenDetail :=
  { data with signal := false }

/-- `event_poll_detail`. -/
def eventPollDetail (data : ListenDetail) :
    Except DetailFault (ListenDetail × Option RadiusPacket) := do
  let (data, packet) ← detailRecv userparse env data
  .ok (detailEncode data, packet)

end read

/-- `detail_parse`. A work file may be left from before. -/
def detailParse (work : Option DetailFile)
    (loadFactor pollInterval retryInterval : Nat) : ListenDetail where
  work := work
  delayTime := pollInterval * 1000000
  loadFactor := loadFactor
  retryInterval := retryInterval

end WinRadius
