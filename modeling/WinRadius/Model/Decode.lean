/-
The decoder of radius.cpp: one value (`data2vp`), the coalescing of
continued attributes (`rad_coalesce`, `rad_continuation2vp`), and the
attribute loop of `rad_decode`.

# Reads and pointers

Every read of a buffer is a checked `fetch`, so a run that leaves the
received bytes ends in `Fault.overread`, and a walk that stops advancing
in `Fault.hang`. Pointers are offsets into the packet and, like the
lengths, integers: the code keeps them in `int` and some of its paths
make them negative.

# The loop as a transition system

`rad_decode` keeps eight locals alive across iterations. `DecState` is
those locals, `decodeStep` the loop body, and `decodeLoop` its iteration;
`DecNext` is the step relation the invariants are stated over. `goto
create_pair` out of the middle of the sweep is `Sweep.raw`.

The packet's bytes are part of the state because `rad_coalesce` writes
into them.
-/
import WinRadius.Model.Sign
import WinRadius.Lib.Run

namespace WinRadius

open Lib

-- ======== contexts

/-- What the decoder is given besides the packet's bytes: the two
vectors and the secret, whose pointers may be `NULL`. -/
structure DecCtx where
  cfg : Config
  vector : AuthVector
  original : Option RadiusPacket
  secret : Option (List UInt8)

/-- `strlcpy(vp->vp_strvalue, name, sizeof(vp->vp_strvalue))`. -/
def ValuePair.strlcpy (vp : ValuePair) (name : List UInt8) : ValuePair :=
  vp.setOctets (name.take 253 ++ [0])

-- ======== data2vp

/-- The `raw:` label: a fresh pair of octets under the number given to
`data2vp`, holding the bytes as they came. `none` is the `NULL` return. -/
def rawPair (cfg : Config) (attr : Nat) (bytes : List UInt8) :
    Option ValuePair :=
  (paircreateRaw cfg attr .octets (pairalloc none)).map fun vp =>
    { vp.setOctets bytes with length := bytes.length }

/-- The decryption switch. `none` is `goto raw`. The Ascend secret is
read from the packet, sixteen bytes whatever the attribute's length. -/
def decryptVp (ctx : DecCtx) (buf : List UInt8) (data : Int)
    (vp : ValuePair) : Mem (Option ValuePair) :=
  match ctx.secret with
  | none => pure (some vp)
  | some secret =>
      match vp.flags.encrypt with
      | .userPassword =>
          let vector := (ctx.original.map (·.vector)).getD ctx.vector
          let vp' := { vp with
            data := radPwdecode ctx.cfg vp.data vp.length secret vector }
          if vp.attr = pwUserPassword then
            pure (some { vp' with length := vp'.strlen })
          else pure (some vp')
      | .tunnelPassword =>
          match ctx.original with
          | none => pure none
          | some o =>
              match radTunnelPwdecode ctx.cfg vp.data vp.length secret
                  o.vector with
              | none => pure none
              | some (data', length) =>
                  pure (some { vp with data := data', length := length })
      | .ascendSecret =>
          match ctx.original with
          | none => pure none
          | some o => do
              let value ← fetchN buf data 16
              let digest := makeSecret ctx.cfg o.vector secret value
              let vp' := vp.setOctets (digest ++ [0])
              pure (some { vp' with length := vp'.strlen })
      | .none | .unknown => pure (some vp)

/-- The switch over the type. `none` falls to `raw:`. `length` and
`bytes` are the attribute's, before any tag was taken off. -/
def typedVp (cfg : Config) (bytes : List UInt8) (vp : ValuePair) :
    Option ValuePair :=
  match vp.type with
  | .string | .octets | .abinary => some vp
  | .byte =>
      if vp.length ≠ 1 then none
      else some { vp with
        lvalue := UInt32.ofNat ((vp.octets 1).getD 0 0).toNat }
  | .short =>
      if vp.length ≠ 2 then none
      else some { vp with
        lvalue := UInt32.ofNat (((vp.octets 2).getD 0 0).toNat * 256
          + ((vp.octets 2).getD 1 0).toNat) }
  | .integer =>
      if vp.length ≠ 4 then none
      else
        let n := ofBe32 (vp.octets 4)
        let n := if vp.flags.hasTag then n &&& 0x00ffffff else n
        let vp' := { vp with lvalue := n }
        match cfg.dict.valbyattr vp.attr n with
        | some name => some (vp'.strlcpy name)
        | none => some vp'
  | .date =>
      if vp.length ≠ 4 then none
      else some { vp with lvalue := ofBe32 (vp.octets 4) }
  | .ipaddr =>
      if vp.length ≠ 4 then none
      else some { vp with lvalue := ofLe32 (vp.octets 4) }
  | .ifid => if vp.length ≠ 8 then none else some vp
  | .ipv6addr => if vp.length ≠ 16 then none else some vp
  | .ipv6Prefix =>
      if vp.length < 2 ∨ 18 < vp.length then none
      else if 128 < ((vp.octets 2).getD 1 0).toNat then none
      else some { vp with
        data := padTake 18 (vp.octets vp.length) ++ vp.data.drop 18 }
  | .signed =>
      if vp.length ≠ 4 then none
      else
        let n := ofBe32 (vp.octets 4)
        some { vp.setOctets (le32 n) with lvalue := n }
  | .tlv => some { vp with length := bytes.length, tlv := some bytes }
  | .comboIp =>
      if vp.length = 4 then
        some { vp with type := .ipaddr, lvalue := ofLe32 (vp.octets 4) }
      else if vp.length = 16 then some { vp with type := .ipv6addr }
      else none
  | .ethernet => none

/-- `length` as `data2vp` uses it: a `size_t`, cut at 253. -/
def clipLength (length : Int) : Int :=
  if length < 0 ∨ 253 < length then 253 else length

/-- The tag handling: the tag found and the number of bytes it takes off
the front. -/
def vpTag (buf : List UInt8) (data : Int) (vp : ValuePair) :
    Mem (ValuePair × Int) := do
  if vp.flags.hasTag then
    let first ← fetch buf data
    if tagValid first || decide (vp.flags.encrypt = .tunnelPassword) then
      let vp' := { vp with flags := { vp.flags with tag := first } }
      if vp.type = .string ∨ vp.type = .octets then pure (vp', 1)
      else pure (vp', 0)
    else pure (vp, 0)
  else pure (vp, 0)

/-- The end of `data2vp`: the typed pair, or `raw:` if the decryption
(`none`) or the type switch went there. -/
def typedOrRaw (cfg : Config) (attr : Nat) (bytes : List UInt8)
    (vp : Option ValuePair) : Option ValuePair :=
  match vp.bind (typedVp cfg bytes) with
  | some vp' => some vp'
  | none => rawPair cfg attr bytes

/-- `data2vp` of `length` bytes at `data` in `buf`. `none` is the `NULL`
return. -/
def data2vp (ctx : DecCtx) (attr : Nat) (length : Int)
    (buf : List UInt8) (data : Int) (vp : ValuePair) :
    Mem (Option ValuePair) := do
  let length := clipLength length
  let (vp, offset) ← vpTag buf data { vp with op := .opEq }
  let value ← fetchN buf (data + offset) (length - offset)
  let bytes ← fetchN buf data length
  let res ← decryptVp ctx buf data
    { vp.setOctets value with length := value.length }
  pure (typedOrRaw ctx.cfg attr bytes res)

/-- `rad_attr2vp`. -/
def radAttr2vp (ctx : DecCtx) (attr : Nat) (length : Int)
    (buf : List UInt8) (data : Int) : Mem (Option ValuePair) :=
  match paircreate ctx.cfg attr .octets with
  | none => pure none
  | some vp => data2vp ctx attr length buf data vp

-- ======== rad_sortvp

/-- The attribute number as the C `int` compares. -/
def signedAttr (vp : ValuePair) : Int :=
  if vp.attr < 2147483648 then vp.attr else vp.attr - 4294967296

/-- One pass of `rad_sortvp`: after a swap the pass goes on behind the
pair it moved. -/
def sortPass : List ValuePair → List ValuePair × Bool
  | a :: b :: rest =>
      if signedAttr b < signedAttr a then (b :: a :: (sortPass rest).1, true)
      else (a :: (sortPass (b :: rest)).1, (sortPass (b :: rest)).2)
  | l => (l, false)

/-- `rad_sortvp`: passes until one makes no swap. Each swapping pass
removes an inversion, so the square of the length bounds them. -/
def radSortvp (l : List ValuePair) : List ValuePair :=
  go (l.length * l.length + 1) l
where
  go : Nat → List ValuePair → List ValuePair
    | 0, l => l
    | fuel + 1, l => if (sortPass l).2 then go fuel (sortPass l).1 else l

-- ======== rad_coalesce

/-- How a round of the walk of `rad_coalesce` treats the attribute at
`ptr`: passed over, taken (with its vendor length), or a stop. -/
inductive Fragment where
  | skip
  | stop
  | take (vlen : Nat) (more : Bool)
deriving DecidableEq

/-- The tests both walks of `rad_coalesce` make at `ptr`. -/
def fragmentAt (attr : Nat) (buf : List UInt8) (ptr : Int) :
    Mem Fragment := do
  if (← fetch buf ptr).toNat ≠ pwVendorSpecific then pure .skip
  else if (← fetch buf (ptr + 1)).toNat < 9 then pure .skip
  else if (← fetch buf (ptr + 2)) ≠ 0 then pure .skip
  else if (← fetch buf (ptr + 3)) ≠ 0 then pure .skip
  else
    let vendor ← fetchN buf (ptr + 2) 4
    let number ← fetch buf (ptr + 6)
    let lvalue :=
      ((ofBe32 vendor).toNat <<< 16) % 4294967296 ||| number.toNat
    if lvalue ≠ attr then pure .skip
    else
      let vlen ← fetch buf (ptr + 7)
      if vlen < 3 then pure .stop
      else
        let cont ← fetch buf (ptr + 8)
        pure (.take vlen.toNat (decide (cont &&& 0x80 ≠ 0)))

/-- The first walk: the total length of the fragments from `ptr` to
`stop`. A length byte of zero loops for ever; any other makes progress,
so the size of the buffer is fuel enough. -/
def coalesceLength (attr : Nat) (buf : List UInt8) (stop : Int) :
    Nat → Int → Mem Nat
  | 0, _ => throw .hang
  | fuel + 1, ptr =>
      if ptr = stop then pure 0
      else do
        match ← fragmentAt attr buf ptr with
        | .stop => pure 0
        | .take vlen false => pure (vlen - 3)
        | .take vlen true =>
            let len ← fetch buf (ptr + 1)
            let n ← coalesceLength attr buf stop fuel (ptr + len.toNat)
            pure (vlen - 3 + n)
        | .skip =>
            let len ← fetch buf (ptr + 1)
            coalesceLength attr buf stop fuel (ptr + len.toNat)

/-- The second walk: copies the fragments and zeroes their vendor type,
so that the main loop passes over them. Answers the bytes copied and the
packet as it leaves it. -/
def coalesceCopy (attr : Nat) (stop : Int) :
    Nat → List UInt8 → Int → Mem (List UInt8 × List UInt8)
  | 0, _, _ => throw .hang
  | fuel + 1, buf, ptr =>
      if ptr = stop then pure ([], buf)
      else do
        match ← fragmentAt attr buf ptr with
        | .stop => pure ([], buf)
        | .take vlen false =>
            let piece ← fetchN buf (ptr + 9) (vlen - 3)
            pure (piece, overlay buf (ptr + 6).toNat [0])
        | .take vlen true =>
            let piece ← fetchN buf (ptr + 9) (vlen - 3)
            let buf := overlay buf (ptr + 6).toNat [0]
            let len ← fetch buf (ptr + 1)
            let (more, buf) ←
              coalesceCopy attr stop fuel buf (ptr + len.toNat)
            pure (piece ++ more, buf)
        | .skip =>
            let len ← fetch buf (ptr + 1)
            coalesceCopy attr stop fuel buf (ptr + len.toNat)

/-- `rad_coalesce`: the joined value and the packet as it is left. The
block is sized by the first walk; where the second fills less, the rest is
what `malloc` left there. -/
def radCoalesce (cfg : Config) (attr : Nat) (length : Int)
    (buf : List UInt8) (data packetLength : Int) :
    Mem (List UInt8 × List UInt8) := do
  let stop := data + packetLength
  let n ← coalesceLength attr buf stop (buf.length + 1) (data + length)
  let first ← fetchN buf data length
  let (rest, buf') ←
    coalesceCopy attr stop (buf.length + 1) buf (data + length)
  let total := first.length + n
  let block := (first ++ rest ++ (List.range total).map cfg.heap).take
    total
  pure (block, buf')

-- ======== rad_continuation2vp

/-- The first walk over a TLV: the sub-TLVs add up exactly. `left` bytes
remain at `ptr`. -/
def tlvWellFormed (buf : List UInt8) : Nat → Int → Nat → Mem Bool
  | 0, _, _ => throw .hang
  | fuel + 1, ptr, left =>
      if left = 0 then pure true
      else if left < 2 then pure false
      else do
        let len ← fetch buf (ptr + 1)
        if len < 2 ∨ left < len.toNat then pure false
        else tlvWellFormed buf fuel (ptr + len.toNat) (left - len.toNat)

/-- The second walk: one pair per sub-TLV, `none` when one cannot be
made. The number handed to `data2vp` is the sub-TLV's own. -/
def subTlvs (ctx : DecCtx) (attr : Nat) (buf : List UInt8) :
    Nat → Int → Nat → Mem (Option (List ValuePair))
  | 0, _, _ => throw .hang
  | fuel + 1, ptr, left =>
      if left = 0 then pure (some [])
      else do
        let number ← fetch buf ptr
        let len ← fetch buf (ptr + 1)
        match paircreate ctx.cfg (attr ||| (number.toNat <<< 8)) .octets with
        | none => pure none
        | some vp =>
            match ← data2vp ctx number.toNat (len.toNat - 2) buf (ptr + 2)
                vp with
            | none => pure none
            | some vp' =>
                match ← subTlvs ctx attr buf fuel (ptr + len.toNat)
                    (left - len.toNat) with
                | none => pure none
                | some more => pure (some (vp' :: more))

/-- `not_well_formed:` one pair holding the whole value. -/
def wholeTlv (cfg : Config) (attr : Nat) (bytes : List UInt8) :
    List ValuePair :=
  match paircreate cfg attr .octets with
  | none => []
  | some vp =>
      [{ vp with
        type := .tlv
        flags := { vp.flags with
          encrypt := .none, hasTag := false, isTlv := false }
        tlv := some bytes
        length := bytes.length }]

/-- The part of `rad_continuation2vp` behind the coalescing: the value is
the `length` bytes at `data` in `buf`. -/
def tlvPairs (ctx : DecCtx) (attr : Nat) (buf : List UInt8) (data : Int)
    (length : Int) (da : Option DictAttr) : Mem (List ValuePair) := do
  let bytes ← fetchN buf data length
  if (da.map (·.type)) ≠ some .tlv then
    pure (wholeTlv ctx.cfg attr bytes)
  else if !(← tlvWellFormed buf (bytes.length + 1) data bytes.length) then
    pure (wholeTlv ctx.cfg attr bytes)
  else
    match ← subTlvs ctx attr buf (bytes.length + 1) data bytes.length with
    | none => pure (wholeTlv ctx.cfg attr bytes)
    | some vps => pure (radSortvp vps)

/-- `rad_continuation2vp`: the pairs made and the packet as it is left. -/
def radContinuation2vp (ctx : DecCtx) (attr : Nat) (length : Int)
    (buf : List UInt8) (data packetLength : Int) (flag : Bool)
    (da : Option DictAttr) : Mem (List ValuePair × List UInt8) := do
  if flag then
    let (block, buf') ←
      radCoalesce ctx.cfg attr length buf data packetLength
    let vps ← tlvPairs ctx attr block 0 block.length da
    pure (vps, buf')
  else
    let vps ← tlvPairs ctx attr buf data length da
    pure (vps, buf)

-- ======== rad_decode

/-- The locals of `rad_decode` that live across iterations. -/
structure DecState where
  buf : List UInt8
  ptr : Int := authHdrLen
  packetLength : Int
  vendorcode : Nat := 0
  vendorlen : Int := 0
  vsaTlen : Nat := 1
  vsaLlen : Nat := 1
  vsaOffset : Nat := 0
  vps : List ValuePair
  numAttributes : Nat := 0
deriving DecidableEq

/-- The end of an iteration: `break` and the final `return 0`, a return
of -1, or the next iteration. -/
inductive DecNext where
  | done (s : DecState)
  | fail (s : DecState)
  | loop (s : DecState)
deriving DecidableEq

/-- `next:`. -/
def decSkip (s : DecState) (attrlen : Int) : DecNext :=
  .loop { s with
    ptr := s.ptr + attrlen, packetLength := s.packetLength - attrlen }

/-- `created_pair:` links the new pairs in and counts them. -/
def createdPair (ctx : DecCtx) (s : DecState) (pairs : List ValuePair)
    (attrlen : Int) : DecNext :=
  let s := { s with
    vps := s.vps ++ pairs
    numAttributes := s.numAttributes + pairs.length }
  if 0 < ctx.cfg.maxAttributes
      ∧ ctx.cfg.maxAttributes < s.numAttributes then
    .fail { s with vps := [] }
  else decSkip s attrlen

/-- `create_pair:`. -/
def createPair (ctx : DecCtx) (s : DecState) (attr : Nat)
    (attrlen : Int) : Mem DecNext := do
  if attrlen = 0 ∧ attr ≠ pwChargeableUserIdentity then
    pure (decSkip s attrlen)
  else
    match ← radAttr2vp ctx attr attrlen s.buf s.ptr with
    | none => pure (.fail { s with vps := [] })
    | some pair => pure (createdPair ctx s [pair] attrlen)

/-- How the sweep over a Vendor-Specific attribute ends: `goto
create_pair` with the attribute as it stands, `goto create_pair` with a
vendor attribute that has no length field, or an exact fit. -/
inductive Sweep where
  | raw
  | flat (myattr : Nat)
  | fits
deriving DecidableEq

/-- The sub-attribute number at `subptr`; `none` is `goto create_pair`. -/
def sweepNumber (buf : List UInt8) (tlen : Nat) (subptr : Int) :
    Mem (Option Nat) := do
  match tlen with
  | 1 => pure (some (← fetch buf subptr).toNat)
  | 2 =>
      let hi ← fetch buf subptr
      let lo ← fetch buf (subptr + 1)
      pure (some ((hi.toNat <<< 8) ||| lo.toNat))
  | 4 =>
      if (← fetch buf subptr) ≠ 0 then pure none
      else if (← fetch buf (subptr + 1)) ≠ 0 then pure none
      else
        let hi ← fetch buf (subptr + 2)
        let lo ← fetch buf (subptr + 3)
        pure (some ((hi.toNat <<< 8) ||| lo.toNat))
  | _ => pure none

/-- The length of the sub-attribute at `subptr` by its length field, if
that is acceptable; `none` is `goto create_pair`. -/
def sweepLength (buf : List UInt8) (tlen llen offset : Nat)
    (subptr sublen : Int) : Mem (Option Nat) := do
  match llen with
  | 1 =>
      let len ← fetch buf (subptr + tlen)
      if len.toNat < tlen + llen + offset then pure none
      else if sublen < len.toNat then pure none
      else if offset ≠ 0 then
        let cont ← fetch buf (subptr + tlen + llen)
        if cont &&& 0x7f ≠ 0 then pure none
        else pure (some len.toNat)
      else pure (some len.toNat)
  | 2 =>
      if (← fetch buf (subptr + tlen)) ≠ 0 then pure none
      else
        let len ← fetch buf (subptr + tlen + 1)
        if len.toNat < tlen + llen then pure none
        else if sublen < len.toNat then pure none
        else pure (some len.toNat)
  | _ => pure none

/-- The `do .. while (sublen > 0)` sweep. Every accepted sub-attribute has
at least one byte, so `sublen` rounds suffice. -/
def sweep (buf : List UInt8) (tlen llen offset : Nat) :
    Nat → Int → Int → Mem Sweep
  | 0, _, _ => throw .hang
  | fuel + 1, subptr, sublen =>
      if sublen < tlen + llen + offset then pure .raw
      else do
        match ← sweepNumber buf tlen subptr with
        | none => pure .raw
        | some myattr =>
            if llen = 0 then pure (.flat myattr)
            else
              match ← sweepLength buf tlen llen offset subptr sublen with
              | none => pure .raw
              | some len =>
                  if 0 < sublen - len then
                    sweep buf tlen llen offset fuel (subptr + len)
                      (sublen - len)
                  else pure .fits

/-- `attribute |= (vendorcode << 16)` on 32 bits. -/
def vendorAttr (vendorcode attr : Nat) : Nat :=
  (vendorcode <<< 16) % 4294967296 ||| attr

/-- The number of the sub-attribute at `ptr`, by the switch behind the
sweep; `none` is its `default: return -1`. -/
def subNumber (s : DecState) : Mem (Option Nat) := do
  match s.vsaTlen with
  | 1 => pure (some (← fetch s.buf s.ptr).toNat)
  | 2 =>
      let hi ← fetch s.buf s.ptr
      let lo ← fetch s.buf (s.ptr + 1)
      pure (some ((hi.toNat <<< 8) ||| lo.toNat))
  | _ => pure none

/-- The length of its value, by the switch after that. -/
def subLength (s : DecState) : Mem (Option Int) := do
  match s.vsaLlen with
  | 1 =>
      let len ← fetch s.buf (s.ptr + s.vsaTlen)
      pure (some (len.toNat - (s.vsaTlen + s.vsaLlen + s.vsaOffset)))
  | 2 =>
      let len ← fetch s.buf (s.ptr + s.vsaTlen + 1)
      pure (some (len.toNat - (s.vsaTlen + s.vsaLlen)))
  | _ => pure none

/-- Both. -/
def subHeader (s : DecState) : Mem (Option (Nat × Int)) := do
  match ← subNumber s with
  | none => pure none
  | some number =>
      match ← subLength s with
      | none => pure none
      | some attrlen => pure (some (number, attrlen))

/-- The state past the header of a sub-attribute with `attrlen` bytes of
value. -/
def pastSubHeader (s : DecState) (attrlen : Int) : DecState :=
  let hsize : Int := s.vsaTlen + s.vsaLlen + s.vsaOffset
  let vendorlen := s.vendorlen - (hsize + attrlen)
  { s with
    ptr := s.ptr + hsize
    vendorlen := vendorlen
    vendorcode := if vendorlen = 0 then 0 else s.vendorcode
    packetLength := s.packetLength - hsize }

/-- A call of `rad_continuation2vp` made by the loop: the state past the
header, the number, the value length, the continuation bit and the
dictionary entry. -/
structure ContCall where
  s : DecState
  attr : Nat
  attrlen : Int
  flag : Bool
  da : Option DictAttr

/-- Where an iteration gets to before any pair is made: it breaks off,
returns -1, passes over `attrlen` bytes, makes one pair of them, or calls
`rad_continuation2vp`. -/
inductive StepKind where
  | stop (s : DecState)
  | broken (s : DecState)
  | skip (s : DecState) (attrlen : Int)
  | pair (s : DecState) (attr : Nat) (attrlen : Int)
  | cont (call : ContCall)

/-- The sub-attribute at `ptr`, up to the creation of its pairs. -/
def subKind (ctx : DecCtx) (s : DecState) : Mem StepKind := do
  match ← subHeader s with
  | none => pure (.broken s)
  | some (number, attrlen) =>
      let attr := vendorAttr s.vendorcode number
      let vsaPtr := s.ptr
      let s := pastSubHeader s attrlen
      if attrlen = 0 then pure (.skip s attrlen)
      -- the WiMAX vendor with type 0: already coalesced
      else if attr = 0x60b50000 then pure (.skip s attrlen)
      else if s.vsaOffset ≠ 0 then
        let da := ctx.cfg.dict.attrbyvalue attr
        let cont ← fetch s.buf (vsaPtr + 2)
        let flag := decide (cont &&& 0x80 ≠ 0)
        if !flag && da.any (fun da => decide (da.type ≠ .tlv)) then
          pure (.pair s attr attrlen)
        else pure (.cont ⟨s, attr, attrlen, flag, da⟩)
      else pure (.pair s attr attrlen)

/-- `rad_continuation2vp` as `rad_decode` calls it. -/
def ContCall.run (ctx : DecCtx) (c : ContCall) :
    Mem (List ValuePair × List UInt8) :=
  radContinuation2vp ctx c.attr c.attrlen c.s.buf c.s.ptr
    c.s.packetLength c.flag c.da

/-- `ntohl(lvalue)` in the `int` it is assigned to. -/
def signedVendor (bs : List UInt8) : Int :=
  if (ofBe32 bs).toNat < 2147483648 then (ofBe32 bs).toNat
  else (ofBe32 bs).toNat - 4294967296

/-- The bits of the `int` as the `uint32_t vendorcode`. -/
def vendorBits (myvendor : Int) : Nat := (myvendor % 4294967296).toNat

/-- Where the Vendor-Specific part of an iteration leads: a pair made of
the attribute as it stands, or on to the first sub-attribute. -/
inductive VsaKind where
  | pair (s : DecState) (attr : Nat) (attrlen : Int)
  | subs (s : DecState)

/-- The Vendor-Specific part: `ptr` is at the vendor id, `attrlen` bytes
are left of the attribute. -/
def vsaKind (ctx : DecCtx) (s : DecState) (attr : Nat) (attrlen : Int) :
    Mem VsaKind := do
  let myvendor := signedVendor (← fetchN s.buf s.ptr 4)
  if myvendor = 0 then pure (.pair s attr attrlen)
  else if 65535 < myvendor then pure (.pair s attr attrlen)
  else
    let (tlen, llen, continuation) := vendorFormat ctx.cfg.dict myvendor
    let offset := if continuation then 1 else 0
    let s := { s with vsaTlen := tlen, vsaLlen := llen, vsaOffset := offset }
    match ← sweep s.buf tlen llen offset (attrlen.toNat + 1) (s.ptr + 4)
        (attrlen - 4) with
    | .raw => pure (.pair s attr attrlen)
    | .flat myattr =>
        pure (.pair { s with
            ptr := s.ptr + (4 + tlen)
            packetLength := s.packetLength - (4 + tlen) }
          (vendorAttr (vendorBits myvendor) myattr)
          (attrlen - (4 + tlen)))
    | .fits =>
        pure (.subs { s with
          vendorcode := vendorBits myvendor
          vendorlen := attrlen - 4
          packetLength := s.packetLength - 4
          ptr := s.ptr + 4 })

/-- The end of the Vendor-Specific part. -/
def vendorSpecific (ctx : DecCtx) (s : DecState) (attr : Nat)
    (attrlen : Int) : Mem StepKind := do
  match ← vsaKind ctx s attr attrlen with
  | .pair s attr attrlen => pure (.pair s attr attrlen)
  | .subs s => subKind ctx s

/-- The header of a top-level attribute: its number and value length, or
`none` when the loop breaks off. -/
def attrHeader (s : DecState) : Mem (Option (Nat × Int)) := do
  if s.packetLength < 2 then pure none
  else
    let type ← fetch s.buf s.ptr
    if type = 0 then pure none
    else
      let len ← fetch s.buf (s.ptr + 1)
      if len < 2 then pure none
      else if s.packetLength < len.toNat then pure none
      else pure (some (type.toNat, len.toNat - 2))

/-- The body of the loop up to the creation of pairs. -/
def stepKind (ctx : DecCtx) (s : DecState) : Mem StepKind := do
  if s.vendorcode = 0 then
    match ← attrHeader s with
    | none => pure (.stop s)
    | some (attr, attrlen) =>
        let s := { s with
          ptr := s.ptr + 2, packetLength := s.packetLength - 2 }
        if attr ≠ pwVendorSpecific then pure (.pair s attr attrlen)
        else if attrlen ≤ 4 then pure (.pair s attr attrlen)
        else vendorSpecific ctx { s with vendorlen := 0 } attr attrlen
  else if s.vendorlen = 0 then
    -- `attribute` and `attrlen` are -1 here
    vendorSpecific ctx s 4294967295 (-1)
  else subKind ctx s

/-- The rest of the body. -/
def StepKind.finish (ctx : DecCtx) : StepKind → Mem DecNext
  | .stop s => pure (.done s)
  | .broken s => pure (.fail s)
  | .skip s attrlen => pure (decSkip s attrlen)
  | .pair s attr attrlen => createPair ctx s attr attrlen
  | .cont call => do
      let (pairs, buf) ← call.run ctx
      pure (createdPair ctx { call.s with buf := buf } pairs call.attrlen)

/-- The body of the loop. -/
def decodeStep (ctx : DecCtx) (s : DecState) : Mem DecNext := do
  (← stepKind ctx s).finish ctx

/-- One more iteration of the loop is made and goes on. -/
def DecGoes (ctx : DecCtx) (s s' : DecState) : Prop :=
  0 < s.packetLength ∧ decodeStep ctx s = .ok (.loop s')

/-- The loop: the return code and the last state. Every iteration that
goes on shortens what is left, so its length is fuel enough. -/
def decodeLoop (ctx : DecCtx) : Nat → DecState → Mem (Int × DecState)
  | 0, _ => throw .hang
  | fuel + 1, s =>
      if s.packetLength ≤ 0 then pure (0, s)
      else do
        match ← decodeStep ctx s with
        | .done s' => pure (0, s')
        | .fail s' => pure (-1, s')
        | .loop s' => decodeLoop ctx fuel s'

/-- The locals on entry: the pairs already in the packet are kept. -/
def decodeInit (packet : RadiusPacket) : DecState :=
  { buf := packet.data
    packetLength := packet.data.length - authHdrLen
    vps := packet.vps }

/-- What `rad_decode` reads besides the packet's bytes. -/
def decodeCtx (cfg : Config) (packet : RadiusPacket)
    (original : Option RadiusPacket) (secret : Option (List UInt8)) :
    DecCtx :=
  { cfg := cfg, vector := packet.vector, original := original,
    secret := secret }

/-- `rad_decode`: the return code and the packet with its pairs. -/
def radDecode (cfg : Config) (packet : RadiusPacket)
    (original : Option RadiusPacket) (secret : Option (List UInt8)) :
    Mem (Int × RadiusPacket) := do
  let (rc, s) ← decodeLoop (decodeCtx cfg packet original secret)
    (packet.data.length + 1) (decodeInit packet)
  pure (rc, { packet with data := s.buf, vps := s.vps })

end WinRadius
