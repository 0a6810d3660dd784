/-
The tunnelled attributes of EAP-TTLS (ttls.cpp): `diameter_verify`, which
checks the bytes a client sent inside the TLS tunnel, `diameter2vp`,
which makes attributes of them, and `vp2diameter`, which writes
attributes the other way.

# The two loops

Both readers walk the same buffer with a pointer and a count of bytes
left. The pointer is an offset into the whole buffer, so `diameter2vp`,
which checks nothing itself, is seen to leave it when it does. Each loop
keeps a log of the offsets at which it found an AVP, and the pairs of
`diameter2vp` carry the offset of theirs: the code has neither, and no
branch looks at them.

# What is left out

`eapttls_gen_challenge` is a parameter, the 16 bytes it derives from the
TLS session. The debug output is not modelled, nor the TLS session
`vp2diameter` hands its buffer to.
-/
import WinRadius.Lib.Avp
import WinRadius.Model.Dict

namespace WinRadius

open Lib

-- ======== constants

def pwChapChallenge : Nat := 60
/-- `PW_MSCHAP_CHALLENGE`: attribute 11 of vendor 311. -/
def pwMschapChallenge : Nat := 311 * 65536 + 11

-- ======== diameter_verify

/-- The loop of `diameter_verify`: `none` where the code returns 0, else
the offsets of the AVPs it went through. -/
def diameterVerifyLoop (data : List UInt8) :
    Nat → Int → Nat → List Int → Mem (Option (List Int))
  | 0, _, _, _ => throw .hang
  | fuel + 1, pos, remaining, seen =>
      if remaining = 0 then .ok (some seen)
      else if remaining < 12 then .ok none
      else do
        let _ ← fetchN data pos 4
        let lengthField ← fetchN data (pos + 4) 4
        let flags ← fetch data (pos + 4)
        let hdrLen := if flags &&& 0x80 ≠ 0 then 16 else 12
        let length := (ofBe32 lengthField).toNat % 16777216
        if remaining < hdrLen then .ok none
        else if length ≤ hdrLen - 4 then .ok none
        else if remaining < length then .ok none
        -- broken implementations do not pad the last AVP
        else if remaining = length then .ok (some (seen ++ [pos]))
        else if remaining < roundUp4 length then .ok none
        else
          diameterVerifyLoop data fuel (pos + roundUp4 length)
            (remaining - roundUp4 length) (seen ++ [pos])

/-- `diameter_verify(request, data, data_len)`. -/
def diameterVerify (data : List UInt8) : Mem (Option (List Int)) :=
  diameterVerifyLoop data (data.length + 1) 0 data.length []

-- ======== diameter2vp

/-- How `diameter2vp` can go wrong instead of returning. -/
inductive DiameterFault where
  | memory (fault : Fault)
  /-- a `rad_assert` that does not hold -/
  | assertion
  /-- `free` of a pointer that `malloc` did not return -/
  | badFree
deriving Repr, DecidableEq

/-- A step over the buffer's memory. -/
def onMemory {α : Type} (x : Mem α) : Except DiameterFault α :=
  x.mapError .memory

/-- What the body of the loop does with one AVP. -/
inductive AvpOutcome where
  /-- `goto next_attr` with nothing linked -/
  | skipped
  /-- the pairs linked to the list -/
  | linked (vps : List ValuePair)
  /-- `return NULL`, after these pairs of the AVP were freed too -/
  | refused (vps : List ValuePair)
deriving DecidableEq

namespace AvpOutcome

/-- The pairs made of the AVP. -/
def vps : AvpOutcome → List ValuePair
  | .skipped => []
  | .linked vps => vps
  | .refused vps => vps

/-- The function returns over this AVP. -/
def refuses : AvpOutcome → Bool
  | .refused _ => true
  | _ => false

end AvpOutcome

/-- `pairfree` of one pair calls `free(vp->vp_tlv)`: safe unless the
pair's bytes were written over the pointer. -/
def ValuePair.badFree (vp : ValuePair) : Bool :=
  decide (vp.type = .tlv) && (vp.octets 4).any fun b => b != 0

/-- `vp->vp_strvalue[i] = b`. -/
def ValuePair.setByte (vp : ValuePair) (i : Nat) (b : UInt8) : ValuePair :=
  { vp with data := padTake i vp.data ++ b :: vp.data.drop (i + 1) }

/-- `raw:` a pair of the attribute with the bytes as they are.
`paircreate_raw` answers `NULL` when the attribute is in the dictionary,
and its answer is not checked. -/
def rawAvp (cfg : Config) (data : List UInt8) (pos : Int) (size : Nat)
    (vp : ValuePair) : Except DiameterFault ValuePair :=
  match paircreateRaw cfg vp.attr .octets vp with
  | none => .error (.memory .nullDeref)
  | some vp => do
      let bytes ← onMemory (fetchN data pos size)
      .ok ({ vp with length := size }.setOctets bytes)

/-- A type of one size: `raw:` for another size, else the bytes as
`store` reads them. -/
def fixedAvp (cfg : Config) (data : List UInt8) (pos : Int) (size : Nat)
    (vp : ValuePair) (store : List UInt8 → ValuePair) :
    Except DiameterFault ValuePair :=
  if size ≠ vp.length then rawAvp cfg data pos size vp
  else do
    let bytes ← onMemory (fetchN data pos size)
    .ok (store bytes)

/-- The `EAP-Message` loop: pieces of at most 253 bytes. -/
def eapMessageLoop (cfg : Config) (data : List UInt8) (attr : Nat) :
    Nat → Int → Nat → ValuePair → List ValuePair →
      Except DiameterFault AvpOutcome
  | 0, _, _, _, _ => .error (.memory .hang)
  | fuel + 1, pos, size, vp, linked => do
      let length := min size 253
      let bytes ← onMemory (fetchN data pos length)
      let vp := { vp with length := length }.setOctets bytes
      if size - length = 0 then .ok (.linked (linked ++ [vp]))
      else
        match paircreate cfg attr .octets with
        | none => .ok (.refused (linked ++ [vp]))
        | some next =>
            eapMessageLoop cfg data attr fuel (pos + length)
              (size - length) next (linked ++ [vp])

/-- `switch (vp->type)`, apart from the `EAP-Message` loop: the pair with
the value of the `size` bytes at `pos`. -/
def avpValue (cfg : Config) (data : List UInt8) (pos : Int) (size : Nat)
    (vp : ValuePair) : Except DiameterFault ValuePair :=
  match vp.type with
  | .integer | .date =>
      fixedAvp cfg data pos size vp fun bs => { vp with lvalue := ofBe32 bs }
  | .ipaddr =>
      fixedAvp cfg data pos size vp fun bs => { vp with lvalue := ofLe32 bs }
  | .byte =>
      fixedAvp cfg data pos size vp fun bs =>
        { vp with lvalue := (bs.getD 0 0).toUInt32 }
  | .short =>
      fixedAvp cfg data pos size vp fun bs =>
        { vp with lvalue := (bs.getD 0 0).toUInt32 * 256
                              + (bs.getD 1 0).toUInt32 }
  | .signed =>
      fixedAvp cfg data pos size vp fun bs =>
        vp.setOctets (le32 (ofBe32 bs))
  | .ipv6addr | .ipv6Prefix =>
      fixedAvp cfg data pos size vp fun bs => vp.setOctets bs
  | _ => do
      let bytes ← onMemory (fetchN data pos size)
      .ok ({ vp with length := size }.setOctets bytes)

/-- `switch (vp->attribute)`: a password ends at its first zero, a
challenge must be the session's. -/
def checkAvp (challenge : AuthVector) (vp : ValuePair) : AvpOutcome :=
  if vp.attr = pwUserPassword then
    let vp := vp.setByte vp.length 0
    .linked [{ vp with length := vp.strlen }]
  else if vp.attr = pwChapChallenge ∨ vp.attr = pwMschapChallenge then
    if vp.length < 8 ∨ 16 < vp.length then .refused [vp]
    else if challenge.bytes.take vp.length ≠ vp.octets vp.length then
      .refused [vp]
    else .linked [vp]
  else .linked [vp]

/-- The body of the loop from `size = length - offset` on. -/
def avpPair (cfg : Config) (challenge : AuthVector) (data : List UInt8)
    (pos : Int) (attr size : Nat) : Except DiameterFault AvpOutcome :=
  if 255 < attr ∧ vendorOf attr = 0 then .ok .skipped
  else if 253 < size then .ok .skipped
  else
    match paircreate cfg attr .octets with
    | none => .ok (.refused [])
    | some vp =>
        if vp.type = .octets ∧ attr = pwEapMessage then
          eapMessageLoop cfg data attr (size + 1) pos size vp []
        else do
          let vp ← avpValue cfg data pos size vp
          .ok (checkAvp challenge vp)

/-- The vendor field, when the flag says there is one: the offset of the
value and the attribute number, `none` for `goto next_attr`. -/
def avpNumber (data : List UInt8) (pos : Int) (code lengthField : Nat) :
    Except DiameterFault (Nat × Option Nat) :=
  if 2147483648 ≤ lengthField then do
    let vendorField ← onMemory (fetchN data (pos + 8) 4)
    let vendor := (ofBe32 vendorField).toNat
    .ok (12, if 65535 < code ∨ 65535 < vendor then none
             else some (code ||| vendor <<< 16))
  else .ok (8, some code)

/-- `size = length - offset`, as a 32-bit `size_t`. -/
def avpSize (length offset : Nat) : Nat :=
  (length + 4294967296 - offset) % 4294967296

/-- One AVP: the bytes of its header, its length and what came of it. -/
def avpAt (cfg : Config) (challenge : AuthVector) (data : List UInt8)
    (pos : Int) : Except DiameterFault (Nat × Nat × AvpOutcome) := do
  let codeField ← onMemory (fetchN data pos 4)
  let lengthField ← onMemory (fetchN data (pos + 4) 4)
  let code := (ofBe32 codeField).toNat
  let length := (ofBe32 lengthField).toNat % 16777216
  let (offset, number) ←
    avpNumber data pos code (ofBe32 lengthField).toNat
  match number with
  | none => .ok (offset, length, .skipped)
  | some attr => do
      let outcome ← avpPair cfg challenge data (pos + offset) attr
        (avpSize length offset)
      .ok (offset, length, outcome)

/-- What a run of `diameter2vp` leaves: the offsets of the AVPs it looked
at, and the list, `none` when it returned `NULL` over a refused AVP. -/
structure Decoded where
  visited : List Int
  vps : Option (List (Int × ValuePair))
deriving DecidableEq

/-- `pairfree` of what was made so far, and `return NULL`. -/
def refuseAvp (visited : List Int) (vps : List ValuePair) :
    Except DiameterFault Decoded :=
  if vps.any ValuePair.badFree then .error .badFree
  else .ok ⟨visited, none⟩

/-- The loop of `diameter2vp`. -/
def diameter2vpLoop (cfg : Config) (challenge : AuthVector)
    (data : List UInt8) :
    Nat → Int → Nat → List Int → List (Int × ValuePair) →
      Except DiameterFault Decoded
  | 0, _, _, _, _ => .error (.memory .hang)
  | fuel + 1, pos, dataLeft, visited, first =>
      if dataLeft = 0 then .ok ⟨visited, some first⟩
      else if data.length < dataLeft then .error .assertion
      else do
        let (offset, length, outcome) ← avpAt cfg challenge data pos
        let first := first ++ outcome.vps.map fun vp => (pos, vp)
        if outcome.refuses then
          refuseAvp (visited ++ [pos]) (first.map Prod.snd)
        -- catch non-aligned attributes
        else if dataLeft = length then
          .ok ⟨visited ++ [pos], some first⟩
        else if dataLeft < roundUp4 length then .error .assertion
        else
          diameter2vpLoop cfg challenge data fuel
            (pos + offset + (roundUp4 length - offset))
            (dataLeft - roundUp4 length) (visited ++ [pos]) first

/-- `diameter2vp(request, ssl, data, data_len)`. -/
def diameter2vp (cfg : Config) (challenge : AuthVector)
    (data : List UInt8) : Except DiameterFault Decoded :=
  diameter2vpLoop cfg challenge data (data.length + 1) 0 data.length [] []

-- ======== vp2diameter

/-- The bytes of a value: only integers, dates and addresses are
converted, any other type is copied out of the string. -/
def diameterValue (vp : ValuePair) : Mem (List UInt8) :=
  match vp.type with
  | .integer | .date => .ok (be32 vp.lvalue)
  | .ipaddr => .ok (le32 vp.lvalue)
  | _ => if 254 < vp.length then throw .overread
         else .ok (vp.octets vp.length)

/-- The header: the code, the flags over the length, and the vendor. The
bits of the flags are above those of the length. -/
def diameterHeader (vp : ValuePair) : List UInt8 :=
  let vendor := vendorOf vp.attr
  if vendor ≠ 0 then
    be32 (UInt32.ofNat (vp.attr % 65536))
      ++ (be32 (UInt32.ofNat
            (vp.length + 2147483648 + 1073741824 + 8 + 4))
        ++ be32 (UInt32.ofNat vendor))
  else
    be32 (UInt32.ofNat vp.attr)
      ++ be32 (UInt32.ofNat (vp.length + 1073741824 + 8))

/-- The loop of `vp2diameter` over `uint8_t buffer[4096]`: what it has
written, `none` where the code returns 0. -/
def vp2diameterLoop : List ValuePair → List UInt8 →
    Mem (Option (List UInt8))
  | [], buffer => .ok (some buffer)
  | vp :: vps, buffer =>
      if 4096 ≤ buffer.length + vp.length + 12 then .ok none
      else do
        let value ← diameterValue vp
        let buffer := buffer ++ (diameterHeader vp ++ value)
        let buffer := buffer
          ++ List.replicate (roundUp4 buffer.length - buffer.length) 0
        if 4096 < buffer.length then throw .overwrite
        else vp2diameterLoop vps buffer

/-- `vp2diameter(request, tls_session, first)`: the bytes handed to
`record_plus`. -/
def vp2diameter (first : List ValuePair) : Mem (Option (List UInt8)) :=
  vp2diameterLoop first []

end WinRadius
