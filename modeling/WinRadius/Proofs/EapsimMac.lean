/-
The EAP-SIM packet that `map_eapsim_basictypes` builds.

A packet is a list of records of a type, a number of words and a body.
The builder lays them out with zeros for the MAC, hashes that with the
nonce behind it and puts the digest in (`map_wire`). A packet of more than
65535 bytes with its nonce does not fit the lengths it computes.
-/
import WinRadius.Proofs.EapsimWalk

namespace WinRadius

open Lib

variable {cfg : Config} {vps : List ValuePair} {vp mac : ValuePair}
  {hmacSha1 : List UInt8 → List UInt8 → Sha1Digest}

-- ======== records

/-- One attribute in the packet. -/
structure SimRecord where
  type : UInt8
  words : UInt8
  body : List UInt8

namespace SimRecord

def bytes (r : SimRecord) : List UInt8 := r.type :: r.words :: r.body

/-- The length byte counts type, length and body in words of four
bytes. -/
def Sized (r : SimRecord) : Prop := r.body.length + 2 = r.words.toNat * 4

theorem bytes_length (r : SimRecord) : r.bytes.length = r.body.length + 2 :=
  rfl

end SimRecord

def simWire (rs : List SimRecord) : List UInt8 :=
  rs.flatMap SimRecord.bytes

@[simp] theorem simWire_nil : simWire [] = [] := rfl

@[simp] theorem simWire_cons (r : SimRecord) (rs : List SimRecord) :
    simWire (r :: rs) = r.bytes ++ simWire rs := rfl

@[simp] theorem simWire_append (rs ss : List SimRecord) :
    simWire (rs ++ ss) = simWire rs ++ simWire ss := List.flatMap_append

/-- The record of an attribute, with the sixteen bytes of its MAC if it
is AT_MAC. -/
def simRecord (digest : List UInt8) (vp : ValuePair) : SimRecord :=
  if isMac vp then ⟨11, 5, 0 :: 0 :: digest⟩
  else
    ⟨UInt8.ofNat (vp.attr - attributeEapSimBase),
      UInt8.ofNat (eapSimRounded vp / 4),
      padTake (eapSimRounded vp - 2) (vp.octets vp.length)⟩

theorem simRecord_mac {digest : List UInt8} (h : isMac vp = true) :
    simRecord digest vp = ⟨11, 5, 0 :: 0 :: digest⟩ := if_pos h

theorem simRecord_plain {digest : List UInt8} (h : isMac vp = false) :
    simRecord digest vp = ⟨UInt8.ofNat (vp.attr - attributeEapSimBase),
      UInt8.ofNat (eapSimRounded vp / 4),
      padTake (eapSimRounded vp - 2) (vp.octets vp.length)⟩ := by
  rw [simRecord, h]
  rfl

/-- Only AT_MAC has the digest in its record. -/
theorem map_plain (h : ∀ vp ∈ vps, isMac vp = false)
    (digest digest' : List UInt8) :
    vps.map (simRecord digest) = vps.map (simRecord digest') := by
  apply List.map_congr_left
  intro vp hvp
  rw [simRecord_plain (h vp hvp), simRecord_plain (h vp hvp)]

theorem rounded_plain (h : isMac vp = false) :
    eapSimRounded vp = roundUp4 (vp.length + 2) := by
  rw [eapSimRounded, h]
  rfl

/-- An attribute of at most 253 bytes has an honest record. -/
theorem simRecord_sized {digest : List UInt8} (hd : digest.length = 16)
    (hle : vp.length ≤ 253) : (simRecord digest vp).Sized := by
  unfold SimRecord.Sized
  cases hm : isMac vp with
  | true =>
      rw [simRecord_mac hm]
      simp only [List.length_cons, hd]
      rfl
  | false =>
      have hle4 := le_roundUp4 (vp.length + 2)
      have hlt := roundUp4_lt (vp.length + 2)
      have hmod := roundUp4_mod (vp.length + 2)
      rw [simRecord_plain hm]
      simp only [padTake_length, UInt8.toNat_ofNat', rounded_plain hm]
      omega

/-- The room of an attribute is that of its record. -/
theorem rounded_eq_bytes {digest : List UInt8} (hd : digest.length = 16)
    (hle : vp.length ≤ 253) :
    eapSimRounded vp = (simRecord digest vp).bytes.length := by
  rw [SimRecord.bytes_length]
  cases hm : isMac vp with
  | true =>
      rw [simRecord_mac hm, eapSimRounded, if_pos hm]
      simp only [List.length_cons, hd]
      rfl
  | false =>
      have hle4 := le_roundUp4 (vp.length + 2)
      rw [simRecord_plain hm]
      simp only [padTake_length, rounded_plain hm]
      omega

-- ======== building

/-- The message with more bytes. -/
def EapSimMessage.add (m : EapSimMessage) (bytes : List UInt8) :
    EapSimMessage :=
  { m with bytes := m.bytes ++ bytes }

/-- The message of attributes without AT_MAC. -/
theorem fill_plain {m : EapSimMessage} (digest : List UInt8)
    (h : ∀ vp ∈ vps, isMac vp = false)
    (hle : ∀ vp ∈ vps, vp.length ≤ 253) :
    vps.foldlM eapSimFill m
      = .ok (m.add (simWire (vps.map (simRecord digest)))) := by
  induction vps generalizing m with
  | nil =>
      rw [List.map_nil, simWire_nil, EapSimMessage.add, List.append_nil]
      rfl
  | cons vp vps ih =>
      have hm := h vp List.mem_cons_self
      have hl := hle vp List.mem_cons_self
      have hmax : maxStringLen = 254 := rfl
      have hstep : eapSimFill m vp
          = .ok (m.add (simRecord digest vp).bytes) := by
        rw [eapSimFill, hm, simRecord_plain hm]
        simp only [Bool.false_eq_true, if_false]
        rw [if_neg (by omega)]
        rfl
      rw [List.foldlM_cons, hstep, ok_bind,
        ih (fun v hv => h v (List.mem_cons_of_mem vp hv))
          fun v hv => hle v (List.mem_cons_of_mem vp hv)]
      simp only [EapSimMessage.add, List.map_cons, simWire_cons,
        List.append_assoc]

/-- Sixteen zeros, where the digest goes. -/
def zeroMac : List UInt8 := List.replicate 16 0

/-- The message of attributes with one AT_MAC. -/
theorem fill_mac {before after : List ValuePair} {head : List UInt8}
    (hmac : isMac mac = true)
    (hb : ∀ vp ∈ before, isMac vp = false)
    (ha : ∀ vp ∈ after, isMac vp = false)
    (hle : ∀ vp ∈ before ++ mac :: after, vp.length ≤ 253) :
    (before ++ mac :: after).foldlM eapSimFill ⟨head, none, []⟩
      = .ok ⟨head ++ simWire
            ((before ++ mac :: after).map (simRecord zeroMac)),
          some ((head ++ simWire (before.map (simRecord zeroMac))).length
            + 4),
          mac.octets mac.length⟩ := by
  have hlb : ∀ vp ∈ before, vp.length ≤ 253 := by
    intro vp hvp
    exact hle vp (List.mem_append_left _ hvp)
  have hla : ∀ vp ∈ after, vp.length ≤ 253 := by
    intro vp hvp
    exact hle vp (List.mem_append_right _ (List.mem_cons_of_mem mac hvp))
  have hrounded : eapSimRounded mac = 20 := by
    rw [eapSimRounded, if_pos hmac]
    rfl
  have hattr : mac.attr = attributeEapSimBase + pwEapSimMac := by
    simpa [isMac] using hmac
  have hstep (m : EapSimMessage) : eapSimFill m mac
      = .ok ⟨m.bytes ++ (simRecord zeroMac mac).bytes,
          some (m.bytes.length + 4), mac.octets mac.length⟩ := by
    rw [eapSimFill, if_pos hmac, simRecord_mac hmac, hrounded, hattr]
    rfl
  rw [List.foldlM_append, fill_plain zeroMac hb hlb, ok_bind,
    List.foldlM_cons, hstep, ok_bind, fill_plain zeroMac ha hla]
  simp only [EapSimMessage.add, List.map_append, List.map_cons,
    simWire_append, simWire_cons, List.append_assoc]

/-- Putting the digest in makes the message with that MAC. -/
theorem overlay_mac {before after : List ValuePair} {head digest : List UInt8}
    (hmac : isMac mac = true)
    (hb : ∀ vp ∈ before, isMac vp = false)
    (ha : ∀ vp ∈ after, isMac vp = false) (hd : digest.length = 16) :
    overlay (head ++ simWire
          ((before ++ mac :: after).map (simRecord zeroMac)))
        ((head ++ simWire (before.map (simRecord zeroMac))).length + 4)
        digest
      = head ++ simWire
          ((before ++ mac :: after).map (simRecord digest)) := by
  have hpos : (head ++ simWire (before.map (simRecord zeroMac))).length + 4
      = (head ++ simWire (before.map (simRecord zeroMac))
        ++ [11, 5, 0, 0]).length := by
    simp only [List.length_append, List.length_cons, List.length_nil]
  simp only [List.map_append, List.map_cons, simWire_append, simWire_cons,
    simRecord_mac hmac, SimRecord.bytes, map_plain hb digest zeroMac,
    map_plain ha digest zeroMac]
  rw [hpos]
  have h := overlay_append_mid
    (x := head ++ simWire (before.map (simRecord zeroMac)) ++ [11, 5, 0, 0])
    (y := simWire (after.map (simRecord zeroMac))) zeroMac digest hd.symm
  simpa only [List.append_assoc, List.cons_append, List.nil_append] using h

-- ======== the packet

/-- Attributes for one packet: exactly one AT_MAC, a key of sixteen
bytes, values of at most 253 bytes, and the code of a request or a
response; `ep` is not wired yet. A standard attribute has a short name,
so its pair can always be made. -/
structure SimAttributes (cfg : Config) (vps : List ValuePair)
    (ep : EapPacket) (mac key : ValuePair) : Prop where
  one_mac : vps.filter isMac = [mac]
  key_pair : pairfind vps attributeEapSimKey = some key
  key_length : key.length = 16
  lengths : ∀ vp ∈ vps, eapSimAttribute vp = true → vp.length ≤ 253
  code : eapNumber vps attributeEapCode pwEapRequest % 256 = pwEapRequest
    ∨ eapNumber vps attributeEapCode pwEapRequest % 256 = pwEapResponse
  unsent : ep.code ≠ pwEapSuccess ∧ ep.packet = none
  names : ∀ attr, vendorOf attr = 0 → cfg.vpPrintName attr = true

/-- The records of a list of attributes. -/
def simRecords (vps : List ValuePair) (digest : List UInt8) :
    List SimRecord :=
  (vps.filter eapSimAttribute).map (simRecord digest)

/-- The message: subtype, two reserved bytes, and the records. -/
def simMessage (vps : List ValuePair) (digest : List UInt8) : List UInt8 :=
  [UInt8.ofNat (eapNumber vps attributeEapSimSubtype eapsimStart), 0, 0]
    ++ simWire (simRecords vps digest)

/-- The packet on the wire, around a message. -/
def simPacket (vps : List ValuePair) (pid : Nat) (message : List UInt8) :
    List UInt8 :=
  [UInt8.ofNat (eapNumber vps attributeEapCode pwEapRequest % 256),
    UInt8.ofNat (eapNumber vps attributeEapId (pid % 256) % 256)]
    ++ be16 (5 + message.length) ++ UInt8.ofNat pwEapSim :: message

/-- The first sixteen bytes of the MAC over the packet with zeros for
it. -/
def simDigest (hmacSha1 : List UInt8 → List UInt8 → Sha1Digest)
    (vps : List ValuePair) (pid : Nat) (mac key : ValuePair) :
    List UInt8 :=
  (hmacSha1 (simPacket vps pid (simMessage vps zeroMac)
    ++ mac.octets mac.length) (key.octets 16)).bytes.take 16

variable {ep : EapPacket} {key : ValuePair} {pid : Nat}
  {digest : List UInt8}

theorem eapSimAttribute_mac (h : isMac vp = true) :
    eapSimAttribute vp = true := by
  have hattr : vp.attr = attributeEapSimBase + pwEapSimMac := by
    simpa [isMac] using h
  rw [eapSimAttribute, hattr]
  decide

/-- Where the AT_MAC lies among the attributes. -/
theorem SimAttributes.split (h : SimAttributes cfg vps ep mac key) :
    ∃ before after, vps.filter eapSimAttribute = before ++ mac :: after
      ∧ isMac mac = true ∧ (∀ vp ∈ before, isMac vp = false)
      ∧ ∀ vp ∈ after, isMac vp = false := by
  have hfilter : (vps.filter eapSimAttribute).filter isMac = [mac] := by
    rw [List.filter_filter, ← h.one_mac]
    apply List.filter_congr
    intro vp _
    cases hm : isMac vp with
    | true => rw [eapSimAttribute_mac hm]; rfl
    | false => rfl
  obtain ⟨before, after, heq, hb, hm, ha⟩ :=
    List.filter_eq_cons_iff.mp hfilter
  refine ⟨before, after, heq, hm, ?_, ?_⟩
  · intro vp hvp
    simpa using hb vp hvp
  · intro vp hvp
    simpa using List.filter_eq_nil_iff.mp ha vp hvp

theorem SimAttributes.length_le (h : SimAttributes cfg vps ep mac key) :
    ∀ vp ∈ vps.filter eapSimAttribute, vp.length ≤ 253 := by
  intro vp hvp
  obtain ⟨hmem, hsim⟩ := List.mem_filter.mp hvp
  exact h.lengths vp hmem hsim

/-- The room the builder computes is that of the records. -/
theorem rounded_sum (h : SimAttributes cfg vps ep mac key)
    (hd : digest.length = 16) :
    ((vps.filter eapSimAttribute).map eapSimRounded).sum
      = (simWire (simRecords vps digest)).length := by
  have hle := h.length_le
  unfold simRecords
  generalize vps.filter eapSimAttribute = l at hle
  induction l with
  | nil => rfl
  | cons vp l ih =>
      rw [List.map_cons, List.sum_cons, List.map_cons, simWire_cons,
        List.length_append,
        rounded_eq_bytes hd (hle vp List.mem_cons_self),
        ih fun v hv => hle v (List.mem_cons_of_mem vp hv)]

theorem simMessage_length (h : SimAttributes cfg vps ep mac key)
    (hd : digest.length = 16) :
    (simMessage vps digest).length = (simMessage vps zeroMac).length := by
  have hz : zeroMac.length = 16 := rfl
  rw [simMessage, simMessage, List.length_append, List.length_append,
    ← rounded_sum h hd, ← rounded_sum h hz]

/-- The text of the MAC, when its length fits a `uint16_t`. -/
theorem eapSimMacText_eq {code id : Nat} {message append : List UInt8}
    (ha : append.length ≤ 253) :
    eapSimMacText code id message append
      = if 65535 < 5 + message.length + append.length then
          .error .overwrite
        else .ok ([UInt8.ofNat code, UInt8.ofNat id]
          ++ be16 (5 + message.length)
          ++ UInt8.ofNat pwEapSim :: message ++ append) := by
  have hmax : maxStringLen = 254 := rfl
  have hhdr : eapHeaderLen + 1 = 5 := rfl
  unfold eapSimMacText
  rw [if_neg (by omega), hhdr]
  simp only [List.length_append, List.length_cons, List.length_nil,
    be16_length]
  split
  next hlt =>
    rw [if_pos (by omega)]
    rfl
  next hge =>
    rw [if_neg (by omega), Nat.mod_eq_of_lt (by omega)]

/-- What the builder makes: nothing when the packet with its nonce is too
long for a `uint16_t`, else the message with the MAC. -/
theorem map_wire (h : SimAttributes cfg vps ep mac key) :
    mapEapsimBasictypes hmacSha1 pid vps ep
      = if 65535 < 5 + (simMessage vps zeroMac).length + mac.length then
          .error .overwrite
        else .ok (true,
          { code := eapNumber vps attributeEapCode pwEapRequest % 256
            id := eapNumber vps attributeEapId (pid % 256) % 256
            type := pwEapSim
            data := simMessage vps (simDigest hmacSha1 vps pid mac key)
            packet := none }) := by
  obtain ⟨before, after, hattrs, hmac, hb, ha⟩ := h.split
  have hz : zeroMac.length = 16 := rfl
  have hle := h.length_le
  have hsum := rounded_sum h hz
  have hmacle : mac.length ≤ 253 :=
    hle mac (by rw [hattrs]; exact List.mem_append_right _ List.mem_cons_self)
  have hpos : (simWire (simRecords vps zeroMac)).length ≠ 0 := by
    rw [simRecords, hattrs, List.map_append, List.map_cons, simWire_append,
      simWire_cons, List.length_append, List.length_append,
      SimRecord.bytes_length]
    omega
  rw [hattrs] at hle
  let head := [UInt8.ofNat (eapNumber vps attributeEapSimSubtype
    eapsimStart), 0, 0]
  have hfill : (vps.filter eapSimAttribute).foldlM eapSimFill
      ⟨head, none, []⟩
      = .ok ⟨simMessage vps zeroMac,
          some ((head ++ simWire (before.map (simRecord zeroMac))).length
            + 4),
          mac.octets mac.length⟩ := by
    rw [simMessage, simRecords, hattrs]
    exact fill_mac hmac hb ha hle
  have hover {digest : List UInt8} (hd : digest.length = 16) :
      overlay (simMessage vps zeroMac)
          ((head ++ simWire (before.map (simRecord zeroMac))).length + 4)
          digest
        = simMessage vps digest := by
    rw [simMessage, simMessage, simRecords, simRecords, hattrs]
    exact overlay_mac hmac hb ha hd
  unfold mapEapsimBasictypes
  simp only [hsum, if_neg hpos]
  rw [hfill, ok_bind]
  simp only [h.key_pair]
  have hnonce : (mac.octets mac.length).length = mac.length := by
    rw [ValuePair.octets, padTake_length]
  rw [eapSimMacText_eq (by rw [hnonce]; exact hmacle), hnonce]
  split
  next => rfl
  next =>
    rw [ok_bind, hover (by rw [List.length_take, Sha1Digest.len]; rfl),
      h.key_length, if_pos h.unsent.1, h.unsent.2]
    rfl

end WinRadius
