/-
The MAC of an EAP-SIM packet, from the builder to the checker.

The packet that `map_wire` gives is wired, cut into EAP-Messages, decoded
record by record (`unmap_records`) and checked: the checker puts zeros for
the MAC where the builder had them (`checkmac_records`) and hashes again,
so the two texts are one. The decoder is what can stop it on the way: a
record of 64 words is more than it reads at a time.
-/
import WinRadius.Proofs.EapsimMac

namespace WinRadius

open Lib

variable {cfg : Config} {vps : List ValuePair} {vp mac key : ValuePair}
  {hmacSha1 : List UInt8 → List UInt8 → Sha1Digest} {ep : EapPacket}
  {pid : Nat} {digest : List UInt8}

-- ======== the wire

variable {e : List UInt8} {msgs : List ValuePair} {m : ValuePair}

theorem simPacket_length (message : List UInt8) :
    (simPacket vps pid message).length = 5 + message.length := by
  simp only [simPacket, List.length_append, List.length_cons,
    List.length_nil, be16_length]
  omega

/-- The header tells the length of the packet. -/
theorem eapLength_simPacket {message : List UInt8}
    (h : 5 + message.length ≤ 65535) :
    eapLength (simPacket vps pid message) = .ok (5 + message.length) := by
  have hhigh : fetch (simPacket vps pid message) 2
      = .ok (UInt8.ofNat ((5 + message.length) / 256)) := rfl
  have hlow : fetch (simPacket vps pid message) 3
      = .ok (UInt8.ofNat (5 + message.length)) := rfl
  rw [eapLength, hhigh, ok_bind, hlow, ok_bind, UInt8.toNat_ofNat',
    UInt8.toNat_ofNat', Except.ok.injEq]
  omega

theorem wireformat_sim {data : List UInt8} {code id : Nat}
    (hcode : code = pwEapRequest ∨ code = pwEapResponse)
    (hlen : 5 + data.length ≤ 65535) :
    eapWireformat cfg { code := code, id := id, type := pwEapSim
                        data := data, packet := none }
      = .ok { code := code, id := id, type := pwEapSim, data := data
              packet := some ([UInt8.ofNat code, UInt8.ofNat id]
                ++ be16 (5 + data.length)
                ++ UInt8.ofNat pwEapSim :: data) } := by
  have hthree : code < 3 := by
    rcases hcode with h | h
    · rw [h]; decide
    · rw [h]; decide
  have htyped : eapHeaderLen + (if code < 3 then 1 + data.length else 0)
      = 5 + data.length := by
    rw [if_pos hthree, eapHeaderLen]
    omega
  rw [eapWireformat]
  simp only [htyped, if_pos hcode]
  rw [if_neg (by omega), Nat.mod_eq_of_lt (by omega)]

/-- The pieces of a packet: EAP-Messages of at most 253 bytes that hold its
bytes in order, the first of them full or the only one. -/
theorem packet2vpLoop_spec {packet : List UInt8} {fuel ptr total : Nat}
    {head : List ValuePair}
    (hnew : ∃ vp, paircreate cfg pwEapMessage .octets = some vp)
    (hlen : ptr + total = packet.length) (hfuel : total < fuel) :
    ∃ m msgs, eapPacket2vpLoop cfg packet fuel ptr total head
        = .ok (some (head ++ m :: msgs))
      ∧ (∀ vp ∈ m :: msgs, vp.attr = pwEapMessage ∧ vp.length ≤ 253)
      ∧ (m :: msgs).flatMap (fun vp => vp.octets vp.length)
        = packet.drop ptr
      ∧ m.length = min total 253 := by
  induction fuel generalizing ptr total head with
  | zero => omega
  | succ fuel ih =>
      obtain ⟨vp, hvp⟩ := id hnew
      have hf := paircreate_fresh hvp
      rw [eapPacket2vpLoop, hvp]
      dsimp only
      generalize hsize : min total 253 = size
      have hle : size ≤ total := by omega
      have hbytes : fetchN packet ptr size
          = .ok ((packet.drop ptr).take size) := by
        rw [fetchN_eq_ok]
        exact ⟨by omega, by omega, by omega, by simp⟩
      have hpiece : ((packet.drop ptr).take size).length = size := by
        rw [List.length_take, List.length_drop]
        omega
      have hocts : (vp.setOctets ((packet.drop ptr).take size)).octets size
          = (packet.drop ptr).take size := by
        have h : (vp.setOctets ((packet.drop ptr).take size)).octets
            ((packet.drop ptr).take size).length
            = (packet.drop ptr).take size := octets_setOctets hf.data
        rwa [hpiece] at h
      rw [hbytes, ok_bind]
      generalize hnewvp : ({ vp.setOctets ((packet.drop ptr).take size) with
        length := size } : ValuePair) = newvp
      have hattr : newvp.attr = pwEapMessage := by
        rw [← hnewvp]
        exact hf.number
      have hl : newvp.length = size := by
        rw [← hnewvp]
      have hval : newvp.octets newvp.length
          = (packet.drop ptr).take size := by
        rw [hl, ← hnewvp]
        exact hocts
      split
      next h0 =>
        refine ⟨newvp, [], rfl, ?_, ?_, hl⟩
        · rw [List.forall_mem_singleton]
          exact ⟨hattr, by omega⟩
        · rw [List.flatMap_singleton, hval]
          apply List.take_of_length_le
          rw [List.length_drop]
          omega
      next hmore =>
        obtain ⟨m, msgs, hrun, hattrs, hcat, -⟩ :=
          @ih (ptr + size) (total - size) (head ++ [newvp]) (by omega)
            (by omega)
        refine ⟨newvp, m :: msgs, ?_, ?_, ?_, hl⟩
        · rw [hrun, List.append_assoc]
          rfl
        · rw [List.forall_mem_cons]
          exact ⟨⟨hattr, by omega⟩, hattrs⟩
        · rw [List.flatMap_cons, hcat, hval, ← List.drop_drop]
          exact List.take_append_drop size _

/-- Pieces of a packet make the packet again. -/
theorem eapVp2packet_pieces (hattr : ∀ vp ∈ m :: msgs, vp.attr = pwEapMessage)
    (hcat : (m :: msgs).flatMap (fun vp => vp.octets vp.length) = e)
    (h4 : 4 ≤ m.length) (hlen : eapLength e = .ok e.length) :
    eapVp2packet (m :: msgs) = some e := by
  have hfind : pairfind (m :: msgs) pwEapMessage = some m := by
    rw [pairfind, List.find?_cons_of_pos]
    exact beq_iff_eq.mpr (hattr m List.mem_cons_self)
  have hall : (m :: msgs).filter (fun vp => vp.attr == pwEapMessage)
      = m :: msgs := by
    rw [List.filter_eq_self]
    intro vp hvp
    exact beq_iff_eq.mpr (hattr vp hvp)
  have hsum := flatMap_octets_length (m :: msgs)
  rw [hcat] at hsum
  have hle : 4 ≤ e.length := by
    rw [hsum, List.map_cons, List.sum_cons]
    omega
  have hhdr : ((m.octets 4).getD 2 0).toNat * 256
      + ((m.octets 4).getD 3 0).toNat = e.length := by
    rw [eapLength_eq hle, Except.ok.injEq, ← hcat,
      first_bytes h4 (by omega), first_bytes h4 (by omega)] at hlen
    rw [hlen, hcat]
  rw [eapVp2packet, hfind]
  simp only [hall, hhdr]
  rw [if_neg (by omega), if_neg (by omega), if_neg (by omega), hcat]

-- ======== decoding

variable {r : SimRecord} {rs : List SimRecord} {front : List UInt8}
  {fuel : Nat} {seen : List Nat}

/-- The pair of a record. -/
structure DecodedAs (r : SimRecord) (vp : ValuePair) : Prop where
  number : vp.attr = r.type.toNat + attributeEapSimBase
  length : vp.length = r.body.length
  octets : vp.octets vp.length = r.body

/-- The two bytes in front of a record, and its body. -/
theorem fetch_record (front : List UInt8) (r : SimRecord)
    (rest : List UInt8) :
    fetch (front ++ (r.bytes ++ rest)) front.length = .ok r.type
      ∧ fetch (front ++ (r.bytes ++ rest)) (front.length + 1)
        = .ok r.words
      ∧ fetchN (front ++ (r.bytes ++ rest)) (front.length + 2)
          r.body.length = .ok r.body := by
  have hsplit : front ++ (r.bytes ++ rest)
      = (front ++ [r.type, r.words]) ++ (r.body ++ rest) := by
    simp only [SimRecord.bytes, List.cons_append, List.append_assoc,
      List.nil_append]
  refine ⟨fetch_append (k := 0) (by omega) rfl,
    fetch_append (k := 1) rfl rfl, ?_⟩
  rw [hsplit]
  exact fetchN_append (by simp) rfl

/-- The decoder steps over a record of fewer than 64 words. -/
theorem unmap_record (hnames : ∀ attr, vendorOf attr = 0 →
      cfg.vpPrintName attr = true) (hr : r.Sized)
    (hshort : r.words.toNat < 64) :
    ∃ vp, DecodedAs r vp
      ∧ unmapLoop cfg (front ++ simWire (r :: rs)) (fuel + 1) front.length
          (simWire (r :: rs)).length vps seen
        = unmapLoop cfg (front ++ simWire (r :: rs)) fuel
            (front ++ r.bytes).length (simWire rs).length (vps ++ [vp])
            (seen ++ [front.length]) := by
  obtain ⟨htype, hwords, hbody⟩ := fetch_record front r (simWire rs)
  have hbl := r.bytes_length
  have h256 := r.type.toNat_lt
  have hmax : maxStringLen = 254 := rfl
  unfold SimRecord.Sized at hr
  obtain ⟨newvp, hnew⟩ : ∃ vp, paircreate cfg
      (r.type.toNat + attributeEapSimBase) .octets = some vp := by
    apply paircreate_isSome
    apply hnames
    apply vendorOf_small
    rw [attributeEapSimBase]
    omega
  have hf := paircreate_fresh hnew
  have hlen : (simWire (r :: rs)).length
      = r.words.toNat * 4 + (simWire rs).length := by
    rw [simWire_cons, List.length_append]
    omega
  have hmin : min (r.words.toNat * 4) maxStringLen = r.words.toNat * 4 := by
    omega
  refine ⟨{ newvp.setOctets r.body with length := r.body.length },
    ⟨hf.number, rfl, octets_setOctets hf.data⟩, ?_⟩
  rw [unmapLoop, hlen, if_neg (by omega), if_neg (by omega), simWire_cons,
    htype, ok_bind, hwords, ok_bind, if_neg (by omega), hmin]
  dsimp only
  rw [if_neg (by omega), hnew]
  dsimp only
  rw [show r.words.toNat * 4 - 2 = r.body.length by omega, hbody, ok_bind,
    Nat.add_sub_cancel_left, List.length_append,
    show r.words.toNat * 4 = r.bytes.length by omega]

/-- The decoder takes a list of such records. -/
theorem unmap_records (hnames : ∀ attr, vendorOf attr = 0 →
      cfg.vpPrintName attr = true)
    (hr : ∀ r ∈ rs, r.Sized ∧ r.words.toNat < 64)
    (hfuel : (simWire rs).length < fuel) :
    ∃ new bounds, List.Forall₂ DecodedAs rs new
      ∧ unmapLoop cfg (front ++ simWire rs) fuel front.length
          (simWire rs).length vps seen
        = .ok ⟨true, vps ++ new, bounds⟩ := by
  induction rs generalizing front fuel vps seen with
  | nil =>
      obtain ⟨fuel, rfl⟩ : ∃ k, fuel = k + 1 := ⟨fuel - 1, by omega⟩
      refine ⟨[], seen, .nil, ?_⟩
      rw [List.append_nil]
      rfl
  | cons r rs ih =>
      obtain ⟨fuel, rfl⟩ : ∃ k, fuel = k + 1 := ⟨fuel - 1, by omega⟩
      obtain ⟨hsized, hshort⟩ := hr r List.mem_cons_self
      have hbl := r.bytes_length
      rw [simWire_cons, List.length_append] at hfuel
      obtain ⟨vp, hvp, hstep⟩ : ∃ vp, DecodedAs r vp
          ∧ unmapLoop cfg (front ++ simWire (r :: rs)) (fuel + 1)
              front.length (simWire (r :: rs)).length vps seen
            = unmapLoop cfg (front ++ simWire (r :: rs)) fuel
                (front ++ r.bytes).length (simWire rs).length
                (vps ++ [vp]) (seen ++ [front.length]) :=
        unmap_record hnames hsized hshort
      obtain ⟨new, bounds, hnew, hrun⟩ := @ih (vps ++ [vp])
        (front ++ r.bytes) fuel (seen ++ [front.length])
        (fun s hs => hr s (List.mem_cons_of_mem r hs)) (by omega)
      refine ⟨vp :: new, bounds, .cons hvp hnew, ?_⟩
      rw [hstep, simWire_cons, ← List.append_assoc, hrun, List.append_assoc]
      rfl

/-- A record of 64 words whose last byte is zero stops the decoder. -/
theorem unmap_long (hnames : ∀ attr, vendorOf attr = 0 →
      cfg.vpPrintName attr = true) (hr : r.Sized)
    (hlong : r.words.toNat = 64) (hlast : r.body.getD 253 0 = 0) :
    ∃ vps' bounds,
      unmapLoop cfg (front ++ simWire (r :: rs)) (fuel + 2) front.length
          (simWire (r :: rs)).length vps seen
        = .ok ⟨false, vps', bounds⟩ := by
  obtain ⟨htype, hwords, hbody⟩ := fetch_record front r (simWire rs)
  have hbl := r.bytes_length
  have h256 := r.type.toNat_lt
  have hmax : maxStringLen = 254 := rfl
  unfold SimRecord.Sized at hr
  obtain ⟨newvp, hnew⟩ : ∃ vp, paircreate cfg
      (r.type.toNat + attributeEapSimBase) .octets = some vp := by
    apply paircreate_isSome
    apply hnames
    apply vendorOf_small
    rw [attributeEapSimBase]
    omega
  have hlen : (simWire (r :: rs)).length = 256 + (simWire rs).length := by
    rw [simWire_cons, List.length_append]
    omega
  have hmin : min (r.words.toNat * 4) maxStringLen = 254 := by omega
  have hread : fetchN (front ++ (r.bytes ++ simWire rs))
      (front.length + 2) (254 - 2 : Nat) = .ok (r.body.take 252) := by
    have hsplit : front ++ (r.bytes ++ simWire rs)
        = (front ++ [r.type, r.words])
          ++ (r.body.take 252 ++ (r.body.drop 252 ++ simWire rs)) := by
      rw [← List.append_assoc (r.body.take 252), List.take_append_drop]
      simp only [SimRecord.bytes, List.cons_append, List.append_assoc,
        List.nil_append]
    have hpiece : (r.body.take 252).length = 252 := by
      rw [List.length_take]
      omega
    rw [hsplit]
    exact fetchN_append (by simp) (by rw [hpiece])
  have hbuf : front.length + 256
      ≤ (front ++ (r.bytes ++ simWire rs)).length := by
    rw [List.length_append, List.length_append]
    omega
  have hzero : (front ++ (r.bytes ++ simWire rs)).getD
      (front.length + 254 + 1) 0 = 0 := by
    rw [List.getD_eq_getElem?_getD, List.getElem?_append_right (by omega),
      List.getElem?_append_left (by omega),
      show front.length + 254 + 1 - front.length = 253 + 1 + 1 by omega,
      SimRecord.bytes, List.getElem?_cons_succ, List.getElem?_cons_succ,
      ← List.getD_eq_getElem?_getD]
    exact hlast
  rw [unmapLoop, hlen, if_neg (by omega), if_neg (by omega), simWire_cons,
    htype, ok_bind, hwords, ok_bind, if_neg (by omega), hmin]
  dsimp only
  rw [if_neg (by omega), hnew]
  dsimp only
  rw [hread, ok_bind, unmapLoop, if_neg (by omega), if_neg (by omega),
    fetch_getD (by omega), ok_bind,
    show ((front.length + 254 : Nat) : Int) + 1
      = ((front.length + 254 + 1 : Nat) : Int) by omega,
    fetch_getD (by omega), ok_bind, hzero]
  exact ⟨_, _, rfl⟩

/-- The decoder turns down a list with a record of 64 words. -/
theorem unmap_rejects (hnames : ∀ attr, vendorOf attr = 0 →
      cfg.vpPrintName attr = true)
    (hr : ∀ r ∈ rs, r.Sized ∧ (r.words.toNat < 64
      ∨ r.words.toNat = 64 ∧ r.body.getD 253 0 = 0))
    (hlong : ∃ r ∈ rs, ¬ r.words.toNat < 64)
    (hfuel : (simWire rs).length < fuel) :
    ∃ vps' bounds,
      unmapLoop cfg (front ++ simWire rs) fuel front.length
          (simWire rs).length vps seen
        = .ok ⟨false, vps', bounds⟩ := by
  induction rs generalizing front fuel vps seen with
  | nil =>
      obtain ⟨r, hmem, -⟩ := hlong
      cases hmem
  | cons r rs ih =>
      obtain ⟨hsized, hcase⟩ := hr r List.mem_cons_self
      have hbl := r.bytes_length
      have hsz := hsized
      unfold SimRecord.Sized at hsz
      rw [simWire_cons, List.length_append] at hfuel
      rcases hcase with hshort | ⟨h64, hlast⟩
      · obtain ⟨fuel, rfl⟩ : ∃ k, fuel = k + 1 := ⟨fuel - 1, by omega⟩
        have hrest : ∃ r ∈ rs, ¬ r.words.toNat < 64 := by
          obtain ⟨s, hs, hs64⟩ := hlong
          rcases List.mem_cons.mp hs with rfl | hs
          · exact absurd hshort hs64
          · exact ⟨s, hs, hs64⟩
        obtain ⟨vp, -, hstep⟩ : ∃ vp, DecodedAs r vp
            ∧ unmapLoop cfg (front ++ simWire (r :: rs)) (fuel + 1)
                front.length (simWire (r :: rs)).length vps seen
              = unmapLoop cfg (front ++ simWire (r :: rs)) fuel
                  (front ++ r.bytes).length (simWire rs).length
                  (vps ++ [vp]) (seen ++ [front.length]) :=
          unmap_record hnames hsized hshort
        obtain ⟨vps', bounds, hrun⟩ := @ih (vps ++ [vp])
          (front ++ r.bytes) fuel (seen ++ [front.length])
          (fun s hs => hr s (List.mem_cons_of_mem r hs)) hrest (by omega)
        refine ⟨vps', bounds, ?_⟩
        rw [hstep, simWire_cons, ← List.append_assoc, hrun]
      · obtain ⟨fuel, rfl⟩ : ∃ k, fuel = k + 2 := ⟨fuel - 2, by omega⟩
        exact unmap_long hnames hsized h64 hlast

/-- The first pair of the MAC's number is that of the MAC's record. -/
theorem pairfind_mac {before after : List SimRecord} {new : List ValuePair}
    (hdec : List.Forall₂ DecodedAs (before ++ r :: after) new)
    (hb : ∀ s ∈ before, s.type.toNat ≠ pwEapSimMac)
    (hr : r.type.toNat = pwEapSimMac) :
    ∃ vp, pairfind new (attributeEapSimBase + pwEapSimMac) = some vp
      ∧ DecodedAs r vp := by
  induction before generalizing new with
  | nil =>
      cases hdec with
      | cons hvp _ =>
          refine ⟨_, ?_, hvp⟩
          rw [pairfind, List.find?_cons_of_pos]
          rw [beq_iff_eq, hvp.number, hr, Nat.add_comm]
  | cons s before ih =>
      cases hdec with
      | cons hvp hrest =>
          obtain ⟨mac, hfind, hmac⟩ := ih hrest
            fun t ht => hb t (List.mem_cons_of_mem s ht)
          refine ⟨mac, ?_, hmac⟩
          have hs := hb s List.mem_cons_self
          rw [pairfind, List.find?_cons_of_neg]
          · exact hfind
          · rw [beq_iff_eq, hvp.number]
            omega

-- ======== checking

variable {elen : Nat} {back : List UInt8} {touched : List (Nat × Nat)}

/-- The checker steps over records that are no AT_MAC. -/
theorem checkmac_plain
    (hr : ∀ r ∈ rs, r.Sized ∧ r.type.toNat ≠ pwEapSimMac)
    (helen : front.length + (simWire rs).length ≤ elen) :
    ∃ seen' touched',
      checkmacLoop elen (rs.length + fuel) (front ++ (simWire rs ++ back))
          front.length seen touched
        = checkmacLoop elen fuel (front ++ (simWire rs ++ back))
            (front ++ simWire rs).length seen' touched' := by
  induction rs generalizing front seen touched with
  | nil =>
      refine ⟨seen, touched, ?_⟩
      rw [List.length_nil, Nat.zero_add, simWire_nil, List.append_nil]
  | cons r rs ih =>
      obtain ⟨hsized, htype⟩ := hr r List.mem_cons_self
      unfold SimRecord.Sized at hsized
      have hbl := r.bytes_length
      rw [simWire_cons, List.length_append] at helen
      obtain ⟨hfirst, hsecond, -⟩ :=
        fetch_record front r (simWire rs ++ back)
      obtain ⟨seen', touched', hrun⟩ := @ih (front ++ r.bytes)
        (seen ++ [front.length]) (touched ++ [(front.length, 2)])
        (fun s hs => hr s (List.mem_cons_of_mem r hs))
        (by rw [List.length_append]; omega)
      refine ⟨seen', touched', ?_⟩
      rw [simWire_cons, List.append_assoc r.bytes, List.length_cons,
        show rs.length + 1 + fuel = rs.length + fuel + 1 by omega,
        checkmacLoop, if_neg (by omega), hfirst, ok_bind, hsecond, ok_bind]
      dsimp only
      rw [if_neg htype, show front.length + r.words.toNat * 4
        = (front ++ r.bytes).length by rw [List.length_append]; omega,
        ← List.append_assoc front, hrun,
        List.append_assoc front r.bytes (simWire rs)]

/-- The checker clears the MAC in its record. -/
theorem checkmac_mac (hd : digest.length = 16)
    (helen : front.length + 20 ≤ elen) :
    ∃ seen' touched',
      checkmacLoop elen (fuel + 1)
          (front ++ (11 :: 5 :: 0 :: 0 :: digest ++ back)) front.length
          seen touched
        = checkmacLoop elen fuel
            (front ++ (11 :: 5 :: 0 :: 0 :: zeroMac ++ back))
            (front.length + 20) seen' touched' := by
  have hfetch := fetch_record front ⟨11, 5, 0 :: 0 :: digest⟩ back
  have hfirst : fetch (front ++ (11 :: 5 :: 0 :: 0 :: digest ++ back))
      front.length = .ok 11 := hfetch.1
  have hsecond : fetch (front ++ (11 :: 5 :: 0 :: 0 :: digest ++ back))
      (front.length + 1) = .ok 5 := hfetch.2.1
  have hlen : (front ++ (11 :: 5 :: 0 :: 0 :: digest ++ back)).length
      = front.length + 20 + back.length := by
    simp only [List.length_append, List.length_cons, hd]
    omega
  have hclear : overlay (front ++ (11 :: 5 :: 0 :: 0 :: digest ++ back))
      (front.length + 4) zeroMac
      = front ++ (11 :: 5 :: 0 :: 0 :: zeroMac ++ back) := by
    have h := overlay_append_mid (x := front ++ [11, 5, 0, 0]) (y := back)
      digest zeroMac hd
    have hlen : (front ++ [11, 5, 0, 0]).length = front.length + 4 :=
      List.length_append
    rw [hlen] at h
    simpa only [List.append_assoc, List.cons_append, List.nil_append] using h
  refine ⟨seen ++ [front.length],
    touched ++ [(front.length, 2)] ++ [(front.length + 4, 16)], ?_⟩
  rw [checkmacLoop, if_neg (by omega), hfirst, ok_bind, hsecond, ok_bind]
  dsimp only
  rw [if_pos (by rfl), if_neg (by decide), if_neg]
  · exact congrArg (fun b => checkmacLoop elen fuel b _ _ _) hclear
  · rw [hlen]
    change ¬ _ < _ + 4 + 16
    omega

/-- The checker over the records of a packet with one MAC: it gets to the
end, and leaves the packet with zeros for the MAC. -/
theorem checkmac_records {before after : List SimRecord}
    (hb : ∀ r ∈ before, r.Sized ∧ r.type.toNat ≠ pwEapSimMac)
    (ha : ∀ r ∈ after, r.Sized ∧ r.type.toNat ≠ pwEapSimMac)
    (hd : digest.length = 16)
    (helen : front.length
      + (simWire (before ++ ⟨11, 5, 0 :: 0 :: digest⟩ :: after)).length
      = elen)
    (hfuel : before.length + after.length + 1 < fuel) :
    ∃ seen' touched',
      checkmacLoop elen fuel
          (front ++ simWire (before ++ ⟨11, 5, 0 :: 0 :: digest⟩ :: after)
            ++ back) front.length seen touched
        = .ok ⟨true,
            front ++ simWire (before ++ ⟨11, 5, 0 :: 0 :: zeroMac⟩ :: after)
              ++ back, seen', touched'⟩ := by
  obtain ⟨fuel, rfl⟩ : ∃ k, fuel
      = before.length + (after.length + (k + 1) + 1) :=
    ⟨fuel - (before.length + after.length + 2), by omega⟩
  have hbytes (digest : List UInt8) :
      front ++ simWire (before ++ ⟨11, 5, 0 :: 0 :: digest⟩ :: after)
          ++ back
        = front ++ (simWire before ++ (11 :: 5 :: 0 :: 0 :: digest
          ++ (simWire after ++ back))) := by
    simp only [simWire_append, simWire_cons, SimRecord.bytes,
      List.append_assoc, List.cons_append]
  have hfront (digest : List UInt8) :
      front ++ simWire before ++ (11 :: 5 :: 0 :: 0 :: digest
          ++ (simWire after ++ back))
        = front ++ simWire before ++ (11 :: 5 :: 0 :: 0 :: digest)
          ++ (simWire after ++ back) :=
    (List.append_assoc ..).symm
  have hmaclen (digest : List UInt8) (h : digest.length = 16) :
      (11 :: 5 :: 0 :: 0 :: digest : List UInt8).length = 20 := by
    simp only [List.length_cons, h]
  have hz : zeroMac.length = 16 := rfl
  rw [simWire_append, simWire_cons, List.length_append, List.length_append,
    SimRecord.bytes, hmaclen digest hd] at helen
  obtain ⟨s₁, t₁, hrun₁⟩ := @checkmac_plain before front
    (after.length + (fuel + 1) + 1) seen elen
    (11 :: 5 :: 0 :: 0 :: digest ++ (simWire after ++ back)) touched hb
    (by omega)
  obtain ⟨s₂, t₂, hrun₂⟩ := @checkmac_mac digest
    (front ++ simWire before) (after.length + (fuel + 1)) s₁ elen
    (simWire after ++ back) t₁ hd (by rw [List.length_append]; omega)
  obtain ⟨s₃, t₃, hrun₃⟩ := @checkmac_plain after
    (front ++ simWire before ++ (11 :: 5 :: 0 :: 0 :: zeroMac)) (fuel + 1)
    s₂ elen back t₂ ha (by
      rw [List.length_append, List.length_append, hmaclen zeroMac hz]
      omega)
  refine ⟨s₃, t₃, ?_⟩
  have hend : elen ≤ (front ++ simWire before
      ++ (11 :: 5 :: 0 :: 0 :: zeroMac) ++ simWire after).length := by
    simp only [List.length_append, hmaclen zeroMac hz]
    omega
  have hpos : (front ++ simWire before).length + 20
      = (front ++ simWire before
        ++ (11 :: 5 :: 0 :: 0 :: zeroMac)).length := by
    rw [@List.length_append _ (front ++ simWire before),
      hmaclen zeroMac hz]
  rw [hbytes digest, hrun₁, ← List.append_assoc front, hrun₂, hpos,
    hfront zeroMac, hrun₃, checkmacLoop, if_pos hend, ← hfront zeroMac,
    List.append_assoc front, ← hbytes zeroMac]

-- ======== the exchange

/-- The receiver: the packet comes in EAP-Messages, is decoded behind its
header and type, and checked. -/
def eapSimReceive (hmacSha1 : List UInt8 → List UInt8 → Sha1Digest)
    (cfg : Config) (wire key extra : List UInt8) : Mem Bool := do
  match ← eapPacket2vp cfg wire with
  | none => .ok false
  | some msgs => do
      let received ← unmapEapsimBasictypes cfg msgs (wire.drop 5)
      if received.ret then
        let check ← eapsimCheckmac hmacSha1 received.vps key extra
        .ok check.ret
      else .ok false

/-- A packet from the builder to the checker: built, wired and
received. -/
def eapSimExchange (hmacSha1 : List UInt8 → List UInt8 → Sha1Digest)
    (cfg : Config) (pid : Nat) (vps : List ValuePair) (ep : EapPacket)
    (key extra : List UInt8) : Mem Bool := do
  let built ← mapEapsimBasictypes hmacSha1 pid vps ep
  let sent ← eapWireformat cfg built.2
  match built.1, sent.packet with
  | true, some wire => eapSimReceive hmacSha1 cfg wire key extra
  | _, _ => .ok false

/-- A record of at most 250 bytes of value has fewer than 64 words. -/
theorem words_lt (h : isMac vp = true ∨ vp.length ≤ 250) :
    (simRecord digest vp).words.toNat < 64 := by
  cases hm : isMac vp with
  | true =>
      have h5 : (simRecord digest vp).words = 5 := by
        rw [simRecord_mac hm]
      rw [h5]
      decide
  | false =>
      have hle : vp.length ≤ 250 := by
        rcases h with h | h
        · rw [hm] at h
          cases h
        · exact h
      have hlt := roundUp4_lt (vp.length + 2)
      have hmod := roundUp4_mod (vp.length + 2)
      rw [simRecord_plain hm]
      simp only [UInt8.toNat_ofNat', rounded_plain hm]
      omega

/-- A longer value has one of 64 words that ends in zeros. -/
theorem words_long (hm : isMac vp = false) (hgt : 250 < vp.length)
    (hle : vp.length ≤ 253) :
    (simRecord digest vp).words.toNat = 64
      ∧ (simRecord digest vp).body.getD 253 0 = 0 := by
  have hround : eapSimRounded vp = 256 := by
    rw [rounded_plain hm, roundUp4]
    omega
  rw [simRecord_plain hm, hround]
  refine ⟨by rfl, ?_⟩
  have hlen : (vp.octets vp.length).length = vp.length := padTake_length ..
  dsimp only
  rw [padTake, List.take_of_length_le (by omega),
    List.getD_eq_getElem?_getD, List.getElem?_append_right (by omega),
    List.getElem?_replicate]
  split <;> rfl

/-- A record that is no AT_MAC has another type. -/
theorem simRecord_type (hsim : eapSimAttribute vp = true)
    (hm : isMac vp = false) :
    (simRecord digest vp).type.toNat ≠ pwEapSimMac := by
  have hrange := of_decide_eq_true hsim
  have hne : vp.attr ≠ attributeEapSimBase + pwEapSimMac := by
    simpa [isMac] using hm
  rw [simRecord_plain hm]
  simp only [UInt8.toNat_ofNat']
  omega

/-- The records of one packet: those before its MAC, the MAC, and those
behind it. -/
theorem SimAttributes.records (h : SimAttributes cfg vps ep mac key) :
    ∃ before after : List SimRecord,
      (∀ r ∈ before, r.Sized ∧ r.type.toNat ≠ pwEapSimMac)
      ∧ (∀ r ∈ after, r.Sized ∧ r.type.toNat ≠ pwEapSimMac)
      ∧ ∀ digest, simRecords vps digest
        = before ++ ⟨11, 5, 0 :: 0 :: digest⟩ :: after := by
  obtain ⟨before, after, hattrs, hmac, hb, ha⟩ := h.split
  have hle := h.length_le
  have hz : zeroMac.length = 16 := rfl
  have hsim : ∀ vp ∈ before ++ mac :: after,
      eapSimAttribute vp = true := by
    rw [← hattrs]
    intro vp hvp
    exact (List.mem_filter.mp hvp).2
  rw [hattrs] at hle
  have hplain {l : List ValuePair} (hin : ∀ vp ∈ l,
      vp ∈ before ++ mac :: after) (hl : ∀ vp ∈ l, isMac vp = false) :
      ∀ r ∈ l.map (simRecord zeroMac),
        r.Sized ∧ r.type.toNat ≠ pwEapSimMac := by
    rw [List.forall_mem_map]
    intro vp hvp
    exact ⟨simRecord_sized hz (hle vp (hin vp hvp)),
      simRecord_type (hsim vp (hin vp hvp)) (hl vp hvp)⟩
  refine ⟨before.map (simRecord zeroMac), after.map (simRecord zeroMac),
    ?_, ?_, ?_⟩
  · apply hplain _ hb
    intro vp hvp
    exact List.mem_append_left _ hvp
  · apply hplain _ ha
    intro vp hvp
    exact List.mem_append_right _ (List.mem_cons_of_mem mac hvp)
  · intro digest
    rw [simRecords, hattrs, List.map_append, List.map_cons,
      simRecord_mac hmac, map_plain hb digest zeroMac,
      map_plain ha digest zeroMac]

/-- Where an attribute of the list has its record. -/
theorem mem_simRecords {r : SimRecord} (hr : r ∈ simRecords vps digest) :
    ∃ vp ∈ vps.filter eapSimAttribute, simRecord digest vp = r :=
  List.mem_map.mp hr

/-- The message behind its subtype and reserved bytes. -/
theorem simMessage_eq (vps : List ValuePair) (digest : List UInt8) :
    ∃ front : List UInt8, front.length = 3
      ∧ simMessage vps digest = front ++ simWire (simRecords vps digest) :=
  ⟨_, rfl, rfl⟩

/-- The decoder comes to its loop, behind the subtype. -/
theorem unmap_enters (h : SimAttributes cfg vps ep mac key)
    (hd : digest.length = 16) (msgs : List ValuePair) :
    ∃ (subtype : ValuePair) (front : List UInt8),
      subtype.attr = attributeEapSimSubtype
      ∧ unmapEapsimBasictypes cfg msgs (simMessage vps digest)
        = unmapLoop cfg (front ++ simWire (simRecords vps digest))
            ((front ++ simWire (simRecords vps digest)).length + 1)
            front.length (simWire (simRecords vps digest)).length
            (msgs ++ [subtype]) [] := by
  obtain ⟨front, hfront, hmsg⟩ := simMessage_eq vps digest
  obtain ⟨before, after, -, -, hrecs⟩ := h.records
  obtain ⟨newvp, hnew⟩ : ∃ vp,
      paircreate cfg attributeEapSimSubtype .integer = some vp := by
    apply paircreate_isSome
    exact h.names _ (by decide)
  have h20 : 20 ≤ (simWire (simRecords vps digest)).length := by
    rw [hrecs, simWire_append, simWire_cons, List.length_append,
      List.length_append, SimRecord.bytes]
    simp only [List.length_cons, hd]
    omega
  have hlen : (front ++ simWire (simRecords vps digest)).length
      = 3 + (simWire (simRecords vps digest)).length := by
    rw [List.length_append, hfront]
  obtain ⟨first, hfirst⟩ : ∃ b, fetch (front
      ++ simWire (simRecords vps digest)) 0 = .ok b :=
    fetch_isOk (by omega) (by omega)
  have hattr : newvp.attr = attributeEapSimSubtype := paircreate_attr hnew
  refine ⟨{ newvp with lvalue := first.toUInt32, length := 1 }, front,
    hattr, ?_⟩
  rw [unmapEapsimBasictypes, hmsg, if_neg (by omega), hnew]
  dsimp only
  rw [hfirst, ok_bind, hlen, hfront, Nat.add_sub_cancel_left]

/-- The pairs of records are EAP-SIM attributes. -/
theorem base_le_decoded {new : List ValuePair}
    (hdec : List.Forall₂ DecodedAs rs new) :
    ∀ vp ∈ new, attributeEapSimBase ≤ vp.attr := by
  induction hdec with
  | nil =>
      intro vp hvp
      cases hvp
  | cons hvp _ ih =>
      rw [List.forall_mem_cons]
      refine ⟨?_, ih⟩
      rw [hvp.number]
      exact Nat.le_add_left ..

/-- A packet of short attributes is decoded, with the MAC in its pair. -/
theorem unmap_accepts_sim (h : SimAttributes cfg vps ep mac key)
    (hd : digest.length = 16)
    (hshort : ∀ vp ∈ vps.filter eapSimAttribute,
      isMac vp = true ∨ vp.length ≤ 250)
    (hmsgs : ∀ vp ∈ msgs, vp.attr = pwEapMessage)
    (he : eapVp2packet msgs = some e) :
    ∃ rvps bounds m,
      unmapEapsimBasictypes cfg msgs (simMessage vps digest)
        = .ok ⟨true, rvps, bounds⟩
      ∧ eapVp2packet rvps = some e
      ∧ pairfind rvps (attributeEapSimBase + pwEapSimMac) = some m
      ∧ m.length = 18 ∧ (m.octets 18).drop 2 = digest := by
  have hle := h.length_le
  obtain ⟨before, after, hb, -, hrecs⟩ := h.records
  obtain ⟨subtype, front, hsub, hloop⟩ := unmap_enters h hd msgs
  obtain ⟨new, bounds, hdec, hrun⟩ : ∃ new bounds,
      List.Forall₂ DecodedAs (simRecords vps digest) new
      ∧ unmapLoop cfg (front ++ simWire (simRecords vps digest))
          ((front ++ simWire (simRecords vps digest)).length + 1)
          front.length (simWire (simRecords vps digest)).length
          (msgs ++ [subtype]) []
        = .ok ⟨true, msgs ++ [subtype] ++ new, bounds⟩ := by
    apply unmap_records h.names
    · intro r hr
      obtain ⟨vp, hvp, rfl⟩ := mem_simRecords hr
      exact ⟨simRecord_sized hd (hle vp hvp), words_lt (hshort vp hvp)⟩
    · rw [List.length_append]
      omega
  have hbase := base_le_decoded hdec
  rw [hrecs digest] at hdec
  obtain ⟨m, hfind, hm⟩ := pairfind_mac hdec (fun s hs => (hb s hs).2) rfl
  have hlen : m.length = 18 := by
    rw [hm.length]
    simp only [List.length_cons, hd]
  refine ⟨msgs ++ [subtype] ++ new, bounds, m, hloop.trans hrun, ?_, ?_,
    hlen, ?_⟩
  · rw [List.append_assoc]
    apply eapVp2packet_append he
    rw [List.singleton_append, List.forall_mem_cons, hsub]
    refine ⟨by decide, ?_⟩
    intro vp hvp heq
    have := hbase vp hvp
    rw [heq] at this
    exact absurd this (by decide)
  · have hnone : pairfind (msgs ++ [subtype])
        (attributeEapSimBase + pwEapSimMac) = none := by
      rw [pairfind, List.find?_eq_none]
      intro vp hvp
      rw [beq_iff_eq]
      rcases List.mem_append.mp hvp with hvp | hvp
      · rw [hmsgs vp hvp]
        decide
      · rw [List.mem_singleton.mp hvp, hsub]
        decide
    rw [pairfind] at hnone hfind
    rw [pairfind, List.find?_append, hnone, Option.none_or, hfind]
  · have hoct := hm.octets
    rw [hlen] at hoct
    rw [hoct]
    rfl

/-- A packet with a longer attribute is not. -/
theorem unmap_rejects_sim (h : SimAttributes cfg vps ep mac key)
    (hd : digest.length = 16)
    (hlong : ∃ vp ∈ vps.filter eapSimAttribute,
      isMac vp = false ∧ 250 < vp.length) (msgs : List ValuePair) :
    ∃ rvps bounds,
      unmapEapsimBasictypes cfg msgs (simMessage vps digest)
        = .ok ⟨false, rvps, bounds⟩ := by
  have hle := h.length_le
  obtain ⟨subtype, front, -, hloop⟩ := unmap_enters h hd msgs
  obtain ⟨rvps, bounds, hrun⟩ : ∃ rvps bounds,
      unmapLoop cfg (front ++ simWire (simRecords vps digest))
          ((front ++ simWire (simRecords vps digest)).length + 1)
          front.length (simWire (simRecords vps digest)).length
          (msgs ++ [subtype]) []
        = .ok ⟨false, rvps, bounds⟩ := by
    apply unmap_rejects h.names
    · intro r hr
      obtain ⟨vp, hvp, rfl⟩ := mem_simRecords hr
      refine ⟨simRecord_sized hd (hle vp hvp), ?_⟩
      by_cases hs : isMac vp = true ∨ vp.length ≤ 250
      · exact Or.inl (words_lt hs)
      · have hm : isMac vp = false := by
          cases hm : isMac vp with
          | true => exact absurd (Or.inl hm) hs
          | false => rfl
        exact Or.inr (words_long hm (by omega) (hle vp hvp))
    · obtain ⟨vp, hvp, hm, hgt⟩ := hlong
      refine ⟨simRecord digest vp, List.mem_map_of_mem hvp, ?_⟩
      rw [(words_long hm hgt (hle vp hvp)).1]
      omega
    · rw [List.length_append]
      omega
  exact ⟨rvps, bounds, hloop.trans hrun⟩

/-- The packet is eight bytes and its records; the eight bytes do not
depend on the MAC. -/
theorem simPacket_records (h : SimAttributes cfg vps ep mac key) :
    ∃ front : List UInt8, front.length = 8
      ∧ ∀ digest : List UInt8, digest.length = 16 →
        simPacket vps pid (simMessage vps digest)
          = front ++ simWire (simRecords vps digest) := by
  obtain ⟨front, hfront, -⟩ := simMessage_eq vps zeroMac
  refine ⟨[UInt8.ofNat (eapNumber vps attributeEapCode pwEapRequest % 256),
      UInt8.ofNat (eapNumber vps attributeEapId (pid % 256) % 256)]
    ++ be16 (5 + (simMessage vps zeroMac).length)
    ++ [UInt8.ofNat pwEapSim,
      UInt8.ofNat (eapNumber vps attributeEapSimSubtype eapsimStart), 0, 0],
    rfl, ?_⟩
  intro digest hd
  rw [simPacket, simMessage_length h hd]
  rfl

theorem length_le_simWire (rs : List SimRecord) :
    rs.length ≤ (simWire rs).length := by
  induction rs with
  | nil => exact Nat.le_refl 0
  | cons r rs ih =>
      rw [simWire_cons, List.length_append, List.length_cons, r.bytes_length]
      omega

/-- Over a packet of the builder's with any MAC, the checker tells whether
it is the builder's: with zeros for the MAC it has the builder's text
before it. -/
theorem checkmac_sim {rvps : List ValuePair} {m : ValuePair}
    (h : SimAttributes cfg vps ep mac key) (hd : digest.length = 16)
    (hfit : 5 + (simMessage vps digest).length ≤ 65535)
    (he : eapVp2packet rvps
      = some (simPacket vps pid (simMessage vps digest)))
    (hfind : pairfind rvps (attributeEapSimBase + pwEapSimMac) = some m)
    (hlen : m.length = 18) (hoct : (m.octets 18).drop 2 = digest) :
    ∃ check, eapsimCheckmac hmacSha1 rvps (key.octets 16)
        (mac.octets mac.length) = .ok check
      ∧ check.ret = (digest == simDigest hmacSha1 vps pid mac key) := by
  obtain ⟨front, hfront, hpacket⟩ :
      ∃ front : List UInt8, front.length = 8
        ∧ ∀ digest : List UInt8, digest.length = 16 →
          simPacket vps pid (simMessage vps digest)
            = front ++ simWire (simRecords vps digest) :=
    simPacket_records h
  obtain ⟨before, after, hb, ha, hrecs⟩ := h.records
  have htext := hpacket zeroMac rfl
  have helen : eapLength (simPacket vps pid (simMessage vps digest))
      = .ok (simPacket vps pid (simMessage vps digest)).length := by
    rw [simPacket_length]
    exact eapLength_simPacket hfit
  rw [eapsimCheckmac, hfind]
  dsimp only
  rw [if_neg (by omega), he]
  dsimp only
  rw [helen, ok_bind, fetchN_all, ok_bind, hpacket digest hd, hrecs digest]
  have hcount := length_le_simWire
    (before ++ ⟨11, 5, 0 :: 0 :: digest⟩ :: after)
  rw [List.length_append, List.length_cons] at hcount
  generalize hrs : before ++ ⟨11, 5, 0 :: 0 :: digest⟩ :: after = rs at *
  obtain ⟨seen, touched, hwalk⟩ : ∃ seen touched,
      checkmacLoop (front ++ simWire rs).length
          ((front ++ simWire rs).length + 1)
          (front ++ simWire rs ++ mac.octets mac.length) front.length [] []
        = .ok ⟨true,
            front ++ simWire (before ++ ⟨11, 5, 0 :: 0 :: zeroMac⟩ :: after)
              ++ mac.octets mac.length, seen, touched⟩ := by
    rw [← hrs]
    apply checkmac_records hb ha hd List.length_append.symm
    rw [hrs, List.length_append]
    omega
  rw [hfront] at hwalk
  rw [hwalk, ok_bind, if_pos rfl, ← hrecs zeroMac, ← htext]
  refine ⟨_, rfl, ?_⟩
  dsimp only
  rw [hoct]
  rfl

/-- The receiver accepts a packet of the builder's with any MAC exactly
when no attribute is too long for the decoder and the MAC is the
builder's. -/
theorem eapSimReceive_iff (h : SimAttributes cfg vps ep mac key)
    (hd : digest.length = 16)
    (hfit : 5 + (simMessage vps digest).length ≤ 65535) :
    eapSimReceive hmacSha1 cfg (simPacket vps pid (simMessage vps digest))
        (key.octets 16) (mac.octets mac.length) = .ok true
      ↔ (∀ vp ∈ vps.filter eapSimAttribute,
          isMac vp = true ∨ vp.length ≤ 250)
        ∧ digest = simDigest hmacSha1 vps pid mac key := by
  have hsize : (simPacket vps pid (simMessage vps digest)).length
      = 5 + (simMessage vps digest).length := simPacket_length _
  have helen : eapLength (simPacket vps pid (simMessage vps digest))
      = .ok (simPacket vps pid (simMessage vps digest)).length := by
    rw [hsize]
    exact eapLength_simPacket hfit
  have hdrop : (simPacket vps pid (simMessage vps digest)).drop 5
      = simMessage vps digest := rfl
  have hnew : ∃ vp, paircreate cfg pwEapMessage .octets = some vp := by
    apply paircreate_isSome
    exact h.names _ (by decide)
  obtain ⟨m, msgs, hloop, hmsgs, hcat, hfirst⟩ : ∃ m msgs,
      eapPacket2vpLoop cfg (simPacket vps pid (simMessage vps digest))
          ((simPacket vps pid (simMessage vps digest)).length + 1) 0
          (simPacket vps pid (simMessage vps digest)).length []
        = .ok (some ([] ++ m :: msgs))
      ∧ (∀ vp ∈ m :: msgs, vp.attr = pwEapMessage ∧ vp.length ≤ 253)
      ∧ (m :: msgs).flatMap (fun vp => vp.octets vp.length)
        = (simPacket vps pid (simMessage vps digest)).drop 0
      ∧ m.length
        = min (simPacket vps pid (simMessage vps digest)).length 253 :=
    packet2vpLoop_spec hnew (Nat.zero_add _) (Nat.lt_succ_self _)
  replace hmsgs : ∀ vp ∈ m :: msgs, vp.attr = pwEapMessage :=
    fun vp hvp => (hmsgs vp hvp).1
  have he : eapVp2packet (m :: msgs)
      = some (simPacket vps pid (simMessage vps digest)) :=
    eapVp2packet_pieces hmsgs hcat (by omega) helen
  rw [eapSimReceive, eapPacket2vp, helen, ok_bind, hloop, ok_bind,
    List.nil_append]
  dsimp only
  rw [hdrop]
  by_cases hshort : ∀ vp ∈ vps.filter eapSimAttribute,
      isMac vp = true ∨ vp.length ≤ 250
  · obtain ⟨rvps, bounds, mac', hun, hrvps, hfind, hlen, hoct⟩ :=
      unmap_accepts_sim h hd hshort hmsgs he
    obtain ⟨check, hcheck, hret⟩ :=
      checkmac_sim h hd hfit hrvps hfind hlen hoct
    rw [hun, ok_bind, if_pos rfl, hcheck, ok_bind, hret]
    rw [Except.ok.injEq, beq_iff_eq]
    exact (and_iff_right hshort).symm
  · have hlong : ∃ vp ∈ vps.filter eapSimAttribute,
        isMac vp = false ∧ 250 < vp.length := by
      simpa only [not_forall, not_or, Bool.not_eq_true, not_le,
        exists_prop] using hshort
    obtain ⟨rvps, bounds, hun⟩ := unmap_rejects_sim h hd hlong (m :: msgs)
    rw [hun, ok_bind]
    apply iff_of_false
    · intro hok
      cases hok
    · intro ⟨hall, _⟩
      exact hshort hall

/-- MAC agreement: a packet that `map_eapsim_basictypes` builds comes
through the wire format, the EAP-Messages and the decoder to a checker
that accepts it exactly when no attribute but AT_MAC is longer than 250
bytes and the packet with its nonce is at most 65535. -/
theorem eapSimExchange_iff (h : SimAttributes cfg vps ep mac key)
    (hmacSha1 : List UInt8 → List UInt8 → Sha1Digest) (pid : Nat) :
    eapSimExchange hmacSha1 cfg pid vps ep (key.octets 16)
        (mac.octets mac.length) = .ok true
      ↔ (∀ vp ∈ vps.filter eapSimAttribute,
          isMac vp = true ∨ vp.length ≤ 250)
        ∧ 8 + ((vps.filter eapSimAttribute).map eapSimRounded).sum
            + mac.length ≤ 65535 := by
  have hd : (simDigest hmacSha1 vps pid mac key).length = 16 := by
    rw [simDigest, List.length_take, Sha1Digest.len]
    rfl
  have hsize {digest : List UInt8} (hd : digest.length = 16) :
      (simMessage vps digest).length
        = 3 + ((vps.filter eapSimAttribute).map eapSimRounded).sum := by
    rw [rounded_sum h hd, simMessage, List.length_append]
    rfl
  have hzsize := @hsize zeroMac rfl
  have hdsize := hsize hd
  rw [eapSimExchange, map_wire h]
  split
  next hover =>
    -- the text of the MAC does not fit
    apply iff_of_false
    · intro hok
      cases hok
    · intro hcond
      obtain ⟨_, hfit⟩ := hcond
      omega
  next hfit =>
    rw [ok_bind, wireformat_sim h.code (by omega), ok_bind]
    have hreceive : eapSimReceive hmacSha1 cfg (simPacket vps pid
          (simMessage vps (simDigest hmacSha1 vps pid mac key)))
          (key.octets 16) (mac.octets mac.length) = .ok true
        ↔ (∀ vp ∈ vps.filter eapSimAttribute,
            isMac vp = true ∨ vp.length ≤ 250)
          ∧ simDigest hmacSha1 vps pid mac key
            = simDigest hmacSha1 vps pid mac key :=
      eapSimReceive_iff h hd (by omega)
    rw [eq_self_iff_true, and_true] at hreceive
    apply hreceive.trans
    constructor
    · intro hshort
      exact ⟨hshort, by omega⟩
    · intro hcond
      obtain ⟨hshort, _⟩ := hcond
      exact hshort

/-- An attribute of the given number and bytes. -/
def simPair (attr : Nat) (bytes : List UInt8) : ValuePair :=
  { attr := attr, type := .octets, length := bytes.length, data := bytes }

def simKeyPair : ValuePair :=
  simPair attributeEapSimKey (List.replicate 16 7)

/-- AT_MAC with a nonce of four bytes. -/
def simMacPair : ValuePair :=
  simPair (attributeEapSimBase + pwEapSimMac) [1, 2, 3, 4]

/-- A key, an AT_MAC and one attribute of `n` bytes. -/
def simPairs (n : Nat) : List ValuePair :=
  [simKeyPair, simPair (attributeEapSimBase + 1) (List.replicate n 9),
    simMacPair]

theorem simPairs_attributes {n : Nat} (h : n ≤ 253) :
    SimAttributes bareConfig (simPairs n) {} simMacPair simKeyPair where
  one_mac := rfl
  key_pair := rfl
  key_length := rfl
  lengths := by
    intro vp hvp _
    simp only [simPairs, List.mem_cons, List.not_mem_nil, or_false] at hvp
    rcases hvp with rfl | rfl | rfl
    · decide
    · simpa [simPair] using h
    · decide
  code := Or.inl rfl
  unsent := ⟨by decide, rfl⟩
  names := fun _ _ => rfl

/-- Not every packet is accepted: one with an attribute of 251 bytes is
turned down by the decoder. -/
theorem eapSimExchange_rejects :
    ¬ ∀ (hmacSha1 : List UInt8 → List UInt8 → Sha1Digest) (cfg : Config)
        (vps : List ValuePair) (ep : EapPacket) (mac key : ValuePair)
        (pid : Nat), SimAttributes cfg vps ep mac key →
      eapSimExchange hmacSha1 cfg pid vps ep (key.octets 16)
        (mac.octets mac.length) = .ok true := by
  intro h
  have hrun : eapSimExchange zeroDigest bareConfig 0 (simPairs 251) {}
      (simKeyPair.octets 16) (simMacPair.octets simMacPair.length)
      = .ok false := by
    decide +kernel
  have hok := h zeroDigest bareConfig (simPairs 251) {} simMacPair
    simKeyPair 0 (simPairs_attributes (by omega))
  rw [hrun] at hok
  cases hok

/-- A packet with an attribute of 250 bytes is accepted. -/
theorem eapSimExchange_accepts :
    eapSimExchange zeroDigest bareConfig 0 (simPairs 250) {}
        (simKeyPair.octets 16) (simMacPair.octets simMacPair.length)
      = .ok true := by
  apply (eapSimExchange_iff (simPairs_attributes (by omega)) zeroDigest
    0).mpr
  decide +kernel

end WinRadius
