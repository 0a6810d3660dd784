/-
What `rad_packet_ok` guarantees about the bytes it lets through: a header
of twenty bytes, then a string of well-formed attributes with nothing
left over.

`Accepted` is that guarantee as a structure. Everything downstream of the
check (the signature walk, the decoder's loop) starts from it and never
looks at `okWalk` again.
-/
import WinRadius.Model.Sign
import WinRadius.Lib.Tlv

namespace WinRadius

open Lib

-- ======== the walk

/-- An attribute the walk lets pass. -/
def Tlv.Received (a : Tlv) : Prop :=
  a.type ≠ 0 ∧ (a.type.toNat = pwMessageAuthenticator →
    a.value.length = authVectorLen)

/-- What one attribute leaves of the accumulator, and that a
Message-Authenticator got its length. -/
theorem okAttr_ok {w w' : OkWalk} {type len : Nat}
    (h : okAttr w type len = .ok w') :
    w'.numAttributes = w.numAttributes
      ∧ (type = pwMessageAuthenticator → len = 2 + authVectorLen) := by
  unfold okAttr at h
  split at h
  · next heap =>
      cases h
      refine ⟨rfl, fun hma => ?_⟩
      rw [heap] at hma
      exact absurd hma (by decide)
  · split at h
    · split at h
      · cases h
      · next hlen =>
          cases h
          exact ⟨rfl, fun _ => not_not.mp hlen⟩
    · next hne =>
        cases h
        exact ⟨rfl, fun hma => absurd hma hne⟩

/-- A walk that reaches the end has cut the bytes into attributes. The
induction is on the fuel, which the bytes left never exceed. -/
theorem okWalk_tiles {fuel : Nat} {w w' : OkWalk} {rest : List UInt8}
    (hf : rest.length ≤ fuel) (h : okWalk fuel w rest = .ok w') :
    ∃ as : List Tlv, rest = wire as ∧ (∀ a ∈ as, Tlv.Received a)
      ∧ w'.numAttributes = w.numAttributes + as.length := by
  induction fuel generalizing w rest with
  | zero =>
      have hnil : rest = [] := List.length_eq_zero_iff.mp (by omega)
      subst hnil
      cases h
      exact ⟨[], rfl, by simp, rfl⟩
  | succ fuel ih =>
      match rest, h with
      | [], h =>
          cases h
          exact ⟨[], rfl, by simp, rfl⟩
      | [_], h => cases h
      | type :: len :: rest, h =>
          simp only [okWalk] at h
          split_ifs at h with h0 h2 hover
          obtain ⟨w1, hattr, hrest⟩ := bind_eq_ok.mp h
          obtain ⟨hnum, hma⟩ := okAttr_ok hattr
          have hlen : 2 ≤ len.toNat := by
            have := UInt8.not_lt.mp h2
            exact UInt8.le_iff_toNat_le.mp this
          have h255 := len.toNat_lt
          simp only [List.length_cons] at hf
          obtain ⟨as, htail, has, hcount⟩ :=
            ih (by rw [List.length_drop]; omega) hrest
          obtain ⟨a, rfl, halen, ha⟩ := exists_bytes_append type _ rest hlen
            (by omega)
          refine ⟨a :: as, by rw [ha, htail, wire_cons], ?_, ?_⟩
          · intro b hb
            rcases List.mem_cons.mp hb with rfl | hb
            · refine ⟨h0, fun ht => ?_⟩
              have := hma ht
              omega
            · exact has b hb
          · rw [hcount, List.length_cons]
            simp only [hnum]
            omega

-- ======== the whole check

/-- A packet as `rad_packet_ok` leaves it on success, with the attributes
its bytes are made of. -/
structure Accepted (cfg : Config) (packet : RadiusPacket)
    (as : List Tlv) : Prop where
  header : authHdrLen ≤ packet.data.length
  small : packet.data.length ≤ maxPacketLen
  body : packet.data.drop authHdrLen = wire as
  received : ∀ a ∈ as, Tlv.Received a
  counted : 0 < cfg.maxAttributes → as.length ≤ cfg.maxAttributes
  code_eq : packet.code = (packet.data.getD 0 0).toNat
  code_pos : 0 < packet.code
  code_lt : packet.code < frMaxPacketCode
  vector_eq : packet.vector = headerVector packet.data

theorem okHeader_ok {packet cut : RadiusPacket}
    (h : okHeader packet = .ok cut) :
    authHdrLen ≤ cut.data.length ∧ cut.data.length ≤ maxPacketLen
      ∧ cut = { packet with
          data := packet.data.take (lengthField packet.data) }
      ∧ 0 < (cut.data.getD 0 0).toNat
      ∧ (cut.data.getD 0 0).toNat < frMaxPacketCode := by
  simp only [okHeader] at h
  split_ifs at h with h1 h2 h3 h4 h5 h6
  cases h
  have hget : (packet.data.take (lengthField packet.data)).getD 0 0
      = packet.data.getD 0 0 := by
    rw [List.getD_eq_getElem?_getD, List.getElem?_take, if_pos,
      List.getD_eq_getElem?_getD]
    have : authHdrLen = 20 := rfl
    omega
  simp only [hget, List.length_take, true_and]
  omega

/-- The guarantee of `rad_packet_ok`. -/
theorem radPacketOk_accepted {cfg : Config} {packet q : RadiusPacket}
    {flags : Bool} (h : radPacketOk cfg packet flags = (q, none)) :
    ∃ as, Accepted cfg q as := by
  simp only [radPacketOk] at h
  split at h
  · cases h
  · next cut hcut =>
      obtain ⟨hlo, hhi, -, hc0, hc1⟩ := okHeader_ok hcut
      split at h
      · cases h
      · next w hw =>
          split at h
          · cases h
          · next hcounts =>
              obtain ⟨as, hbody, hrec, hnum⟩ :=
                okWalk_tiles (by rw [List.length_drop]; omega) hw
              cases h
              refine ⟨as, hlo, hhi, hbody, hrec, fun hmax => ?_, rfl,
                hc0, hc1, rfl⟩
              simp only [okCounts] at hcounts
              split_ifs at hcounts with hmany hreq
              have hzero : w.numAttributes = as.length := by
                simpa using hnum
              omega

/-- A packet that is exactly as long as it says is not cut. -/
theorem radPacketOk_fields {cfg : Config} {packet q : RadiusPacket}
    {flags : Bool} (h : radPacketOk cfg packet flags = (q, none))
    (hfield : lengthField packet.data = packet.data.length) :
    q.data = packet.data ∧ q.code = (packet.data.getD 0 0).toNat
      ∧ q.vector = headerVector packet.data := by
  simp only [radPacketOk] at h
  split at h
  · cases h
  · next cut hcut =>
      obtain ⟨-, -, hdata, -⟩ := okHeader_ok hcut
      rw [hfield, List.take_length] at hdata
      subst hdata
      split at h
      · cases h
      · split at h
        · cases h
        · cases h
          exact ⟨rfl, rfl, rfl⟩

end WinRadius
