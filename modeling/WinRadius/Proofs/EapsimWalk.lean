/-
The two walks over the attributes of an EAP-SIM packet.

`unmap_eapsim_basictypes` steps over at most 254 bytes at a time,
`eapsim_checkmac` over four times the length byte. So they step alike
over an attribute of fewer than 64 words and part at any other
(`walks_agree_iff`): there the decoder goes on inside the attribute,
where the checker has no boundary.
-/
import WinRadius.Lib.Run
import WinRadius.Model.Eapsim

namespace WinRadius

open Lib

variable {cfg : Config} {attr buffer extra : List UInt8}
  {pos n fuel fuel' elen : Nat} {vps vps' : List ValuePair}
  {seen bs : List Nat} {touched : List (Nat × Nat)}

-- ======== boundaries

/-- The length byte of the attribute at an offset. -/
def wordsAt (attr : List UInt8) (pos : Nat) : Nat :=
  (attr.getD (pos + 1) 0).toNat

/-- An AT_MAC too short for the checker, which gives up over it. -/
def shortMac (attr : List UInt8) (pos : Nat) : Bool :=
  decide ((attr.getD pos 0).toNat = pwEapSimMac ∧ wordsAt attr pos < 5)

-- ======== the decoder

/-- How far the decoder goes at an offset. -/
def advanceAt (attr : List UInt8) (pos : Nat) : Nat :=
  min (wordsAt attr pos * 4) maxStringLen

/-- The pair the decoder makes at an offset. -/
structure CutAt (attr : List UInt8) (pos : Nat) (vp : ValuePair) : Prop where
  number : vp.attr = (attr.getD pos 0).toNat + attributeEapSimBase
  length : vp.length = advanceAt attr pos - 2
  octets : vp.octets vp.length
    = slice attr (pos + 2) (advanceAt attr pos - 2)

/-- A step of the decoder over an accepted packet: the attribute is
there, its length is at least one word, and the decoder goes on behind
it or inside it. -/
theorem unmap_step
    (h : unmapLoop cfg attr (fuel + 1) pos n vps seen
      = .ok ⟨true, vps', bs⟩)
    (hn : n ≠ 0) (hpos : pos + n = attr.length) :
    2 ≤ n ∧ 1 ≤ wordsAt attr pos ∧ wordsAt attr pos * 4 ≤ n
      ∧ ∃ vp : ValuePair, CutAt attr pos vp
        ∧ unmapLoop cfg attr fuel
            (pos + min (wordsAt attr pos * 4) maxStringLen)
            (n - min (wordsAt attr pos * 4) maxStringLen)
            (vps ++ [vp]) (seen ++ [pos])
          = .ok ⟨true, vps', bs⟩ := by
  rw [unmapLoop, if_neg hn] at h
  split at h
  next => cases h
  next hn2 =>
  rw [fetch_getD (by omega), ok_bind,
    show ((pos : Int) + 1) = ((pos + 1 : Nat) : Int) by omega,
    fetch_getD (by omega), ok_bind] at h
  change (if n < wordsAt attr pos * 4 then _ else _) = _ at h
  split at h
  next => cases h
  next hle =>
  dsimp only at h
  split at h
  next => cases h
  next h2 =>
  split at h
  next => cases h
  next vp hvp =>
    obtain ⟨bytes, hbytes, h⟩ := bind_eq_ok.mp h
    have hmax : maxStringLen = 254 := rfl
    refine ⟨by omega, ?_, by omega, _, ?_, h⟩
    · change ¬ min (wordsAt attr pos * 4) maxStringLen < 2 at h2
      omega
    · have hf := paircreate_fresh hvp
      obtain ⟨-, -, -, hslice⟩ := fetchN_eq_ok.mp hbytes
      have hlen := fetchN_length hbytes
      change (bytes.length : Int) = (advanceAt attr pos - 2 : Nat) at hlen
      have hb : bytes.length = advanceAt attr pos - 2 := by omega
      have hoct : (vp.setOctets bytes).octets bytes.length = bytes :=
        octets_setOctets hf.data
      refine ⟨hf.number, rfl, ?_⟩
      rw [hb] at hoct
      exact hoct.trans hslice

/-- The decoder's list of boundaries grows at its end, first with the
offset it stands at. -/
theorem unmap_boundaries
    (h : unmapLoop cfg attr fuel pos n vps seen = .ok ⟨true, vps', bs⟩)
    (hpos : pos + n = attr.length) :
    ∃ l, bs = seen ++ l ∧ (n = 0 → l = [])
      ∧ (n ≠ 0 → l.head? = some pos) := by
  induction fuel generalizing pos n vps seen with
  | zero => cases h
  | succ fuel ih =>
      by_cases hn : n = 0
      · rw [unmapLoop, if_pos hn] at h
        cases h
        exact ⟨[], (List.append_nil _).symm, fun _ => rfl,
          fun h0 => absurd hn h0⟩
      · obtain ⟨-, -, hle, vp, -, hnext⟩ := unmap_step h hn hpos
        obtain ⟨l, hl, -, -⟩ := ih hnext (by omega)
        refine ⟨pos :: l, ?_, fun h0 => absurd h0 hn, fun _ => rfl⟩
        rw [hl, List.append_assoc]
        rfl

-- ======== the checker

/-- The attributes of a copy of the packet, as the checker reads them. -/
structure Copied (attr extra buffer : List UInt8) (pos : Nat) : Prop where
  length : buffer.length = attr.length + 5 + extra.length
  rest : buffer.drop (pos + 5) = attr.drop pos ++ extra

theorem Copied.getD (h : Copied attr extra buffer pos) {i : Nat}
    (hi : pos ≤ i) (hlt : i < attr.length) :
    buffer.getD (i + 5) 0 = attr.getD i 0 := by
  have hdrop := congrArg (fun l => l.getD (i - pos) 0) h.rest
  simp only [List.getD_eq_getElem?_getD, List.getElem?_drop] at hdrop
  rw [List.getElem?_append_left (by rw [List.length_drop]; omega),
    List.getElem?_drop, show pos + 5 + (i - pos) = i + 5 by omega,
    show pos + (i - pos) = i by omega] at hdrop
  rw [List.getD_eq_getElem?_getD, List.getD_eq_getElem?_getD, hdrop]

/-- What is behind an attribute stays behind it. -/
theorem Copied.advance (h : Copied attr extra buffer pos) {k : Nat}
    (hk : pos + k ≤ attr.length) : Copied attr extra buffer (pos + k) := by
  refine ⟨h.length, ?_⟩
  rw [show pos + k + 5 = pos + 5 + k by omega, ← List.drop_drop, h.rest,
    List.drop_append_of_le_length (by rw [List.length_drop]; omega),
    List.drop_drop]

/-- Clearing inside an attribute leaves what is behind it. -/
theorem Copied.clear (h : Copied attr extra buffer pos) {k : Nat}
    (hk : pos + (4 + k) ≤ attr.length) :
    Copied attr extra
      (overlay buffer (pos + 5 + 4) (List.replicate k 0))
      (pos + (4 + k)) := by
  have hlen := h.length
  have hin : pos + 5 + 4 + (List.replicate k (0 : UInt8)).length
      ≤ buffer.length := by
    rw [List.length_replicate]
    omega
  refine ⟨(overlay_length hin).trans hlen, ?_⟩
  rw [drop_overlay (by rw [List.length_replicate]; omega) hin]
  exact (h.advance hk).rest

/-- A step of the checker over an attribute of the packet. -/
theorem checkmac_step (h : Copied attr extra buffer pos)
    (hpos : pos + 2 ≤ attr.length) :
    checkmacLoop (attr.length + 5) (fuel + 1) buffer (pos + 5) seen touched
      = if (attr.getD pos 0).toNat = pwEapSimMac then
          if wordsAt attr pos < 5 then
            .ok ⟨false, buffer, seen ++ [pos + 5],
              touched ++ [(pos + 5, 2)]⟩
          else if buffer.length < pos + 5 + 4 + (wordsAt attr pos - 1) * 4
          then throw .overwrite
          else
            checkmacLoop (attr.length + 5) fuel
              (overlay buffer (pos + 5 + 4)
                (List.replicate ((wordsAt attr pos - 1) * 4) 0))
              (pos + 5 + wordsAt attr pos * 4) (seen ++ [pos + 5])
              (touched ++ [(pos + 5, 2)]
                ++ [(pos + 5 + 4, (wordsAt attr pos - 1) * 4)])
        else
          checkmacLoop (attr.length + 5) fuel buffer
            (pos + 5 + wordsAt attr pos * 4) (seen ++ [pos + 5])
            (touched ++ [(pos + 5, 2)]) := by
  have hlen := h.length
  rw [checkmacLoop, if_neg (by omega), fetch_getD (by omega), ok_bind,
    show ((pos + 5 : Nat) : Int) + 1 = ((pos + 1 + 5 : Nat) : Int) by omega,
    fetch_getD (by omega), ok_bind, h.getD (by omega) (by omega),
    h.getD (by omega) (by omega)]
  rfl

theorem grown {l : List Nat} (hl : bs = seen ++ [pos] ++ l) :
    ∃ l, bs = seen ++ l ∧ ∀ b, l.head? = some b → b = pos := by
  refine ⟨pos :: l, by rw [hl, List.append_assoc]; rfl, ?_⟩
  intro b hb
  exact (Option.some.inj hb).symm

/-- The checker's list of boundaries grows at its end, first with the
offset it stands at. -/
theorem checkmac_boundaries {walk : MacWalk}
    (h : checkmacLoop elen fuel buffer pos seen touched = .ok walk) :
    ∃ l, walk.boundaries = seen ++ l
      ∧ ∀ b, l.head? = some b → b = pos := by
  induction fuel generalizing buffer pos seen touched with
  | zero => cases h
  | succ fuel ih =>
      rw [checkmacLoop] at h
      split at h
      next =>
        cases h
        refine ⟨[], (List.append_nil _).symm, ?_⟩
        intro b hb
        cases hb
      next =>
      obtain ⟨type, -, h⟩ := bind_eq_ok.mp h
      obtain ⟨words, -, h⟩ := bind_eq_ok.mp h
      dsimp only at h
      split at h
      next =>
        split at h
        next =>
          cases h
          exact grown (List.append_nil _).symm
        next =>
          split at h
          next => cases h
          next =>
            obtain ⟨l, hl, -⟩ := ih h
            exact grown hl
      next =>
        obtain ⟨l, hl, -⟩ := ih h
        exact grown hl

-- ======== agreement

/-- The checker goes through the decoder's boundaries, up to the first
AT_MAC that is too short, and touches nothing behind the packet. -/
def Agrees (attr : List UInt8) (seen : List Nat)
    (touched : List (Nat × Nat)) (l : List Nat) (run : Mem MacWalk) :
    Prop :=
  ∃ walk, run = .ok walk
    ∧ walk.boundaries
      = seen ++ (upToFirst (shortMac attr) l).map (· + 5)
    ∧ ∀ r ∈ walk.touched, r ∈ touched ∨ r.1 + r.2 ≤ attr.length + 5

/-- One boundary more on either side, and ranges inside the packet. -/
theorem agrees_cons {l done : List Nat} {more : List (Nat × Nat)}
    {run : Mem MacWalk} (hstop : shortMac attr pos = false)
    (hmore : ∀ r ∈ more, r.1 + r.2 ≤ attr.length + 5) :
    Agrees attr (done ++ [pos + 5]) (touched ++ more) l run
      ↔ Agrees attr done touched (pos :: l) run := by
  unfold Agrees
  simp only [upToFirst, hstop, Bool.false_eq_true, if_false,
    List.map_cons, List.append_assoc, List.singleton_append]
  constructor
  · intro hagree
    obtain ⟨walk, hrun, hb, ht⟩ := hagree
    refine ⟨walk, hrun, hb, ?_⟩
    intro r hr
    rcases ht r hr with h | h
    · rcases List.mem_append.mp h with h | h
      · exact Or.inl h
      · exact Or.inr (hmore r h)
    · exact Or.inr h
  · intro hagree
    obtain ⟨walk, hrun, hb, ht⟩ := hagree
    refine ⟨walk, hrun, hb, ?_⟩
    intro r hr
    exact (ht r hr).imp_left (List.mem_append_left more)

/-- Behind an attribute of 64 words or more the checker is at none of the
decoder's boundaries. -/
theorem not_agrees_of_long {l done : List Nat} {next : Nat}
    {more : List (Nat × Nat)}
    (hlong : 64 ≤ wordsAt attr pos) (hstop : shortMac attr pos = false)
    (hl : l.head? = some next) (hnext : next < pos + 256) :
    ¬ Agrees attr done touched (pos :: l)
        (checkmacLoop elen fuel buffer (pos + 5 + wordsAt attr pos * 4)
          (done ++ [pos + 5]) more) := by
  intro ⟨walk, hrun, hb, _⟩
  obtain ⟨l', hl', hhead⟩ := checkmac_boundaries hrun
  obtain ⟨rest, rfl⟩ : ∃ rest, l = next :: rest := by
    cases l with
    | nil => cases hl
    | cons b rest =>
        cases hl
        exact ⟨rest, rfl⟩
  rw [hl', upToFirst, hstop] at hb
  simp only [Bool.false_eq_true, if_false, List.map_cons,
    List.append_assoc, List.singleton_append, List.append_cancel_left_eq,
    List.cons.injEq, true_and] at hb
  have hfirst : l'.head? = some (next + 5) := by
    rw [hb, upToFirst]
    split <;> rfl
  have := hhead _ hfirst
  omega

/-- The two walks agree exactly when every attribute up to there has
fewer than 64 words. -/
theorem walks_agree_iff {l : List Nat} {done : List Nat}
    (hrun : unmapLoop cfg attr fuel pos n vps seen
      = .ok ⟨true, vps', seen ++ l⟩)
    (hpos : pos + n = attr.length) (hcopy : Copied attr extra buffer pos)
    (hfuel : n < fuel') :
    Agrees attr done touched l (checkmacLoop (attr.length + 5) fuel' buffer
        (pos + 5) done touched)
      ↔ ∀ b ∈ upToFirst (shortMac attr) l, wordsAt attr b < 64 := by
  induction fuel generalizing pos n vps seen l done touched buffer fuel' with
  | zero => cases hrun
  | succ fuel ih =>
      obtain ⟨fuel', rfl⟩ : ∃ k, fuel' = k + 1 := ⟨fuel' - 1, by omega⟩
      by_cases hn : n = 0
      · -- both walks are at the end
        rw [unmapLoop, if_pos hn] at hrun
        simp only [Except.ok.injEq, Unmapped.mk.injEq, true_and] at hrun
        have hl : l = [] := List.self_eq_append_right.mp hrun.2
        subst hl
        apply iff_of_true
        · refine ⟨⟨true, buffer, done, touched⟩, ?_, ?_, ?_⟩
          · rw [checkmacLoop, if_pos (by omega)]
          · exact (List.append_nil _).symm
          · intro r hr
            exact Or.inl hr
        · intro b hb
          cases hb
      · obtain ⟨hn2, hw1, hwn, vp, -, hnext⟩ := unmap_step hrun hn hpos
        have hmax : maxStringLen = 254 := rfl
        obtain ⟨l', hl', hl0, hlhead⟩ := unmap_boundaries hnext (by omega)
        have hl : l = pos :: l' := by
          rw [List.append_assoc] at hl'
          exact List.append_cancel_left hl'
        subst hl
        rw [checkmac_step hcopy (by omega)]
        cases hstop : shortMac attr pos with
        | true =>
            obtain ⟨hmac, hshort⟩ := of_decide_eq_true hstop
            rw [if_pos hmac, if_pos hshort]
            apply iff_of_true
            · refine ⟨_, rfl, ?_, ?_⟩
              · rw [upToFirst, if_pos hstop]
                rfl
              · intro r hr
                rcases List.mem_append.mp hr with hr | hr
                · exact Or.inl hr
                · rw [List.mem_singleton.mp hr]
                  exact Or.inr (by simp only; omega)
            · intro b hb
              rw [upToFirst, if_pos hstop, List.mem_singleton] at hb
              rw [hb]
              omega
        | false =>
            have hmac : (attr.getD pos 0).toNat = pwEapSimMac →
                5 ≤ wordsAt attr pos := by
              intro hmac
              have := of_decide_eq_false hstop
              omega
            rcases Nat.lt_or_ge (wordsAt attr pos) 64 with hshort | hlong
            · have hmin : min (wordsAt attr pos * 4) maxStringLen
                  = wordsAt attr pos * 4 := by omega
              have hnxt : pos + 5 + wordsAt attr pos * 4
                  = pos + wordsAt attr pos * 4 + 5 := by omega
              have hgoal : (∀ b ∈ upToFirst (shortMac attr) (pos :: l'),
                    wordsAt attr b < 64)
                  ↔ ∀ b ∈ upToFirst (shortMac attr) l',
                    wordsAt attr b < 64 := by
                rw [upToFirst, hstop]
                simp only [Bool.false_eq_true, if_false,
                  List.forall_mem_cons, hshort, true_and]
              have hfuel' : n - wordsAt attr pos * 4 < fuel' := by omega
              rw [hmin, hl'] at hnext
              rw [hgoal, hnxt]
              split
              next hm =>
                have h5 := hmac hm
                have hlen := hcopy.length
                have hk : 4 + (wordsAt attr pos - 1) * 4
                    = wordsAt attr pos * 4 := by omega
                rw [if_neg (by omega), if_neg (by omega),
                  List.append_assoc touched, ← ih hnext (by omega)
                    (hk ▸ hcopy.clear (by omega)) hfuel']
                refine (agrees_cons hstop ?_).symm
                intro r hr
                rcases List.mem_cons.mp hr with rfl | hr
                · simp only
                  omega
                · rw [List.mem_singleton.mp hr]
                  simp only
                  omega
              next =>
                rw [← ih hnext (by omega) (hcopy.advance (by omega))
                  hfuel']
                refine (agrees_cons hstop ?_).symm
                intro r hr
                rw [List.mem_singleton.mp hr]
                simp only
                omega
            · have hmin : min (wordsAt attr pos * 4) maxStringLen = 254 := by
                omega
              rw [hmin] at hlhead
              apply iff_of_false
              · have hhead := hlhead (by omega)
                split
                next hm =>
                  have h5 := hmac hm
                  rw [if_neg (by omega)]
                  split
                  next =>
                    intro hagree
                    obtain ⟨walk, hrun, _⟩ := hagree
                    cases hrun
                  next => exact not_agrees_of_long hlong hstop hhead (by omega)
                next => exact not_agrees_of_long hlong hstop hhead (by omega)
              · intro hall
                have := hall pos (by rw [upToFirst]; simp [hstop])
                omega

-- ======== the packet

variable {e : List UInt8} {rvps : List ValuePair} {bounds : List Nat}

/-- Messages one after another, in the bytes of their lengths. -/
theorem flatMap_octets_length (vps : List ValuePair) :
    (vps.flatMap fun vp => vp.octets vp.length).length
      = (vps.map ValuePair.length).sum := by
  induction vps with
  | nil => rfl
  | cons vp vps ih =>
      rw [List.flatMap_cons, List.length_append, ih, List.map_cons,
        List.sum_cons, ValuePair.octets, padTake_length]

/-- The header lies in the first message. -/
theorem first_bytes {first : ValuePair} {rest : List ValuePair}
    (h4 : 4 ≤ first.length) {i : Nat} (hi : i < 4) :
    ((first :: rest).flatMap fun vp => vp.octets vp.length).getD i 0
      = (first.octets 4).getD i 0 := by
  rw [List.flatMap_cons, List.getD_eq_getElem?_getD,
    List.getElem?_append_left (by
      rw [ValuePair.octets, padTake_length]
      omega),
    ValuePair.octets, ValuePair.octets, padTake_take h4,
    List.getD_eq_getElem?_getD, List.getElem?_take, if_pos hi]

theorem eapLength_eq (h : 4 ≤ e.length) :
    eapLength e
      = .ok ((e.getD 2 0).toNat * 256 + (e.getD 3 0).toNat) := by
  rw [eapLength, show (2 : Int) = ((2 : Nat) : Int) by rfl,
    fetch_getD (by omega), ok_bind,
    show (3 : Int) = ((3 : Nat) : Int) by rfl, fetch_getD (by omega),
    ok_bind]

/-- A packet put together has the length its header says. -/
theorem eapVp2packet_length (h : eapVp2packet vps = some e) :
    4 ≤ e.length ∧ eapLength e = .ok e.length := by
  unfold eapVp2packet at h
  cases hfirst : pairfind vps pwEapMessage with
  | none =>
      rw [hfirst] at h
      cases h
  | some first =>
      rw [hfirst] at h
      dsimp only at h
      split at h
      next => cases h
      next h4 =>
      split at h
      next => cases h
      next hlen =>
      split at h
      next => cases h
      next htotal =>
      rw [not_not] at htotal
      cases h
      have hl := flatMap_octets_length
        (vps.filter fun vp => vp.attr == pwEapMessage)
      obtain ⟨rest, hrest⟩ : ∃ rest,
          (vps.filter fun vp => vp.attr == pwEapMessage)
            = first :: rest := by
        apply List.head?_eq_some_iff.mp
        rw [List.head?_filter]
        exact hfirst
      refine ⟨by omega, ?_⟩
      rw [eapLength_eq (by omega), hl, htotal, hrest,
        first_bytes (by omega) (by omega),
        first_bytes (by omega) (by omega)]

/-- The decoder adds pairs, none of them an EAP-Message. -/
theorem unmapLoop_vps
    (h : unmapLoop cfg attr fuel pos n vps seen = .ok ⟨true, vps', bs⟩)
    (hpos : pos + n = attr.length) :
    ∃ new : List ValuePair, vps' = vps ++ new
      ∧ ∀ vp ∈ new, vp.attr ≠ pwEapMessage := by
  induction fuel generalizing pos n vps seen with
  | zero => cases h
  | succ fuel ih =>
      by_cases hn : n = 0
      · rw [unmapLoop, if_pos hn] at h
        cases h
        refine ⟨[], (List.append_nil _).symm, ?_⟩
        intro vp hvp
        cases hvp
      · obtain ⟨-, -, hle, vp, hattr, hnext⟩ := unmap_step h hn hpos
        obtain ⟨new, hnew, hall⟩ := ih hnext (by omega)
        refine ⟨vp :: new, ?_, List.forall_mem_cons.mpr ⟨?_, hall⟩⟩
        · rw [hnew, List.append_assoc]
          rfl
        · rw [hattr.number, attributeEapSimBase, pwEapMessage]
          omega

/-- Other pairs behind them do not change the EAP-Messages. -/
theorem eapVp2packet_append {new : List ValuePair}
    (h : eapVp2packet vps = some e)
    (hnew : ∀ vp ∈ new, vp.attr ≠ pwEapMessage) :
    eapVp2packet (vps ++ new) = some e := by
  have hfilter : (vps ++ new).filter (fun vp => vp.attr == pwEapMessage)
      = vps.filter fun vp => vp.attr == pwEapMessage := by
    have hnil : new.filter (fun vp => vp.attr == pwEapMessage) = [] := by
      rw [List.filter_eq_nil_iff]
      intro vp hvp heq
      exact hnew vp hvp (by simpa using heq)
    rw [List.filter_append, hnil, List.append_nil]
  have hfind : pairfind (vps ++ new) pwEapMessage
      = pairfind vps pwEapMessage := by
    rw [pairfind, pairfind, ← List.head?_filter, hfilter,
      List.head?_filter]
  rw [← h, eapVp2packet, eapVp2packet, hfind, hfilter]

/-- A copy of the packet, and the attributes behind its first eight
bytes. -/
theorem copied_packet (h8 : 8 ≤ e.length) :
    Copied (e.drop 5) extra (e ++ extra) 3 := by
  refine ⟨?_, ?_⟩
  · rw [List.length_append, List.length_drop]
    omega
  · rw [List.drop_append_of_le_length h8, List.drop_drop]

/-- There is an AT_MAC pair the checker takes. -/
def hasMac (rvps : List ValuePair) : Bool :=
  (pairfind rvps (attributeEapSimBase + pwEapSimMac)).any
    fun mac : ValuePair => mac.length == 18

/-- The checker goes through the decoder's boundaries (offset by the five
bytes of header and type), up to the first AT_MAC that is too short, and
touches nothing behind the packet; it goes through nothing without an
AT_MAC pair. -/
def ChecksWithin (hmacSha1 : List UInt8 → List UInt8 → Sha1Digest)
    (e : List UInt8) (rvps : List ValuePair) (bounds : List Nat)
    (key extra : List UInt8) : Prop :=
  ∃ r, eapsimCheckmac hmacSha1 rvps key extra = .ok r
    ∧ r.boundaries = (if hasMac rvps then
        (upToFirst (shortMac (e.drop 5)) bounds).map (· + 5) else [])
    ∧ ∀ t ∈ r.touched, t.1 + t.2 ≤ e.length

/-- For a packet that `unmap_eapsim_basictypes` accepts, the walk of
`eapsim_checkmac` ends, stays inside the packet and sees the decoder's
boundaries exactly when every attribute on the way has a length byte
below 64. -/
theorem checkmac_within_iff
    (hmacSha1 : List UInt8 → List UInt8 → Sha1Digest)
    (key extra : List UInt8) (he : eapVp2packet vps = some e)
    (hun : unmapEapsimBasictypes cfg vps (e.drop 5)
      = .ok ⟨true, rvps, bounds⟩) :
    ChecksWithin hmacSha1 e rvps bounds key extra
      ↔ (hasMac rvps = true →
        ∀ b ∈ upToFirst (shortMac (e.drop 5)) bounds,
          wordsAt (e.drop 5) b < 64) := by
  unfold unmapEapsimBasictypes at hun
  split at hun
  next => cases hun
  next h5 =>
  split at hun
  next => cases hun
  next vp hvp =>
  obtain ⟨subtype, -, hun⟩ := bind_eq_ok.mp hun
  have hattr : vp.attr = attributeEapSimSubtype := paircreate_attr hvp
  have hdrop : (e.drop 5).length = e.length - 5 := List.length_drop
  obtain ⟨new, hnew, hall⟩ := unmapLoop_vps hun (by omega)
  have hrvps : eapVp2packet rvps = some e := by
    rw [hnew, List.append_assoc]
    apply eapVp2packet_append he
    rw [List.singleton_append, List.forall_mem_cons]
    refine ⟨?_, hall⟩
    change vp.attr ≠ _
    rw [hattr]
    decide
  obtain ⟨-, helen⟩ := eapVp2packet_length he
  unfold ChecksWithin eapsimCheckmac hasMac
  cases hmac : pairfind rvps (attributeEapSimBase + pwEapSimMac) with
  | none =>
      apply iff_of_true
      · refine ⟨_, rfl, rfl, ?_⟩
        intro t ht
        cases ht
      · intro hno
        cases hno
  | some mac =>
      simp only [Option.any_some, beq_iff_eq]
      split
      next h18 =>
        apply iff_of_true
        · refine ⟨_, rfl, rfl, ?_⟩
          intro t ht
          cases ht
        · intro hyes
          exact absurd hyes h18
      next h18 =>
        rw [not_not] at h18
        have hcopy : Copied (e.drop 5) extra (e ++ extra) 3 :=
          copied_packet (by omega)
        have hfuel : (e.drop 5).length - 3 < e.length + 1 := by omega
        have hmain : Agrees (e.drop 5) [] [] bounds
            (checkmacLoop ((e.drop 5).length + 5) (e.length + 1)
              (e ++ extra) (3 + 5) [] [])
            ↔ ∀ b ∈ upToFirst (shortMac (e.drop 5)) bounds,
              wordsAt (e.drop 5) b < 64 :=
          walks_agree_iff hun (by omega) hcopy hfuel
        rw [hdrop, show e.length - 5 + 5 = e.length by omega] at hmain
        rw [hrvps, if_pos h18]
        dsimp only
        rw [helen, ok_bind, fetchN_all, ok_bind]
        rw [imp_iff_right h18, ← hmain]
        constructor
        · intro ⟨r, hr, hb, ht⟩
          obtain ⟨walk, hwalk, hr⟩ := bind_eq_ok.mp hr
          refine ⟨walk, hwalk, ?_, ?_⟩
          · rw [List.nil_append, ← hb]
            split at hr <;> cases hr <;> rfl
          · intro t htt
            refine Or.inr ?_
            rw [hdrop, Nat.sub_add_cancel (by omega)]
            apply ht t
            split at hr <;> cases hr <;> exact htt
        · intro ⟨walk, hwalk, hb, ht⟩
          have htouched : ∀ t ∈ walk.touched, t.1 + t.2 ≤ e.length := by
            intro t htt
            rcases ht t htt with hno | hle
            · cases hno
            · omega
          rw [hwalk, ok_bind]
          split
          · exact ⟨_, rfl, hb, htouched⟩
          · exact ⟨_, rfl, hb, htouched⟩

/-- SHA-1 without a key, as far as these runs need one. -/
def zeroDigest (_ _ : List UInt8) : Sha1Digest :=
  ⟨List.replicate 20 0, by decide⟩

/-- An EAP-Message pair. -/
def eapMessagePair (bytes : List UInt8) : ValuePair :=
  { attr := pwEapMessage, type := .octets, length := bytes.length
    data := bytes }

/-- A response with an AT_MAC and an attribute of 64 words. The decoder
goes on two bytes before its end, where the length byte is 1; the checker
goes on behind it, where type and length are 0. -/
def longAttribute : List UInt8 :=
  [2, 7, 1, 30, 18, 10, 0, 0] ++ (11 :: 5 :: List.replicate 18 0)
    ++ (1 :: 64 :: List.replicate 252 0) ++ [1, 1, 0, 0]

def longMessages : List ValuePair :=
  [eapMessagePair (longAttribute.take 253),
   eapMessagePair (longAttribute.drop 253)]

/-- The pairs of the messages once decoded. -/
def longDecoded : List ValuePair :=
  match unmapEapsimBasictypes bareConfig longMessages
      (longAttribute.drop 5) with
  | .ok u => u.vps
  | .error _ => []

/-- Not every accepted packet is walked over: the checker goes on for
ever over a length byte of 0 that the decoder never looked at. -/
theorem checkmac_endless :
    ¬ ∀ (hmacSha1 : List UInt8 → List UInt8 → Sha1Digest) (cfg : Config)
        (vps rvps : List ValuePair) (e key extra : List UInt8)
        (bounds : List Nat), eapVp2packet vps = some e →
      unmapEapsimBasictypes cfg vps (e.drop 5) = .ok ⟨true, rvps, bounds⟩ →
      ∃ r, eapsimCheckmac hmacSha1 rvps key extra = .ok r := by
  intro h
  have he : eapVp2packet longMessages = some longAttribute := by
    decide +kernel
  have hun : unmapEapsimBasictypes bareConfig longMessages
      (longAttribute.drop 5) = .ok ⟨true, longDecoded, [3, 23, 277]⟩ := by
    decide +kernel
  have hrun : eapsimCheckmac zeroDigest longDecoded [] []
      = .error .hang := by
    decide +kernel
  obtain ⟨r, hr⟩ := h zeroDigest bareConfig longMessages longDecoded
    longAttribute [] [] [3, 23, 277] he hun
  rw [hrun] at hr
  cases hr

/-- A response with an AT_MAC and a short attribute. -/
def shortAttributes : List UInt8 :=
  [2, 7, 0, 32, 18, 10, 0, 0] ++ (11 :: 5 :: List.replicate 18 0)
    ++ [1, 1, 0, 0]

def shortDecoded : List ValuePair :=
  match unmapEapsimBasictypes bareConfig [eapMessagePair shortAttributes]
      (shortAttributes.drop 5) with
  | .ok u => u.vps
  | .error _ => []

/-- A packet whose walks agree, at offsets 8 and 28. -/
theorem checkmac_within_short :
    ChecksWithin zeroDigest shortAttributes shortDecoded [3, 23]
      (List.replicate 16 0) [] := by
  have he : eapVp2packet [eapMessagePair shortAttributes]
      = some shortAttributes := by
    decide
  have hun : unmapEapsimBasictypes bareConfig
      [eapMessagePair shortAttributes] (shortAttributes.drop 5)
      = .ok ⟨true, shortDecoded, [3, 23]⟩ := by
    decide
  have hshort : ∀ b ∈ upToFirst (shortMac (shortAttributes.drop 5)) [3, 23],
      wordsAt (shortAttributes.drop 5) b < 64 := by
    decide
  exact (checkmac_within_iff zeroDigest (List.replicate 16 0) [] he hun).mpr
    fun _ => hshort

end WinRadius
