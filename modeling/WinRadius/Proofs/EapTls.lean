/-
A TLS message in fragments.

A message comes apart into a list of fragments (`Fragmented`): all but the
last have the M flag, and the bytes behind flags and length are the
message's. `eaptls_request`, called until nothing is left, makes such a
list (`eaptlsFragments_fragmented`), and `eaptls_process` makes the message
of it again (`receive_fragmented`); neither needs to know of the other.
-/
import WinRadius.Model.EapTls

namespace WinRadius

open Lib

variable {peap : UInt8} {more included : Bool} {total : Nat}
  {bytes message : List UInt8} {frags : List (List UInt8)}

-- ======== flags

/-- The flags of a fragment. -/
def fragmentFlags (peap : UInt8) (more included : Bool) : UInt8 :=
  let flags := if more then setMoreFragments peap else peap
  if included then setLengthIncluded flags else flags

/-- The type data of a fragment. -/
def fragmentData (peap : UInt8) (more included : Bool) (total : Nat)
    (bytes : List UInt8) : List UInt8 :=
  fragmentFlags peap more included
    :: ((if included then be32 (UInt32.ofNat total) else []) ++ bytes)

/-- The version bits of PEAP leave the flags alone. -/
theorem fragmentFlags_read (hpeap : peap.toNat < 32)
    (more included : Bool) :
    tlsStart (fragmentFlags peap more included) = false
      ∧ tlsMoreFragments (fragmentFlags peap more included) = more
      ∧ tlsLengthIncluded (fragmentFlags peap more included) = included
      ∧ (fragmentFlags peap more included &&& 0xc0 = 0
        ↔ more = false ∧ included = false) := by
  have hall : ∀ n : Fin 32, ∀ more included : Bool,
      tlsStart (fragmentFlags (UInt8.ofNat n) more included) = false
        ∧ tlsMoreFragments (fragmentFlags (UInt8.ofNat n) more included)
          = more
        ∧ tlsLengthIncluded (fragmentFlags (UInt8.ofNat n) more included)
          = included
        ∧ (fragmentFlags (UInt8.ofNat n) more included &&& 0xc0 = 0
          ↔ more = false ∧ included = false) := by
    decide
  have h := hall ⟨peap.toNat, hpeap⟩ more included
  rwa [UInt8.ofNat_toNat] at h

-- ======== fragments

/-- A message in fragments; `total` is the length they tell, those that
tell one. Only a fragment that tells the length may have no bytes. -/
inductive Fragmented (peap : UInt8) (total : Nat) :
    List UInt8 → List (List UInt8) → Prop where
  | last {bytes : List UInt8} {included : Bool}
      (h : bytes ≠ [] ∨ included = true) :
      Fragmented peap total bytes
        [fragmentData peap false included total bytes]
  | more {bytes message : List UInt8} {included : Bool}
      {frags : List (List UInt8)} (h : Fragmented peap total message frags) :
      Fragmented peap total (bytes ++ message)
        (fragmentData peap true included total bytes :: frags)

namespace Fragmented

theorem ne_nil (h : Fragmented peap total message frags) : frags ≠ [] := by
  cases h with
  | last _ => exact List.cons_ne_nil _ _
  | more _ => exact List.cons_ne_nil _ _

/-- The M flag of a fragment's type data. -/
def flaggedMore (data : List UInt8) : Bool :=
  data.head?.any tlsMoreFragments

/-- Exactly the last fragment is without the M flag. -/
theorem flags (hpeap : peap.toNat < 32)
    (h : Fragmented peap total message frags) :
    ∃ n, frags.map flaggedMore = List.replicate n true ++ [false] := by
  induction h with
  | @last bytes included _ =>
      refine ⟨0, ?_⟩
      have hread := fragmentFlags_read hpeap false included
      simp only [List.map_cons, List.map_nil, flaggedMore, fragmentData,
        List.head?_cons, Option.any_some, hread.2.1]
      rfl
  | @more bytes message included frags h ih =>
      obtain ⟨n, hn⟩ := ih
      refine ⟨n + 1, ?_⟩
      have hread := fragmentFlags_read hpeap true included
      rw [List.map_cons, hn]
      simp only [flaggedMore, fragmentData, List.head?_cons,
        Option.any_some, hread.2.1]
      rfl

end Fragmented

-- ======== the peer

variable {prev : Option EapDs} {r : TlsResponse} {ssn : TlsSession}
  {rec : TlsRecord}

/-- There is room for all of it. -/
theorem recordPlus_fits
    (h : rec.bytes.length + bytes.length ≤ maxRecordSize) :
    (recordPlus rec bytes).1 = bytes.length
      ∧ (recordPlus rec bytes).2.bytes = rec.bytes ++ bytes := by
  have hadded : min (maxRecordSize - rec.bytes.length) bytes.length
      = bytes.length := by omega
  refine ⟨hadded, ?_⟩
  change rec.bytes ++ bytes.take _ = _
  rw [hadded, List.take_length]

/-- What a fragment is taken for. -/
def fragmentStatus (prev : Option EapDs) (more included : Bool) :
    EaptlsStatus :=
  if included then
    if more then
      if (prevFlags prev).any tlsMoreFragments then .moreFragmentsWithLength
      else .firstFragment
    else .lengthIncluded
  else if more then .moreFragments
  else .ok

theorem fragmentStatus_more :
    fragmentStatus prev true included = .moreFragments
      ∨ fragmentStatus prev true included = .moreFragmentsWithLength
      ∨ fragmentStatus prev true included = .firstFragment := by
  unfold fragmentStatus
  cases included with
  | false => exact Or.inl rfl
  | true =>
      cases (prevFlags prev).any tlsMoreFragments with
      | false => exact Or.inr (Or.inr rfl)
      | true => exact Or.inr (Or.inl rfl)

theorem fragmentStatus_last :
    fragmentStatus prev false included = .lengthIncluded
      ∨ fragmentStatus prev false included = .ok := by
  cases included with
  | false => exact Or.inr rfl
  | true => exact Or.inl rfl

/-- A fragment with a flag or with bytes is no acknowledgement. -/
theorem verify_fragment (hpeap : peap.toNat < 32)
    (hr : r.data = fragmentData peap more included total bytes)
    (hsome : more = true ∨ included = true ∨ bytes ≠ []) :
    eaptlsVerify prev r ssn = (fragmentStatus prev more included, ssn) := by
  obtain ⟨hstart, hmore, hincluded, hnone⟩ :=
    fragmentFlags_read hpeap more included
  have hack : ¬ (r.length = 4 + 2
      ∧ fragmentFlags peap more included &&& 0xc0 = 0) := by
    intro ⟨hlen, hflags⟩
    obtain ⟨rfl, rfl⟩ := hnone.mp hflags
    rcases hsome with h | h | h
    · cases h
    · cases h
    · rw [TlsResponse.length, hr, fragmentData, List.length_cons] at hlen
      apply h
      apply List.length_eq_zero_iff.mp
      simp only [Bool.false_eq_true, if_false, List.nil_append] at hlen
      omega
  unfold eaptlsVerify fragmentStatus
  rw [hr]
  unfold fragmentData
  dsimp only
  rw [if_neg hack, hstart, hmore, hincluded]
  cases included <;> cases more <;> simp only [Bool.false_eq_true,
    if_false, if_true]
  split <;> rfl

theorem lengthBehind_eq {n : Nat} (h : r.data.length = 5 + n)
    (hn : n ≤ maxRecordSize) : lengthBehind r = n := by
  have hmax : maxRecordSize = 16384 := rfl
  have h5 : (5 : UInt32).toNat = 5 := rfl
  rw [lengthBehind, h, UInt32.toNat_sub_of_le]
  · rw [UInt32.toNat_ofNat', h5]
    omega
  · rw [UInt32.le_iff_toNat_le, UInt32.toNat_ofNat', h5]
    omega

/-- A length that is told is read back. -/
theorem told_length (h : total ≤ maxRecordSize) :
    (ofBe32 (be32 (UInt32.ofNat total))).toNat = total := by
  have hmax : maxRecordSize = 16384 := rfl
  rw [ofBe32_be32, UInt32.toNat_ofNat']
  omega

/-- The bytes behind the flags and the length. -/
theorem extract_fragment (hpeap : peap.toNat < 32)
    (hr : r.data = fragmentData peap more included total bytes)
    (htotal : bytes.length ≤ total) (hmax : total ≤ maxRecordSize) :
    eaptlsExtract (fragmentStatus prev more included) r
      = .ok (some bytes) := by
  have hread := (fragmentFlags_read hpeap more included).2.2.1
  have hflags : fetch r.data 0
      = .ok (fragmentFlags peap more included) := by
    rw [hr]
    rfl
  have hvalid : fragmentStatus prev more included ≠ .invalid := by
    unfold fragmentStatus
    cases (prevFlags prev).any tlsMoreFragments <;> cases included
      <;> cases more <;> decide
  unfold eaptlsExtract
  rw [if_neg hvalid, hflags, ok_bind, hread]
  cases hinc : included with
  | false =>
      subst hinc
      have hdrop : r.data.drop 1 = bytes := by
        rw [hr]
        rfl
      simp only [Bool.false_eq_true, if_false, false_and, fragmentStatus,
        hdrop]
      rw [pure_eq_ok, ok_bind, if_neg (Nat.not_lt_zero _)]
      cases more <;> rfl
  | true =>
      subst hinc
      have hdata : r.data
          = [fragmentFlags peap more true]
            ++ (be32 (UInt32.ofNat total) ++ bytes) := hr
      have hfield : fetchN r.data 1 4 = .ok (be32 (UInt32.ofNat total)) := by
        rw [hdata]
        exact fetchN_append rfl rfl
      have hlen : r.data.length = 5 + bytes.length := by
        rw [hdata]
        simp only [List.length_append, List.length_cons, List.length_nil,
          be32_length]
        omega
      have hbytes : fetchN r.data 5 (bytes.length : Nat) = .ok bytes := by
        have hsplit : r.data = ([fragmentFlags peap more true]
            ++ be32 (UInt32.ofNat total)) ++ (bytes ++ []) := by
          rw [hdata, List.append_nil, List.append_assoc]
        rw [hsplit]
        exact fetchN_append rfl rfl
      have hlong : ¬ r.length - 1 < 5 := by
        rw [TlsResponse.length]
        omega
      simp only [true_and, if_true, hlong, if_false, fragmentStatus]
      rw [hfield, ok_bind, pure_eq_ok, ok_bind, told_length hmax,
        if_neg (Nat.not_lt.mpr hmax)]
      have htail : (do
          let field ← Except.ok (be32 (UInt32.ofNat total))
          let data ← fetchN r.data 5
            (min (ofBe32 field).toNat (lengthBehind r) : Nat)
          pure (some data) : Mem (Option (List UInt8))) = .ok (some bytes) := by
        rw [ok_bind, told_length hmax, lengthBehind_eq hlen (by omega),
          Nat.min_eq_right htotal, hbytes, ok_bind, pure_eq_ok]
      cases more with
      | false => exact htail
      | true =>
          rw [if_pos rfl]
          cases (prevFlags prev).any tlsMoreFragments with
          | false => exact htail
          | true => exact htail

/-- A fragment is acknowledged, or completes the record. -/
theorem process_fragment (hpeap : peap.toNat < 32)
    (hr : r.data = fragmentData peap more included total bytes)
    (hsome : more = true ∨ included = true ∨ bytes ≠ [])
    (htotal : bytes.length ≤ total) (hmax : total ≤ maxRecordSize)
    (hroom : ssn.dirtyIn.bytes.length + bytes.length ≤ maxRecordSize) :
    eaptlsProcess prev r ssn
      = .ok (if more then
          (.ack, { ssn with dirtyIn := (recordPlus ssn.dirtyIn bytes).2 })
        else (.deliver (ssn.dirtyIn.bytes ++ bytes),
          { ssn with dirtyIn := recordInit })) := by
  obtain ⟨hadded, hbytes⟩ := recordPlus_fits hroom
  have hextract : eaptlsExtract (fragmentStatus prev more included) r
      = .ok (some bytes) :=
    extract_fragment hpeap hr htotal hmax
  have hplus : recordPlus ssn.dirtyIn bytes
      = (bytes.length, (recordPlus ssn.dirtyIn bytes).2) := by
    rw [← hadded]
  rw [eaptlsProcess, verify_fragment hpeap hr hsome]
  dsimp only
  cases more with
  | true =>
      have hst : fragmentStatus prev true included = .moreFragments
          ∨ fragmentStatus prev true included = .moreFragmentsWithLength
          ∨ fragmentStatus prev true included = .firstFragment :=
        fragmentStatus_more
      generalize fragmentStatus prev true included = status at hst hextract
      rcases hst with rfl | rfl | rfl
      all_goals
        dsimp only
        rw [hextract, ok_bind]
        dsimp only
        rw [hplus]
        simp
  | false =>
      have hst : fragmentStatus prev false included = .lengthIncluded
          ∨ fragmentStatus prev false included = .ok := fragmentStatus_last
      generalize fragmentStatus prev false included = status at hst hextract
      rcases hst with rfl | rfl
      all_goals
        dsimp only
        rw [hextract, ok_bind]
        dsimp only
        rw [hplus]
        simp [hbytes]

/-- The fragments of a message: each but the last is acknowledged, and
with the last the whole message is handed on. -/
theorem receive_fragmented (hpeap : peap.toNat < 32)
    (h : Fragmented peap total message frags)
    (htotal : message.length ≤ total) (hmax : total ≤ maxRecordSize)
    (hroom : ssn.dirtyIn.bytes.length + message.length ≤ maxRecordSize)
    {rs : List TlsResponse} (hrs : rs.map TlsResponse.data = frags) :
    eaptlsReceive prev rs ssn
      = .ok (List.replicate (frags.length - 1) .ack
            ++ [.deliver (ssn.dirtyIn.bytes ++ message)],
          { ssn with dirtyIn := recordInit }) := by
  induction h generalizing rs prev ssn with
  | @last bytes included hsome =>
      obtain ⟨r, rest, rfl, hr, hrest⟩ := List.map_eq_cons_iff.mp hrs
      obtain rfl := List.map_eq_nil_iff.mp hrest
      have hcase : false = true ∨ included = true ∨ bytes ≠ [] := by
        rcases hsome with h | h
        · exact Or.inr (Or.inr h)
        · exact Or.inr (Or.inl h)
      rw [eaptlsReceive, process_fragment hpeap hr hcase htotal hmax hroom]
      rfl
  | @more bytes message included frags hmore ih =>
      obtain ⟨r, rest, rfl, hr, hrest⟩ := List.map_eq_cons_iff.mp hrs
      rw [List.length_append] at htotal hroom
      have hstep : eaptlsProcess prev r ssn
          = .ok (.ack,
            { ssn with dirtyIn := (recordPlus ssn.dirtyIn bytes).2 }) :=
        process_fragment hpeap hr (Or.inl rfl) (by omega) hmax (by omega)
      have hbytes : (recordPlus ssn.dirtyIn bytes).2.bytes
          = ssn.dirtyIn.bytes ++ bytes := (recordPlus_fits (by omega)).2
      have hrun := @ih (some (nextEapDs r))
        { ssn with dirtyIn := (recordPlus ssn.dirtyIn bytes).2 }
        (by omega) (by rw [hbytes, List.length_append]; omega) rest hrest
      obtain ⟨n, hn⟩ : ∃ n, frags.length = n + 1 :=
        Nat.exists_eq_succ_of_ne_zero fun h0 =>
          hmore.ne_nil (List.length_eq_zero_iff.mp h0)
      rw [eaptlsReceive, hstep, ok_bind]
      dsimp only
      rw [hrun, ok_bind, List.length_cons, hn, hbytes, List.append_assoc]
      rfl

-- ======== the server

variable {fuel : Nat}

/-- There is more to send than one fragment takes. -/
def TlsSession.hasMore (ssn : TlsSession) : Bool :=
  decide (ssn.offset < ssn.dirtyOut.bytes.length)

/-- The length of the message that is being sent. -/
def TlsSession.msgLen (ssn : TlsSession) : Nat :=
  if ssn.fragment then ssn.tlsMsgLen else ssn.dirtyOut.bytes.length

/-- How much of it a fragment takes. -/
def TlsSession.size (ssn : TlsSession) : Nat :=
  if ssn.hasMore then ssn.offset else ssn.dirtyOut.bytes.length

/-- The session when a fragment is sent. -/
def TlsSession.sent (ssn : TlsSession) : TlsSession :=
  { ssn with
    dirtyOut := (recordMinus ssn.dirtyOut ssn.size).2
    tlsMsgLen := ssn.msgLen
    fragment := ssn.hasMore }

theorem eaptlsRequest_eq (ssn : TlsSession) :
    eaptlsRequest ssn
      = (fragmentData ssn.peapFlag ssn.hasMore
          (ssn.lengthFlag || (ssn.hasMore && !ssn.fragment)) ssn.msgLen
          (ssn.dirtyOut.bytes.take ssn.size), ssn.sent) := by
  have htake : (recordMinus ssn.dirtyOut ssn.size).1
      = ssn.dirtyOut.bytes.take ssn.size := by
    unfold recordMinus
    exact List.take_eq_take_iff.mpr (by omega)
  rw [← htake]
  rfl

theorem sent_bytes (ssn : TlsSession) :
    ssn.sent.dirtyOut.bytes = ssn.dirtyOut.bytes.drop ssn.size := by
  have hle : ssn.size ≤ ssn.dirtyOut.bytes.length := by
    unfold TlsSession.size
    split
    next h => exact Nat.le_of_lt (of_decide_eq_true h)
    next => exact Nat.le_refl _
  change ssn.dirtyOut.bytes.drop (min _ _) = _
  rw [Nat.min_eq_right hle]

/-- What is sent is a message in fragments, and nothing of it is left. -/
theorem eaptlsFragments_fragmented (hoffset : 1 ≤ ssn.offset)
    (hsome : ssn.dirtyOut.bytes ≠ [] ∨ ssn.lengthFlag = true)
    (hfuel : ssn.dirtyOut.bytes.length < fuel) :
    Fragmented ssn.peapFlag ssn.msgLen ssn.dirtyOut.bytes
        (eaptlsFragments fuel ssn).1
      ∧ (eaptlsFragments fuel ssn).2.dirtyOut.bytes = []
      ∧ (eaptlsFragments fuel ssn).2.fragment = false := by
  induction fuel generalizing ssn with
  | zero => omega
  | succ fuel ih =>
      have hbytes := sent_bytes ssn
      rw [eaptlsFragments, eaptlsRequest_eq]
      dsimp only
      cases hmore : ssn.hasMore with
      | true =>
          have hlt := of_decide_eq_true hmore
          have hsize : ssn.size = ssn.offset := by
            rw [TlsSession.size, if_pos hmore]
          have hleft : ssn.sent.dirtyOut.bytes.length
              = ssn.dirtyOut.bytes.length - ssn.offset := by
            rw [hbytes, hsize, List.length_drop]
          have hne : ssn.sent.dirtyOut.bytes ≠ [] := by
            intro hnil
            rw [hnil, List.length_nil] at hleft
            omega
          have hlen : ssn.sent.msgLen = ssn.msgLen := if_pos hmore
          obtain ⟨hrest, hempty, hend⟩ := @ih ssn.sent hoffset (Or.inl hne)
            (by omega)
          rw [if_neg hne]
          refine ⟨?_, hempty, hend⟩
          rw [hlen, hbytes] at hrest
          have h := @Fragmented.more _ _ (ssn.dirtyOut.bytes.take ssn.size)
            _ (ssn.lengthFlag || (true && !ssn.fragment)) _ hrest
          rwa [List.take_append_drop] at h
      | false =>
          have hsize : ssn.size = ssn.dirtyOut.bytes.length := by
            rw [TlsSession.size, hmore]
            rfl
          have hempty : ssn.sent.dirtyOut.bytes = [] := by
            rw [hbytes, hsize, List.drop_length]
          rw [if_pos hempty]
          refine ⟨?_, hempty, hmore⟩
          rw [hsize, List.take_length]
          apply Fragmented.last
          rcases hsome with h | h
          · exact Or.inl h
          · rw [h]
            exact Or.inr rfl

/-- The first of several fragments tells the length. -/
theorem eaptlsFragments_first (hnew : ssn.fragment = false)
    (hseveral : 1 < (eaptlsFragments (fuel + 1) ssn).1.length) :
    ∃ bytes rest, (eaptlsFragments (fuel + 1) ssn).1
      = fragmentData ssn.peapFlag true true ssn.dirtyOut.bytes.length bytes
        :: rest := by
  have hbytes := sent_bytes ssn
  have hlen : ssn.msgLen = ssn.dirtyOut.bytes.length := by
    rw [TlsSession.msgLen, hnew]
    rfl
  rw [eaptlsFragments, eaptlsRequest_eq] at hseveral ⊢
  dsimp only at hseveral ⊢
  split at hseveral
  next => exact absurd hseveral (Nat.lt_irrefl 1)
  next hne =>
    have hmore : ssn.hasMore = true := by
      cases hmore : ssn.hasMore with
      | true => rfl
      | false =>
          exfalso
          apply hne
          rw [hbytes, TlsSession.size, hmore]
          exact List.drop_length
    rw [if_neg hne, hmore, hnew, hlen, Bool.not_false, Bool.and_true,
      Bool.or_true]
    exact ⟨_, _, rfl⟩

-- ======== messages

/-- A message that went through in fragments. -/
structure Rebuilt (snd rcv : TlsSession) (prev : Option EapDs)
    (frags : List (List UInt8)) (snd' : TlsSession)
    (rs : List TlsResponse) : Prop where
  /-- All of it is sent. -/
  finished : snd'.dirtyOut.bytes = [] ∧ snd'.fragment = false
  /-- All fragments but the last have the M flag. -/
  flagged : ∃ n, frags.map Fragmented.flaggedMore
    = List.replicate n true ++ [false]
  /-- The first of several has the L flag and the length. -/
  first : 1 < frags.length → ∃ flags rest others,
    frags = (flags :: rest) :: others
      ∧ tlsLengthIncluded flags = true
      ∧ rest.take 4 = be32 (UInt32.ofNat snd.dirtyOut.bytes.length)
  /-- The peer acknowledges all but the last, and with the last it has the
  message. -/
  received : eaptlsReceive prev rs rcv
    = .ok (List.replicate (frags.length - 1) .ack
          ++ [.deliver snd.dirtyOut.bytes],
        { rcv with dirtyIn := recordInit })

/-- A message that is not empty, or that goes with its length, comes
through: sent in fragments of any size and received, it is the message
that was sent. -/
theorem eaptls_rebuilds (snd rcv : TlsSession) (prev : Option EapDs)
    {frags : List (List UInt8)} {snd' : TlsSession} {rs : List TlsResponse}
    (hsend : eaptlsFragments (snd.dirtyOut.bytes.length + 1) snd
      = (frags, snd'))
    (hrs : rs.map TlsResponse.data = frags)
    (hnew : snd.fragment = false) (hempty : rcv.dirtyIn.bytes = [])
    (hoffset : 1 ≤ snd.offset) (hpeap : snd.peapFlag.toNat < 32)
    (hsome : snd.dirtyOut.bytes ≠ [] ∨ snd.lengthFlag = true) :
    Rebuilt snd rcv prev frags snd' rs := by
  have hlen : snd.msgLen = snd.dirtyOut.bytes.length := by
    rw [TlsSession.msgLen, hnew]
    rfl
  have hfits := snd.dirtyOut.fits
  obtain ⟨hfrag, hend⟩ :=
    eaptlsFragments_fragmented hoffset hsome (Nat.lt_succ_self _)
  rw [hsend, hlen] at hfrag
  rw [hsend] at hend
  refine ⟨hend, hfrag.flags hpeap, ?_, ?_⟩
  · intro hseveral
    rw [show frags = (frags, snd').1 from rfl, ← hsend] at hseveral
    obtain ⟨bytes, rest, hfirst⟩ := eaptlsFragments_first hnew hseveral
    rw [hsend] at hfirst
    refine ⟨_, _, rest, hfirst, ?_, ?_⟩
    · exact (fragmentFlags_read hpeap true true).2.2.1
    · exact List.take_left' (be32_length _)
  · have hrun : eaptlsReceive prev rs rcv
        = .ok (List.replicate (frags.length - 1) .ack
              ++ [.deliver (rcv.dirtyIn.bytes ++ snd.dirtyOut.bytes)],
            { rcv with dirtyIn := recordInit }) := by
      apply receive_fragmented hpeap hfrag (Nat.le_refl _) hfits _ hrs
      rw [hempty]
      simpa using hfits
    rw [hrun, hempty, List.nil_append]

/-- A session with bytes to send, three in a fragment. -/
def sending (bytes : List UInt8) (h : bytes.length ≤ maxRecordSize)
    (lengthFlag : Bool) : TlsSession :=
  { dirtyOut := ⟨bytes, h⟩, offset := 3, lengthFlag := lengthFlag }

/-- An empty message that goes without its length is an acknowledgement
and no message. -/
theorem eaptls_empty_message :
    ¬ ∀ (snd rcv snd' : TlsSession) (prev : Option EapDs)
        (frags : List (List UInt8)) (rs : List TlsResponse),
      eaptlsFragments (snd.dirtyOut.bytes.length + 1) snd = (frags, snd') →
      rs.map TlsResponse.data = frags →
      snd.fragment = false → rcv.dirtyIn.bytes = [] →
      1 ≤ snd.offset → snd.peapFlag = 0 →
      Rebuilt snd rcv prev frags snd' rs := by
  intro h
  have hsend : eaptlsFragments 1 (sending [] (by decide) false)
      = ([[0]], sending [] (by decide) false) := by
    decide
  have hreceive : eaptlsReceive none [⟨1, [0]⟩]
        (sending [] (by decide) false)
      = .ok ([.status .invalid], sending [] (by decide) false) := by
    decide
  have hreceived := (h (sending [] (by decide) false)
    (sending [] (by decide) false) (sending [] (by decide) false) none
    [[0]] [⟨1, [0]⟩] hsend rfl rfl rfl (by decide) rfl).received
  rw [hreceive] at hreceived
  cases hreceived

/-- Seven bytes in three fragments. -/
theorem eaptls_rebuilds_seven :
    Rebuilt (sending [1, 2, 3, 4, 5, 6, 7] (by decide) false)
      (sending [] (by decide) false) none
      [[0xc0, 0, 0, 0, 7, 1, 2, 3], [0x40, 4, 5, 6], [0, 7]]
      { sending [] (by decide) false with tlsMsgLen := 7 }
      [⟨1, [0xc0, 0, 0, 0, 7, 1, 2, 3]⟩, ⟨2, [0x40, 4, 5, 6]⟩,
        ⟨3, [0, 7]⟩] := by
  apply eaptls_rebuilds
  · decide
  · rfl
  · rfl
  · rfl
  · decide
  · decide
  · exact Or.inl (by decide)

end WinRadius
