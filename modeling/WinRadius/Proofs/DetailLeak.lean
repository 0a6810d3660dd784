/-
What the packet of a detail record takes from the records before it.

# A record

Of its lines, those with an address and with a time set the two fields of
the listener that the packet is made from. `givenIp` and `givenTime` are
what a record says of itself; the defaults stand for what it does not say.

# What is left over

The fields are set back where a file is opened, and nowhere else: a record
without an address or without a time finds what the one before left. The
bytes of an address are not set back at all, and show where a name does
not resolve.
-/
import WinRadius.Proofs.DetailRecords

namespace WinRadius

open Lib

-- ======== one record

/-- `INADDR_NONE`, where there is no address. -/
def anyIp : FrIpaddr := { af := afInet, ipaddr := [255, 255, 255, 255] }

/-- An address, if it is one. -/
def orAny (ip : FrIpaddr) : FrIpaddr :=
  if ip.af ≠ afUnspec then ip else anyIp

namespace DetailRecord

section given

variable (userparse : List UInt8 → Bool × List ValuePair)

/-- The address of the last line with one that resolves. A line behind it
that does not leaves it, as an address of IPv4. -/
def givenIp (env : DetailEnv) : List (List UInt8) → Option FrIpaddr →
    Option FrIpaddr
  | [], ip => ip
  | line :: lines, ip =>
      match detailLine userparse line with
      | .clientIp value =>
          givenIp env lines ((env.ipHton value).or
            (ip.map fun ip => { ip with af := afInet }))
      | .fault _ | .skip | .timestamp _ | .pairs _ _ =>
          givenIp env lines ip

/-- The time of the last line with one. -/
def givenTime : List (List UInt8) → Option Int
  | [] => none
  | line :: lines =>
      match detailLine userparse line with
      | .timestamp value => (givenTime lines).or (some value)
      | .fault _ | .skip | .clientIp _ | .pairs _ _ => givenTime lines

variable {userparse} {env : DetailEnv}

variable (userparse env)

/-- The source address that a record gives, or the default. -/
def address (r : DetailRecord) : FrIpaddr :=
  match givenIp userparse env r.body none with
  | some ip => orAny ip
  | none => anyIp

/-- The time that `Acct-Delay-Time` is counted from: that of the event, of
the record, or none. -/
def base (r : DetailRecord) : Int :=
  match pairfind (r.pairs userparse) pwEventTimestamp with
  | some vp => vp.lvalue.toNat
  | none => (givenTime userparse r.body).getD 0

end given

end DetailRecord

-- ======== one call

section reader

variable {userparse : List UInt8 → Bool × List ValuePair} {env : DetailEnv}
  {data : ListenDetail} {fp : DetailStream}

open DetailRecord

/-- The address that a call finds: a file that it opens sets back the
family. -/
def ListenDetail.leftIp (data : ListenDetail) : FrIpaddr :=
  if data.fp = none then { data.clientIp with af := afUnspec }
  else data.clientIp

/-- The time that a call finds. -/
def ListenDetail.leftTime (data : ListenDetail) : Int :=
  if data.fp = none then 0 else data.timestamp

/-- `open_file` goes on to the header. -/
theorem openFile_opens (hst : data.state = .unopened)
    (hfp : data.fp = none) (hfd : data.fd < 0) (hv : data.vps = [])
    (ho : data.Opens env fp) :
    ∃ d, openFile userparse env data = atHeader userparse env d fp
      ∧ d.fp = some fp ∧ d.state = .header ∧ d.vps = []
      ∧ d.clientIp = data.leftIp ∧ d.timestamp = data.leftTime := by
  obtain ⟨hl, file, hfile, rfl⟩ := ho
  have hl' : ¬ env.locked = false := by simp [hl]
  unfold openFile detailOpen radAssert ListenDetail.leftIp
    ListenDetail.leftTime
  simp only [if_pos hfd, if_pos hst, hfile, if_pos hv, if_pos hfp,
    if_neg hl', ok_bind, if_true, Int.natCast_nonneg]
  exact ⟨_, rfl, rfl, rfl, rfl, rfl, rfl⟩

theorem doHeader_some (hfp : data.fp = some fp) :
    doHeader userparse env data = atHeader userparse env data fp := by
  simp only [doHeader, hfp]

theorem doHeader_none (hfp : data.fp = none) :
    doHeader userparse env data = openFile userparse env
      { data with tries := 0, state := .unopened } := by
  simp only [doHeader, hfp]

/-- A reply makes way for the next record. -/
theorem detailRecv_replied (hsig : data.signal = false)
    (hst : data.state = .replied) :
    detailRecv userparse env data = doHeader userparse env
      { data with vps := [], state := .header } := by
  simp only [detailRecv, hsig, hst, Bool.false_eq_true, if_false]

/-- A call that reads comes to the header, with what is left over. -/
theorem ListenDetail.Good.reads (h : data.Good) (hr : data.Reads env fp) :
    ∃ d, detailRecv userparse env data = atHeader userparse env d fp
      ∧ d.fp = some fp ∧ d.state = .header ∧ d.vps = []
      ∧ d.clientIp = data.leftIp ∧ d.timestamp = data.leftTime := by
  obtain ⟨hsig, ⟨hst, hfp⟩ | ⟨hst, hfp, ho⟩⟩ := hr
  · have hip : data.leftIp = data.clientIp := by
      rw [ListenDetail.leftIp, hfp]
      rfl
    have htime : data.leftTime = data.timestamp := by
      rw [ListenDetail.leftTime, hfp]
      rfl
    rcases hst with hst | hst
    · have hrecv : detailRecv userparse env data
          = doHeader userparse env data := by
        simp only [detailRecv, hsig, hst, Bool.false_eq_true, if_false]
      exact ⟨data, hrecv.trans (doHeader_some hfp), hfp, hst,
        (h.header hst).2, hip.symm, htime.symm⟩
    · exact ⟨_, (detailRecv_replied hsig hst).trans (doHeader_some hfp),
        hfp, rfl, rfl, hip.symm, htime.symm⟩
  · obtain ⟨hfd, hv⟩ := h.closed hfp
    rcases hst with hst | hst
    · obtain ⟨d, hd, hrest⟩ := openFile_opens hst hfp hfd hv ho
      refine ⟨d, ?_, hrest⟩
      simp only [detailRecv, hsig, hst, Bool.false_eq_true, if_false]
      exact hd
    · obtain ⟨d, hd, hrest⟩ := @openFile_opens userparse env
        { data with vps := [], tries := 0, state := .unopened } fp rfl hfp
        hfd rfl ho
      exact ⟨d, ((detailRecv_replied hsig hst).trans
        (doHeader_none hfp)).trans hd, hrest⟩

end reader

-- ======== two records

end WinRadius
