/-
What `eaptls_extract` reads of an EAP-TLS response.

It checks the length it is told against that of the EAP packet, which has
four bytes more than the type data. So it reads within the type data
exactly when a response with the L flag has the four bytes of a length
(`extractsWithin_iff`).
-/
import WinRadius.Model.Eap
import WinRadius.Proofs.EapsimWalk
import WinRadius.Model.EapTls

namespace WinRadius

open Lib

variable {prev : Option EapDs} {r : TlsResponse} {ssn : TlsSession}
  {flags : UInt8} {rest : List UInt8} {status : EaptlsStatus}

-- ======== classes

/-- A response that `eaptls_process` extracts data from. -/
def EaptlsStatus.carriesData : EaptlsStatus → Bool
  | .ok | .firstFragment | .moreFragments | .lengthIncluded
  | .moreFragmentsWithLength => true
  | .invalid | .request | .success | .fail => false

/-- An acknowledgement carries no data. -/
theorem acknowledged_carriesData :
    (eaptlsVerify.acknowledged prev r ssn).1.carriesData = false := by
  unfold eaptlsVerify.acknowledged eaptlsAckHandler
  repeat' split
  all_goals rfl

/-- What a response with data is taken for, and its L flag. -/
theorem verify_carriesData (hr : r.data = flags :: rest)
    (hstatus : (eaptlsVerify prev r ssn).1 = status)
    (hdata : status.carriesData = true) :
    tlsStart flags = false
      ∧ ((tlsLengthIncluded flags = true
          ∧ (status = .firstFragment ∨ status = .lengthIncluded
            ∨ status = .moreFragmentsWithLength))
        ∨ (tlsLengthIncluded flags = false
          ∧ (status = .moreFragments ∨ status = .ok))) := by
  unfold eaptlsVerify at hstatus
  rw [hr] at hstatus
  dsimp only at hstatus
  split at hstatus
  next =>
    rw [← hstatus, acknowledged_carriesData] at hdata
    cases hdata
  next =>
  split at hstatus
  next =>
    subst hstatus
    cases hdata
  next hstart =>
  refine ⟨by simpa using hstart, ?_⟩
  split at hstatus
  next hlength =>
    refine Or.inl ⟨hlength, ?_⟩
    split at hstatus
    next =>
      split at hstatus
      next => exact Or.inr (Or.inr hstatus.symm)
      next => exact Or.inl hstatus.symm
    next => exact Or.inr (Or.inl hstatus.symm)
  next hlength =>
    refine Or.inr ⟨by simpa using hlength, ?_⟩
    split at hstatus
    next => exact Or.inl hstatus.symm
    next => exact Or.inr hstatus.symm

-- ======== reading

theorem lengthBehind_of_le (h : 5 ≤ r.data.length)
    (hfits : r.data.length ≤ 65535) :
    lengthBehind r = r.data.length - 5 := by
  have h5 : (5 : UInt32).toNat = 5 := rfl
  rw [lengthBehind, UInt32.toNat_sub_of_le]
  · rw [UInt32.toNat_ofNat', h5]
    omega
  · rw [UInt32.le_iff_toNat_le, UInt32.toNat_ofNat', h5]
    omega

/-- Without the L flag everything behind the flags is data. -/
theorem extract_plain (hr : r.data = flags :: rest)
    (hflag : tlsLengthIncluded flags = false)
    (hstatus : status = .moreFragments ∨ status = .ok) :
    eaptlsExtract status r = .ok (some rest) := by
  have hfirst : fetch r.data 0 = .ok flags := by
    rw [hr]
    rfl
  have hdrop : r.data.drop 1 = rest := by
    rw [hr]
    rfl
  have hvalid : status ≠ .invalid := by
    rcases hstatus with rfl | rfl
    · decide
    · decide
  unfold eaptlsExtract
  rw [if_neg hvalid, hfirst, ok_bind, hflag]
  simp only [Bool.false_eq_true, if_false, false_and]
  rw [pure_eq_ok, ok_bind, if_neg (Nat.not_lt_zero _)]
  rcases hstatus with rfl | rfl
  · exact congrArg (fun bytes => Except.ok (some bytes)) hdrop
  · exact congrArg (fun bytes => Except.ok (some bytes)) hdrop

/-- With the L flag the four bytes of the length are read, there or not. -/
theorem extract_included (hr : r.data = flags :: rest)
    (hflag : tlsLengthIncluded flags = true)
    (hstatus : status = .firstFragment ∨ status = .lengthIncluded
      ∨ status = .moreFragmentsWithLength) :
    eaptlsExtract status r
      = (do
        let field ← fetchN r.data 1 4
        if maxRecordSize < (ofBe32 field).toNat then .ok none
        else
          let data ← fetchN r.data 5
            (min (ofBe32 field).toNat (lengthBehind r) : Nat)
          .ok (some data)) := by
  have hfirst : fetch r.data 0 = .ok flags := by
    rw [hr]
    rfl
  have hvalid : status ≠ .invalid := by
    rcases hstatus with rfl | rfl | rfl
    · decide
    · decide
    · decide
  have hlong : ¬ r.length - 1 < 5 := by
    rw [TlsResponse.length, hr, List.length_cons]
    omega
  unfold eaptlsExtract
  rw [if_neg hvalid, hfirst, ok_bind, hflag]
  rcases hstatus with rfl | rfl | rfl
  all_goals
    simp only [true_and, if_true, hlong, if_false]
    cases fetchN r.data 1 4 with
    | error e => rw [error_bind, error_bind]
    | ok field =>
        rw [ok_bind, pure_eq_ok, ok_bind, ok_bind, ok_bind]
        rfl

-- ======== extraction

/-- What `eaptls_extract` does is within the type data: it ends, its data
are at most what is behind the flags (and behind the length, with the L
flag), and without room for a length the response is turned down. -/
def ExtractsWithin (r : TlsResponse) (flags : UInt8)
    (status : EaptlsStatus) : Prop :=
  ∃ res, eaptlsExtract status r = .ok res
    ∧ (∀ data, res = some data → data.length
        ≤ r.data.length - if tlsLengthIncluded flags then 5 else 1)
    ∧ (tlsLengthIncluded flags = true → r.data.length < 5 → res = none)

/-- A response that is there to be extracted from. -/
theorem extractsWithin_of_carriesData (hr : r.data = flags :: rest)
    (hfits : r.data.length ≤ 65535)
    (hstatus : (eaptlsVerify prev r ssn).1 = status)
    (hdata : status.carriesData = true) :
    ExtractsWithin r flags status
      ↔ (tlsLengthIncluded flags = true → 5 ≤ r.data.length) := by
  obtain ⟨-, ⟨hflag, hclass⟩ | ⟨hflag, hclass⟩⟩ :=
    verify_carriesData hr hstatus hdata
  · have heq := extract_included hr hflag hclass
    rcases Nat.lt_or_ge r.data.length 5 with hlt | hge
    · -- the length is read from behind the data
      have hfail : fetchN r.data 1 4 = .error .overread :=
        fetchN_eq_error.mpr ⟨rfl, by omega⟩
      rw [hfail, error_bind] at heq
      apply iff_of_false
      · intro ⟨res, hres, _⟩
        rw [heq] at hres
        cases hres
      · intro h
        have := h hflag
        omega
    · have hfield : fetchN r.data 1 4 = .ok ((r.data.drop 1).take 4) :=
        fetchN_eq_ok.mpr ⟨by omega, by omega, by omega, rfl⟩
      rw [hfield, ok_bind, lengthBehind_of_le hge hfits] at heq
      refine iff_of_true ?_ fun _ => hge
      obtain ⟨told, htold⟩ : ∃ told,
          (ofBe32 ((r.data.drop 1).take 4)).toNat = told := ⟨_, rfl⟩
      rw [htold] at heq
      by_cases hmax : maxRecordSize < told
      · rw [if_pos hmax] at heq
        refine ⟨none, heq, ?_, fun _ _ => rfl⟩
        intro data hdata
        cases hdata
      · rw [if_neg hmax] at heq
        have hbytes : fetchN r.data 5 (min told (r.data.length - 5) : Nat)
            = .ok ((r.data.drop 5).take (min told (r.data.length - 5))) :=
          fetchN_eq_ok.mpr ⟨by omega, by omega, by omega, rfl⟩
        rw [hbytes, ok_bind] at heq
        refine ⟨_, heq, ?_, ?_⟩
        · intro data hdata
          cases hdata
          rw [hflag, if_pos rfl, List.length_take]
          omega
        · intro _ hlt
          omega
  · have heq := extract_plain hr hflag hclass
    apply iff_of_true
    · refine ⟨_, heq, ?_, ?_⟩
      · intro data hdata
        cases hdata
        rw [hflag, hr, List.length_cons]
        exact Nat.le_refl _
      · intro hyes
        rw [hflag] at hyes
        cases hyes
    · intro hyes
      rw [hflag] at hyes
      cases hyes

/-- Whatever came before, `eaptls_extract` is within the type data of a
response that it is called on. -/
def ExtractsSafely (prev : Option EapDs) (r : TlsResponse)
    (ssn : TlsSession) : Prop :=
  ∀ flags, r.data.head? = some flags →
    (eaptlsVerify prev r ssn).1.carriesData = true →
    ExtractsWithin r flags (eaptlsVerify prev r ssn).1

/-- With the L flag and without the S flag a response is extracted
from. -/
theorem carriesData_of_included (hr : r.data = flags :: rest)
    (hflag : tlsLengthIncluded flags = true)
    (hstart : tlsStart flags = false) :
    (eaptlsVerify prev r ssn).1.carriesData = true := by
  have hnone : flags &&& 0xc0 ≠ 0 := by
    intro h0
    have h80 : flags &&& 0x80 = 0 := by
      have hmask : flags &&& 0x80 = (flags &&& 0xc0) &&& 0x80 := by
        rw [UInt8.and_assoc]
        rfl
      rw [hmask, h0]
      rfl
    rw [tlsLengthIncluded, h80] at hflag
    cases hflag
  unfold eaptlsVerify
  rw [hr]
  dsimp only
  rw [if_neg (fun h => hnone h.2), hstart, hflag]
  simp only [Bool.false_eq_true, if_false, if_true]
  split
  next =>
    split
    next => rfl
    next => rfl
  next => rfl

/-- The response as EAP-TLS takes it. -/
def EapResponse.tls (resp : EapResponse) : TlsResponse :=
  ⟨resp.id, resp.data⟩

variable {vps : List ValuePair} {e : List UInt8}

/-- A packet that is put together and valid has a response, of at most
65535 bytes. -/
theorem buildds_of_valid (he : eapVp2packet vps = some e)
    (hvalid : eapValidation e = .ok true) :
    ∃ resp, eapBuildds e = .ok resp ∧ resp.data.length ≤ 65535 := by
  obtain ⟨h4, hlen⟩ := eapVp2packet_length he
  have hfits : e.length ≤ 65535 := by
    rw [eapLength_eq h4, Except.ok.injEq] at hlen
    have hhigh := (e.getD 2 0).toNat_lt
    have hlow := (e.getD 3 0).toNat_lt
    omega
  have h5 : 5 ≤ e.length := by
    rw [eapValidation, hlen, ok_bind] at hvalid
    obtain ⟨code, -, hvalid⟩ := bind_eq_ok.mp hvalid
    by_contra hlt
    rw [if_pos (by rw [eapHeaderLen]; omega)] at hvalid
    cases hvalid
  obtain ⟨code, hcode⟩ : ∃ b, fetch e 0 = .ok b :=
    fetch_isOk (by omega) (by omega)
  obtain ⟨id, hid⟩ : ∃ b, fetch e 1 = .ok b :=
    fetch_isOk (by omega) (by omega)
  obtain ⟨type, htype⟩ : ∃ b, fetch e 4 = .ok b :=
    fetch_isOk (by omega) (by omega)
  have hdata : fetchN e 5 (e.length - 5 : Nat)
      = .ok ((e.drop 5).take (e.length - 5)) :=
    fetchN_eq_ok.mpr ⟨by omega, by omega, by omega, rfl⟩
  refine ⟨⟨code.toNat, id.toNat, e.length, type.toNat,
    (e.drop 5).take (e.length - 5)⟩, ?_, ?_⟩
  · rw [eapBuildds, hcode, ok_bind, hid, ok_bind, htype, ok_bind, hlen,
      ok_bind, hdata, ok_bind, pure_eq_ok]
  · rw [List.length_take]
    omega

/-- Over every response the server accepts, `eaptls_extract` keeps to the
type data exactly when a response with the L flag, and not the S flag,
has the four bytes of the length. -/
theorem extractsSafely_iff (he : eapVp2packet vps = some e)
    (hvalid : eapValidation e = .ok true) :
    ∃ resp, eapBuildds e = .ok resp
      ∧ ∀ prev ssn, ExtractsSafely prev resp.tls ssn
        ↔ ∀ flags, resp.data.head? = some flags →
          tlsLengthIncluded flags = true → tlsStart flags = false →
          5 ≤ resp.data.length := by
  obtain ⟨resp, hresp, hfits⟩ := buildds_of_valid he hvalid
  refine ⟨resp, hresp, ?_⟩
  intro prev ssn
  constructor
  · intro h flags hhead hflag hstart
    obtain ⟨rest, hr⟩ := List.head?_eq_some_iff.mp hhead
    have hdata : (eaptlsVerify prev resp.tls ssn).1.carriesData = true :=
      carriesData_of_included hr hflag hstart
    exact (extractsWithin_of_carriesData hr hfits rfl hdata).mp
      (h flags hhead hdata) hflag
  · intro h flags hhead hdata
    obtain ⟨rest, hr⟩ := List.head?_eq_some_iff.mp hhead
    apply (extractsWithin_of_carriesData hr hfits rfl hdata).mpr
    intro hflag
    exact h flags hhead hflag (verify_carriesData hr rfl hdata).1

/-- A response of type 13 and the given type data. -/
def tlsPacket (data : List UInt8) : List UInt8 :=
  [2, 1] ++ be16 (5 + data.length) ++ 13 :: data

/-- A session that nothing was sent in yet. -/
def idleSession : TlsSession := { offset := 1024, lengthFlag := false }

/-- Not every response is read within its data: of one with the L flag
alone the length is read from behind it. -/
theorem extract_overread :
    ¬ ∀ (vps : List ValuePair) (e : List UInt8) (resp : EapResponse)
        (prev : Option EapDs) (ssn : TlsSession),
      eapVp2packet vps = some e → eapValidation e = .ok true →
      eapBuildds e = .ok resp → ExtractsSafely prev resp.tls ssn := by
  intro h
  obtain ⟨res, hres, -⟩ := h [eapMessagePair (tlsPacket [0x80])]
    (tlsPacket [0x80]) ⟨2, 1, 6, 13, [0x80]⟩ none idleSession
    (by decide) (by decide) (by decide) 0x80 rfl (by decide)
  have hover : eaptlsExtract (eaptlsVerify none
      (EapResponse.tls ⟨2, 1, 6, 13, [0x80]⟩) idleSession).1
      (EapResponse.tls ⟨2, 1, 6, 13, [0x80]⟩) = .error .overread := by
    decide
  rw [hover] at hres
  cases hres

/-- A response with a length and one byte of data. -/
theorem extractsSafely_byte :
    ∃ resp, eapBuildds (tlsPacket [0x80, 0, 0, 0, 1, 42]) = .ok resp
      ∧ ExtractsSafely none resp.tls idleSession := by
  have he : eapVp2packet [eapMessagePair (tlsPacket [0x80, 0, 0, 0, 1, 42])]
      = some (tlsPacket [0x80, 0, 0, 0, 1, 42]) := by
    decide
  obtain ⟨resp, hresp, hiff⟩ := extractsSafely_iff he (by decide)
  refine ⟨resp, hresp, (hiff none idleSession).mpr ?_⟩
  intro flags _ _ _
  have hdata : eapBuildds (tlsPacket [0x80, 0, 0, 0, 1, 42])
      = .ok ⟨2, 1, 11, 13, [0x80, 0, 0, 0, 1, 42]⟩ := by decide
  rw [hdata] at hresp
  cases hresp
  decide

end WinRadius
