/-
What the handling of one request does, as a run of small changes.

# The changes

A request is edited, leaves the list, is freed; its reply is encoded, and
sent; its reject is delayed, and falls due. `Change` has one constructor
for each, with what is known when it happens. Every function of the server
that is called for a request makes a run of them, so that what all the
changes preserve is preserved by all the functions.

# Settled requests

A request whose handling is over is in one of the states of waiting, or
done. From there its state changes in two ways only: the event of its
reject comes, or the request leaves the list.
-/
import WinRadius.Lib.Run
import WinRadius.Model.Requests

namespace WinRadius

open Lib

-- ======== edits

/-- The handling of a request is not over. -/
def ChildState.Unsettled (c : ChildState) : Prop :=
  c = .queued ∨ c = .running ∨ c = .proxied

/-- What no handler writes. -/
structure Request.Same (q q' : Request) : Prop where
  number : q'.number = q.number
  packet : q'.packet = q.packet
  listed : q'.inRequestHash = q.inRequestHash
  data : q'.replyData = q.replyData

theorem Request.Same.refl (q : Request) : q.Same q := ⟨rfl, rfl, rfl, rfl⟩

theorem Request.Same.trans {q q' q'' : Request} (h : q.Same q')
    (h' : q'.Same q'') : q.Same q'' :=
  ⟨h'.number.trans h.number, h'.packet.trans h.packet,
    h'.listed.trans h.listed, h'.data.trans h.data⟩

namespace RequestServer

/-- The reply may be sent: the request is handled, or it is in the list
and not delayed, or the event for its reject came. -/
def Sendable (s : RequestServer) (q : Request) : Prop :=
  q.childState.Unsettled
    ∨ (q.childState = .cleanupDelay ∨ q.childState = .done)
      ∧ q.inRequestHash = true
    ∨ Deed.rejectDue q.number ∈ s.log

/-- One change. -/
inductive Change (r : RequestId) (s : RequestServer) :
    RequestServer → Prop where
  | edit {q : Request} (q' : Request) : s.requests r = some q →
      q.Same q' →
      q'.childState = q.childState
        ∨ q.childState.Unsettled ∧ q'.childState ≠ .rejectDelay →
      Change r s (s.setRequest r q')
  | delay {q : Request} (q' : Request) : s.requests r = some q →
      q.Same q' → q.childState.Unsettled → q'.childState = .rejectDelay →
      Change r s ((s.setRequest r q').note (.delayed q'.number))
  | due {q : Request} : s.requests r = some q →
      q.childState = .rejectDelay →
      Change r s (s.note (.rejectDue q.number))
  | release {q : Request} (q' : Request) : s.requests r = some q →
      q.Same q' → Deed.rejectDue q.number ∈ s.log →
      Change r s (s.setRequest r q')
  | encode {q : Request} (bytes : List UInt8) : s.requests r = some q →
      q.replyData = none →
      Change r s (s.setRequest r { q with replyData := some bytes })
  | transmit {q : Request} (bytes : List UInt8) : s.requests r = some q →
      q.replyData = some bytes → s.Sendable q →
      Change r s (s.note (.sent q.number bytes))
  | handle {q : Request} : s.requests r = some q →
      Change r s (s.note (.handled q.number))
  | forward {q : Request} : s.requests r = some q →
      Change r s (s.note (.proxied q.number))
  | unlist {q : Request} : s.requests r = some q →
      Change r s (s.removeFromRequestHash r q)
  | abandon {q : Request} : s.requests r = some q →
      Change r s ((s.setRequest r { q with childState := .done })
        |>.removeFromRequestHash r { q with childState := .done })
  | free {q : Request} : s.requests r = some q → q.inRequestHash = false →
      Change r s { s with requests := Function.update s.requests r none }

/-- A run of changes. -/
abbrev Does (r : RequestId) (s t : RequestServer) : Prop :=
  Reaches (Change r) s t

variable {s t : RequestServer} {r : RequestId} {q q₀ : Request}
variable {cfg : MainConfig} {h : Handling}

theorem setRequest_self (r : RequestId) (q : Request) :
    (s.setRequest r q).requests r = some q :=
  Function.update_self ..

theorem setRequest_other {r' : RequestId} (hr : r' ≠ r) (q : Request) :
    (s.setRequest r q).requests r' = s.requests r' :=
  Function.update_of_ne hr ..

theorem setRequest_setRequest (q q' : Request) :
    (s.setRequest r q).setRequest r q' = s.setRequest r q' := by
  unfold setRequest
  rw [Function.update_idem]

theorem setRequest_eq (hq : s.requests r = some q) : s.setRequest r q = s := by
  unfold setRequest
  rw [← hq, Function.update_eq_self]

theorem note_setRequest (d : Deed) (q : Request) :
    (s.note d).setRequest r q = (s.setRequest r q).note d := rfl

/-- What `remove_from_request_hash` leaves of the request. -/
theorem removeFromRequestHash_self (hq : s.requests r = some q) :
    (s.removeFromRequestHash r q).requests r
      = some { q with inRequestHash := false } := by
  unfold removeFromRequestHash
  split
  next hf =>
    rw [hq, ← hf]
  next => exact setRequest_self _ _

theorem Does.edit (hq : s.requests r = some q₀) (hs : q₀.Same q)
    (hc : q.childState = q₀.childState
      ∨ q₀.childState.Unsettled ∧ q.childState ≠ .rejectDelay) :
    Does r s (s.setRequest r q) :=
  Reaches.refl.step (.edit q hq hs hc)

-- ======== timers

/-- `ev_request_free`. -/
theorem evRequestFree_does (hrun : s.evRequestFree r = some t) :
    Does r s t := by
  obtain ⟨q, hq, hrun⟩ := Option.bind_eq_some_iff.mp hrun
  simp only at hrun
  split at hrun
  next => cases hrun
  next =>
    cases hrun
    have hself := removeFromRequestHash_self hq
    exact (Reaches.refl.step (.unlist hq)).step (.free hself rfl)

/-- `wait_for_proxy_id_to_expire`. -/
theorem waitForProxyIdToExpire_does {now : Nat}
    (hrun : s.waitForProxyIdToExpire r now = some t) : Does r s t := by
  obtain ⟨q, hq, hrun⟩ := Option.bind_eq_some_iff.mp hrun
  obtain ⟨home, -, hrun⟩ := Option.bind_eq_some_iff.mp hrun
  simp only at hrun
  generalize (if q.divorcedCoa = true then home.coaMrd
    else home.responseWindow) = window at hrun
  split at hrun
  next => cases hrun
  next =>
    have hedit : ∀ q', q.Same q' → q'.childState = q.childState →
        Does r s (s.setRequest r q') :=
      fun q' hs hc => Does.edit hq hs (Or.inl hc)
    split at hrun
    next =>
      refine Reaches.trans ?_ (evRequestFree_does hrun)
      exact hedit _ ⟨rfl, rfl, rfl, rfl⟩ rfl
    next =>
      cases hrun
      unfold insertEvent
      rw [setRequest_setRequest]
      exact hedit _ ⟨rfl, rfl, rfl, rfl⟩ rfl

/-- `cleanup_delay`, from where the request has left the list on. -/
theorem cleanupDelay_unlisted {now : Nat} {q : Request}
    (hq : s.requests r = some q)
    (hrun : s.cleanupDelay r now = some t) :
    Does r (s.removeFromRequestHash r q) t := by
  obtain ⟨q', hq', hrun⟩ := Option.bind_eq_some_iff.mp hrun
  cases hq.symm.trans hq'
  simp only at hrun
  split at hrun
  next => cases hrun
  next =>
    split at hrun
    next => exact waitForProxyIdToExpire_does hrun
    next => exact evRequestFree_does hrun

/-- `cleanup_delay`. -/
theorem cleanupDelay_does {now : Nat}
    (hrun : s.cleanupDelay r now = some t) : Does r s t := by
  obtain ⟨q, hq, -⟩ := Option.bind_eq_some_iff.mp hrun
  exact (Reaches.refl.step (.unlist hq)).trans
    (cleanupDelay_unlisted hq hrun)

/-- `wait_a_bit`. -/
theorem waitABit_does {now : Nat} (hrun : s.waitABit r now = some t) :
    Does r s t := by
  obtain ⟨q, hq, hrun⟩ := Option.bind_eq_some_iff.mp hrun
  -- the request is done
  have hdone (hc : q.childState = .done ∨ q.childState.Unsettled)
      (hend : (if q.inRequestHash = false ∧ q.divorcedCoa = true then
          (s.setRequest r { q with childState := .done }).evRequestFree r
        else (s.setRequest r { q with childState := .done })
          |>.cleanupDelay r now) = some t) : Does r s t := by
    have hedit : Does r s
        (s.setRequest r { q with childState := .done }) := by
      refine Does.edit hq ⟨rfl, rfl, rfl, rfl⟩ ?_
      rcases hc with hc | hc
      · exact Or.inl hc.symm
      · exact Or.inr ⟨hc, nofun⟩
    split at hend
    next => exact hedit.trans (evRequestFree_does hend)
    next => exact hedit.trans (cleanupDelay_does hend)
  -- its next event is inserted
  have hnext (callback : RequestCallback) :
      Does r s (s.insertEvent r { q with
        when := q.nextWhen, nextCallback := none } callback) :=
    Does.edit hq ⟨rfl, rfl, rfl, rfl⟩ (Or.inl rfl)
  split at hrun
  next hc => exact hdone (Or.inr (by rw [hc]; exact Or.inl rfl)) hrun
  next hc => exact hdone (Or.inr (by rw [hc]; exact Or.inr (Or.inl rfl))) hrun
  next hc => exact hdone (Or.inl hc) hrun
  all_goals
    split at hrun
    next => cases hrun
    next => cases hrun
    next callback _ _ =>
      cases hrun
      exact hnext callback

-- ======== the reply

/-- What `listener->send` makes of a reply: it is not encoded, and not
sent; it is encoded, if it was not, and perhaps sent. -/
theorem listenerSend_cases (q : Request)
    (encoding : Option (List UInt8 × Bool)) :
    q.listenerSend encoding = (q, none)
      ∨ ∃ bytes, (q.replyData = some bytes ∨ q.replyData = none)
        ∧ (q.listenerSend encoding
            = ({ q with replyData := some bytes }, some bytes)
          ∨ q.listenerSend encoding
            = ({ q with replyData := some bytes }, none)) := by
  have hsend : q.radSend encoding = (q, none)
      ∨ ∃ bytes, (q.replyData = some bytes ∨ q.replyData = none)
        ∧ (q.radSend encoding
            = ({ q with replyData := some bytes }, some bytes)
          ∨ q.radSend encoding
            = ({ q with replyData := some bytes }, none)) := by
    unfold Request.radSend
    split
    next => exact Or.inl rfl
    next =>
      cases hd : q.replyData with
      | some bytes =>
          refine Or.inr ⟨bytes, Or.inl rfl, Or.inl ?_⟩
          simp only [← hd]
      | none =>
          cases encoding with
          | none => exact Or.inl rfl
          | some e =>
              obtain ⟨bytes, signed⟩ := e
              cases signed with
              | true => exact Or.inr ⟨bytes, Or.inr rfl, Or.inl rfl⟩
              | false => exact Or.inr ⟨bytes, Or.inr rfl, Or.inr rfl⟩
  have hlistener : q.listenerSend encoding = (q, none)
      ∨ q.listenerSend encoding = q.radSend encoding := by
    unfold Request.listenerSend
    split
    next => exact Or.inl rfl
    next =>
      split
      next => exact Or.inl rfl
      next => exact Or.inr rfl
    next => exact Or.inr rfl
    next => exact Or.inr rfl
  rcases hlistener with hl | hl
  · exact Or.inl hl
  · rw [hl]
    exact hsend

theorem listenerSend_number (q : Request)
    (encoding : Option (List UInt8 × Bool)) :
    (q.listenerSend encoding).1.number = q.number := by
  rcases listenerSend_cases q encoding with hl | ⟨bytes, -, hl | hl⟩ <;>
    rw [hl]

theorem send_log (q : Request) (encoding : Option (List UInt8 × Bool))
    {d : Deed} (hd : d ∈ s.log) : d ∈ (s.send r q encoding).log := by
  unfold send
  split
  next => exact hd
  next => exact List.mem_cons_of_mem _ hd

/-- The request after its reply was sent. -/
theorem send_self (r : RequestId) (q : Request)
    (encoding : Option (List UInt8 × Bool)) :
    (s.send r q encoding).requests r
      = some (q.listenerSend encoding).1 := by
  unfold send
  split
  next heq =>
    rw [heq]
    exact setRequest_self _ _
  next heq =>
    rw [heq]
    exact setRequest_self _ _

/-- The reply is encoded, unless it is already. -/
theorem encode_does {bytes : List UInt8} (hq : s.requests r = some q)
    (hd : q.replyData = some bytes ∨ q.replyData = none) :
    Does r s (s.setRequest r { q with replyData := some bytes }) := by
  rcases hd with hd | hd
  · exact Does.edit hq ⟨rfl, rfl, rfl, hd.symm⟩ (Or.inl rfl)
  · exact Reaches.refl.step (.encode bytes hq hd)

/-- A reply is sent, and the request edited: `q` is what it is edited to
before, `q'` after. -/
theorem send_does {encoding : Option (List UInt8 × Bool)} {q' : Request}
    (hq : s.requests r = some q₀) (hs : q₀.Same q) (hok : s.Sendable q₀)
    (hs' : (q.listenerSend encoding).1.Same q')
    (hc : q'.childState = q₀.childState
      ∨ q₀.childState.Unsettled ∧ q'.childState ≠ .rejectDelay) :
    Does r s ((s.send r q encoding).setRequest r q') := by
  rcases listenerSend_cases q encoding with hl | ⟨bytes, hdata, hl⟩
  · unfold send
    rw [hl] at hs' ⊢
    simp only
    rw [setRequest_setRequest]
    exact Does.edit hq (hs.trans hs') hc
  · rw [hs.data] at hdata
    have henc := encode_does hq hdata
    have hself := setRequest_self (s := s) r
      { q₀ with replyData := some bytes }
    have hs'' : Request.Same { q₀ with replyData := some bytes } q' := by
      rcases hl with hl | hl <;> rw [hl] at hs' <;>
        exact ⟨hs'.number.trans hs.number, hs'.packet.trans hs.packet,
          hs'.listed.trans hs.listed, hs'.data⟩
    unfold send
    rcases hl with hl | hl
    · -- it is sent before the request is edited
      rw [hl]
      simp only
      rw [note_setRequest, setRequest_setRequest,
        ← setRequest_setRequest { q₀ with replyData := some bytes } q',
        ← note_setRequest, hs.number]
      exact (henc.step (.transmit bytes hself rfl hok)).trans
        (Does.edit hself hs'' hc)
    · rw [hl]
      simp only
      rw [setRequest_setRequest,
        ← setRequest_setRequest { q₀ with replyData := some bytes } q']
      exact henc.trans (Does.edit hself hs'' hc)

/-- A reply is sent. -/
theorem send_only (hq : s.requests r = some q) (hok : s.Sendable q)
    (encoding : Option (List UInt8 × Bool)) :
    Does r s (s.send r q encoding) := by
  have hself := send_self (s := s) r q encoding
  have hstate : (q.listenerSend encoding).1.childState = q.childState := by
    rcases listenerSend_cases q encoding with hl | ⟨bytes, -, hl | hl⟩ <;>
      rw [hl]
  rw [← setRequest_eq hself]
  exact send_does hq (.refl q) hok (.refl _) (Or.inl hstate)

end RequestServer

end WinRadius
