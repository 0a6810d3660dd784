/-
What the EAP module's list of sessions is for: a State that is issued
finds its session once.

Against the abstract list (`SessionStep`), a session is put at the end
with a State and EAP id that no other has, and an answer finds the one
that has exactly these, which is then gone. `EapRun` is the module itself,
with a caller who may do anything to handlers that are not in the list.
Every run of the module is one of the abstract list (`eaplist_sessions`),
and there a State is found no more often than it was issued.

`eap_handler` has a session that it found in its hands until it returns
it; three of its error returns forget it (`eapHandler_accounts_iff`).
-/
import WinRadius.Proofs.EapList

namespace WinRadius

open Lib

-- ======== the abstract list

/-- What a call of `eaplist_add` or `eaplist_find` comes to. -/
inductive EapEvent where
  | issued (handler : Nat) (state : AuthVector) (id : Nat)
  | refused
  | found (handler : Nat) (state : AuthVector) (id : Nat)
  | missed
deriving DecidableEq

/-- The event of a search. -/
def searchEvent (state : AuthVector) (id : Nat) : Option Nat → EapEvent
  | some handler => .found handler state id
  | none => .missed

/-- The sessions after a search. -/
def withoutFound (found : Option EapSession) (l : List EapSession) :
    List EapSession :=
  l.filter fun s => some s ≠ found

/-- The steps of a list of at most `max` sessions. -/
inductive SessionStep (limit max : Int) :
    List EapSession → EapEvent → List EapSession → Prop
  | issued {l : List EapSession} (s : EapSession)
      (hroom : (l.length : Int) < max)
      (hout : s.handler ∉ l.map EapSession.handler)
      (hnew : ∀ t ∈ l, ¬ t.Matches s.held.state s.held.eapId) :
      SessionStep limit max l (.issued s.handler s.held.state s.held.eapId)
        (l ++ [s])
  | refused (l : List EapSession) : SessionStep limit max l .refused l
  | full {l : List EapSession} (timestamp : Int) (h : max ≤ l.length) :
      SessionStep limit max l .refused (unexpired limit timestamp l)
  | unsent (l : List EapSession) : SessionStep limit max l .missed l
  | search (l : List EapSession) (timestamp : Int) (state : AuthVector)
      (id : Nat) (found : Option EapSession)
      (h : found = findSession state id (unexpired limit timestamp l)) :
      SessionStep limit max l (searchEvent state id (answerOf found))
        (withoutFound found (unexpired limit timestamp l))

/-- The runs of the list from the empty one. -/
inductive SessionRun (limit max : Int) :
    List EapEvent → List EapSession → Prop
  | create : SessionRun limit max [] []
  | step {log : List EapEvent} {l l' : List EapSession} {e : EapEvent}
      (hrun : SessionRun limit max log l)
      (hstep : SessionStep limit max l e l') :
      SessionRun limit max (log ++ [e]) l'

/-- The State is put into a reply. -/
def EapEvent.Issues (state : AuthVector) : EapEvent → Prop
  | issued _ s _ => s = state
  | _ => False

/-- The State finds a session. -/
def EapEvent.Uses (state : AuthVector) : EapEvent → Prop
  | found _ s _ => s = state
  | _ => False

instance (state : AuthVector) : DecidablePred (EapEvent.Issues state)
  | .issued _ s _ => inferInstanceAs (Decidable (s = state))
  | .refused => isFalse id
  | .found _ _ _ => isFalse id
  | .missed => isFalse id

instance (state : AuthVector) : DecidablePred (EapEvent.Uses state)
  | .issued _ _ _ => isFalse id
  | .refused => isFalse id
  | .found _ s _ => inferInstanceAs (Decidable (s = state))
  | .missed => isFalse id

section abstract

variable {limit max : Int} {l l' : List EapSession} {log : List EapEvent}
  {e : EapEvent} {state : AuthVector} {s : EapSession}

/-- The sessions of a State. -/
def holding (state : AuthVector) (l : List EapSession) : Nat :=
  l.countP fun s => s.held.state = state

theorem findSession_matches {id : Nat}
    (h : findSession state id l = some s) :
    s ∈ l ∧ s.Matches state id :=
  ⟨List.mem_of_find?_eq_some h, by simpa using List.find?_some h⟩

/-- A session that is found and taken out held its State. -/
theorem holding_without {id : Nat}
    (h : findSession state id l = some s) :
    holding state (withoutFound (some s) l) + 1 ≤ holding state l := by
  obtain ⟨hmem, hstate, -⟩ := findSession_matches h
  have hperm := List.perm_cons_erase hmem
  have hrest : (s :: l.erase s).filter (fun t => some t ≠ some s)
      = (l.erase s).filter fun t => some t ≠ some s :=
    List.filter_cons_of_neg (by simp)
  unfold holding withoutFound
  have hcons : (s :: l.erase s).countP (fun t => t.held.state = state)
      = (l.erase s).countP (fun t => t.held.state = state) + 1 :=
    List.countP_cons_of_pos (decide_eq_true hstate)
  rw [(hperm.filter _).countP_eq, hrest, hperm.countP_eq, hcons]
  exact Nat.succ_le_succ (List.filter_sublist.countP_le)

/-- A State that is used was held before, and one session less holds it
then. -/
theorem SessionStep.uses (h : SessionStep limit max l e l')
    (state : AuthVector) :
    holding state l' + (if e.Uses state then 1 else 0)
      ≤ holding state l + (if e.Issues state then 1 else 0) := by
  have hexpire (timestamp : Int) :
      holding state (unexpired limit timestamp l) ≤ holding state l :=
    (List.drop_sublist _ _).countP_le
  cases h with
  | issued s hroom hout hnew =>
      have hcount : holding state (l ++ [s])
          = holding state l + if s.held.state = state then 1 else 0 := by
        rw [holding, List.countP_append, List.countP_singleton]
        simp only [decide_eq_true_eq]
        rfl
      exact le_of_eq hcount
  | refused => exact Nat.le_refl _
  | full timestamp hfull => exact hexpire timestamp
  | unsent => exact Nat.le_refl _
  | search timestamp state' id found hfound =>
      cases found with
      | none =>
          exact ((List.filter_sublist).countP_le).trans (hexpire timestamp)
      | some s =>
          have hle := hexpire timestamp
          have hsub : holding state
              (withoutFound (some s) (unexpired limit timestamp l))
              ≤ holding state (unexpired limit timestamp l) :=
            (List.filter_sublist).countP_le
          rw [answerOf]
          split
          · exact hsub.trans hle
          · by_cases hstate : state' = state
            · subst hstate
              have hone := holding_without hfound.symm
              show _ + (if state' = state' then 1 else 0) ≤ _ + 0
              rw [if_pos rfl]
              exact hone.trans hle
            · show _ + (if state' = state then 1 else 0) ≤ _ + 0
              rw [if_neg hstate]
              exact hsub.trans hle

/-- A State is found no more often than it was issued. -/
theorem SessionRun.uses (h : SessionRun limit max log l)
    (state : AuthVector) :
    holding state l + log.countP (EapEvent.Uses state)
      ≤ log.countP (EapEvent.Issues state) := by
  induction h with
  | create => exact Nat.le_refl 0
  | step hrun hstep ih =>
      have hone := hstep.uses state
      rw [List.countP_append, List.countP_append, List.countP_singleton,
        List.countP_singleton]
      simp only [decide_eq_true_eq]
      omega

/-- What is held was issued. -/
theorem SessionRun.held (h : SessionRun limit max log l) (hs : s ∈ l) :
    .issued s.handler s.held.state s.held.eapId ∈ log := by
  induction h with
  | create => cases hs
  | @step log l l' e hrun hstep ih =>
      refine List.mem_append.mpr ?_
      cases hstep with
      | issued t hroom hout hnew =>
          rcases List.mem_append.mp hs with hs | hs
          · exact .inl (ih hs)
          · rw [List.mem_singleton.mp hs]
            exact .inr (List.mem_singleton_self _)
      | refused => exact .inl (ih hs)
      | full timestamp hfull =>
          exact .inl (ih ((List.drop_sublist _ _).subset hs))
      | unsent => exact .inl (ih hs)
      | search timestamp state id found hfound =>
          have hin := List.filter_sublist.subset hs
          exact .inl (ih ((List.drop_sublist _ _).subset hin))

/-- What is found was issued with the same State and EAP id. -/
theorem SessionRun.found {handler id : Nat}
    (h : SessionRun limit max log l)
    (hfound : .found handler state id ∈ log) :
    .issued handler state id ∈ log := by
  induction h with
  | create => cases hfound
  | @step log l l' e hrun hstep ih =>
      refine List.mem_append.mpr ?_
      rcases List.mem_append.mp hfound with hin | hin
      · exact .inl (ih hin)
      · have he := List.mem_singleton.mp hin
        cases hstep with
        | issued t hroom hout hnew => cases he
        | refused => cases he
        | full timestamp hfull => cases he
        | unsent => cases he
        | search timestamp state' id' found hfind =>
            cases found with
            | none => cases he
            | some s =>
                rw [answerOf] at he
                split at he
                · cases he
                · cases he
                  obtain ⟨hs, hstate, hid⟩ :=
                    findSession_matches hfind.symm
                  have hheld := hrun.held ((List.drop_sublist _ _).subset hs)
                  rw [hstate, hid] at hheld
                  exact .inl hheld

end abstract

-- ======== the module

namespace RlmEap

/-- The module before its first session. -/
structure Started (limit max : Int) (inst : RlmEap) : Prop where
  tree : ∃ compare, inst.sessionTree = rbtreeCreate compare false
  head : inst.sessionHead = none
  tail : inst.sessionTail = none
  limit_eq : inst.timerLimit = limit
  max_eq : inst.maxSessions = max

/-- What a search comes to. -/
def findEvent (request : EapRequest) (id : Nat) (answer : Option Nat) :
    EapEvent :=
  searchEvent ((sentState request).getD .zero) id answer

/-- The runs of the module. The caller may do anything to handlers that
are not in the list, and adds one of these. -/
inductive EapRun (limit max : Int) : RlmEap → List EapEvent → Prop
  | create {inst : RlmEap} (h : inst.Started limit max) :
      EapRun limit max inst []
  | caller {inst : RlmEap} {log : List EapEvent}
      (hrun : EapRun limit max inst log) (handlers : Cells EapHandler)
      (hkeep : ∀ a ∈ inst.sessionTree.root.toList,
        handlers.lookup a = inst.handlers.lookup a) :
      EapRun limit max { inst with handlers := handlers } log
  | issued {inst inst' : RlmEap} {log : List EapEvent} {handler : Nat}
      {hd : EapHandler} {ds : HandlerDs} {request request' : EapRequest}
      {pairmake : List UInt8 → List UInt8 → Option ValuePair}
      (hrun : EapRun limit max inst log)
      (ha : Addable inst handler hd ds request)
      (hadd : inst.eaplistAdd pairmake handler request
        = .ok (inst', request', true)) (vp : ValuePair)
      (hreply : request'.replyVps = request.replyVps ++ [vp]) :
      EapRun limit max inst'
        (log ++ [.issued handler (stateOf vp) ds.request.id])
  | refused {inst inst' : RlmEap} {log : List EapEvent} {handler : Nat}
      {hd : EapHandler} {ds : HandlerDs} {request request' : EapRequest}
      {pairmake : List UInt8 → List UInt8 → Option ValuePair}
      (hrun : EapRun limit max inst log)
      (ha : Addable inst handler hd ds request)
      (hadd : inst.eaplistAdd pairmake handler request
        = .ok (inst', request', false)) :
      EapRun limit max inst' (log ++ [.refused])
  | find {inst inst' : RlmEap} {log : List EapEvent} {request : EapRequest}
      {id : Nat} {answer : Option Nat} (hrun : EapRun limit max inst log)
      (hfind : inst.eaplistFind request id = .ok (inst', answer)) :
      EapRun limit max inst' (log ++ [findEvent request id answer])

variable {limit max : Int} {inst inst' : RlmEap} {log : List EapEvent}
  {l : List EapSession}

theorem Started.represents (h : inst.Started limit max) :
    inst.Represents [] := by
  obtain ⟨compare, htree⟩ := h.tree
  have hroot : inst.sessionTree.root = .nil := by rw [htree]; rfl
  refine ⟨by simp, h.head, h.tail, List.nodup_nil, List.not_mem_nil, ?_, ?_,
    ?_, ?_⟩
  · refine ⟨inst.tree_lawful, ?_, ?_, fun _ _ => trivial, ?_⟩
    · show inst.sessionTree.replaceFlag = false
      rw [htree]
      rfl
    · show inst.sessionTree.root.color = .black
      rw [hroot]
      rfl
    · show inst.sessionTree.root.toList.Pairwise _
      rw [hroot]
      exact List.Pairwise.nil
  · rw [hroot]
    simp
  · rw [htree]
    rfl
  · simp

/-- Every run of the module is one of the abstract list, which the module
holds. -/
theorem EapRun.simulates (h : EapRun limit max inst log) :
    ∃ l, SessionRun limit max log l ∧ inst.Represents l
      ∧ inst.timerLimit = limit ∧ inst.maxSessions = max := by
  induction h with
  | create h => exact ⟨[], .create, h.represents, h.limit_eq, h.max_eq⟩
  | caller hrun handlers hkeep ih =>
      obtain ⟨l, hl, hrep, hlimit, hmax⟩ := ih
      refine ⟨l, hl, hrep.frame (fun s hs => ?_) rfl rfl rfl rfl, hlimit,
        hmax⟩
      exact hkeep _ ((hrep.members _).mpr (List.mem_map_of_mem hs))
  | issued hrun ha hadd vp hreply ih =>
      obtain ⟨l, hl, hrep, hlimit, hmax⟩ := ih
      obtain ⟨i, r, added, hcode, hsame, -, hyes⟩ := hrep.eaplistAdd_run ha
      rw [hadd] at hcode
      cases hcode
      obtain ⟨hroom, s, vp', rfl, hid, hnew, hrep', hreply', -, hstate⟩ :=
        hyes rfl
      have hvp : vp = vp' := by
        rw [hreply] at hreply'
        exact (List.cons.inj (List.append_cancel_left hreply')).1
      rw [hvp, hstate, ← hid]
      refine ⟨l ++ [s], hl.step (.issued s (hmax ▸ hroom) ?_ ?_), hrep',
        hsame.1.trans hlimit, hsame.2.trans hmax⟩
      · exact fun hin => ha.own ((hrep.members _).mpr hin)
      · intro t ht hmatch
        exact hnew t ht (handlerKey_inj.mpr ⟨hmatch.2, hmatch.1⟩)
  | refused hrun ha hadd ih =>
      obtain ⟨l, hl, hrep, hlimit, hmax⟩ := ih
      obtain ⟨i, r, added, hcode, hsame, hno, -⟩ := hrep.eaplistAdd_run ha
      rw [hadd] at hcode
      cases hcode
      rcases hno rfl with hrep' | ⟨hfull, hrep'⟩
      · exact ⟨l, hl.step (.refused l), hrep', hsame.1.trans hlimit,
          hsame.2.trans hmax⟩
      · rw [hlimit] at hrep'
        exact ⟨_, hl.step (.full _ (hmax ▸ hfull)), hrep',
          hsame.1.trans hlimit, hsame.2.trans hmax⟩
  | @find inst inst' log request id answer hrun hfind ih =>
      obtain ⟨l, hl, hrep, hlimit, hmax⟩ := ih
      cases hsent : sentState request with
      | none =>
          rw [Represents.eaplistFind_unsent inst hsent id] at hfind
          cases hfind
          exact ⟨l, hl.step (.unsent l), hrep, hlimit, hmax⟩
      | some state =>
          obtain ⟨found, i, hfound, hcode, hsame, hrep', -⟩ :=
            hrep.eaplistFind_run hsent id
          rw [hfind] at hcode
          cases hcode
          rw [hlimit] at hfound hrep'
          rw [findEvent, hsent]
          exact ⟨_, hl.step (.search l request.timestamp state id found
            hfound), hrep', hsame.1.trans hlimit, hsame.2.trans hmax⟩

/-- After every run, the tree and the list hold the same handlers, each
once, in the order in which they were added and no more than there may be;
a search finds the handler that was added with the State and the EAP id,
and no State finds one more often than it was issued. Every call
returns. -/
theorem eaplist_sessions (h : EapRun limit max inst log) :
    (∃ l, SessionRun limit max log l ∧ inst.Represents l
      ∧ (l.length : Int) ≤ Max.max max 0)
    ∧ (∀ handler state id, .found handler state id ∈ log →
      .issued handler state id ∈ log)
    ∧ (∀ state, log.countP (EapEvent.Uses state)
      ≤ log.countP (EapEvent.Issues state))
    ∧ (∀ request id, ∃ r, inst.eaplistFind request id = .ok r)
    ∧ ∀ pairmake handler hd ds request, Addable inst handler hd ds request →
        ∃ r, inst.eaplistAdd pairmake handler request = .ok r := by
  obtain ⟨l, hl, hrep, -, hmax⟩ := h.simulates
  refine ⟨⟨l, hl, hrep, hmax ▸ hrep.room⟩,
    fun handler state id hfound => hl.found hfound, fun state => ?_,
    fun request id => ?_, fun pairmake handler hd ds request ha => ?_⟩
  · exact (Nat.le_add_left _ _).trans (hl.uses state)
  · cases hsent : sentState request with
    | none => exact ⟨_, Represents.eaplistFind_unsent inst hsent id⟩
    | some state =>
        obtain ⟨found, inst', -, hcode, -⟩ := hrep.eaplistFind_run hsent id
        exact ⟨_, hcode⟩
  · obtain ⟨inst', request', added, hcode, -⟩ := hrep.eaplistAdd_run ha
    exact ⟨_, hcode⟩

/-- A module without sessions, and a handler that a caller has filled. -/
def startedEap : RlmEap :=
  { timerLimit := 60, maxSessions := 100, randPool := UInt32.ofNat }

def filledHandler : EapHandler :=
  { request := some 5
    eapDs := some {
      response := { code := 2, id := 6, length := 5, type := 1, data := [] }
      request := { code := 1, id := 7, length := 5, type := 4, data := [] } } }

def firstRequest : EapRequest :=
  { number := 5, packet := {}, timestamp := 1000 }

def firstState : AuthVector :=
  ⟨[0, 0, 0, 0, 0, 7, 0, 0, 2, 0, 0, 0, 3, 0, 0, 0], rfl⟩

/-- The answer of the client, ten seconds later. -/
def firstAnswer : EapRequest :=
  { number := 6
    packet := { vps := [{ attr := 24, type := .octets, length := 16
                          data := firstState.bytes }] }
    timestamp := 1010 }

theorem startedEap_started : startedEap.Started 60 100 where
  tree := ⟨_, rfl⟩
  head := rfl
  tail := rfl
  limit_eq := rfl
  max_eq := rfl

/-- A session is added and found. -/
theorem eaplist_sessions_first :
    ([EapEvent.issued 1 firstState 7, .found 1 firstState 7].countP
        (EapEvent.Uses firstState))
      ≤ [EapEvent.issued 1 firstState 7, .found 1 firstState 7].countP
        (EapEvent.Issues firstState) := by
  have hfilled : EapRun 60 100 _ [] :=
    .caller (.create startedEap_started)
      ((∅ : Cells EapHandler).insert 1 filledHandler)
      (by simp [startedEap, rbtreeCreate])
  have hadded := @EapRun.issued 60 100 _ _ _ 1 filledHandler _ firstRequest _
    (fun _ _ => some { attr := 24, type := .octets }) hfilled
    ⟨rfl, by decide, by decide, rfl, rfl⟩ rfl _ rfl
  have hfound := @EapRun.find 60 100 _ _ _ firstAnswer 7 _ hadded rfl
  exact (eaplist_sessions hfound).2.2.1 firstState

end RlmEap

-- ======== eap_handler

namespace RlmEap

section handler

variable {inst inst' : RlmEap} {l : List EapSession} {packet : List UInt8}
  {request : EapRequest}
  {pairmake : List UInt8 → List UInt8 → Option ValuePair}
  {malloc : Malloc} {a handler : Nat}

/-- Every handler that is not freed is in the list, is returned, or was
the caller's before. -/
def Accounted (inst inst' : RlmEap) (l l' : List EapSession)
    (returned : Option Nat) : Prop :=
  ∀ a, a ≠ myHandler → (inst'.handlers.lookup a).isSome = true →
    a ∈ l'.map EapSession.handler ∨ returned = some a
      ∨ (inst.handlers.lookup a).isSome = true
        ∧ a ∉ l.map EapSession.handler

/-- An answer that a session does not go on with: it is for another EAP
type, or the User-Name is not the identity (or cannot be made from it). -/
def Unfit (pairmake : List UInt8 → List UInt8 → Option ValuePair)
    (type : UInt8) (request : EapRequest) (hd : EapHandler) : Prop :=
  (type.toNat ≠ pwEapNak ∧ type.toNat ≠ hd.eapType)
    ∨ nameUser pairmake (hd.identity.getD []) request = none

/-- A session is found that does not go on with the answer. -/
def Forgets (inst : RlmEap) (l : List EapSession)
    (pairmake : List UInt8 → List UInt8 → Option ValuePair)
    (packet : List UInt8) (request : EapRequest) : Prop :=
  ∃ type id state s, eapValidation packet = .ok true
    ∧ fetch packet 4 = .ok type ∧ type.toNat ≠ pwEapIdentity
    ∧ fetch packet 1 = .ok id ∧ sentState request = some state
    ∧ findSession state id.toNat
        (unexpired inst.timerLimit request.timestamp l) = some s
    ∧ s.held.trips < 50 ∧ Unfit pairmake type request s.held

/-- A packet with its own length in the header is checked without an
overread, and taken apart if it is valid. -/
theorem eapPacket_reads (hp : eapLength packet = .ok packet.length) :
    ∃ valid, eapValidation packet = .ok valid
      ∧ (valid = true → 5 ≤ packet.length
        ∧ (∃ identity, eapIdentity packet = .ok identity)
        ∧ ∃ response, eapBuildds packet = .ok response) := by
  obtain ⟨high, -, hrest⟩ := bind_eq_ok.mp hp
  obtain ⟨low, hlow, -⟩ := bind_eq_ok.mp hrest
  obtain ⟨-, h3⟩ := fetch_eq_ok.mp hlow
  have h4 : 3 < packet.length := (List.getElem?_eq_some_iff.mp h3).1
  have hget {i : Nat} (hi : i < packet.length) :
      ∃ b, fetch packet i = .ok b :=
    fetch_isOk (Int.natCast_nonneg i) (by omega)
  obtain ⟨code, hcode⟩ := hget (i := 0) (by omega)
  obtain ⟨id, hid⟩ := hget (i := 1) (by omega)
  rw [eapValidation, hp, ok_bind, show (0 : Int) = (0 : Nat) from rfl, hcode,
    ok_bind]
  by_cases hshort : packet.length ≤ eapHeaderLen
  · rw [if_pos hshort]
    exact ⟨false, rfl, fun h => absurd h Bool.false_ne_true⟩
  · have h5 : 5 ≤ packet.length := by
      have hheader : eapHeaderLen = 4 := rfl
      omega
    obtain ⟨type, htype⟩ := hget (i := 4) (by omega)
    have hdata : ∃ data, fetchN packet 5 (packet.length - 5 : Nat)
        = .ok data :=
      ⟨_, fetchN_eq_ok.mpr ⟨by omega, Int.natCast_nonneg _, by omega, rfl⟩⟩
    obtain ⟨data, hdata⟩ := hdata
    have hident : ∃ identity, eapIdentity packet = .ok identity := by
      unfold eapIdentity
      rw [show (0 : Int) = (0 : Nat) from rfl, hcode, ok_bind,
        show (4 : Int) = (4 : Nat) from rfl, htype, ok_bind]
      split
      · exact ⟨_, rfl⟩
      · rw [hp, ok_bind]
        split
        · exact ⟨_, rfl⟩
        · next hmore =>
            obtain ⟨first, hfirst⟩ := hget (i := 5) (by omega)
            rw [show (5 : Int) = (5 : Nat) from rfl, hfirst, ok_bind]
            split
            · exact ⟨_, rfl⟩
            · rw [show ((5 : Nat) : Int) = 5 from rfl, hdata, ok_bind]
              exact ⟨_, rfl⟩
    have hbuild : ∃ response, eapBuildds packet = .ok response := by
      unfold eapBuildds
      rw [show (0 : Int) = (0 : Nat) from rfl, hcode, ok_bind,
        show (1 : Int) = (1 : Nat) from rfl, hid, ok_bind,
        show (4 : Int) = (4 : Nat) from rfl, htype, ok_bind, hp, ok_bind,
        hdata, ok_bind]
      exact ⟨_, rfl⟩
    rw [if_neg hshort]
    split
    · exact ⟨false, rfl, fun h => absurd h Bool.false_ne_true⟩
    · rw [show (4 : Int) = (4 : Nat) from rfl, htype, ok_bind]
      exact ⟨_, rfl, fun _ => ⟨h5, hident, hbuild⟩⟩

/-- After a search, every handler is accounted for by what it returns. -/
theorem find_accounts {timestamp : Int} {found : Option EapSession}
    (hgone : ∀ a ∈ Represents.freedBy inst timestamp l found,
      inst'.handlers.lookup a = none)
    (hlive : ∀ a, a ≠ myHandler →
      a ∉ Represents.freedBy inst timestamp l found →
      (inst'.handlers.lookup a).isSome = (inst.handlers.lookup a).isSome) :
    Accounted inst inst' l ((unexpired inst.timerLimit timestamp l).filter
      fun s => some s ≠ found) (answerOf found) := by
  intro a ha hsome
  have hout : a ∉ Represents.freedBy inst timestamp l found := by
    intro hin
    rw [hgone a hin] at hsome
    cases hsome
  have hinst := hlive a ha hout
  rw [hsome] at hinst
  by_cases hin : a ∈ l.map EapSession.handler
  · obtain ⟨t, ht, rfl⟩ := List.mem_map.mp hin
    rw [Represents.freedBy, List.mem_append, not_or] at hout
    rw [← oldFront_append inst.timerLimit timestamp 3 l] at ht
    have hleft : t ∈ unexpired inst.timerLimit timestamp l :=
      (List.mem_append.mp ht).resolve_left fun hold =>
        hout.1 (List.mem_map_of_mem hold)
    by_cases hfound : some t = found
    · rw [← hfound, givenUp] at hout
      have htrips : ¬ 50 ≤ t.held.trips := fun h50 => hout.2 (by
        rw [if_pos h50]
        exact List.mem_singleton_self _)
      rw [← hfound, answerOf, if_neg htrips]
      exact .inr (.inl rfl)
    · refine .inl (List.mem_map_of_mem (List.mem_filter.mpr ⟨hleft, ?_⟩))
      exact decide_eq_true hfound
  · exact .inr (.inr ⟨hinst.symm, hin⟩)

theorem startRound_run {response : EapResponse} {e : EapHandler}
    (hbuild : eapBuildds packet = .ok response)
    (he : inst.handlers.lookup handler = some e) :
    ∃ e', inst.startRound handler packet request
      = .ok (inst.setHandler handler e') := by
  rw [startRound, hbuild, ok_bind, modify_eq _ he]
  exact ⟨_, rfl⟩

/-- A write to the handler that is returned. -/
theorem Accounted.set {l' : List EapSession} {e : EapHandler}
    (h : Accounted inst inst' l l' (some handler)) :
    Accounted inst (inst'.setHandler handler e) l l' (some handler) := by
  intro a ha hsome
  by_cases heq : a = handler
  · rw [heq]
    exact .inr (.inl rfl)
  · rw [setHandler, FiniteMap.lookup_insert, if_neg heq] at hsome
    exact h a ha hsome

section answer

variable {mid : RlmEap} {type id : UInt8} {hd : EapHandler}
  {request' : EapRequest} {returned : Option Nat}

/-- Without a session the answer is not handled. -/
theorem eapHandler_missed (hvalid : eapValidation packet = .ok true)
    (htype : fetch packet 4 = .ok type)
    (hident : type.toNat ≠ pwEapIdentity) (hid : fetch packet 1 = .ok id)
    (hfind : inst.eaplistFind request id.toNat = .ok (mid, none)) :
    inst.eapHandler pairmake malloc packet request
      = .ok (mid, request, none) := by
  unfold eapHandler
  rw [hvalid, ok_bind, if_neg (by simp), htype, ok_bind, if_pos hident, hid,
    ok_bind, hfind]
  rfl

theorem answerOf_eq_some {found : Option EapSession}
    (h : answerOf found = some a) :
    ∃ s, found = some s ∧ s.held.trips < 50 ∧ s.handler = a := by
  cases found with
  | none => cases h
  | some s =>
      rw [answerOf] at h
      split at h
      · cases h
      · next htrips => exact ⟨s, rfl, not_le.mp htrips, Option.some.inj h⟩

theorem eapHandler_invalid (inst : RlmEap)
    (hvalid : eapValidation packet = .ok false) :
    inst.eapHandler pairmake malloc packet request
      = .ok (inst, request, none) := by
  rw [eapHandler, hvalid]
  rfl

/-- A valid packet is handled without an overread. -/
theorem eapHandler_returns (h : inst.Represents l)
    (hvalid : eapValidation packet = .ok true) (h5 : 5 ≤ packet.length)
    (hidentity : ∃ identity, eapIdentity packet = .ok identity)
    (hbuild : ∃ response, eapBuildds packet = .ok response)
    (hknown : ∀ s ∈ l, s.held.identity ≠ none) :
    ∃ r, inst.eapHandler pairmake malloc packet request = .ok r := by
  have hget {i : Nat} (hi : i < packet.length) :
      ∃ b, fetch packet i = .ok b :=
    fetch_isOk (Int.natCast_nonneg i) (by omega)
  obtain ⟨type, htype⟩ := hget (i := 4) (by omega)
  obtain ⟨id, hid⟩ := hget (i := 1) (by omega)
  obtain ⟨identity, hidentity⟩ := hidentity
  obtain ⟨response, hbuild⟩ := hbuild
  by_cases hident : type.toNat = pwEapIdentity
  · obtain ⟨a, ha⟩ : ∃ a, a = malloc.address (0 :: inst.handlers.keys) :=
      ⟨_, rfl⟩
    have hset (i : RlmEap) (e : EapHandler) :
        (i.setHandler a e).handlers.lookup a = some e :=
      AList.lookup_insert i.handlers
    unfold eapHandler
    rw [hvalid, ok_bind, if_neg (by simp),
      show fetch packet 4 = .ok type from htype, ok_bind,
      if_neg (not_not.mpr hident), ← ha, hidentity, ok_bind]
    cases identity with
    | none =>
        dsimp only
        rw [@eapHandlerFree_eq (inst.eapHandlerAlloc a) a {}
          (hset inst {})]
        exact ⟨_, rfl⟩
    | some identity =>
        dsimp only
        rw [@modify_eq (inst.eapHandlerAlloc a) a {} _ (hset inst {}),
          ok_bind]
        cases hname : nameUser pairmake identity request with
        | none =>
            rw [eapHandlerFree_eq (hset _ _)]
            exact ⟨_, rfl⟩
        | some named =>
            obtain ⟨e, hstart⟩ := @startRound_run _ packet named a _ _ hbuild
              (hset (inst.eapHandlerAlloc a) { identity := some identity })
            exact ⟨_, congrArg (· >>= fun i => .ok (i, named, some a))
              hstart⟩
  · cases hsent : sentState request with
    | none =>
        exact ⟨_, eapHandler_missed hvalid htype hident hid
          (Represents.eaplistFind_unsent inst hsent id.toNat)⟩
    | some state =>
        obtain ⟨found, mid, hfound, hfind, -, -, hlive, -⟩ :=
          h.eaplistFind_run hsent id.toNat
        cases hanswer : answerOf found with
        | none =>
            rw [hanswer] at hfind
            exact ⟨_, eapHandler_missed hvalid htype hident hid hfind⟩
        | some a =>
            obtain ⟨s, rfl, htrips, rfl⟩ := answerOf_eq_some hanswer
            rw [hanswer] at hfind
            have hcell := hlive s rfl htrips
            have hs : s ∈ l := (List.drop_sublist _ _).subset
              (findSession_matches hfound.symm).1
            unfold eapHandler
            rw [hvalid, ok_bind, if_neg (by simp),
              show fetch packet 4 = .ok type from htype, ok_bind,
              if_pos hident, show fetch packet 1 = .ok id from hid, ok_bind,
              hfind]
            show ∃ r, (mid.deref s.handler >>= _) = .ok r
            rw [deref_eq hcell, ok_bind]
            split
            · exact ⟨_, rfl⟩
            · cases hknow : s.held.goesOn.identity with
              | none => exact absurd hknow (hknown s hs)
              | some identity =>
                  dsimp only
                  cases hname : nameUser pairmake identity request with
                  | none => exact ⟨_, rfl⟩
                  | some named =>
                      obtain ⟨e, hstart⟩ :=
                        @startRound_run _ packet named _ _ _ hbuild hcell
                      exact ⟨_, congrArg
                        (· >>= fun i => .ok (i, named, some s.handler))
                        hstart⟩

/-- With a session it is, or the handler is left as the search left it. -/
theorem eapHandler_found (hvalid : eapValidation packet = .ok true)
    (htype : fetch packet 4 = .ok type)
    (hident : type.toNat ≠ pwEapIdentity) (hid : fetch packet 1 = .ok id)
    (hfind : inst.eaplistFind request id.toNat = .ok (mid, some handler))
    (hcell : mid.handlers.lookup handler = some hd)
    (hrun : inst.eapHandler pairmake malloc packet request
      = .ok (inst', request', returned)) :
    (Unfit pairmake type request hd ∧ inst' = mid ∧ returned = none)
      ∨ (¬ Unfit pairmake type request hd ∧ returned = some handler
        ∧ ∃ e, inst' = mid.setHandler handler e) := by
  unfold eapHandler at hrun
  rw [hvalid, ok_bind, if_neg (by simp), htype, ok_bind, if_pos hident, hid,
    ok_bind, hfind] at hrun
  change (mid.deref handler >>= _) = _ at hrun
  rw [deref_eq hcell, ok_bind] at hrun
  split at hrun
  · next hwrong =>
      cases hrun
      exact .inl ⟨.inl hwrong, rfl, rfl⟩
  · next hright =>
      cases hidentity : hd.identity with
      | none =>
          rw [hidentity] at hrun
          cases hrun
      | some identity =>
          rw [hidentity] at hrun
          dsimp only at hrun
          cases hname : nameUser pairmake identity request with
          | none =>
              rw [hname] at hrun
              cases hrun
              refine .inl ⟨.inr ?_, rfl, rfl⟩
              rw [hidentity]
              exact hname
          | some named =>
              rw [hname] at hrun
              obtain ⟨last, hstart, hend⟩ := bind_eq_ok.mp hrun
              cases hend
              obtain ⟨response, -, hset⟩ := bind_eq_ok.mp hstart
              rw [modify_eq _ hcell] at hset
              refine .inr ⟨?_, rfl, _, (Except.ok.inj hset).symm⟩
              rintro (hwrong | hnone)
              · exact hright hwrong
              · rw [hidentity, Option.getD_some, hname] at hnone
                cases hnone

/-- What a new session changes: one cell, that nobody had. -/
structure Fresh (inst inst' : RlmEap) (returned : Option Nat) (a : Nat) :
    Prop where
  rest : ∃ handlers, inst' = { inst with handlers := handlers }
  others : ∀ b, b ≠ a →
    inst'.handlers.lookup b = inst.handlers.lookup b
  mine : inst'.handlers.lookup a = none ∨ returned = some a

/-- An identity makes a handler, which is returned or freed. -/
theorem eapHandler_fresh (hvalid : eapValidation packet = .ok true)
    (htype : fetch packet 4 = .ok type)
    (hident : type.toNat = pwEapIdentity)
    (hrun : inst.eapHandler pairmake malloc packet request
      = .ok (inst', request', returned)) :
    Fresh inst inst' returned
      (malloc.address (0 :: inst.handlers.keys)) := by
  obtain ⟨a, ha⟩ : ∃ a, a = malloc.address (0 :: inst.handlers.keys) :=
    ⟨_, rfl⟩
  unfold eapHandler at hrun
  rw [hvalid, ok_bind, if_neg (by simp), htype, ok_bind,
    if_neg (not_not.mpr hident), ← ha] at hrun
  rw [← ha]
  have hset (i : RlmEap) (e : EapHandler) :
      (i.setHandler a e).handlers.lookup a = some e :=
    AList.lookup_insert i.handlers
  have hother (i : RlmEap) (e : EapHandler) {b : Nat} (hb : b ≠ a) :
      (i.setHandler a e).handlers.lookup b = i.handlers.lookup b :=
    AList.lookup_insert_ne hb
  have hfreed (i : RlmEap) (hi : ∃ H, i = { inst with handlers := H })
      (hcell : ∃ e, i.handlers.lookup a = some e)
      (hothers : ∀ b, b ≠ a →
        i.handlers.lookup b = inst.handlers.lookup b)
      (hend : (do return (← i.eapHandlerFree a, request, none))
        = (.ok (inst', request', returned) : Mem _)) :
      Fresh inst inst' returned a := by
    obtain ⟨H, rfl⟩ := hi
    obtain ⟨e, he⟩ := hcell
    rw [eapHandlerFree_eq he] at hend
    cases hend
    refine ⟨⟨_, rfl⟩, fun b hb => ?_, .inl ?_⟩
    · rw [release, FiniteMap.lookup_erase, if_neg hb]
      exact hothers b hb
    · rw [release, FiniteMap.lookup_erase, if_pos rfl]
  obtain ⟨found, hidentity, hrest⟩ := bind_eq_ok.mp hrun
  cases found with
  | none =>
      exact hfreed _ ⟨_, rfl⟩ ⟨_, hset inst {}⟩
        (fun b hb => hother inst {} hb) hrest
  | some identity =>
      dsimp only at hrest
      rw [@modify_eq (inst.eapHandlerAlloc a) a {} _ (hset inst {}),
        ok_bind] at hrest
      cases hname : nameUser pairmake identity request with
      | none =>
          rw [hname] at hrest
          refine hfreed ((inst.eapHandlerAlloc a).setHandler a
            { identity := some identity }) ⟨_, rfl⟩ ⟨_, hset _ _⟩
            (fun b hb => ?_) hrest
          rw [hother _ _ hb]
          exact hother inst {} hb
      | some named =>
          rw [hname] at hrest
          obtain ⟨last, hstart, hend⟩ := bind_eq_ok.mp hrest
          cases hend
          obtain ⟨response, -, hlast⟩ := bind_eq_ok.mp hstart
          rw [modify_eq _ (hset _ _)] at hlast
          cases hlast
          refine ⟨⟨_, rfl⟩, fun b hb => ?_, .inr rfl⟩
          rw [hother _ _ hb, hother _ _ hb]
          exact hother inst {} hb

/-- Where no handler is given back or made, each is accounted for. -/
theorem Accounted.unchanged : Accounted inst inst l l returned := by
  intro a ha hsome
  by_cases hin : a ∈ l.map EapSession.handler
  · exact .inl hin
  · exact .inr (.inr ⟨hsome, hin⟩)

/-- The address of a new handler is not one of a session. -/
theorem Represents.ne_fresh (h : inst.Represents l) {s : EapSession}
    (hs : s ∈ l) :
    s.handler ≠ malloc.address (0 :: inst.handlers.keys) := by
  obtain ⟨e, he, -⟩ := h.cells s hs
  intro heq
  refine malloc.fresh (0 :: inst.handlers.keys) ?_
  rw [← heq]
  refine List.mem_cons_of_mem _ (AList.mem_keys.mp ?_)
  exact AList.lookup_isSome.mp (by rw [he]; rfl)

theorem Fresh.accounted (h : inst.Represents l)
    (hf : Fresh inst inst' returned
      (malloc.address (0 :: inst.handlers.keys))) :
    inst'.Represents l ∧ Accounted inst inst' l l returned := by
  obtain ⟨H, hrest⟩ := hf.rest
  refine ⟨h.frame (fun s hs => hf.others _ (h.ne_fresh hs)) (by rw [hrest])
    (by rw [hrest]) (by rw [hrest]) (by rw [hrest]), fun a ha hsome => ?_⟩
  by_cases heq : a = malloc.address (0 :: inst.handlers.keys)
  · refine .inr (.inl ?_)
    rw [heq]
    refine hf.mine.resolve_left fun hnone => ?_
    rw [heq, hnone] at hsome
    cases hsome
  · rw [hf.others a heq] at hsome
    exact Accounted.unchanged a ha hsome

/-- The answer of a session that is found: the handler is accounted for if
and only if it fits. -/
theorem found_accounts_iff {s : EapSession} {l' : List EapSession}
    (hrep : mid.Represents l') (hs : s ∈ l) (hnot : s ∉ l')
    (hstack : s.handler ≠ myHandler)
    (hsub : ∀ t ∈ l', t.handler = s.handler → t = s)
    (hlive : mid.handlers.lookup s.handler = some s.held.goesOn)
    (hacc : Accounted inst mid l l' (some s.handler))
    (hend : (Unfit pairmake type request s.held.goesOn ∧ inst' = mid
        ∧ returned = none)
      ∨ (¬ Unfit pairmake type request s.held.goesOn
        ∧ returned = some s.handler
        ∧ ∃ e, inst' = mid.setHandler s.handler e)) :
    inst'.Represents l'
      ∧ (Accounted inst inst' l l' returned
        ↔ ¬ Unfit pairmake type request s.held) := by
  have hout : ∀ t ∈ l', t.handler ≠ s.handler := fun t ht heq =>
    hnot (hsub t ht heq ▸ ht)
  rcases hend with ⟨hunfit, rfl, rfl⟩ | ⟨hfit, rfl, e, rfl⟩
  · refine ⟨hrep, fun h => ?_, fun hfit => absurd hunfit hfit⟩
    rcases h s.handler hstack (by rw [hlive]; rfl) with hin | hin | hin
    · obtain ⟨t, ht, heq⟩ := List.mem_map.mp hin
      exact absurd heq (hout t ht)
    · cases hin
    · exact absurd (List.mem_map_of_mem hs) hin.2
  · exact ⟨hrep.set_other hout, fun _ => hfit, fun _ => hacc.set⟩

/-- An answer to what is not an identity request: the search, and what
comes after it. -/
theorem eapHandler_search_accounts (h : inst.Represents l)
    (hvalid : eapValidation packet = .ok true)
    (htype : fetch packet 4 = .ok type)
    (hident : type.toNat ≠ pwEapIdentity) (hid : fetch packet 1 = .ok id)
    (hrun : inst.eapHandler pairmake malloc packet request
      = .ok (inst', request', returned)) :
    ∃ l', inst'.Represents l'
      ∧ (Accounted inst inst' l l' returned
        ↔ ¬ Forgets inst l pairmake packet request) := by
  have hforgets : Forgets inst l pairmake packet request
      ↔ ∃ state s, sentState request = some state
        ∧ findSession state id.toNat
          (unexpired inst.timerLimit request.timestamp l) = some s
        ∧ s.held.trips < 50 ∧ Unfit pairmake type request s.held := by
    constructor
    · intro hf
      obtain ⟨type', id', state, s, -, htype', -, hid', hrest⟩ := hf
      rw [htype] at htype'
      rw [hid] at hid'
      cases htype'
      cases hid'
      exact ⟨state, s, hrest⟩
    · intro hf
      obtain ⟨state, s, hrest⟩ := hf
      exact ⟨type, id, state, s, hvalid, htype, hident, hid, hrest⟩
  rw [hforgets]
  cases hsent : sentState request with
  | none =>
      rw [eapHandler_missed hvalid htype hident hid
        (Represents.eaplistFind_unsent inst hsent id.toNat)] at hrun
      cases hrun
      refine ⟨l, h, fun _ hf => ?_, fun _ => Accounted.unchanged⟩
      obtain ⟨state, s, hnone, -⟩ := hf
      cases hnone
  | some state =>
      obtain ⟨found, mid, hfound, hfind, -, hrep, hlive, hgone, hkept⟩ :=
        h.eaplistFind_run hsent id.toNat
      have hacc := find_accounts hgone hkept
      cases hanswer : answerOf found with
      | none =>
          rw [hanswer] at hfind hacc
          rw [eapHandler_missed hvalid htype hident hid hfind] at hrun
          cases hrun
          refine ⟨_, hrep, fun _ hf => ?_, fun _ => hacc⟩
          obtain ⟨state', s, hstate, hs, htrips, -⟩ := hf
          cases hstate
          rw [← hfound] at hs
          rw [hs, answerOf, if_neg (not_le.mpr htrips)] at hanswer
          cases hanswer
      | some a =>
          obtain ⟨s, rfl, htrips, rfl⟩ := answerOf_eq_some hanswer
          rw [hanswer] at hfind hacc
          have hcell := hlive s rfl htrips
          have hs : s ∈ l := (List.drop_sublist _ _).subset
            (findSession_matches hfound.symm).1
          have hnot : s ∉ (unexpired inst.timerLimit request.timestamp
              l).filter fun t => some t ≠ some s := by simp
          have hone := eapHandler_found hvalid htype hident hid hfind hcell
            hrun
          have hsub : ∀ t ∈ (unexpired inst.timerLimit request.timestamp
              l).filter (fun t => some t ≠ some s),
              t.handler = s.handler → t = s := by
            intro t ht heq
            have htl := (List.drop_sublist _ _).subset
              (List.filter_sublist.subset ht)
            exact h.session_unique htl hs heq
          obtain ⟨hrep', hiff⟩ := found_accounts_iff hrep hs hnot
            (h.ne_stack hs) hsub hcell hacc hone
          refine ⟨_, hrep', hiff.trans (not_congr ⟨fun hunfit => ?_,
            fun hf => ?_⟩)⟩
          · exact ⟨state, s, rfl, hfound.symm, htrips, hunfit⟩
          · obtain ⟨state', s', hstate, hs', -, hunfit⟩ := hf
            cases hstate
            rw [← hfound] at hs'
            cases hs'
            exact hunfit

/-- Where `eap_handler` returns, every handler that it took out of the
list or made is returned or freed, unless a session is found that does not
go on with the answer. It returns for every packet that has the length of
its header, as those of `eap_vp2packet` have, where every session has an
identity. -/
theorem eapHandler_accounts_iff (inst : RlmEap) (l : List EapSession)
    (pairmake : List UInt8 → List UInt8 → Option ValuePair)
    (malloc : Malloc) (packet : List UInt8) (request : EapRequest)
    (h : inst.Represents l) :
    (∀ inst' request' returned,
      inst.eapHandler pairmake malloc packet request
          = .ok (inst', request', returned) →
        ∃ l', inst'.Represents l'
          ∧ (Accounted inst inst' l l' returned
            ↔ ¬ Forgets inst l pairmake packet request))
      ∧ (eapLength packet = .ok packet.length →
        (∀ s ∈ l, s.held.identity ≠ none) →
        ∃ r, inst.eapHandler pairmake malloc packet request = .ok r) := by
  constructor
  · intro inst' request' returned hrun
    obtain ⟨valid, hvalid, hrest⟩ := bind_eq_ok.mp hrun
    cases valid with
    | false =>
        rw [if_pos (by rfl)] at hrest
        cases hrest
        refine ⟨l, h, fun _ hf => ?_, fun _ => Accounted.unchanged⟩
        obtain ⟨type, id, state, s, hvalid', -⟩ := hf
        rw [hvalid] at hvalid'
        cases hvalid'
    | true =>
        rw [if_neg (by simp)] at hrest
        obtain ⟨type, htype, hrest⟩ := bind_eq_ok.mp hrest
        by_cases hident : type.toNat = pwEapIdentity
        · obtain ⟨hrep, hacc⟩ :=
            (eapHandler_fresh hvalid htype hident hrun).accounted h
          refine ⟨l, hrep, fun _ hf => ?_, fun _ => hacc⟩
          obtain ⟨type', id, state, s, -, htype', hident', -⟩ := hf
          rw [htype] at htype'
          cases htype'
          exact hident' hident
        · rw [if_pos hident] at hrest
          obtain ⟨id, hid, -⟩ := bind_eq_ok.mp hrest
          exact eapHandler_search_accounts h hvalid htype hident hid hrun
  · intro hp hidentity
    obtain ⟨valid, hvalid, hreads⟩ := eapPacket_reads hp
    cases valid with
    | false => exact ⟨_, eapHandler_invalid inst hvalid⟩
    | true =>
        obtain ⟨h5, hident, hbuild⟩ := hreads rfl
        exact eapHandler_returns h hvalid h5 hident hbuild hidentity

end answer

end handler

/-- A module whose caller has filled a handler for the user "b". -/
def heldEap : RlmEap :=
  { startedEap with
    handlers := (∅ : Cells EapHandler).insert 1
      { filledHandler with identity := some [98], eapType := 4 } }

/-- Every pair is an empty State. -/
def blankState : List UInt8 → List UInt8 → Option ValuePair :=
  fun _ _ => some { attr := 24, type := .octets }

/-- The module, with the handler in its list. -/
def listedEap : RlmEap :=
  match heldEap.eaplistAdd blankState 1 firstRequest with
  | .ok (inst, _, _) => inst
  | .error _ => heldEap

/-- The answer of the client, and the request with its State and name. -/
def md5Answer : List UInt8 := [2, 7, 0, 6, 4, 0]

def md5Request : EapRequest :=
  { number := 6
    packet := { vps := [
      { attr := 1, type := .string, length := 1, data := [98] },
      { attr := 24, type := .octets, length := 16
        data := [0, 0, 0, 0, 0, 7, 4, 0, 2, 0, 0, 0, 3, 0, 0, 0] }] }
    timestamp := 1010 }

/-- The one session of the list. -/
theorem listedEap_represents : ∃ s : EapSession, listedEap.Represents [s]
    ∧ s.held.eapType = 4 ∧ s.held.identity = some [98] := by
  have hheld : heldEap.Represents [] :=
    (startedEap_started.represents).frame
      (fun s hs => absurd hs List.not_mem_nil) rfl rfl rfl rfl
  obtain ⟨inst', request', added, hadd, -, -, hyes⟩ :=
    @Represents.eaplistAdd_run heldEap [] 1 _ _ firstRequest blankState
      hheld ⟨rfl, by decide, by decide, rfl, rfl⟩
  have hlisted : listedEap = inst' := by
    unfold listedEap
    rw [hadd]
  have hadded : ((heldEap.eaplistAdd blankState 1
      firstRequest).toOption.map fun r => r.2.2) = some true := by
    decide +kernel
  rw [hadd] at hadded
  cases hadded
  obtain ⟨-, s, -, hs, -, -, hrep, -⟩ := hyes rfl
  rw [← hlisted] at hrep
  obtain ⟨h, hcell, hh⟩ := hrep.cells s List.mem_cons_self
  have hkept : ((listedEap.handlers.lookup 1).map fun h =>
      (h.unlinked.eapType, h.unlinked.identity)) = some (4, some [98]) := by
    decide +kernel
  rw [← hs, hcell, Option.map_some, hh] at hkept
  obtain ⟨htype, hidentity⟩ := Prod.mk.inj (Option.some.inj hkept)
  exact ⟨s, hrep, htype, hidentity⟩

/-- The session is found, fits the answer and is returned. -/
theorem eapHandler_accounts_iff_found :
    ∃ s inst' request' l', listedEap.Represents [s]
      ∧ listedEap.eapHandler blankState .above md5Answer md5Request
        = .ok (inst', request', some 1)
      ∧ inst'.Represents l'
      ∧ Accounted listedEap inst' [s] l' (some 1) := by
  obtain ⟨s, hrep, htype, hidentity⟩ := listedEap_represents
  obtain ⟨hends, hreturns⟩ := eapHandler_accounts_iff listedEap [s]
    blankState .above md5Answer md5Request hrep
  obtain ⟨⟨inst', request', returned⟩, hrun⟩ := hreturns rfl fun t ht => by
    rw [List.mem_singleton.mp ht, hidentity]
    exact Option.some_ne_none _
  have hone : ((listedEap.eapHandler blankState .above md5Answer
      md5Request).toOption.map fun r => r.2.2) = some (some 1) := by
    decide +kernel
  rw [hrun] at hone
  cases hone
  obtain ⟨l', hrep', hiff⟩ := hends inst' request' (some 1) hrun
  refine ⟨s, inst', request', l', hrep, hrun, hrep', hiff.mpr ?_⟩
  rintro ⟨type, id, state, t, -, ht, -, -, -, hfound, -, hunfit⟩
  have hts := (List.drop_sublist _ _).subset (findSession_matches hfound).1
  cases ht
  rw [List.mem_singleton.mp hts] at hunfit
  rcases hunfit with ⟨-, hother⟩ | hname
  · exact hother htype.symm
  · rw [hidentity] at hname
    cases hname

end RlmEap

end WinRadius
