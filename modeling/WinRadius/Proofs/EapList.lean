/-
The session tree and the session list hold the same handlers.

`Represents` says what an instance of the module stands for: a list of
sessions in the order of insertion, each the address of a handler with
what lies there. `eaplist_expire` takes sessions from its front,
`eaplist_delete` one from its middle, and `eaplist_add` puts one behind
it. The comparison of the tree reads the handlers, so the tree stays in
order as long as the handlers it holds keep their State and EAP id: that
is what `Represents.cells` is for.
-/
import WinRadius.Model.EapList
import WinRadius.Proofs.PacketKeys
import WinRadius.Proofs.RbTree

namespace WinRadius

open Lib

-- ======== keys

/-- What `eap_handler_cmp` compares, as a list that Mathlib orders. -/
def handlerKey (h : EapHandler) : List Int :=
  (h.eapId : Int) :: byteKey h.state.bytes

/-- Sessions have one key where the EAP id and the State agree. -/
theorem handlerKey_inj {g h : EapHandler} :
    handlerKey g = handlerKey h ↔ g.eapId = h.eapId ∧ g.state = h.state := by
  unfold handlerKey
  rw [List.cons.injEq, byteKey_inj, Int.natCast_inj]
  refine and_congr_right fun _ => ⟨fun hb => ?_, fun hs => by rw [hs]⟩
  cases hg : g.state
  cases hh : h.state
  simp only [hg, hh] at hb
  simp only [hb]

/-- `eap_handler_cmp` is the order of the keys. -/
theorem eapHandlerCmp_spec (g h : EapHandler) :
    (eapHandlerCmp g h < 0 ↔ handlerKey g < handlerKey h)
      ∧ (eapHandlerCmp g h = 0 ↔ handlerKey g = handlerKey h) := by
  obtain ⟨h1, h2⟩ := memcmp_spec (a := g.state.bytes) (b := h.state.bytes)
    (by rw [g.state.len, h.state.len])
  unfold handlerKey eapHandlerCmp
  rw [List.cons_lt_cons_iff, List.cons.injEq, ← h1, ← h2, Nat.cast_lt,
    Nat.cast_inj]
  exact ⟨cmp_lt_iff _ _ _, cmp_eq_iff _ _ _⟩

namespace RlmEap

variable {inst inst' : RlmEap} {a b : Nat} {e : EapHandler}

theorem tree_lawful (inst : RlmEap) :
    RbLawful inst.tree.compare (fun _ => True)
      fun a => handlerKey (inst.cell a) where
  lt_iff _ _ _ := (eapHandlerCmp_spec _ _).1
  eq_iff _ _ _ := (eapHandlerCmp_spec _ _).2

-- ======== cells

theorem cell_eq (h : inst.handlers.lookup a = some e) :
    inst.cell a = e := by
  rw [cell, h, Option.getD_some]

theorem deref_eq (h : inst.handlers.lookup a = some e) :
    inst.deref a = .ok e := by
  rw [deref, h]
  rfl

theorem modify_eq (f : EapHandler → EapHandler)
    (h : inst.handlers.lookup a = some e) :
    inst.modify a f = .ok (inst.setHandler a (f e)) := by
  rw [modify, deref_eq h]
  rfl

theorem eapHandlerFree_eq (h : inst.handlers.lookup a = some e) :
    inst.eapHandlerFree a = .ok (inst.release a) := by
  rw [eapHandlerFree, deref_eq h]
  rfl

end RlmEap

/-- A handler without its place in the list. -/
def EapHandler.unlinked (h : EapHandler) : EapHandler :=
  { h with prev := none, next := none }

theorem handlerKey_unlinked (h : EapHandler) :
    handlerKey h.unlinked = handlerKey h := rfl

-- ======== links

namespace RlmEap

/-- The configuration is the same. -/
def SameLimits (inst' inst : RlmEap) : Prop :=
  inst'.timerLimit = inst.timerLimit ∧ inst'.maxSessions = inst.maxSessions

/-- Only links of the list are changed. -/
structure Relinked (inst inst' : RlmEap) : Prop where
  cells : ∀ a, (inst'.handlers.lookup a).map EapHandler.unlinked
    = (inst.handlers.lookup a).map EapHandler.unlinked
  rest : ∃ handlers head tail, inst' = { inst with
    handlers := handlers, sessionHead := head, sessionTail := tail }

section links

variable {inst mid inst' : RlmEap} {a x : Nat} {e : EapHandler}
  {r : Option Nat} {A B : List Nat}

theorem Relinked.trans (h : Relinked inst mid) (h' : Relinked mid inst') :
    Relinked inst inst' := by
  obtain ⟨H, hd, tl, rfl⟩ := h.rest
  obtain ⟨H', hd', tl', rfl⟩ := h'.rest
  exact ⟨fun a => (h'.cells a).trans (h.cells a), _, _, _, rfl⟩

/-- A handler is still there, its links aside as it was. -/
theorem Relinked.lookup (h : Relinked inst inst')
    (he : inst.handlers.lookup a = some e) :
    ∃ e', inst'.handlers.lookup a = some e' ∧ e'.unlinked = e.unlinked := by
  have hcell := h.cells a
  rw [he] at hcell
  exact Option.map_eq_some_iff.mp hcell

/-- A write that only moves links. -/
theorem relinked_set (e' : EapHandler)
    (he : inst.handlers.lookup a = some e)
    (hsame : e'.unlinked = e.unlinked) :
    Relinked inst (inst.setHandler a e') := by
  refine ⟨fun b => ?_, _, _, _, rfl⟩
  rw [setHandler, FiniteMap.lookup_insert]
  split
  · next hb =>
      rw [hb, he, Option.map_some, Option.map_some, hsame]
  · rfl

theorem nexts_setNext (he : inst.handlers.lookup a = some e) :
    fieldOf (inst.setHandler a { e with next := r }).handlers (·.next)
        = Function.update (fieldOf inst.handlers (·.next)) a r
      ∧ fieldOf (inst.setHandler a { e with next := r }).handlers (·.prev)
        = fieldOf inst.handlers (·.prev) := by
  refine ⟨fieldOf_insert _ _ _ _, (fieldOf_insert _ _ _ _).trans ?_⟩
  refine Function.update_eq_self_iff.mpr ?_
  rw [fieldOf, he]
  rfl

theorem prevs_setPrev (he : inst.handlers.lookup a = some e) :
    fieldOf (inst.setHandler a { e with prev := r }).handlers (·.prev)
        = Function.update (fieldOf inst.handlers (·.prev)) a r
      ∧ fieldOf (inst.setHandler a { e with prev := r }).handlers (·.next)
        = fieldOf inst.handlers (·.next) := by
  refine ⟨fieldOf_insert _ _ _ _, (fieldOf_insert _ _ _ _).trans ?_⟩
  refine Function.update_eq_self_iff.mpr ?_
  rw [fieldOf, he]
  rfl

/-- The handlers in `gone` are freed; of the others, only links are
changed. -/
structure Releases (inst inst' : RlmEap) (gone : List Nat) : Prop where
  freed : ∀ a ∈ gone, inst'.handlers.lookup a = none
  kept : ∀ a ∉ gone, (inst'.handlers.lookup a).map EapHandler.unlinked
    = (inst.handlers.lookup a).map EapHandler.unlinked
  rest : ∃ handlers tree head tail, inst' = { inst with
    handlers := handlers, sessionTree := tree, sessionHead := head
    sessionTail := tail }

theorem Releases.refl (inst : RlmEap) : Releases inst inst [] :=
  ⟨fun _ h => absurd h List.not_mem_nil, fun _ _ => rfl, _, _, _, _, rfl⟩

/-- What two stretches free is freed by both together. -/
theorem Releases.trans {g g' : List Nat} (h : Releases inst mid g)
    (h' : Releases mid inst' g') : Releases inst inst' (g ++ g') := by
  obtain ⟨H, t, hd, tl, rfl⟩ := h.rest
  obtain ⟨H', t', hd', tl', rfl⟩ := h'.rest
  refine ⟨fun a ha => ?_, fun a ha => ?_, _, _, _, _, rfl⟩
  · by_cases hg : a ∈ g'
    · exact h'.freed a hg
    · have hnone := h'.kept a hg
      rw [h.freed a ((List.mem_append.mp ha).resolve_right hg)] at hnone
      exact Option.map_eq_none_iff.mp hnone
  · rw [List.mem_append, not_or] at ha
    exact (h'.kept a ha.2).trans (h.kept a ha.1)

theorem links_setRequest (he : inst.handlers.lookup a = some e) :
    fieldOf (inst.setHandler a { e with request := r }).handlers (·.next)
        = fieldOf inst.handlers (·.next)
      ∧ fieldOf (inst.setHandler a { e with request := r }).handlers (·.prev)
        = fieldOf inst.handlers (·.prev) := by
  refine ⟨(fieldOf_insert _ _ _ _).trans ?_,
    (fieldOf_insert _ _ _ _).trans ?_⟩
  · refine Function.update_eq_self_iff.mpr ?_
    rw [fieldOf, he]
    rfl
  · refine Function.update_eq_self_iff.mpr ?_
    rw [fieldOf, he]
    rfl

/-- What led to a handler leads past it. -/
theorem unspliceNext_run
    (hforward : Segment id (fieldOf inst.handlers (·.next))
      inst.sessionHead (A ++ x :: B) none)
    (hbackward : Segment id (fieldOf inst.handlers (·.prev))
      inst.sessionTail (A ++ x :: B).reverse none)
    (hnd : (A ++ x :: B).Nodup)
    (hcells : ∀ a ∈ A ++ x :: B, ∃ e, inst.handlers.lookup a = some e) :
    ∃ inst', inst.unspliceNext x = .ok inst' ∧ Relinked inst inst'
      ∧ Segment id (fieldOf inst'.handlers (·.next)) inst'.sessionHead
        (A ++ B) none
      ∧ fieldOf inst'.handlers (·.prev) = fieldOf inst.handlers (·.prev)
      ∧ inst'.sessionTail = inst.sessionTail
      ∧ fieldOf inst'.handlers (·.next) x
        = fieldOf inst.handlers (·.next) x := by
  obtain ⟨e, he⟩ := hcells x (by simp)
  have hnext : fieldOf inst.handlers (·.next) x = e.next := by
    rw [fieldOf, he]
    rfl
  have hprev : e.prev = A.getLast? := by
    rw [List.reverse_append, List.reverse_cons, List.append_assoc,
      List.singleton_append] at hbackward
    have hstart := hbackward.behind.start_eq
    rw [id, fieldOf, he, List.head?_reverse] at hstart
    exact hstart
  rcases List.eq_nil_or_concat A with rfl | ⟨A, p, rfl⟩
  · have hnone : e.prev = none := hprev
    refine ⟨{ inst with sessionHead := e.next }, ?_, ⟨fun _ => rfl, _, _, _,
      rfl⟩, ?_, rfl, rfl, rfl⟩
    · rw [unspliceNext, deref_eq he, ok_bind, hnone]
      rfl
    · rw [← hnext]
      exact hforward.2
  · rw [List.concat_eq_append] at *
    have hlast : e.prev = some p := by
      rw [hprev, List.getLast?_concat]
    obtain ⟨ep, hep⟩ := hcells p (by simp)
    have hp : (∀ z ∈ A, z ≠ p) ∧ (∀ z ∈ B, z ≠ p) ∧ x ≠ p := by
      rw [List.append_assoc, List.singleton_append, List.nodup_middle,
        List.nodup_cons] at hnd
      refine ⟨fun z hz heq => ?_, fun z hz heq => ?_, fun heq => ?_⟩
      · exact hnd.1 (by rw [← heq]; simp [hz])
      · exact hnd.1 (by rw [← heq]; simp [hz])
      · exact hnd.1 (by rw [← heq]; simp)
    obtain ⟨hnexts, hprevs⟩ := nexts_setNext (r := e.next) hep
    refine ⟨inst.setHandler p { ep with next := e.next }, ?_,
      relinked_set _ hep rfl, ?_, hprevs, rfl, ?_⟩
    · rw [unspliceNext, deref_eq he, ok_bind, hlast]
      exact modify_eq _ hep
    · rw [hnexts, ← hnext]
      exact hforward.unlink hp.1 hp.2.1
    · rw [hnexts, Function.update_of_ne hp.2.2]

/-- What led back to a handler leads back past it; the forward links are
already past it. -/
theorem unsplicePrev_run (hnext : fieldOf inst.handlers (·.next) x = B.head?)
    (hbackward : Segment id (fieldOf inst.handlers (·.prev))
      inst.sessionTail (A ++ x :: B).reverse none)
    (hnd : (A ++ x :: B).Nodup)
    (hcells : ∀ a ∈ A ++ x :: B, ∃ e, inst.handlers.lookup a = some e) :
    ∃ inst', inst.unsplicePrev x = .ok inst' ∧ Relinked inst inst'
      ∧ Segment id (fieldOf inst'.handlers (·.prev)) inst'.sessionTail
        (A ++ B).reverse none
      ∧ fieldOf inst'.handlers (·.next) = fieldOf inst.handlers (·.next)
      ∧ inst'.sessionHead = inst.sessionHead := by
  obtain ⟨e, he⟩ := hcells x (by simp)
  rw [fieldOf, he] at hnext
  have hprev : fieldOf inst.handlers (·.prev) x = e.prev := by
    rw [fieldOf, he]
    rfl
  cases B with
  | nil =>
      have hnone : e.next = none := hnext
      refine ⟨{ inst with sessionTail := e.prev }, ?_, ⟨fun _ => rfl, _, _, _,
        rfl⟩, ?_, rfl, rfl⟩
      · rw [unsplicePrev, deref_eq he, ok_bind, hnone]
        rfl
      · rw [List.append_nil, ← hprev]
        rw [List.reverse_append] at hbackward
        exact hbackward.2
  | cons n B =>
      have hsome : e.next = some n := hnext
      obtain ⟨en, hen⟩ := hcells n (by simp)
      have hn : (∀ z ∈ B.reverse, z ≠ n) ∧ ∀ z ∈ A.reverse, z ≠ n := by
        rw [show A ++ x :: n :: B = (A ++ [x]) ++ n :: B by simp,
          List.nodup_middle, List.nodup_cons] at hnd
        refine ⟨fun z hz heq => ?_, fun z hz heq => ?_⟩
        · exact hnd.1 (by rw [← heq]; simp [List.mem_reverse.mp hz])
        · exact hnd.1 (by rw [← heq]; simp [List.mem_reverse.mp hz])
      obtain ⟨hprevs, hnexts⟩ := prevs_setPrev (r := e.prev) hen
      have hlist (C : List Nat) : (A ++ C).reverse = C.reverse ++ A.reverse :=
        List.reverse_append
      refine ⟨inst.setHandler n { en with prev := e.prev }, ?_,
        relinked_set _ hen rfl, ?_, hnexts, rfl⟩
      · rw [unsplicePrev, deref_eq he, ok_bind, hsome]
        exact modify_eq _ hen
      · rw [hprevs, ← hprev, hlist, List.reverse_cons]
        refine Segment.unlink ?_ hn.1 hn.2
        rw [hlist, List.reverse_cons, List.reverse_cons, List.append_assoc,
          List.singleton_append] at hbackward
        exact hbackward

/-- A handler is put behind the last one. -/
theorem append_run
    (hforward : Segment id (fieldOf inst.handlers (·.next))
      inst.sessionHead A none)
    (hbackward : Segment id (fieldOf inst.handlers (·.prev))
      inst.sessionTail A.reverse none)
    (hnd : A.Nodup) (hx : x ∉ A)
    (hcells : ∀ a ∈ A, ∃ e, inst.handlers.lookup a = some e)
    (he : inst.handlers.lookup x = some e) :
    ∃ inst', inst.append x = .ok inst' ∧ Relinked inst inst'
      ∧ Segment id (fieldOf inst'.handlers (·.next)) inst'.sessionHead
        (A ++ [x]) none
      ∧ Segment id (fieldOf inst'.handlers (·.prev)) inst'.sessionTail
        (A ++ [x]).reverse none := by
  have htail := hbackward.start_eq
  rcases List.eq_nil_or_concat A with rfl | ⟨A, p, rfl⟩
  · have hnone : inst.sessionTail = none := htail
    let alone : RlmEap := { inst with
      sessionHead := some x, sessionTail := some x }
    have hset : Relinked alone (alone.setHandler x { e with
        next := none, prev := none }) := relinked_set _ he rfl
    refine ⟨alone.setHandler x { e with next := none, prev := none }, ?_, ?_,
      ⟨rfl, ?_⟩, ⟨rfl, ?_⟩⟩
    · rw [append, hnone]
      show alone.modify x _ = _
      exact modify_eq _ he
    · obtain ⟨H, hd, tl, hrest⟩ := hset.rest
      exact ⟨hset.cells, H, hd, tl, hrest⟩
    · show fieldOf _ _ x = none
      rw [setHandler, fieldOf_insert, Function.update_self]
    · show fieldOf _ _ x = none
      rw [setHandler, fieldOf_insert, Function.update_self]
  · rw [List.concat_eq_append] at *
    have hsome : inst.sessionTail = some p := by
      rw [htail, List.reverse_append]
      rfl
    obtain ⟨ep, hep⟩ := hcells p (by simp)
    have hxp : x ≠ p := fun heq => hx (by rw [heq]; simp)
    have hp : ∀ z ∈ A, z ≠ p := by
      rw [List.nodup_append] at hnd
      exact fun z hz => hnd.2.2 z hz p (by simp)
    obtain ⟨hnexts, hprevs⟩ := nexts_setNext (r := some x) hep
    have hone := relinked_set { ep with next := some x } hep rfl
    have he' : (inst.setHandler p { ep with next := some x }).handlers.lookup x
        = some e := by
      rw [setHandler, FiniteMap.lookup_insert, if_neg hxp, he]
    have htwo := relinked_set { e with prev := some p, next := none }
      he' rfl
    obtain ⟨H, hd, tl, hrest⟩ := (hone.trans htwo).rest
    refine ⟨{ (inst.setHandler p { ep with next := some x }).setHandler x
      { e with prev := some p, next := none } with sessionTail := some x },
      ?_, ⟨(hone.trans htwo).cells, _, _, _, rfl⟩, ?_, ?_⟩
    · rw [append, hsome]
      show (inst.modify p _ >>= _) = _
      rw [modify_eq _ hep, ok_bind, modify_eq _ he']
      rfl
    · show Segment id (fieldOf ((inst.setHandler p _).handlers.insert x _) _) _
        _ none
      rw [fieldOf_insert, hnexts]
      refine segment_append.mpr ⟨some x, ?_, rfl, Function.update_self _ _ _⟩
      refine Segment.update ?_ fun z hz heq => hx (by rw [← heq]; exact hz)
      exact hforward.redirect hp
    · show Segment id (fieldOf ((inst.setHandler p _).handlers.insert x _) _)
        (some x) _ none
      rw [fieldOf_insert, hprevs, List.reverse_append]
      refine ⟨rfl, ?_⟩
      show Segment id _ (Function.update (fieldOf inst.handlers (·.prev)) x
        (some p) x) _ none
      rw [Function.update_self, ← hsome]
      exact hbackward.update fun z hz heq =>
        hx (by rw [← heq]; exact List.mem_reverse.mp hz)

end links

end RlmEap

-- ======== sessions

/-- A handler in the list. -/
structure EapSession where
  handler : Nat
  held : EapHandler
deriving DecidableEq

/-- Too old to stay in the list. -/
def EapSession.Old (limit timestamp : Int) (s : EapSession) : Prop :=
  limit < timestamp - s.held.timestamp

instance (limit timestamp : Int) (s : EapSession) :
    Decidable (s.Old limit timestamp) :=
  inferInstanceAs (Decidable (_ < _))

/-- What `k` rounds of `eaplist_expire` take from the front. -/
def oldFront (limit timestamp : Int) (k : Nat) (l : List EapSession) :
    List EapSession :=
  (l.take k).takeWhile fun s => s.Old limit timestamp

/-- The sessions that `eaplist_expire` leaves. -/
def unexpired (limit timestamp : Int) (l : List EapSession) : List EapSession :=
  l.drop (oldFront limit timestamp 3 l).length

/-- The expired sessions are the front of the list. -/
theorem oldFront_append (limit timestamp : Int) (k : Nat)
    (l : List EapSession) :
    oldFront limit timestamp k l
      ++ l.drop (oldFront limit timestamp k l).length = l :=
  List.prefix_iff_eq_append.mp
    ((List.takeWhile_prefix _).trans (List.take_prefix k l))

/-- What an answer has to carry to find the session. -/
def EapSession.Matches (state : AuthVector) (id : Nat) (s : EapSession) :
    Prop :=
  s.held.state = state ∧ s.held.eapId = id

instance (state : AuthVector) (id : Nat) (s : EapSession) :
    Decidable (s.Matches state id) :=
  inferInstanceAs (Decidable (_ ∧ _))

/-- The session an answer finds. -/
def findSession (state : AuthVector) (id : Nat) (l : List EapSession) :
    Option EapSession :=
  l.find? fun s => s.Matches state id

/-- The State that a request carries. -/
def sentState (request : EapRequest) : Option AuthVector :=
  match pairfind request.packet.vps pwState with
  | none => none
  | some state =>
      if state.length ≠ eapStateLen then none
      else some (RlmEap.stateOf state)

/-- A handler that goes on. -/
def EapHandler.goesOn (h : EapHandler) : EapHandler :=
  { h with trips := h.trips + 1, prevEapds := h.eapDs, eapDs := none }

/-- A session that has had 50 packets is given up when it is found. -/
def answerOf : Option EapSession → Option Nat
  | none => none
  | some s => if 50 ≤ s.held.trips then none else some s.handler

/-- The handler of a session that is given up. -/
def givenUp : Option EapSession → List Nat
  | none => []
  | some s => if 50 ≤ s.held.trips then [s.handler] else []

namespace RlmEap

/-- The sessions of the module, in the order of insertion. -/
structure Represents (inst : RlmEap) (l : List EapSession) : Prop where
  cells : ∀ s ∈ l, ∃ h, inst.handlers.lookup s.handler = some h
    ∧ h.unlinked = s.held
  forward : Segment id (fieldOf inst.handlers (·.next)) inst.sessionHead
    (l.map EapSession.handler) none
  backward : Segment id (fieldOf inst.handlers (·.prev)) inst.sessionTail
    (l.map EapSession.handler).reverse none
  distinct : (l.map EapSession.handler).Nodup
  stack : myHandler ∉ l.map EapSession.handler
  tree : inst.tree.Wf (fun _ => True) fun a => handlerKey (inst.cell a)
  members : ∀ a, a ∈ inst.sessionTree.root.toList
    ↔ a ∈ l.map EapSession.handler
  count : inst.sessionTree.numElements = l.length
  room : (l.length : Int) ≤ max inst.maxSessions 0

variable {inst inst' : RlmEap} {l front back : List EapSession} {s : EapSession}
  {a q : Nat}

/-- The tree of an instance is in order where it is one that was, and the
handlers in it have their keys still. -/
theorem tree_wf {t : RbTree Nat}
    (h : t.Wf (fun _ => True) fun a => handlerKey (inst.cell a))
    (hroot : inst'.sessionTree.root = t.root)
    (hflag : inst'.sessionTree.replaceFlag = t.replaceFlag)
    (hkeys : ∀ a ∈ t.root.toList,
      handlerKey (inst'.cell a) = handlerKey (inst.cell a)) :
    inst'.tree.Wf (fun _ => True) fun a => handlerKey (inst'.cell a) where
  lawful := inst'.tree_lawful
  noReplace := hflag.trans h.noReplace
  black := by
    show inst'.sessionTree.root.color = .black
    rw [hroot]
    exact h.black
  valid _ _ := trivial
  sorted := by
    show inst'.sessionTree.root.toList.Pairwise _
    rw [hroot]
    refine h.sorted.imp_of_mem fun ha hb hlt => ?_
    rw [hkeys _ ha, hkeys _ hb]
    exact hlt

namespace Represents

/-- The heap has the key of a session. -/
theorem cell_key (h : inst.Represents l) (hs : s ∈ l) :
    handlerKey (inst.cell s.handler) = handlerKey s.held := by
  obtain ⟨e, he, hheld⟩ := h.cells s hs
  rw [cell_eq he, ← hheld, handlerKey_unlinked]

/-- The sessions of two addresses. -/
theorem session_unique {t : EapSession} (h : inst.Represents l) (hs : s ∈ l)
    (ht : t ∈ l) (heq : s.handler = t.handler) : s = t :=
  List.inj_on_of_nodup_map h.distinct hs ht heq

/-- No two sessions have one State and EAP id. -/
theorem key_unique {t : EapSession} (h : inst.Represents l) (hs : s ∈ l)
    (ht : t ∈ l) (hkey : handlerKey s.held = handlerKey t.held) :
    s = t := by
  refine h.session_unique hs ht (h.tree.key_inj ?_ ?_ ?_)
  · exact (h.members _).mpr (List.mem_map_of_mem hs)
  · exact (h.members _).mpr (List.mem_map_of_mem ht)
  · rw [h.cell_key hs, h.cell_key ht, hkey]

/-- Only the cells of the sessions matter. -/
theorem frame (h : inst.Represents l)
    (hcells : ∀ s ∈ l, inst'.handlers.lookup s.handler
      = inst.handlers.lookup s.handler)
    (htree : inst'.sessionTree = inst.sessionTree)
    (hhead : inst'.sessionHead = inst.sessionHead)
    (htail : inst'.sessionTail = inst.sessionTail)
    (hmax : inst'.maxSessions = inst.maxSessions) : inst'.Represents l := by
  have hsame : ∀ a ∈ l.map EapSession.handler,
      inst'.handlers.lookup a = inst.handlers.lookup a := by
    intro a ha
    obtain ⟨s, hs, rfl⟩ := List.mem_map.mp ha
    exact hcells s hs
  refine ⟨?_, ?_, ?_, h.distinct, h.stack, ?_, ?_, ?_, ?_⟩
  · intro s hs
    rw [hcells s hs]
    exact h.cells s hs
  · rw [hhead]
    refine h.forward.congr fun a ha => ?_
    rw [fieldOf, fieldOf, id, hsame a ha]
  · rw [htail]
    refine h.backward.congr fun a ha => ?_
    rw [fieldOf, fieldOf, id, hsame a (List.mem_reverse.mp ha)]
  · refine tree_wf h.tree (by rw [htree]; rfl) (by rw [htree]; rfl) ?_
    intro a ha
    rw [cell, cell, hsame a ((h.members a).mp ha)]
  · rw [htree]
    exact h.members
  · rw [htree]
    exact h.count
  · rw [hmax]
    exact h.room

/-- What the search finds. -/
theorem finddata (h : inst.Represents l) (hs : s ∈ l)
    (hq : handlerKey (inst.cell q) = handlerKey s.held) :
    rbtreeFinddata inst.tree q = some s.handler := by
  refine (h.tree.finddata_eq_some_iff q s.handler).mpr ⟨?_, ?_⟩
  · exact (h.members _).mpr (List.mem_map_of_mem hs)
  · rw [h.cell_key hs, hq]

/-- A key that no session has is not in the tree. -/
theorem finddata_none (h : inst.Represents l)
    (hq : ∀ s ∈ l, handlerKey s.held ≠ handlerKey (inst.cell q)) :
    rbtreeFinddata inst.tree q = none := by
  refine Option.eq_none_iff_forall_ne_some.mpr fun a ha => ?_
  obtain ⟨hmem, hkey⟩ := (h.tree.finddata_eq_some_iff q a).mp ha
  obtain ⟨s, hs, rfl⟩ := List.mem_map.mp ((h.members a).mp hmem)
  rw [h.cell_key hs] at hkey
  exact hq s hs hkey

theorem not_mem_rest (h : inst.Represents (front ++ s :: back)) :
    s.handler ∉ (front ++ back).map EapSession.handler := by
  have hnd := h.distinct
  rw [List.map_append, List.map_cons, List.nodup_middle,
    List.nodup_cons, ← List.map_append] at hnd
  exact hnd.1

/-- A session is taken out of the tree and of the list. -/
theorem remove (h : inst.Represents (front ++ s :: back))
    (hq : handlerKey (inst.cell q) = handlerKey s.held)
    (htree : inst'.sessionTree = (rbtreeDeletebydata inst.tree q).1)
    (hcells : ∀ t ∈ front ++ back, ∃ e, inst'.handlers.lookup t.handler
      = some e ∧ e.unlinked = t.held)
    (hforward : Segment id (fieldOf inst'.handlers (·.next))
      inst'.sessionHead ((front ++ back).map EapSession.handler) none)
    (hbackward : Segment id (fieldOf inst'.handlers (·.prev))
      inst'.sessionTail ((front ++ back).map EapSession.handler).reverse none)
    (hmax : inst'.maxSessions = inst.maxSessions) :
    inst'.Represents (front ++ back) := by
  have hs : s ∈ front ++ s :: back := List.mem_append_right _ List.mem_cons_self
  have hsub : (front ++ back).Sublist (front ++ s :: back) :=
    (List.sublist_cons_self s back).append_left front
  have hfound := h.finddata hs hq
  obtain ⟨hwf, hmem⟩ := h.tree.deletebydata_spec q
  have hmembers : ∀ a, a ∈ (rbtreeDeletebydata inst.tree q).1.root.toList
      ↔ a ∈ (front ++ back).map EapSession.handler := by
    intro a
    rw [hmem, show inst.tree.root = inst.sessionTree.root from rfl,
      h.members a, hq]
    constructor
    · rintro ⟨hin, hne⟩
      obtain ⟨t, ht, rfl⟩ := List.mem_map.mp hin
      rw [h.cell_key ht] at hne
      refine List.mem_map_of_mem ?_
      rcases List.mem_append.mp ht with ht | ht
      · exact List.mem_append_left back ht
      · rcases List.mem_cons.mp ht with rfl | ht
        · exact absurd rfl hne
        · exact List.mem_append_right front ht
    · intro hin
      obtain ⟨t, ht, rfl⟩ := List.mem_map.mp hin
      refine ⟨(hsub.map EapSession.handler).subset hin, fun hkey => ?_⟩
      rw [h.cell_key (hsub.subset ht)] at hkey
      have hts := h.key_unique (hsub.subset ht) hs hkey
      exact h.not_mem_rest (hts ▸ hin)
  refine ⟨hcells, hforward, hbackward,
    h.distinct.sublist (hsub.map EapSession.handler), ?_, ?_, ?_, ?_, ?_⟩
  · exact fun hin => h.stack ((hsub.map EapSession.handler).subset hin)
  · refine tree_wf hwf (by rw [htree]) (by rw [htree]) fun a ha => ?_
    obtain ⟨t, ht, rfl⟩ := List.mem_map.mp ((hmembers a).mp ha)
    obtain ⟨e, he, hheld⟩ := hcells t ht
    rw [h.cell_key (hsub.subset ht), cell_eq he, ← hheld,
      handlerKey_unlinked]
  · rw [htree]
    exact hmembers
  · rw [htree, deletebydata_count hfound]
    show inst.sessionTree.numElements - 1 = _
    rw [h.count, List.length_append, List.length_append, List.length_cons]
    rfl
  · have hroom := h.room
    have hlen := hsub.length_le
    rw [hmax]
    omega

-- ======== deleting

/-- The handlers of the list are allocated. -/
theorem split_cells (h : inst.Represents l) :
    ∀ a ∈ l.map EapSession.handler, ∃ e, inst.handlers.lookup a = some e := by
  intro a ha
  obtain ⟨s, hs, rfl⟩ := List.mem_map.mp ha
  obtain ⟨e, he, -⟩ := h.cells s hs
  exact ⟨e, he⟩

/-- `eaplist_delete` takes the session with the key out, wherever it is. -/
theorem eaplistDelete_run (h : inst.Represents (front ++ s :: back))
    (hq : handlerKey (inst.cell q) = handlerKey s.held) :
    ∃ inst', inst.eaplistDelete q = .ok (inst', some s.handler)
      ∧ Relinked { inst with
          sessionTree := (rbtreeDeletebydata inst.tree s.handler).1 } inst'
      ∧ inst'.Represents (front ++ back)
      ∧ inst'.handlers.lookup s.handler = some s.held := by
  have hs : s ∈ front ++ s :: back :=
    List.mem_append_right _ List.mem_cons_self
  obtain ⟨e, he, hheld⟩ := h.cells s hs
  let del : RlmEap := { inst with
    sessionTree := (rbtreeDeletebydata inst.tree s.handler).1 }
  have hmap : (front ++ s :: back).map EapSession.handler
      = front.map EapSession.handler
        ++ s.handler :: back.map EapSession.handler := by
    rw [List.map_append, List.map_cons]
  have hforward := h.forward
  have hbackward := h.backward
  have hnd := h.distinct
  have hcells := h.split_cells
  rw [hmap] at hforward hbackward hnd hcells
  obtain ⟨one, hone, hrel, hfwd, hprevs, htail, hnext⟩ :=
    @unspliceNext_run del _ _ _ hforward hbackward hnd hcells
  have hbehind := hforward.behind.start_eq
  have hcells' : ∀ a ∈ front.map EapSession.handler
      ++ s.handler :: back.map EapSession.handler,
      ∃ e, one.handlers.lookup a = some e := by
    intro a ha
    obtain ⟨e, he⟩ := hcells a ha
    obtain ⟨e', he', -⟩ := hrel.lookup he
    exact ⟨e', he'⟩
  obtain ⟨two, htwo, hrel', hbwd, hnexts, hhead⟩ :=
    @unsplicePrev_run one _ _ _ (hnext.trans hbehind)
      (by rw [hprevs, htail]; exact hbackward) hnd hcells'
  obtain ⟨e₁, he₁, hsame₁⟩ := (hrel.trans hrel').lookup he
  have hset := relinked_set e₁.unlinked he₁ rfl
  have hout := h.not_mem_rest
  refine ⟨two.setHandler s.handler e₁.unlinked, ?_,
    (hrel.trans hrel').trans hset, ?_, ?_⟩
  · rw [eaplistDelete, h.finddata hs hq]
    show (del.unspliceNext s.handler >>= _) = _
    rw [hone, ok_bind, htwo, ok_bind, modify_eq _ he₁]
    rfl
  · have hall := (hrel.trans hrel').trans hset
    obtain ⟨H, hd, tl, hrest⟩ := hall.rest
    have hsub : (front ++ back).Sublist (front ++ s :: back) :=
      (List.sublist_cons_self s back).append_left front
    refine h.remove (h.cell_key hs) (by rw [hrest]) ?_ ?_ ?_ (by rw [hrest])
    · intro t ht
      obtain ⟨et, het, hheldt⟩ := h.cells t (hsub.subset ht)
      obtain ⟨et', het', hsame⟩ := hall.lookup het
      exact ⟨et', het', hsame.trans hheldt⟩
    · rw [List.map_append] at hout ⊢
      rw [setHandler, fieldOf_insert, hnexts, hhead]
      exact hfwd.update fun a ha heq => hout (by rw [← heq]; exact ha)
    · rw [List.map_append] at hout ⊢
      rw [setHandler, fieldOf_insert]
      exact hbwd.update fun a ha heq =>
        hout (by rw [← heq]; exact List.mem_reverse.mp ha)
  · rw [setHandler, FiniteMap.lookup_insert, if_pos rfl, hsame₁, hheld]

/-- The oldest session is taken out, and its handler is freed. -/
theorem expireRound_old {timestamp : Int} (h : inst.Represents (s :: back))
    (hold : inst.timerLimit < timestamp - s.held.timestamp) :
    ∃ inst', inst.expireRound timestamp = .ok inst'
      ∧ Releases inst inst' [s.handler] ∧ inst'.Represents back := by
  have hs : s ∈ s :: back := List.mem_cons_self
  obtain ⟨e, he, hheld⟩ := h.cells s hs
  have hhead : inst.sessionHead = some s.handler := h.forward.1
  have hprev : e.prev = none := by
    have hbackward := h.backward
    rw [List.map_cons, List.reverse_cons] at hbackward
    have hstart := hbackward.behind.start_eq
    rw [id, fieldOf, he] at hstart
    exact hstart
  have htime : e.timestamp = s.held.timestamp := by rw [← hheld]; rfl
  let del : RlmEap := { inst with
    sessionTree := (rbtreeDeletebydata inst.tree s.handler).1
    sessionHead := e.next }
  have hnexts : fieldOf inst.handlers (·.next) s.handler = e.next := by
    rw [fieldOf, he]
    rfl
  have hforward := h.forward.2
  rw [id, hnexts] at hforward
  obtain ⟨gone, hgone, hrel, hbwd, hsame, hheads⟩ :=
    @unsplicePrev_run del s.handler [] (back.map EapSession.handler)
      (hnexts.trans hforward.start_eq) h.backward h.distinct h.split_cells
  obtain ⟨e', he', -⟩ := hrel.lookup he
  have hsplit : inst.Represents ([] ++ s :: back) := h
  have hout : s.handler ∉ back.map EapSession.handler := hsplit.not_mem_rest
  refine ⟨gone.release s.handler, ?_, ?_, ?_⟩
  · rw [expireRound, hhead]
    show (inst.deref s.handler >>= _) = _
    rw [deref_eq he, ok_bind, if_pos (by rw [htime]; exact hold),
      h.finddata hs (h.cell_key hs)]
    rw [unsplicePrev, show del.deref s.handler = .ok e from deref_eq he,
      ok_bind, hprev] at hgone
    cases hn : e.next with
    | none =>
        have hdel : gone = { inst with
            sessionTree := (rbtreeDeletebydata inst.tree s.handler).1
            sessionHead := none, sessionTail := none } := by
          rw [hn] at hgone
          rw [← Except.ok.inj hgone]
          simp only [del, hn]
        rw [← eapHandlerFree_eq he', hdel]
        rfl
    | some n =>
        have hdel : del = { inst with
            sessionTree := (rbtreeDeletebydata inst.tree s.handler).1
            sessionHead := some n } := by
          simp only [del, hn]
        rw [hn, hdel] at hgone
        rw [← eapHandlerFree_eq he']
        exact congrArg (· >>= fun i : RlmEap => i.eapHandlerFree s.handler)
          hgone
  · obtain ⟨H, hd, tl, rfl⟩ := hrel.rest
    refine ⟨fun a ha => ?_, fun a ha => ?_, _, _, _, _, rfl⟩
    · rw [release, FiniteMap.lookup_erase,
        if_pos (List.mem_singleton.mp ha)]
    · rw [release, FiniteMap.lookup_erase,
        if_neg fun heq => ha (List.mem_singleton.mpr heq)]
      exact hrel.cells a
  · obtain ⟨H, hd, tl, hrest⟩ := hrel.rest
    refine hsplit.remove (h.cell_key hs) (by rw [hrest]; rfl) ?_ ?_ ?_
      (by rw [hrest]; rfl)
    · intro t ht
      obtain ⟨et, het, hheldt⟩ := h.cells t (List.mem_cons_of_mem s ht)
      obtain ⟨et', het', hst⟩ := hrel.lookup het
      refine ⟨et', ?_, hst.trans hheldt⟩
      rw [release, FiniteMap.lookup_erase, if_neg, het']
      intro heq
      exact hout (by rw [← heq]; exact List.mem_map_of_mem ht)
    · rw [release, fieldOf_erase, hsame]
      show Segment id (Function.update (fieldOf inst.handlers (·.next))
        s.handler none) gone.sessionHead _ none
      rw [hheads]
      exact hforward.update fun a ha heq => hout (by rw [← heq]; exact ha)
    · rw [release, fieldOf_erase]
      exact hbwd.update fun a ha heq =>
        hout (by rw [← heq]; exact List.mem_reverse.mp ha)

/-- Nothing happens while the oldest session is not too old. -/
theorem expireRounds_young {timestamp : Int} (h : inst.Represents l)
    (hyoung : ∀ s ∈ l.head?, ¬ s.Old inst.timerLimit timestamp) (k : Nat) :
    expireRounds timestamp k inst = .ok inst := by
  have hround : inst.expireRound timestamp = .ok inst := by
    cases l with
    | nil =>
        have hhead : inst.sessionHead = none := h.forward
        rw [expireRound, hhead]
        rfl
    | cons s back =>
        obtain ⟨e, he, hheld⟩ := h.cells s List.mem_cons_self
        have hhead : inst.sessionHead = some s.handler := h.forward.1
        have hnot : ¬ timestamp - e.timestamp > inst.timerLimit := by
          have hyoung' := hyoung s rfl
          rw [EapSession.Old, ← hheld] at hyoung'
          exact hyoung'
        rw [expireRound, hhead]
        show (inst.deref s.handler >>= _) = _
        rw [deref_eq he, ok_bind, if_neg hnot]
        rfl
  induction k with
  | zero => rfl
  | succ k ih => rw [expireRounds, hround, ok_bind, ih]

/-- The rounds of `eaplist_expire` free the sessions at the front that are
too old. -/
theorem expireRounds_run {timestamp : Int} (h : inst.Represents l)
    (k : Nat) :
    ∃ inst', expireRounds timestamp k inst = .ok inst'
      ∧ Releases inst inst' ((oldFront inst.timerLimit timestamp k l).map
          EapSession.handler)
      ∧ inst'.Represents
        (l.drop (oldFront inst.timerLimit timestamp k l).length) := by
  induction k generalizing inst l with
  | zero => exact ⟨inst, rfl, .refl inst, h⟩
  | succ k ih =>
      by_cases hold : ∃ s ∈ l.head?, s.Old inst.timerLimit timestamp
      · obtain ⟨s, hs, hold⟩ := hold
        obtain ⟨back, rfl⟩ : ∃ back, l = s :: back := by
          cases l with
          | nil => cases hs
          | cons t back =>
              cases hs
              exact ⟨back, rfl⟩
        obtain ⟨mid, hmid, hrel, hback⟩ := h.expireRound_old hold
        obtain ⟨H, t, hd, tl, hrest⟩ := hrel.rest
        have hlimit : mid.timerLimit = inst.timerLimit := by rw [hrest]
        obtain ⟨inst', hrun, hrel', hrep⟩ := ih hback
        rw [hlimit] at hrel' hrep
        have hfront : oldFront inst.timerLimit timestamp (k + 1) (s :: back)
            = s :: oldFront inst.timerLimit timestamp k back := by
          rw [oldFront, List.take_succ_cons,
            List.takeWhile_cons, if_pos (decide_eq_true hold)]
          rfl
        refine ⟨inst', ?_, ?_, ?_⟩
        · rw [expireRounds, hmid, ok_bind, hrun]
        · rw [hfront]
          exact hrel.trans hrel'
        · rw [hfront]
          exact hrep
      · have hyoung : ∀ s ∈ l.head?, ¬ s.Old inst.timerLimit timestamp :=
          fun s hs hs' => hold ⟨s, hs, hs'⟩
        have hnone : oldFront inst.timerLimit timestamp (k + 1) l = [] := by
          cases l with
          | nil => rfl
          | cons s back =>
              rw [oldFront, List.take_succ_cons,
                List.takeWhile_cons,
                if_neg (by simpa using hyoung s rfl)]
        rw [hnone]
        exact ⟨inst, h.expireRounds_young hyoung _, .refl inst, h⟩

-- ======== finding

/-- `myHandler` is on the stack, the sessions are not. -/
theorem ne_stack (h : inst.Represents l) (hs : s ∈ l) :
    s.handler ≠ myHandler := fun heq =>
  h.stack (heq ▸ List.mem_map_of_mem hs)

/-- A write to what is not in the list. -/
theorem set_other {e : EapHandler} (h : inst.Represents l)
    (ha : ∀ s ∈ l, s.handler ≠ a) : (inst.setHandler a e).Represents l := by
  refine h.frame (fun s hs => ?_) rfl rfl rfl rfl
  rw [setHandler, FiniteMap.lookup_insert, if_neg (ha s hs)]

/-- A handler outside the list may be freed. -/
theorem release_other (h : inst.Represents l)
    (ha : ∀ s ∈ l, s.handler ≠ a) : (inst.release a).Represents l := by
  refine h.frame (fun s hs => ?_) rfl rfl rfl rfl
  rw [release, FiniteMap.lookup_erase, if_neg (ha s hs)]

/-- The expiry before the search; what is looked for stays on the stack. -/
theorem expire_run {timestamp : Int} {e : EapHandler}
    (h : inst.Represents l) :
    ∃ mid, (inst.setHandler myHandler e).eaplistExpire timestamp = .ok mid
      ∧ mid.Represents
        (l.drop (oldFront inst.timerLimit timestamp 3 l).length)
      ∧ Releases (inst.setHandler myHandler e) mid
        ((oldFront inst.timerLimit timestamp 3 l).map EapSession.handler)
      ∧ handlerKey (mid.cell myHandler) = handlerKey e := by
  have hset : (inst.setHandler myHandler e).Represents l :=
    h.set_other fun s hs => h.ne_stack hs
  obtain ⟨mid, hmid, hrel, hrep⟩ := @expireRounds_run _ _ timestamp hset 3
  refine ⟨mid, hmid, hrep, hrel, ?_⟩
  have hstack : myHandler ∉ (oldFront inst.timerLimit timestamp 3 l).map
      EapSession.handler := by
    intro hin
    obtain ⟨s, hs, heq⟩ := List.mem_map.mp hin
    refine h.ne_stack ?_ heq
    exact List.mem_of_mem_take ((List.takeWhile_sublist _).subset hs)
  have hkept := hrel.kept myHandler hstack
  rw [setHandler, FiniteMap.lookup_insert, if_pos rfl] at hkept
  obtain ⟨e', he', hsame⟩ := Option.map_eq_some_iff.mp hkept
  rw [cell_eq he', ← handlerKey_unlinked e', hsame, handlerKey_unlinked]

/-- `&myHandler`, as it is filled for a search. -/
def sought (request : EapRequest) (state : AuthVector) (id : Nat) :
    EapHandler :=
  { srcIpaddr := request.packet.srcIpaddr, eapId := id, state := state }

section code

variable {mid two : RlmEap} {request : EapRequest} {state : AuthVector}
  {id : Nat} {held : EapHandler}

theorem sentState_eq_some (h : sentState request = some state) :
    ∃ vp, pairfind request.packet.vps pwState = some vp
      ∧ vp.length = eapStateLen
      ∧ state = stateOf vp := by
  unfold sentState at h
  cases hp : pairfind request.packet.vps pwState with
  | none =>
      rw [hp] at h
      cases h
  | some vp =>
      rw [hp] at h
      dsimp only at h
      split at h
      · cases h
      · next hlen => exact ⟨vp, rfl, not_not.mp hlen, (Option.some.inj h).symm⟩

/-- Nothing is done for a request without a State. -/
theorem eaplistFind_unsent (inst : RlmEap)
    (h : sentState request = none) (id : Nat) :
    inst.eaplistFind request id = .ok (inst, none) := by
  unfold sentState at h
  unfold eaplistFind
  cases hp : pairfind request.packet.vps pwState with
  | none => rfl
  | some vp =>
      rw [hp] at h
      dsimp only at h ⊢
      split at h
      · next hlen =>
          rw [if_pos hlen]
          rfl
      · cases h

/-- No session has the key: nothing is returned. -/
theorem eaplistFind_missed (hsent : sentState request = some state)
    (hmid : (inst.setHandler myHandler
      (sought request state id)).eaplistExpire request.timestamp = .ok mid)
    (hdel : mid.eaplistDelete myHandler = .ok (two, none)) :
    inst.eaplistFind request id = .ok (two.release myHandler, none) := by
  obtain ⟨vp, hp, hlen, rfl⟩ := sentState_eq_some hsent
  unfold sought at hmid
  rw [eaplistFind, hp]
  dsimp only
  rw [if_neg (not_not.mpr hlen), hmid, ok_bind, hdel]
  rfl

/-- A session has it: one with 50 round trips behind it is
freed, another goes on. -/
theorem eaplistFind_hit (hsent : sentState request = some state)
    (hmid : (inst.setHandler myHandler
      (sought request state id)).eaplistExpire request.timestamp = .ok mid)
    (hdel : mid.eaplistDelete myHandler = .ok (two, some a))
    (hcell : (two.release myHandler).handlers.lookup a = some held) :
    inst.eaplistFind request id
      = if 50 ≤ held.trips then
          .ok ((two.release myHandler).release a, none)
        else .ok ((two.release myHandler).setHandler a held.goesOn,
          some a) := by
  obtain ⟨vp, hp, hlen, rfl⟩ := sentState_eq_some hsent
  unfold sought at hmid
  rw [eaplistFind, hp]
  dsimp only
  rw [if_neg (not_not.mpr hlen), hmid, ok_bind, hdel]
  show ((two.release myHandler).deref a >>= _) = _
  rw [deref_eq hcell, ok_bind]
  split
  · rw [eapHandlerFree_eq hcell]
    rfl
  · rfl

end code

/-- The handlers that `eaplist_find` frees. -/
def freedBy (inst : RlmEap) (timestamp : Int) (l : List EapSession)
    (found : Option EapSession) : List Nat :=
  (oldFront inst.timerLimit timestamp 3 l).map EapSession.handler
    ++ givenUp found

/-- A session that outlives the expiry is in the list, and its handler is
none of those that were freed. -/
theorem young (h : inst.Represents l) {timestamp : Int}
    (hs : s ∈ unexpired inst.timerLimit timestamp l) :
    s ∈ l ∧ s.handler ∉ (oldFront inst.timerLimit timestamp 3 l).map
      EapSession.handler := by
  have hl := oldFront_append inst.timerLimit timestamp 3 l
  constructor
  · rw [← hl]
    exact List.mem_append_right _ hs
  · intro hin
    have hnd := h.distinct
    rw [← hl, List.map_append] at hnd
    exact List.disjoint_of_nodup_append hnd hin (List.mem_map_of_mem hs)

/-- The other sessions of the list have other handlers. -/
theorem others {front back : List EapSession}
    (h : inst.Represents (front ++ s :: back)) :
    (∀ t ∈ front ++ back, t.handler ≠ s.handler)
      ∧ ((front ++ s :: back).filter fun t => some t ≠ some s)
        = front ++ back := by
  have hout : ∀ t ∈ front ++ back, t.handler ≠ s.handler := by
    intro t ht heq
    exact h.not_mem_rest (heq ▸ List.mem_map_of_mem ht)
  refine ⟨hout, ?_⟩
  rw [List.filter_append, List.filter_cons_of_neg (by simp),
    ← List.filter_append, List.filter_eq_self]
  intro t ht
  have hne : t ≠ s := fun heq => hout t ht (by rw [heq])
  simpa using hne

/-- `eaplist_find` takes out the session that was added with the State and
the EAP id, and returns its handler. -/
theorem eaplistFind_run {request : EapRequest} {state : AuthVector}
    (h : inst.Represents l) (hsent : sentState request = some state)
    (id : Nat) :
    ∃ found inst', found = findSession state id
        (unexpired inst.timerLimit request.timestamp l)
      ∧ inst.eaplistFind request id = .ok (inst', answerOf found)
      ∧ inst'.SameLimits inst
      ∧ inst'.Represents
        ((unexpired inst.timerLimit request.timestamp l).filter
          fun s => some s ≠ found)
      ∧ (∀ s, found = some s → s.held.trips < 50 →
          inst'.handlers.lookup s.handler = some s.held.goesOn)
      ∧ (∀ a ∈ freedBy inst request.timestamp l found,
          inst'.handlers.lookup a = none)
      ∧ ∀ a, a ≠ myHandler →
          a ∉ freedBy inst request.timestamp l found →
          (inst'.handlers.lookup a).isSome
            = (inst.handlers.lookup a).isSome := by
  obtain ⟨mid, hmid, hrep, hrel, hkey⟩ :=
    h.expire_run (e := sought request state id)
  have hlimits : mid.SameLimits inst := by
    obtain ⟨H, t, hd, tl, rfl⟩ := hrel.rest
    exact ⟨rfl, rfl⟩
  have hmatch (s : EapSession) : s.Matches state id
      ↔ handlerKey s.held = handlerKey (mid.cell myHandler) := by
    rw [hkey, handlerKey_inj]
    exact and_comm
  have hlive : ∀ a, a ≠ myHandler →
      a ∉ (oldFront inst.timerLimit request.timestamp 3 l).map
        EapSession.handler →
      (mid.handlers.lookup a).isSome = (inst.handlers.lookup a).isSome := by
    intro a ha hgone
    have hkept := congrArg Option.isSome (hrel.kept a hgone)
    rw [Option.isSome_map, Option.isSome_map, setHandler,
      FiniteMap.lookup_insert, if_neg ha] at hkept
    exact hkept
  have hstack (i : RlmEap) {a : Nat} (ha : a ≠ myHandler) :
      (i.release myHandler).handlers.lookup a = i.handlers.lookup a := by
    rw [release, FiniteMap.lookup_erase, if_neg ha]
  have hgoneStack (i : RlmEap) {a : Nat}
      (ha : i.handlers.lookup a = none) :
      (i.release myHandler).handlers.lookup a = none := by
    rw [release, FiniteMap.lookup_erase, ha, ite_self]
  cases hfound : findSession state id
      (unexpired inst.timerLimit request.timestamp l) with
  | none =>
      have hnone := List.find?_eq_none.mp hfound
      have hdel : mid.eaplistDelete myHandler = .ok (mid, none) := by
        rw [eaplistDelete, hrep.finddata_none]
        · rfl
        · intro s hs hkey'
          exact hnone s hs (decide_eq_true ((hmatch s).mpr hkey'))
      have hall : ((unexpired inst.timerLimit request.timestamp l).filter
          fun s => some s ≠ none)
            = unexpired inst.timerLimit request.timestamp l :=
        List.filter_eq_self.mpr fun s _ => by simp
      refine ⟨none, mid.release myHandler, rfl,
        eaplistFind_missed hsent hmid hdel, hlimits, ?_, ?_, ?_, ?_⟩
      · rw [hall]
        exact hrep.release_other fun s hs => hrep.ne_stack hs
      · intro s hs
        cases hs
      · intro a ha
        rw [freedBy, givenUp, List.append_nil] at ha
        exact hgoneStack mid (hrel.freed a ha)
      · intro a ha hgone
        rw [freedBy, givenUp, List.append_nil] at hgone
        rw [hstack mid ha, hlive a ha hgone]
  | some s =>
      obtain ⟨hpos, front, back, hsplit, -⟩ :=
        List.find?_eq_some_iff_append.mp hfound
      have hrep' : mid.Represents (front ++ s :: back) := hsplit ▸ hrep
      have hs : s.handler ≠ myHandler :=
        hrep'.ne_stack (List.mem_append_right _ List.mem_cons_self)
      obtain ⟨two, hdel, hsame, htwo, hcell⟩ := hrep'.eaplistDelete_run
        (q := myHandler) ((hmatch s).mp (of_decide_eq_true hpos)).symm
      obtain ⟨hout, hrest⟩ := hrep'.others
      rw [← hsplit] at hrest
      have hcell' : (two.release myHandler).handlers.lookup s.handler
          = some s.held := by
        rw [hstack two hs, hcell]
      have htwoRep : (two.release myHandler).Represents (front ++ back) :=
        htwo.release_other fun t ht => htwo.ne_stack ht
      have hrun := eaplistFind_hit hsent hmid hdel hcell'
      have htwoLimits : two.SameLimits inst := by
        obtain ⟨H, hd, tl, rfl⟩ := hsame.rest
        exact hlimits
      have htwoLive (a : Nat) : (two.handlers.lookup a).isSome
          = (mid.handlers.lookup a).isSome := by
        have hcells := congrArg Option.isSome (hsame.cells a)
        rw [Option.isSome_map, Option.isSome_map] at hcells
        exact hcells
      have htwoGone : ∀ a ∈ (oldFront inst.timerLimit request.timestamp 3
          l).map EapSession.handler, two.handlers.lookup a = none := by
        intro a ha
        have hcells := htwoLive a
        rw [hrel.freed a ha] at hcells
        exact Option.isNone_iff_eq_none.mp (by simpa using hcells)
      obtain ⟨hsl, hyoung⟩ := h.young (List.mem_of_find?_eq_some hfound)
      by_cases htrips : 50 ≤ s.held.trips
      · have hgiven : givenUp (some s) = [s.handler] := if_pos htrips
        have hanswer : answerOf (some s) = none := if_pos htrips
        rw [if_pos htrips] at hrun
        refine ⟨some s, (two.release myHandler).release s.handler, rfl,
          by rw [hrun, hanswer], htwoLimits, ?_, ?_, ?_, ?_⟩
        · rw [hrest]
          exact htwoRep.release_other hout
        · intro t ht htrips'
          cases ht
          omega
        · intro a ha
          rw [freedBy, hgiven, List.mem_append, List.mem_singleton] at ha
          rw [release, FiniteMap.lookup_erase]
          rcases ha with ha | rfl
          · rw [hgoneStack two (htwoGone a ha), ite_self]
          · rw [if_pos rfl]
        · intro a ha hgone
          rw [freedBy, hgiven, List.mem_append, List.mem_singleton,
            not_or] at hgone
          rw [release, FiniteMap.lookup_erase, if_neg hgone.2, hstack two ha,
            htwoLive, hlive a ha hgone.1]
      · have hgiven : givenUp (some s) = [] := if_neg htrips
        have hanswer : answerOf (some s) = some s.handler := if_neg htrips
        rw [if_neg htrips] at hrun
        refine ⟨some s, (two.release myHandler).setHandler s.handler
          s.held.goesOn, rfl, by rw [hrun, hanswer], htwoLimits, ?_, ?_, ?_,
          ?_⟩
        · rw [hrest]
          exact htwoRep.set_other hout
        · intro t ht _
          cases ht
          rw [setHandler, FiniteMap.lookup_insert, if_pos rfl]
        · intro a ha
          rw [freedBy, hgiven, List.append_nil] at ha
          rw [setHandler, FiniteMap.lookup_insert,
            if_neg (fun heq : a = s.handler => hyoung (heq ▸ ha)),
            hgoneStack two (htwoGone a ha)]
        · intro a ha hgone
          rw [freedBy, hgiven, List.append_nil] at hgone
          rw [setHandler, FiniteMap.lookup_insert]
          split
          · next heq =>
              obtain ⟨e, he, -⟩ := h.cells s hsl
              rw [heq, he]
              rfl
          · rw [hstack two ha, htwoLive, hlive a ha hgone]

-- ======== adding

/-- A session is put into the tree and behind the list. -/
theorem insert {t : RbTree Nat} (h : inst.Represents l)
    (hins : rbtreeInsertnode inst.tree s.handler = some (t, true))
    (hout : s.handler ∉ l.map EapSession.handler)
    (hstack : s.handler ≠ myHandler)
    (hkey : handlerKey s.held = handlerKey (inst.cell s.handler))
    (hfree : (l.length : Int) < inst.maxSessions)
    (htree : inst'.sessionTree = t)
    (hcells : ∀ u ∈ l ++ [s], ∃ e, inst'.handlers.lookup u.handler
      = some e ∧ e.unlinked = u.held)
    (hforward : Segment id (fieldOf inst'.handlers (·.next))
      inst'.sessionHead (l.map EapSession.handler ++ [s.handler]) none)
    (hbackward : Segment id (fieldOf inst'.handlers (·.prev))
      inst'.sessionTail (l.map EapSession.handler ++ [s.handler]).reverse none)
    (hmax : inst'.maxSessions = inst.maxSessions) :
    inst'.Represents (l ++ [s]) := by
  have hmap : (l ++ [s]).map EapSession.handler
      = l.map EapSession.handler ++ [s.handler] := List.map_append
  obtain ⟨t', b, hins', hwf, -, hmem⟩ :=
    h.tree.insertnode_spec (d := s.handler) trivial
  rw [hins] at hins'
  obtain ⟨rfl, rfl⟩ := Prod.mk.inj (Option.some.inj hins')
  obtain ⟨hcount, hflag⟩ := insertnode_count h.tree.noReplace hins
  have hmembers : ∀ a, a ∈ t.root.toList
      ↔ a ∈ (l ++ [s]).map EapSession.handler := by
    intro a
    rw [hmem, hmap, List.mem_append, List.mem_singleton]
    refine or_congr (h.members a) ?_
    exact and_iff_right rfl
  refine ⟨hcells, hmap ▸ hforward, hmap ▸ hbackward, ?_, ?_, ?_, ?_, ?_, ?_⟩
  · rw [hmap, List.nodup_append]
    refine ⟨h.distinct, List.nodup_singleton _, fun a ha b hb heq => hout ?_⟩
    rw [← List.mem_singleton.mp hb, ← heq]
    exact ha
  · rw [hmap, List.mem_append, List.mem_singleton, not_or]
    exact ⟨h.stack, Ne.symm hstack⟩
  · refine tree_wf hwf (by rw [htree]) (by rw [htree]) fun a ha => ?_
    obtain ⟨u, hu, rfl⟩ := List.mem_map.mp ((hmembers a).mp ha)
    obtain ⟨e, he, hheld⟩ := hcells u hu
    rw [cell_eq he, ← handlerKey_unlinked, hheld]
    rcases List.mem_append.mp hu with hu | hu
    · exact (h.cell_key hu).symm
    · rw [List.mem_singleton.mp hu, hkey]
  · rw [htree]
    exact hmembers
  · rw [htree, hcount]
    show inst.sessionTree.numElements + 1 = _
    rw [h.count, List.length_append, List.length_singleton]
  · rw [hmax, List.length_append, List.length_singleton]
    omega

end Represents

section adding

variable {inst' : RlmEap} {handler : Nat} {hd : EapHandler} {ds : HandlerDs}
  {request : EapRequest}
  {pairmake : List UInt8 → List UInt8 → Option ValuePair}

/-- A new session gets some State, another one keeps its own. -/
theorem createState_run (he : inst.handlers.lookup handler = some hd) :
    ∃ inst' state, inst.createState handler = .ok inst'
      ∧ inst'.handlers.lookup handler = some { hd with state := state }
      ∧ (∀ a, a ≠ handler →
        inst'.handlers.lookup a = inst.handlers.lookup a)
      ∧ ∃ H n, inst' = { inst with handlers := H, randcnt := n } := by
  unfold createState
  rw [deref_eq he, ok_bind]
  split
  · refine ⟨_, randomState (inst.randPool inst.randcnt)
      (inst.randPool (inst.randcnt + 1)) (inst.randPool (inst.randcnt + 2))
      (inst.randPool (inst.randcnt + 3)), rfl, ?_, fun a ha => ?_, _, _, rfl⟩
    · rw [setHandler, FiniteMap.lookup_insert, if_pos rfl]
    · rw [setHandler, FiniteMap.lookup_insert, if_neg ha]
  · exact ⟨inst, hd.state, rfl, he, fun _ _ => rfl, _, _, rfl⟩

theorem stateOf_eq {vp : ValuePair} {state : AuthVector}
    (h : vp.octets 16 = state.bytes) : stateOf vp = state := by
  cases state
  cases h
  rfl

/-- What `eaplist_add` puts into the handler before the State. -/
def stamped (hd : EapHandler) (ds : HandlerDs) (request : EapRequest) :
    EapHandler :=
  { hd with
    timestamp := request.timestamp
    status := 1
    srcIpaddr := request.packet.srcIpaddr
    eapId := ds.request.id
    eapDs := some ds }

/-- The caller holds the handler and has filled it. -/
structure Addable (inst : RlmEap) (handler : Nat) (hd : EapHandler)
    (ds : HandlerDs) (request : EapRequest) : Prop where
  cell : inst.handlers.lookup handler = some hd
  heap : handler ≠ myHandler
  own : handler ∉ inst.sessionTree.root.toList
  request_eq : hd.request = some request.number
  eapDs_eq : hd.eapDs = some ds

/-- `eaplist_add` refuses, with a list that is full after it has expired
the oldest sessions, or puts the session behind the list and its State
into the reply. -/
theorem Represents.eaplistAdd_run (h : inst.Represents l)
    (ha : Addable inst handler hd ds request) :
    ∃ inst' request' added,
      inst.eaplistAdd pairmake handler request
        = .ok (inst', request', added)
      ∧ inst'.SameLimits inst
      ∧ (added = false → inst'.Represents l
        ∨ inst.maxSessions ≤ l.length
          ∧ inst'.Represents (unexpired inst.timerLimit request.timestamp l))
      ∧ (added = true → (l.length : Int) < inst.maxSessions
        ∧ ∃ s vp, s.handler = handler ∧ s.held.eapId = ds.request.id
          ∧ (∀ t ∈ l, handlerKey t.held ≠ handlerKey s.held)
          ∧ inst'.Represents (l ++ [s])
          ∧ request'.replyVps = request.replyVps ++ [vp]
          ∧ vp.length = eapStateLen ∧ stateOf vp = s.held.state) := by
  have hown : ∀ s ∈ l, s.handler ≠ handler := by
    intro s hs heq
    exact ha.own ((h.members _).mpr (heq ▸ List.mem_map_of_mem hs))
  have hout : handler ∉ l.map EapSession.handler :=
    fun hin => ha.own ((h.members _).mpr hin)
  unfold eaplistAdd
  rw [deref_eq ha.cell, ok_bind, if_neg (not_not.mpr ha.request_eq),
    ha.eapDs_eq]
  cases hmade : pairmake (ascii "State") (ascii "0x00") with
  | none =>
      exact ⟨inst, request, false, rfl, ⟨rfl, rfl⟩, fun _ => .inl h, by simp⟩
  | some state =>
      let one := inst.setHandler handler (stamped hd ds request)
      have hone : one.Represents l := h.set_other hown
      have hcell : one.handlers.lookup handler
          = some (stamped hd ds request) :=
        AList.lookup_insert inst.handlers
      by_cases hfull : inst.maxSessions ≤ inst.sessionTree.numElements
      · obtain ⟨mid, hmid, hrel, hrep⟩ :=
          hone.expireRounds_run 3
        have hlimits : mid.SameLimits inst := by
          obtain ⟨H, t, hd, tl, rfl⟩ := hrel.rest
          exact ⟨rfl, rfl⟩
        refine ⟨mid, request, false, ?_, hlimits,
          fun _ => .inr ⟨?_, hrep⟩, by simp⟩
        · show (if inst.maxSessions ≤ inst.sessionTree.numElements
            then _ else _) = _
          rw [if_pos hfull]
          show (one.eaplistExpire request.timestamp >>= _) = _
          rw [eaplistExpire, hmid]
          rfl
        · rw [← h.count]
          exact hfull
      · obtain ⟨two, st, htwo, hcell₂, hother, H, n, hrest⟩ :=
          createState_run hcell
        have htwoRep : two.Represents l :=
          hone.frame (fun s hs => hother _ (hown s hs)) (by rw [hrest])
            (by rw [hrest]) (by rw [hrest]) (by rw [hrest])
        obtain ⟨mixed, hmixed⟩ : ∃ m, m = { stamped hd ds request with
            state := mixState st hd.trips ds.request.id hd.eapType } :=
          ⟨_, rfl⟩
        obtain ⟨three, hthree⟩ : ∃ i, i = two.setHandler handler mixed :=
          ⟨_, rfl⟩
        have hmod : (two.modify handler fun h => { h with
            state := mixState h.state h.trips h.eapId h.eapType })
              = .ok three := by
          rw [modify_eq _ hcell₂, hthree, hmixed]
          rfl
        have hrep : three.Represents l := hthree ▸ htwoRep.set_other hown
        have hcell₃ : three.handlers.lookup handler = some mixed :=
          hthree ▸ AList.lookup_insert two.handlers
        have hlimits : three.SameLimits inst := by
          rw [hthree, hrest]
          exact ⟨rfl, rfl⟩
        obtain ⟨t, b, hins, -, hb, -⟩ :=
          hrep.tree.insertnode_spec (d := handler) trivial
        cases b with
        | false =>
            refine ⟨three, request, false, ?_, hlimits, fun _ => .inl hrep,
              by simp⟩
            show (if inst.maxSessions ≤ inst.sessionTree.numElements
              then _ else _) = _
            rw [if_neg hfull]
            show (one.createState handler >>= _) = _
            rw [htwo, ok_bind, hmod, ok_bind, deref_eq hcell₃, ok_bind]
            dsimp only
            rw [hins]
            rfl
        | true =>
            obtain ⟨five, hfive, hrel, hfwd, hbwd⟩ :=
              @append_run { three with sessionTree := t } handler mixed _
                hrep.forward hrep.backward hrep.distinct hout
                hrep.split_cells hcell₃
            obtain ⟨e, he, hsame⟩ :=
              hrel.lookup hcell₃
            let vp := { state.setOctets mixed.state.bytes with
              length := eapStateLen }
            refine ⟨five.setHandler handler { e with request := none },
              { request with replyVps := request.replyVps ++ [vp] }, true,
              ?_, ?_, by simp, fun _ => ⟨?_, ⟨handler,
              { mixed.unlinked with request := none }⟩, vp, rfl, ?_, ?_, ?_,
              rfl, rfl, ?_⟩⟩
            · show (if inst.maxSessions ≤ inst.sessionTree.numElements
                then _ else _) = _
              rw [if_neg hfull]
              show (one.createState handler >>= _) = _
              rw [htwo, ok_bind, hmod, ok_bind, deref_eq hcell₃, ok_bind]
              dsimp only
              rw [hins]
              dsimp only
              rw [hfive, ok_bind, modify_eq _ he]
              rfl
            · obtain ⟨H', hd', tl', rfl⟩ := hrel.rest
              exact hlimits
            · rw [← h.count]
              exact not_le.mp hfull
            · rw [hmixed]
              rfl
            · intro u hu hkey
              refine (hb.mp rfl) u.handler ((hrep.members _).mpr
                (List.mem_map_of_mem hu)) ?_
              rw [hrep.cell_key hu, hkey, cell_eq hcell₃]
              rfl
            · obtain ⟨H', hd', tl', hrest'⟩ := hrel.rest
              refine hrep.insert hins hout ha.heap ?_ ?_ ?_ ?_ ?_ ?_ ?_
              · rw [cell_eq hcell₃]
                rfl
              · rw [hlimits.2, ← h.count]
                exact not_le.mp hfull
              · rw [hrest']
                rfl
              · intro u hu
                rcases List.mem_append.mp hu with hu | hu
                · obtain ⟨e', he', hheld⟩ := hrep.cells u hu
                  obtain ⟨e₅, he₅, hsame₅⟩ := hrel.lookup he'
                  refine ⟨e₅, ?_, hsame₅.trans hheld⟩
                  rw [setHandler, FiniteMap.lookup_insert,
                    if_neg (hown u hu), he₅]
                · rw [List.mem_singleton.mp hu]
                  refine ⟨{ e with request := none },
                    AList.lookup_insert five.handlers, ?_⟩
                  exact congrArg (fun h : EapHandler =>
                    { h with request := none }) hsame
              · rw [(links_setRequest he).1]
                exact hfwd
              · rw [(links_setRequest he).2]
                exact hbwd
              · rw [hrest']
                rfl
            · refine stateOf_eq ?_
              show padTake 16 (mixed.state.bytes ++ _) = mixed.state.bytes
              have hlen := mixed.state.len
              rw [← hlen]
              exact padTake_append _ _

end adding

end RlmEap

end WinRadius
