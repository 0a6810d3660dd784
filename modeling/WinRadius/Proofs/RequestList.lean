/-
The list of live requests over every change of a request: what is in the
list, and what the log tells of each request.

# Listed

The tree holds the packets of the requests whose flag is set, and these
have different keys.

# Logged

Requests are told apart by their numbers. All the bytes that were sent for
one are those of its reply, and after its reject was delayed nothing was
sent for it before the event of the reject.
-/
import WinRadius.Proofs.PacketKeys
import WinRadius.Proofs.RbTree
import WinRadius.Proofs.RequestHandling

namespace WinRadius

open Lib

/-- The number of the request of a deed. -/
def Deed.number : Deed → Nat
  | .handled n | .sent n _ | .proxied n | .delayed n | .rejectDue n => n

namespace RequestServer

variable {cfg : MainConfig} {s t : RequestServer} {r : RequestId}
variable {q : Request}

-- ======== the list

/-- The list, and the requests behind it. -/
structure Listed (s : RequestServer) : Prop where
  tree : s.pl.tree.Wf RadiusPacket.Known packetKey
  mem : ∀ p, p ∈ s.pl.tree.root.toList ↔ ∃ r, (p, r) ∈ s.owners
  owner : ∀ p r, (p, r) ∈ s.owners
    ↔ ∃ q, s.requests r = some q ∧ q.inRequestHash = true ∧ q.packet = p
  unique : ∀ p r r', (p, r) ∈ s.owners → (p, r') ∈ s.owners → r = r'

/-- The request behind a packet of the list. -/
theorem Listed.ownerOf_iff (h : s.Listed) {p : RadiusPacket} :
    s.ownerOf p = some r ↔ (p, r) ∈ s.owners := by
  unfold ownerOf
  constructor
  · intro hown
    obtain ⟨⟨p', r'⟩, hfind, rfl⟩ := Option.map_eq_some_iff.mp hown
    have hp := List.find?_some hfind
    rw [decide_eq_true_eq] at hp
    subst hp
    exact List.mem_of_find?_eq_some hfind
  · intro hmem
    cases hfind : s.owners.find? fun o => decide (o.1 = p) with
    | none =>
        have := List.find?_eq_none.mp hfind (p, r) hmem
        simp at this
    | some o =>
        obtain ⟨p', r'⟩ := o
        have hp := List.find?_some hfind
        rw [decide_eq_true_eq] at hp
        subst hp
        rw [Option.map_some,
          h.unique _ _ _ (List.mem_of_find?_eq_some hfind) hmem]

/-- A request in the list is found under its packet. -/
theorem Listed.find_self (h : s.Listed) (hq : s.requests r = some q)
    (hl : q.inRequestHash = true) :
    rbtreeFinddata s.pl.tree q.packet = some q.packet := by
  rw [h.tree.finddata_eq_some_iff]
  exact ⟨(h.mem _).mpr ⟨r, (h.owner _ _).mpr ⟨q, hq, hl, rfl⟩⟩, rfl⟩

/-- A request is written, but for its packet and its flag. -/
theorem Listed.setRequest (h : s.Listed) (hq : s.requests r = some q)
    {q' : Request} (hp : q'.packet = q.packet)
    (hl : q'.inRequestHash = q.inRequestHash) :
    (s.setRequest r q').Listed := by
  refine ⟨h.tree, h.mem, ?_, h.unique⟩
  intro p r'
  refine (h.owner p r').trans ?_
  by_cases hr : r' = r
  · subst hr
    rw [hq, setRequest_self]
    constructor
    · rintro ⟨_, hq₁, hl₁, hp₁⟩
      cases hq₁
      exact ⟨q', rfl, hl.trans hl₁, hp.trans hp₁⟩
    · rintro ⟨_, hq₁, hl₁, hp₁⟩
      cases hq₁
      exact ⟨q, rfl, hl.symm.trans hl₁, hp.symm.trans hp₁⟩
  · rw [setRequest_other hr]

/-- A request leaves the list. -/
theorem Listed.unlist (h : s.Listed) (hq : s.requests r = some q) :
    (s.removeFromRequestHash r q).Listed := by
  unfold removeFromRequestHash
  split
  next => exact h
  next hl =>
    have hl' : q.inRequestHash = true := by simpa using hl
    have hfind := h.find_self hq hl'
    have hown : (q.packet, r) ∈ s.owners :=
      (h.owner _ _).mpr ⟨q, hq, hl', rfl⟩
    unfold PacketList.yank
    simp only [hfind]
    obtain ⟨hwf, hmem⟩ := h.tree.deletebydata_spec q.packet
    have hfilter : ∀ p r', (p, r') ∈ s.owners.filter
        (fun o => decide (some o.1 ≠ some q.packet))
          ↔ (p, r') ∈ s.owners ∧ p ≠ q.packet := by
      intro p r'
      rw [List.mem_filter, decide_eq_true_eq, ne_eq, Option.some.injEq]
    refine ⟨hwf, ?_, ?_, ?_⟩
    · intro p
      refine (hmem p).trans ?_
      rw [h.mem]
      constructor
      · rintro ⟨⟨r', hr'⟩, hk⟩
        exact ⟨r', (hfilter _ _).mpr ⟨hr', fun e => hk (congrArg _ e)⟩⟩
      · rintro ⟨r', hr'⟩
        obtain ⟨hr', hne⟩ := (hfilter _ _).mp hr'
        refine ⟨⟨r', hr'⟩, fun hk => hne ?_⟩
        exact h.tree.key_inj ((h.mem _).mpr ⟨r', hr'⟩)
          ((h.mem _).mpr ⟨r, hown⟩) hk
    · intro p r'
      refine (hfilter p r').trans ?_
      rw [h.owner]
      by_cases hr : r' = r
      · subst hr
        rw [hq, setRequest_self]
        constructor
        · rintro ⟨⟨_, hq₁, -, hp₁⟩, hne⟩
          cases hq₁
          exact absurd hp₁.symm hne
        · rintro ⟨_, hq₁, hl₁, -⟩
          cases hq₁
          cases hl₁
      · rw [setRequest_other hr]
        constructor
        · exact And.left
        · intro hex
          refine ⟨hex, fun e => hr ?_⟩
          subst e
          exact h.unique _ _ _ ((h.owner _ _).mpr hex) hown
    · intro p r₁ r₂ h₁ h₂
      exact h.unique p r₁ r₂ ((hfilter _ _).mp h₁).1 ((hfilter _ _).mp h₂).1

/-- A request that is not in the list is freed. -/
theorem Listed.free (h : s.Listed) (hq : s.requests r = some q)
    (hl : q.inRequestHash = false) :
    Listed { s with requests := Function.update s.requests r none } := by
  refine ⟨h.tree, h.mem, ?_, h.unique⟩
  intro p r'
  refine (h.owner p r').trans ?_
  by_cases hr : r' = r
  · subst hr
    rw [hq]
    constructor
    · rintro ⟨_, hq₁, hl₁, -⟩
      cases hq₁
      rw [hl] at hl₁
      cases hl₁
    · rintro ⟨_, hq₁, -⟩
      simp only [Function.update_self] at hq₁
      cases hq₁
  · simp only [Function.update_of_ne hr]

theorem Listed.note (h : s.Listed) (d : Deed) : (s.note d).Listed :=
  ⟨h.tree, h.mem, h.owner, h.unique⟩

/-- Every change preserves the list. -/
theorem Listed.change (h : s.Listed) (hc : Change r s t) : t.Listed := by
  cases hc with
  | edit q' hq hs _ => exact h.setRequest hq hs.packet hs.listed
  | delay q' hq hs _ _ => exact (h.setRequest hq hs.packet hs.listed).note _
  | due _ _ => exact h.note _
  | release q' hq hs _ => exact h.setRequest hq hs.packet hs.listed
  | encode bytes hq _ => exact h.setRequest hq rfl rfl
  | transmit bytes _ _ _ => exact h.note _
  | handle _ => exact h.note _
  | forward _ => exact h.note _
  | unlist hq => exact h.unlist hq
  | @abandon q hq =>
      have h' : (s.setRequest r { q with childState := .done }).Listed :=
        h.setRequest hq rfl rfl
      exact h'.unlist (setRequest_self _ _)
  | free hq hl => exact h.free hq hl

-- ======== the log

/-- What the log tells of the requests. -/
structure Logged (s : RequestServer) : Prop where
  counter : ∀ r q, s.requests r = some q → q.number < s.requestNumCounter
  distinct : ∀ r r' q q', s.requests r = some q → s.requests r' = some q' →
    q.number = q'.number → r = r'
  past : ∀ d ∈ s.log, d.number < s.requestNumCounter
  once : ∀ n b b', Deed.sent n b ∈ s.log → Deed.sent n b' ∈ s.log → b = b'
  cached : ∀ r q b, s.requests r = some q → Deed.sent q.number b ∈ s.log →
    q.replyData = some b
  pending : ∀ r q, s.requests r = some q → Deed.delayed q.number ∈ s.log →
    Deed.rejectDue q.number ∈ s.log ∨ q.childState = .rejectDelay
      ∨ q.childState = .done ∧ q.inRequestHash = false
  due : ∀ later earlier n b, s.log = later ++ .sent n b :: earlier →
    Deed.delayed n ∈ earlier → Deed.rejectDue n ∈ earlier

/-- A request is written, but for its number. -/
theorem Logged.setRequest (h : s.Logged) (hq : s.requests r = some q)
    {q' : Request} (hn : q'.number = q.number)
    (hd : ∀ b, q.replyData = some b → q'.replyData = some b)
    (hp : q.childState = .rejectDelay
        ∨ q.childState = .done ∧ q.inRequestHash = false →
      Deed.rejectDue q.number ∈ s.log ∨ q'.childState = .rejectDelay
        ∨ q'.childState = .done ∧ q'.inRequestHash = false) :
    (s.setRequest r q').Logged := by
  have hget : ∀ r₁ q₁, (s.setRequest r q').requests r₁ = some q₁ →
      r₁ = r ∧ q₁ = q' ∨ r₁ ≠ r ∧ s.requests r₁ = some q₁ := by
    intro r₁ q₁ h₁
    by_cases hr : r₁ = r
    · subst hr
      rw [setRequest_self] at h₁
      exact Or.inl ⟨rfl, (Option.some.inj h₁).symm⟩
    · rw [setRequest_other hr] at h₁
      exact Or.inr ⟨hr, h₁⟩
  refine ⟨?_, ?_, h.past, h.once, ?_, ?_, h.due⟩
  · intro r₁ q₁ h₁
    rcases hget r₁ q₁ h₁ with ⟨-, rfl⟩ | ⟨-, h₁⟩
    · rw [hn]
      exact h.counter r q hq
    · exact h.counter r₁ q₁ h₁
  · intro r₁ r₂ q₁ q₂ h₁ h₂ he
    rcases hget r₁ q₁ h₁ with ⟨hr₁, hq₁⟩ | ⟨-, hr₁⟩ <;>
      rcases hget r₂ q₂ h₂ with ⟨hr₂, hq₂⟩ | ⟨-, hr₂⟩
    · exact hr₁.trans hr₂.symm
    · rw [hq₁, hn] at he
      rw [hr₁]
      exact h.distinct _ _ _ _ hq hr₂ he
    · rw [hq₂, hn] at he
      rw [hr₂]
      exact h.distinct _ _ _ _ hr₁ hq he
    · exact h.distinct _ _ _ _ hr₁ hr₂ he
  · intro r₁ q₁ b h₁ hb
    rcases hget r₁ q₁ h₁ with ⟨-, rfl⟩ | ⟨-, h₁⟩
    · rw [hn] at hb
      exact hd b (h.cached r q b hq hb)
    · exact h.cached r₁ q₁ b h₁ hb
  · intro r₁ q₁ h₁ hdel
    rcases hget r₁ q₁ h₁ with ⟨-, rfl⟩ | ⟨-, h₁⟩
    · rw [hn] at hdel ⊢
      rcases h.pending r q hq hdel with hc | hc
      · exact Or.inl hc
      · exact hp hc
    · exact h.pending r₁ q₁ h₁ hdel

/-- A deed that sends nothing is noted. -/
theorem Logged.note (h : s.Logged) {d : Deed}
    (hn : d.number < s.requestNumCounter)
    (hs : ∀ n b, d ≠ .sent n b)
    (hd : ∀ r q, s.requests r = some q → d = .delayed q.number →
      q.childState = .rejectDelay) : (s.note d).Logged := by
  have hsent : ∀ n b, Deed.sent n b ∈ (s.note d).log →
      Deed.sent n b ∈ s.log := by
    intro n b hmem
    rcases List.mem_cons.mp hmem with he | hmem
    · exact absurd he.symm (hs n b)
    · exact hmem
  refine ⟨h.counter, h.distinct, ?_, ?_, ?_, ?_, ?_⟩
  · intro d' hd'
    rcases List.mem_cons.mp hd' with rfl | hd'
    · exact hn
    · exact h.past d' hd'
  · intro n b b' h₁ h₂
    exact h.once n b b' (hsent n b h₁) (hsent n b' h₂)
  · intro r q b hq hb
    exact h.cached r q b hq (hsent _ b hb)
  · intro r q hq hdel
    rcases List.mem_cons.mp hdel with he | hdel
    · exact Or.inr (Or.inl (hd r q hq he.symm))
    · rcases h.pending r q hq hdel with hc | hc
      · exact Or.inl (List.mem_cons_of_mem _ hc)
      · exact Or.inr hc
  · intro later earlier n b hlog hdel
    cases later with
    | nil => exact absurd (List.cons.inj hlog).1 (hs n b)
    | cons d' later =>
        exact h.due later earlier n b (List.cons.inj hlog).2 hdel

/-- A deed that neither sends nor delays anything is noted. -/
theorem Logged.notePlain (h : s.Logged) (hq : s.requests r = some q)
    {d : Deed} (hn : d.number = q.number) (hs : ∀ n b, d ≠ .sent n b)
    (hd : ∀ n, d ≠ .delayed n) : (s.note d).Logged := by
  refine h.note ?_ hs fun r' q' _ he => absurd he (hd _)
  rw [hn]
  exact h.counter r q hq

/-- The reply of a request is sent. -/
theorem Logged.transmit (h : s.Logged) (hq : s.requests r = some q)
    {bytes : List UInt8} (hd : q.replyData = some bytes)
    (hok : s.Sendable q) : (s.note (.sent q.number bytes)).Logged := by
  have hnum : ∀ n b, Deed.sent n b ∈ (s.note (.sent q.number bytes)).log →
      n = q.number ∧ b = bytes ∨ Deed.sent n b ∈ s.log := by
    intro n b hmem
    rcases List.mem_cons.mp hmem with he | hmem
    · cases he
      exact Or.inl ⟨rfl, rfl⟩
    · exact Or.inr hmem
  have hbytes : ∀ b, Deed.sent q.number b ∈ s.log → b = bytes := by
    intro b hb
    exact Option.some.inj ((h.cached r q b hq hb).symm.trans hd)
  refine ⟨h.counter, h.distinct, ?_, ?_, ?_, ?_, ?_⟩
  · intro d hd'
    rcases List.mem_cons.mp hd' with rfl | hd'
    · exact h.counter r q hq
    · exact h.past d hd'
  · intro n b b' h₁ h₂
    rcases hnum n b h₁ with ⟨hn, hb⟩ | h₁' <;>
      rcases hnum n b' h₂ with ⟨hn', hb'⟩ | h₂'
    · exact hb.trans hb'.symm
    · rw [hn] at h₂'
      exact hb.trans (hbytes b' h₂').symm
    · rw [hn'] at h₁'
      exact (hbytes b h₁').trans hb'.symm
    · exact h.once n b b' h₁' h₂'
  · intro r' q' b hq' hb
    rcases hnum _ b hb with ⟨hn, rfl⟩ | hb
    · cases h.distinct r' r q' q hq' hq hn
      cases hq.symm.trans hq'
      exact hd
    · exact h.cached r' q' b hq' hb
  · intro r' q' hq' hdel
    rcases List.mem_cons.mp hdel with he | hdel
    · cases he
    · rcases h.pending r' q' hq' hdel with hc | hc
      · exact Or.inl (List.mem_cons_of_mem _ hc)
      · exact Or.inr hc
  · intro later earlier n b hlog hdel
    cases later with
    | nil =>
        obtain ⟨he, hrest⟩ := List.cons.inj hlog
        cases he
        rw [← hrest] at hdel ⊢
        -- a request that may be answered does not wait for its reject
        rcases h.pending r q hq hdel with hc | hc | ⟨hc, hl⟩
        · exact hc
        · rcases hok with (hu | hu | hu) | ⟨hu | hu, -⟩ | hu
          · rw [hc] at hu
            cases hu
          · rw [hc] at hu
            cases hu
          · rw [hc] at hu
            cases hu
          · rw [hc] at hu
            cases hu
          · rw [hc] at hu
            cases hu
          · exact hu
        · rcases hok with (hu | hu | hu) | ⟨-, hu⟩ | hu
          · rw [hc] at hu
            cases hu
          · rw [hc] at hu
            cases hu
          · rw [hc] at hu
            cases hu
          · rw [hl] at hu
            cases hu
          · exact hu
    | cons d' later =>
        exact h.due later earlier n b (List.cons.inj hlog).2 hdel

/-- The log is about the requests alone. -/
theorem Logged.congr (h : s.Logged) (hr : t.requests = s.requests)
    (hn : t.requestNumCounter = s.requestNumCounter)
    (hl : t.log = s.log) : t.Logged := by
  constructor
  · rw [hr, hn]
    exact h.counter
  · rw [hr]
    exact h.distinct
  · rw [hl, hn]
    exact h.past
  · rw [hl]
    exact h.once
  · rw [hr, hl]
    exact h.cached
  · rw [hr, hl]
    exact h.pending
  · rw [hl]
    exact h.due

/-- A request leaves the list, and perhaps is done. -/
theorem Logged.unlist (h : s.Logged) (hq : s.requests r = some q)
    {q' : Request} (hn : q'.number = q.number)
    (hd : q'.replyData = q.replyData)
    (hc : q'.childState = q.childState ∨ q'.childState = .done) :
    ((s.setRequest r q').removeFromRequestHash r q').Logged := by
  have hstate (u : Request) (hu : u.childState = q'.childState)
      (hf : u.inRequestHash = false)
      (hp : q.childState = .rejectDelay
        ∨ q.childState = .done ∧ q.inRequestHash = false) :
      Deed.rejectDue q.number ∈ s.log ∨ u.childState = .rejectDelay
        ∨ u.childState = .done ∧ u.inRequestHash = false := by
    rw [hu]
    rcases hc with hc | hc
    · rw [hc]
      rcases hp with hp | ⟨hp, -⟩
      · exact Or.inr (Or.inl hp)
      · exact Or.inr (Or.inr ⟨hp, hf⟩)
    · exact Or.inr (Or.inr ⟨hc, hf⟩)
  have hdata (b : List UInt8) (hb : q.replyData = some b) :
      q'.replyData = some b := hd.trans hb
  unfold removeFromRequestHash
  split
  next hf => exact h.setRequest hq hn hdata (hstate q' rfl hf)
  next =>
    have hset : (s.setRequest r { q' with inRequestHash := false }).Logged :=
      h.setRequest hq hn hdata (hstate _ rfl rfl)
    refine hset.congr ?_ rfl rfl
    exact Function.update_idem ..

/-- A request is freed. -/
theorem Logged.free (h : s.Logged) (r : RequestId) :
    Logged { s with requests := Function.update s.requests r none } := by
  have hget : ∀ r₁ q₁, Function.update s.requests r none r₁ = some q₁ →
      s.requests r₁ = some q₁ := by
    intro r₁ q₁ h₁
    by_cases hr : r₁ = r
    · subst hr
      rw [Function.update_self] at h₁
      cases h₁
    · rwa [Function.update_of_ne hr] at h₁
  refine ⟨?_, ?_, h.past, h.once, ?_, ?_, h.due⟩
  · intro r₁ q₁ h₁
    exact h.counter r₁ q₁ (hget r₁ q₁ h₁)
  · intro r₁ r₂ q₁ q₂ h₁ h₂
    exact h.distinct r₁ r₂ q₁ q₂ (hget _ _ h₁) (hget _ _ h₂)
  · intro r₁ q₁ b h₁
    exact h.cached r₁ q₁ b (hget _ _ h₁)
  · intro r₁ q₁ h₁
    exact h.pending r₁ q₁ (hget _ _ h₁)

/-- Every change preserves what the log tells. -/
theorem Logged.change (h : s.Logged) (hc : Change r s t) : t.Logged := by
  -- a state that is not settled is not one that `pending` speaks of
  have hsettled : ∀ q : Request, q.childState.Unsettled →
      ¬ (q.childState = .rejectDelay
        ∨ q.childState = .done ∧ q.inRequestHash = false) := by
    rintro q (hu | hu | hu) (hc | ⟨hc, -⟩) <;> rw [hu] at hc <;> cases hc
  cases hc with
  | @edit q q' hq hs hc =>
      refine h.setRequest hq hs.number (fun b hb => hs.data.trans hb) ?_
      rintro hp
      rcases hc with hc | ⟨hu, -⟩
      · rw [hc, hs.listed]
        exact Or.inr hp
      · exact absurd hp (hsettled q hu)
  | @delay q q' hq hs hu hc =>
      have hset : (s.setRequest r q').Logged :=
        h.setRequest hq hs.number (fun b hb => hs.data.trans hb)
          fun hp => absurd hp (hsettled q hu)
      refine hset.note ?_ (fun _ _ he => nomatch he) ?_
      · exact hs.number ▸ h.counter r q hq
      · intro r' q'' hq'' he
        have hn : q'.number = q''.number := Deed.delayed.inj he
        cases hset.distinct r r' q' q'' (setRequest_self _ _) hq'' hn
        rw [setRequest_self] at hq''
        cases hq''
        exact hc
  | due hq _ => exact h.notePlain hq rfl nofun nofun
  | release q' hq hs hdue =>
      exact h.setRequest hq hs.number (fun b hb => hs.data.trans hb)
        fun _ => Or.inl hdue
  | encode bytes hq hd =>
      refine h.setRequest hq rfl (fun b hb => ?_) fun hp => Or.inr hp
      rw [hd] at hb
      cases hb
  | transmit bytes hq hd hok => exact h.transmit hq hd hok
  | handle hq => exact h.notePlain hq rfl nofun nofun
  | forward hq => exact h.notePlain hq rfl nofun nofun
  | @unlist q hq =>
      have hun := h.unlist hq rfl rfl (Or.inl rfl)
      rwa [setRequest_eq hq] at hun
  | @abandon q hq => exact h.unlist hq rfl rfl (Or.inr rfl)
  | free _ _ => exact h.free r

-- ======== new requests

/-- A number is used up. -/
theorem Logged.count (h : s.Logged) (hr : t.requests = s.requests)
    (hn : t.requestNumCounter = s.requestNumCounter + 1)
    (hl : t.log = s.log) : t.Logged := by
  have hup : Logged { s with
      requestNumCounter := s.requestNumCounter + 1 } :=
    ⟨fun r q hq => Nat.lt_succ_of_lt (h.counter r q hq), h.distinct,
      fun d hd => Nat.lt_succ_of_lt (h.past d hd), h.once, h.cached,
      h.pending, h.due⟩
  exact hup.congr hr hn hl

/-- A request is made, with the next number. -/
theorem Logged.enter (h : s.Logged) (hnone : s.requests r = none)
    (hq : q.number = s.requestNumCounter) :
    Logged { s.setRequest r q with
      requestNumCounter := s.requestNumCounter + 1 } := by
  have hget : ∀ r₁ q₁, (s.setRequest r q).requests r₁ = some q₁ →
      r₁ = r ∧ q₁ = q ∨ r₁ ≠ r ∧ s.requests r₁ = some q₁ := by
    intro r₁ q₁ h₁
    by_cases hr : r₁ = r
    · subst hr
      rw [setRequest_self] at h₁
      exact Or.inl ⟨rfl, (Option.some.inj h₁).symm⟩
    · rw [setRequest_other hr] at h₁
      exact Or.inr ⟨hr, h₁⟩
  -- nothing is known of the number yet
  have hnew (d : Deed) (hd : d ∈ s.log) : d.number ≠ q.number := by
    rw [hq]
    exact (h.past d hd).ne
  refine ⟨?_, ?_, fun d hd => Nat.lt_succ_of_lt (h.past d hd), h.once,
    ?_, ?_, h.due⟩
  · intro r₁ q₁ h₁
    rcases hget r₁ q₁ h₁ with ⟨-, hq₁⟩ | ⟨-, h₁⟩
    · rw [hq₁, hq]
      exact Nat.lt_succ_self _
    · exact Nat.lt_succ_of_lt (h.counter r₁ q₁ h₁)
  · intro r₁ r₂ q₁ q₂ h₁ h₂ he
    rcases hget r₁ q₁ h₁ with ⟨hr₁, hq₁⟩ | ⟨-, hr₁⟩ <;>
      rcases hget r₂ q₂ h₂ with ⟨hr₂, hq₂⟩ | ⟨-, hr₂⟩
    · exact hr₁.trans hr₂.symm
    · rw [hq₁, hq] at he
      exact absurd he.symm (h.counter _ _ hr₂).ne
    · rw [hq₂, hq] at he
      exact absurd he (h.counter _ _ hr₁).ne
    · exact h.distinct _ _ _ _ hr₁ hr₂ he
  · intro r₁ q₁ b h₁ hb
    rcases hget r₁ q₁ h₁ with ⟨-, hq₁⟩ | ⟨-, hr₁⟩
    · rw [hq₁] at hb
      exact absurd rfl (hnew _ hb)
    · exact h.cached r₁ q₁ b hr₁ hb
  · intro r₁ q₁ h₁ hdel
    rcases hget r₁ q₁ h₁ with ⟨-, hq₁⟩ | ⟨-, hr₁⟩
    · rw [hq₁] at hdel
      exact absurd rfl (hnew _ hdel)
    · exact h.pending r₁ q₁ hr₁ hdel

/-- A packet whose key is free enters the list, with its request. -/
theorem Listed.enter (h : s.Listed) (hnone : s.requests r = none)
    (hl : q.inRequestHash = true) {tree : RbTree RadiusPacket}
    (hwf : tree.Wf RadiusPacket.Known packetKey)
    (hfree : ∀ p ∈ s.pl.tree.root.toList,
      packetKey p ≠ packetKey q.packet)
    (hmem : ∀ p, p ∈ tree.root.toList
      ↔ p ∈ s.pl.tree.root.toList ∨ p = q.packet)
    (ht : t = { s.setRequest r q with
      pl := { s.pl with tree := tree }
      owners := (q.packet, r) :: s.owners
      requestNumCounter := t.requestNumCounter }) : t.Listed := by
  have hnew : ∀ p r', (p, r') ∈ s.owners → packetKey p ≠ packetKey q.packet :=
    fun p r' ho => hfree p ((h.mem p).mpr ⟨r', ho⟩)
  have hunowned : ∀ p, (p, r) ∉ s.owners := by
    intro p ho
    obtain ⟨q', hq', -⟩ := (h.owner p r).mp ho
    rw [hnone] at hq'
    cases hq'
  rw [ht]
  refine ⟨hwf, ?_, ?_, ?_⟩
  · intro p
    refine (hmem p).trans ?_
    rw [h.mem]
    constructor
    · rintro (⟨r', ho⟩ | rfl)
      · exact ⟨r', List.mem_cons_of_mem _ ho⟩
      · exact ⟨r, List.mem_cons_self⟩
    · rintro ⟨r', ho⟩
      rcases List.mem_cons.mp ho with he | ho
      · exact Or.inr (Prod.mk.inj he).1
      · exact Or.inl ⟨r', ho⟩
  · intro p r'
    show (p, r') ∈ (q.packet, r) :: s.owners
      ↔ ∃ q', (s.setRequest r q).requests r' = some q'
        ∧ q'.inRequestHash = true ∧ q'.packet = p
    rw [List.mem_cons]
    by_cases hr : r' = r
    · subst hr
      rw [setRequest_self]
      constructor
      · rintro (he | ho)
        · exact ⟨q, rfl, hl, (Prod.mk.inj he).1.symm⟩
        · exact absurd ho (hunowned p)
      · rintro ⟨_, hq', -, hp⟩
        cases hq'
        rw [hp]
        exact Or.inl rfl
    · rw [setRequest_other hr, ← h.owner]
      constructor
      · rintro (he | ho)
        · exact absurd (Prod.mk.inj he).2 hr
        · exact ho
      · exact Or.inr
  · intro p r₁ r₂ h₁ h₂
    rcases List.mem_cons.mp h₁ with he₁ | h₁ <;>
      rcases List.mem_cons.mp h₂ with he₂ | h₂
    · exact (Prod.mk.inj he₁).2.trans (Prod.mk.inj he₂).2.symm
    · exact absurd (congrArg packetKey (Prod.mk.inj he₁).1) (hnew p r₂ h₂)
    · exact absurd (congrArg packetKey (Prod.mk.inj he₂).1) (hnew p r₁ h₁)
    · exact h.unique p r₁ r₂ h₁ h₂

end RequestServer

end WinRadius
