/-
The id table records the requests outstanding.

# The invariant

`Exact` adds to `Sound` what depends on the hash table of destinations: a
bit of a destination's word is set for the requests that hold this id on
this socket, and no two of them hold the same.

# The condition

It survives an allocation as long as the table finds the destination's
entry again. The table loses an entry that is inserted behind a smaller
one of the same hash (`insert_wf`): a second entry is made for the
destination, with all ids free, and none of the ids in the first one are
ever given back. `Orderly` is that this does not happen.
-/
import WinRadius.Proofs.IdAlloc

namespace WinRadius

open Lib

namespace Session

open PacketList

variable {s t : Session}

-- ======== the invariant

/-- The key of a request's destination. -/
def dest (r : RadiusPacket) : Dst2Id := dstOf r.dstIpaddr r.dstPort

/-- Two requests hold one id on one socket for one destination. -/
def SameUse (a b : RadiusPacket) : Prop :=
  a.sockfd = b.sockfd ∧ SameAddr a.dstIpaddr b.dstIpaddr
    ∧ a.dstPort = b.dstPort ∧ a.id = b.id

instance (a b : RadiusPacket) : Decidable (SameUse a b) :=
  inferInstanceAs (Decidable (_ ∧ _ ∧ _ ∧ _))

theorem SameUse.symm {a b : RadiusPacket} (h : SameUse a b) :
    SameUse b a :=
  ⟨h.1.symm, h.2.1.symm, h.2.2.1.symm, h.2.2.2.symm⟩

/-- A request that uses the slot `k` for the destination `pd` and the
id. -/
def Uses (pl : PacketList) (pd : Dst2Id) (id k : Nat) (r : RadiusPacket) :
    Prop :=
  dstKey (dest r) = dstKey pd ∧ r.id = id
    ∧ (pl.socket k).sockfd = r.sockfd

structure Exact (s : Session) : Prop where
  wf : s.pl.dst2idHt.Wf dst2idOps
  known : ∀ pd, s.pl.dst2idHt.Holds pd → pd.dstIpaddr.Known
  ref_lt : ∀ pd, s.pl.dst2idHt.Holds pd → pd.id < s.pl.ids.length
  ref_inj : ∀ pd pd', s.pl.dst2idHt.Holds pd → s.pl.dst2idHt.Holds pd' →
    pd.id = pd'.id → pd = pd'
  len : ∀ words ∈ s.pl.ids, words.length = 256
  bits : ∀ pd, s.pl.dst2idHt.Holds pd → ∀ id k, id < 256 → k < 32 →
    ((s.pl.idWord pd id).getLsbD k = true
      ↔ ∃ r ∈ s.held, Uses s.pl pd id k r)
  stored : ∀ r ∈ s.held, ∃ pd, s.pl.dst2idHt.Holds pd
    ∧ dstKey (dest r) = dstKey pd
  apart : s.held.Pairwise fun a b => ¬SameUse a b

theorem create_exact : create.Exact := by
  have hnone (pd : Dst2Id) : ¬(create.pl.dst2idHt).Holds pd :=
    HashTable.create_holds pd
  refine ⟨HashTable.create_wf, fun pd h => absurd h (hnone pd),
    fun pd h => absurd h (hnone pd), fun pd _ h => absurd h (hnone pd), ?_,
    fun pd h => absurd h (hnone pd), ?_, .nil⟩
  · intro words h
    cases h
  · intro r h
    cases h

theorem Exact.finddata (h : s.Exact) {d : Dst2Id}
    (hd : d.dstIpaddr.Known) :
    HashTable.Keeps dst2idOps s.pl.dst2idHt
        (s.pl.dst2idHt.finddata dst2idOps d).1
      ∧ ∀ pd, (s.pl.dst2idHt.finddata dst2idOps d).2 = some pd
        ↔ s.pl.dst2idHt.Holds pd ∧ dstKey pd = dstKey d :=
  HashTable.finddata_spec dst2id_lawful h.wf h.known hd

/-- A destination has one entry at most. -/
theorem Exact.key_inj (h : s.Exact) {pd pd' : Dst2Id}
    (hp : s.pl.dst2idHt.Holds pd) (hp' : s.pl.dst2idHt.Holds pd')
    (hk : dstKey pd = dstKey pd') : pd = pd' := by
  obtain ⟨-, hf⟩ := h.finddata (h.known pd hp)
  have heq := ((hf pd).mpr ⟨hp, rfl⟩).symm.trans
    ((hf pd').mpr ⟨hp', hk.symm⟩)
  exact Option.some.inj heq

/-- Another list with the same content of the table, the same words, and
the sockets of the held requests in their slots. -/
theorem Exact.congr {pl : PacketList} {listed : List RadiusPacket}
    (h : s.Exact) (hwf : pl.dst2idHt.Wf dst2idOps)
    (hholds : ∀ pd, pl.dst2idHt.Holds pd ↔ s.pl.dst2idHt.Holds pd)
    (hids : pl.ids = s.pl.ids)
    (hsock : ∀ r ∈ s.held, ∀ k, k < 32 →
      ((pl.socket k).sockfd = r.sockfd
        ↔ (s.pl.socket k).sockfd = r.sockfd)) :
    Exact { s with pl := pl, listed := listed } := by
  have hword (pd : Dst2Id) (id : Nat) :
      pl.idWord pd id = s.pl.idWord pd id := by
    unfold idWord
    rw [hids]
  refine ⟨hwf, ?_, ?_, ?_, ?_, ?_, ?_, h.apart⟩
  · intro pd hp
    exact h.known pd ((hholds pd).mp hp)
  · intro pd hp
    simp only [hids]
    exact h.ref_lt pd ((hholds pd).mp hp)
  · intro pd pd' hp hp'
    exact h.ref_inj pd pd' ((hholds pd).mp hp) ((hholds pd').mp hp')
  · simp only [hids]
    exact h.len
  · intro pd hp id k hid hk
    simp only [hword]
    rw [h.bits pd ((hholds pd).mp hp) id k hid hk]
    refine exists_congr fun r => and_congr_right fun hr => ?_
    unfold Uses
    rw [hsock r hr k hk]
  · intro r hr
    obtain ⟨pd, hp, hk⟩ := h.stored r hr
    exact ⟨pd, (hholds pd).mpr hp, hk⟩

-- ======== sockets

theorem socketAdd_exact (h : s.Exact) (hsound : s.Sound) {sockfd : Int}
    {src : Sockaddr} (ha : s.Allowed (.socketAdd sockfd src)) :
    Exact { s with pl := (s.pl.socketAdd sockfd (some src)).1 } := by
  obtain ⟨-, hnew⟩ := ha
  rcases s.pl.socketAdd_cases sockfd (some src) with heq
    | ⟨i, ps, mask, hi, hfree, heq, hfd, -⟩
  · rw [heq]
    exact h
  rw [heq]
  refine h.congr h.wf (fun _ => Iff.rfl) rfl fun r hr k hk => ?_
  obtain ⟨j, hj, -, hjfd, hne, -⟩ := hsound.slot hr
  have hlen := hsound.slots.len
  have hsock : PacketList.socket
      { s.pl.setSocket i ps with mask := mask } k
        = if k = i then ps else s.pl.socket k :=
    socket_setSocket (by omega) ps k
  rw [hsock]
  split
  · next hki =>
      rw [hfd, hki, hfree]
      refine ⟨fun heq => ?_, fun heq => absurd heq.symm hne⟩
      exact absurd (hjfd.trans heq.symm) (hnew j hj)
  · exact Iff.rfl

theorem socketRemove_exact (h : s.Exact) (hsound : s.Sound) {sockfd : Int}
    (ha : s.Allowed (.socketRemove sockfd)) :
    Exact { s with pl := (s.pl.socketRemove sockfd).1 } := by
  have hne : sockfd ≠ -1 := ha
  rcases s.pl.socketRemove_cases sockfd with heq
    | ⟨i, hi, hfd, hnum, heq⟩
  · rw [heq]
    exact h
  rw [heq]
  refine h.congr h.wf (fun _ => Iff.rfl) rfl fun r hr k hk => ?_
  obtain ⟨-, -, -, -, hrne, -⟩ := hsound.slot hr
  have hlen := hsound.slots.len
  -- a socket with requests outstanding is not removed
  have hrfd : r.sockfd ≠ sockfd := by
    intro heq
    have hcount := hsound.count i hi (by rw [hfd]; exact hne)
    have hpos : 0 < outstanding s.held (s.pl.socket i).sockfd :=
      List.countP_pos_iff.mpr ⟨r, hr, by simp [heq, hfd]⟩
    omega
  have hsock := socket_setSocket (by omega : i < s.pl.sockets.length)
    { s.pl.socket i with sockfd := -1 } k
  change ((s.pl.setSocket i _).socket k).sockfd = r.sockfd ↔ _
  rw [hsock]
  split
  · next hki =>
      rw [hki, hfd]
      exact ⟨fun heq => absurd heq.symm hrne,
        fun heq => absurd heq.symm hrfd⟩
  · exact Iff.rfl

-- ======== allocation

/-- The destination of an allocation that reaches the table has its entry
there, or it compares smaller than all destinations of its hash. -/
def Orderly (s : Session) : PacketOp → Prop
  | .idAlloc request _ => s.pl.Specified request →
      (∃ pd, s.pl.dst2idHt.Holds pd
        ∧ packetDst2idCmp (dest request) pd = 0)
      ∨ ∀ pd, s.pl.dst2idHt.Holds pd →
        packetDst2idHash pd = packetDst2idHash (dest request) →
        packetDst2idCmp (dest request) pd < 0
  | _ => True

/-- Looking up a destination that the table can hold. -/
theorem dst2id_exact (h : s.Exact) {request : RadiusPacket}
    {start : Nat} (hspec : s.pl.Specified request)
    (ho : s.Orderly (.idAlloc request start)) :
    Exact { s with
      pl := (s.pl.dst2id request.dstIpaddr request.dstPort).1 }
      ∧ ∃ pd, (s.pl.dst2id request.dstIpaddr request.dstPort).2 = some pd
        ∧ (s.pl.dst2id request.dstIpaddr request.dstPort).1.dst2idHt.Holds
          pd
        ∧ dstKey pd = dstKey (dest request) := by
  have hknown : (dest request).dstIpaddr.Known :=
    frInaddrAny_known hspec.2.2.1.ge
  obtain ⟨hkeeps, hfind⟩ := h.finddata hknown
  obtain ⟨ht, found, hf⟩ : ∃ ht found,
      s.pl.dst2idHt.finddata dst2idOps (dest request) = (ht, found) :=
    ⟨_, _, rfl⟩
  rw [hf] at hkeeps hfind
  cases found with
  | some pd =>
      obtain ⟨hp, hk⟩ := (hfind pd).mp rfl
      have hd := dst2id_found (congrArg Prod.snd hf)
      rw [show s.pl.dst2idHt.finddata dst2idOps
        (dstOf request.dstIpaddr request.dstPort) = (ht, some pd) from hf]
        at hd
      rw [hd]
      refine ⟨h.congr hkeeps.wf hkeeps.holds rfl
        fun _ _ _ _ => Iff.rfl, pd, rfl, (hkeeps.holds pd).mpr hp, hk⟩
  | none =>
      have hnone (pd : Dst2Id) (hp : s.pl.dst2idHt.Holds pd) :
          dstKey pd ≠ dstKey (dest request) := fun hk => by
        have := (hfind pd).mpr ⟨hp, hk⟩
        cases this
      have hnew : ∀ pd, ht.Holds pd → packetDst2idHash pd
          = packetDst2idHash (dest request) →
          packetDst2idCmp (dest request) pd < 0 := by
        intro pd hp
        have hp := (hkeeps.holds pd).mp hp
        rcases ho hspec with ⟨pd', hp', hcmp⟩ | hlt
        · have hk := (packetDst2idCmp_spec _ _ (h.known pd' hp')).2.mp hcmp
          exact absurd hk.symm (hnone pd' hp')
        · exact hlt pd hp
      obtain ⟨hins, hwf, hholds⟩ := HashTable.insert_wf hkeeps.wf
        (d := s.pl.newEntry request.dstIpaddr request.dstPort) (by
          intro pd hp hh
          have hlt := hnew pd hp hh
          simp only [HashOps.matches, dst2idOps]
          rw [if_neg, if_pos]
          · exact hlt
          · exact hlt.not_gt)
      rw [dst2id_new hf hins]
      refine ⟨⟨hwf, ?_, ?_, ?_, ?_, ?_, ?_, h.apart⟩, _, rfl,
        (hholds _).mpr (Or.inl rfl), rfl⟩
      · intro pd hp
        rcases (hholds pd).mp hp with rfl | hp
        · exact hknown
        · exact h.known pd ((hkeeps.holds pd).mp hp)
      · intro pd hp
        simp only [List.length_append, List.length_singleton]
        rcases (hholds pd).mp hp with rfl | hp
        · exact Nat.lt_succ_self _
        · exact (h.ref_lt pd ((hkeeps.holds pd).mp hp)).trans
            (Nat.lt_succ_self _)
      · intro pd pd' hp hp' heq
        rcases (hholds pd).mp hp with rfl | hp
        · rcases (hholds pd').mp hp' with rfl | hp'
          · rfl
          · have := h.ref_lt pd' ((hkeeps.holds pd').mp hp')
            rw [← heq] at this
            exact absurd this (lt_irrefl _)
        · have hlt := h.ref_lt pd ((hkeeps.holds pd).mp hp)
          rcases (hholds pd').mp hp' with rfl | hp'
          · rw [heq] at hlt
            exact absurd hlt (lt_irrefl _)
          · exact h.ref_inj pd pd' ((hkeeps.holds pd).mp hp)
              ((hkeeps.holds pd').mp hp') heq
      · intro words hw
        rcases List.mem_append.mp hw with hw | hw
        · exact h.len words hw
        · rw [List.mem_singleton.mp hw, List.length_replicate]
      · intro pd hp id k hid hk
        rcases (hholds pd).mp hp with rfl | hp
        · -- the destination is new, so nobody was sent anything there
          rw [idWord_newEntry]
          simp only [BitVec.ofNat_eq_ofNat, BitVec.getLsbD_zero,
            Bool.false_eq_true, false_iff, not_exists, not_and]
          intro r hr huse
          obtain ⟨pd, hp, hk⟩ := h.stored r hr
          exact hnone pd hp (hk.symm.trans huse.1)
        · have hp := (hkeeps.holds pd).mp hp
          rw [idWord_append _ _ (h.ref_lt pd hp)]
          exact h.bits pd hp id k hid hk
      · intro r hr
        obtain ⟨pd, hp, hk⟩ := h.stored r hr
        exact ⟨pd, (hholds pd).mpr (Or.inr ((hkeeps.holds pd).mpr hp)), hk⟩

theorem idWord_setIdWord {pl : PacketList} {pd : Dst2Id} {id : Nat}
    (hpd : pd.id < pl.ids.length)
    (hid : id < (pl.ids.getD pd.id []).length) (word : BitVec 32)
    (pd' : Dst2Id) (id' : Nat) :
    (pl.setIdWord pd id word).idWord pd' id'
      = if pd'.id = pd.id ∧ id' = id then word else pl.idWord pd' id' := by
  unfold idWord setIdWord
  simp only [List.getD_eq_getElem?_getD] at hid ⊢
  rw [List.getElem?_set]
  by_cases hp : pd.id = pd'.id
  · rw [if_pos hp, if_pos (by omega), Option.getD_some, List.getElem?_set,
      ← hp]
    by_cases hi : id = id'
    · rw [if_pos hi, if_pos (by omega), if_pos ⟨rfl, hi.symm⟩,
        Option.getD_some]
    · rw [if_neg hi, if_neg (fun h => hi h.2.symm)]
  · rw [if_neg hp, if_neg (fun h => hp h.1.symm)]

theorem Exact.word_length (h : s.Exact) {pd : Dst2Id}
    (hp : s.pl.dst2idHt.Holds pd) :
    (s.pl.ids.getD pd.id []).length = 256 := by
  have hlt := h.ref_lt pd hp
  rw [List.getD_eq_getElem?_getD, List.getElem?_eq_getElem hlt,
    Option.getD_some]
  exact h.len _ (List.getElem_mem hlt)

/-- A change of one bit of one word that goes with a change of the held
requests. -/
theorem Exact.setBit {pl : PacketList} {held : List RadiusPacket}
    (h : s.Exact) (hsame : s.pl.SameSlots pl) {pd : Dst2Id}
    {id i : Nat} {word : BitVec 32} (hp : s.pl.dst2idHt.Holds pd)
    (hid : id < 256) (hht : pl.dst2idHt = s.pl.dst2idHt)
    (hids : pl.ids = (s.pl.setIdWord pd id word).ids)
    (hword : ∀ k, k < 32 → k ≠ i →
      word.getLsbD k = (s.pl.idWord pd id).getLsbD k)
    (hbit : word.getLsbD i = true ↔ ∃ r ∈ held, Uses s.pl pd id i r)
    (hheld : ∀ pd', s.pl.dst2idHt.Holds pd' → ∀ id' k, k < 32 →
      ¬(pd' = pd ∧ id' = id ∧ k = i) →
      ((∃ r ∈ held, Uses s.pl pd' id' k r)
        ↔ ∃ r ∈ s.held, Uses s.pl pd' id' k r))
    (hstored : ∀ r ∈ held, ∃ pd, s.pl.dst2idHt.Holds pd
      ∧ dstKey (dest r) = dstKey pd)
    (hapart : held.Pairwise fun a b => ¬SameUse a b) :
    Exact { s with pl := pl, held := held } := by
  have hlt := h.ref_lt pd hp
  have hlen := h.word_length hp
  have hw (pd' : Dst2Id) (id' : Nat) : pl.idWord pd' id'
      = if pd'.id = pd.id ∧ id' = id then word
        else s.pl.idWord pd' id' := by
    rw [← idWord_setIdWord hlt (by omega) word pd' id']
    unfold idWord
    rw [hids]
  have huses (pd' : Dst2Id) (id' k : Nat) (r : RadiusPacket) :
      Uses pl pd' id' k r ↔ Uses s.pl pd' id' k r := by
    unfold Uses
    rw [hsame.sockfd]
  have hlength : pl.ids.length = s.pl.ids.length := by
    rw [hids]
    simp [setIdWord]
  refine ⟨by simpa only [hht] using h.wf, by simpa only [hht] using h.known,
    by simpa only [hht, hlength] using h.ref_lt,
    by simpa only [hht] using h.ref_inj, ?_, ?_,
    by simpa only [hht] using hstored, hapart⟩
  · intro words hmem
    simp only [hids, setIdWord] at hmem
    rcases List.mem_or_eq_of_mem_set hmem with hmem | rfl
    · exact h.len words hmem
    · rw [List.length_set]
      exact hlen
  · simp only [hht, huses]
    intro pd' hp' id' k hid' hk
    rw [hw]
    by_cases hthis : pd'.id = pd.id ∧ id' = id
    · obtain ⟨href, rfl⟩ := hthis
      obtain rfl := h.ref_inj pd' pd hp' hp href
      rw [if_pos ⟨rfl, rfl⟩]
      by_cases hki : k = i
      · subst hki
        exact hbit
      · rw [hword k hk hki, h.bits pd' hp' id' k hid' hk]
        exact (hheld pd' hp' id' k hk fun hc => hki hc.2.2).symm
    · rw [if_neg hthis, h.bits pd' hp' id' k hid' hk]
      exact (hheld pd' hp' id' k hk fun hc =>
        hthis ⟨by rw [hc.1], hc.2.1⟩).symm

/-- An id that was free for the destination on the socket. -/
theorem allocated_exact (h : s.Exact) (hsound : s.Sound)
    {request : RadiusPacket} {pd : Dst2Id} {id i : Nat}
    (hp : s.pl.dst2idHt.Holds pd)
    (hk : dstKey pd = dstKey (dest request)) (hid : id < 256)
    (hi : i < 32) (hm : s.pl.mask.getLsbD i = true)
    (hclear : (s.pl.idWord pd id).getLsbD i = false) :
    Exact { s with
      pl := s.pl.allocated pd id i
      held := assigned (s.pl.socket i) id request :: s.held } := by
  have hlen : i < s.pl.sockets.length := by rw [hsound.slots.len]; exact hi
  have hfd := hsound.slots.used i hi hm
  have hnone (r : RadiusPacket) (hr : r ∈ s.held) :
      ¬Uses s.pl pd id i r := by
    intro huse
    have hset := (h.bits pd hp id i hid hi).mpr ⟨r, hr, huse⟩
    rw [hclear] at hset
    cases hset
  have hnew (pd' : Dst2Id) (id' k : Nat) (hk' : k < 32) :
      Uses s.pl pd' id' k (assigned (s.pl.socket i) id request)
        ↔ dstKey pd' = dstKey pd ∧ id' = id ∧ k = i := by
    unfold Uses assigned
    change dstKey (dest request) = _ ∧ (id : Int) = id' ∧ _ = _ ↔ _
    rw [← hk]
    constructor
    · rintro ⟨h1, h2, h3⟩
      refine ⟨h1.symm, by omega, ?_⟩
      exact hsound.slots.distinct k i hk' hi (by rw [h3]; exact hfd) h3
    · rintro ⟨h1, rfl, rfl⟩
      exact ⟨h1.symm, rfl, rfl⟩
  refine h.setBit (i := i)
    (allocated_sameSlots hlen pd id) hp hid rfl rfl ?_ ?_ ?_ ?_ ?_
  · intro k hk hki
    rw [BitVec.getLsbD_or, oneBit_getLsbD i hk]
    simp [hki]
  · rw [BitVec.getLsbD_or, oneBit_getLsbD i hi]
    simp only [decide_true, Bool.or_true, true_iff]
    exact ⟨_, List.mem_cons_self, (hnew pd id i hi).mpr ⟨rfl, rfl, rfl⟩⟩
  · intro pd' hp' id' k hk' hne
    constructor
    · rintro ⟨r, hr, huse⟩
      rcases List.mem_cons.mp hr with rfl | hr
      · obtain ⟨hkey, hid', hki⟩ := (hnew pd' id' k hk').mp huse
        exact absurd ⟨h.key_inj hp' hp hkey, hid', hki⟩ hne
      · exact ⟨r, hr, huse⟩
    · rintro ⟨r, hr, huse⟩
      exact ⟨r, List.mem_cons_of_mem _ hr, huse⟩
  · intro r hr
    rcases List.mem_cons.mp hr with rfl | hr
    · exact ⟨pd, hp, hk.symm⟩
    · exact h.stored r hr
  · rw [List.pairwise_cons]
    refine ⟨fun r hr hsame => hnone r hr ⟨?_, ?_, hsame.1⟩, h.apart⟩
    · rw [hk, dstKey_eq_iff]
      exact ⟨hsame.2.2.1.symm, hsame.2.1.symm⟩
    · exact hsame.2.2.2.symm

theorem idAlloc_exact (h : s.Exact) (hsound : s.Sound)
    {request : RadiusPacket} {start : Nat}
    (ha : s.Allowed (.idAlloc request start))
    (ho : s.Orderly (.idAlloc request start))
    (hs : s.apply (.idAlloc request start) = some t) : t.Exact := by
  have hstart : start < 256 := ha
  obtain ⟨f1, f2, -, f4, f5⟩ := dst2id_frame s.pl request.dstIpaddr
    request.dstPort
  rw [apply] at hs
  by_cases hspec : s.pl.Specified request
  · obtain ⟨hex, pd, hpd, hp, hk⟩ := dst2id_exact h hspec ho
    have hsd : Sound { s with pl := (s.pl.dst2id request.dstIpaddr
        request.dstPort).1 } := hsound.congr f1 f2 f4 f5
      (dst2id_sized hsound.sized request.dstIpaddr request.dstPort)
    rcases s.pl.idAlloc_cases request start with ⟨r, e, heq | heq⟩
      | ⟨pd', id, i, -, hpd', heq, hid, hi, -, hm, hclear⟩
    · rw [heq] at hs
      cases hs
      exact h
    · rw [heq] at hs
      cases hs
      exact hex
    · rw [heq] at hs
      cases hs
      rw [hpd] at hpd'
      cases hpd'
      have hsi : s.pl.socket i = (s.pl.dst2id request.dstIpaddr
          request.dstPort).1.socket i := by
        unfold PacketList.socket
        rw [f1]
      rw [hsi]
      refine allocated_exact hex hsd hp ?_ (hid hstart) hi hm hclear
      rw [hk]
      unfold dest
      rw [(withSource_dst request).1, (withSource_dst request).2]
  · obtain ⟨r, e, heq⟩ := idAlloc_unspecified hspec start
    rw [heq] at hs
    cases hs
    exact h

-- ======== release

theorem released_exact (h : s.Exact) (hsound : s.Sound)
    {request : RadiusPacket} (hr : request ∈ s.held) {pd : Dst2Id}
    {i : Nat} (hp : s.pl.dst2idHt.Holds pd)
    (hk : dstKey pd = dstKey (dest request))
    (hfind : s.pl.socketFind request.sockfd = some i) :
    Exact { s with
      pl := s.pl.released pd request.id.toNat i
      held := s.held.erase request } := by
  obtain ⟨hi, hfd⟩ := socketFind_some hfind
  obtain ⟨-, -, hid0, hid⟩ := hsound.registered request hr
  have hne : (s.pl.socket i).sockfd ≠ -1 := by
    obtain ⟨_, _, _, _, hne, _⟩ := hsound.slot hr
    rw [hfd]
    exact hne
  have hlen : i < s.pl.sockets.length := by rw [hsound.slots.len]; exact hi
  have hoff := hsound.slots.offset i hi hne
  have hperm := List.perm_cons_erase hr
  have hpw : (request :: s.held.erase request).Pairwise
      fun a b => ¬SameUse a b :=
    hperm.pairwise h.apart fun hab hba => hab hba.symm
  rw [List.pairwise_cons] at hpw
  have huse (pd' : Dst2Id) (id k : Nat) (hk' : k < 32)
      (hu : Uses s.pl pd' id k request) :
      dstKey pd' = dstKey pd ∧ id = request.id.toNat ∧ k = i := by
    obtain ⟨h1, h2, h3⟩ := hu
    refine ⟨h1.symm.trans hk.symm, by omega, ?_⟩
    exact (hsound.slots.distinct i k hi hk' hne (hfd.trans h3.symm)).symm
  refine h.setBit (i := i)
    (released_sameSlots hlen pd request.id.toNat) hp (by omega) rfl rfl
    ?_ ?_ ?_ ?_ hpw.2
  · intro k hk hki
    rw [hoff, BitVec.getLsbD_and, BitVec.getLsbD_not, oneBit_getLsbD i hk]
    simp [hk, hki]
  · rw [hoff, BitVec.getLsbD_and, BitVec.getLsbD_not, oneBit_getLsbD i hi]
    simp only [hi, decide_true, Bool.not_true, Bool.and_false,
      Bool.false_eq_true, false_iff, not_exists, not_and]
    -- nobody else holds this id on this socket
    rintro r hr' ⟨h1, h2, h3⟩
    refine hpw.1 r hr' ⟨?_, ?_, ?_, by omega⟩
    · exact hfd.symm.trans h3
    · rw [← h1, dstKey_eq_iff] at hk
      exact hk.2.symm
    · rw [← h1, dstKey_eq_iff] at hk
      exact hk.1.symm
  · intro pd' hp' id k hk' hother
    constructor
    · rintro ⟨r, hr', hu⟩
      exact ⟨r, List.mem_of_mem_erase hr', hu⟩
    · rintro ⟨r, hr', hu⟩
      refine ⟨r, (List.mem_erase_of_ne ?_).mpr hr', hu⟩
      rintro rfl
      obtain ⟨hkey, hid', hki⟩ := huse pd' id k hk' hu
      exact hother ⟨h.key_inj hp' hp hkey, hid', hki⟩
  · intro r hr'
    exact h.stored r (List.mem_of_mem_erase hr')

theorem idFree_exact (h : s.Exact) (hsound : s.Sound)
    {request : RadiusPacket} (ha : s.Allowed (.idFree request))
    (hs : s.apply (.idFree request) = some t) : t.Exact := by
  have hr : request ∈ s.held := ha
  obtain ⟨-, hknown, -⟩ := hsound.registered request hr
  obtain ⟨hkeeps, hfind⟩ := h.finddata
    (d := dest request) hknown
  have hex : Exact { s with pl := s.pl.lookedUp request } :=
    h.congr hkeeps.wf hkeeps.holds rfl fun _ _ _ _ => Iff.rfl
  have hsd : Sound { s with pl := s.pl.lookedUp request } :=
    hsound.congr rfl rfl rfl rfl
      (HashTable.finddata_sized _ hsound.sized (dest request))
  rw [apply] at hs
  rcases s.pl.idFree_cases request with heq | ⟨heq, -⟩
    | ⟨i, pd, hsock, hpd, heq⟩
  · rw [heq] at hs
    cases hs
    exact h
  · rw [heq] at hs
    cases hs
    exact hex
  · rw [heq] at hs
    cases hs
    obtain ⟨hp, hk⟩ := (hfind pd).mp hpd
    exact released_exact hex hsd hr ((hkeeps.holds pd).mpr hp) hk hsock

-- ======== runs

def OrderlyStep (s t : Session) : Prop :=
  ∃ op, s.Allowed op ∧ s.Orderly op ∧ s.apply op = some t

theorem step_exact (h : s.Exact) (hsound : s.Sound)
    (hs : s.OrderlyStep t) : t.Exact := by
  obtain ⟨op, ha, ho, hop⟩ := hs
  cases op with
  | socketAdd sockfd src =>
      cases hop
      exact socketAdd_exact h hsound ha
  | socketRemove sockfd =>
      cases hop
      exact socketRemove_exact h hsound ha
  | idAlloc request start => exact idAlloc_exact h hsound ha ho hop
  | insert request =>
      obtain ⟨p, hp, rfl⟩ := Option.map_eq_some_iff.mp hop
      obtain ⟨q, -, hq⟩ := Option.bind_eq_some_iff.mp hp
      cases hq
      exact h.congr h.wf (fun _ => Iff.rfl) rfl fun _ _ _ _ => Iff.rfl
  | yank request =>
      rw [apply, PacketList.yank] at hop
      cases hf : rbtreeFinddata s.pl.tree request with
      | none =>
          rw [hf] at hop
          cases hop
          exact h
      | some packet =>
          rw [hf] at hop
          cases hop
          exact h.congr h.wf (fun _ => Iff.rfl) rfl fun _ _ _ _ => Iff.rfl
  | idFree request => exact idFree_exact h hsound ha hop

theorem reaches_exact (h : Reaches OrderlyStep create s) :
    s.Sound ∧ s.Exact :=
  h.invariant (fun s => s.Sound ∧ s.Exact)
    ⟨create_sound, create_exact⟩ fun a b hs hn => by
      obtain ⟨op, ha, ho, hop⟩ := hn
      exact ⟨step_sound hs.1 ⟨op, ha, hop⟩,
        step_exact hs.2 hs.1 ⟨op, ha, ho, hop⟩⟩

/-- The id table and the counters record the requests outstanding. -/
structure Consistent (s : Session) : Prop where
  apart : s.held.Pairwise fun a b => ¬SameUse a b
  bits : ∀ ip port id k, ip.Known → id < 256 → k < 32 →
    ((s.pl.wordOf ip port id).getLsbD k = true
      ↔ ∃ r ∈ s.held, SameAddr r.dstIpaddr ip ∧ r.dstPort = port
        ∧ r.id = id ∧ (s.pl.socket k).sockfd = r.sockfd)
  count : ∀ k, k < 32 → (s.pl.socket k).sockfd ≠ -1 →
    (s.pl.socket k).numOutgoing
      = outstanding s.held (s.pl.socket k).sockfd
  total : s.pl.numOutgoing = s.held.length

/-- In every run whose allocations are `Orderly`, the id table records the
requests outstanding in every state. -/
theorem orderly_consistent (h : Reaches OrderlyStep create s) :
    s.Consistent := by
  obtain ⟨hsound, hexact⟩ := reaches_exact h
  refine ⟨hexact.apart, ?_, hsound.count, hsound.total⟩
  intro ip port id k hip hid hk
  have huses (r : RadiusPacket) (pd : Dst2Id)
      (hpd : dstKey pd = dstKey (dstOf ip port)) :
      Uses s.pl pd id k r ↔ SameAddr r.dstIpaddr ip ∧ r.dstPort = port
        ∧ r.id = id ∧ (s.pl.socket k).sockfd = r.sockfd := by
    unfold Uses
    rw [hpd, dstKey_eq_iff]
    change (r.dstPort = port ∧ SameAddr r.dstIpaddr ip) ∧ _ ↔ _
    tauto
  obtain ⟨-, hfind⟩ := hexact.finddata (d := dstOf ip port) hip
  unfold wordOf
  cases hf : (s.pl.dst2idHt.finddata dst2idOps (dstOf ip port)).2 with
  | some pd =>
      obtain ⟨hp, hkey⟩ := (hfind pd).mp hf
      simp only
      rw [hexact.bits pd hp id k hid hk]
      exact exists_congr fun r =>
        and_congr_right fun _ => huses r pd hkey
  | none =>
      simp only [BitVec.ofNat_eq_ofNat, BitVec.getLsbD_zero,
        Bool.false_eq_true, false_iff, not_exists, not_and]
      intro r hr haddr hport
      obtain ⟨pd, hp, hkey⟩ := hexact.stored r hr
      have hsome := (hfind pd).mpr ⟨hp, by
        rw [← hkey, dstKey_eq_iff]
        exact ⟨hport, haddr⟩⟩
      rw [hf] at hsome
      cases hsome

/-- The destinations in the buckets of a table. -/
def stored (ht : HashTable Dst2Id) : List Dst2Id :=
  ht.buckets.flatMap fun chain => (chain.getD []).map HashEntry.data

theorem mem_stored {ht : HashTable Dst2Id} {pd : Dst2Id} :
    pd ∈ stored ht ↔ ht.Holds pd := by
  unfold stored HashTable.Holds HashTable.bucket
  simp only [List.mem_flatMap, List.mem_map, List.getD_eq_getElem?_getD]
  constructor
  · rintro ⟨chain, hchain, e, he, rfl⟩
    obtain ⟨b, hb, rfl⟩ := List.getElem_of_mem hchain
    cases hc : ht.buckets[b] with
    | none =>
        rw [hc] at he
        cases he
    | some c =>
        rw [hc] at he
        exact ⟨b, c, e, by rw [List.getElem?_eq_getElem hb, hc]; rfl, he,
          rfl⟩
  · rintro ⟨b, c, e, hb, he, rfl⟩
    cases hg : ht.buckets[b]? with
    | none =>
        rw [hg] at hb
        cases hb
    | some chain =>
        rw [hg] at hb
        cases hb
        exact ⟨some c, List.mem_of_getElem? hg, e, he, rfl⟩

/-- One of two destinations with the same hash, and the smaller one. -/
def greaterDst : RadiusPacket := requestTo [174, 159, 123, 156]

def smallerDst : RadiusPacket := requestTo [84, 39, 108, 187]

def greaterOnce : Session := oneSocket.after (.idAlloc greaterDst 7)

def greaterTwice : Session := greaterOnce.after (.idAlloc greaterDst 7)

/-- The greater destination is used twice, then the smaller one. -/
theorem threeAllocations_consistent :
    packetDst2idHash (dest greaterDst) = packetDst2idHash (dest smallerDst)
      ∧ (greaterTwice.after (.idAlloc smallerDst 7)).held.map
          RadiusPacket.id = [7, 8, 7]
      ∧ (greaterTwice.after (.idAlloc smallerDst 7)).Consistent := by
  refine ⟨by decide, by decide, orderly_consistent ?_⟩
  have hadd : OrderlyStep create oneSocket :=
    ⟨.socketAdd 3 anySocket, ⟨by decide, by decide⟩, trivial,
      apply_eq_after (by decide)⟩
  have hone : OrderlyStep oneSocket greaterOnce :=
    ⟨.idAlloc greaterDst 7, (by decide : 7 < 256), fun _ => .inr fun pd hp =>
      absurd hp (HashTable.create_holds pd), apply_eq_after (by decide)⟩
  have htwo : OrderlyStep greaterOnce greaterTwice := by
    refine ⟨.idAlloc greaterDst 7, (by decide : 7 < 256), fun _ => .inl ?_,
      apply_eq_after (by decide)⟩
    have hsame : ∃ pd ∈ stored greaterOnce.pl.dst2idHt,
        packetDst2idCmp (dest greaterDst) pd = 0 := by decide
    obtain ⟨pd, hp, hcmp⟩ := hsame
    exact ⟨pd, mem_stored.mp hp, hcmp⟩
  refine (((Reaches.refl.step hadd).step hone).step htwo).step
    ⟨.idAlloc smallerDst 7, (by decide : 7 < 256), fun _ => .inr ?_,
      apply_eq_after (by decide)⟩
  have hless : ∀ pd ∈ stored greaterTwice.pl.dst2idHt,
      packetDst2idCmp (dest smallerDst) pd < 0 := by decide
  exact fun pd hp _ => hless pd (mem_stored.mpr hp)

/-- Two destinations of one hash, the greater one second. -/
def collided : Session :=
  ((oneSocket.after (.idAlloc (requestTo [84, 39, 108, 187]) 0)).after
    (.idAlloc (requestTo [174, 159, 123, 156]) 7)).after
      (.idAlloc (requestTo [174, 159, 123, 156]) 7)

theorem collided_shares_id :
    Reaches Step create collided ∧ ¬collided.Consistent := by
  refine ⟨?_, fun h => ?_⟩
  · exact idAlloc_reached (idAlloc_reached (idAlloc_reached
      oneSocket_reached _ (by decide) (by decide))
      _ (by decide) (by decide)) _ (by decide) (by decide)
  · have hshared : ¬collided.held.Pairwise fun a b => ¬SameUse a b := by
      decide
    exact hshared h.apart

end Session

end WinRadius
