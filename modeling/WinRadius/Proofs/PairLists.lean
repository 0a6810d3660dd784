/-
The two lists of `pairmove` in memory: what each walk and each splice
does to them.

`Leads s ref as q` is a stretch of links: from the pointer kept at `ref`
through the cells at the addresses `as` to `q`. Assigning the last pointer
of a stretch (`endRef`) redirects its end, and assigning any other leaves
it alone; deleting, cutting a stretch out of `from` and putting a pair
behind `to` are made of these two.

`Lists` is the invariant: `to` and `from` are two lists of live pairs with
no pair in common. Each operation is described by what becomes of them.
-/
import WinRadius.Lib.Linked
import WinRadius.Model.Pairmove

namespace WinRadius

open Lib

-- ======== stretches

/-- `*ref`. -/
def PairStore.load (s : PairStore) : PairRef → Option Nat
  | .toHead => s.toHead
  | .fromHead => s.fromHead
  | .nextOf a => s.next a

/-- From the pointer at `ref` through the cells `as` to `q`. -/
def Leads (s : PairStore) (ref : PairRef) (as : List Nat)
    (q : Option Nat) : Prop :=
  Segment id s.next (s.load ref) as q

/-- Where the last pointer of a stretch is kept. -/
def endRef (ref : PairRef) (as : List Nat) : PairRef :=
  (as.getLast?.map PairRef.nextOf).getD ref

@[simp] theorem endRef_nil (ref : PairRef) : endRef ref [] = ref := rfl

@[simp] theorem endRef_append (ref : PairRef) (as : List Nat) (a : Nat) :
    endRef ref (as ++ [a]) = .nextOf a := by
  simp [endRef]

theorem endRef_cases (ref : PairRef) (as : List Nat) :
    endRef ref as = ref ∨ ∃ a ∈ as, endRef ref as = .nextOf a := by
  rcases List.eq_nil_or_concat as with rfl | ⟨bs, a, rfl⟩
  · exact Or.inl rfl
  · exact Or.inr ⟨a, by simp, by simp⟩

section leads

variable {s s' : PairStore} {ref r : PairRef} {as bs : List Nat}
  {p q : Option Nat}

/-- An assignment leaves the pairs as they are. -/
theorem assign_vps (h : s.assign r p = some s') : s'.vps = s.vps := by
  unfold PairStore.assign at h
  cases r with
  | toHead =>
      cases h
      rfl
  | fromHead =>
      cases h
      rfl
  | nextOf a =>
      dsimp only at h
      split at h
      · cases h
      · cases h
        rfl

theorem load_assign_self (h : s.assign r p = some s') :
    s'.load r = p := by
  unfold PairStore.assign at h
  cases r with
  | toHead =>
      cases h
      rfl
  | fromHead =>
      cases h
      rfl
  | nextOf a =>
      dsimp only at h
      split at h
      · cases h
      · cases h
        exact Function.update_self _ _ _

theorem load_assign_ne (h : s.assign r p = some s') (hne : ref ≠ r) :
    s'.load ref = s.load ref := by
  unfold PairStore.assign at h
  cases r with
  | toHead =>
      cases h
      cases ref with
      | toHead => exact absurd rfl hne
      | fromHead => rfl
      | nextOf a => rfl
  | fromHead =>
      cases h
      cases ref with
      | toHead => rfl
      | fromHead => exact absurd rfl hne
      | nextOf a => rfl
  | nextOf b =>
      dsimp only at h
      split at h
      · cases h
      · cases h
        cases ref with
        | toHead => rfl
        | fromHead => rfl
        | nextOf a =>
            have hab : a ≠ b := fun hab => hne (congrArg _ hab)
            exact Function.update_of_ne hab _ _

/-- A live pair's link, or a head, can be assigned. -/
theorem assign_isSome (h : ∀ a, r = .nextOf a → s.vps a ≠ none)
    (p : Option Nat) : ∃ s', s.assign r p = some s' := by
  cases r with
  | toHead => exact ⟨_, rfl⟩
  | fromHead => exact ⟨_, rfl⟩
  | nextOf a =>
      obtain ⟨vp, hvp⟩ := Option.ne_none_iff_exists'.mp (h a rfl)
      exact ⟨_, by rw [PairStore.assign, hvp]⟩

/-- Two stretches in a row. -/
theorem leads_append :
    Leads s ref (as ++ bs) q
      ↔ Leads s ref as (s.load (endRef ref as))
        ∧ Leads s (endRef ref as) bs q := by
  have hend : ∀ m, Segment id s.next (s.load ref) as m →
      m = s.load (endRef ref as) := by
    intro m hm
    rcases List.eq_nil_or_concat as with rfl | ⟨as, a, rfl⟩
    · exact hm.symm
    · rw [List.concat_eq_append, segment_append] at hm
      obtain ⟨k, -, hk⟩ := hm
      rw [List.concat_eq_append, endRef_append]
      exact hk.2.symm
  unfold Leads
  rw [segment_append]
  constructor
  · intro ⟨m, has, hbs⟩
    cases hend m has
    exact ⟨has, hbs⟩
  · intro ⟨has, hbs⟩
    exact ⟨_, has, hbs⟩

/-- An assignment elsewhere. -/
theorem Leads.assign (h : Leads s ref as q) (ha : s.assign r p = some s')
    (href : ref ≠ r) (has : ∀ a ∈ as, r ≠ .nextOf a) :
    Leads s' ref as q := by
  unfold Leads at h ⊢
  rw [load_assign_ne ha href]
  apply h.congr
  intro a hin
  exact load_assign_ne ha (has a hin).symm

/-- Assigning the last pointer of a stretch redirects its end. -/
theorem Leads.redirect (h : Leads s ref as q)
    (ha : s.assign (endRef ref as) p = some s') (hnd : as.Nodup)
    (href : ∀ a ∈ as, ref ≠ .nextOf a) : Leads s' ref as p := by
  rcases List.eq_nil_or_concat as with rfl | ⟨as, a, rfl⟩
  · exact load_assign_self ha
  · rw [List.concat_eq_append] at h hnd href ha ⊢
    rw [endRef_append] at ha
    rw [List.nodup_append] at hnd
    rw [leads_append] at h ⊢
    obtain ⟨hfront, hlast, -⟩ := h
    have hself : s'.next a = p := load_assign_self ha
    have hother : Leads s' ref as (s.load (endRef ref as)) := by
      apply hfront.assign ha (href a (by simp))
      intro b hb hba
      cases hba
      exact hnd.2.2 a hb a (by simp) rfl
    have hload : s'.load (endRef ref as) = s.load (endRef ref as) := by
      apply load_assign_ne ha
      rcases endRef_cases ref as with he | ⟨b, hb, he⟩
      · rw [he]
        exact href a (by simp)
      · rw [he]
        intro hba
        cases hba
        exact hnd.2.2 a hb a (by simp) rfl
    rw [hload]
    refine ⟨hother, ?_⟩
    unfold Leads
    rw [hload]
    exact ⟨hlast, hself⟩

/-- The pointer past a stretch assigned to the end of the stretch before
it takes it out. -/
theorem Leads.cut {cs : List Nat} (h : Leads s ref (as ++ bs ++ cs) q)
    (ha : s.assign (endRef ref as) (s.load (endRef ref (as ++ bs)))
      = some s')
    (hnd : (as ++ bs ++ cs).Nodup)
    (href : ∀ a ∈ as ++ bs ++ cs, ref ≠ .nextOf a) :
    Leads s' ref (as ++ cs) q := by
  rw [List.append_assoc] at hnd
  obtain ⟨hnda, -, hdisj⟩ := List.nodup_append.mp hnd
  obtain ⟨hasbs, hcs⟩ := leads_append.mp h
  obtain ⟨has, -⟩ := leads_append.mp hasbs
  have hself := load_assign_self ha
  refine leads_append.mpr ⟨?_, ?_⟩
  · rw [hself]
    exact has.redirect ha hnda fun a hin => href a (by simp [hin])
  · unfold Leads at hcs ⊢
    rw [hself]
    apply hcs.congr
    intro c hc
    have hne : PairRef.nextOf c ≠ endRef ref as := by
      rcases endRef_cases ref as with he | ⟨a, hin, he⟩
      · rw [he]
        exact (href c (by simp [hc])).symm
      · rw [he]
        intro hca
        cases hca
        exact hdisj c hin c (by simp [hc]) rfl
    exact load_assign_ne ha hne

/-- A stretch in the other list. -/
theorem Leads.assign_end {ref' : PairRef} (h : Leads s ref' bs q)
    (ha : s.assign (endRef ref as) p = some s') (hne : ref' ≠ ref)
    (href : ∀ a ∈ as, ref' ≠ .nextOf a) (href' : ∀ b ∈ bs, ref ≠ .nextOf b)
    (hdisj : ∀ a ∈ as, a ∉ bs) : Leads s' ref' bs q := by
  rcases endRef_cases ref as with he | ⟨a, hin, he⟩
  · rw [he] at ha
    exact h.assign ha hne href'
  · rw [he] at ha
    apply h.assign ha (href a hin)
    intro b hb hab
    cases hab
    exact hdisj a hin hb

end leads

-- ======== the lists

/-- A pair: its address and what it holds. -/
abbrev PairCell := Nat × ValuePair

/-- The addresses of pairs. -/
def addresses (cells : List PairCell) : List Nat := cells.map Prod.fst

@[simp] theorem addresses_nil : addresses [] = [] := rfl

@[simp] theorem addresses_cons (c : PairCell) (cs : List PairCell) :
    addresses (c :: cs) = c.1 :: addresses cs := rfl

@[simp] theorem addresses_append (cs ds : List PairCell) :
    addresses (cs ++ ds) = addresses cs ++ addresses ds := List.map_append

/-- `to` and `from` are lists of live pairs, with no pair in common. -/
structure Lists (s : PairStore) (T F : List PairCell) : Prop where
  toLeads : Leads s .toHead (addresses T) none
  fromLeads : Leads s .fromHead (addresses F) none
  live : ∀ c ∈ T ++ F, s.vps c.1 = some c.2
  nodup : (addresses (T ++ F)).Nodup

section lists

variable {s : PairStore} {T F P Q K O R : List PairCell} {c : PairCell}
  {n : Nat} {p : Option Nat}

/-- Pairs of both lists are live. -/
theorem Lists.liveTo (h : Lists s T F) : ∀ c ∈ T, s.vps c.1 = some c.2 :=
  fun c hc => h.live c (List.mem_append_left F hc)

theorem Lists.liveFrom (h : Lists s T F) :
    ∀ c ∈ F, s.vps c.1 = some c.2 :=
  fun c hc => h.live c (List.mem_append_right T hc)

/-- Where a walk has come to in `to`. -/
theorem Lists.leadsRest (h : Lists s (P ++ Q) F) :
    Segment id s.next (s.load (endRef .toHead (addresses P))) (addresses Q)
      none := by
  have hto := h.toLeads
  rw [addresses_append] at hto
  exact (leads_append.mp hto).2

-- ======== walks

/-- `pairfind` finds the first pair with the number. -/
theorem find_eq (attr : Nat) (h : Segment id s.next p (addresses Q) none)
    (hlive : ∀ c ∈ Q, s.vps c.1 = some c.2) (hn : Q.length ≤ n) :
    PairStore.find n s p attr
      = some ((Q.find? (·.2.attr == attr)).map Prod.fst) := by
  induction Q generalizing p n with
  | nil =>
      have hp : p = none := h
      rw [hp]
      cases n with
      | zero => rfl
      | succ n => rfl
  | cons c Q ih =>
      obtain ⟨rfl, hrest⟩ := h
      obtain ⟨n, rfl⟩ := Nat.exists_eq_add_one_of_ne_zero
        (show n ≠ 0 by rintro rfl; simp at hn)
      rw [PairStore.find, hlive c List.mem_cons_self]
      by_cases hattr : c.2.attr = attr
      · rw [List.find?_cons_of_pos (by simpa using hattr)]
        simp [hattr]
      · rw [List.find?_cons_of_neg (by simpa using hattr)]
        simp only [if_neg hattr]
        exact ih hrest (fun d hd => hlive d (List.mem_cons_of_mem c hd))
          (by simpa using hn)

/-- The loops for `tailto` come to the last pointer of a list. -/
theorem tail_eq (r : PairRef) (h : Segment id s.next p (addresses Q) none)
    (hlive : ∀ c ∈ Q, s.vps c.1 = some c.2) (hn : Q.length ≤ n) :
    PairStore.tail n s p r = some (endRef r (addresses Q)) := by
  induction Q generalizing p n r with
  | nil =>
      have hp : p = none := h
      rw [hp]
      cases n with
      | zero => rfl
      | succ n => rfl
  | cons c Q ih =>
      obtain ⟨rfl, hrest⟩ := h
      obtain ⟨n, rfl⟩ := Nat.exists_eq_add_one_of_ne_zero
        (show n ≠ 0 by rintro rfl; simp at hn)
      have hother := ih (.nextOf c.1) hrest
        (fun d hd => hlive d (List.mem_cons_of_mem c hd))
        (by simpa using hn)
      rw [PairStore.tail, hlive c List.mem_cons_self]
      simp only [addresses_cons, id] at hother ⊢
      rw [hother]
      simp [endRef, List.getLast?_cons]

/-- The first loop looks for a password on its way to the end. -/
theorem scanTo_eq (b : Bool) (r : PairRef)
    (h : Segment id s.next p (addresses Q) none)
    (hlive : ∀ c ∈ Q, s.vps c.1 = some c.2) (hn : Q.length ≤ n) :
    scanTo n s p (b, r) = some (b || Q.any (isPassword ·.2.attr),
      endRef r (addresses Q)) := by
  induction Q generalizing p n b r with
  | nil =>
      have hp : p = none := h
      rw [hp]
      cases n with
      | zero => simp [scanTo]
      | succ n => simp [scanTo]
  | cons c Q ih =>
      obtain ⟨rfl, hrest⟩ := h
      obtain ⟨n, rfl⟩ := Nat.exists_eq_add_one_of_ne_zero
        (show n ≠ 0 by rintro rfl; simp at hn)
      have hother := ih (b || isPassword c.2.attr) (.nextOf c.1) hrest
        (fun d hd => hlive d (List.mem_cons_of_mem c hd))
        (by simpa using hn)
      rw [scanTo, hlive c List.mem_cons_self]
      simp only [addresses_cons, id] at hother ⊢
      rw [hother]
      simp [endRef, List.getLast?_cons, Bool.or_assoc]

-- ======== splices

theorem Lists.nodupTo (h : Lists s T F) : (addresses T).Nodup := by
  have hnd := h.nodup
  rw [addresses_append] at hnd
  exact (List.nodup_append.mp hnd).1

theorem Lists.nodupFrom (h : Lists s T F) : (addresses F).Nodup := by
  have hnd := h.nodup
  rw [addresses_append] at hnd
  exact (List.nodup_append.mp hnd).2.1

/-- The lists have no pair in common. -/
theorem Lists.disjoint (h : Lists s T F) :
    ∀ a ∈ addresses T, a ∉ addresses F := by
  have hnd := h.nodup
  rw [addresses_append] at hnd
  intro a ha hb
  exact (List.nodup_append.mp hnd).2.2 a ha a hb rfl

/-- The last pointer of a front of `to` can be assigned. -/
theorem Lists.assignTo (h : Lists s (P ++ Q) F) (p : Option Nat) :
    ∃ s', s.assign (endRef .toHead (addresses P)) p = some s' := by
  apply assign_isSome
  intro a ha
  rcases endRef_cases .toHead (addresses P) with he | ⟨b, hb, he⟩
  · rw [he] at ha
    cases ha
  · rw [he] at ha
    cases ha
    obtain ⟨c, hc, rfl⟩ := List.mem_map.mp hb
    rw [h.liveTo c (List.mem_append_left Q hc)]
    exact Option.some_ne_none _

/-- The last pointer of a front of `from` can be assigned. -/
theorem Lists.assignFrom (h : Lists s T (P ++ Q)) (p : Option Nat) :
    ∃ s', s.assign (endRef .fromHead (addresses P)) p = some s' := by
  apply assign_isSome
  intro a ha
  rcases endRef_cases .fromHead (addresses P) with he | ⟨b, hb, he⟩
  · rw [he] at ha
    cases ha
  · rw [he] at ha
    cases ha
    obtain ⟨c, hc, rfl⟩ := List.mem_map.mp hb
    rw [h.liveFrom c (List.mem_append_left Q hc)]
    exact Option.some_ne_none _

/-- A pair is taken out of `to` and freed. -/
theorem Lists.drop (h : Lists s (P ++ c :: Q) F) :
    ∃ s', s.assign (endRef .toHead (addresses P)) (s.next c.1) = some s'
      ∧ Lists (s'.basicfree c.1) (P ++ Q) F
      ∧ s'.load (endRef .toHead (addresses P)) = s.next c.1 := by
  obtain ⟨s', hs'⟩ := h.assignTo (s.next c.1)
  have hto := h.toLeads
  have hnd := h.nodupTo
  have hdisj := h.disjoint
  have hvps := assign_vps hs'
  simp only [addresses_append, addresses_cons] at hto hnd hdisj
  have hmid : s.load (endRef .toHead (addresses P ++ [c.1])) = s.next c.1 := by
    rw [endRef_append]
    rfl
  refine ⟨s', hs', ⟨?_, ?_, ?_, ?_⟩, load_assign_self hs'⟩
  · have hto' : Leads s .toHead (addresses P ++ [c.1] ++ addresses Q) none := by
      simpa using hto
    rw [addresses_append]
    show Leads s' .toHead (addresses P ++ addresses Q) none
    apply hto'.cut
    · rw [hmid]
      exact hs'
    · simpa using hnd
    · simp
  · apply h.fromLeads.assign_end hs' (by simp) (by simp) (by simp)
    intro a ha
    exact hdisj a (by simp [ha])
  · intro d hd
    have hnd' := h.nodup
    simp only [addresses_append, addresses_cons, List.append_assoc,
      List.cons_append] at hnd'
    have hout : c.1 ∉ addresses (P ++ Q ++ F) := by
      have hperm := List.perm_middle.nodup_iff.mp hnd'
      simpa using (List.nodup_cons.mp hperm).1
    have hne : d.1 ≠ c.1 := by
      intro he
      apply hout
      rw [← he]
      exact List.mem_map_of_mem hd
    have hin : d ∈ P ++ c :: Q ++ F := by
      simp only [List.mem_append, List.mem_cons] at hd ⊢
      tauto
    rw [PairStore.basicfree, hvps]
    exact (Function.update_of_ne hne _ _).trans (h.live d hin)
  · have hsub : (P ++ Q ++ F).Sublist (P ++ c :: Q ++ F) := by
      simp
    exact h.nodup.sublist (hsub.map Prod.fst)

/-- `pairdelete`, or its loop behind a front of `to`, takes the pairs of
a number out of the rest. -/
theorem delete_eq (attr : Nat) (h : Lists s (P ++ Q) F)
    (hn : Q.length ≤ n) :
    ∃ s', s.delete n attr (s.load (endRef .toHead (addresses P)))
        (endRef .toHead (addresses P)) = some s'
      ∧ Lists s' (P ++ Q.filter (·.2.attr ≠ attr)) F := by
  induction Q generalizing s P n with
  | nil =>
      have hp : s.load (endRef .toHead (addresses P)) = none := h.leadsRest
      rw [hp]
      refine ⟨s, ?_, h⟩
      cases n with
      | zero => rfl
      | succ n => rfl
  | cons c Q ih =>
      obtain ⟨hp, -⟩ := h.leadsRest
      obtain ⟨n, rfl⟩ := Nat.exists_eq_add_one_of_ne_zero
        (show n ≠ 0 by rintro rfl; simp at hn)
      have hlen : Q.length ≤ n := by simpa using hn
      rw [hp, PairStore.delete, h.liveTo c (by simp)]
      by_cases hattr : c.2.attr = attr
      · obtain ⟨s₁, hassign, hlists, hload⟩ := h.drop
        obtain ⟨s₂, hdelete, hlists₂⟩ := ih hlists hlen
        rw [List.filter_cons_of_neg (by simpa using hattr)]
        refine ⟨s₂, ?_, hlists₂⟩
        have hload₂ : (s₁.basicfree c.1).load (endRef .toHead (addresses P))
            = s.next c.1 := by
          rw [← hload]
          cases endRef .toHead (addresses P) with
          | toHead => rfl
          | fromHead => rfl
          | nextOf a => rfl
        rw [hload₂] at hdelete
        simp only [if_pos hattr, hassign]
        exact hdelete
      · have hlists : Lists s ((P ++ [c]) ++ Q) F := by simpa using h
        obtain ⟨s₂, hdelete, hlists₂⟩ := ih hlists hlen
        rw [List.filter_cons_of_pos (by simpa using hattr)]
        refine ⟨s₂, ?_, by simpa using hlists₂⟩
        rw [addresses_append, addresses_cons, addresses_nil, endRef_append] at hdelete
        simp only [if_neg hattr]
        exact hdelete

/-- `pairdelete(to, attr)`. -/
theorem deleteAll_eq (attr : Nat) (h : Lists s T F)
    (hn : T.length ≤ n) :
    ∃ s', s.delete n attr s.toHead .toHead = some s'
      ∧ Lists s' (T.filter (·.2.attr ≠ attr)) F :=
  delete_eq (P := []) attr h hn

/-- A pair of `to` is overwritten where it is. -/
theorem Lists.overwrite (h : Lists s (P ++ c :: Q) F) (vp : ValuePair) :
    Lists (s.overwrite c.1 vp) (P ++ (c.1, vp) :: Q) F := by
  have haddresses : addresses (P ++ (c.1, vp) :: Q) = addresses (P ++ c :: Q) := by
    simp
  have hnd := h.nodup
  refine ⟨?_, h.fromLeads, ?_, ?_⟩
  · rw [haddresses]
    exact h.toLeads
  · intro d hd
    simp only [addresses_append, addresses_cons, List.append_assoc,
      List.cons_append] at hnd
    have hout : c.1 ∉ addresses (P ++ Q ++ F) := by
      have hperm := List.perm_middle.nodup_iff.mp hnd
      simpa using (List.nodup_cons.mp hperm).1
    have hcases : d = (c.1, vp) ∨ d ∈ P ++ Q ++ F := by
      simp only [List.mem_append, List.mem_cons] at hd ⊢
      tauto
    rcases hcases with rfl | hd
    · exact Function.update_self _ _ _
    · have hne : d.1 ≠ c.1 := by
        intro he
        apply hout
        rw [← he]
        exact List.mem_map_of_mem hd
      have hin : d ∈ P ++ c :: Q ++ F := by
        simp only [List.mem_append, List.mem_cons] at hd ⊢
        tauto
      exact (Function.update_of_ne hne _ _).trans (h.live d hin)
  · rw [addresses_append, haddresses, ← addresses_append]
    exact hnd

/-- The pairs behind a front of `from` are taken out of it, up to a
pointer in the list. -/
theorem Lists.cutFrom (h : Lists s T (K ++ O ++ R)) :
    ∃ s', s.assign (endRef .fromHead (addresses K))
        (s.load (endRef .fromHead (addresses (K ++ O)))) = some s'
      ∧ Lists s' T (K ++ R) ∧ s'.vps = s.vps := by
  have hassoc : Lists s T (K ++ (O ++ R)) := by simpa using h
  obtain ⟨s', hs'⟩ := hassoc.assignFrom
    (s.load (endRef .fromHead (addresses (K ++ O))))
  have hvps := assign_vps hs'
  have hdisj := h.disjoint
  have hsub : (K ++ R).Sublist (K ++ O ++ R) := by
    rw [List.append_assoc]
    exact (List.Sublist.refl K).append (List.sublist_append_right O R)
  refine ⟨s', hs', ⟨?_, ?_, ?_, ?_⟩, hvps⟩
  · apply h.toLeads.assign_end hs' (by simp) (by simp) (by simp)
    intro a ha hb
    exact hdisj a hb (by simp [ha])
  · have hfrom := h.fromLeads
    have hnd := h.nodupFrom
    simp only [addresses_append] at hfrom hnd hs' ⊢
    exact hfrom.cut hs' hnd (by simp)
  · intro c hc
    rw [hvps]
    apply h.live c
    rcases List.mem_append.mp hc with hc | hc
    · exact List.mem_append_left _ hc
    · exact List.mem_append_right _ (hsub.subset hc)
  · exact h.nodup.sublist
      (((List.Sublist.refl T).append hsub).map Prod.fst)

/-- A live pair of neither list is put behind `to`. -/
theorem Lists.append (h : Lists s T F) (hlive : s.vps c.1 = some c.2)
    (hnot : c.1 ∉ addresses (T ++ F)) :
    ∃ s₁ s₂, s.assign (endRef .toHead (addresses T)) (some c.1) = some s₁
      ∧ s₁.assign (.nextOf c.1) none = some s₂
      ∧ Lists s₂ (T ++ [c]) F := by
  have hnil : Lists s (T ++ []) F := by simpa using h
  obtain ⟨s₁, hs₁⟩ := hnil.assignTo (some c.1)
  have hvps₁ := assign_vps hs₁
  obtain ⟨s₂, hs₂⟩ : ∃ s₂, s₁.assign (.nextOf c.1) none = some s₂ := by
    apply assign_isSome
    intro a ha
    cases ha
    rw [hvps₁, hlive]
    exact Option.some_ne_none _
  have hvps₂ := assign_vps hs₂
  rw [addresses_append, List.mem_append, not_or] at hnot
  have hdisj := h.disjoint
  refine ⟨s₁, s₂, hs₁, hs₂, ?_, ?_, ?_, ?_⟩
  · have hread₁ : Leads s₁ .toHead (addresses T) (some c.1) :=
      h.toLeads.redirect hs₁ h.nodupTo (by simp)
    have hread₂ : Leads s₂ .toHead (addresses T) (some c.1) := by
      apply hread₁.assign hs₂ (by simp)
      intro a ha hca
      cases hca
      exact hnot.1 ha
    rw [addresses_append]
    unfold Leads at hread₂ ⊢
    rw [segment_append]
    exact ⟨_, hread₂, rfl, load_assign_self hs₂⟩
  · have hread₁ : Leads s₁ .fromHead (addresses F) none := by
      apply h.fromLeads.assign_end hs₁ (by simp) (by simp) (by simp)
      exact hdisj
    apply hread₁.assign hs₂ (by simp)
    intro a ha hca
    cases hca
    exact hnot.2 ha
  · intro d hd
    rw [hvps₂, hvps₁]
    simp only [List.mem_append, List.mem_singleton] at hd
    rcases hd with (hd | rfl) | hd
    · exact h.liveTo d hd
    · exact hlive
    · exact h.liveFrom d hd
  · have hnd := h.nodup
    simp only [addresses_append, addresses_cons, List.append_assoc,
      List.singleton_append] at hnd ⊢
    rw [List.perm_middle.nodup_iff, List.nodup_cons, List.mem_append,
      not_or]
    exact ⟨hnot, hnd⟩

end lists

end WinRadius
