/-
`rad_sortvp` sorts the linked pairs where they are.

Exchanging two neighbours writes three links and keeps a list a list
(`Lists.exchange`). With that, the walk is a pass of `ExchangeSort` over
the pairs, and the passes are the sort; the list that the decoder's model
has is that of the pairs' values.
-/
import WinRadius.Lib.ExchangeSort
import WinRadius.Model.Sortvp
import WinRadius.Proofs.PairLists

namespace WinRadius

open Lib

/-- What pairs are sorted by. -/
def cellAttr (c : PairCell) : Int := signedAttr c.2

-- ======== exchanges

section exchange

variable {s : PairStore} {P Q F cells : List PairCell} {a b : PairCell}

theorem deref_eq_load (s : PairStore) (r : PairRef) :
    s.deref r = s.load r := by
  cases r with
  | toHead => rfl
  | fromHead => rfl
  | nextOf a => rfl

/-- Where a walk has come to, and the two pairs that it compares. -/
theorem Lists.reads (h : Lists s (P ++ a :: b :: Q) F) :
    s.load (endRef .toHead (addresses P)) = some a.1
      ∧ s.next a.1 = some b.1
      ∧ Segment id s.next (s.next b.1) (addresses Q) none := by
  obtain ⟨ha, hb, hrest⟩ := h.leadsRest
  exact ⟨ha, hb, hrest⟩

/-- Two neighbours are exchanged, and nothing else changes. -/
theorem Lists.exchange (h : Lists s (P ++ a :: b :: Q) F) :
    ∃ s', s.exchange (endRef .toHead (addresses P)) a.1 = some s'
      ∧ Lists s' (P ++ b :: a :: Q) F ∧ s'.vps = s.vps := by
  obtain ⟨ha, hb, hQ⟩ := h.reads
  obtain ⟨s₁, hs₁⟩ := h.assignTo (some b.1)
  have hvps₁ := assign_vps hs₁
  have hlive : ∀ c ∈ P ++ a :: b :: Q ++ F, s.vps c.1 ≠ none := by
    intro c hc
    rw [h.live c hc]
    exact Option.some_ne_none _
  obtain ⟨s₂, hs₂⟩ : ∃ s₂, s₁.assign (.nextOf a.1) (s₁.next b.1) = some s₂ := by
    apply assign_isSome
    intro x hx
    cases hx
    rw [hvps₁]
    exact hlive a (by simp)
  have hvps₂ := assign_vps hs₂
  obtain ⟨s₃, hs₃⟩ : ∃ s₃, s₂.assign (.nextOf b.1) (some a.1) = some s₃ := by
    apply assign_isSome
    intro x hx
    cases hx
    rw [hvps₂, hvps₁]
    exact hlive b (by simp)
  have hvps₃ := assign_vps hs₃
  -- no address is there twice
  have hnd := h.nodup
  simp only [addresses_append, addresses_cons] at hnd
  rw [List.append_assoc, List.nodup_append] at hnd
  obtain ⟨hP, hrest, hPrest⟩ := hnd
  rw [List.cons_append, List.cons_append, List.nodup_cons,
    List.nodup_cons] at hrest
  obtain ⟨haout, hbout, hQF⟩ := hrest
  have hab : a.1 ≠ b.1 := fun he => haout (he ▸ List.mem_cons_self)
  have haQF : ∀ x ∈ addresses Q ++ addresses F, x ≠ a.1 :=
    fun x hx he => haout (he ▸ List.mem_cons_of_mem _ hx)
  have hbQF : ∀ x ∈ addresses Q ++ addresses F, x ≠ b.1 :=
    fun x hx he => hbout (he ▸ hx)
  have haP : ∀ x ∈ addresses P, x ≠ a.1 := fun x hx => hPrest x hx _ (by simp)
  have hbP : ∀ x ∈ addresses P, x ≠ b.1 := fun x hx => hPrest x hx _ (by simp)
  have hfront : ∀ x, x ∉ addresses P →
      PairRef.nextOf x ≠ endRef .toHead (addresses P) := by
    intro x hx he
    rcases endRef_cases .toHead (addresses P) with hend | ⟨y, hy, hend⟩
    · rw [hend] at he
      cases he
    · rw [hend] at he
      cases he
      exact hx hy
  have hnext₁ : ∀ x, x ∉ addresses P → s₁.next x = s.next x :=
    fun x hx => load_assign_ne hs₁ (hfront x hx)
  have hnext₃ : ∀ x, x ≠ a.1 → x ≠ b.1 → s₃.next x = s₁.next x := by
    intro x hxa hxb
    have h₃ : s₃.next x = s₂.next x :=
      load_assign_ne hs₃ (show PairRef.nextOf x ≠ _ by simpa using hxb)
    exact h₃.trans (load_assign_ne hs₂
      (show PairRef.nextOf x ≠ _ by simpa using hxa))
  have hnexta : s₃.next a.1 = s.next b.1 := by
    have h₃ : s₃.next a.1 = s₂.next a.1 :=
      load_assign_ne hs₃
        (show PairRef.nextOf a.1 ≠ _ by simpa using hab)
    have h₂ : s₂.next a.1 = s₁.next b.1 := load_assign_self hs₂
    rw [h₃, h₂, hnext₁ b.1 fun hx => hbP _ hx rfl]
  have hnextb : s₃.next b.1 = some a.1 := load_assign_self hs₃
  refine ⟨s₃, ?_, ⟨?_, ?_, ?_, ?_⟩, hvps₃.trans (hvps₂.trans hvps₁)⟩
  · have hmoved : s₁.deref (endRef .toHead (addresses P)) = some b.1 := by
      rw [deref_eq_load]
      exact load_assign_self hs₁
    rw [PairStore.exchange, hb, hs₁]
    dsimp only [Option.bind_eq_bind, Option.bind_some]
    rw [hmoved]
    dsimp only [Option.bind_some]
    rw [hs₂]
    exact hs₃
  · have hto : Leads s₁ .toHead (addresses P) (some b.1) := by
      have hto := h.toLeads
      rw [addresses_append] at hto
      exact (leads_append.mp hto).1.redirect hs₁ hP (by simp)
    have hto₃ : Leads s₃ .toHead (addresses P) (some b.1) := by
      refine (hto.assign hs₂ (by simp) ?_).assign hs₃ (by simp) ?_
      · intro x hx he
        cases he
        exact haP _ hx rfl
      · intro x hx he
        cases he
        exact hbP _ hx rfl
    rw [addresses_append, addresses_cons, addresses_cons]
    unfold Leads at hto₃ ⊢
    refine segment_append.mpr ⟨_, hto₃, rfl, hnextb, ?_⟩
    show Segment id s₃.next (s₃.next a.1) _ none
    rw [hnexta]
    apply hQ.congr
    intro x hx
    have hxQF : x ∈ addresses Q ++ addresses F := List.mem_append_left _ hx
    have hxP : x ∉ addresses P := by
      intro hP'
      exact hPrest x hP' x (by simp [hx]) rfl
    exact (hnext₃ x (haQF x hxQF) (hbQF x hxQF)).trans (hnext₁ x hxP)
  · have hfrom : Leads s₁ .fromHead (addresses F) none := by
      apply h.fromLeads.assign_end hs₁ (by simp) (by simp) (by simp)
      intro x hx hxF
      exact hPrest x hx x (by simp [hxF]) rfl
    refine (hfrom.assign hs₂ (by simp) ?_).assign hs₃ (by simp) ?_
    · intro x hx he
      cases he
      exact haQF _ (List.mem_append_right _ hx) rfl
    · intro x hx he
      cases he
      exact hbQF _ (List.mem_append_right _ hx) rfl
  · intro c hc
    rw [hvps₃, hvps₂, hvps₁]
    apply h.live c
    simp only [List.mem_append, List.mem_cons] at hc ⊢
    tauto
  · have hperm : (P ++ b :: a :: Q ++ F).Perm (P ++ a :: b :: Q ++ F) :=
      ((List.Perm.swap a b Q).append_left P).append_right F
    exact (hperm.map Prod.fst).nodup_iff.mpr h.nodup

-- ======== walks

/-- The walk behind a front of the list is a pass over the rest. -/
theorem sortWalk_eq (h : Lists s (P ++ Q) F) (swapped : Bool) :
    ∃ s', (∀ n, Q.length ≤ n →
        s.sortWalk n (endRef .toHead (addresses P)) swapped
          = some (s', swapped || (exchangePass cellAttr Q).2))
      ∧ Lists s' (P ++ (exchangePass cellAttr Q).1) F ∧ s'.vps = s.vps := by
  fun_induction exchangePass cellAttr Q generalizing s P swapped with
  | case1 a b rest hlt ih =>
      obtain ⟨ha, hb, -⟩ := h.reads
      obtain ⟨s₁, hexchange, h₁, hvps₁⟩ := h.exchange
      have hmoved : Lists s₁ (P ++ [b, a] ++ rest) F := by simpa using h₁
      obtain ⟨s₂, hwalk, h₂, hvps₂⟩ := ih hmoved true
      refine ⟨s₂, ?_, by simpa using h₂, hvps₂.trans hvps₁⟩
      intro n hn
      obtain ⟨n, rfl⟩ := Nat.exists_eq_add_one_of_ne_zero
        (show n ≠ 0 by rintro rfl; simp at hn)
      have hrest := hwalk n (by simp only [List.length_cons] at hn; omega)
      rw [show P ++ [b, a] = (P ++ [b]) ++ [a] by simp, addresses_append,
        addresses_cons, addresses_nil, endRef_append] at hrest
      rw [PairStore.sortWalk, deref_eq_load, ha]
      simp only [h.liveTo a (by simp), h.liveTo b (by simp), hb, hexchange,
        Option.bind_eq_bind, Option.bind_some]
      rw [if_pos (show signedAttr b.2 < signedAttr a.2 from hlt), hrest]
      simp
  | case2 a b rest hlt ih =>
      obtain ⟨ha, hb, -⟩ := h.reads
      have hmoved : Lists s (P ++ [a] ++ b :: rest) F := by simpa using h
      obtain ⟨s₂, hwalk, h₂, hvps₂⟩ := ih hmoved swapped
      refine ⟨s₂, ?_, by simpa using h₂, hvps₂⟩
      intro n hn
      obtain ⟨n, rfl⟩ := Nat.exists_eq_add_one_of_ne_zero
        (show n ≠ 0 by rintro rfl; simp at hn)
      have hrest := hwalk n (by simp only [List.length_cons] at hn ⊢; omega)
      rw [addresses_append, addresses_cons, addresses_nil,
        endRef_append] at hrest
      rw [PairStore.sortWalk, deref_eq_load, ha]
      simp only [h.liveTo a (by simp), h.liveTo b (by simp), hb,
        Option.bind_eq_bind, Option.bind_some]
      rw [if_neg (show ¬signedAttr b.2 < signedAttr a.2 from hlt), hrest]
  | case3 l hshort =>
      refine ⟨s, ?_, h, rfl⟩
      intro n hn
      have hread := h.leadsRest
      cases l with
      | nil =>
          have hnone : s.load (endRef .toHead (addresses P)) = none := hread
          unfold PairStore.sortWalk
          rw [deref_eq_load, hnone]
          simp
      | cons a l =>
          cases l with
          | nil =>
              obtain ⟨ha, hnext⟩ := hread
              have hnone : s.next a.1 = none := hnext
              obtain ⟨n, rfl⟩ := Nat.exists_eq_add_one_of_ne_zero
                (show n ≠ 0 by rintro rfl; simp at hn)
              rw [PairStore.sortWalk, deref_eq_load, ha]
              simp only [h.liveTo a (by simp), hnone,
                Option.bind_eq_bind, Option.bind_some, Bool.or_false]
          | cons b rest => exact absurd rfl (hshort a b rest)

/-- The passes are the sort. -/
theorem radSortvp_run (h : Lists s cells F) :
    ∃ s' sorted,
      (∀ n, inversions cellAttr cells < n →
        exchangeSort cellAttr n cells = some sorted)
      ∧ (∀ n, inversions cellAttr cells + cells.length < n →
        PairStore.radSortvp .toHead n s = some s')
      ∧ Lists s' sorted F ∧ s'.vps = s.vps := by
  induction hi : inversions cellAttr cells using Nat.strong_induction_on
    generalizing s cells with
  | h i ih =>
      have hinv := inversions_exchangePass cellAttr cells
      have hlen := (exchangePass_perm cellAttr cells).length_eq
      obtain ⟨s₁, hwalk, h₁, hvps₁⟩ :=
        sortWalk_eq (P := []) (Q := cells) h false
      simp only [addresses_nil, endRef_nil, List.nil_append,
        Bool.false_or] at hwalk h₁
      cases hswap : (exchangePass cellAttr cells).2 with
      | true =>
          rw [hswap, if_pos rfl] at hinv
          obtain ⟨s₂, sorted, hsort, hrun, h₂, hvps₂⟩ :=
            ih _ (by omega) h₁ rfl
          refine ⟨s₂, sorted, ?_, ?_, h₂, hvps₂.trans hvps₁⟩
          · intro n hn
            obtain ⟨n, rfl⟩ := Nat.exists_eq_add_one_of_ne_zero
              (show n ≠ 0 by omega)
            rw [exchangeSort, if_pos hswap]
            exact hsort n (by omega)
          · intro n hn
            obtain ⟨n, rfl⟩ := Nat.exists_eq_add_one_of_ne_zero
              (show n ≠ 0 by omega)
            rw [PairStore.radSortvp, hwalk n (by omega), hswap]
            exact hrun n (by omega)
      | false =>
          have hdone := exchangePass_done hswap
          rw [hdone.1] at h₁
          refine ⟨s₁, cells, ?_, ?_, h₁, hvps₁⟩
          · intro n hn
            obtain ⟨n, rfl⟩ := Nat.exists_eq_add_one_of_ne_zero
              (show n ≠ 0 by omega)
            rw [exchangeSort, hswap]
            rfl
          · intro n hn
            obtain ⟨n, rfl⟩ := Nat.exists_eq_add_one_of_ne_zero
              (show n ≠ 0 by omega)
            rw [PairStore.radSortvp, hwalk n (by omega), hswap]
            rfl

end exchange

-- ======== the values

theorem sortPass_eq (l : List ValuePair) :
    sortPass l = exchangePass signedAttr l := by
  fun_induction sortPass l with
  | case1 a b rest hlt ih => rw [exchangePass, if_pos hlt, ih]
  | case2 a b rest hlt ih => rw [exchangePass, if_neg hlt, ih]
  | case3 l hshort =>
      cases l with
      | nil => rfl
      | cons a l =>
          cases l with
          | nil => rfl
          | cons b rest => exact absurd rfl (hshort a b rest)

/-- A pass over pairs is one over their values. -/
theorem exchangePass_values (cells : List PairCell) :
    exchangePass signedAttr (cells.map Prod.snd)
      = ((exchangePass cellAttr cells).1.map Prod.snd,
        (exchangePass cellAttr cells).2) := by
  fun_induction exchangePass cellAttr cells with
  | case1 a b rest hlt ih =>
      rw [List.map_cons, List.map_cons, exchangePass,
        if_pos (show signedAttr b.2 < signedAttr a.2 from hlt), ih]
      rfl
  | case2 a b rest hlt ih =>
      rw [List.map_cons] at ih
      rw [List.map_cons, List.map_cons, exchangePass,
        if_neg (show ¬signedAttr b.2 < signedAttr a.2 from hlt), ih]
      rfl
  | case3 l hshort =>
      cases l with
      | nil => rfl
      | cons a l =>
          cases l with
          | nil => rfl
          | cons b rest => exact absurd rfl (hshort a b rest)

/-- The decoder's sort of the values is the sort of the pairs. -/
theorem radSortvp_go {n : Nat} {cells sorted : List PairCell}
    (h : exchangeSort cellAttr n cells = some sorted) :
    radSortvp.go n (cells.map Prod.snd) = sorted.map Prod.snd := by
  induction n generalizing cells with
  | zero => cases h
  | succ n ih =>
      rw [exchangeSort] at h
      rw [radSortvp.go, sortPass_eq, exchangePass_values]
      split at h
      · next hswap =>
          rw [if_pos hswap]
          exact ih h
      · next hswap =>
          cases h
          rw [if_neg hswap]

-- ======== the sort

/-- Given rounds for the square of the list's length and the length,
`rad_sortvp` ends: the list at its head is the pairs it had, sorted by
attribute number, those of one number in the order they were in; the
pairs are where they were, and another list is as it was. -/
theorem radSortvp_stable {s : PairStore} {cells F : List PairCell}
    (h : Lists s cells F) :
    ∃ s' sorted,
      (∀ n, cells.length ^ 2 + cells.length < n →
        PairStore.radSortvp .toHead n s = some s')
      ∧ Lists s' sorted F ∧ s'.vps = s.vps
      ∧ sorted.Perm cells
      ∧ sorted.Pairwise (fun a b => signedAttr a.2 ≤ signedAttr b.2)
      ∧ (∀ k, sorted.filter (signedAttr ·.2 = k)
        = cells.filter (signedAttr ·.2 = k))
      ∧ sorted.map Prod.snd = radSortvp (cells.map Prod.snd) := by
  have hle := inversions_le cellAttr cells
  obtain ⟨s', sorted, hsort, hrun, h', hvps⟩ := radSortvp_run h
  obtain ⟨sorted', hsort', hsorts⟩ :=
    exchangeSort_sorts (Nat.lt_succ_self (inversions cellAttr cells))
  obtain rfl : sorted' = sorted :=
    Option.some.inj (hsort'.symm.trans (hsort _ (Nat.lt_succ_self _)))
  refine ⟨s', sorted', fun n hn => hrun n (by omega), h', hvps, hsorts.perm,
    hsorts.ordered, hsorts.stable, ?_⟩
  have hsquare : inversions cellAttr cells
      < (cells.map Prod.snd).length * (cells.map Prod.snd).length + 1 := by
    rw [List.length_map, ← Nat.pow_two]
    omega
  exact (radSortvp_go (hsort _ hsquare)).symm

/-- A pair with an attribute number. -/
def subTlv (attr : Nat) (n : UInt32) : ValuePair :=
  { attr := attr, type := .integer, lvalue := n }

/-- Four pairs, two of them with one number, at the addresses 10 to 13. -/
def fourPairs : PairStore where
  vps := fun a =>
    if a = 10 then some (subTlv 3 0)
    else if a = 11 then some (subTlv 2 0)
    else if a = 12 then some (subTlv 3 1)
    else if a = 13 then some (subTlv 1 0)
    else none
  next := fun a =>
    if a = 10 then some 11 else if a = 11 then some 12
    else if a = 12 then some 13 else none
  toHead := some 10

theorem fourPairs_lists : Lists fourPairs
    [(10, subTlv 3 0), (11, subTlv 2 0), (12, subTlv 3 1), (13, subTlv 1 0)]
    [] := by
  refine ⟨⟨rfl, rfl, rfl, rfl, rfl⟩, rfl, ?_, by decide⟩
  intro c hc
  simp only [List.append_nil, List.mem_cons, List.not_mem_nil,
    or_false] at hc
  rcases hc with rfl | rfl | rfl | rfl
  · rfl
  · rfl
  · rfl
  · rfl

theorem radSortvp_stable_four :
    ∃ s' sorted,
      (∀ n, 4 ^ 2 + 4 < n →
        PairStore.radSortvp .toHead n fourPairs = some s')
      ∧ Lists s' sorted [] ∧ s'.vps = fourPairs.vps
      ∧ sorted.Perm [(10, subTlv 3 0), (11, subTlv 2 0), (12, subTlv 3 1),
        (13, subTlv 1 0)]
      ∧ sorted.Pairwise (fun a b => signedAttr a.2 ≤ signedAttr b.2)
      ∧ (∀ k, sorted.filter (signedAttr ·.2 = k)
        = [(10, subTlv 3 0), (11, subTlv 2 0), (12, subTlv 3 1),
          (13, subTlv 1 0)].filter (signedAttr ·.2 = k))
      ∧ sorted.map Prod.snd
        = radSortvp [subTlv 3 0, subTlv 2 0, subTlv 3 1, subTlv 1 0] :=
  radSortvp_stable fourPairs_lists

end WinRadius
