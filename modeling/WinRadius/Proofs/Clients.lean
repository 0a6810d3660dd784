/-
`client_find` returns the client of the longest prefix.

`Stands` ties the trees to the clients that were added and not deleted: a
tree holds, masked, those of its prefix length, and no prefix is shorter
than the running minimum. Every operation keeps it (`Stands.add`,
`Stands.delete`); under it a round of the search finds the client of one
prefix length (`Stands.clientAt`), and the loop the longest.
-/
import WinRadius.Proofs.ClientMask
import WinRadius.Proofs.RbTree
import WinRadius.Lib.Run

namespace WinRadius

open Lib

variable {scope i n : Nat} {c c' : ClientList} {S : List RadClient}
  {d e x : RadClient} {ip : FrIpaddr}

-- ======== invariant

/-- The client as `client_add` leaves it: its host bits are zero. -/
def RadClient.masked (d : RadClient) : RadClient :=
  { d with ipaddr := (clientSane d.ipaddr d.prefixLen.toNat).getD d.ipaddr }

/-- The network of a client contains an address. -/
def RadClient.Contains (d : RadClient) (ip : FrIpaddr) : Prop :=
  d.ipaddr.af = ip.af
    ∧ SamePrefix d.prefixLen.toNat d.ipaddr.octets ip.octets

/-- A client `client_sane` accepts, in the scope. -/
structure Sane (scope : Nat) (d : RadClient) : Prop where
  positive : 0 ≤ d.prefixLen
  fits : d.prefixLen.toNat ≤ d.ipaddr.bits
  known : d.ipaddr.Known
  scope_eq : d.ipaddr.scope = scope

/-- A tree of clients: ordered by address, and of the clients in `S` those
with prefix length `i`. -/
structure Holding (S : List RadClient) (i : Nat) (t : RbTree RadClient) :
    Prop where
  wf : t.Wf (fun x => x.ipaddr.Known) (fun x => ipKey x.ipaddr)
  mem : ∀ x, x ∈ t.root.toList ↔ ∃ d ∈ S, d.prefixLen = i ∧ x = d.masked

/-- The trees stand for the clients in `S`. -/
structure Stands (scope : Nat) (S : List RadClient) (c : ClientList) :
    Prop where
  sane : ∀ d ∈ S, Sane scope d
  ids : ∀ d ∈ S, ∀ e ∈ S, d.ident = e.ident → d = e
  holding : ∀ i t, c.trees i = some t → Holding S i t
  there : ∀ d ∈ S, c.trees d.prefixLen.toNat ≠ none
  least : ∀ d ∈ S, c.minPrefix ≤ d.prefixLen
  numbers : ∀ t, c.treeNum = some t → t.Wf (fun _ => True) ClientNum.number

theorem clientIpaddrCmp_lawful :
    RbLawful clientIpaddrCmp (fun x => x.ipaddr.Known)
      (fun x => ipKey x.ipaddr) :=
  ⟨fun a b hb => (frIpaddrCmp_spec a.ipaddr b.ipaddr hb).1,
    fun a b hb => (frIpaddrCmp_spec a.ipaddr b.ipaddr hb).2⟩

theorem clientNumCmp_lawful :
    RbLawful clientNumCmp (fun _ => True) ClientNum.number := by
  constructor
  · intro a b _
    unfold clientNumCmp
    omega
  · intro a b _
    unfold clientNumCmp
    omega

theorem stands_init : Stands scope [] clientsInit := by
  refine ⟨?_, ?_, ?_, ?_, ?_, ?_⟩
  · intro d hd
    cases hd
  · intro d hd
    cases hd
  · intro i t ht
    cases ht
  · intro d hd
    cases hd
  · intro d hd
    cases hd
  · intro t ht
    cases ht

/-- The address of a sane client, masked. -/
theorem Sane.clientSane (h : Sane scope d) :
    clientSane d.ipaddr d.prefixLen.toNat = some d.masked.ipaddr
      ∧ d.masked.ipaddr.Known := by
  obtain ⟨m, hm, haf, -, -⟩ := clientSane_ok h.known h.fits
  have hmask : d.masked.ipaddr = m := by
    unfold RadClient.masked
    rw [hm]
    rfl
  refine ⟨by rw [hm, hmask], ?_⟩
  unfold FrIpaddr.Known
  rw [hmask, haf]
  exact h.known

-- ======== finding

namespace Stands

/-- One round of the search: the client in `S` with this prefix length
whose network contains the address. -/
theorem clientAt (h : Stands scope S c) (hk : ip.Known)
    (hs : ip.scope = scope) (hi : i ≤ ip.bits) :
    clientAt c ip i = some x ↔
      ∃ d ∈ S, d.prefixLen = i ∧ d.Contains ip ∧ x = d.masked := by
  obtain ⟨m, hm, haf, hscope, -⟩ := clientSane_ok hk hi
  unfold WinRadius.clientAt
  rw [hm]
  dsimp only [Option.getD_some]
  cases htree : c.trees i with
  | none =>
      simp only [reduceCtorEq, false_iff]
      intro ⟨d, hd, hdi, _, _⟩
      apply h.there d hd
      rw [hdi, Int.toNat_natCast, htree]
  | some t =>
      obtain ⟨hwf, hmem⟩ := h.holding i t htree
      dsimp only
      rw [hwf.finddata_eq_some_iff, hmem]
      dsimp only
      -- the keys agree exactly when the network contains the address
      have hkey : ∀ d ∈ S, d.prefixLen = i →
          (ipKey d.masked.ipaddr = ipKey m ↔ d.Contains ip) := by
        intro d hd hdi
        have hsane := h.sane d hd
        obtain ⟨hdm, -⟩ := hsane.clientSane
        have hfits := hsane.fits
        unfold RadClient.Contains
        rw [hdi, Int.toNat_natCast] at hdm hfits ⊢
        by_cases hdaf : d.ipaddr.af = ip.af
        · rw [sameNetwork_iff hdm hm hdaf (by rw [hsane.scope_eq, hs])]
          exact ⟨fun hp => ⟨hdaf, hp⟩, And.right⟩
        · obtain ⟨m', hm', haf', -, -⟩ := clientSane_ok hsane.known hfits
          rw [hdm] at hm'
          cases hm'
          apply iff_of_false
          · intro heq
            have hsame := ((ipKey_eq_iff _ _).mp heq).1
            rw [haf', haf] at hsame
            exact hdaf hsame
          · exact fun hp => hdaf hp.1
      constructor
      · intro ⟨⟨d, hd, hdi, hx⟩, hxk⟩
        subst hx
        exact ⟨d, hd, hdi, (hkey d hd hdi).mp hxk, rfl⟩
      · intro ⟨d, hd, hdi, hcont, hx⟩
        subst hx
        exact ⟨⟨d, hd, hdi, rfl⟩, (hkey d hd hdi).mpr hcont⟩

/-- The loop finds the client of the longest prefix of at most `n`, or
there is none. The induction is on the prefix length it has come down
to. -/
theorem clientFindLoop (h : Stands scope S c) (hk : ip.Known)
    (hs : ip.scope = scope) (hn : n ≤ ip.bits) :
    (∃ d ∈ S, clientFindLoop c ip n = some d.masked ∧ d.Contains ip
        ∧ d.prefixLen ≤ n
        ∧ ∀ e ∈ S, e.Contains ip → e.prefixLen ≤ n →
            e.prefixLen ≤ d.prefixLen)
      ∨ (clientFindLoop c ip n = none
        ∧ ∀ e ∈ S, e.Contains ip → (n : Int) < e.prefixLen) := by
  induction n with
  | zero =>
      rw [WinRadius.clientFindLoop]
      split
      · next hmin =>
          refine Or.inr ⟨rfl, fun e he _ => ?_⟩
          have hle := h.least e he
          omega
      · cases hat : WinRadius.clientAt c ip 0 with
        | some x =>
            obtain ⟨d, hd, hdi, hcont, rfl⟩ := (h.clientAt hk hs hn).mp hat
            refine Or.inl ⟨d, hd, rfl, hcont, by omega, fun e he _ hle => ?_⟩
            omega
        | none =>
            refine Or.inr ⟨rfl, fun e he hcont => ?_⟩
            have hpos := (h.sane e he).positive
            by_contra hle
            have hfound := (h.clientAt (i := 0) (x := e.masked) hk hs hn).mpr
              ⟨e, he, by omega, hcont, rfl⟩
            rw [hat] at hfound
            cases hfound
  | succ n ih =>
      rw [WinRadius.clientFindLoop]
      split
      · next hmin =>
          refine Or.inr ⟨rfl, fun e he _ => ?_⟩
          have hle := h.least e he
          omega
      · cases hat : WinRadius.clientAt c ip (n + 1) with
        | some x =>
            obtain ⟨d, hd, hdi, hcont, rfl⟩ := (h.clientAt hk hs hn).mp hat
            refine Or.inl ⟨d, hd, rfl, hcont, by omega, fun e he _ hle => ?_⟩
            omega
        | none =>
            have hnone : ∀ e ∈ S, e.Contains ip →
                e.prefixLen ≠ (n + 1 : Nat) := by
              intro e he hcont heq
              have hfound := (h.clientAt (x := e.masked) hk hs hn).mpr
                ⟨e, he, heq, hcont, rfl⟩
              rw [hat] at hfound
              cases hfound
            obtain ⟨d, hd, hfind, hcont, hdn, hlong⟩ | ⟨hfind, hlong⟩ :=
              ih (by omega)
            · refine Or.inl ⟨d, hd, hfind, hcont, by omega,
                fun e he hec hle => hlong e he hec ?_⟩
              have hne := hnone e he hec
              omega
            · refine Or.inr ⟨hfind, fun e he hec => ?_⟩
              have hne := hnone e he hec
              have hlt := hlong e he hec
              omega

end Stands

-- ======== additions

/-- The trees, the minimum and the order of the numbers are all that
counts. -/
theorem Stands.congr (h : Stands scope S c) (ht : c'.trees = c.trees)
    (hm : c'.minPrefix = c.minPrefix)
    (hn : ∀ t, c'.treeNum = some t → t.Wf (fun _ => True) ClientNum.number) :
    Stands scope S c' :=
  ⟨h.sane, h.ids, by rw [ht]; exact h.holding, by rw [ht]; exact h.there,
    by rw [hm]; exact h.least, hn⟩

/-- The tree for a prefix length holds its clients, created or not. -/
theorem Stands.clientTree (h : Stands scope S c) (i : Nat) :
    Holding S i (clientTree c i) := by
  unfold WinRadius.clientTree
  cases htree : c.trees i with
  | some t => exact h.holding i t htree
  | none =>
      refine ⟨rbtreeCreate_wf clientIpaddrCmp_lawful, fun x => ?_⟩
      apply iff_of_false
      · intro hx
        cases hx
      · intro ⟨d, hd, hdi, _⟩
        apply h.there d hd
        rw [hdi, Int.toNat_natCast, htree]

/-- With the tree for `i` replaced by one that holds the clients of a set
that differs only there. -/
theorem Stands.setTree {t : RbTree RadClient} {T : List RadClient}
    (h : Stands scope S c) (hsane : ∀ d ∈ T, Sane scope d)
    (hids : ∀ d ∈ T, ∀ e ∈ T, d.ident = e.ident → d = e)
    (hleast : ∀ d ∈ T, c.minPrefix ≤ d.prefixLen)
    (ht : Holding T i t)
    (hother : ∀ d : RadClient, d.prefixLen ≠ (i : Int) →
      (d ∈ T ↔ d ∈ S)) :
    Stands scope T { c with
      trees := Function.update c.trees i (some t) } := by
  refine ⟨hsane, hids, ?_, ?_, hleast, h.numbers⟩
  · intro j u hu
    by_cases hj : j = i
    · subst hj
      dsimp only at hu
      rw [Function.update_self] at hu
      cases hu
      exact ht
    · dsimp only at hu
      rw [Function.update_of_ne hj] at hu
      obtain ⟨hwf, hmem⟩ := h.holding j u hu
      refine ⟨hwf, fun x => ?_⟩
      rw [hmem]
      constructor
      · intro ⟨d, hd, hdj, hx⟩
        exact ⟨d, (hother d (by omega)).mpr hd, hdj, hx⟩
      · intro ⟨d, hd, hdj, hx⟩
        exact ⟨d, (hother d (by omega)).mp hd, hdj, hx⟩
  · intro d hd
    dsimp only
    by_cases hdi : d.prefixLen.toNat = i
    · rw [hdi, Function.update_self]
      exact Option.some_ne_none t
    · have hpos := (hsane d hd).positive
      rw [Function.update_of_ne hdi]
      exact h.there d ((hother d (by omega)).mp hd)

/-- Two clients of one set, prefix length and network are one. -/
theorem Stands.eq_of_key (h : Stands scope S c) (hd : d ∈ S) (he : e ∈ S)
    (hp : d.prefixLen = e.prefixLen)
    (hk : ipKey d.masked.ipaddr = ipKey e.masked.ipaddr) : d = e := by
  have hpos := (h.sane d hd).positive
  cases htree : c.trees d.prefixLen.toNat with
  | none => exact absurd htree (h.there d hd)
  | some t =>
      obtain ⟨hwf, hmem⟩ := h.holding _ t htree
      have hdt := (hmem d.masked).mpr ⟨d, hd, by omega, rfl⟩
      have het := (hmem e.masked).mpr ⟨e, he, by omega, rfl⟩
      have heq : d.masked = e.masked := hwf.key_inj hdt het hk
      have hident : d.masked.ident = e.masked.ident := by rw [heq]
      exact h.ids d hd e he hident

/-- The minimum may be less than it has to be. -/
theorem Stands.lower (h : Stands scope S c) (p : Int) :
    Stands scope S { c with
      minPrefix := if p < c.minPrefix then p else c.minPrefix } := by
  refine ⟨h.sane, h.ids, h.holding, h.there, ?_, h.numbers⟩
  intro d hd
  have hle := h.least d hd
  dsimp only
  split
  · omega
  · exact hle

/-- Giving a client its number does not fault, and changes nothing the
search reads. -/
theorem numberClient_ok (x : RadClient)
    (hn : ∀ t, c.treeNum = some t → t.Wf (fun _ => True) ClientNum.number) :
    ∃ c', numberClient c x = some c' ∧ c'.trees = c.trees
      ∧ c'.minPrefix = c.minPrefix
      ∧ ∀ t, c'.treeNum = some t →
          t.Wf (fun _ => True) ClientNum.number := by
  have hwf : (c.treeNum.getD (rbtreeCreate clientNumCmp false)).Wf
      (fun _ => True) ClientNum.number := by
    cases hnum : c.treeNum with
    | none => exact rbtreeCreate_wf clientNumCmp_lawful
    | some t => exact hn t hnum
  obtain ⟨t, b, hins, hwf', -⟩ := hwf.insertnode_spec
    (d := ⟨c.treeNumMax, x.ident⟩) trivial
  unfold numberClient
  dsimp only
  rw [hins]
  refine ⟨_, rfl, rfl, rfl, ?_⟩
  intro u hu
  cases hu
  exact hwf'

theorem inheritLifetime_frame (c : ClientList) (x : RadClient) :
    (inheritLifetime c x).trees = c.trees
      ∧ (inheritLifetime c x).minPrefix = c.minPrefix
      ∧ (inheritLifetime c x).treeNum = c.treeNum := by
  unfold inheritLifetime
  split
  · split
    · exact ⟨rfl, rfl, rfl⟩
    · exact ⟨rfl, rfl, rfl⟩
  · exact ⟨rfl, rfl, rfl⟩

/-- A sane client, masked, is refused or is one more in its tree. -/
theorem Stands.enter (h : Stands scope S c) (hsane : Sane scope x)
    (hfresh : ∀ d ∈ S, d.ident ≠ x.ident) :
    ∃ c' r, clientEnter c x.masked = some (c', r)
      ∧ Stands scope (if r = .added then x :: S else S) c' := by
  obtain ⟨i, hi⟩ : ∃ i, i = x.masked.prefixLen.toNat := ⟨_, rfl⟩
  have hpos := hsane.positive
  have hix : x.prefixLen = i := by
    have hsame : x.masked.prefixLen = x.prefixLen := rfl
    omega
  have hvalid := hsane.clientSane.2
  obtain ⟨hwf, hmem⟩ := h.clientTree i
  cases hold : rbtreeFinddata (WinRadius.clientTree c i) x.masked with
  | some old =>
      -- the client is refused, the tree may be new
      unfold clientEnter
      dsimp only
      rw [← hi, hold]
      have hstands := h.setTree h.sane h.ids h.least (h.clientTree i)
        (fun _ _ => Iff.rfl)
      dsimp only
      split
      · exact ⟨_, .duplicate, rfl, hstands⟩
      · exact ⟨_, .failed, rfl, hstands⟩
  | none =>
      obtain ⟨t, b, hins, hwf', hb, hmem'⟩ := hwf.insertnode_spec hvalid
      have hnew : b = true := by
        apply hb.mpr
        intro y hy hkey
        have hfound := (hwf.finddata_eq_some_iff x.masked y).mpr ⟨hy, hkey⟩
        rw [hold] at hfound
        cases hfound
      subst hnew
      have hholding : Holding (x :: S) i t := by
        refine ⟨hwf', fun y => ?_⟩
        rw [hmem', hmem]
        constructor
        · intro hy
          obtain ⟨d, hd, hdi, hyd⟩ | ⟨_, hyx⟩ := hy
          · exact ⟨d, List.mem_cons_of_mem x hd, hdi, hyd⟩
          · exact ⟨x, List.mem_cons_self, hix, hyx⟩
        · intro ⟨d, hd, hdi, hyd⟩
          obtain hdx | hd := List.mem_cons.mp hd
          · subst hdx
            exact Or.inr ⟨rfl, hyd⟩
          · exact Or.inl ⟨d, hd, hdi, hyd⟩
      -- the rest keeps the trees and the minimum
      obtain ⟨c₂, hc₂⟩ : ∃ c₂ : ClientList, c₂ = { c with
          trees := Function.update (Function.update c.trees i
            (some (WinRadius.clientTree c i))) i (some t) } := ⟨_, rfl⟩
      obtain ⟨hlt, hlm, hln⟩ := inheritLifetime_frame c₂ x.masked
      obtain ⟨c₃, hnum, htrees, hmin, hn⟩ :=
        numberClient_ok (c := inheritLifetime c₂ x.masked) x.masked
          (by rw [hln, hc₂]; exact h.numbers)
      have hrun : clientEnter c x.masked = some ({ c₃ with
          minPrefix := if x.masked.prefixLen < c₃.minPrefix then
            x.masked.prefixLen else c₃.minPrefix }, .added) := by
        unfold clientEnter
        dsimp only
        rw [← hi, hold]
        dsimp only
        rw [hins]
        simp only [Option.bind_eq_bind, Option.bind_some, ← hc₂,
          Bool.true_eq_false, if_false]
        rw [hnum]
        rfl
      refine ⟨_, .added, hrun, ?_⟩
      rw [if_pos rfl]
      have hmin₃ : c₃.minPrefix = c.minPrefix := by
        rw [hmin, hlm, hc₂]
      have hbase := h.lower x.prefixLen
      have hset := hbase.setTree (T := x :: S)
        (List.forall_mem_cons.mpr ⟨hsane, h.sane⟩) ?_ ?_ hholding ?_
      · apply hset.congr
        · dsimp only
          rw [htrees, hlt, hc₂]
          exact Function.update_idem _ _ _
        · dsimp only
          rw [hmin₃]
          rfl
        · exact hn
      · intro d hd e he hident
        obtain hdx | hdS := List.mem_cons.mp hd
        · obtain hex | heS := List.mem_cons.mp he
          · rw [hdx, hex]
          · rw [hdx] at hident
            exact absurd hident.symm (hfresh e heS)
        · obtain hex | heS := List.mem_cons.mp he
          · rw [hex] at hident
            exact absurd hident (hfresh d hdS)
          · exact h.ids d hdS e heS hident
      · intro d hd
        dsimp only
        obtain hdx | hd := List.mem_cons.mp hd
        · subst hdx
          split
          · exact le_rfl
          · omega
        · exact hbase.least d hd
      · intro d hdi
        rw [List.mem_cons]
        constructor
        · intro hd
          obtain hdx | hd := hd
          · subst hdx
            exact absurd hix hdi
          · exact hd
        · exact Or.inr

/-- `client_add` does not fault, and a client it put into the trees is one
more. -/
theorem Stands.add (h : Stands scope S c) (hscope : x.ipaddr.scope = scope)
    (hfresh : ∀ d ∈ S, d.ident ≠ x.ident) :
    ∃ c' r, clientAdd c x = some (c', r)
      ∧ Stands scope (if r = .added then x :: S else S) c' := by
  unfold clientAdd
  by_cases hrange : x.prefixLen < 0 ∨ 128 < x.prefixLen
  · rw [if_pos hrange]
    exact ⟨c, .failed, rfl, h⟩
  rw [if_neg hrange]
  cases hm : clientSane x.ipaddr x.prefixLen.toNat with
  | none => exact ⟨c, .failed, rfl, h⟩
  | some m =>
      dsimp only
      have hmask : { x with ipaddr := m } = x.masked := by
        unfold RadClient.masked
        rw [hm]
        rfl
      rw [hmask]
      obtain ⟨hknown, hfits⟩ := clientSane_some hm
      exact h.enter ⟨by omega, hfits, hknown, hscope⟩ hfresh

-- ======== deletion

/-- `client_delete` of a dynamic client in the trees takes it out. -/
theorem Stands.delete (h : Stands scope S c) (hd : d ∈ S)
    (hdyn : c.dynamic d.ident ≠ 0) :
    Stands scope (S.filter fun e => e.ident ≠ d.ident)
      (clientDelete c d.masked) := by
  have hpos := (h.sane d hd).positive
  obtain ⟨i, hi⟩ : ∃ i, i = d.masked.prefixLen.toNat := ⟨_, rfl⟩
  have hdi : d.prefixLen = i := by
    have hsame : d.masked.prefixLen = d.prefixLen := rfl
    omega
  have hmemS : ∀ e, e ∈ S.filter (fun e => e.ident ≠ d.ident) ↔
      e ∈ S ∧ e.ident ≠ d.ident := by
    intro e
    rw [List.mem_filter, decide_eq_true_eq]
  cases htree : c.trees i with
  | none =>
      apply absurd htree
      have hthere := h.there d hd
      rw [hdi, Int.toNat_natCast] at hthere
      exact hthere
  | some t =>
      obtain ⟨hwf, hmem⟩ := h.holding i t htree
      obtain ⟨hwf', hmem'⟩ := hwf.deletebydata_spec d.masked
      have hholding : Holding (S.filter fun e => e.ident ≠ d.ident) i
          (rbtreeDeletebydata t d.masked).1 := by
        refine ⟨hwf', fun y => ?_⟩
        rw [hmem', hmem]
        constructor
        · intro ⟨⟨e, he, hei, hy⟩, hkey⟩
          refine ⟨e, (hmemS e).mpr ⟨he, ?_⟩, hei, hy⟩
          intro hident
          have hed := h.ids e he d hd hident
          subst hed hy
          exact hkey rfl
        · intro ⟨e, he, hei, hy⟩
          obtain ⟨heS, hne⟩ := (hmemS e).mp he
          refine ⟨⟨e, heS, hei, hy⟩, ?_⟩
          intro hkey
          subst hy
          apply hne
          rw [h.eq_of_key heS hd (by rw [hei, hdi]) hkey]
      have hset := h.setTree (T := S.filter fun e => e.ident ≠ d.ident)
        (fun e he => h.sane e ((hmemS e).mp he).1)
        (fun e he f hf => h.ids e ((hmemS e).mp he).1 f ((hmemS f).mp hf).1)
        (fun e he => h.least e ((hmemS e).mp he).1) hholding
        (fun e hei => by
          rw [hmemS]
          refine ⟨And.left, fun he => ⟨he, fun hident => ?_⟩⟩
          rw [h.ids e he d hd hident] at hei
          exact hei hdi)
      have hdyn' : c.dynamic d.masked.ident ≠ 0 := hdyn
      unfold clientDelete
      rw [if_neg hdyn']
      dsimp only
      apply hset.congr
      · dsimp only
        rw [← hi, htree]
        rfl
      · rfl
      · intro u hu
        dsimp only at hu
        cases hnum : c.treeNum with
        | none =>
            rw [hnum] at hu
            cases hu
        | some tn =>
            rw [hnum] at hu
            cases hu
            exact ((h.numbers tn hnum).deletebydata_spec _).1

-- ======== runs

/-- Steps of the list, with the clients that were added and not deleted:
a client is added, one that is there is deleted (nothing happens to one
that is not dynamic), the fields that change are written. -/
inductive ClientStep (scope : Nat) : ClientList × List RadClient →
    ClientList × List RadClient → Prop where
  | add {c c' : ClientList} {S : List RadClient} {x : RadClient}
      {r : ClientAdd} : x.ipaddr.scope = scope →
      (∀ d ∈ S, d.ident ≠ x.ident) → clientAdd c x = some (c', r) →
      ClientStep scope (c, S) (c', if r = .added then x :: S else S)
  | delete {c : ClientList} {S : List RadClient} {d : RadClient} : d ∈ S →
      ClientStep scope (c, S) (clientDelete c d.masked,
        if c.dynamic d.ident = 0 then S
        else S.filter fun e => e.ident ≠ d.ident)
  | fields {c : ClientList} {S : List RadClient} (lifetime dynamic : Nat → Int) :
      ClientStep scope (c, S)
        ({ c with lifetime := lifetime, dynamic := dynamic }, S)

/-- Every step keeps the trees. -/
theorem ClientStep.stands {a b : ClientList × List RadClient}
    (hstep : ClientStep scope a b) (h : Stands scope a.2 a.1) :
    Stands scope b.2 b.1 := by
  cases hstep with
  | add hscope hfresh hadd =>
      obtain ⟨c', r, hadd', hstands⟩ := h.add hscope hfresh
      rw [hadd] at hadd'
      cases hadd'
      exact hstands
  | @delete c S d hd =>
      dsimp only
      split
      · next hdyn =>
          have hdyn' : c.dynamic d.masked.ident = 0 := hdyn
          unfold clientDelete
          rw [if_pos hdyn']
          exact h
      · next hdyn => exact h.delete hd hdyn
  | fields lifetime dynamic => exact h.congr rfl rfl h.numbers

theorem stands_reached (h : Reaches (ClientStep scope) (clientsInit, []) (c, S)) :
    Stands scope S c :=
  h.invariant (fun a => Stands scope a.2 a.1) stands_init
    fun _ _ hstands hstep => hstep.stands hstands

/-- Of the clients that contain an address, those of one prefix length are
one. -/
theorem Stands.eq_of_contains (h : Stands scope S c) (hs : ip.scope = scope)
    (hd : d ∈ S) (he : e ∈ S) (hdc : d.Contains ip) (hec : e.Contains ip)
    (hp : e.prefixLen = d.prefixLen) : e = d := by
  have hsane := h.sane d hd
  have hpos := hsane.positive
  have hk : ip.Known := by
    unfold FrIpaddr.Known
    rw [← hdc.1]
    exact hsane.known
  have hbits : d.prefixLen.toNat ≤ ip.bits := by
    have hfits := hsane.fits
    unfold FrIpaddr.bits at hfits ⊢
    rw [← hdc.1]
    exact hfits
  have hfd := (h.clientAt (x := d.masked) hk hs hbits).mpr
    ⟨d, hd, by omega, hdc, rfl⟩
  have hfe := (h.clientAt (x := e.masked) hk hs hbits).mpr
    ⟨e, he, by omega, hec, rfl⟩
  rw [hfd] at hfe
  have heq : d.masked = e.masked := Option.some.inj hfe
  have hident : e.masked.ident = d.masked.ident := by rw [heq]
  exact h.ids e he d hd hident

/-- The search finds the client of the longest prefix that contains the
address, or there is none. -/
theorem Stands.find (h : Stands scope S c) (hs : ip.scope = scope) :
    match clientFind c ip with
    | some x => ∃ d ∈ S, x = d.masked ∧ d.Contains ip
        ∧ ∀ e ∈ S, e.Contains ip → e ≠ d → e.prefixLen < d.prefixLen
    | none => ∀ d ∈ S, ¬ d.Contains ip := by
  have hfits : ∀ d ∈ S, d.Contains ip → ip.Known ∧ d.prefixLen ≤ ip.bits := by
    intro d hd hc
    have hsane := h.sane d hd
    have hpos := hsane.positive
    have hfits := hsane.fits
    have hbits : ip.bits = d.ipaddr.bits := by
      unfold FrIpaddr.bits
      rw [hc.1]
    refine ⟨?_, by omega⟩
    unfold FrIpaddr.Known
    rw [← hc.1]
    exact hsane.known
  have hloop : ip.Known →
      clientFind c ip = WinRadius.clientFindLoop c ip ip.bits := by
    intro hk
    have hne : afInet6 ≠ afInet := by decide
    unfold clientFind FrIpaddr.bits
    obtain h4 | h6 := hk
    · rw [if_pos h4, if_pos h4]
    · rw [if_neg (by rw [h6]; exact hne), if_pos h6,
        if_neg (by rw [h6]; exact hne)]
  by_cases hk : ip.Known
  · rw [hloop hk]
    obtain ⟨d, hd, hfind, hc, -, hlong⟩ | ⟨hfind, hlong⟩ :=
      h.clientFindLoop hk hs (le_refl ip.bits)
    · rw [hfind]
      refine ⟨d, hd, rfl, hc, fun e he hec hne => ?_⟩
      have hle := hlong e he hec (hfits e he hec).2
      have hneq : e.prefixLen ≠ d.prefixLen := by
        intro hp
        exact hne (h.eq_of_contains hs hd he hc hec hp)
      omega
    · rw [hfind]
      intro e he hec
      have hle := (hfits e he hec).2
      have hlt := hlong e he hec
      omega
  · have hnone : clientFind c ip = none := by
      unfold FrIpaddr.Known at hk
      unfold clientFind
      rw [if_neg fun h4 => hk (Or.inl h4), if_neg fun h6 => hk (Or.inr h6)]
    rw [hnone]
    intro d hd hc
    exact hk (hfits d hd hc).1

/-- Whatever clients of one scope were added and deleted, in any order:
`client_find` returns the client of the longest prefix that contains the
address in its own family, and `NULL` when there is none; and the next
client can be added. -/
theorem clientFind_longest (scope : Nat) (c : ClientList)
    (S : List RadClient)
    (h : Reaches (ClientStep scope) (clientsInit, []) (c, S)) :
    (∀ ip : FrIpaddr, ip.scope = scope →
      match clientFind c ip with
      | some x => ∃ d ∈ S, x = d.masked ∧ d.Contains ip
          ∧ ∀ e ∈ S, e.Contains ip → e ≠ d → e.prefixLen < d.prefixLen
      | none => ∀ d ∈ S, ¬ d.Contains ip)
    ∧ ∀ x : RadClient, x.ipaddr.scope = scope →
        (∀ d ∈ S, d.ident ≠ x.ident) → (clientAdd c x).isSome := by
  have hstands := stands_reached h
  refine ⟨fun ip hs => hstands.find hs, fun x hs hfresh => ?_⟩
  obtain ⟨c', r, hadd, -⟩ := hstands.add hs hfresh
  rw [hadd]
  rfl

/-- The network 10.0.0.0/8. -/
def tenNetwork : RadClient where
  ident := 1
  ipaddr := { af := afInet, ipaddr := [10, 0, 0, 0], scope := 0 }
  prefixLen := 8

/-- The network 10.1.0.0/16 inside of it. -/
def innerNetwork : RadClient where
  ident := 2
  ipaddr := { af := afInet, ipaddr := [10, 1, 0, 0], scope := 0 }
  prefixLen := 16

/-- The network 2001:db8::/32. -/
def sixNetwork : RadClient where
  ident := 3
  ipaddr :=
    { af := afInet6, ipaddr := [0x20, 1, 0xd, 0xb8] ++ List.replicate 12 0
      scope := 0 }
  prefixLen := 32

/-- The list behind an addition. -/
def withClient (c : ClientList) (x : RadClient) : ClientList :=
  ((clientAdd c x).map Prod.fst).getD c

theorem ClientStep.added {S : List RadClient} {x : RadClient}
    (hscope : x.ipaddr.scope = scope) (hfresh : ∀ d ∈ S, d.ident ≠ x.ident)
    (hadd : (clientAdd c x).map Prod.snd = some .added) :
    ClientStep scope (c, S) (withClient c x, x :: S) := by
  obtain ⟨⟨c', r⟩, hc, hr⟩ := Option.map_eq_some_iff.mp hadd
  cases hr
  have hnext : withClient c x = c' := by
    unfold withClient
    rw [hc]
    rfl
  rw [hnext]
  exact .add hscope hfresh hc

def nestedClients : ClientList :=
  withClient (withClient (withClient clientsInit tenNetwork) innerNetwork)
    sixNetwork

/-- Of two nested networks the inner one is found; the IPv6 network is
found beside them, and nothing where no network is. -/
theorem clientFind_longest_nested :
    (∀ ip : FrIpaddr, ip.scope = 0 →
        match clientFind nestedClients ip with
        | some x => ∃ d ∈ [sixNetwork, innerNetwork, tenNetwork],
            x = d.masked ∧ d.Contains ip
              ∧ ∀ e ∈ [sixNetwork, innerNetwork, tenNetwork],
                e.Contains ip → e ≠ d → e.prefixLen < d.prefixLen
        | none => ∀ d ∈ [sixNetwork, innerNetwork, tenNetwork],
            ¬ d.Contains ip)
      ∧ clientFind nestedClients
          { af := afInet, ipaddr := [10, 1, 2, 3], scope := 0 }
        = some innerNetwork
      ∧ clientFind nestedClients
          { af := afInet, ipaddr := [10, 2, 2, 3], scope := 0 }
        = some tenNetwork
      ∧ clientFind nestedClients
          { af := afInet6, ipaddr := [0x20, 1, 0xd, 0xb8]
              ++ List.replicate 12 7, scope := 0 }
        = some sixNetwork
      ∧ clientFind nestedClients
          { af := afInet, ipaddr := [192, 0, 2, 1], scope := 0 }
        = none := by
  have hreach : Reaches (ClientStep 0) (clientsInit, [])
      (nestedClients, [sixNetwork, innerNetwork, tenNetwork]) :=
    ((Reaches.refl.step (.added rfl (by decide) (by decide))).step
      (.added rfl (by decide) (by decide))).step
        (.added rfl (by decide) (by decide))
  exact ⟨(clientFind_longest 0 nestedClients _ hreach).1, by decide,
    by decide, by decide, by decide⟩

end WinRadius
