/-
The lifetime a dynamic client gets from `client_add`.

The client is in the tree of its prefix length before the network around it
is looked up, and that tree is searched before those of shorter prefixes.
So the search finds the client itself, or one of a longer prefix, and never
the network (`inheritLifetime_iff`).
-/
import WinRadius.Proofs.Clients

namespace WinRadius

open Lib

variable {scope : Nat} {c c' : ClientList} {S : List RadClient}
  {d e x : RadClient} {ip : FrIpaddr} {r : ClientAdd}

/-- `client_find` reads the trees and the minimum. -/
theorem clientFind_congr (ht : c'.trees = c.trees)
    (hm : c'.minPrefix = c.minPrefix) (ip : FrIpaddr) :
    clientFind c' ip = clientFind c ip := by
  have hat : ∀ i, clientAt c' ip i = clientAt c ip i := by
    intro i
    unfold clientAt
    rw [ht]
  have hloop : ∀ n, clientFindLoop c' ip n = clientFindLoop c ip n := by
    intro n
    induction n with
    | zero =>
        rw [clientFindLoop, clientFindLoop, hm, hat]
    | succ n ih =>
        rw [clientFindLoop, clientFindLoop, hm, hat, ih]
  unfold clientFind
  rw [hloop, hloop]

/-- The network of a client contains its address, masked. -/
theorem Sane.contains_masked (h : Sane scope d) :
    d.Contains d.masked.ipaddr := by
  obtain ⟨m, hm, haf, -, hlen, hbits⟩ := clientSane_ok h.known h.fits
  have hmask : d.masked.ipaddr = m := by
    unfold RadClient.masked
    rw [hm]
    rfl
  rw [hmask]
  refine ⟨haf.symm, fun i hi => ?_⟩
  have hfits := h.fits
  rw [hbits i (by omega), decide_eq_true hi, Bool.and_true]

/-- A client that is added goes into its tree first. -/
theorem clientEnter_added (h : clientEnter c x = some (c', .added)) :
    ∃ c₂ : ClientList, c₂.minPrefix = c.minPrefix
      ∧ c₂.lifetime = c.lifetime ∧ c₂.dynamic = c.dynamic
      ∧ c'.trees = c₂.trees
      ∧ c'.minPrefix = (if x.prefixLen < c.minPrefix then x.prefixLen
          else c.minPrefix)
      ∧ c'.lifetime = (inheritLifetime c₂ x).lifetime := by
  unfold clientEnter at h
  dsimp only at h
  cases hold : rbtreeFinddata (clientTree c x.prefixLen.toNat) x with
  | some old =>
      rw [hold] at h
      dsimp only at h
      split at h
      · cases h
      · cases h
  | none =>
      rw [hold] at h
      obtain ⟨⟨t, b⟩, -, h⟩ := Option.bind_eq_some_iff.mp h
      dsimp only at h
      split at h
      · cases h
      · obtain ⟨c₃, hnum, h⟩ := Option.bind_eq_some_iff.mp h
        obtain ⟨⟨u, b'⟩, -, hc₃⟩ := Option.bind_eq_some_iff.mp hnum
        cases hc₃
        cases h
        obtain ⟨c₂, hc₂⟩ : ∃ c₂ : ClientList, c₂ = { c with
            trees := Function.update (Function.update c.trees
              x.prefixLen.toNat (some (clientTree c x.prefixLen.toNat)))
              x.prefixLen.toNat (some t) } := ⟨_, rfl⟩
        obtain ⟨hlt, hlm, -⟩ := inheritLifetime_frame c₂ x
        rw [hc₂] at hlt hlm
        refine ⟨c₂, ?_, ?_, ?_, ?_, ?_, ?_⟩
        · rw [hc₂]
        · rw [hc₂]
        · rw [hc₂]
        · rw [hc₂]
          exact hlt
        · dsimp only
          rw [hlm]
        · rw [hc₂]

/-- The lifetime of a dynamic client that had none: that of what the search
finds, the client among it. -/
theorem clientAdd_lifetime (h : clientAdd c x = some (c', .added))
    (hm : c.minPrefix ≤ x.prefixLen) (hdyn : c.dynamic x.ident ≠ 0)
    (hlife : c.lifetime x.ident = 0) :
    c'.lifetime x.ident =
      match clientFind c' x.masked.ipaddr with
      | some network => c.lifetime network.ident
      | none => 0 := by
  have henter : clientEnter c x.masked = some (c', .added) := by
    unfold clientAdd at h
    split at h
    · cases h
    · cases hsane : clientSane x.ipaddr x.prefixLen.toNat with
      | none =>
          rw [hsane] at h
          cases h
      | some m =>
          have hmask : { x with ipaddr := m } = x.masked := by
            unfold RadClient.masked
            rw [hsane]
            rfl
          rw [hsane] at h
          dsimp only at h
          rw [hmask] at h
          exact h
  obtain ⟨c₂, hmin, hl, hd, ht, hm', hlife'⟩ := clientEnter_added henter
  have hmin' : c'.minPrefix = c₂.minPrefix := by
    have hp : x.masked.prefixLen = x.prefixLen := rfl
    rw [hm', hmin, hp, if_neg (by omega)]
  have hident : x.masked.ident = x.ident := rfl
  rw [clientFind_congr ht hmin', hlife']
  unfold inheritLifetime
  rw [hident, hl, hd, if_pos ⟨hdyn, hlife⟩]
  cases clientFind c₂ x.masked.ipaddr with
  | none =>
      dsimp only
      rw [hl]
      exact hlife
  | some network => exact Function.update_self _ _ _

/-- The dynamic client `x` inherits the lifetime of the network `e`: no
client of a longer prefix than its own contains its address and the network
has no lifetime, or the one of the longest prefix has the lifetime of the
network. -/
def InheritsFrom (c : ClientList) (S : List RadClient) (x e : RadClient) :
    Prop :=
  ((∀ d ∈ S, x.prefixLen < d.prefixLen → ¬ d.Contains x.masked.ipaddr)
      ∧ c.lifetime e.ident = 0)
    ∨ ∃ d ∈ S, x.prefixLen < d.prefixLen ∧ d.Contains x.masked.ipaddr
      ∧ (∀ f ∈ S, f.Contains x.masked.ipaddr → f.prefixLen ≤ d.prefixLen)
      ∧ c.lifetime d.ident = c.lifetime e.ident

/-- A dynamic client without a lifetime, added below a network. -/
structure AddedBelow (scope : Nat) (c : ClientList) (S : List RadClient)
    (x e : RadClient) (c' : ClientList) : Prop where
  scope_eq : x.ipaddr.scope = scope
  fresh : ∀ d ∈ S, d.ident ≠ x.ident
  dynamic : c.dynamic x.ident ≠ 0
  lifetime : c.lifetime x.ident = 0
  added : clientAdd c x = some (c', .added)
  network : e ∈ S
  shorter : e.prefixLen < x.prefixLen
  contains : e.Contains x.ipaddr

/-- Whatever clients were added and deleted before: the lifetime of a
dynamic client becomes that of a network around it, of the longest as of
any other, exactly when `InheritsFrom` says so. -/
theorem inheritLifetime_iff (scope : Nat) (c : ClientList)
    (S : List RadClient)
    (h : Reaches (ClientStep scope) (clientsInit, []) (c, S))
    (x e : RadClient) (c' : ClientList)
    (hadd : AddedBelow scope c S x e c') :
    c'.lifetime x.ident = c.lifetime e.ident ↔ InheritsFrom c S x e := by
  have hstands := stands_reached h
  obtain ⟨hscope, hfresh, hdyn, hlife, hrun, he, hshort, hec⟩ := hadd
  have hmin := hstands.least e he
  have hlifetime := clientAdd_lifetime hrun (by omega) hdyn hlife
  -- the list with the client in its tree
  obtain ⟨c'', r, hrun', hstands'⟩ := hstands.add hscope hfresh
  rw [hrun] at hrun'
  cases hrun'
  rw [if_pos rfl] at hstands'
  have hx := hstands'.sane x List.mem_cons_self
  have hself := hx.contains_masked
  have hmscope : x.masked.ipaddr.scope = scope := by
    obtain ⟨m, hm, -, hms, -⟩ := clientSane_ok hx.known hx.fits
    have hmask : x.masked.ipaddr = m := by
      unfold RadClient.masked
      rw [hm]
      rfl
    rw [hmask, hms, hscope]
  have hfind := hstands'.find hmscope
  unfold InheritsFrom
  cases hfound : clientFind c' x.masked.ipaddr with
  | none =>
      rw [hfound] at hfind
      exact absurd hself (hfind x List.mem_cons_self)
  | some y =>
      rw [hfound] at hfind hlifetime
      obtain ⟨d, hd, hyd, hdc, hlong⟩ := hfind
      have hyident : y.ident = d.ident := by
        rw [hyd]
        rfl
      dsimp only at hlifetime
      rw [hyident] at hlifetime
      rw [hlifetime]
      obtain hdx | hdS := List.mem_cons.mp hd
      · -- nothing longer: the client found itself
        subst hdx
        have hnone : ∀ f ∈ S, d.prefixLen < f.prefixLen →
            ¬ f.Contains d.masked.ipaddr := by
          intro f hf hlt hfc
          have hne : f ≠ d := fun heq => hfresh f hf (by rw [heq])
          have hlt' := hlong f (List.mem_cons_of_mem d hf) hfc hne
          omega
        rw [hlife]
        constructor
        · exact fun heq => Or.inl ⟨hnone, heq.symm⟩
        · intro hor
          obtain ⟨-, heq⟩ | ⟨f, hf, hlt, hfc, -⟩ := hor
          · exact heq.symm
          · exact absurd hfc (hnone f hf hlt)
      · have hne : x ≠ d := fun heq => hfresh d hdS (by rw [heq])
        have hlt := hlong x List.mem_cons_self hself hne
        have hle : ∀ f ∈ S, f.Contains x.masked.ipaddr →
            f.prefixLen ≤ d.prefixLen := by
          intro f hf hfc
          by_cases hfd : f = d
          · rw [hfd]
          · exact le_of_lt (hlong f (List.mem_cons_of_mem x hf) hfc hfd)
        constructor
        · exact fun heq => Or.inr ⟨d, hdS, hlt, hdc, hle, heq⟩
        · intro hor
          obtain ⟨hno, -⟩ | ⟨f, hf, -, hfc, hfle, heq⟩ := hor
          · exact absurd hdc (hno d hdS hlt)
          · have hfd : f = d := by
              by_contra hfd
              have hlt' := hlong f (List.mem_cons_of_mem x hf) hfc hfd
              have hle' := hfle d hdS hdc
              omega
            rw [← hfd]
            exact heq

/-- A dynamic client in the network 10.0.0.0/8. -/
def tenHost : RadClient where
  ident := 2
  ipaddr := { af := afInet, ipaddr := [10, 1, 2, 3], scope := 0 }
  prefixLen := 32

/-- The list with the fields of the two clients: the network has a lifetime
of an hour, the host is dynamic. -/
def tenFields : ClientList :=
  { clientsInit with
    lifetime := fun ident => if ident = 1 then 3600 else 0
    dynamic := fun ident => if ident = 2 then 1 else 0 }

/-- The network and then the host are added; the host has no lifetime. -/
theorem tenHost_added :
    ∃ c c', Reaches (ClientStep 0) (clientsInit, []) (c, [tenNetwork])
      ∧ AddedBelow 0 c [tenNetwork] tenHost tenNetwork c'
      ∧ c.lifetime 1 = 3600 ∧ c'.lifetime 2 = 0 := by
  have hrun : (do
      let (c, r) ← clientAdd tenFields tenNetwork
      let (c', r') ← clientAdd c tenHost
      return (r, r', c.lifetime 1, c.lifetime 2, c.dynamic 2,
        c'.lifetime 2)) = some (.added, .added, 3600, 0, 1, 0) := by
    decide
  obtain ⟨⟨c, r⟩, hadd, hrun⟩ := Option.bind_eq_some_iff.mp hrun
  obtain ⟨⟨c', r'⟩, hadd', hrun⟩ := Option.bind_eq_some_iff.mp hrun
  have hall : (r, r', c.lifetime 1, c.lifetime 2, c.dynamic 2,
      c'.lifetime 2) = (ClientAdd.added, ClientAdd.added, 3600, 0, 1, 0) :=
    Option.some.inj hrun
  obtain ⟨hr, hr', hl1, hl2, hd2, hl2'⟩ :
      r = .added ∧ r' = .added ∧ c.lifetime 1 = 3600 ∧ c.lifetime 2 = 0
        ∧ c.dynamic 2 = 1 ∧ c'.lifetime 2 = 0 := by
    simpa only [Prod.mk.injEq] using hall
  subst hr hr'
  have hreach : Reaches (ClientStep 0) (clientsInit, []) (c, [tenNetwork]) :=
    (Reaches.refl.step (.fields tenFields.lifetime tenFields.dynamic)).step
      (.add (x := tenNetwork) rfl (fun _ hd => absurd hd List.not_mem_nil)
        hadd)
  refine ⟨c, c', hreach, ⟨rfl, ?_, ?_, hl2, hadd', ?_, ?_, ?_⟩, hl1, hl2'⟩
  · intro d hd
    rw [List.mem_singleton.mp hd]
    decide
  · have hident : tenHost.ident = 2 := rfl
    rw [hident, hd2]
    decide
  · exact List.mem_singleton_self _
  · decide
  · exact ⟨rfl, by decide⟩

/-- The host does not get the lifetime of its network, the only and so the
longest one. -/
theorem tenHost_no_lifetime :
    ∃ c c', Reaches (ClientStep 0) (clientsInit, []) (c, [tenNetwork])
      ∧ AddedBelow 0 c [tenNetwork] tenHost tenNetwork c'
      ∧ c'.lifetime tenHost.ident ≠ c.lifetime tenNetwork.ident := by
  obtain ⟨c, c', hreach, hadd, hl, hl'⟩ := tenHost_added
  refine ⟨c, c', hreach, hadd, ?_⟩
  have hident : tenHost.ident = 2 := rfl
  have hident' : tenNetwork.ident = 1 := rfl
  rw [hident, hident', hl, hl']
  decide

/-- So the condition does not hold of the host and its network. -/
theorem inheritLifetime_iff_ten :
    ∃ c c', AddedBelow 0 c [tenNetwork] tenHost tenNetwork c'
      ∧ c.lifetime tenNetwork.ident = 3600 ∧ c'.lifetime tenHost.ident = 0
      ∧ ¬ InheritsFrom c [tenNetwork] tenHost tenNetwork := by
  obtain ⟨c, c', hreach, hadd, hl, hl'⟩ := tenHost_added
  refine ⟨c, c', hadd, hl, hl', fun hinherits => ?_⟩
  have heq := (inheritLifetime_iff 0 c [tenNetwork] hreach tenHost
    tenNetwork c' hadd).mpr hinherits
  have hident : tenHost.ident = 2 := rfl
  have hident' : tenNetwork.ident = 1 := rfl
  rw [hident, hident', hl, hl'] at heq
  cases heq

end WinRadius
