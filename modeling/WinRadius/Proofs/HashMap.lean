/-
The hash table as a finite map.

# The representation

An entry is in the chain of the nearest bucket above its own that is in
use (`Nearest`): the table leaves a bucket empty until it is needed and
then takes its entries out of the chain they are in. `Wf` says that, and
that every chain is in the order of the reversed keys. Filling a bucket
and doubling the table keep it and the entries (`fixed_wf`, `grow_wf`).

# Equal hashes

Entries of one hash are told apart by the comparison. The search gives up
at the first of them that compares smaller, so it needs them in
descending order; the insertion puts a new entry behind a smaller one. `Wf`
asks for the order of the search, and an insertion keeps it if and only if
the new entry compares smaller than all of its hash; that is the condition
of `insert_wf`.
-/
import WinRadius.Proofs.HashBits

namespace WinRadius

open Lib

namespace HashTable

variable {α : Type} {ops : HashOps α} {ht : HashTable α}

-- ======== buckets

theorem bucket_setBucket {b : Nat} (hb : b < ht.buckets.length)
    (chain : List (HashEntry α)) (c : Nat) :
    (ht.setBucket b chain).bucket c
      = if c = b then some chain else ht.bucket c := by
  unfold bucket setBucket
  simp only [List.getD_eq_getElem?_getD, List.getElem?_set]
  by_cases h : b = c
  · subst h
    simp [hb]
  · rw [if_neg h, if_neg (Ne.symm h)]

@[simp] theorem setBucket_mask (b : Nat) (chain : List (HashEntry α)) :
    (ht.setBucket b chain).mask = ht.mask := rfl

@[simp] theorem setBucket_numBuckets (b : Nat)
    (chain : List (HashEntry α)) :
    (ht.setBucket b chain).numBuckets = ht.numBuckets := rfl

@[simp] theorem setBucket_length (b : Nat)
    (chain : List (HashEntry α)) :
    (ht.setBucket b chain).buckets.length = ht.buckets.length := by
  simp [setBucket]

/-- A bucket in use is one of the table's. -/
theorem lt_of_bucket {b : Nat} (h : (ht.bucket b).isSome = true) :
    b < ht.buckets.length := by
  by_contra hge
  unfold bucket at h
  rw [List.getD_eq_getElem?_getD,
    List.getElem?_eq_none (by omega)] at h
  cases h

/-- The nearest bucket in use above `b`, `b` itself first. -/
inductive Nearest (ht : HashTable α) : Nat → Nat → Prop where
  | here {b : Nat} : (ht.bucket b).isSome = true → Nearest ht b b
  | up {b a : Nat} : (ht.bucket b).isSome = false →
      Nearest ht (parentOf b) a → Nearest ht b a

theorem Nearest.unique {b a a' : Nat} (h : ht.Nearest b a)
    (h' : ht.Nearest b a') : a = a' := by
  induction h with
  | here hs =>
      cases h' with
      | here _ => rfl
      | up hn _ =>
          rw [hs] at hn
          cases hn
  | up hn _ ih =>
      cases h' with
      | here hs =>
          rw [hs] at hn
          cases hn
      | up _ h' => exact ih h'

/-- Only which buckets are in use matters. -/
theorem Nearest.congr {ht' : HashTable α}
    (hsome : ∀ c, (ht'.bucket c).isSome = (ht.bucket c).isSome)
    {b a : Nat} (h : ht.Nearest b a) : ht'.Nearest b a := by
  induction h with
  | here hs => exact .here ((hsome _).trans hs)
  | up hns _ ih => exact .up ((hsome _).trans hns) ih

/-- It has some of the bits. -/
theorem Nearest.subset {b a : Nat} (hb : b < 2 ^ 32)
    (h : ht.Nearest b a) (i : Nat) (hi : a.testBit i = true) :
    b.testBit i = true := by
  induction h with
  | here _ => exact hi
  | @up b a hn h ih =>
      have hp : parentOf b < 2 ^ 32 := by
        by_cases h0 : b = 0
        · subst h0
          decide
        · exact (parentOf_lt h0 hb).trans hb
      exact parentOf_subset hb i (ih hp hi)

-- ======== the invariant

/-- Two entries of a chain stand in the order the search expects. -/
def Precedes (ops : HashOps α) (x y : HashEntry α) : Prop :=
  x.reversed < y.reversed
    ∨ x.reversed = y.reversed ∧ ops.matches y.data x.data = .after

/-- An entry is filled in from its datum. -/
def Filled (ops : HashOps α) (e : HashEntry α) : Prop :=
  e.key = ops.hash e.data ∧ e.reversed = reverse e.key

/-- The representation invariant. -/
structure Wf (ops : HashOps α) (ht : HashTable α) : Prop where
  pow : ∃ k, ht.numBuckets = 2 ^ k
  mask_eq : ht.mask = ht.numBuckets - 1
  length_eq : ht.buckets.length = ht.numBuckets
  root : (ht.bucket 0).isSome = true
  filled : ∀ b chain, ht.bucket b = some chain →
    ∀ e ∈ chain, Filled ops e
  nearest : ∀ b chain, ht.bucket b = some chain →
    ∀ e ∈ chain, ht.Nearest (ht.entryOf e.key) b
  ordered : ∀ b chain, ht.bucket b = some chain →
    chain.Pairwise (Precedes ops)

/-- What the table holds. -/
def Holds (ht : HashTable α) (data : α) : Prop :=
  ∃ b chain e, ht.bucket b = some chain ∧ e ∈ chain ∧ e.data = data

theorem Wf.entryOf_eq (h : ht.Wf ops) (key : UInt32) {k : Nat}
    (hk : ht.numBuckets = 2 ^ k) : ht.entryOf key = key.toNat % 2 ^ k := by
  unfold entryOf
  rw [h.mask_eq, hk, Nat.and_two_pow_sub_one_eq_mod]

theorem Wf.entryOf_lt (h : ht.Wf ops) (key : UInt32) :
    ht.entryOf key < ht.buckets.length ∧ ht.entryOf key < 2 ^ 32 := by
  obtain ⟨k, hk⟩ := h.pow
  rw [h.entryOf_eq key hk, h.length_eq, hk]
  exact ⟨Nat.mod_lt _ (Nat.two_pow_pos k),
    lt_of_le_of_lt (Nat.mod_le _ _) key.toNat_lt⟩

theorem create_bucket {b : Nat} {chain : List (HashEntry α)}
    (h : (hashTableCreate α).bucket b = some chain) : chain = [] := by
  unfold bucket hashTableCreate at h
  cases b with
  | zero =>
      cases h
      rfl
  | succ b =>
      rw [List.getD_eq_getElem?_getD, List.getElem?_cons_succ,
        List.getElem?_replicate] at h
      split at h
      · cases h
      · cases h

theorem create_wf : (hashTableCreate α).Wf ops := by
  refine ⟨⟨6, rfl⟩, rfl, by simp [hashTableCreate], rfl, ?_, ?_, ?_⟩
  · intro b chain h e he
    rw [create_bucket h] at he
    cases he
  · intro b chain h e he
    rw [create_bucket h] at he
    cases he
  · intro b chain h
    rw [create_bucket h]
    exact .nil

theorem create_holds (d : α) : ¬(hashTableCreate α).Holds d := by
  rintro ⟨b, chain, e, h, he, -⟩
  rw [create_bucket h] at he
  cases he

-- ======== splitting

/-- The entries of a chain that belong to the bucket `b`. -/
def piece (mask b : Nat) (chain : List (HashEntry α)) :
    List (HashEntry α) :=
  chain.filter fun e => decide (e.key.toNat &&& mask = b)

/-- What the walk of the fixup makes of a chain whose entries of one
bucket are neighbours, those of `self` first. The induction follows the
walk: where it leaves a bucket, it does not come back to it. -/
theorem splitChain_spec {mask : Nat} {chain : List (HashEntry α)}
    {self : Nat} {kept : List (HashEntry α)}
    {others : List (Nat × List (HashEntry α))}
    (hnb : ∀ x y z : HashEntry α, [x, y, z].Sublist chain →
      x.key.toNat &&& mask = z.key.toNat &&& mask →
      y.key.toNat &&& mask = x.key.toNat &&& mask)
    (hself : chain.Pairwise fun e f => e.key.toNat &&& mask ≠ self →
      f.key.toNat &&& mask ≠ self)
    (h : splitChain mask self chain = (kept, others)) :
    kept = piece mask self chain
      ∧ (others.map Prod.fst).Nodup ∧ self ∉ others.map Prod.fst
      ∧ (∀ b g, (b, g) ∈ others → g = piece mask b chain
        ∧ ∃ e ∈ chain, e.key.toNat &&& mask = b)
      ∧ ∀ e ∈ chain, e.key.toNat &&& mask ≠ self →
        e.key.toNat &&& mask ∈ others.map Prod.fst := by
  induction chain generalizing self kept others with
  | nil =>
      cases h
      simp [piece]
  | cons cur next ih =>
      rw [splitChain] at h
      have hnb' : ∀ x y z : HashEntry α, [x, y, z].Sublist next →
          x.key.toNat &&& mask = z.key.toNat &&& mask →
          y.key.toNat &&& mask = x.key.toNat &&& mask :=
        fun x y z hs => hnb x y z (hs.trans (List.sublist_cons_self _ _))
      rw [List.pairwise_cons] at hself
      simp only at h
      by_cases hreal : cur.key.toNat &&& mask = self
      · rw [if_neg (not_not.mpr hreal)] at h
        obtain ⟨kept', others', hrec⟩ : ∃ k o,
            splitChain mask self next = (k, o) := ⟨_, _, rfl⟩
        rw [hrec] at h
        cases h
        obtain ⟨hk, hnd, hns, hg, hall⟩ := ih hnb' hself.2 hrec
        refine ⟨?_, hnd, hns, ?_, ?_⟩
        · rw [hk, piece, piece, List.filter_cons_of_pos (by simpa)]
        · intro b g hbg
          obtain ⟨hgp, e, he, heb⟩ := hg b g hbg
          refine ⟨?_, e, List.mem_cons_of_mem _ he, heb⟩
          have hne : b ≠ self := by
            rintro rfl
            exact hns (List.mem_map_of_mem hbg)
          rw [hgp, piece, piece, List.filter_cons_of_neg]
          simp only [decide_eq_true_eq]
          exact fun hb => hne (hb.symm.trans hreal)
        · intro e he hne
          rcases List.mem_cons.mp he with rfl | he
          · exact absurd hreal hne
          · exact hall e he hne
      · rw [if_pos hreal] at h
        obtain ⟨kept', others', hrec⟩ : ∃ k o,
            splitChain mask (cur.key.toNat &&& mask) next = (k, o) :=
          ⟨_, _, rfl⟩
        rw [hrec] at h
        cases h
        -- behind `cur` there is nothing of `self`
        have hleft : ∀ f ∈ next, f.key.toNat &&& mask ≠ self :=
          fun f hf => hself.1 f hf hreal
        have hpw : next.Pairwise fun e f =>
            e.key.toNat &&& mask ≠ cur.key.toNat &&& mask →
            f.key.toNat &&& mask ≠ cur.key.toNat &&& mask := by
          rw [List.pairwise_iff_forall_sublist]
          intro e f hs hne hf
          exact hne (hnb cur e f (hs.cons_cons cur) hf.symm)
        obtain ⟨hk, hnd, hns, hg, hall⟩ := ih hnb' hpw hrec
        refine ⟨?_, ?_, ?_, ?_, ?_⟩
        · rw [piece, eq_comm, List.filter_eq_nil_iff]
          intro e he
          simp only [decide_eq_true_eq]
          rcases List.mem_cons.mp he with rfl | he
          · exact hreal
          · exact hleft e he
        · rw [List.map_cons, List.nodup_cons]
          exact ⟨hns, hnd⟩
        · rw [List.map_cons, List.mem_cons, not_or]
          refine ⟨fun h => hreal h.symm, fun hmem => ?_⟩
          obtain ⟨⟨b, g⟩, hbg, rfl⟩ := List.mem_map.mp hmem
          obtain ⟨-, e, he, heb⟩ := hg _ g hbg
          exact hleft e he heb
        · intro b g hbg
          rcases List.mem_cons.mp hbg with hbg | hbg
          · cases hbg
            refine ⟨?_, cur, by simp, rfl⟩
            rw [hk, piece, piece, List.filter_cons_of_pos (by simp)]
          · obtain ⟨hgp, e, he, heb⟩ := hg b g hbg
            refine ⟨?_, e, List.mem_cons_of_mem _ he, heb⟩
            rw [hgp, piece, piece, List.filter_cons_of_neg]
            simp only [decide_eq_true_eq]
            rintro rfl
            exact hns (List.mem_map_of_mem hbg)
        · intro e he hne
          rw [List.map_cons]
          rcases List.mem_cons.mp he with rfl | he
          · exact List.mem_cons_self
          · by_cases heq : e.key.toNat &&& mask = cur.key.toNat &&& mask
            · rw [heq]
              exact List.mem_cons_self
            · exact List.mem_cons_of_mem _ (hall e he heq)

/-- Handing pieces to buckets of their own. -/
theorem foldl_setBucket (others : List (Nat × List (HashEntry α)))
    (hnd : (others.map Prod.fst).Nodup)
    (hlt : ∀ b ∈ others.map Prod.fst, b < ht.buckets.length) :
    let ht' := others.foldl (fun ht p => ht.setBucket p.1 p.2) ht
    (∀ b g, (b, g) ∈ others → ht'.bucket b = some g)
      ∧ (∀ b, b ∉ others.map Prod.fst → ht'.bucket b = ht.bucket b)
      ∧ ht'.mask = ht.mask ∧ ht'.numBuckets = ht.numBuckets
      ∧ ht'.buckets.length = ht.buckets.length := by
  induction others generalizing ht with
  | nil => simp
  | cons p others ih =>
      rw [List.map_cons, List.nodup_cons] at hnd
      rw [List.map_cons, List.forall_mem_cons] at hlt
      obtain ⟨h1, h2, h3, h4, h5⟩ := @ih (ht.setBucket p.1 p.2)
        hnd.2 (by simpa using hlt.2)
      refine ⟨?_, ?_, h3, h4, h5.trans (setBucket_length _ _)⟩
      · intro b g hbg
        rcases List.mem_cons.mp hbg with rfl | hbg
        · rw [List.foldl_cons, h2 _ hnd.1, bucket_setBucket hlt.1,
            if_pos rfl]
        · exact h1 b g hbg
      · intro b hb
        rw [List.map_cons, List.mem_cons, not_or] at hb
        rw [List.foldl_cons, h2 _ hb.2, bucket_setBucket hlt.1,
          if_neg hb.1]

section split

variable {entry : Nat} {chain : List (HashEntry α)}

/-- The buckets a fixup writes to. -/
def Touched (ht : HashTable α) (entry : Nat)
    (chain : List (HashEntry α)) (c : Nat) : Prop :=
  (c = parentOf entry ∨ ∃ e ∈ chain, ht.entryOf e.key = c)
    ∨ c = entry ∧ (ht.bucket entry).isSome = false

theorem Wf.reversed_le (h : ht.Wf ops) {b : Nat}
    (hb : ht.bucket b = some chain) {x y : HashEntry α}
    (hs : [x, y].Sublist chain) : reverse x.key ≤ reverse y.key := by
  have hxy := (List.pairwise_iff_forall_sublist.mp (h.ordered b chain hb))
    hs
  rw [← (h.filled b chain hb x (hs.subset (by simp))).2,
    ← (h.filled b chain hb y (hs.subset (by simp))).2]
  rcases hxy with hlt | ⟨heq, -⟩
  · exact hlt.le
  · exact heq.le

/-- The chain of a bucket in use is fit for being split. -/
theorem Wf.splitChain_parent (h : ht.Wf ops) {p : Nat}
    (hp : ht.bucket p = some chain) {kept : List (HashEntry α)}
    {others : List (Nat × List (HashEntry α))}
    (hsplit : splitChain ht.mask p chain = (kept, others)) :
    kept = piece ht.mask p chain
      ∧ (others.map Prod.fst).Nodup ∧ p ∉ others.map Prod.fst
      ∧ (∀ b g, (b, g) ∈ others → g = piece ht.mask b chain
        ∧ ∃ e ∈ chain, ht.entryOf e.key = b)
      ∧ ∀ e ∈ chain, ht.entryOf e.key ≠ p →
        ht.entryOf e.key ∈ others.map Prod.fst := by
  obtain ⟨k, hk⟩ := h.pow
  have hmod (e : HashEntry α) : e.key.toNat &&& ht.mask
      = e.key.toNat % 2 ^ k := h.entryOf_eq e.key hk
  refine splitChain_spec ?_ ?_ hsplit
  · intro x y z hs heq
    rw [hmod, hmod] at heq ⊢
    have hxy : [x, y].Sublist [x, y, z] := by simp
    have hyz : [y, z].Sublist [x, y, z] := by simp
    exact reverse_between (h.reversed_le hp (hxy.trans hs))
      (h.reversed_le hp (hyz.trans hs)) heq
  · -- an entry of the parent's own comes before all others
    rw [List.pairwise_iff_forall_sublist]
    intro e f hs hne hf
    have hnear := h.nearest _ chain hp e (hs.subset (by simp))
    have hsub := hnear.subset (h.entryOf_lt e.key).2
    rw [h.entryOf_eq e.key hk] at hsub
    rw [hmod] at hne hf
    have hlt := reverse_lt_of_subset (k := k) (a := f.key) (b := e.key)
      (by rw [hf]; exact hsub) (by rw [hf]; exact Ne.symm hne)
    have hle := h.reversed_le hp hs
    omega

/-- A fixup cuts the parent's chain into the pieces of the buckets. -/
theorem splitParent_spec (h : ht.Wf ops)
    (hp : ht.bucket (parentOf entry) = some chain)
    (hentry : entry < ht.buckets.length) :
    (∀ c, ht.Touched entry chain c →
      (ht.splitParent entry).bucket c = some (piece ht.mask c chain))
    ∧ (∀ c, ¬ht.Touched entry chain c →
      (ht.splitParent entry).bucket c = ht.bucket c)
    ∧ (ht.splitParent entry).mask = ht.mask
    ∧ (ht.splitParent entry).numBuckets = ht.numBuckets
    ∧ (ht.splitParent entry).buckets.length = ht.buckets.length := by
  have hplt : parentOf entry < ht.buckets.length :=
    lt_of_bucket (by rw [hp]; rfl)
  obtain ⟨kept, others, hsplit⟩ : ∃ kept others,
      splitChain ht.mask (parentOf entry) chain = (kept, others) :=
    ⟨_, _, rfl⟩
  obtain ⟨hkept, hnd, hns, hg, hall⟩ := h.splitChain_parent hp hsplit
  have hlt : ∀ b ∈ others.map Prod.fst,
      b < (ht.setBucket (parentOf entry) kept).buckets.length := by
    intro b hb
    obtain ⟨⟨b, g⟩, hbg, rfl⟩ := List.mem_map.mp hb
    obtain ⟨-, e, -, rfl⟩ := hg b g hbg
    rw [setBucket_length]
    exact (h.entryOf_lt e.key).1
  obtain ⟨hin, hout, hmask, hnum, hlen⟩ := foldl_setBucket
    others hnd hlt
  obtain ⟨ht', hht'⟩ : ∃ ht', ht' = others.foldl
      (fun ht p => ht.setBucket p.1 p.2)
      (ht.setBucket (parentOf entry) kept) := ⟨_, rfl⟩
  rw [← hht'] at hin hout hmask hnum hlen
  rw [setBucket_length] at hlen
  -- the table before the entry's own bucket is looked at
  have hcut (c : Nat) (hc : c = parentOf entry
      ∨ ∃ e ∈ chain, ht.entryOf e.key = c) :
      ht'.bucket c = some (piece ht.mask c chain) := by
    by_cases hcp : c = parentOf entry
    · subst hcp
      rw [hout _ hns, bucket_setBucket hplt, if_pos rfl, hkept]
    · obtain ⟨e, he, hec⟩ := hc.resolve_left hcp
      have hmem := hall e he (by rw [hec]; exact hcp)
      rw [hec] at hmem
      obtain ⟨⟨b, g⟩, hbg, rfl⟩ := List.mem_map.mp hmem
      rw [hin b g hbg, (hg b g hbg).1]
  have hleft (c : Nat) (hc : ¬(c = parentOf entry
      ∨ ∃ e ∈ chain, ht.entryOf e.key = c)) :
      ht'.bucket c = ht.bucket c := by
    rw [not_or] at hc
    rw [hout, bucket_setBucket hplt, if_neg hc.1]
    intro hmem
    obtain ⟨⟨b, g⟩, hbg, rfl⟩ := List.mem_map.mp hmem
    exact hc.2 (hg b g hbg).2
  have hsp : ht.splitParent entry
      = if (ht'.bucket entry).isNone then ht'.setBucket entry []
        else ht' := by
    unfold splitParent
    simp only [hp, Option.getD_some, hsplit, hht']
  have hlast (c : Nat) : (ht.splitParent entry).bucket c
      = if c = entry ∧ (ht'.bucket entry).isNone = true then some []
        else ht'.bucket c := by
    rw [hsp]
    by_cases hn : (ht'.bucket entry).isNone = true
    · rw [if_pos hn, bucket_setBucket (by omega)]
      simp only [hn, and_true]
    · rw [if_neg hn, if_neg (fun h => hn h.2)]
  refine ⟨?_, ?_, ?_, ?_, ?_⟩
  · intro c hc
    rw [hlast]
    by_cases hcut' : c = parentOf entry
        ∨ ∃ e ∈ chain, ht.entryOf e.key = c
    · rw [hcut c hcut', if_neg]
      rintro ⟨rfl, hn⟩
      rw [hcut c hcut'] at hn
      cases hn
    · obtain ⟨rfl, hn⟩ := hc.resolve_left hcut'
      rw [hleft c hcut', if_pos ⟨rfl, by simpa using hn⟩]
      symm
      rw [Option.some.injEq, piece, List.filter_eq_nil_iff]
      intro e he
      simp only [decide_eq_true_eq]
      exact fun hec => hcut' (Or.inr ⟨e, he, hec⟩)
  · intro c hc
    have hcut' : ¬(c = parentOf entry
        ∨ ∃ e ∈ chain, ht.entryOf e.key = c) := fun h => hc (Or.inl h)
    rw [hlast, if_neg, hleft c hcut']
    rintro ⟨rfl, hn⟩
    rw [hleft c hcut'] at hn
    exact hc (Or.inr ⟨rfl, by simpa using hn⟩)
  · rw [hsp]
    split
    · exact hmask
    · exact hmask
  · rw [hsp]
    split
    · exact hnum
    · exact hnum
  · rw [hsp]
    split
    · rw [setBucket_length, hlen]
    · exact hlen

/-- What a change of the representation keeps: the invariant, the size and
the content. -/
structure Keeps (ops : HashOps α) (ht ht' : HashTable α) : Prop where
  wf : ht'.Wf ops
  holds : ∀ d, ht'.Holds d ↔ ht.Holds d
  mask_eq : ht'.mask = ht.mask
  length_eq : ht'.buckets.length = ht.buckets.length

theorem Keeps.refl (h : ht.Wf ops) : Keeps ops ht ht :=
  ⟨h, fun _ => Iff.rfl, rfl, rfl⟩

theorem Keeps.entryOf_eq {ht' : HashTable α} (h : Keeps ops ht ht')
    (key : UInt32) : ht'.entryOf key = ht.entryOf key := by
  unfold entryOf
  rw [h.mask_eq]

theorem Keeps.trans {ht' ht'' : HashTable α} (h : Keeps ops ht ht')
    (h' : Keeps ops ht' ht'') : Keeps ops ht ht'' :=
  ⟨h'.wf, fun d => (h'.holds d).trans (h.holds d),
    h'.mask_eq.trans h.mask_eq, h'.length_eq.trans h.length_eq⟩

/-- A bucket in use is not touched, the parent's apart. -/
theorem Wf.not_touched (h : ht.Wf ops)
    (hp : ht.bucket (parentOf entry) = some chain) {c : Nat}
    (hc : (ht.bucket c).isSome = true) (hne : c ≠ parentOf entry) :
    ¬ht.Touched entry chain c := by
  rintro ((rfl | ⟨e, he, rfl⟩) | ⟨rfl, hn⟩)
  · exact hne rfl
  · exact hne ((Nearest.here hc).unique (h.nearest _ chain hp e he))
  · rw [hc] at hn
    cases hn

/-- A fixup leaves the nearest bucket of an entry where it was, unless it
is the parent. The induction is on the way up. -/
theorem Nearest.splitParent (h : ht.Wf ops)
    (hp : ht.bucket (parentOf entry) = some chain)
    (hentry : entry < ht.buckets.length) {b a : Nat}
    (hn : ht.Nearest b a) (hne : a ≠ parentOf entry) :
    (ht.splitParent entry).Nearest b a := by
  obtain ⟨-, hrest, -⟩ := splitParent_spec h hp hentry
  have hps : (ht.bucket (parentOf entry)).isSome = true := by
    rw [hp]
    rfl
  induction hn with
  | here hs =>
      refine .here ?_
      rw [hrest _ (h.not_touched hp hs hne)]
      exact hs
  | up hns hup ih =>
      refine .up ?_ (ih hne)
      rw [hrest]
      · exact hns
      · rintro ((rfl | ⟨e, he, rfl⟩) | ⟨rfl, -⟩)
        · rw [hps] at hns
          cases hns
        · exact hne ((Nearest.up hns hup).unique
            (h.nearest _ chain hp e he))
        · exact hne (hup.unique (.here hps))

/-- A fixup of a bucket whose parent is in use. -/
theorem splitParent_keeps (h : ht.Wf ops)
    (hp : ht.bucket (parentOf entry) = some chain)
    (hentry : entry < ht.buckets.length) :
    Keeps ops ht (ht.splitParent entry)
      ∧ ((ht.splitParent entry).bucket entry).isSome = true := by
  obtain ⟨hin, hout, hmask, hnum, hlen⟩ := splitParent_spec h hp hentry
  have hof (key : UInt32) :
      (ht.splitParent entry).entryOf key = ht.entryOf key := by
    unfold entryOf
    rw [hmask]
  have hsome {c : Nat} (hc : (ht.bucket c).isSome = true) :
      ((ht.splitParent entry).bucket c).isSome = true := by
    by_cases ht' : ht.Touched entry chain c
    · rw [hin c ht']
      rfl
    · rw [hout c ht']
      exact hc
  refine ⟨⟨⟨?_, ?_, ?_, ?_, ?_, ?_, ?_⟩, ?_, hmask, hlen⟩, ?_⟩
  · rw [hnum]
    exact h.pow
  · rw [hmask, hnum]
    exact h.mask_eq
  · rw [hlen, hnum]
    exact h.length_eq
  · exact hsome h.root
  · intro c g hc e he
    by_cases ht' : ht.Touched entry chain c
    · rw [hin c ht'] at hc
      cases hc
      exact h.filled _ chain hp e (List.mem_of_mem_filter he)
    · rw [hout c ht'] at hc
      exact h.filled c g hc e he
  · intro c g hc e he
    rw [hof]
    by_cases ht' : ht.Touched entry chain c
    · have hcs := hin c ht'
      rw [hcs] at hc
      cases hc
      have hec : ht.entryOf e.key = c := by
        have hmem := (List.mem_filter.mp he).2
        exact of_decide_eq_true hmem
      rw [hec]
      exact .here (by rw [hcs]; rfl)
    · rw [hout c ht'] at hc
      refine (h.nearest c g hc e he).splitParent h hp hentry ?_
      rintro rfl
      exact ht' (Or.inl (Or.inl rfl))
  · intro c g hc
    by_cases ht' : ht.Touched entry chain c
    · rw [hin c ht'] at hc
      cases hc
      exact (h.ordered _ chain hp).filter _
    · rw [hout c ht'] at hc
      exact h.ordered c g hc
  · intro d
    constructor
    · rintro ⟨c, g, e, hc, he, hd⟩
      by_cases ht' : ht.Touched entry chain c
      · rw [hin c ht'] at hc
        cases hc
        exact ⟨_, chain, e, hp, List.mem_of_mem_filter he, hd⟩
      · rw [hout c ht'] at hc
        exact ⟨c, g, e, hc, he, hd⟩
    · rintro ⟨c, g, e, hc, he, hd⟩
      by_cases hcp : c = parentOf entry
      · subst hcp
        rw [hp] at hc
        cases hc
        refine ⟨ht.entryOf e.key, _, e,
          hin _ (Or.inl (Or.inr ⟨e, he, rfl⟩)), ?_, hd⟩
        exact List.mem_filter.mpr ⟨he, by simp [entryOf]⟩
      · refine ⟨c, g, e, ?_, he, hd⟩
        rw [hout c (h.not_touched hp (by rw [hc]; rfl) hcp), hc]
  · by_cases hs : (ht.bucket entry).isSome = true
    · exact hsome hs
    · rw [hin entry (Or.inr ⟨rfl, by simpa using hs⟩)]
      rfl

end split

-- ======== filling buckets

/-- The recursion ends at a bucket in use: each call discards a bit, and
bucket 0 is in use. -/
theorem fixup_keeps {fuel entry : Nat} (hfuel : fuel ≤ 32)
    (h : ht.Wf ops) (hlt : entry < 2 ^ fuel)
    (hentry : entry < ht.buckets.length)
    (hnone : (ht.bucket entry).isSome = false) :
    Keeps ops ht (fixup (fuel + 1) ht entry)
      ∧ ((fixup (fuel + 1) ht entry).bucket entry).isSome = true := by
  induction fuel generalizing ht entry with
  | zero =>
      obtain rfl : entry = 0 := by omega
      rw [h.root] at hnone
      cases hnone
  | succ fuel ih =>
      have hpar := parentOf_lt_two_pow hlt (by omega)
      have hle : parentOf entry ≤ entry := by
        by_cases h0 : entry = 0
        · subst h0
          decide
        · exact (parentOf_lt h0 (lt_of_lt_of_le hlt
            (Nat.pow_le_pow_right (by omega) hfuel))).le
      rw [fixup]
      by_cases hps : (ht.bucket (parentOf entry)).isNone = true
      · rw [if_pos hps]
        obtain ⟨hk, hs⟩ := ih (by omega) h hpar (by omega)
          (by simpa using hps)
        obtain ⟨chain, hchain⟩ := Option.isSome_iff_exists.mp hs
        obtain ⟨hk', hs'⟩ := splitParent_keeps hk.wf hchain
          (by rw [hk.length_eq]; exact hentry)
        exact ⟨hk.trans hk', hs'⟩
      · rw [if_neg hps]
        obtain ⟨chain, hchain⟩ : ∃ chain,
            ht.bucket (parentOf entry) = some chain := by
          rw [← Option.ne_none_iff_exists']
          simpa using hps
        exact splitParent_keeps h hchain hentry

theorem fixed_keeps_at (h : ht.Wf ops) {entry : Nat}
    (hlt : entry < ht.buckets.length) (h32 : entry < 2 ^ 32) :
    Keeps ops ht (ht.fixed entry)
      ∧ ((ht.fixed entry).bucket entry).isSome = true := by
  unfold fixed
  by_cases hn : (ht.bucket entry).isNone = true
  · rw [if_pos hn]
    exact fixup_keeps (le_refl 32) h h32 hlt (by simpa using hn)
  · rw [if_neg hn]
    exact ⟨.refl h, by simpa [Option.isSome_iff_ne_none] using hn⟩

theorem fixed_keeps (h : ht.Wf ops) (key : UInt32) :
    Keeps ops ht (ht.fixed (ht.entryOf key))
      ∧ ((ht.fixed (ht.entryOf key)).bucket (ht.entryOf key)).isSome
        = true :=
  fixed_keeps_at h (h.entryOf_lt key).1 (h.entryOf_lt key).2

-- ======== growing

theorem grow_bucket (b : Nat) : ht.grow.bucket b = ht.bucket b := by
  unfold bucket grow
  simp only [List.getD_eq_getElem?_getD]
  by_cases hb : b < ht.buckets.length
  · rw [List.getElem?_append_left hb]
  · rw [List.getElem?_append_right (by omega),
      List.getElem?_eq_none (by omega : ht.buckets.length ≤ b),
      List.getElem?_replicate]
    split
    · rfl
    · rfl

/-- The keys of a bucket that doubling adds were in its parent. -/
theorem Wf.nearest_grow (h : ht.Wf ops) {key : UInt32} {b : Nat}
    (hn : ht.Nearest (ht.entryOf key) b) :
    ht.grow.Nearest (ht.grow.entryOf key) b := by
  have hsame {a c : Nat} (hac : ht.Nearest a c) : ht.grow.Nearest a c :=
    hac.congr fun x => by rw [grow_bucket]
  obtain ⟨k, hk⟩ := h.pow
  have hnew : ht.grow.entryOf key = key.toNat % 2 ^ (k + 1) := by
    unfold entryOf grow
    simp only
    rw [hk, ← Nat.pow_succ, Nat.and_two_pow_sub_one_eq_mod]
  rw [h.entryOf_eq key hk] at hn
  rw [hnew]
  by_cases heq : key.toNat % 2 ^ (k + 1) = key.toNat % 2 ^ k
  · rw [heq]
    exact hsame hn
  · -- the new bit is set
    have hdm : key.toNat % 2 ^ (k + 1)
        = key.toNat % 2 ^ k + 2 ^ k * (key.toNat / 2 ^ k % 2) := by
      rw [Nat.pow_succ, Nat.mod_mul]
    have hbit : key.toNat / 2 ^ k % 2 < 2 := Nat.mod_lt _ (by omega)
    have hone : key.toNat / 2 ^ k % 2 = 1 := by
      by_contra hne
      rw [show key.toNat / 2 ^ k % 2 = 0 by omega] at hdm
      exact heq (by simpa using hdm)
    rw [hone, Nat.mul_one] at hdm
    have hlow : key.toNat % 2 ^ k < 2 ^ k :=
      Nat.mod_lt _ (Nat.two_pow_pos k)
    have hk32 : k < 32 := by
      by_contra hge
      have hpow : 2 ^ 32 ≤ 2 ^ k :=
        Nat.pow_le_pow_right (by omega) (by omega)
      have hlt := key.toNat_lt
      rw [Nat.div_eq_of_lt (by omega)] at hone
      cases hone
    have hpar : parentOf (key.toNat % 2 ^ (k + 1))
        = key.toNat % 2 ^ k := by
      rw [parentOf_eq hk32 (by omega)
        (Nat.mod_lt _ (Nat.two_pow_pos (k + 1)))]
      omega
    refine .up ?_ (by rw [hpar]; exact hsame hn)
    by_contra hs
    have hlt : key.toNat % 2 ^ (k + 1) < ht.buckets.length := by
      apply lt_of_bucket
      rw [← grow_bucket]
      exact Bool.eq_true_of_not_eq_false hs
    rw [h.length_eq, hk] at hlt
    omega

theorem grow_wf (h : ht.Wf ops) : ht.grow.Wf ops := by
  obtain ⟨k, hk⟩ := h.pow
  refine ⟨⟨k + 1, ?_⟩, rfl, ?_, ?_, ?_, ?_, ?_⟩
  · rw [Nat.pow_succ, ← hk]
    rfl
  · unfold grow
    simp only [List.length_append, List.length_replicate]
    rw [h.length_eq]
    omega
  · rw [grow_bucket]
    exact h.root
  · intro b chain hb
    rw [grow_bucket] at hb
    exact h.filled b chain hb
  · intro b chain hb e he
    rw [grow_bucket] at hb
    exact h.nearest_grow (h.nearest b chain hb e he)
  · intro b chain hb
    rw [grow_bucket] at hb
    exact h.ordered b chain hb

theorem grow_holds (d : α) : ht.grow.Holds d ↔ ht.Holds d := by
  unfold Holds
  simp only [grow_bucket]

-- ======== searching

/-- What the table relies on: on the data the caller passes, the
comparison is that of a linear order, and data that compare equal have one
hash. -/
structure Lawful {κ : Type} [LinearOrder κ] (ops : HashOps α)
    (valid : α → Prop) (key : α → κ) : Prop where
  before_iff : ∀ a b, valid a → valid b →
    (ops.matches a b = .before ↔ key b < key a)
  after_iff : ∀ a b, valid a → valid b →
    (ops.matches a b = .after ↔ key a < key b)
  hash_eq : ∀ a b, valid a → valid b → key a = key b →
    ops.hash a = ops.hash b

section search

variable {κ : Type} [LinearOrder κ] {valid : α → Prop} {key : α → κ}

/-- In a chain in order the search finds the entry that compares equal. -/
theorem listFind_eq_some_iff (law : Lawful ops valid key) {d : α}
    (hd : valid d) {reversed : Nat} {chain : List (HashEntry α)}
    (hv : ∀ e ∈ chain, valid e.data)
    (hord : chain.Pairwise (Precedes ops)) (e : HashEntry α) :
    listFind ops reversed d chain = some e
      ↔ e ∈ chain ∧ e.reversed = reversed ∧ key e.data = key d := by
  induction chain with
  | nil => simp [listFind]
  | cons cur next ih =>
      rw [List.pairwise_cons] at hord
      rw [List.forall_mem_cons] at hv
      have ih := ih hv.2 hord.2
      have hbefore := law.before_iff d cur.data hd hv.1
      have hafter := law.after_iff d cur.data hd hv.1
      rw [listFind]
      by_cases hrev : cur.reversed = reversed
      · -- behind `cur` an entry of this hash compares smaller
        have hnext (he : e ∈ next) (her : e.reversed = reversed) :
            key e.data < key cur.data := by
          rcases hord.1 e he with hlt | ⟨-, hlt⟩
          · omega
          · exact (law.after_iff _ _ (hv.2 e he) hv.1).mp hlt
        rw [if_pos hrev]
        cases hm : ops.matches d cur.data with
        | before =>
            have hlt := hbefore.mp hm
            simp only [List.mem_cons, reduceCtorEq, false_iff, not_and]
            rintro (rfl | he) her
            · exact hlt.ne
            · exact ((hnext he her).trans hlt).ne
        | after =>
            have hlt := hafter.mp hm
            simp only [List.mem_cons]
            rw [ih]
            constructor
            · exact fun h => ⟨Or.inr h.1, h.2⟩
            · rintro ⟨rfl | he, her, hk⟩
              · exact absurd hk hlt.ne'
              · exact ⟨he, her, hk⟩
        | same =>
            have hle : key d ≤ key cur.data :=
              not_lt.mp fun h => by rw [hbefore.mpr h] at hm; cases hm
            have hge : key cur.data ≤ key d :=
              not_lt.mp fun h => by rw [hafter.mpr h] at hm; cases hm
            simp only [List.mem_cons, Option.some.injEq]
            constructor
            · rintro rfl
              exact ⟨Or.inl rfl, hrev, le_antisymm hge hle⟩
            · rintro ⟨rfl | he, her, hk⟩
              · rfl
              · exact absurd hk ((hnext he her).trans_le hge).ne
      · rw [if_neg hrev]
        by_cases hlt : reversed < cur.reversed
        · rw [if_pos hlt]
          simp only [List.mem_cons, reduceCtorEq, false_iff, not_and]
          rintro (rfl | he) her
          · exact absurd her hrev
          · rcases hord.1 e he with h | ⟨h, -⟩
            · omega
            · omega
        · rw [if_neg hlt, ih, List.mem_cons]
          constructor
          · exact fun h => ⟨Or.inr h.1, h.2⟩
          · rintro ⟨rfl | he, her, hk⟩
            · exact absurd her hrev
            · exact ⟨he, her, hk⟩

/-- `fr_hash_table_finddata` returns what the table holds under the key. -/
theorem finddata_spec (law : Lawful ops valid key) (h : ht.Wf ops)
    (hv : ∀ x, ht.Holds x → valid x) {d : α} (hd : valid d) :
    Keeps ops ht (finddata ops ht d).1
      ∧ ∀ x, (finddata ops ht d).2 = some x
        ↔ ht.Holds x ∧ key x = key d := by
  obtain ⟨hk, hs⟩ := fixed_keeps h (ops.hash d)
  obtain ⟨chain, hchain⟩ := Option.isSome_iff_exists.mp hs
  have hvc : ∀ e ∈ chain, valid e.data := fun e he =>
    hv _ ((hk.holds _).mp ⟨_, chain, e, hchain, he, rfl⟩)
  refine ⟨hk, fun x => ?_⟩
  unfold finddata
  simp only [hchain, Option.getD_some, Option.map_eq_some_iff,
    listFind_eq_some_iff law hd hvc (hk.wf.ordered _ chain hchain)]
  constructor
  · rintro ⟨e, ⟨he, -, hkey⟩, rfl⟩
    exact ⟨(hk.holds _).mp ⟨_, chain, e, hchain, he, rfl⟩, hkey⟩
  · rintro ⟨hx, hkey⟩
    obtain ⟨b, g, e, hb, he, rfl⟩ := (hk.holds x).mpr hx
    obtain ⟨hek, her⟩ := hk.wf.filled b g hb e he
    rw [law.hash_eq _ _ (hv _ hx) hd hkey] at hek
    have hnear := hk.wf.nearest b g hb e he
    rw [hk.entryOf_eq, hek] at hnear
    -- the bucket is in use, so the entry is in it
    obtain rfl := (Nearest.here hs).unique hnear
    rw [hchain] at hb
    cases hb
    exact ⟨e, ⟨he, by rw [her, hek], hkey⟩, rfl⟩

end search

-- ======== inserting

/-- A node that compares smaller than all of its hash goes behind them. -/
theorem listInsert_spec (node : HashEntry α)
    {chain : List (HashEntry α)} (hord : chain.Pairwise (Precedes ops))
    (hnew : ∀ e ∈ chain, e.reversed = node.reversed →
      ops.matches node.data e.data = .after) :
    ∃ chain', listInsert ops node chain = some chain'
      ∧ (∀ x, x ∈ chain' ↔ x = node ∨ x ∈ chain)
      ∧ chain'.Pairwise (Precedes ops) := by
  induction chain with
  | nil => exact ⟨[node], rfl, by simp, by simp⟩
  | cons cur next ih =>
      rw [List.pairwise_cons] at hord
      rw [List.forall_mem_cons] at hnew
      obtain ⟨g, hg, hmem, hpw⟩ := ih hord.2 hnew.2
      have hkeep (hcur : Precedes ops cur node) :
          (∀ x, x ∈ cur :: g ↔ x = node ∨ x ∈ cur :: next)
            ∧ (cur :: g).Pairwise (Precedes ops) := by
        refine ⟨fun x => ?_, ?_⟩
        · rw [List.mem_cons, hmem, List.mem_cons]
          tauto
        · rw [List.pairwise_cons]
          refine ⟨fun x hx => ?_, hpw⟩
          rcases (hmem x).mp hx with rfl | hx
          · exact hcur
          · exact hord.1 x hx
      rw [listInsert]
      by_cases hlt : node.reversed < cur.reversed
      · rw [if_pos hlt]
        refine ⟨_, rfl, by simp, ?_⟩
        rw [List.pairwise_cons, List.pairwise_cons]
        refine ⟨fun x hx => Or.inl ?_, hord⟩
        rcases List.mem_cons.mp hx with rfl | hx
        · exact hlt
        · rcases hord.1 x hx with h | ⟨h, -⟩
          · omega
          · omega
      · rw [if_neg hlt]
        by_cases heq : cur.reversed = node.reversed
        · have hm := hnew.1 heq
          rw [if_pos heq, hm]
          exact ⟨cur :: g, by rw [hg]; rfl, hkeep (Or.inr ⟨heq, hm⟩)⟩
        · rw [if_neg heq]
          exact ⟨cur :: g, by rw [hg]; rfl, hkeep (Or.inl (by omega))⟩

/-- Another chain in a bucket in use. -/
theorem setBucket_wf (h : ht.Wf ops) {entry : Nat}
    (hs : (ht.bucket entry).isSome = true) {g : List (HashEntry α)}
    (hfilled : ∀ e ∈ g, Filled ops e)
    (hnearest : ∀ e ∈ g, ht.Nearest (ht.entryOf e.key) entry)
    (hpw : g.Pairwise (Precedes ops)) (n : Nat) :
    let t := { ht.setBucket entry g with numElements := n }
    t.Wf ops ∧ ∀ x, t.Holds x ↔ (∃ e ∈ g, e.data = x)
      ∨ ∃ b chain e, b ≠ entry ∧ ht.bucket b = some chain ∧ e ∈ chain
        ∧ e.data = x := by
  intro t
  have hbucket (b : Nat) : t.bucket b
      = if b = entry then some g else ht.bucket b :=
    bucket_setBucket (lt_of_bucket hs) g b
  have hnear {b a : Nat} (hn : ht.Nearest b a) : t.Nearest b a := by
    refine hn.congr fun x => ?_
    rw [hbucket]
    split
    · next hx =>
        rw [hx, hs]
        rfl
    · rfl
  refine ⟨⟨h.pow, h.mask_eq, ?_, ?_, ?_, ?_, ?_⟩, fun x => ?_⟩
  · exact (setBucket_length _ _).trans h.length_eq
  · rw [hbucket]
    split
    · rfl
    · exact h.root
  · intro b ch hb e he
    rw [hbucket] at hb
    split at hb
    · cases hb
      exact hfilled e he
    · exact h.filled b ch hb e he
  · intro b ch hb e he
    rw [hbucket] at hb
    apply hnear
    change ht.Nearest (ht.entryOf e.key) b
    split at hb
    · next hbe =>
        cases hb
        rw [hbe]
        exact hnearest e he
    · exact h.nearest b ch hb e he
  · intro b ch hb
    rw [hbucket] at hb
    split at hb
    · cases hb
      exact hpw
    · exact h.ordered b ch hb
  · constructor
    · rintro ⟨b, ch, e, hb, he, rfl⟩
      rw [hbucket] at hb
      split at hb
      · cases hb
        exact Or.inl ⟨e, he, rfl⟩
      · next hbe => exact Or.inr ⟨b, ch, e, hbe, hb, he, rfl⟩
    · rintro (⟨e, he, rfl⟩ | ⟨b, ch, e, hbe, hb, he, rfl⟩)
      · exact ⟨entry, g, e, by rw [hbucket, if_pos rfl], he, rfl⟩
      · exact ⟨b, ch, e, by rw [hbucket, if_neg hbe, hb], he, rfl⟩

/-- What a table holds, seen from one of its buckets. -/
theorem holds_iff_bucket {entry : Nat} {chain : List (HashEntry α)}
    (hchain : ht.bucket entry = some chain) (x : α) :
    ht.Holds x ↔ (∃ e ∈ chain, e.data = x)
      ∨ ∃ b g e, b ≠ entry ∧ ht.bucket b = some g ∧ e ∈ g
        ∧ e.data = x := by
  constructor
  · rintro ⟨b, g, e, hb, he, hx⟩
    by_cases hbe : b = entry
    · subst hbe
      rw [hchain] at hb
      cases hb
      exact Or.inl ⟨e, he, hx⟩
    · exact Or.inr ⟨b, g, e, hbe, hb, he, hx⟩
  · rintro (⟨e, he, hx⟩ | ⟨b, g, e, -, hb, he, hx⟩)
    · exact ⟨entry, chain, e, hchain, he, hx⟩
    · exact ⟨b, g, e, hb, he, hx⟩

/-- A chain with a new node in a bucket in use. -/
theorem store_wf (h : ht.Wf ops) {entry : Nat}
    {chain g : List (HashEntry α)} {node : HashEntry α}
    (hchain : ht.bucket entry = some chain) (hnode : Filled ops node)
    (hentry : ht.entryOf node.key = entry)
    (hmem : ∀ x, x ∈ g ↔ x = node ∨ x ∈ chain)
    (hpw : g.Pairwise (Precedes ops)) (n : Nat) :
    let t := { ht.setBucket entry g with numElements := n }
    t.Wf ops ∧ ∀ x, t.Holds x ↔ x = node.data ∨ ht.Holds x := by
  intro t
  have hs : (ht.bucket entry).isSome = true := by
    rw [hchain]
    rfl
  have hfilled : ∀ e ∈ g, Filled ops e := by
    intro e he
    rcases (hmem e).mp he with rfl | he
    · exact hnode
    · exact h.filled _ chain hchain e he
  have hnearest : ∀ e ∈ g, ht.Nearest (ht.entryOf e.key) entry := by
    intro e he
    rcases (hmem e).mp he with rfl | he
    · rw [hentry]
      exact .here hs
    · exact h.nearest _ chain hchain e he
  obtain ⟨hwf, hholds⟩ := setBucket_wf h hs hfilled hnearest hpw n
  refine ⟨hwf, fun x => ?_⟩
  rw [hholds, holds_iff_bucket hchain, ← or_assoc]
  refine or_congr_left ⟨?_, ?_⟩
  · rintro ⟨e, he, rfl⟩
    rcases (hmem e).mp he with rfl | he
    · exact Or.inl rfl
    · exact Or.inr ⟨e, he, rfl⟩
  · rintro (rfl | ⟨e, he, rfl⟩)
    · exact ⟨node, (hmem node).mpr (Or.inl rfl), rfl⟩
    · exact ⟨e, (hmem e).mpr (Or.inr he), rfl⟩

/-- `fr_hash_table_insert` of a datum that compares smaller than all of
its hash. -/
theorem insert_wf (h : ht.Wf ops) {d : α}
    (hnew : ∀ x, ht.Holds x → ops.hash x = ops.hash d →
      ops.matches d x = .after) :
    (insert ops ht d).2 = true ∧ (insert ops ht d).1.Wf ops
      ∧ ∀ x, (insert ops ht d).1.Holds x ↔ x = d ∨ ht.Holds x := by
  obtain ⟨hk, hs⟩ := fixed_keeps h (ops.hash d)
  obtain ⟨chain, hchain⟩ := Option.isSome_iff_exists.mp hs
  obtain ⟨g, hg, hmem, hpw⟩ := listInsert_spec
    ⟨reverse (ops.hash d), ops.hash d, d⟩
    (hk.wf.ordered _ chain hchain) (by
      intro e he her
      obtain ⟨hek, herev⟩ := hk.wf.filled _ chain hchain e he
      refine hnew _ ((hk.holds _).mp ⟨_, chain, e, hchain, he, rfl⟩) ?_
      rw [← hek]
      exact reverse_inj (herev.symm.trans her))
  obtain ⟨hwf, hholds⟩ := store_wf hk.wf hchain ⟨rfl, rfl⟩
    (hk.entryOf_eq _) hmem hpw
    ((ht.fixed (ht.entryOf (ops.hash d))).numElements + 1)
  unfold insert
  simp only [hchain, Option.getD_some, hg]
  refine ⟨trivial, ?_, fun x => ?_⟩
  · split
    · exact grow_wf hwf
    · exact hwf
  · rw [← hk.holds, ← hholds]
    split
    · exact grow_holds x
    · exact Iff.rfl

-- ======== any table

/-- What holds of the table whatever is put into it: a key's bucket is one
of the table's. -/
structure Sized (ht : HashTable α) : Prop where
  mask_eq : ht.mask = ht.numBuckets - 1
  length_eq : ht.buckets.length = ht.numBuckets
  pos : 0 < ht.numBuckets

theorem Sized.entryOf_lt (h : ht.Sized) (key : UInt32) :
    ht.entryOf key < ht.buckets.length := by
  have hle : ht.entryOf key ≤ ht.mask := Nat.and_le_right
  have := h.mask_eq
  have := h.length_eq
  have := h.pos
  omega

theorem Sized.setBucket (h : ht.Sized) (b : Nat)
    (chain : List (HashEntry α)) : (ht.setBucket b chain).Sized :=
  ⟨h.mask_eq, (setBucket_length b chain).trans h.length_eq, h.pos⟩

theorem create_sized : (hashTableCreate α).Sized :=
  ⟨rfl, by simp [hashTableCreate], by simp [hashTableCreate]⟩

theorem splitParent_sized (h : ht.Sized) (entry : Nat) :
    (ht.splitParent entry).Sized
      ∧ (ht.splitParent entry).mask = ht.mask
      ∧ (entry < ht.buckets.length →
        ((ht.splitParent entry).bucket entry).isSome = true) := by
  have hfold (others : List (Nat × List (HashEntry α)))
      (t : HashTable α) (hs : t.Sized) (hm : t.mask = ht.mask) :
      (others.foldl (fun t p => t.setBucket p.1 p.2) t).Sized
        ∧ (others.foldl (fun t p => t.setBucket p.1 p.2) t).mask
          = ht.mask := by
    induction others generalizing t with
    | nil => exact ⟨hs, hm⟩
    | cons p others ih => exact ih _ (hs.setBucket p.1 p.2) hm
  obtain ⟨kept, others, hsplit⟩ : ∃ kept others, splitChain ht.mask
      (parentOf entry) ((ht.bucket (parentOf entry)).getD [])
        = (kept, others) := ⟨_, _, rfl⟩
  obtain ⟨hs, hm⟩ := hfold others _ (h.setBucket (parentOf entry) kept) rfl
  unfold splitParent
  simp only [hsplit]
  split
  · refine ⟨hs.setBucket _ _, hm, fun hlt => ?_⟩
    rw [bucket_setBucket, if_pos rfl]
    · rfl
    · have h1 := hs.mask_eq
      have h2 := hs.length_eq
      have h3 := h.mask_eq
      have h4 := h.length_eq
      have h5 := hs.pos
      have h6 := h.pos
      omega
  · next hn =>
      refine ⟨hs, hm, fun _ => ?_⟩
      simpa [Option.isSome_iff_ne_none] using hn

theorem fixup_sized (h : ht.Sized) (fuel entry : Nat) :
    (fixup fuel ht entry).Sized ∧ (fixup fuel ht entry).mask = ht.mask
      ∧ (0 < fuel → entry < ht.buckets.length →
        ((fixup fuel ht entry).bucket entry).isSome = true) := by
  induction fuel generalizing ht entry with
  | zero => exact ⟨h, rfl, fun h => absurd h (by omega)⟩
  | succ fuel ih =>
      rw [fixup]
      by_cases hps : (ht.bucket (parentOf entry)).isNone = true
      · obtain ⟨hs, hm, -⟩ := ih h (parentOf entry)
        obtain ⟨hs', hm', hb⟩ := splitParent_sized hs entry
        rw [if_pos hps]
        refine ⟨hs', hm'.trans hm, fun _ hlt => hb ?_⟩
        have h1 := hs.mask_eq
        have h2 := hs.length_eq
        have h3 := h.mask_eq
        have h4 := h.length_eq
        have h5 := hs.pos
        have h6 := h.pos
        omega
      · rw [if_neg hps]
        obtain ⟨hs', hm', hb⟩ := splitParent_sized h entry
        exact ⟨hs', hm', fun _ => hb⟩

theorem fixed_sized (h : ht.Sized) (key : UInt32) :
    (ht.fixed (ht.entryOf key)).Sized
      ∧ (ht.fixed (ht.entryOf key)).mask = ht.mask
      ∧ ((ht.fixed (ht.entryOf key)).bucket (ht.entryOf key)).isSome
        = true := by
  unfold fixed
  split
  · obtain ⟨hs, hm, hb⟩ := fixup_sized h 33 (ht.entryOf key)
    exact ⟨hs, hm, hb (by omega) (h.entryOf_lt key)⟩
  · next hn =>
      refine ⟨h, rfl, ?_⟩
      simpa [Option.isSome_iff_ne_none] using hn

theorem finddata_sized (ops : HashOps α) (h : ht.Sized) (d : α) :
    (finddata ops ht d).1.Sized := (fixed_sized h _).1

theorem insert_sized (ops : HashOps α) (h : ht.Sized) (d : α) :
    (insert ops ht d).1.Sized := by
  obtain ⟨hs, -, -⟩ := fixed_sized h (ops.hash d)
  unfold insert
  simp only
  split
  · exact hs
  · next chain _ =>
      have hset := hs.setBucket (ht.entryOf (ops.hash d)) chain
      split
      · refine ⟨rfl, ?_, ?_⟩
        · change (_ ++ _ : List _).length = _
          rw [List.length_append, List.length_replicate, hset.length_eq]
          exact (Nat.mul_two _).symm
        · exact Nat.mul_pos hset.pos (by omega)
      · exact ⟨hset.mask_eq, hset.length_eq, hset.pos⟩

/-- Where the search gives up, an insertion finds a place. -/
theorem listInsert_of_listFind (node : HashEntry α)
    {chain : List (HashEntry α)}
    (h : listFind ops node.reversed node.data chain = none) :
    (listInsert ops node chain).isSome = true := by
  induction chain with
  | nil => rfl
  | cons cur next ih =>
      rw [listFind] at h
      rw [listInsert]
      by_cases hlt : node.reversed < cur.reversed
      · rw [if_pos hlt]
        rfl
      · rw [if_neg hlt]
        by_cases heq : cur.reversed = node.reversed
        · rw [if_pos heq] at h ⊢
          cases hm : ops.matches node.data cur.data with
          | before => rfl
          | after =>
              rw [hm] at h
              simpa using ih h
          | same =>
              rw [hm] at h
              cases h
        · rw [if_neg heq, if_neg hlt] at h
          rw [if_neg heq]
          simpa using ih h

theorem listFind_congr {d d' : α}
    (hm : ∀ c, ops.matches d c = ops.matches d' c) (reversed : Nat)
    (chain : List (HashEntry α)) :
    listFind ops reversed d chain = listFind ops reversed d' chain := by
  induction chain with
  | nil => rfl
  | cons cur next ih => rw [listFind, listFind, hm, ih]

/-- A search does not see what the hash and the comparison do not. -/
theorem finddata_congr {d d' : α} (hh : ops.hash d = ops.hash d')
    (hm : ∀ c, ops.matches d c = ops.matches d' c) :
    finddata ops ht d = finddata ops ht d' := by
  unfold finddata
  simp only [hh, listFind_congr hm]

/-- After a search in vain the insertion succeeds. -/
theorem insert_of_finddata (h : ht.Sized) {d : α}
    (hnone : (finddata ops ht d).2 = none) :
    (insert ops (finddata ops ht d).1 d).2 = true := by
  obtain ⟨hs, hm, hsome⟩ := fixed_sized h (ops.hash d)
  have hof : (ht.fixed (ht.entryOf (ops.hash d))).entryOf (ops.hash d)
      = ht.entryOf (ops.hash d) := by
    unfold entryOf at hm ⊢
    rw [hm]
  have hfixed : (ht.fixed (ht.entryOf (ops.hash d))).fixed
      (ht.entryOf (ops.hash d)) = ht.fixed (ht.entryOf (ops.hash d)) := by
    rw [fixed, if_neg]
    simpa [Option.isSome_iff_ne_none] using hsome
  have hfind : listFind ops (reverse (ops.hash d)) d
      (((ht.fixed (ht.entryOf (ops.hash d))).bucket
        (ht.entryOf (ops.hash d))).getD []) = none := by
    unfold finddata at hnone
    simpa using hnone
  obtain ⟨chain, hchain⟩ := Option.isSome_iff_exists.mp
    (listInsert_of_listFind ⟨reverse (ops.hash d), ops.hash d, d⟩ hfind)
  unfold insert finddata
  simp only [hof, hfixed, hchain]

end HashTable

end WinRadius
