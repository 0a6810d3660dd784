/-
The split-ordered representation, for data with a hash of their own.

# Hashes as keys

Where no two elements have one hash, the comparison is only ever made
between a datum and itself, and the table behaves as one whose comparison
is that of the hashes (`byHash`). For that table every call is orderly, so
`Refines` holds all along, with the hash as the key.

# Elements

`contents` lists the data of all chains. Its hashes are distinct and its
members are what the map has, so two tables for one map have the same
contents up to order: filling a bucket and doubling the table neither lose
an element nor store it twice.

# The walk

The walk fills each bucket before it visits it, the highest first. From
there on the bucket holds what hashes to it and nothing else, since all
above it are filled already.
-/
import WinRadius.Proofs.HashRun

namespace WinRadius

open Lib

variable {α : Type}

-- ======== hashes as keys

/-- The functions of a table that tells its data apart by their hashes. -/
def HashOps.byHash (ops : HashOps α) : HashOps α :=
  { hash := ops.hash
    cmp := some fun a b => ((ops.hash a).toNat : Int) - (ops.hash b).toNat }

namespace HashTable

variable {ops : HashOps α} {ht : HashTable α}

/-- The hash of a datum, as a key. -/
def hashKey (ops : HashOps α) (d : α) : Nat := (ops.hash d).toNat

theorem hashKey_inj {a b : α} (h : hashKey ops a = hashKey ops b) :
    ops.hash a = ops.hash b := UInt32.toNat_inj.mp h

theorem byHash_compares : Compares ops.byHash (hashKey ops) := by
  refine ⟨_, rfl, fun a b => ?_⟩
  unfold hashKey
  omega

theorem byHash_same {a b : α} (h : ops.hash a = ops.hash b) :
    ops.byHash.matches a b = .same := by
  have hkey : hashKey ops a = hashKey ops b := congrArg UInt32.toNat h
  cases hm : ops.byHash.matches a b with
  | before =>
      exact absurd hkey ((byHash_compares.before_iff a b).mp hm).ne'
  | after =>
      exact absurd hkey ((byHash_compares.after_iff a b).mp hm).ne
  | same => rfl

/-- The datum `d` compares equal to what a chain has under its hash. -/
def Alone (ops : HashOps α) (d : α) (chain : List (HashEntry α)) : Prop :=
  ∀ e ∈ chain, e.reversed = reverse (ops.hash d) →
    ops.matches d e.data = ops.byHash.matches d e.data

theorem listFindAt_byHash {d : α} {chain : List (HashEntry α)}
    (h : Alone ops d chain) :
    listFindAt ops (reverse (ops.hash d)) d chain
      = listFindAt ops.byHash (reverse (ops.hash d)) d chain := by
  induction chain with
  | nil => rfl
  | cons cur next ih =>
      obtain ⟨hcur, hnext⟩ := List.forall_mem_cons.mp h
      rw [listFindAt, listFindAt, ih hnext]
      by_cases hrev : cur.reversed = reverse (ops.hash d)
      · rw [hcur hrev]
      · rw [if_neg hrev, if_neg hrev]

theorem listFind_byHash {d : α} {chain : List (HashEntry α)}
    (h : Alone ops d chain) :
    listFind ops (reverse (ops.hash d)) d chain
      = listFind ops.byHash (reverse (ops.hash d)) d chain := by
  have hat := listFindAt_get ops (reverse (ops.hash d)) d chain
  rw [listFindAt_byHash h, listFindAt_get] at hat
  exact Option.map_injective (Option.some_injective _) hat.symm

theorem listInsert_byHash {d : α} {chain : List (HashEntry α)}
    (h : Alone ops d chain) :
    listInsert ops ⟨reverse (ops.hash d), ops.hash d, d⟩ chain
      = listInsert ops.byHash ⟨reverse (ops.hash d), ops.hash d, d⟩
        chain := by
  induction chain with
  | nil => rfl
  | cons cur next ih =>
      obtain ⟨hcur, hnext⟩ := List.forall_mem_cons.mp h
      rw [listInsert, listInsert, ih hnext]
      by_cases hrev : cur.reversed = reverse (ops.hash d)
      · simp only [hcur hrev]
      · simp only [hrev, if_false]

section alone

variable {m : Nat → Option α} {d : α}

/-- What the map has under the hash of `d` compares equal to it. -/
def Lone (ops : HashOps α) (m : Nat → Option α) (d : α) : Prop :=
  ∀ x, m (hashKey ops d) = some x → ops.matches d x = .same

theorem Refines.alone (h : Refines ops.byHash (hashKey ops) ht m)
    (hd : Lone ops m d) :
    Alone ops d (((ht.fixed (ht.entryOf (ops.hash d))).bucket
      (ht.entryOf (ops.hash d))).getD []) := by
  obtain ⟨hk, hs⟩ := fixed_keeps h.wf (ops.hash d)
  obtain ⟨chain, hchain⟩ := Option.isSome_iff_exists.mp hs
  rw [hchain, Option.getD_some]
  intro e he her
  obtain ⟨hek, herev⟩ := hk.wf.filled _ chain hchain e he
  have hhash : ops.hash e.data = ops.hash d := by
    rw [← reverse_inj (herev.symm.trans her)]
    exact hek.symm
  have hm := (h.holds e.data).mp
    ((hk.holds _).mp ⟨_, chain, e, hchain, he, rfl⟩)
  unfold hashKey at hm
  rw [hhash] at hm
  rw [hd e.data hm, byHash_same hhash.symm]

theorem insert_byHash (h : Refines ops.byHash (hashKey ops) ht m)
    (hd : Lone ops m d) :
    insert ops ht d = insert ops.byHash ht d := by
  unfold insert
  simp only
  rw [listInsert_byHash (h.alone hd)]
  rfl

/-- Every call is as one on the table of the hashes. -/
theorem apply_byHash (h : Refines ops.byHash (hashKey ops) ht m)
    (op : HashOp α) (hd : Lone ops m op.data) :
    op.apply ops ht = op.apply ops.byHash ht := by
  have hyank {d : α} (hd : Lone ops m d) :
      yank ops ht d = yank ops.byHash ht d := by
    unfold yank
    simp only
    rw [listFindAt_byHash (h.alone hd)]
    rfl
  cases op with
  | insert d =>
      change Lone ops m d at hd
      simp only [HashOp.apply, insert_byHash h hd]
  | replace d =>
      change Lone ops m d at hd
      have hfix := h.of_keeps (fixed_keeps h.wf (ops.hash d)).1
      have hrep : replace ops ht d = replace ops.byHash ht d := by
        unfold replace
        simp only
        rw [listFindAt_byHash (h.alone hd), insert_byHash hfix hd]
        rfl
      simp only [HashOp.apply, hrep]
  | yank d =>
      change Lone ops m d at hd
      simp only [HashOp.apply, hyank hd]
  | delete d =>
      change Lone ops m d at hd
      simp only [HashOp.apply, delete, hyank hd]
  | finddata d =>
      change Lone ops m d at hd
      have hfind : finddata ops ht d = finddata ops.byHash ht d := by
        unfold finddata
        simp only
        rw [listFind_byHash (h.alone hd)]
        rfl
      simp only [HashOp.apply, hfind]

/-- For that table every call is orderly. -/
theorem byHash_orderly (h : Refines ops.byHash (hashKey ops) ht m)
    (op : HashOp α) : op.Orderly (hashKey ops) ops.byHash m := by
  refine ⟨fun x hx => hashKey_inj (h.keyed _ x hx), ?_⟩
  intro _ hnone k x hx hhash
  have hkey : hashKey ops x = hashKey ops op.data :=
    congrArg UInt32.toNat hhash
  rw [h.keyed k x hx] at hkey
  rw [hkey, hnone] at hx
  cases hx

end alone

-- ======== elements

/-- The data of all chains. -/
def contents (ht : HashTable α) : List α :=
  ht.buckets.flatMap fun b => (b.getD []).map (·.data)

theorem bucket_eq_getElem {i : Nat} (hi : i < ht.buckets.length) :
    ht.bucket i = ht.buckets[i] := by
  unfold bucket
  rw [List.getD_eq_getElem?_getD, List.getElem?_eq_getElem hi,
    Option.getD_some]

theorem mem_contents (x : α) : x ∈ ht.contents ↔ ht.Holds x := by
  unfold contents Holds
  simp only [List.mem_flatMap, List.mem_map]
  constructor
  · rintro ⟨b, hb, e, he, rfl⟩
    obtain ⟨i, hi, rfl⟩ := List.mem_iff_getElem.mp hb
    cases hc : ht.buckets[i] with
    | none =>
        rw [hc] at he
        cases he
    | some chain =>
        rw [hc] at he
        exact ⟨i, chain, e, by rw [bucket_eq_getElem hi, hc], he, rfl⟩
  · rintro ⟨i, chain, e, hb, he, rfl⟩
    have hi : i < ht.buckets.length := lt_of_bucket (by rw [hb]; rfl)
    rw [bucket_eq_getElem hi] at hb
    refine ⟨some chain, ?_, e, he, rfl⟩
    rw [← hb]
    exact List.getElem_mem hi

section contents

variable {m : Nat → Option α} {d : α} {ht' : HashTable α}

/-- No two elements have one hash. -/
theorem Refines.hashes_nodup
    (h : Refines ops.byHash (hashKey ops) ht m) :
    (ht.contents.map (hashKey ops)).Nodup := by
  unfold contents
  rw [List.map_flatMap, List.nodup_flatMap]
  have hbucket {i : Nat} (hi : i < ht.buckets.length)
      {chain : List (HashEntry α)} (hc : ht.buckets[i] = some chain) :
      ht.bucket i = some chain := by
    rw [bucket_eq_getElem hi, hc]
  constructor
  · intro b hb
    obtain ⟨i, hi, rfl⟩ := List.mem_iff_getElem.mp hb
    cases hc : ht.buckets[i] with
    | none => simp
    | some chain =>
        rw [Option.getD_some, List.map_map, List.Nodup, List.pairwise_map]
        have hchain := hbucket hi hc
        refine (h.wf.ordered i chain hchain).imp_of_mem ?_
        intro e e' he he' hprec heq
        obtain ⟨-, rfl⟩ := h.entry_unique hchain he' hchain he heq
        exact Refines.not_precedes_self byHash_compares e hprec
  · rw [List.pairwise_iff_getElem]
    intro i j hi hj hlt k hk hk'
    obtain ⟨x, hx, rfl⟩ := List.mem_map.mp hk
    obtain ⟨x', hx', hkey⟩ := List.mem_map.mp hk'
    obtain ⟨e, he, rfl⟩ := List.mem_map.mp hx
    obtain ⟨e', he', rfl⟩ := List.mem_map.mp hx'
    cases hc : ht.buckets[i] with
    | none =>
        rw [hc] at he
        cases he
    | some g =>
        cases hc' : ht.buckets[j] with
        | none =>
            rw [hc'] at he'
            cases he'
        | some g' =>
            rw [hc] at he
            rw [hc'] at he'
            obtain ⟨hij, -⟩ := h.entry_unique (hbucket hi hc) he
              (hbucket hj hc') he' hkey
            omega

theorem Refines.mem_hashes
    (h : Refines ops.byHash (hashKey ops) ht m) (k : Nat) :
    k ∈ ht.contents.map (hashKey ops) ↔ (m k).isSome = true := by
  rw [List.mem_map, Option.isSome_iff_exists]
  constructor
  · rintro ⟨x, hx, rfl⟩
    exact ⟨x, (h.holds x).mp ((mem_contents x).mp hx)⟩
  · rintro ⟨x, hx⟩
    have hkey := h.keyed k x hx
    subst hkey
    exact ⟨x, (mem_contents x).mpr ((h.holds x).mpr hx), rfl⟩

/-- Two tables for one map. -/
theorem Refines.contents_perm
    (h : Refines ops.byHash (hashKey ops) ht m)
    (h' : Refines ops.byHash (hashKey ops) ht' m) :
    ht'.contents.Perm ht.contents := by
  rw [List.perm_ext_iff_of_nodup (List.Nodup.of_map _ h'.hashes_nodup)
    (List.Nodup.of_map _ h.hashes_nodup)]
  intro x
  rw [mem_contents, mem_contents, h.holds, h'.holds]

/-- A new key is one element more. -/
theorem Refines.contents_stored
    (h : Refines ops.byHash (hashKey ops) ht m)
    (h' : Refines ops.byHash (hashKey ops) ht'
      (stored (hashKey ops) m d))
    (hnone : m (hashKey ops d) = none) :
    ht'.contents.length = ht.contents.length + 1 := by
  have hperm : (ht'.contents.map (hashKey ops)).Perm
      (hashKey ops d :: ht.contents.map (hashKey ops)) := by
    rw [List.perm_ext_iff_of_nodup h'.hashes_nodup
      (List.nodup_cons.mpr ⟨?_, h.hashes_nodup⟩)]
    · intro k
      rw [List.mem_cons, h.mem_hashes, h'.mem_hashes, stored]
      by_cases hk : k = hashKey ops d
      · rw [hk, Function.update_self]
        simp
      · rw [Function.update_of_ne hk]
        simp [hk]
    · rw [h.mem_hashes, hnone]
      simp
  simpa using hperm.length_eq

/-- A key stored again leaves their number. -/
theorem Refines.contents_replaced
    (h : Refines ops.byHash (hashKey ops) ht m)
    (h' : Refines ops.byHash (hashKey ops) ht'
      (stored (hashKey ops) m d))
    (hsome : (m (hashKey ops d)).isSome = true) :
    ht'.contents.length = ht.contents.length := by
  have hperm : (ht'.contents.map (hashKey ops)).Perm
      (ht.contents.map (hashKey ops)) := by
    rw [List.perm_ext_iff_of_nodup h'.hashes_nodup h.hashes_nodup]
    intro k
    rw [h.mem_hashes, h'.mem_hashes, stored]
    by_cases hk : k = hashKey ops d
    · rw [hk, Function.update_self, hsome]
      simp
    · rw [Function.update_of_ne hk]
  simpa using hperm.length_eq

/-- A key removed is one element less. -/
theorem Refines.contents_removed
    (h : Refines ops.byHash (hashKey ops) ht m)
    (h' : Refines ops.byHash (hashKey ops) ht'
      (removed (hashKey ops) m d))
    (hsome : (m (hashKey ops d)).isSome = true) :
    ht.contents.length = ht'.contents.length + 1 := by
  have hperm : (ht.contents.map (hashKey ops)).Perm
      (hashKey ops d :: ht'.contents.map (hashKey ops)) := by
    rw [List.perm_ext_iff_of_nodup h.hashes_nodup
      (List.nodup_cons.mpr ⟨?_, h'.hashes_nodup⟩)]
    · intro k
      rw [List.mem_cons, h.mem_hashes, h'.mem_hashes, removed]
      by_cases hk : k = hashKey ops d
      · rw [hk, Function.update_self, hsome]
        simp
      · rw [Function.update_of_ne hk]
        simp [hk]
    · rw [h'.mem_hashes, removed, Function.update_self]
      simp
  simpa using hperm.length_eq

end contents

-- ======== counting

/-- The counters: elements, when to grow, buckets. -/
def counts (ht : HashTable α) : Nat × Nat × Nat :=
  (ht.numElements, ht.nextGrow, ht.numBuckets)

theorem splitParent_counts (entry : Nat) :
    (ht.splitParent entry).counts = ht.counts := by
  have hfold (others : List (Nat × List (HashEntry α)))
      (t : HashTable α) :
      (others.foldl (fun t p => t.setBucket p.1 p.2) t).counts
        = t.counts := by
    induction others generalizing t with
    | nil => rfl
    | cons p others ih => exact ih _
  unfold splitParent
  simp only
  split
  · exact hfold _ _
  · exact hfold _ _

theorem fixup_counts (fuel entry : Nat) :
    (fixup fuel ht entry).counts = ht.counts := by
  induction fuel generalizing ht entry with
  | zero => rfl
  | succ fuel ih =>
      rw [fixup, splitParent_counts]
      split
      · exact ih _
      · rfl

theorem fixed_counts (entry : Nat) :
    (ht.fixed entry).counts = ht.counts := by
  unfold fixed
  split
  · exact fixup_counts 33 entry
  · rfl

/-- The table with the bucket filled, counter by counter. -/
theorem exists_fixed (ht : HashTable α) (entry : Nat) :
    ∃ t, t = ht.fixed entry ∧ t.counts = ht.counts
      ∧ t.numElements = ht.numElements ∧ t.nextGrow = ht.nextGrow
      ∧ t.numBuckets = ht.numBuckets := by
  have hfix := @fixed_counts _ ht entry
  have hfields := hfix
  simp only [counts, Prod.mk.injEq] at hfields
  exact ⟨_, rfl, hfix, hfields⟩

/-- An insertion counts what it stores, and may double the table. -/
theorem insert_counts (ops : HashOps α) (ht : HashTable α) (d : α) :
    (insert ops ht d).1.counts
      = if (insert ops ht d).2 = true then
          if ht.nextGrow ≤ ht.numElements + 1 then
            (ht.numElements + 1, ht.nextGrow * 2, ht.numBuckets * 2)
          else (ht.numElements + 1, ht.nextGrow, ht.numBuckets)
        else ht.counts := by
  obtain ⟨t, hteq, hfix, hn, hg, hb⟩ :=
    exists_fixed ht (ht.entryOf (ops.hash d))
  unfold insert
  simp only [← hteq]
  cases listInsert ops ⟨reverse (ops.hash d), ops.hash d, d⟩
      ((t.bucket (ht.entryOf (ops.hash d))).getD []) with
  | none => exact hfix
  | some chain =>
      simp only [setBucket, if_true, ← hn, ← hg, ← hb]
      by_cases hgrow : t.nextGrow ≤ t.numElements + 1
      · simp only [hgrow, if_true]
        rfl
      · simp only [hgrow, if_false]
        rfl

theorem yank_counts (ops : HashOps α) (ht : HashTable α) (d : α) :
    (yank ops ht d).1.counts
      = if (yank ops ht d).2.isSome = true then
          (ht.numElements - 1, ht.nextGrow, ht.numBuckets)
        else ht.counts := by
  obtain ⟨t, hteq, hfix, hn, hg, hb⟩ :=
    exists_fixed ht (ht.entryOf (ops.hash d))
  unfold yank
  simp only [← hteq]
  cases hat : listFindAt ops (reverse (ops.hash d)) d
      ((t.bucket (ht.entryOf (ops.hash d))).getD []) with
  | none => exact hfix
  | some node =>
      obtain ⟨l, e, r, hchain, rfl, -⟩ := listFindAt_some hat
      have hget : (l ++ e :: r)[l.length]? = some e := by simp
      simp only [hchain, hget, Option.map_some, Option.isSome_some,
        if_true, setBucket, counts, hn, hg, hb]

/-- A replaced datum leaves the counters. -/
theorem replace_counts {ops : HashOps α} {ht : HashTable α} {d : α}
    (h : (replace ops ht d).2.1.isSome = true) :
    (replace ops ht d).1.counts = ht.counts := by
  have hfix := @fixed_counts _ ht (ht.entryOf (ops.hash d))
  unfold replace at h ⊢
  simp only at h ⊢
  cases hat : listFindAt ops (reverse (ops.hash d)) d
      (((ht.fixed (ht.entryOf (ops.hash d))).bucket
        (ht.entryOf (ops.hash d))).getD []) with
  | none =>
      rw [hat] at h
      cases h
  | some node => exact hfix

-- ======== the walk

/-- A bucket in use stays as it is when one below it is filled. -/
theorem splitParent_above (h : ht.Wf ops) {entry : Nat}
    {chain : List (HashEntry α)}
    (hp : ht.bucket (parentOf entry) = some chain)
    (hentry : entry < ht.buckets.length) {c : Nat}
    (hc : (ht.bucket c).isSome = true) (hne : c ≠ parentOf entry) :
    (ht.splitParent entry).bucket c = ht.bucket c :=
  (splitParent_spec h hp hentry).2.1 c (h.not_touched hp hc hne)

theorem parentOf_le {e : Nat} (h : e < 2 ^ 32) : parentOf e ≤ e := by
  by_cases h0 : e = 0
  · subst h0
    decide
  · exact (parentOf_lt h0 h).le

/-- A bucket in use stays in use, and one above stays as it is. -/
theorem fixup_above {fuel entry : Nat} (hfuel : fuel ≤ 32)
    (h : ht.Wf ops) (hlt : entry < 2 ^ fuel)
    (hentry : entry < ht.buckets.length)
    (hnone : (ht.bucket entry).isSome = false) {c : Nat}
    (hc : (ht.bucket c).isSome = true) (hgt : entry < c) :
    (fixup (fuel + 1) ht entry).bucket c = ht.bucket c := by
  induction fuel generalizing ht entry with
  | zero =>
      obtain rfl : entry = 0 := by omega
      rw [h.root] at hnone
      cases hnone
  | succ fuel ih =>
      have h32 : entry < 2 ^ 32 :=
        lt_of_lt_of_le hlt (Nat.pow_le_pow_right (by omega) hfuel)
      have hle := parentOf_le h32
      have hpar := parentOf_lt_two_pow hlt (by omega)
      rw [fixup]
      by_cases hps : (ht.bucket (parentOf entry)).isNone = true
      · have hpn : (ht.bucket (parentOf entry)).isSome = false := by
          simpa using hps
        obtain ⟨hk, hs⟩ := fixup_keeps (by omega) h hpar (by omega) hpn
        obtain ⟨chain, hchain⟩ := Option.isSome_iff_exists.mp hs
        have hsame := ih (by omega) h hpar (by omega) hpn hc (by omega)
        rw [if_pos hps, splitParent_above hk.wf hchain
          (by rw [hk.length_eq]; exact hentry) (by rw [hsame]; exact hc)
          (by omega), hsame]
      · obtain ⟨chain, hchain⟩ : ∃ chain,
            ht.bucket (parentOf entry) = some chain := by
          rw [← Option.ne_none_iff_exists']
          simpa using hps
        rw [if_neg hps, splitParent_above h hchain hentry hc (by omega)]

theorem fixed_above (h : ht.Wf ops) {entry : Nat}
    (hentry : entry < ht.buckets.length) (h32 : entry < 2 ^ 32) {c : Nat}
    (hc : (ht.bucket c).isSome = true) (hgt : entry < c) :
    (ht.fixed entry).bucket c = ht.bucket c := by
  unfold fixed
  by_cases hn : (ht.bucket entry).isNone = true
  · rw [if_pos hn]
    exact fixup_above (le_refl 32) h h32 hentry (by simpa using hn) hc hgt
  · rw [if_neg hn]

/-- The order of the walk over the buckets below `i`. -/
def walkOrder : Nat → HashTable α → List (HashEntry α)
  | 0, _ => []
  | i + 1, ht =>
      ((ht.fixed i).bucket i).getD [] ++ walkOrder i (ht.fixed i)

section order

variable {σ : Type} (callback : σ → α → σ × Int)

/-- The callback on one datum after the other, until it returns something
other than 0. -/
def visit : σ → List α → σ × Int
  | context, [] => (context, 0)
  | context, d :: rest =>
      let (context, rcode) := callback context d
      if rcode ≠ 0 then (context, rcode) else visit context rest

theorem walkChain_eq (context : σ) (chain : List (HashEntry α)) :
    walkChain callback context chain
      = visit callback context (chain.map (·.data)) := by
  induction chain generalizing context with
  | nil => rfl
  | cons e chain ih =>
      simp only [walkChain, List.map_cons, visit, ih]

theorem visit_append (context : σ) (l r : List α) :
    visit callback context (l ++ r)
      = if (visit callback context l).2 ≠ 0 then visit callback context l
        else visit callback (visit callback context l).1 r := by
  induction l generalizing context with
  | nil => simp [visit]
  | cons d l ih =>
      rw [List.cons_append, visit, visit]
      simp only
      by_cases hr : (callback context d).2 ≠ 0
      · simp only [if_pos hr]
      · simp only [if_neg hr]
        exact ih _

/-- Whatever the callback does, the walk is in that order. -/
theorem walkFrom_eq (i : Nat) (ht : HashTable α) (context : σ) :
    (walkFrom callback i ht context).2
      = visit callback context ((walkOrder i ht).map (·.data)) := by
  induction i generalizing ht context with
  | zero => rfl
  | succ i ih =>
      rw [walkFrom, walkOrder, List.map_append, visit_append,
        ← walkChain_eq]
      simp only
      split
      · rfl
      · exact ih _ _

theorem walkFrom_keeps (h : ht.Wf ops) (h32 : ht.buckets.length ≤ 2 ^ 32)
    {i : Nat} (hi : i ≤ ht.buckets.length) (context : σ) :
    Keeps ops ht (walkFrom callback i ht context).1
      ∧ (walkFrom callback i ht context).1.counts = ht.counts := by
  induction i generalizing ht context with
  | zero => exact ⟨.refl h, rfl⟩
  | succ i ih =>
      obtain ⟨hk, -⟩ := @fixed_keeps_at _ _ _ h i (by omega) (by omega)
      have hc := @fixed_counts _ ht i
      rw [walkFrom]
      simp only
      split
      · exact ⟨hk, hc⟩
      · obtain ⟨hk', hc'⟩ := ih hk.wf (by rw [hk.length_eq]; exact h32)
          (by rw [hk.length_eq]; omega)
          (walkChain callback context
            (((ht.fixed i).bucket i).getD [])).1
        exact ⟨hk.trans hk', hc'.trans hc⟩

end order

theorem le_of_testBit_subset {a b : Nat}
    (h : ∀ i, a.testBit i = true → b.testBit i = true) : a ≤ b := by
  have hand : a &&& b = a := by
    apply Nat.eq_of_testBit_eq
    intro i
    rw [Nat.testBit_and]
    cases ha : a.testBit i with
    | false => rfl
    | true => rw [h i ha]; rfl
  rw [← hand]
  exact Nat.and_le_right

/-- With all buckets above it in use, a bucket holds just the data that
hash to it. -/
theorem Wf.mem_chain_iff (h : ht.Wf ops) {i : Nat}
    (hfull : ∀ c, i ≤ c → c < ht.buckets.length →
      (ht.bucket c).isSome = true)
    {chain : List (HashEntry α)} (hchain : ht.bucket i = some chain)
    (x : α) :
    x ∈ chain.map (·.data) ↔ ht.Holds x ∧ ht.entryOf (ops.hash x) = i := by
  have hin {c : Nat} (hc : c < ht.buckets.length) (hle : i ≤ c) :
      ht.Nearest c c := .here (hfull c hle hc)
  constructor
  · intro hx
    obtain ⟨e, he, rfl⟩ := List.mem_map.mp hx
    refine ⟨⟨i, chain, e, hchain, he, rfl⟩, ?_⟩
    have hnear := h.nearest i chain hchain e he
    rw [(h.filled i chain hchain e he).1] at hnear
    obtain ⟨hlt, h32⟩ := h.entryOf_lt (ops.hash e.data)
    have hle : i ≤ ht.entryOf (ops.hash e.data) :=
      le_of_testBit_subset (hnear.subset h32)
    exact (hin hlt hle).unique hnear
  · rintro ⟨⟨b, g, e, hb, he, rfl⟩, hi⟩
    have hnear := h.nearest b g hb e he
    rw [(h.filled b g hb e he).1, hi] at hnear
    obtain rfl := (Nearest.here (by rw [hchain]; rfl)).unique hnear
    rw [hchain] at hb
    cases hb
    exact List.mem_map_of_mem he

section visited

variable {m : Nat → Option α}

/-- The walk below `i` visits what hashes to a bucket below `i`, each
datum once. The induction goes down with the walk: the buckets from `i` on
are in use. -/
theorem Refines.walkOrder_spec
    (h : Refines ops.byHash (hashKey ops) ht m)
    (h32 : ht.buckets.length ≤ 2 ^ 32) {i : Nat}
    (hi : i ≤ ht.buckets.length)
    (hfull : ∀ c, i ≤ c → c < ht.buckets.length →
      (ht.bucket c).isSome = true) :
    (∀ x, x ∈ (walkOrder i ht).map (·.data)
      ↔ ht.Holds x ∧ ht.entryOf (ops.hash x) < i)
      ∧ (((walkOrder i ht).map (·.data)).map (hashKey ops)).Nodup := by
  induction i generalizing ht with
  | zero =>
      refine ⟨fun x => ?_, List.nodup_nil⟩
      simp [walkOrder]
  | succ i ih =>
      obtain ⟨hk, hs⟩ := @fixed_keeps_at _ _ _ h.wf i (by omega)
        (by omega)
      have hfix := h.of_keeps hk
      obtain ⟨chain, hchain⟩ := Option.isSome_iff_exists.mp hs
      have hfull' : ∀ c, i ≤ c → c < (ht.fixed i).buckets.length →
          ((ht.fixed i).bucket c).isSome = true := by
        intro c hc hlt
        rw [hk.length_eq] at hlt
        by_cases hci : c = i
        · subst hci
          exact hs
        · have hcs := hfull c (by omega) hlt
          rw [fixed_above h.wf (by omega) (by omega) hcs (by omega)]
          exact hcs
      obtain ⟨hmem, hnd⟩ := ih hfix (by rw [hk.length_eq]; exact h32)
        (by rw [hk.length_eq]; omega) hfull'
      have hmemc (x : α) : x ∈ chain.map (·.data)
          ↔ (ht.fixed i).Holds x
            ∧ (ht.fixed i).entryOf (ops.hash x) = i :=
        hfix.wf.mem_chain_iff hfull' hchain x
      rw [walkOrder, hchain, Option.getD_some]
      refine ⟨fun x => ?_, ?_⟩
      · rw [List.map_append, List.mem_append, hmemc, hmem, ← and_or_left,
          hk.holds, hk.entryOf_eq]
        exact and_congr_right fun _ => by omega
      · rw [List.map_append, List.map_append, List.nodup_append']
        refine ⟨?_, hnd, ?_⟩
        · rw [List.map_map, List.Nodup, List.pairwise_map]
          refine (hfix.wf.ordered i chain hchain).imp_of_mem ?_
          intro e e' he he' hprec heq
          obtain ⟨-, rfl⟩ := hfix.entry_unique hchain he' hchain he heq
          exact Refines.not_precedes_self byHash_compares e hprec
        · intro k hk1 hk2
          obtain ⟨x, hx, rfl⟩ := List.mem_map.mp hk1
          obtain ⟨y, hy, hkey⟩ := List.mem_map.mp hk2
          have hx' := ((hmemc x).mp hx).2
          have hy' := ((hmem y).mp hy).2
          rw [hashKey_inj hkey] at hy'
          omega

/-- The whole walk. -/
theorem Refines.walk_perm (h : Refines ops.byHash (hashKey ops) ht m)
    (h32 : ht.numBuckets ≤ 2 ^ 32) :
    ((walkOrder ht.numBuckets ht).map (·.data)).Perm ht.contents := by
  have hlen := h.wf.length_eq
  obtain ⟨hmem, hnd⟩ := h.walkOrder_spec (i := ht.numBuckets)
    (by omega) (by omega) (fun c hc hlt => by omega)
  rw [List.perm_ext_iff_of_nodup (List.Nodup.of_map _ hnd)
    (List.Nodup.of_map _ h.hashes_nodup)]
  intro x
  rw [hmem, mem_contents]
  have hlt := (h.wf.entryOf_lt (ops.hash x)).1
  exact and_iff_left (by omega)

end visited

-- ======== runs

section run

variable {m : Nat → Option α}

/-- What holds after any calls: the table stands for the map, its counters
agree with it, and its buckets have 32 bit numbers. -/
structure Counted (ops : HashOps α) (ht : HashTable α)
    (m : Nat → Option α) : Prop where
  refines : Refines ops.byHash (hashKey ops) ht m
  count : ht.numElements = ht.contents.length
  growth : ht.nextGrow * 2 = ht.numBuckets * 5
  small : ht.numBuckets ≤ 2 ^ 32

/-- There are no more elements than hashes. -/
theorem Refines.contents_le
    (h : Refines ops.byHash (hashKey ops) ht m) :
    ht.contents.length ≤ 2 ^ 32 := by
  have hsub : (ht.contents.map (hashKey ops)).toFinset
      ⊆ Finset.range (2 ^ 32) := by
    intro k hk
    obtain ⟨x, -, rfl⟩ := List.mem_map.mp (List.mem_toFinset.mp hk)
    exact Finset.mem_range.mpr (ops.hash x).toNat_lt
  have hcard := Finset.card_le_card hsub
  rw [List.toFinset_card_of_nodup h.hashes_nodup, List.length_map,
    Finset.card_range] at hcard
  exact hcard

/-- The counters of a table that has one element more. -/
theorem Counted.inserted {d : α} (h : Counted ops ht m)
    (hnone : m (hashKey ops d) = none) :
    Counted ops (insert ops.byHash ht d).1
      (stored (hashKey ops) m d) := by
  have hnew := (byHash_orderly h.refines (.insert d)).2 rfl hnone
  have hr := h.refines.insert byHash_compares hnone hnew
  have hres := (h.refines.insert_result byHash_compares
    (byHash_orderly h.refines (.insert d)).1).1
  change (insert ops.byHash ht d).2 = (m (hashKey ops d)).isNone at hres
  rw [hnone, Option.isNone_none] at hres
  have hlen := h.refines.contents_stored hr hnone
  have hle := hr.contents_le
  have hc := insert_counts ops.byHash ht d
  rw [hres, if_pos rfl] at hc
  have hcount := h.count
  have hgrowth := h.growth
  have hsmall := h.small
  split at hc
  · simp only [counts, Prod.mk.injEq] at hc
    refine ⟨hr, ?_, ?_, ?_⟩
    · omega
    · omega
    · omega
  · simp only [counts, Prod.mk.injEq] at hc
    refine ⟨hr, ?_, ?_, ?_⟩
    · omega
    · omega
    · omega

theorem Counted.of_counts {ht' : HashTable α} {m' : Nat → Option α}
    (h : Counted ops ht m)
    (hr : Refines ops.byHash (hashKey ops) ht' m')
    (hlen : ht'.contents.length = ht.contents.length)
    (hc : ht'.counts = ht.counts) : Counted ops ht' m' := by
  simp only [counts, Prod.mk.injEq] at hc
  obtain ⟨hn, hg, hb⟩ := hc
  exact ⟨hr, by rw [hn, hlen]; exact h.count, by rw [hg, hb]; exact h.growth,
    by rw [hb]; exact h.small⟩

theorem Counted.yanked {d : α} (h : Counted ops ht m)
    (hagree : HashesAgree ops.byHash (hashKey ops) m d)
    (hr : Refines ops.byHash (hashKey ops) (yank ops.byHash ht d).1
      (removed (hashKey ops) m d)) :
    Counted ops (yank ops.byHash ht d).1 (removed (hashKey ops) m d) := by
  have hres := (h.refines.yank byHash_compares hagree).2
  have hc := yank_counts ops.byHash ht d
  rw [hres] at hc
  cases hm : m (hashKey ops d) with
  | none =>
      rw [hm, if_neg (by simp)] at hc
      have hsame : removed (hashKey ops) m d = m := by
        unfold removed
        rw [← hm, Function.update_eq_self]
      rw [hsame] at hr ⊢
      exact h.of_counts hr (h.refines.contents_perm hr).length_eq hc
  | some x =>
      rw [hm, Option.isSome_some, if_pos rfl] at hc
      simp only [counts, Prod.mk.injEq] at hc
      have hlen := h.refines.contents_removed hr (by rw [hm]; rfl)
      have hcount := h.count
      have hgrowth := h.growth
      have hsmall := h.small
      refine ⟨hr, ?_, ?_, ?_⟩
      · omega
      · omega
      · omega

/-- A call on the table of the hashes. -/
theorem Counted.apply (h : Counted ops ht m) (op : HashOp α) :
    Counted ops (op.apply ops.byHash ht).1
      (op.spec (hashKey ops) m).1 := by
  have hord := byHash_orderly h.refines op
  have hr := HashOp.apply_refines byHash_compares h.refines op hord
  have hagree := hord.1
  cases op with
  | insert d =>
      change HashesAgree ops.byHash (hashKey ops) m d at hagree
      cases hm : m (hashKey ops d) with
      | none =>
          simp only [HashOp.spec, hm]
          exact h.inserted hm
      | some x =>
          have hres := (h.refines.insert_result byHash_compares hagree).1
          rw [hm, Option.isNone_some] at hres
          have hc := insert_counts ops.byHash ht d
          rw [hres, if_neg (by simp)] at hc
          simp only [HashOp.spec, hm, Option.isSome_some, if_true] at hr ⊢
          exact h.of_counts hr (h.refines.contents_perm hr).length_eq hc
  | replace d =>
      change HashesAgree ops.byHash (hashKey ops) m d at hagree
      cases hm : m (hashKey ops d) with
      | none =>
          obtain ⟨h', htab, -⟩ := h.refines.replace_absent
            byHash_compares hagree hm
          have hfix := h.of_counts h'
            (h.refines.contents_perm h').length_eq (fixed_counts _)
          have hins := hfix.inserted hm
          simp only [HashOp.apply, htab]
          exact hins
      | some x =>
          have hsome : (m (hashKey ops d)).isSome = true := by
            rw [hm]
            rfl
          have hres := (h.refines.replace_found byHash_compares hagree
            hsome).2
          refine h.of_counts hr (h.refines.contents_replaced hr hsome)
            (replace_counts ?_)
          rw [hres, hm]
          rfl
  | yank d => exact h.yanked hagree hr
  | delete d => exact h.yanked hagree hr
  | finddata d =>
      exact h.of_counts hr (h.refines.contents_perm hr).length_eq
        (fixed_counts _)

theorem create_counted : Counted ops (hashTableCreate α)
    fun _ => none := by
  refine ⟨HashOp.create_refines, ?_, rfl, ?_⟩
  · unfold contents hashTableCreate
    simp
  · unfold hashTableCreate
    norm_num

/-- A call where no two elements have one hash: what is stored under the
hash of its datum compares equal to it. A walk is a call as well. -/
def DistinctStep (ops : HashOps α)
    (s t : HashTable α × (Nat → Option α)) : Prop :=
  (∃ op : HashOp α, Lone ops s.2 op.data
    ∧ t = ((op.apply ops s.1).1, (op.spec (hashKey ops) s.2).1))
  ∨ ∃ (σ : Type) (callback : σ → α → σ × Int) (context : σ),
    t = ((s.1.walk callback context).1, s.2)

theorem Counted.walk {σ : Type} (h : Counted ops ht m)
    (callback : σ → α → σ × Int) (context : σ) :
    Counted ops (ht.walk callback context).1 m := by
  have hlen := h.refines.wf.length_eq
  have hsmall := h.small
  obtain ⟨hk, hc⟩ := walkFrom_keeps callback h.refines.wf (by omega)
    (i := ht.numBuckets) (by omega) context
  have hr := h.refines.of_keeps hk
  exact h.of_counts hr (h.refines.contents_perm hr).length_eq hc

theorem distinct_counted
    (h : Reaches (DistinctStep ops) (hashTableCreate α, fun _ => none)
      (ht, m)) : Counted ops ht m := by
  refine h.invariant (fun s => Counted ops s.1 s.2) create_counted ?_
  rintro s t hs (⟨op, hop, rfl⟩ | ⟨σ, callback, context, rfl⟩)
  · simp only [apply_byHash hs.refines op hop]
    exact hs.apply op
  · exact hs.walk callback context

/-- The split-ordered representation of the elements of a map. -/
structure Represented (ops : HashOps α) (ht : HashTable α)
    (m : Nat → Option α) : Prop where
  /-- The chains have the elements of the map, each once. -/
  elements : ∀ x, x ∈ ht.contents ↔ m (hashKey ops x) = some x
  once : (ht.contents.map (hashKey ops)).Nodup
  /-- A chain is in the order of the reversed hashes. -/
  sorted : ∀ b chain, ht.bucket b = some chain →
    (chain.map fun e => reverse (ops.hash e.data)).Pairwise (· < ·)
  /-- An element is in the chain of the nearest bucket in use and in no
  other. -/
  located : ∀ x ∈ ht.contents, ∃ a,
    ht.Nearest (ht.entryOf (ops.hash x)) a
      ∧ ∀ b, (∃ chain, ht.bucket b = some chain
        ∧ x ∈ chain.map (·.data)) ↔ b = a
  /-- Filling a bucket and doubling the table lose and double nothing. -/
  fixup : ∀ entry, entry < ht.numBuckets →
    (ht.fixed entry).contents.Perm ht.contents
  grow : ht.grow.contents.Perm ht.contents
  count : ht.numElements = ht.contents.length
  /-- A walk visits the elements in some order, each once. -/
  walk : ∃ visits : List α, visits.Perm ht.contents
    ∧ ∀ (σ : Type) (callback : σ → α → σ × Int) (context : σ),
      (ht.walk callback context).2 = visit callback context visits

theorem grow_contents : ht.grow.contents = ht.contents := by
  unfold contents HashTable.grow
  simp

/-- After any calls on data with a hash of their own. -/
theorem distinct_represented
    (h : Reaches (DistinctStep ops) (hashTableCreate α, fun _ => none)
      (ht, m)) : Represented ops ht m := by
  have hc := distinct_counted h
  have hr := hc.refines
  have hlen := hr.wf.length_eq
  have hsmall := hc.small
  refine ⟨fun x => ?_, hr.hashes_nodup, ?_, ?_, ?_, ?_, hc.count, ?_⟩
  · rw [mem_contents, hr.holds]
  · intro b chain hb
    rw [List.pairwise_map]
    refine (hr.wf.ordered b chain hb).imp_of_mem ?_
    intro e f he hf hprec
    obtain ⟨hek, her⟩ := hr.wf.filled b chain hb e he
    obtain ⟨hfk, hfr⟩ := hr.wf.filled b chain hb f hf
    rw [hek] at her
    rw [hfk] at hfr
    change e.reversed = reverse (ops.hash e.data) at her
    change f.reversed = reverse (ops.hash f.data) at hfr
    rw [← her, ← hfr]
    rcases hprec with hlt | ⟨heq, hafter⟩
    · exact hlt
    · rw [her, hfr] at heq
      rw [byHash_same (reverse_inj heq).symm] at hafter
      cases hafter
  · intro x hx
    obtain ⟨a, chain, e, ha, he, rfl⟩ := (mem_contents x).mp hx
    have hnear := hr.wf.nearest a chain ha e he
    rw [(hr.wf.filled a chain ha e he).1] at hnear
    refine ⟨a, hnear, fun b => ⟨?_, ?_⟩⟩
    · rintro ⟨g, hb, hmem⟩
      obtain ⟨f, hf, hfe⟩ := List.mem_map.mp hmem
      exact (hr.entry_unique ha he hb hf (congrArg _ hfe)).1
    · rintro rfl
      exact ⟨chain, ha, List.mem_map_of_mem he⟩
  · intro entry hentry
    obtain ⟨hk, -⟩ := @fixed_keeps_at _ _ _ hr.wf entry (by omega)
      (by omega)
    exact hr.contents_perm (hr.of_keeps hk)
  · rw [grow_contents]
  · exact ⟨_, hr.walk_perm hsmall, fun σ callback context =>
      walkFrom_eq callback _ _ _⟩

end run

/-- Numbers as their own hashes, in a table without a comparison. -/
def numbersOps : HashOps Nat :=
  { hash := UInt32.ofNat
    cmp := none }

/-- A table and the map beside it, behind some operations. -/
def numbersAfter (calls : List (HashOp Nat)) :
    HashTable Nat × (Nat → Option Nat) :=
  calls.foldl (fun s op => ((op.apply numbersOps s.1).1,
    (op.spec (hashKey numbersOps) s.2).1)) (hashTableCreate Nat, fun _ => none)

theorem numbersAfter_reached (calls : List (HashOp Nat)) :
    Reaches (DistinctStep numbersOps) (hashTableCreate Nat, fun _ => none)
      ((numbersAfter calls).1, (numbersAfter calls).2) := by
  induction calls using List.reverseRecOn with
  | nil => exact Reaches.refl
  | append_singleton calls op ih =>
      refine ih.step (.inl ⟨op, fun x _ => rfl, ?_⟩)
      unfold numbersAfter
      rw [List.foldl_append]
      rfl

/-- Enough numbers for the table to double, one of which is deleted. -/
def manyNumbers : List (HashOp Nat) :=
  (List.range 161).map .insert ++ [.delete 5]

theorem manyNumbers_represented :
    Represented numbersOps (numbersAfter manyNumbers).1
        (numbersAfter manyNumbers).2
      ∧ (numbersAfter manyNumbers).1.numBuckets = 128
      ∧ (numbersAfter manyNumbers).1.numElements = 160
      ∧ 5 ∉ (numbersAfter manyNumbers).1.contents
      ∧ 6 ∈ (numbersAfter manyNumbers).1.contents :=
  ⟨@distinct_represented _ numbersOps _ _ (numbersAfter_reached manyNumbers),
    by decide +kernel, by decide +kernel, by decide +kernel,
    by decide +kernel⟩

end HashTable

end WinRadius
