/-
Runs of a hash table against the finite map it stands for.

# The map

The map takes a key of the comparison to the datum stored under it. Each
operation has its meaning there (`HashOp.spec`); `Refines` ties a table to
a map.

# The condition

A search gives up at the first entry of its hash that compares smaller,
while `list_insert` leaves such an entry in front of the new one. So the
map is only kept by insertions of data that compare smaller than all that
is stored under their hash (`Orderly`). A hash that tells equal data apart
hides a datum in the same way; `Orderly` excludes it too.
-/
import WinRadius.Lib.Run
import WinRadius.Proofs.HashMap

namespace WinRadius

open Lib

namespace HashTable

variable {α : Type} {ops : HashOps α} {ht : HashTable α}

-- ======== the position

variable (ops) in
/-- The position `list_find` stops at is that of the entry it returns. -/
theorem listFindAt_get (reversed : Nat) (d : α)
    (chain : List (HashEntry α)) :
    (listFindAt ops reversed d chain).map (chain[·]?)
      = (listFind ops reversed d chain).map some := by
  induction chain with
  | nil => rfl
  | cons cur next ih =>
      have hnext : ((listFindAt ops reversed d next).map (· + 1)).map
          ((cur :: next)[·]?) = (listFind ops reversed d next).map some := by
        rw [← ih, Option.map_map]
        rfl
      rw [listFindAt, listFind]
      by_cases hrev : cur.reversed = reversed
      · rw [if_pos hrev, if_pos hrev]
        cases ops.matches d cur.data with
        | before => rfl
        | same => rfl
        | after => exact hnext
      · rw [if_neg hrev, if_neg hrev]
        by_cases hlt : reversed < cur.reversed
        · rw [if_pos hlt, if_pos hlt]
          rfl
        · rw [if_neg hlt, if_neg hlt]
          exact hnext

theorem listFindAt_none {reversed : Nat} {d : α}
    {chain : List (HashEntry α)}
    (h : listFindAt ops reversed d chain = none) :
    listFind ops reversed d chain = none := by
  have hget := listFindAt_get ops reversed d chain
  rw [h] at hget
  exact Option.map_eq_none_iff.mp hget.symm

/-- The chain around the node at that position. -/
theorem listFindAt_some {reversed node : Nat} {d : α}
    {chain : List (HashEntry α)}
    (h : listFindAt ops reversed d chain = some node) :
    ∃ l e r, chain = l ++ e :: r ∧ l.length = node
      ∧ listFind ops reversed d chain = some e := by
  have hget := listFindAt_get ops reversed d chain
  rw [h] at hget
  obtain ⟨e, he, hsome⟩ := Option.map_eq_some_iff.mp hget.symm
  obtain ⟨hlt, hnode⟩ := List.getElem?_eq_some_iff.mp hsome.symm
  refine ⟨chain.take node, e, chain.drop (node + 1), ?_, by simp; omega,
    he⟩
  rw [← hnode, ← List.drop_eq_getElem_cons hlt, List.take_append_drop]

theorem modify_append (l r : List (HashEntry α)) (e : HashEntry α)
    (f : HashEntry α → HashEntry α) :
    (l ++ e :: r).modify l.length f = l ++ f e :: r := by
  induction l with
  | nil => rfl
  | cons x l ih => simp [ih]

theorem listDelete_append (l r : List (HashEntry α)) (e : HashEntry α) :
    listDelete (l ++ e :: r) l.length = l ++ r := by
  unfold listDelete
  rw [List.eraseIdx_append_of_length_le le_rfl]
  simp

-- ======== the map

section refine

variable {κ : Type} [LinearOrder κ]

/-- The comparison is that of the order of the keys. -/
structure Compares (ops : HashOps α) (key : α → κ) : Prop where
  given : ∃ cmp, ops.cmp = some cmp
    ∧ ∀ a b, (0 < cmp a b ↔ key b < key a) ∧ (cmp a b < 0 ↔ key a < key b)

variable {key : α → κ}

theorem Compares.before_iff (h : Compares ops key) (a b : α) :
    ops.matches a b = .before ↔ key b < key a := by
  obtain ⟨cmp, hops, hcmp⟩ := h.given
  unfold HashOps.matches
  rw [hops, ← (hcmp a b).1]
  by_cases hpos : 0 < cmp a b
  · simp [hpos]
  · by_cases hneg : cmp a b < 0
    · simp [hpos, hneg]
    · simp [hpos, hneg]

theorem Compares.after_iff (h : Compares ops key) (a b : α) :
    ops.matches a b = .after ↔ key a < key b := by
  obtain ⟨cmp, hops, hcmp⟩ := h.given
  unfold HashOps.matches
  rw [hops, ← (hcmp a b).2]
  by_cases hpos : 0 < cmp a b
  · have hneg : ¬cmp a b < 0 := by omega
    simp [hpos, hneg]
  · by_cases hneg : cmp a b < 0
    · simp [hpos, hneg]
    · simp [hpos, hneg]

/-- The table stands for the map. -/
structure Refines (ops : HashOps α) (key : α → κ) (ht : HashTable α)
    (m : κ → Option α) : Prop where
  wf : ht.Wf ops
  holds : ∀ x, ht.Holds x ↔ m (key x) = some x
  keyed : ∀ k x, m k = some x → key x = k

/-- The datum stored under the key of `d`, if any, has the hash of `d`. -/
def HashesAgree (ops : HashOps α) (key : α → κ) (m : κ → Option α)
    (d : α) : Prop :=
  ∀ x, m (key d) = some x → ops.hash x = ops.hash d

variable {m : κ → Option α} {d : α}

theorem Refines.lawful (hcmp : Compares ops key)
    (h : Refines ops key ht m) (hd : HashesAgree ops key m d) :
    Lawful ops (fun x => ht.Holds x ∨ x = d) key := by
  refine ⟨fun a b _ _ => hcmp.before_iff a b,
    fun a b _ _ => hcmp.after_iff a b, ?_⟩
  rintro a b (ha | rfl) (hb | rfl) hkey
  · have heq := (h.holds a).mp ha
    rw [hkey, (h.holds b).mp hb] at heq
    cases heq
    rfl
  · refine hd a ?_
    rw [← hkey]
    exact (h.holds a).mp ha
  · refine (hd b ?_).symm
    rw [hkey]
    exact (h.holds b).mp hb
  · rfl

omit [LinearOrder κ] in
theorem Refines.of_keeps {ht' : HashTable α} (h : Refines ops key ht m)
    (hk : Keeps ops ht ht') : Refines ops key ht' m :=
  ⟨hk.wf, fun x => (hk.holds x).trans (h.holds x), h.keyed⟩

/-- `fr_hash_table_finddata` is a lookup in the map. -/
theorem Refines.finddata (hcmp : Compares ops key)
    (h : Refines ops key ht m) (hd : HashesAgree ops key m d) :
    Refines ops key (finddata ops ht d).1 m
      ∧ (finddata ops ht d).2 = m (key d) := by
  obtain ⟨hk, hfind⟩ := finddata_spec (h.lawful hcmp hd) h.wf
    (fun _ hx => Or.inl hx) (Or.inr rfl)
  refine ⟨h.of_keeps hk, Option.ext fun x => ?_⟩
  rw [hfind, h.holds]
  constructor
  · rintro ⟨hx, hkey⟩
    rw [← hkey]
    exact hx
  · intro hx
    have hkey := h.keyed _ _ hx
    rw [hkey]
    exact ⟨hx, rfl⟩

-- ======== inserting

/-- In a chain in order an equal entry is met before a smaller one. -/
theorem listInsert_equal (hcmp : Compares ops key) (node : HashEntry α)
    {chain : List (HashEntry α)} (hord : chain.Pairwise (Precedes ops))
    {e : HashEntry α} (he : e ∈ chain)
    (her : e.reversed = node.reversed)
    (hkey : key e.data = key node.data) :
    listInsert ops node chain = none := by
  induction chain with
  | nil => cases he
  | cons cur next ih =>
      rw [List.pairwise_cons] at hord
      have hbehind (hmem : e ∈ next) : cur.reversed < node.reversed
          ∨ cur.reversed = node.reversed ∧ key node.data < key cur.data := by
        rw [← her, ← hkey]
        exact (hord.1 e hmem).imp id (And.imp id (hcmp.after_iff _ _).mp)
      rw [listInsert]
      rcases List.mem_cons.mp he with rfl | hmem
      · have hsame : ops.matches node.data e.data = .same := by
          cases hm : ops.matches node.data e.data with
          | before => exact absurd hkey ((hcmp.before_iff _ _).mp hm).ne
          | after => exact absurd hkey ((hcmp.after_iff _ _).mp hm).ne'
          | same => rfl
        rw [if_neg (by omega), if_pos her, hsame]
      · rcases hbehind hmem with hlt | ⟨heq, hlt⟩
        · rw [if_neg (by omega), if_neg (by omega), ih hord.2 hmem]
          rfl
        · rw [if_neg (by omega), if_pos heq,
            (hcmp.after_iff _ _).mpr hlt, ih hord.2 hmem]
          rfl

/-- The bucket of a datum after it is filled, and whether the search of
its chain finds something. -/
theorem Refines.located (hcmp : Compares ops key)
    (h : Refines ops key ht m) (hd : HashesAgree ops key m d) :
    ∃ chain, (ht.fixed (ht.entryOf (ops.hash d))).bucket
        (ht.entryOf (ops.hash d)) = some chain
      ∧ Keeps ops ht (ht.fixed (ht.entryOf (ops.hash d)))
      ∧ m (key d) = (listFind ops (reverse (ops.hash d)) d chain).map
        (·.data) := by
  obtain ⟨hk, hs⟩ := fixed_keeps h.wf (ops.hash d)
  obtain ⟨chain, hchain⟩ := Option.isSome_iff_exists.mp hs
  refine ⟨chain, hchain, hk, ?_⟩
  rw [← (h.finddata hcmp hd).2]
  unfold HashTable.finddata
  simp only [hchain, Option.getD_some]

/-- `fr_hash_table_insert` refuses just the data the map has an equal
of. -/
theorem Refines.insert_result (hcmp : Compares ops key)
    (h : Refines ops key ht m) (hd : HashesAgree ops key m d) :
    (insert ops ht d).2 = (m (key d)).isNone
      ∧ ((m (key d)).isSome = true →
        Refines ops key (insert ops ht d).1 m) := by
  obtain ⟨chain, hchain, hk, hm⟩ := h.located hcmp hd
  cases hf : listFind ops (reverse (ops.hash d)) d chain with
  | none =>
      obtain ⟨g, hg⟩ := Option.isSome_iff_exists.mp
        (listInsert_of_listFind ⟨reverse (ops.hash d), ops.hash d, d⟩ hf)
      rw [hm, hf]
      refine ⟨?_, fun h => by cases h⟩
      unfold insert
      simp only [hchain, Option.getD_some, hg, Option.map_none,
        Option.isNone_none]
  | some e =>
      have hvalid := h.lawful hcmp hd
      obtain ⟨he, her, hkey⟩ := (listFind_eq_some_iff hvalid (Or.inr rfl)
        (fun x hx => Or.inl ((hk.holds _).mp ⟨_, chain, x, hchain, hx, rfl⟩))
        (hk.wf.ordered _ chain hchain) e).mp hf
      have hnone := listInsert_equal hcmp
        ⟨reverse (ops.hash d), ops.hash d, d⟩
        (hk.wf.ordered _ chain hchain) he her hkey
      rw [hm, hf]
      unfold insert
      simp only [hchain, Option.getD_some, hnone, Option.map_some,
        Option.isNone_some, Option.isSome_some, true_and]
      exact fun _ => h.of_keeps hk

/-- The map with `d` stored. -/
def stored (key : α → κ) (m : κ → Option α) (d : α) : κ → Option α :=
  Function.update m (key d) (some d)

/-- `fr_hash_table_insert` of a datum smaller than all of its hash. -/
theorem Refines.insert (hcmp : Compares ops key)
    (h : Refines ops key ht m) (hnone : m (key d) = none)
    (hnew : ∀ k x, m k = some x → ops.hash x = ops.hash d → key d < k) :
    Refines ops key (insert ops ht d).1 (stored key m d) := by
  obtain ⟨-, hwf, hholds⟩ := insert_wf (d := d) h.wf
    fun x hx hhash => (hcmp.after_iff _ _).mpr
      (hnew _ x ((h.holds x).mp hx) hhash)
  refine ⟨hwf, fun x => ?_, fun k x hx => ?_⟩
  · rw [hholds, h.holds]
    unfold stored
    by_cases hkey : key x = key d
    · rw [hkey, Function.update_self, hnone]
      simp [eq_comm]
    · rw [Function.update_of_ne hkey]
      constructor
      · rintro (rfl | hx)
        · exact absurd rfl hkey
        · exact hx
      · exact Or.inr
  · unfold stored at hx
    by_cases hkey : k = key d
    · subst hkey
      rw [Function.update_self] at hx
      cases hx
      rfl
    · rw [Function.update_of_ne hkey] at hx
      exact h.keyed k x hx

-- ======== changing a node

omit [LinearOrder κ] in
/-- A key has one entry in the whole table. -/
theorem Refines.entry_unique (h : Refines ops key ht m) {b b' : Nat}
    {g g' : List (HashEntry α)} {e e' : HashEntry α}
    (hb : ht.bucket b = some g) (he : e ∈ g) (hb' : ht.bucket b' = some g')
    (he' : e' ∈ g') (hkey : key e'.data = key e.data) :
    b' = b ∧ e' = e := by
  have hm := (h.holds e.data).mp ⟨b, g, e, hb, he, rfl⟩
  have hm' := (h.holds e'.data).mp ⟨b', g', e', hb', he', rfl⟩
  rw [hkey, hm] at hm'
  obtain ⟨hk, hr⟩ := h.wf.filled b g hb e he
  obtain ⟨hk', hr'⟩ := h.wf.filled b' g' hb' e' he'
  have hdata : e'.data = e.data := (Option.some.inj hm').symm
  have heq : e' = e := by
    cases e
    cases e'
    simp only at hk hr hk' hr' hdata
    rw [hr', hr, hk', hk, hdata]
  subst heq
  exact ⟨(h.wf.nearest b' g' hb' e' he').unique
    (h.wf.nearest b g hb e' he), rfl⟩

theorem Refines.not_precedes_self (hcmp : Compares ops key)
    (e : HashEntry α) : ¬Precedes ops e e := by
  rintro (hlt | ⟨-, hm⟩)
  · exact lt_irrefl _ hlt
  · exact lt_irrefl _ ((hcmp.after_iff _ _).mp hm)

/-- The entry `e` replaced by those of `mid`: none, or one that only has
another datum of its key and hash. -/
theorem Refines.rewritten (hcmp : Compares ops key)
    (h : Refines ops key ht m) {entry : Nat}
    {l r mid : List (HashEntry α)} {e : HashEntry α}
    (hchain : ht.bucket entry = some (l ++ e :: r))
    (hmid : mid = [] ∨ ∃ d, mid = [{ e with data := d }]
      ∧ key d = key e.data ∧ ops.hash d = e.key) (n : Nat) :
    let t := { ht.setBucket entry (l ++ mid ++ r) with numElements := n }
    t.Wf ops ∧ ∀ x, t.Holds x ↔ (∃ c ∈ mid, c.data = x)
      ∨ ht.Holds x ∧ key x ≠ key e.data := by
  intro t
  have hord := h.wf.ordered _ _ hchain
  obtain ⟨hek, her⟩ := h.wf.filled _ _ hchain e (by simp)
  have hnew : ∀ c ∈ mid, c.reversed = e.reversed ∧ c.key = e.key
      ∧ key c.data = key e.data ∧ ops.hash c.data = e.key := by
    intro c hc
    rcases hmid with rfl | ⟨d, rfl, hkey, hhash⟩
    · cases hc
    · obtain rfl := List.mem_singleton.mp hc
      exact ⟨rfl, rfl, hkey, hhash⟩
  have hkept : ∀ c ∈ l ++ mid ++ r, c ∈ mid ∨ c ∈ l ++ e :: r := by
    intro c hc
    simp only [List.mem_append, List.mem_cons] at hc ⊢
    tauto
  have hpw : (l ++ mid ++ r).Pairwise (Precedes ops) := by
    rcases hmid with rfl | ⟨d, rfl, hkey, -⟩
    · rw [List.append_nil]
      exact hord.sublist (by simp)
    · rw [List.append_assoc, List.singleton_append]
      simp only [List.pairwise_append, List.pairwise_cons, List.mem_cons,
        Precedes, hcmp.after_iff] at hord ⊢
      simpa only [forall_eq_or_imp, hkey] using hord
  have hfilled : ∀ c ∈ l ++ mid ++ r, Filled ops c := by
    intro c hc
    rcases hkept c hc with hc | hc
    · obtain ⟨hr, hk, -, hhash⟩ := hnew c hc
      exact ⟨hk.trans hhash.symm, by rw [hr, hk, her]⟩
    · exact h.wf.filled _ _ hchain c hc
  have hnearest : ∀ c ∈ l ++ mid ++ r,
      ht.Nearest (ht.entryOf c.key) entry := by
    intro c hc
    rcases hkept c hc with hc | hc
    · rw [(hnew c hc).2.1]
      exact h.wf.nearest _ _ hchain e (by simp)
    · exact h.wf.nearest _ _ hchain c hc
  obtain ⟨hwf, hholds⟩ := setBucket_wf h.wf (by rw [hchain]; rfl) hfilled
    hnearest hpw n
  refine ⟨hwf, fun x => ?_⟩
  rw [hholds, holds_iff_bucket hchain]
  -- `e` stands once in its chain and in no other
  rw [List.pairwise_append, List.pairwise_cons] at hord
  have hl : e ∉ l := fun hmem =>
    Refines.not_precedes_self hcmp e (hord.2.2 e hmem e (by simp))
  have hr : e ∉ r := fun hmem =>
    Refines.not_precedes_self hcmp e (hord.2.1.1 e hmem)
  have hother {b : Nat} {g : List (HashEntry α)} {c : HashEntry α}
      (hb : ht.bucket b = some g) (hc : c ∈ g)
      (hne : b ≠ entry ∨ c ≠ e) : key c.data ≠ key e.data := by
    intro hkey
    obtain ⟨hbe, hce⟩ := h.entry_unique hchain (by simp) hb hc hkey
    rcases hne with hne | hne
    · exact hne hbe
    · exact hne hce
  constructor
  · rintro (⟨c, hc, rfl⟩ | ⟨b, g, c, hne, hb, hc, rfl⟩)
    · by_cases hmem : c ∈ mid
      · exact Or.inl ⟨c, hmem, rfl⟩
      · have hlr : c ∈ l ∨ c ∈ r := by
          simp only [List.mem_append] at hc
          tauto
        have hce : c ≠ e := by
          rintro rfl
          exact hlr.elim hl hr
        have hin : c ∈ l ++ e :: r := (hkept c hc).resolve_left hmem
        exact Or.inr ⟨Or.inl ⟨c, hin, rfl⟩,
          hother hchain hin (Or.inr hce)⟩
    · exact Or.inr ⟨Or.inr ⟨b, g, c, hne, hb, hc, rfl⟩,
        hother hb hc (Or.inl hne)⟩
  · rintro (⟨c, hc, rfl⟩ | ⟨⟨c, hc, rfl⟩ | hx, hkey⟩)
    · exact Or.inl ⟨c, by simp [hc], rfl⟩
    · have hce : c ≠ e := by
        rintro rfl
        exact hkey rfl
      refine Or.inl ⟨c, ?_, rfl⟩
      simp only [List.mem_append, List.mem_cons] at hc ⊢
      tauto
    · exact Or.inr hx

/-- The map without the key of `d`. -/
def removed (key : α → κ) (m : κ → Option α) (d : α) : κ → Option α :=
  Function.update m (key d) none

/-- `fr_hash_table_yank`. -/
theorem Refines.yank (hcmp : Compares ops key)
    (h : Refines ops key ht m) (hd : HashesAgree ops key m d) :
    Refines ops key (yank ops ht d).1 (removed key m d)
      ∧ (yank ops ht d).2 = m (key d) := by
  obtain ⟨chain, hchain, hk, hm⟩ := h.located hcmp hd
  have hfix := h.of_keeps hk
  unfold HashTable.yank
  simp only [hchain, Option.getD_some]
  cases hat : listFindAt ops (reverse (ops.hash d)) d chain with
  | none =>
      rw [listFindAt_none hat] at hm
      have hsame : removed key m d = m := by
        unfold removed
        rw [show none = m (key d) from hm.symm, Function.update_eq_self]
      rw [hsame]
      exact ⟨hfix, hm.symm⟩
  | some node =>
      obtain ⟨l, e, r, rfl, hlen, hf⟩ := listFindAt_some hat
      subst hlen
      rw [hf] at hm
      have hkey := h.keyed _ _ hm
      obtain ⟨hwf, hholds⟩ := hfix.rewritten hcmp hchain (Or.inl rfl)
        ((ht.fixed (ht.entryOf (ops.hash d))).numElements - 1)
      simp only [listDelete_append, List.append_nil] at hwf hholds ⊢
      refine ⟨⟨hwf, fun x => ?_, fun k x hx => ?_⟩, ?_⟩
      · refine (hholds x).trans ?_
        rw [hk.holds, h.holds, hkey]
        unfold removed
        by_cases hx : key x = key d
        · rw [hx, Function.update_self]
          simp
        · rw [Function.update_of_ne hx]
          simp [hx]
      · unfold removed at hx
        by_cases hkk : k = key d
        · rw [hkk, Function.update_self] at hx
          cases hx
        · rw [Function.update_of_ne hkk] at hx
          exact h.keyed k x hx
      · rw [hm, List.getElem?_append_right le_rfl, Nat.sub_self]
        rfl

/-- `fr_hash_table_replace` of a datum the map has an equal of. -/
theorem Refines.replace_found (hcmp : Compares ops key)
    (h : Refines ops key ht m) (hd : HashesAgree ops key m d)
    (hsome : (m (key d)).isSome = true) :
    Refines ops key (replace ops ht d).1 (stored key m d)
      ∧ (replace ops ht d).2 = (m (key d), true) := by
  obtain ⟨chain, hchain, hk, hm⟩ := h.located hcmp hd
  have hfix := h.of_keeps hk
  unfold replace
  simp only [hchain, Option.getD_some]
  cases hat : listFindAt ops (reverse (ops.hash d)) d chain with
  | none =>
      rw [hm, listFindAt_none hat] at hsome
      cases hsome
  | some node =>
      obtain ⟨l, e, r, rfl, hlen, hf⟩ := listFindAt_some hat
      subst hlen
      rw [hf] at hm
      have hkey := h.keyed _ _ hm
      have hhash : ops.hash d = e.key := by
        rw [(hfix.wf.filled _ _ hchain e (by simp)).1]
        exact (hd _ hm).symm
      obtain ⟨hwf, hholds⟩ := hfix.rewritten hcmp hchain
        (Or.inr ⟨d, rfl, hkey.symm, hhash⟩)
        (ht.fixed (ht.entryOf (ops.hash d))).numElements
      simp only [modify_append, List.append_assoc, List.singleton_append]
        at hwf hholds ⊢
      refine ⟨⟨hwf, fun x => ?_, fun k x hx => ?_⟩, ?_⟩
      · refine (hholds x).trans ?_
        rw [hk.holds, h.holds, hkey]
        unfold stored
        by_cases hx : key x = key d
        · rw [hx, Function.update_self]
          simp
        · rw [Function.update_of_ne hx]
          have hne : d ≠ x := by
            rintro rfl
            exact hx rfl
          simp [hx, hne]
      · unfold stored at hx
        by_cases hkk : k = key d
        · rw [hkk, Function.update_self] at hx
          cases hx
          exact hkk.symm
        · rw [Function.update_of_ne hkk] at hx
          exact h.keyed k x hx
      · rw [hm, List.getElem?_append_right le_rfl, Nat.sub_self]
        rfl

/-- Without an equal it is an insertion. -/
theorem Refines.replace_absent (hcmp : Compares ops key)
    (h : Refines ops key ht m) (hd : HashesAgree ops key m d)
    (hnone : m (key d) = none) :
    let ht' := ht.fixed (ht.entryOf (ops.hash d))
    Refines ops key ht' m
      ∧ (replace ops ht d).1 = (HashTable.insert ops ht' d).1
      ∧ (replace ops ht d).2
        = (none, (HashTable.insert ops ht' d).2) := by
  intro ht'
  obtain ⟨chain, hchain, hk, hm⟩ := h.located hcmp hd
  refine ⟨h.of_keeps hk, ?_⟩
  unfold replace
  simp only [hchain, Option.getD_some]
  cases hat : listFindAt ops (reverse (ops.hash d)) d chain with
  | none => exact ⟨rfl, rfl⟩
  | some node =>
      obtain ⟨l, e, r, rfl, -, hf⟩ := listFindAt_some hat
      rw [hnone, hf] at hm
      cases hm

end refine

end HashTable

-- ======== runs

/-- A call, with the datum it is given. -/
inductive HashOp (α : Type) where
  | insert (data : α)
  | replace (data : α)
  | yank (data : α)
  | delete (data : α)
  | finddata (data : α)

namespace HashOp

variable {α κ : Type}

def data : HashOp α → α
  | insert d | replace d | yank d | delete d | finddata d => d

/-- The operation may store its datum. -/
def stores : HashOp α → Bool
  | insert _ | replace _ => true
  | _ => false

/-- What a call returns: a status, or a pointer to a datum. -/
inductive Result (α : Type) where
  | rcode (ok : Bool)
  | datum (d : Option α)

/-- The call on the table. -/
def apply (ops : HashOps α) (ht : HashTable α) :
    HashOp α → HashTable α × Result α
  | insert d => ((ht.insert ops d).1, .rcode (ht.insert ops d).2)
  | replace d => ((ht.replace ops d).1, .rcode (ht.replace ops d).2.2)
  | yank d => ((ht.yank ops d).1, .datum (ht.yank ops d).2)
  | delete d => ((ht.delete ops d).1, .rcode (ht.delete ops d).2)
  | finddata d => ((ht.finddata ops d).1, .datum (ht.finddata ops d).2)

section spec

variable [LinearOrder κ] (key : α → κ)

/-- What it means for a finite map. -/
def spec (m : κ → Option α) : HashOp α → (κ → Option α) × Result α
  | insert d =>
      if (m (key d)).isSome then (m, .rcode false)
      else (HashTable.stored key m d, .rcode true)
  | replace d => (HashTable.stored key m d, .rcode true)
  | yank d => (HashTable.removed key m d, .datum (m (key d)))
  | delete d =>
      (HashTable.removed key m d, .rcode (m (key d)).isSome)
  | finddata d => (m, .datum (m (key d)))

/-- The calls the table is made for: equal data have one hash, and what is
stored anew compares smaller than all that is stored under its hash. -/
def Orderly (ops : HashOps α) (m : κ → Option α) (op : HashOp α) :
    Prop :=
  HashTable.HashesAgree ops key m op.data
    ∧ (op.stores = true → m (key op.data) = none →
      ∀ k x, m k = some x → ops.hash x = ops.hash op.data →
        key op.data < k)

/-- A call on a table, beside the map. -/
def Step (ops : HashOps α) (s t : HashTable α × (κ → Option α)) : Prop :=
  ∃ op : HashOp α, op.Orderly key ops s.2
    ∧ t = ((op.apply ops s.1).1, (op.spec key s.2).1)

end spec

section run

variable [LinearOrder κ] {key : α → κ} {ops : HashOps α}
  {ht : HashTable α} {m : κ → Option α}

open HashTable

/-- The results agree wherever equal data have one hash. -/
theorem apply_result (hcmp : Compares ops key)
    (h : Refines ops key ht m) (op : HashOp α)
    (hd : HashesAgree ops key m op.data) :
    (op.apply ops ht).2 = (op.spec key m).2 := by
  cases op with
  | insert d =>
      change HashesAgree ops key m d at hd
      simp only [apply, spec, (h.insert_result hcmp hd).1]
      cases m (key d) with
      | none => rfl
      | some x => rfl
  | replace d =>
      change HashesAgree ops key m d at hd
      simp only [apply, spec]
      cases hm : m (key d) with
      | none =>
          obtain ⟨h', -, hres⟩ := h.replace_absent hcmp hd hm
          rw [hres, (h'.insert_result hcmp hd).1, hm]
          rfl
      | some x =>
          rw [(h.replace_found hcmp hd (by rw [hm]; rfl)).2]
  | yank d =>
      change HashesAgree ops key m d at hd
      simp only [apply, spec, (h.yank hcmp hd).2]
  | delete d =>
      change HashesAgree ops key m d at hd
      simp only [apply, spec, HashTable.delete, (h.yank hcmp hd).2]
  | finddata d =>
      change HashesAgree ops key m d at hd
      simp only [apply, spec, (h.finddata hcmp hd).2]

/-- An orderly call keeps the map. -/
theorem apply_refines (hcmp : Compares ops key)
    (h : Refines ops key ht m) (op : HashOp α)
    (hop : op.Orderly key ops m) :
    Refines ops key (op.apply ops ht).1 (op.spec key m).1 := by
  obtain ⟨hd, hnew⟩ := hop
  cases op with
  | insert d =>
      change HashesAgree ops key m d at hd
      simp only [apply, spec]
      cases hm : m (key d) with
      | none => exact h.insert hcmp hm (hnew rfl hm)
      | some x => exact (h.insert_result hcmp hd).2 (by rw [hm]; rfl)
  | replace d =>
      change HashesAgree ops key m d at hd
      simp only [apply, spec]
      cases hm : m (key d) with
      | none =>
          obtain ⟨h', htab, -⟩ := h.replace_absent hcmp hd hm
          rw [htab]
          exact h'.insert hcmp hm (hnew rfl hm)
      | some x => exact (h.replace_found hcmp hd (by rw [hm]; rfl)).1
  | yank d => exact (h.yank hcmp hd).1
  | delete d => exact (h.yank hcmp hd).1
  | finddata d => exact (h.finddata hcmp hd).1

omit [LinearOrder κ] in
theorem create_refines : Refines ops key (hashTableCreate α)
    fun _ => none := by
  refine ⟨create_wf, fun x => ?_, fun k x hx => by cases hx⟩
  exact iff_of_false (create_holds x) (by simp)

/-- After any orderly calls the table stores what the map has, and a
further call returns what the map says. -/
theorem orderly_refines (hcmp : Compares ops key)
    (h : Reaches (Step key ops) (hashTableCreate α, fun _ => none)
      (ht, m)) :
    (∀ x, ht.Holds x ↔ m (key x) = some x)
      ∧ ∀ op : HashOp α, HashesAgree ops key m op.data →
        (op.apply ops ht).2 = (op.spec key m).2 := by
  have hrefines := h.invariant (fun s => Refines ops key s.1 s.2)
    create_refines (by
      rintro s t hs ⟨op, hop, rfl⟩
      exact apply_refines hcmp hs op hop)
  exact ⟨hrefines.holds, apply_result hcmp hrefines⟩

end run

-- ======== two numbers

/-- Numbers under one hash, in their order. -/
def collidingOps : HashOps Nat :=
  { hash := fun _ => 0
    cmp := some fun a b => (a : Int) - b }

theorem collidingOps_compares :
    HashTable.Compares collidingOps fun n => n := by
  refine ⟨_, rfl, fun a b => ?_⟩
  omega

/-- The table after 2 and then `n` were inserted, and the map. -/
def colliding (n : Nat) : HashTable Nat × (Nat → Option Nat) :=
  (((hashTableCreate Nat).insert collidingOps 2).1.insert collidingOps n
      |>.1,
    HashTable.stored (fun n => n)
      (HashTable.stored (fun n => n) (fun _ => none) 2) n)

theorem descending_found :
    ((colliding 1).1.finddata collidingOps 1).2 = some 1
      ∧ ((colliding 1).1.finddata collidingOps 2).2 = some 2 := by
  have hfirst : (insert 2).Orderly (fun n => n) collidingOps
      (fun _ => none) := by
    refine ⟨fun x hx => ?_, fun _ _ k x hx => ?_⟩
    · cases hx
    · cases hx
  have hsecond : (insert 1).Orderly (fun n => n) collidingOps
      (HashTable.stored (fun n => n) (fun _ => none) 2) := by
    refine ⟨fun _ _ => rfl, fun _ _ k x hx _ => ?_⟩
    by_cases hk : k = 2
    · subst hk
      decide
    · rw [HashTable.stored, Function.update_of_ne hk] at hx
      cases hx
  have hreach : Reaches (Step (fun n => n) collidingOps)
      (hashTableCreate Nat, fun _ => none) (colliding 1) :=
    (Reaches.refl.step ⟨insert 2, hfirst, rfl⟩).step
      ⟨insert 1, hsecond, rfl⟩
  have hres := (orderly_refines collidingOps_compares hreach).2
  have h1 := hres (finddata 1) fun _ _ => rfl
  have h2 := hres (finddata 2) fun _ _ => rfl
  injection h1 with h1
  injection h2 with h2
  exact ⟨h1, h2⟩

/-- Inserted the other way round, the second number is stored and not
found. -/
theorem ascending_lost :
    ((((hashTableCreate Nat).insert collidingOps 2).1.insert collidingOps
        3).2 = true)
      ∧ (colliding 3).1.Holds 3
      ∧ ((colliding 3).1.finddata collidingOps 3).2 = none := by
  refine ⟨by decide, ?_, by decide⟩
  exact ⟨0, _, ⟨reverse 0, 0, 3⟩, rfl, List.mem_cons_of_mem _
    List.mem_cons_self, rfl⟩

end HashOp

end WinRadius
