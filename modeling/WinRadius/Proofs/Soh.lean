/-
When `soh_verify` stays inside the payload.

The lengths in a statement of health come from the client, and next to none
of them is checked. `SohFits` says of a payload that every field that is
read, every length and every name is covered by what is left; the items
without a length are laid out by `tvReads` and `tvSize`. The function comes
to its end without a fault exactly on such a payload: each loop is followed
by induction on its fuel, which the counters never use up.
-/
import WinRadius.Model.Soh

namespace WinRadius

open Lib

variable {p : List UInt8} {off n c fuel : Nat} {vps : List ValuePair}

-- ======== reading

/-- The number in `p[off .. off + n)`. -/
def wordAt (p : List UInt8) (off n : Nat) : Nat :=
  beNat ((p.drop off).take n)

theorem sohRead_eq_ok {bs : List UInt8} :
    sohRead p off n = .ok bs
      ↔ off + n ≤ p.length ∧ bs = (p.drop off).take n := by
  unfold sohRead
  split
  · next h =>
      simp only [reduceCtorEq, false_iff, not_and]
      omega
  · next h =>
      rw [Except.ok.injEq, eq_comm]
      exact ⟨fun heq => ⟨by omega, heq⟩, fun heq => heq.2⟩

theorem sohPull_eq_ok {v : Nat} :
    sohPull p off n = .ok v ↔ off + n ≤ p.length ∧ v = wordAt p off n := by
  unfold sohPull sohRead wordAt
  split
  · next h =>
      simp only [Except.map, reduceCtorEq, false_iff, not_and]
      omega
  · next h =>
      simp only [Except.map, Except.ok.injEq]
      rw [eq_comm]
      exact ⟨fun heq => ⟨by omega, heq⟩, fun heq => heq.2⟩

theorem sohSub_eq_ok {k m : Nat} :
    sohSub n k = .ok m ↔ k ≤ n ∧ m = n - k := by
  unfold sohSub
  split
  · next h =>
      simp only [reduceCtorEq, false_iff, not_and]
      omega
  · next h =>
      rw [Except.ok.injEq, eq_comm]
      exact ⟨fun heq => ⟨by omega, heq⟩, fun heq => heq.2⟩

-- ======== items

/-- An item of this type is read, with `n` bytes counted behind its type:
the type is known, and an inventory is not cut short. -/
def TvRead (n c : Nat) : Prop := 1 ≤ c ∧ c ≤ 8 ∧ (c = 1 → 18 ≤ n)

/-- How far an item is read behind its type. -/
def tvReads (c : Nat) (p : List UInt8) : Nat :=
  match c with
  | 1 => 18
  | 2 => 12
  | 3 => 1
  | 4 | 7 => 2
  | 5 => 2 + wordAt p 0 2
  | 6 => 24
  | 8 => 5
  | _ => 0

/-- How many bytes it has. -/
def tvSize (c : Nat) (p : List UInt8) : Nat :=
  match c with
  | 1 => 18
  | 2 => 12 + wordAt p 10 2
  | 3 => 1
  | 4 | 5 | 7 => 2 + wordAt p 0 2
  | 6 => 24
  | 8 => 5
  | _ => 0

/-- The name of the machine fits the buffer of its pair. -/
def TvFits (c : Nat) (p : List UInt8) : Prop :=
  tvReads c p ≤ p.length ∧ (c = 5 → wordAt p 0 2 < 254)

/-- The items up to where they end, or the reading of them does, are
covered by the `n` bytes that are counted and by what is left. -/
inductive TvsFit : Nat → List UInt8 → Prop where
  | done (p : List UInt8) : TvsFit 0 p
  | stop {n : Nat} {c : UInt8} {p : List UInt8} :
      ¬ TvRead n c.toNat → TvsFit (n + 1) (c :: p)
  | item {n : Nat} {c : UInt8} {p : List UInt8} :
      TvRead n c.toNat → TvFits c.toNat p → tvSize c.toNat p ≤ n →
      TvsFit (n - tvSize c.toNat p) (p.drop (tvSize c.toNat p)) →
      TvsFit (n + 1) (c :: p)

theorem tvItem_stop (h : ¬ TvRead n c) : tvItem p n c = .ok none := by
  unfold tvItem
  split
  · rw [if_pos]
    by_contra hn
    exact h ⟨by omega, by omega, fun _ => by omega⟩
  all_goals first
    | rfl
    | exact absurd ⟨by omega, by omega, by omega⟩ h

theorem sohPull_ok (h : off + n ≤ p.length) :
    sohPull p off n = .ok (wordAt p off n) := sohPull_eq_ok.mpr ⟨h, rfl⟩

theorem sohRead_ok (h : off + n ≤ p.length) :
    sohRead p off n = .ok ((p.drop off).take n) := sohRead_eq_ok.mpr ⟨h, rfl⟩

/-- An item that is made pairs of fits. -/
theorem tvItem_ok (h : TvRead n c) {item : Option (List ValuePair × Nat)}
    (hitem : tvItem p n c = .ok item) :
    TvFits c p ∧ ∃ made, item = some (made, tvSize c p) := by
  obtain ⟨hlow, hhigh, hlong⟩ := h
  interval_cases c
  · rw [tvItem, if_neg (by have := hlong rfl; omega)] at hitem
    simp only [bind_eq_ok, sohPull_eq_ok] at hitem
    obtain ⟨_, -, _, -, _, -, _, -, _, -, _, ⟨hlen, -⟩, hitem⟩ := hitem
    cases hitem
    exact ⟨⟨hlen, by simp⟩, _, rfl⟩
  · simp only [tvItem, bind_eq_ok, sohPull_eq_ok] at hitem
    obtain ⟨t, ⟨hlen, rfl⟩, hitem⟩ := hitem
    cases hitem
    exact ⟨⟨hlen, by simp⟩, _, rfl⟩
  · simp only [tvItem, bind_eq_ok, sohPull_eq_ok] at hitem
    obtain ⟨_, ⟨hlen, -⟩, hitem⟩ := hitem
    cases hitem
    exact ⟨⟨hlen, by simp⟩, _, rfl⟩
  · simp only [tvItem, bind_eq_ok, sohPull_eq_ok] at hitem
    obtain ⟨t, ⟨hlen, rfl⟩, hitem⟩ := hitem
    cases hitem
    exact ⟨⟨hlen, by simp⟩, _, rfl⟩
  · simp only [tvItem, bind_eq_ok, sohPull_eq_ok, sohRead_eq_ok] at hitem
    obtain ⟨t, ⟨-, rfl⟩, name, ⟨hlen, -⟩, hitem⟩ := hitem
    split at hitem
    · cases hitem
    · next hfits =>
        cases hitem
        rw [maxStringLen] at hfits
        exact ⟨⟨hlen, fun _ => by omega⟩, _, rfl⟩
  · simp only [tvItem, bind_eq_ok, sohRead_eq_ok] at hitem
    obtain ⟨_, ⟨hlen, -⟩, hitem⟩ := hitem
    cases hitem
    exact ⟨⟨hlen, by simp⟩, _, rfl⟩
  · simp only [tvItem, bind_eq_ok, sohPull_eq_ok] at hitem
    obtain ⟨t, ⟨hlen, rfl⟩, hitem⟩ := hitem
    cases hitem
    exact ⟨⟨hlen, by simp⟩, _, rfl⟩
  · simp only [tvItem, bind_eq_ok, sohPull_eq_ok] at hitem
    obtain ⟨_, ⟨hlen, -⟩, hitem⟩ := hitem
    cases hitem
    exact ⟨⟨hlen, by simp⟩, _, rfl⟩

/-- And one that fits is. -/
theorem tvItem_of_fits (h : TvRead n c) (hfits : TvFits c p) :
    ∃ item, tvItem p n c = .ok item := by
  obtain ⟨hlow, hhigh, hlong⟩ := h
  obtain ⟨hlen, hname⟩ := hfits
  interval_cases c
  · have hlen : 18 ≤ p.length := hlen
    rw [tvItem, if_neg (by have := hlong rfl; omega), sohPull_ok (by omega),
      ok_bind, sohPull_ok (by omega), ok_bind, sohPull_ok (by omega), ok_bind,
      sohPull_ok (by omega), ok_bind, sohPull_ok (by omega), ok_bind,
      sohPull_ok (by omega), ok_bind]
    exact ⟨_, rfl⟩
  · rw [tvItem, sohPull_ok hlen, ok_bind]
    exact ⟨_, rfl⟩
  · rw [tvItem, sohPull_ok hlen, ok_bind]
    exact ⟨_, rfl⟩
  · rw [tvItem, sohPull_ok hlen, ok_bind]
    exact ⟨_, rfl⟩
  · have hlen : 2 + wordAt p 0 2 ≤ p.length := hlen
    rw [tvItem, sohPull_ok (by omega), ok_bind, sohRead_ok hlen, ok_bind,
      if_neg (by have := hname rfl; rw [maxStringLen]; omega)]
    exact ⟨_, rfl⟩
  · rw [tvItem, sohRead_ok hlen, ok_bind]
    exact ⟨_, rfl⟩
  · rw [tvItem, sohPull_ok hlen, ok_bind]
    exact ⟨_, rfl⟩
  · rw [tvItem, sohPull_ok hlen, ok_bind]
    exact ⟨_, rfl⟩

/-- The items of a Microsoft payload are gone through exactly when they
fit. -/
theorem eapsohMstlv_ok_iff (vps : List ValuePair) (hfuel : n < fuel) :
    (∃ r, eapsohMstlv fuel p n vps = .ok r) ↔ TvsFit n p := by
  induction fuel generalizing n p vps with
  | zero => omega
  | succ fuel ih =>
      rw [eapsohMstlv]
      cases n with
      | zero =>
          rw [if_pos rfl]
          exact iff_of_true ⟨_, rfl⟩ (.done p)
      | succ n =>
          rw [if_neg (Nat.succ_ne_zero n), Nat.add_sub_cancel]
          cases p with
          | nil =>
              constructor
              · intro ⟨r, hr⟩
                obtain ⟨_, hc, -⟩ := bind_eq_ok.mp hr
                have := (sohPull_eq_ok.mp hc).1
                simp at this
              · intro h
                cases h
          | cons c p =>
              have hc : sohPull (c :: p) 0 1 = .ok c.toNat := by
                rw [sohPull_ok (by simp)]
                simp [wordAt, beNat]
              rw [hc, ok_bind, List.drop_one, List.tail_cons]
              by_cases hread : TvRead n c.toNat
              · constructor
                · intro ⟨r, hr⟩
                  obtain ⟨item, hitem, hr⟩ := bind_eq_ok.mp hr
                  obtain ⟨hfits, made, rfl⟩ := tvItem_ok hread hitem
                  obtain ⟨m, hm, hr⟩ := bind_eq_ok.mp hr
                  obtain ⟨hsize, rfl⟩ := sohSub_eq_ok.mp hm
                  rw [Nat.add_comm, List.drop_succ_cons] at hr
                  exact .item hread hfits hsize
                    ((ih _ (by omega)).mp ⟨r, hr⟩)
                · intro h
                  cases h with
                  | stop hstop => exact absurd hread hstop
                  | item _ hfits hsize htail =>
                      obtain ⟨item, hitem⟩ := tvItem_of_fits hread hfits
                      obtain ⟨-, made, rfl⟩ := tvItem_ok hread hitem
                      rw [hitem, ok_bind]
                      dsimp only
                      rw [sohSub_eq_ok.mpr ⟨hsize, rfl⟩, ok_bind, Nat.add_comm,
                        List.drop_succ_cons]
                      exact (ih _ (by omega)).mpr htail
              · rw [tvItem_stop hread, ok_bind]
                exact iff_of_true ⟨_, rfl⟩ (.stop hread)

-- ======== TLVs

/-- The value of a TLV, in the health class that is set, is covered. -/
def TlvFits (shid shidC : Int) (tlvType tlvLen : Nat) (p : List UInt8) :
    Prop :=
  match tlvType with
  | 2 => 4 ≤ p.length
  | 7 => shid = 0x137 ∧ shidC = 0 → 4 ≤ tlvLen ∧ TvsFit (tlvLen - 4) (p.drop 4)
  | 8 | 9 => 1 ≤ p.length
  | 11 => shid = 0x137 ∧ shidC = 128 → 4 ≤ p.length
  | _ => True

/-- The vendor and the component after a TLV. -/
def nextShid (shid shidC : Int) (tlvType : Nat) (p : List UInt8) : Int × Int :=
  if tlvType = 2 then (wordAt p 0 3, wordAt p 3 1) else (shid, shidC)

/-- The TLVs are covered by the `n` bytes that are counted and by what is
left. -/
inductive TlvsFit : Int → Int → Nat → List UInt8 → Prop where
  | done {shid shidC : Int} {n : Nat} {p : List UInt8} :
      n < 4 → TlvsFit shid shidC n p
  | tlv {shid shidC : Int} {n : Nat} {p : List UInt8} :
      4 ≤ n → 4 ≤ p.length →
      TlvFits shid shidC (wordAt p 0 2) (wordAt p 2 2) (p.drop 4) →
      wordAt p 2 2 ≤ n - 4 →
      TlvsFit (nextShid shid shidC (wordAt p 0 2) (p.drop 4)).1
        (nextShid shid shidC (wordAt p 0 2) (p.drop 4)).2
        (n - 4 - wordAt p 2 2) (p.drop (4 + wordAt p 2 2)) →
      TlvsFit shid shidC n p

/-- Every other TLV is skipped. -/
theorem tlvFits_other {shid shidC : Int} {tlvType tlvLen : Nat}
    (h2 : tlvType ≠ 2) (h7 : tlvType ≠ 7) (h8 : tlvType ≠ 8)
    (h9 : tlvType ≠ 9) (h11 : tlvType ≠ 11) :
    TlvFits shid shidC tlvType tlvLen p := by
  unfold TlvFits
  split
  · exact absurd rfl h2
  · exact absurd rfl h7
  · exact absurd rfl h8
  · exact absurd rfl h9
  · exact absurd rfl h11
  · trivial

theorem sohTlv_ok {tlvType tlvLen : Nat} {st st' : SohState}
    (h : sohTlv p tlvType tlvLen st = .ok st') :
    TlvFits st.currShid st.currShidC tlvType tlvLen p
      ∧ (st'.currShid, st'.currShidC)
        = nextShid st.currShid st.currShidC tlvType p := by
  unfold sohTlv at h
  split at h
  · simp only [bind_eq_ok, sohPull_eq_ok] at h
    obtain ⟨shid, ⟨-, rfl⟩, component, ⟨hlen, rfl⟩, h⟩ := h
    cases h
    exact ⟨hlen, rfl⟩
  · split at h
    · obtain ⟨m, hm, h⟩ := bind_eq_ok.mp h
      obtain ⟨hlen, rfl⟩ := sohSub_eq_ok.mp hm
      obtain ⟨⟨made, code⟩, hr, h⟩ := bind_eq_ok.mp h
      cases h
      exact ⟨fun _ => ⟨hlen, (eapsohMstlv_ok_iff _ (Nat.lt_succ_self _)).mp
        ⟨_, hr⟩⟩, rfl⟩
    · next hother =>
        cases h
        exact ⟨fun hms => absurd hms hother, rfl⟩
  · simp only [bind_eq_ok, sohPull_eq_ok] at h
    obtain ⟨hc, ⟨hlen, rfl⟩, h⟩ := h
    cases h
    exact ⟨hlen, rfl⟩
  · simp only [bind_eq_ok, sohPull_eq_ok] at h
    obtain ⟨_, ⟨hlen, -⟩, h⟩ := h
    cases h
    exact ⟨hlen, rfl⟩
  · split at h
    · simp only [bind_eq_ok, sohPull_eq_ok] at h
      obtain ⟨_, ⟨hlen, -⟩, h⟩ := h
      cases h
      exact ⟨fun _ => hlen, rfl⟩
    · next hother =>
        cases h
        exact ⟨fun hms => absurd hms hother, rfl⟩
  · next h2 h7 h8 h9 h11 =>
      cases h
      exact ⟨tlvFits_other h2 h7 h8 h9 h11, (if_neg h2).symm⟩

theorem sohTlv_of_fits {tlvType tlvLen : Nat} {st : SohState}
    (h : TlvFits st.currShid st.currShidC tlvType tlvLen p) :
    ∃ st', sohTlv p tlvType tlvLen st = .ok st' := by
  unfold TlvFits at h
  unfold sohTlv
  split
  · rw [sohPull_ok (by have : 4 ≤ p.length := h; omega), ok_bind,
      sohPull_ok h, ok_bind]
    exact ⟨_, rfl⟩
  · split
    · next hms =>
        obtain ⟨hlen, htvs⟩ := h hms
        obtain ⟨r, hr⟩ := (eapsohMstlv_ok_iff st.vps
          (Nat.lt_succ_self _)).mpr htvs
        rw [sohSub_eq_ok.mpr ⟨hlen, rfl⟩, ok_bind, hr, ok_bind]
        exact ⟨_, rfl⟩
    · exact ⟨_, rfl⟩
  · rw [sohPull_ok h, ok_bind]
    exact ⟨_, rfl⟩
  · rw [sohPull_ok h, ok_bind]
    exact ⟨_, rfl⟩
  · split
    · next hms =>
        rw [sohPull_ok (h hms), ok_bind]
        exact ⟨_, rfl⟩
    · exact ⟨_, rfl⟩
  · exact ⟨_, rfl⟩

theorem sohLoop_ok_iff (st : SohState) (hfuel : n < fuel) :
    (∃ st', sohLoop fuel p n st = .ok st')
      ↔ TlvsFit st.currShid st.currShidC n p := by
  induction fuel generalizing n p st with
  | zero => omega
  | succ fuel ih =>
      rw [sohLoop]
      by_cases hn : n < 4
      · rw [if_pos hn]
        exact iff_of_true ⟨_, rfl⟩ (.done hn)
      rw [if_neg hn]
      constructor
      · intro ⟨r, hr⟩
        obtain ⟨tlvType, htype, hr⟩ := bind_eq_ok.mp hr
        obtain ⟨tlvLen, hlen, hr⟩ := bind_eq_ok.mp hr
        obtain ⟨st₁, htlv, hr⟩ := bind_eq_ok.mp hr
        obtain ⟨m, hm, hr⟩ := bind_eq_ok.mp hr
        obtain ⟨-, rfl⟩ := sohPull_eq_ok.mp htype
        obtain ⟨hfour, rfl⟩ := sohPull_eq_ok.mp hlen
        obtain ⟨hcount, rfl⟩ := sohSub_eq_ok.mp hm
        obtain ⟨hfits, hnext⟩ := sohTlv_ok htlv
        refine .tlv (by omega) hfour hfits hcount ?_
        rw [← hnext]
        exact (ih _ (by omega)).mp ⟨r, hr⟩
      · intro h
        cases h with
        | done hdone => exact absurd hdone hn
        | tlv _ hfour hfits hcount htail =>
            obtain ⟨st₁, htlv⟩ := sohTlv_of_fits hfits
            have hnext := (sohTlv_ok htlv).2
            rw [sohPull_ok (by omega), ok_bind, sohPull_ok hfour, ok_bind,
              htlv, ok_bind, sohSub_eq_ok.mpr ⟨hcount, rfl⟩, ok_bind]
            rw [← hnext] at htail
            exact (ih _ (by omega)).mpr htail

-- ======== no loop

theorem bind_ne_hang {α β : Type} {x : Except SohFault α}
    {f : α → Except SohFault β} (hx : x ≠ .error .hang)
    (hf : ∀ a, x = .ok a → f a ≠ .error .hang) :
    x >>= f ≠ .error .hang := by
  intro h
  obtain h | ⟨a, ha, h⟩ := bind_eq_error.mp h
  · exact hx h
  · exact hf a ha h

theorem sohRead_ne_hang : sohRead p off n ≠ .error .hang := by
  unfold sohRead
  split
  · simp
  · simp

theorem sohPull_ne_hang : sohPull p off n ≠ .error .hang := by
  unfold sohPull sohRead
  split
  · simp [Except.map]
  · simp [Except.map]

theorem sohSub_ne_hang {k : Nat} : sohSub n k ≠ .error .hang := by
  unfold sohSub
  split
  · simp
  · simp

theorem tvItem_ne_hang : tvItem p n c ≠ .error .hang := by
  unfold tvItem
  split
  · split
    · simp
    · iterate 6 refine bind_ne_hang sohPull_ne_hang fun _ _ => ?_
      simp
  · exact bind_ne_hang sohPull_ne_hang fun _ _ => by simp
  · exact bind_ne_hang sohPull_ne_hang fun _ _ => by simp
  · exact bind_ne_hang sohPull_ne_hang fun _ _ => by simp
  · exact bind_ne_hang sohPull_ne_hang fun _ _ => by simp
  · refine bind_ne_hang sohPull_ne_hang fun _ _ => ?_
    refine bind_ne_hang sohRead_ne_hang fun _ _ => ?_
    split
    · simp
    · simp
  · exact bind_ne_hang sohRead_ne_hang fun _ _ => by simp
  · exact bind_ne_hang sohPull_ne_hang fun _ _ => by simp
  · simp

/-- Every item takes at least its type from the counter. -/
theorem eapsohMstlv_ne_hang (hfuel : n < fuel) :
    eapsohMstlv fuel p n vps ≠ .error .hang := by
  induction fuel generalizing n p vps with
  | zero => omega
  | succ fuel ih =>
      rw [eapsohMstlv]
      split
      · simp
      · next hn =>
          refine bind_ne_hang sohPull_ne_hang fun c _ => ?_
          refine bind_ne_hang tvItem_ne_hang fun item _ => ?_
          cases item with
          | none => simp
          | some made =>
              refine bind_ne_hang sohSub_ne_hang fun m hm => ?_
              obtain ⟨-, rfl⟩ := sohSub_eq_ok.mp hm
              exact ih (by omega)

theorem sohTlv_ne_hang {tlvType tlvLen : Nat} {st : SohState} :
    sohTlv p tlvType tlvLen st ≠ .error .hang := by
  unfold sohTlv
  split
  · refine bind_ne_hang sohPull_ne_hang fun _ _ => ?_
    exact bind_ne_hang sohPull_ne_hang fun _ _ => by simp
  · split
    · refine bind_ne_hang sohSub_ne_hang fun _ _ => ?_
      exact bind_ne_hang (eapsohMstlv_ne_hang (Nat.lt_succ_self _))
        fun _ _ => by simp
    · simp
  · exact bind_ne_hang sohPull_ne_hang fun _ _ => by simp
  · exact bind_ne_hang sohPull_ne_hang fun _ _ => by simp
  · split
    · exact bind_ne_hang sohPull_ne_hang fun _ _ => by simp
    · simp
  · simp

/-- Every TLV takes at least its header. -/
theorem sohLoop_ne_hang (st : SohState) (hfuel : n < fuel) :
    sohLoop fuel p n st ≠ .error .hang := by
  induction fuel generalizing n p st with
  | zero => omega
  | succ fuel ih =>
      rw [sohLoop]
      split
      · simp
      · next hn =>
          refine bind_ne_hang sohPull_ne_hang fun _ _ => ?_
          refine bind_ne_hang sohPull_ne_hang fun _ _ => ?_
          refine bind_ne_hang sohTlv_ne_hang fun _ _ => ?_
          refine bind_ne_hang sohSub_ne_hang fun m hm => ?_
          obtain ⟨-, rfl⟩ := sohSub_eq_ok.mp hm
          exact ih _ (by omega)

theorem sohTlvs_ne_hang : sohTlvs p n vps ≠ .error .hang := by
  have h := sohLoop_ne_hang (p := p) ⟨-1, -1, -1, vps⟩
    (Nat.lt_succ_self n)
  unfold sohTlvs
  cases hrun : sohLoop (n + 1) p n ⟨-1, -1, -1, vps⟩ with
  | ok st => simp [Except.map]
  | error e =>
      rw [Nat.succ_eq_add_one, hrun] at h
      simpa [Except.map] using h

theorem sohMode_ne_hang {data : List UInt8} {innerLen : Nat} :
    sohMode data innerLen vps ≠ .error .hang := by
  unfold sohMode
  refine bind_ne_hang sohPull_ne_hang fun _ _ => ?_
  refine bind_ne_hang sohPull_ne_hang fun _ _ => ?_
  refine bind_ne_hang sohPull_ne_hang fun _ _ => ?_
  refine bind_ne_hang sohRead_ne_hang fun _ _ => ?_
  refine bind_ne_hang sohPull_ne_hang fun _ _ => ?_
  refine bind_ne_hang sohPull_ne_hang fun _ _ => ?_
  split
  · simp
  · exact bind_ne_hang sohSub_ne_hang fun _ _ => sohTlvs_ne_hang

theorem sohVerify_ne_hang (data : List UInt8) (vps : List ValuePair) :
    sohVerify data vps ≠ .error .hang := by
  unfold sohVerify
  refine bind_ne_hang sohPull_ne_hang fun _ _ => ?_
  refine bind_ne_hang sohPull_ne_hang fun _ _ => ?_
  refine bind_ne_hang sohPull_ne_hang fun _ _ => ?_
  split
  · simp
  refine bind_ne_hang sohPull_ne_hang fun _ _ => ?_
  refine bind_ne_hang sohPull_ne_hang fun _ _ => ?_
  split
  · simp
  refine bind_ne_hang sohPull_ne_hang fun _ _ => ?_
  refine bind_ne_hang sohPull_ne_hang fun _ _ => ?_
  refine bind_ne_hang sohPull_ne_hang fun _ _ => ?_
  refine bind_ne_hang sohPull_ne_hang fun _ _ => ?_
  refine bind_ne_hang sohPull_ne_hang fun _ _ => ?_
  split
  · simp
  split
  · exact sohTlvs_ne_hang
  split
  · exact sohMode_ne_hang
  · simp

-- ======== the payload

/-- The mode sub-header is there, and if it is one of Microsoft's the rest
is covered. -/
def ModeFits (data : List UInt8) : Prop :=
  58 ≤ data.length
    ∧ (wordAt data 24 2 = 7 ∧ wordAt data 28 4 = 0x137
        ∧ wordAt data 57 1 = 0 →
      34 ≤ wordAt data 22 2
        ∧ TlvsFit (-1) (-1) (wordAt data 22 2 - 34) (data.drop 58))

/-- The headers are there as far as they are read, and the rest is
covered. -/
def SohFits (data : List UInt8) : Prop :=
  8 ≤ data.length
    ∧ (wordAt data 0 2 = 7 ∧ wordAt data 4 4 = 0x137 →
      12 ≤ data.length
        ∧ (wordAt data 8 2 = 1 →
          24 ≤ data.length
            ∧ (wordAt data 12 2 = 7 ∧ wordAt data 16 4 = 0x137 →
              (wordAt data 20 2 = 1 →
                TlvsFit (-1) (-1) (wordAt data 22 2) (data.drop 24))
              ∧ (wordAt data 20 2 = 2 → ModeFits data))))

theorem sohTlvs_ok_iff :
    (∃ r, sohTlvs p n vps = .ok r) ↔ TlvsFit (-1) (-1) n p := by
  rw [← sohLoop_ok_iff ⟨-1, -1, -1, vps⟩
    (Nat.lt_succ_self n)]
  unfold sohTlvs
  cases sohLoop (n + 1) p n ⟨-1, -1, -1, vps⟩ with
  | ok st => simp [Except.map]
  | error e => simp [Except.map]

theorem sohMode_ok_iff {data : List UInt8} :
    (∃ r, sohMode data (wordAt data 22 2) vps = .ok r) ↔ ModeFits data := by
  constructor
  · intro ⟨r, hr⟩
    unfold sohMode at hr
    simp only [bind_eq_ok, sohPull_eq_ok, sohRead_eq_ok] at hr
    obtain ⟨_, ⟨-, rfl⟩, _, -, _, ⟨-, rfl⟩, _, -, _, -, _, ⟨hlen, rfl⟩, hr⟩ := hr
    refine ⟨hlen, fun ⟨htype, hvendor, hcontent⟩ => ?_⟩
    rw [if_neg (by omega)] at hr
    obtain ⟨m, hm, hr⟩ := bind_eq_ok.mp hr
    obtain ⟨hinner, rfl⟩ := sohSub_eq_ok.mp hm
    exact ⟨hinner, sohTlvs_ok_iff.mp ⟨r, hr⟩⟩
  · intro ⟨hlen, hrest⟩
    unfold sohMode
    rw [sohPull_ok (by omega), ok_bind, sohPull_ok (by omega), ok_bind,
      sohPull_ok (by omega), ok_bind, sohRead_ok (by omega), ok_bind,
      sohPull_ok (by omega), ok_bind, sohPull_ok hlen, ok_bind]
    split
    · exact ⟨_, rfl⟩
    · next hmode =>
        obtain ⟨hinner, htlvs⟩ := hrest (by omega)
        rw [sohSub_eq_ok.mpr ⟨hinner, rfl⟩, ok_bind]
        exact sohTlvs_ok_iff.mpr htlvs

/-- For every payload: the function always ends, and it ends without a read
outside the payload, a counter below zero or a write outside a value
exactly when the payload fits. -/
theorem sohVerify_iff (data : List UInt8) (vps : List ValuePair) :
    sohVerify data vps ≠ .error .hang
      ∧ ((∃ r, sohVerify data vps = .ok r) ↔ SohFits data) := by
  refine ⟨sohVerify_ne_hang data vps, ?_, ?_⟩
  · intro ⟨r, hr⟩
    unfold sohVerify at hr
    obtain ⟨_, h0, hr⟩ := bind_eq_ok.mp hr
    obtain ⟨_, h2, hr⟩ := bind_eq_ok.mp hr
    obtain ⟨_, h4, hr⟩ := bind_eq_ok.mp hr
    obtain ⟨-, rfl⟩ := sohPull_eq_ok.mp h0
    obtain ⟨height, rfl⟩ := sohPull_eq_ok.mp h4
    refine ⟨height, fun ⟨htype, hvendor⟩ => ?_⟩
    rw [if_neg (by omega)] at hr
    obtain ⟨_, h8, hr⟩ := bind_eq_ok.mp hr
    obtain ⟨_, h10, hr⟩ := bind_eq_ok.mp hr
    obtain ⟨-, rfl⟩ := sohPull_eq_ok.mp h8
    refine ⟨(sohPull_eq_ok.mp h10).1, fun hsoh => ?_⟩
    rw [if_neg (by omega)] at hr
    obtain ⟨_, h12, hr⟩ := bind_eq_ok.mp hr
    obtain ⟨_, h14, hr⟩ := bind_eq_ok.mp hr
    obtain ⟨_, h16, hr⟩ := bind_eq_ok.mp hr
    obtain ⟨_, h20, hr⟩ := bind_eq_ok.mp hr
    obtain ⟨_, h22, hr⟩ := bind_eq_ok.mp hr
    obtain ⟨-, rfl⟩ := sohPull_eq_ok.mp h12
    obtain ⟨-, rfl⟩ := sohPull_eq_ok.mp h16
    obtain ⟨-, rfl⟩ := sohPull_eq_ok.mp h20
    obtain ⟨hlen, rfl⟩ := sohPull_eq_ok.mp h22
    refine ⟨hlen, fun ⟨houter, hvendor⟩ => ⟨fun hinner => ?_, fun hinner => ?_⟩⟩
    · rw [if_neg (by omega), if_pos hinner] at hr
      exact sohTlvs_ok_iff.mp ⟨r, hr⟩
    · rw [if_neg (by omega), if_neg (by omega), if_pos hinner] at hr
      exact sohMode_ok_iff.mp ⟨r, hr⟩
  · intro ⟨height, hvendor⟩
    unfold sohVerify
    rw [sohPull_ok (by omega), ok_bind, sohPull_ok (by omega), ok_bind,
      sohPull_ok height, ok_bind]
    split
    · exact ⟨_, rfl⟩
    next htype =>
    obtain ⟨htwelve, hsoh⟩ := hvendor (by omega)
    rw [sohPull_ok (by omega), ok_bind, sohPull_ok htwelve, ok_bind]
    split
    · exact ⟨_, rfl⟩
    next hone =>
    obtain ⟨hlen, houter⟩ := hsoh (by omega)
    rw [sohPull_ok (by omega), ok_bind, sohPull_ok (by omega), ok_bind,
      sohPull_ok (by omega), ok_bind, sohPull_ok (by omega), ok_bind,
      sohPull_ok hlen, ok_bind]
    split
    · exact ⟨_, rfl⟩
    next hms =>
    obtain ⟨hplain, hmode⟩ := houter (by omega)
    split
    · next hinner => exact sohTlvs_ok_iff.mpr (hplain hinner)
    split
    · next hinner => exact sohMode_ok_iff.mpr (hmode hinner)
    · exact ⟨_, rfl⟩

/-- A header that says four bytes of TLVs follow, and the TLV of a
Health-Class that is not there. -/
def cutSoh : List UInt8 :=
  [0, 7, 0, 20, 0, 0, 1, 0x37, 0, 1, 0, 12,
    0, 7, 0, 8, 0, 0, 1, 0x37, 0, 1, 0, 4, 0, 8, 0, 1]

/-- The class is read behind the end; and where it is there, the counter
goes below zero. -/
theorem sohVerify_overreads :
    sohVerify cutSoh [] = .error .overread
      ∧ sohVerify (cutSoh ++ [0]) [] = .error .wrap := by
  decide

end WinRadius
