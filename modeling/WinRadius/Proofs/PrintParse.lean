/-
The parsers of addresses undo the printers of addresses: interface ids,
Ethernet addresses, and the numeric hosts that a resolver is asked for.

What a resolver makes of a numeric host is described by a reader of its
own, `numericHost`, that takes numbers without leading zeros only.
-/
import WinRadius.Proofs.PrintPrefix

namespace WinRadius

open Lib

-- ======== numeric hosts

/-- The numeric hosts of the two families: four decimal numbers, or eight
hexadecimal ones, without leading zeros. -/
def numericHost (text : List UInt8) (af : Nat) : Option (List UInt8) :=
  if af = afInet then
    (readJoined 46 10 3 text).bind fun ns =>
      if ns.length = 4 ∧ ∀ n ∈ ns, n < 256 then
        some (ns.map UInt8.ofNat)
      else none
  else if af = afInet6 then
    (readJoined 58 16 4 text).bind fun ns =>
      if ns.length = 8 then some (ns.flatMap idBytes) else none
  else none

/-- The resolver answers a numeric host with its address. -/
def ResolvesNumbers (env : TextEnv) : Prop :=
  ∀ text af addr, numericHost text af = some addr →
    ∃ more, env.getaddrinfo text af = some ((af, addr) :: more)

theorem groups16_idBytes {bs : List UInt8} (h : bs.length % 2 = 0) :
    (groups16 bs).flatMap idBytes = bs := by
  induction bs using groups16.induct with
  | case1 a b bs ih =>
      have hrest := ih (by simp only [List.length_cons] at h; omega)
      rw [groups16, List.flatMap_cons, idBytes_group, hrest]
      rfl
  | case2 bs hnot =>
      rw [groups16_rest h hnot]
      rfl

theorem numericHost_ntop4 {addr : List UInt8} (h : addr.length = 4) :
    numericHost (joined 46 10 (addr.map (·.toNat))) afInet = some addr := by
  have hlt : ∀ n ∈ addr.map (·.toNat), n < 256 := by
    intro n hn
    obtain ⟨b, -, rfl⟩ := List.mem_map.mp hn
    exact b.toNat_lt
  have hread := readJoined_joined (b := 10) (k := 3) 46
    (addr.map (·.toNat)) (by omega) (by omega) (by omega) (by decide)
    (by rintro hnil; simp [List.map_eq_nil_iff.mp hnil] at h)
    (fun n hn => by have := hlt n hn; omega)
  rw [numericHost, if_pos rfl, hread, Option.bind_some,
    if_pos ⟨by rw [List.length_map, h], hlt⟩, List.map_map]
  congr 1
  apply List.map_id''
  intro b
  exact UInt8.ofNat_toNat

theorem numericHost_ntop6 {addr : List UInt8} (h : addr.length = 16) :
    numericHost (joined 58 16 (groups16 addr)) afInet6 = some addr := by
  have hlen := groups16_length (show addr.length % 2 = 0 by omega)
  have hread := readJoined_joined (b := 16) (k := 4) 58
    (groups16 addr) (by omega) (by omega) (by omega) (by decide)
    (by rintro hnil; simp [hnil] at hlen; omega)
    (fun n hn => groups16_lt addr n hn)
  rw [numericHost, if_neg (by decide), if_pos rfl, hread,
    Option.bind_some, if_pos (by omega), groups16_idBytes (by omega)]

-- ======== interface ids

/-- The digits of a group are added up. -/
theorem ifidLoop_digits (rest : List UInt8) (idx : Nat)
    (ifid : List UInt8) :
    ∀ (ds : List UInt8) (numId val : Nat),
      (∀ c ∈ ds, isDigitOf 16 c = true) → numId + ds.length ≤ 4 →
      ifidLoop (ds ++ rest) numId val idx ifid
        = ifidLoop rest (numId + ds.length)
          (ds.foldl (fun n c => n * 16 + (digitValue 16 c).getD 0) val)
          idx ifid := by
  intro ds
  induction ds with
  | nil =>
      intro numId val _ _
      rfl
  | cons c ds ih =>
      intro numId val hall hlen
      rw [List.length_cons] at hlen
      have hc := hall c List.mem_cons_self
      have h58 := (ge_of_isDigitOf (Nat.le_refl 16) hc).2
      obtain ⟨d, hd⟩ := Option.isSome_iff_exists.mp hc
      have hrest := ih (numId + 1) (val * 16 + d)
        (fun c' hc' => hall c' (List.mem_cons_of_mem c hc')) (by omega)
      rw [List.cons_append, ifidLoop, if_neg h58]
      simp only [hextab, hd]
      rw [if_neg (by omega), hrest, List.foldl_cons, hd,
        Option.getD_some, List.length_cons]
      congr 1
      omega

theorem ifidLoop_numeral {n : Nat} (rest : List UInt8) (idx : Nat)
    (ifid : List UInt8) (h : n < 65536) :
    ∃ k, 0 < k ∧ ifidLoop (numeral 16 n ++ rest) 0 0 idx ifid
      = ifidLoop rest k n idx ifid := by
  have hlen := numeral_length_le (b := 16) (k := 4) (n := n) (by omega)
    (by omega) (by omega)
  have hdigits := ifidLoop_digits rest idx ifid (numeral 16 n) 0 0
    (fun c => isDigitOf_of_mem (by omega) (by omega)) (by omega)
  refine ⟨(numeral 16 n).length, List.length_pos_iff.mpr numeral_ne_nil,
    ?_⟩
  rw [hdigits, Nat.zero_add]
  congr 1
  exact ofNumeral_numeral (by omega) (by omega) n

/-- `ifid_aton` undoes `ifid_ntoa`, one group at a time. -/
theorem ifidLoop_groups (bs : List UInt8) :
    ∀ (idx : Nat) (ifid : List UInt8), bs ≠ [] → bs.length % 2 = 0 →
      idx + bs.length = 8 →
      ifidLoop (joined 58 16 (groups16 bs)) 0 0 idx ifid
        = some (ifid ++ bs) := by
  induction bs using groups16.induct with
  | case1 a b bs ih =>
      intro idx ifid _ heven hidx
      simp only [List.length_cons] at heven hidx
      have ha := a.toNat_lt
      have hb := b.toNat_lt
      cases bs with
      | nil =>
          obtain ⟨k, hk, hloop⟩ := ifidLoop_numeral
            (n := a.toNat * 256 + b.toNat) [] idx ifid (by omega)
          simp only [groups16, joined_singleton, List.append_nil] at hloop ⊢
          rw [hloop, ifidLoop, if_neg (by omega), if_neg (by
            simp at hidx
            omega), idBytes_group]
      | cons a' bs =>
          cases bs with
          | nil => simp at heven
          | cons b' bs =>
              simp only [List.length_cons] at heven hidx
              have hrest := ih (idx + 2) (ifid ++ [a, b]) (by simp)
                (by simp only [List.length_cons]; omega)
                (by simp only [List.length_cons]; omega)
              obtain ⟨k, hk, hloop⟩ := ifidLoop_numeral
                (n := a.toNat * 256 + b.toNat)
                (58 :: joined 58 16 (groups16 (a' :: b' :: bs)))
                idx ifid (by omega)
              simp only [groups16, joined_cons] at hloop hrest ⊢
              rw [hloop, ifidLoop, if_pos rfl, if_neg (by omega),
                if_neg (by omega), idBytes_group, hrest]
              simp
  | case2 bs hnot =>
      intro idx ifid hne heven _
      exact absurd (groups16_rest heven hnot) hne

theorem ifidAton_ifidNtoa {bs : List UInt8} (h : bs.length = 8) :
    ifidAton (ifidNtoa bs) = some bs := by
  have hne : bs ≠ [] := by
    rintro rfl
    simp at h
  rw [ifidAton, ifidNtoa,
    ifidLoop_groups bs 0 [] hne (by omega) (by omega), List.nil_append]

-- ======== Ethernet addresses

/-- The parser of an Ethernet address undoes its printer. -/
theorem etherLoop_hexBytes (bs : List UInt8) :
    ∀ ether : List UInt8, ether.length + bs.length ≤ 6 →
      etherLoop ([58].intercalate (bs.map hexByte)) ether
        = some (ether ++ bs) := by
  induction bs with
  | nil =>
      intro ether _
      simp [List.intercalate, etherLoop]
  | cons b bs ih =>
      intro ether hlen
      rw [List.length_cons] at hlen
      obtain ⟨hi, lo, hhi, hlo, hsum, hb⟩ := hexByte_eq b
      have hlo58 := (digitByte_ne_mark hlo).2.2.1
      have hval : UInt8.ofNat (hi * 16 + lo) = b := by
        rw [hsum, UInt8.ofNat_toNat]
      cases bs with
      | nil =>
          simp only [List.map_cons, List.map_nil, List.intercalate_singleton,
            hb, etherLoop, if_neg hlo58, hextab_digitByte hhi,
            hextab_digitByte hlo, Option.bind_eq_bind, Option.bind_some]
          rw [if_neg (by simp at hlen; omega), hval]
      | cons b' bs =>
          have hrest := ih (ether ++ [b]) (by
            rw [List.length_append, List.length_singleton]
            omega)
          simp only [List.map_cons] at hrest ⊢
          rw [List.intercalate_cons_cons, hb]
          simp only [List.cons_append, List.nil_append, etherLoop,
            if_neg hlo58, if_true, hextab_digitByte hhi,
            hextab_digitByte hlo, Option.bind_eq_bind, Option.bind_some]
          rw [if_neg (by simp at hlen; omega), hval]
          simp only [hrest, List.append_assoc, List.singleton_append]

end WinRadius
