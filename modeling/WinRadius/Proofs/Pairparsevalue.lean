/-
Printed values read back: `pairparsevalue` of what `vp_prints_value`
writes without delimiters.

One lemma for each kind of attribute says what the parsed pair is, and
`pairparsevalue_iff` collects them: every value is restored but a name
that does not read back as its value, a comparison of an address with a
regular expression, and all prefixes but ten addresses. The parser of
prefixes leaves bytes of the text where the address was.
-/
import WinRadius.Proofs.PrintParse

namespace WinRadius

open Lib

-- ======== statements

/-- A value of one of the ten types. An integer has no name in the
dictionary. -/
def Valued (env : TextEnv) (vp : ValuePair) : Prop :=
  match vp.type with
  | .octets => vp.length ≤ maxStringLen
  | .byte => vp.length = 1 ∧ vp.lvalue.toNat ≤ 255
  | .short => vp.length = 2 ∧ vp.lvalue.toNat ≤ 65535
  | .integer =>
      vp.length = 4 ∧ env.dict.valbyattr vp.attr
        (if vp.flags.hasTag then vp.lvalue &&& 0xffffff else vp.lvalue)
          = none
  | .ipv6Prefix => 2 ≤ vp.length ∧ vp.length ≤ 18
  | .ifid | .ethernet | .signed | .ipaddr | .ipv6addr =>
      vp.length = typeLength vp.type
  | .string | .abinary | .date | .comboIp | .tlv => False

/-- A name that stands for its value: as a number, or else in the
dictionary. -/
def ReadsAs (env : TextEnv) (attr : Nat) (name : List UInt8)
    (v : UInt32) : Prop :=
  if checkForWhitespace (getint name).2 then (getint name).1 = v
  else env.valbyname attr name = some v

/-- The values that printing and parsing keep. -/
def Restores (env : TextEnv) (vp into : ValuePair) : Prop :=
  match vp.type with
  | .byte | .short =>
      ∀ name, env.dict.valbyattr vp.attr vp.lvalue = some name →
        ReadsAs env vp.attr (cString name) vp.lvalue
  | .integer => vp.flags.hasTag → vp.lvalue.toNat < 16777216
  | .ipaddr => into.op ≠ .opRegEq ∧ into.op ≠ .opRegNe
  | .ipv6Prefix =>
      vp.length = 18 ∧ ∃ d < 10, ∃ n : UInt8, n.toNat ≤ 128 ∧
        vp.octets 18 = 0 :: n :: ownText d
  | _ => True

/-- A pair with the value and length of another. -/
def SameValue (r vp : ValuePair) : Prop :=
  r.value = vp.value ∧ r.length = vp.length

-- ======== the texts

section texts

variable {env : TextEnv} {vp into : ValuePair} {a : List UInt8}

theorem cString_cString (bs : List UInt8) :
    cString (cString bs) = cString bs := by
  apply cString_of_ne
  intro c hc
  simpa using List.mem_takeWhile_imp hc

/-- A parser sees a text up to its terminator. -/
theorem pairparsevalue_cString (a : List UInt8) :
    pairparsevalue env into (cString a) = pairparsevalue env into a := by
  unfold pairparsevalue
  rw [cString_cString]

theorem valueText_raw
    (hraw : vp.type = .abinary ∨ vp.type = .octets ∨ vp.type = .tlv)
    (ha : valueText env vp 0 = some a) : a.length = 2 * (vp.length + 1) := by
  unfold valueText at ha
  rcases hraw with h | h | h
  all_goals
    rw [h] at ha
    cases ha
    simp [frBin2hex_length, ValuePair.octets]
    omega

/-- In a buffer with room for it, the text is all there. -/
theorem vpPrintsValue_of_room {outlen : Nat}
    (ha : valueText env vp 0 = some a) (hroom : a.length < outlen) :
    vpPrintsValue env outlen vp 0 = cString a := by
  have hguard : ¬ ((vp.type = .abinary ∨ vp.type = .octets
      ∨ vp.type = .tlv) ∧ outlen ≤ 2 * (vp.length + 1)) := by
    rintro ⟨hraw, hsmall⟩
    have := valueText_raw hraw ha
    omega
  unfold vpPrintsValue
  dsimp only
  rw [if_neg hguard, ha]
  simp only [strlcpy]
  apply List.take_of_length_le
  have := (List.takeWhile_sublist (· ≠ 0) (l := a)).length_le
  have hc : (cString a).length ≤ a.length := this
  omega

theorem ne_zero_of_ge {c : UInt8} (h : 48 ≤ c) : c ≠ 0 := by
  rintro rfl
  exact absurd h (by decide)

theorem numeral_ne_zero {b n : Nat} (hb : 1 < b) (hb16 : b ≤ 16) :
    ∀ c ∈ numeral b n, c ≠ 0 := by
  intro c hc
  exact ne_zero_of_ge (ge_of_mem_numeral hb hb16 hc).1

theorem joined_ne_zero {sep : UInt8} {b : Nat} {ns : List Nat}
    (hb : 1 < b) (hb16 : b ≤ 16) (hsep : sep ≠ 0) :
    ∀ c ∈ joined sep b ns, c ≠ 0 := by
  intro c hc
  rcases ge_of_mem_joined hb hb16 hc with rfl | hc
  · exact hsep
  · exact ne_zero_of_ge hc.1

theorem hexByte_ne_zero (b : UInt8) : ∀ c ∈ hexByte b, c ≠ 0 := by
  obtain ⟨hi, lo, hhi, hlo, -, hb⟩ := hexByte_eq b
  intro c hc
  rw [hb, List.mem_pair] at hc
  rcases hc with rfl | rfl
  · exact (digitByte_ne_mark hhi).2.2.2
  · exact (digitByte_ne_mark hlo).2.2.2

theorem frBin2hex_ne_zero (bs : List UInt8) :
    ∀ c ∈ frBin2hex bs, c ≠ 0 := by
  intro c hc
  obtain ⟨b, -, hb⟩ := List.mem_flatMap.mp hc
  exact hexByte_ne_zero b c hb

end texts

-- ======== what is written over

section written

variable {into : ValuePair}

@[simp] theorem keepText_type (text : List UInt8) :
    (into.keepText text).type = into.type := rfl

@[simp] theorem keepText_attr (text : List UInt8) :
    (into.keepText text).attr = into.attr := rfl

@[simp] theorem keepText_op (text : List UInt8) :
    (into.keepText text).op = into.op := rfl

/-- A pair with bytes over the front of its string. -/
def written (into : ValuePair) (text bs : List UInt8) : ValuePair :=
  { (into.keepText text).setOctets bs with length := bs.length }

theorem written_octets (into : ValuePair) (text bs : List UInt8) :
    (written into text bs).octets bs.length = bs :=
  padTake_append bs _

/-- The types that keep their value in the string. -/
def InString (type : PwType) : Prop :=
  type ∈ [.octets, .ifid, .ethernet, .ipv6addr, .ipv6Prefix]

theorem value_inString {vp : ValuePair} (h : InString vp.type) :
    vp.value = .bytes (vp.octets vp.length) := by
  unfold ValuePair.value
  simp only [InString, List.mem_cons, List.not_mem_nil, or_false] at h
  rcases h with h | h | h | h | h
  all_goals rw [h]

/-- Writing the bytes of a value restores it. -/
theorem written_same {vp : ValuePair} {text bs : List UInt8}
    (htype : into.type = vp.type) (hin : InString vp.type)
    (hbs : bs = vp.octets vp.length) :
    SameValue (written into text bs) vp := by
  have hlen : bs.length = vp.length := by
    rw [hbs]
    exact padTake_length _ _
  have hin' : InString (written into text bs).type := by
    rw [show (written into text bs).type = vp.type from htype]
    exact hin
  refine ⟨?_, hlen⟩
  rw [value_inString hin, value_inString hin']
  exact congrArg _ ((written_octets into text bs).trans hbs)

end written

-- ======== the five in strings

section strings

variable {env : TextEnv} {vp into : ValuePair}

theorem octets_parsed {bs : List UInt8} (ht : into.type = .octets)
    (hlen : bs.length ≤ maxStringLen) :
    pairparsevalue env into (48 :: 120 :: frBin2hex bs)
      = .ok (written into (48 :: 120 :: frBin2hex bs) bs) := by
  have hnul : cString (48 :: 120 :: frBin2hex bs)
      = 48 :: 120 :: frBin2hex bs := by
    apply cString_of_ne
    intro c hc
    rw [List.mem_cons, List.mem_cons] at hc
    rcases hc with rfl | rfl | hc
    · decide
    · decide
    · exact frBin2hex_ne_zero bs c hc
  unfold pairparsevalue
  rw [hnul]
  simp only [ht, reduceCtorEq, if_false, keepText_type, parseOctets]
  rw [if_pos (by rfl), List.drop_succ_cons, List.drop_succ_cons,
    List.drop_zero, if_neg (by rw [frBin2hex_length]; omega),
    octetsLoop_frBin2hex bs _ hlen]
  rfl

theorem ifid_parsed {bs : List UInt8} (ht : into.type = .ifid)
    (hlen : bs.length = 8) :
    pairparsevalue env into (ifidNtoa bs)
      = .ok (written into (ifidNtoa bs) bs) := by
  have hnul : cString (ifidNtoa bs) = ifidNtoa bs :=
    cString_of_ne (joined_ne_zero (by omega) (by omega) (by decide))
  unfold pairparsevalue
  rw [hnul]
  simp only [ht, reduceCtorEq, if_false, keepText_type,
    ifidAton_ifidNtoa hlen]
  rw [written, hlen]

theorem etherText_ne_zero (bs : List UInt8) :
    ∀ c ∈ [58].intercalate (bs.map hexByte), c ≠ 0 := by
  induction bs with
  | nil => simp [List.intercalate]
  | cons b bs ih =>
      cases bs with
      | nil =>
          rw [List.map_cons, List.map_nil, List.intercalate_singleton]
          exact hexByte_ne_zero b
      | cons b' bs =>
          intro c hc
          simp only [List.map_cons] at hc ih
          rw [List.intercalate_cons_cons, List.append_assoc,
            List.mem_append, List.singleton_append, List.mem_cons] at hc
          rcases hc with hc | rfl | hc
          · exact hexByte_ne_zero b c hc
          · decide
          · exact ih c hc

theorem ethernet_parsed {bs : List UInt8} (ht : into.type = .ethernet)
    (hlen : bs.length = 6) :
    pairparsevalue env into ([58].intercalate (bs.map hexByte))
      = .ok (written into ([58].intercalate (bs.map hexByte)) bs) := by
  have hnul : cString ([58].intercalate (bs.map hexByte))
      = [58].intercalate (bs.map hexByte) := by
    exact cString_of_ne (etherText_ne_zero bs)
  have hether := etherLoop_hexBytes bs [] (by simp [hlen])
  unfold pairparsevalue
  rw [hnul]
  simp only [ht, reduceCtorEq, if_false, keepText_type, hether,
    List.nil_append]
  rw [written, hlen]

theorem ipHton_numeric (henv : ResolvesNumbers env) {af : Nat}
    {text addr : List UInt8} (h : numericHost text af = some addr) :
    ipHton env text af = some (af, addr) := by
  obtain ⟨more, hmore⟩ := henv text af addr h
  rw [ipHton, hmore, Option.bind_some, List.find?_cons]
  simp

theorem ipv6addr_parsed (henv : ResolvesNumbers env) {bs : List UInt8}
    (ht : into.type = .ipv6addr) (hlen : bs.length = 16) :
    pairparsevalue env into (joined 58 16 (groups16 bs))
      = .ok (written into (joined 58 16 (groups16 bs)) bs) := by
  have hnul : cString (joined 58 16 (groups16 bs))
      = joined 58 16 (groups16 bs) :=
    cString_of_ne (joined_ne_zero (by omega) (by omega) (by decide))
  have hhost := ipHton_numeric henv (numericHost_ntop6 hlen)
  have hpad : padTake 16 bs = bs := by
    rw [← hlen]
    exact padTake_self bs
  unfold pairparsevalue
  rw [hnul]
  simp only [ht, reduceCtorEq, if_false, keepText_type, hhost, hpad]
  rw [written, hlen]

end strings

-- ======== the prefix

section ipv6prefix

variable {env : TextEnv} {vp into : ValuePair} {addr : List UInt8} {n : Nat}

theorem prefixText_ne_zero (addr : List UInt8) (n : Nat) :
    ∀ c ∈ prefixText addr n, c ≠ 0 := by
  intro c hc
  rw [prefixText, List.mem_append, List.mem_cons] at hc
  rcases hc with hc | rfl | hc
  · exact joined_ne_zero (by omega) (by omega) (by decide) c hc
  · decide
  · exact numeral_ne_zero (by omega) (by omega) c hc

theorem splitSlash_prefixText :
    splitSlash (prefixText addr n)
      = some (joined 58 16 (groups16 addr), numeral 10 n) := by
  have hne : ∀ c ∈ joined 58 16 (groups16 addr), (c != 47) = true := by
    intro c hc
    rcases ge_of_mem_joined (by omega) (by omega) hc with rfl | hc
    · decide
    · rw [bne_iff_ne]
      rintro rfl
      exact absurd hc.1 (by decide)
  have hin : (prefixText addr n).contains 47 = true := by
    rw [List.contains_iff_mem, prefixText]
    simp
  rw [splitSlash, if_pos hin, prefixText,
    List.takeWhile_append_of_pos hne, List.dropWhile_append_of_pos hne]
  simp

theorem prefixText_length (haddr : addr.length = 16) (hn : n < 256) :
    (joined 58 16 (groups16 addr)).length ≤ 40
      ∧ 17 ≤ (prefixText addr n).length
      ∧ (prefixText addr n).length ≤ 253 := by
  have hgroups := groups16_length (show addr.length % 2 = 0 by omega)
  have hge := joined_length_ge 58 16 (groups16 addr)
  have hle := joined_length_le (b := 16) (k := 4) 58 (by omega)
    (by omega) (groups16_lt addr)
  have hpos := List.length_pos_iff.mpr (numeral_ne_nil (b := 10) (n := n))
  have hnum := numeral_length_le (b := 10) (k := 3) (n := n) (by omega)
    (by omega) (by omega)
  rw [prefixText, List.length_append, List.length_cons]
  omega

/-- The pair of a parsed prefix: the text is still there behind the
length of the prefix. -/
def prefixPair (into : ValuePair) (text : List UInt8) (len : UInt8) :
    ValuePair :=
  { (into.keepText text).setOctets [0, len] with length := 18 }

theorem prefix_parsed (env : TextEnv) (len : UInt8)
    (ht : into.type = .ipv6Prefix)
    (haddr : addr.length = 16) :
    pairparsevalue env into (prefixText addr len.toNat)
      = if 128 < len.toNat then
          .error (.prefixLength (prefixText addr len.toNat))
        else .ok (prefixPair into (prefixText addr len.toNat) len) := by
  have hnul := cString_of_ne (prefixText_ne_zero addr len.toNat)
  have hlt := len.toNat_lt
  obtain ⟨hbuffer, -, -⟩ := prefixText_length haddr hlt
  unfold pairparsevalue
  rw [hnul]
  simp only [ht, reduceCtorEq, if_false, keepText_type, parseIpv6Prefix,
    splitSlash_prefixText]
  rw [if_neg (by omega), strtoul_numeral (by omega)]
  simp only [ne_eq, not_true_eq_false, or_false, UInt32.lt_iff_toNat_lt,
    UInt32.toNat_ofNat', UInt32.reduceToNat]
  rw [Nat.mod_eq_of_lt (by omega)]
  split
  · rfl
  · rw [prefixPair]
    simp

theorem prefixPair_octets (into : ValuePair) (len : UInt8)
    (haddr : addr.length = 16)
    (hn : n < 256) :
    (prefixPair into (prefixText addr n) len).octets 18
      = 0 :: len :: keptAddress (prefixText addr n) := by
  obtain ⟨-, hge, hle⟩ := prefixText_length haddr hn
  have hdata : (prefixPair into (prefixText addr n) len).data
      = 0 :: len :: ((prefixText addr n ++ [0]).drop 2
        ++ into.data.drop (prefixText addr n ++ [0]).length) := by
    simp only [prefixPair, ValuePair.keepText, ValuePair.setOctets]
    rw [List.take_of_length_le hle,
      List.drop_append_of_le_length (by simp; omega)]
    rfl
  rw [ValuePair.octets, hdata, padTake_of_le (by simp; omega),
    List.take_succ_cons, List.take_succ_cons, keptAddress,
    List.take_append_of_le_length (by simp; omega)]

end ipv6prefix

-- ======== the numbers

section numbers

variable {env : TextEnv} {vp into : ValuePair}

/-- The types that keep their value in `lvalue`. -/
theorem word_same {r : ValuePair} (htype : r.type = vp.type)
    (ht : vp.type = .byte ∨ vp.type = .short ∨ vp.type = .integer
      ∨ vp.type = .ipaddr) :
    SameValue r vp ↔ r.lvalue = vp.lvalue ∧ r.length = vp.length := by
  unfold SameValue ValuePair.value
  rw [htype]
  rcases ht with ht | ht | ht | ht
  all_goals
    rw [ht]
    simp

theorem parseInteger_shape {length bound : Nat} {e : ParseError}
    {r : ValuePair} {text : List UInt8}
    (h : parseInteger env length bound e into text = .ok r) :
    r.type = into.type ∧ r.length = length := by
  unfold parseInteger checkForValue at h
  dsimp only at h
  split at h
  · split at h
    · cases h
    · cases h
      exact ⟨rfl, rfl⟩
  · split at h
    · cases h
      exact ⟨rfl, rfl⟩
    · split at h
      · cases h
      · cases h
        exact ⟨rfl, rfl⟩

/-- A text is parsed as the value it stands for. -/
theorem parseInteger_reads (env : TextEnv) (into : ValuePair)
    (length : Nat) (e : ParseError) (text : List UInt8) {bound : Nat}
    {v : UInt32} (hv : v.toNat ≤ bound) :
    (∃ r, parseInteger env length bound e into text = .ok r
        ∧ r.lvalue = v) ↔ ReadsAs env into.attr text v := by
  unfold parseInteger checkForValue ReadsAs
  dsimp only
  by_cases hp : (getint text).2 = []
  · have hblank : checkForWhitespace (getint text).2 = true := by
      rw [hp]
      rfl
    rw [if_pos hp, if_pos hblank]
    by_cases hlarge : bound < (getint text).1.toNat
    · rw [if_pos hlarge]
      constructor
      · rintro ⟨r, hr, -⟩
        cases hr
      · rintro rfl
        omega
    · rw [if_neg hlarge]
      simp
  · rw [if_neg hp]
    by_cases hblank : checkForWhitespace (getint text).2 = true
    · rw [if_pos hblank, if_pos hblank]
      simp
    · rw [if_neg hblank, if_neg hblank]
      cases env.valbyname into.attr text with
      | none => simp
      | some w => simp

/-- A pair of a number type is restored by the texts that stand for its
value. -/
theorem reads_iff {length bound : Nat} {e : ParseError} {text : List UInt8}
    (hparse : pairparsevalue env into text
      = parseInteger env length bound e (into.keepText (cString text))
        (cString text))
    (hattr : into.attr = vp.attr) (htype : into.type = vp.type)
    (ht : vp.type = .byte ∨ vp.type = .short ∨ vp.type = .integer
      ∨ vp.type = .ipaddr)
    (hlen : vp.length = length) (hv : vp.lvalue.toNat ≤ bound) :
    (∃ r, pairparsevalue env into text = .ok r ∧ SameValue r vp)
      ↔ ReadsAs env vp.attr (cString text) vp.lvalue := by
  have hreads := parseInteger_reads env (into.keepText (cString text)) length
    e (cString text) hv
  rw [keepText_attr, hattr] at hreads
  rw [hparse, ← hreads]
  constructor
  · rintro ⟨r, hr, hsame⟩
    obtain ⟨hrtype, -⟩ := parseInteger_shape hr
    exact ⟨r, hr, ((word_same (hrtype.trans htype) ht).mp hsame).1⟩
  · rintro ⟨r, hr, hval⟩
    obtain ⟨hrtype, hrlen⟩ := parseInteger_shape hr
    refine ⟨r, hr, (word_same (hrtype.trans htype) ht).mpr ⟨hval, ?_⟩⟩
    rw [hrlen, hlen]

/-- A decimal number stands for itself only. -/
theorem readsAs_numeral {attr : Nat} (w v : UInt32) :
    ReadsAs env attr (cString (numeral 10 w.toNat)) v ↔ w = v := by
  rw [cString_of_ne (numeral_ne_zero (by omega) (by omega)), ReadsAs,
    getint_numeral, if_pos (by rfl)]

/-- What is printed of a number stands for it, unless it is a name that
does not. -/
theorem readsAs_valueName {attr : Nat} (v : UInt32) :
    ReadsAs env attr (cString (valueName env attr v)) v
      ↔ ∀ name, env.dict.valbyattr attr v = some name →
        ReadsAs env attr (cString name) v := by
  unfold valueName
  cases env.dict.valbyattr attr v with
  | none => simp [readsAs_numeral]
  | some name => simp

/-- Only the tag's byte is masked away. -/
theorem untagged_eq (v : UInt32) :
    v &&& 0xffffff = v ↔ v.toNat < 16777216 := by
  have hmask : (v &&& 0xffffff).toNat = v.toNat % 16777216 := by
    rw [UInt32.toNat_and]
    exact Nat.and_two_pow_sub_one_eq_mod v.toNat 24
  rw [← UInt32.toNat_inj, hmask]
  omega

end numbers

-- ======== the ten types

section types

variable {env : TextEnv} {vp into : ValuePair}

/-- What is printed of a value is parsed as the same value under the
condition. -/
def Returns (env : TextEnv) (vp into : ValuePair) : Prop :=
  ∃ a, valueText env vp 0 = some a ∧
    ((∃ r, pairparsevalue env into a = .ok r ∧ SameValue r vp)
      ↔ Restores env vp into)

/-- Types without a condition. -/
theorem returns_of_parsed {a bs : List UInt8}
    (ha : valueText env vp 0 = some a)
    (hparse : pairparsevalue env into a = .ok (written into a bs))
    (hbs : bs = vp.octets vp.length) (htype : into.type = vp.type)
    (hin : InString vp.type) (hcond : Restores env vp into) :
    Returns env vp into := by
  refine ⟨a, ha, fun _ => hcond, fun _ => ?_⟩
  exact ⟨_, hparse, written_same htype hin hbs⟩

theorem returns_byte (ht : vp.type = .byte) (hvp : Valued env vp)
    (hattr : into.attr = vp.attr) (htype : into.type = vp.type) :
    Returns env vp into := by
  simp only [Valued, ht] at hvp
  refine ⟨valueName env vp.attr vp.lvalue, by simp [valueText, ht], ?_⟩
  have hparse : pairparsevalue env into (valueName env vp.attr vp.lvalue)
      = parseInteger env 1 255 (.byteTooLarge
          (cString (valueName env vp.attr vp.lvalue)))
        (into.keepText (cString (valueName env vp.attr vp.lvalue)))
        (cString (valueName env vp.attr vp.lvalue)) := by
    simp [pairparsevalue, htype, ht]
  rw [reads_iff hparse hattr htype (by simp [ht]) hvp.1 hvp.2,
    readsAs_valueName]
  simp [Restores, ht]

theorem returns_short (ht : vp.type = .short) (hvp : Valued env vp)
    (hattr : into.attr = vp.attr) (htype : into.type = vp.type) :
    Returns env vp into := by
  simp only [Valued, ht] at hvp
  refine ⟨valueName env vp.attr vp.lvalue, by simp [valueText, ht], ?_⟩
  have hparse : pairparsevalue env into (valueName env vp.attr vp.lvalue)
      = parseInteger env 2 65535 (.shortTooLarge
          (cString (valueName env vp.attr vp.lvalue)))
        (into.keepText (cString (valueName env vp.attr vp.lvalue)))
        (cString (valueName env vp.attr vp.lvalue)) := by
    simp [pairparsevalue, htype, ht]
  rw [reads_iff hparse hattr htype (by simp [ht]) hvp.1 hvp.2,
    readsAs_valueName]
  simp [Restores, ht]

theorem returns_integer (ht : vp.type = .integer) (hvp : Valued env vp)
    (hattr : into.attr = vp.attr) (htype : into.type = vp.type) :
    Returns env vp into := by
  simp only [Valued, ht] at hvp
  obtain ⟨hlen, hname⟩ := hvp
  have hlt := vp.lvalue.toNat_lt
  have hparse : ∀ a, pairparsevalue env into a
      = parseInteger env 4 4294967295 (.unknownValue (cString a))
        (into.keepText (cString a)) (cString a) := by
    intro a
    simp [pairparsevalue, htype, ht]
  by_cases htag : vp.flags.hasTag = true
  · rw [if_pos htag] at hname
    refine ⟨numeral 10 (vp.lvalue &&& 0xffffff).toNat,
      by simp [valueText, ht, htag, valueName, hname], ?_⟩
    rw [reads_iff (hparse _) hattr htype (by simp [ht]) hlen (by omega),
      readsAs_numeral, untagged_eq]
    simp [Restores, ht, htag]
  · rw [if_neg htag] at hname
    refine ⟨numeral 10 vp.lvalue.toNat,
      by simp [valueText, ht, htag, valueName, hname], ?_⟩
    rw [reads_iff (hparse _) hattr htype (by simp [ht]) hlen (by omega),
      readsAs_numeral]
    simp [Restores, ht, htag]

theorem signed_bounds (vp : ValuePair) :
    -2147483648 ≤ vp.signed ∧ vp.signed ≤ 2147483647 := by
  obtain ⟨v, hv⟩ : ∃ v, v = vp.sinteger := ⟨_, rfl⟩
  have h := v.toNat_lt
  unfold ValuePair.signed
  rw [← hv]
  split
  · omega
  · omega

theorem signedNumeral_ne_zero (n : Int) :
    ∀ c ∈ signedNumeral n, c ≠ 0 := by
  intro c hc
  unfold signedNumeral at hc
  split at hc
  · rw [List.mem_cons] at hc
    rcases hc with rfl | hc
    · decide
    · exact numeral_ne_zero (by omega) (by omega) c hc
  · exact numeral_ne_zero (by omega) (by omega) c hc

/-- `strtol` finds the bytes of a signed value. -/
theorem le32_strtol (vp : ValuePair) :
    le32 (UInt32.ofInt (strtol 10 (signedNumeral vp.signed)))
      = vp.octets 4 := by
  obtain ⟨hlo, hhi⟩ := signed_bounds vp
  have hlen : (vp.octets 4).length = 4 := padTake_length _ _
  rw [strtol_signedNumeral hlo hhi, ofInt_signed, ValuePair.sinteger,
    le32_ofLe32 hlen]

theorem parseSigned_eq (vp into : ValuePair) :
    parseSigned (into.keepText (signedNumeral vp.signed))
        (signedNumeral vp.signed)
      = written into (signedNumeral vp.signed) (vp.octets 4) := by
  have hlen : (vp.octets 4).length = 4 := padTake_length _ _
  rw [parseSigned, le32_strtol, written, hlen]

theorem signed_same {text : List UInt8} (ht : vp.type = .signed)
    (hlen : vp.length = 4) (htype : into.type = vp.type) :
    SameValue (written into text (vp.octets 4)) vp := by
  have hoctets : (vp.octets 4).length = 4 := padTake_length _ _
  have hread := written_octets into text (vp.octets 4)
  rw [hoctets] at hread
  refine ⟨?_, hoctets.trans hlen.symm⟩
  unfold ValuePair.value
  rw [show (written into text (vp.octets 4)).type = .signed
    from htype.trans ht, ht]
  simp only [ValuePair.sinteger, hread]

theorem signed_parsed (env : TextEnv) {text : List UInt8} (ht : into.type = .signed)
    (hnul : cString text = text) :
    pairparsevalue env into text
      = .ok (parseSigned (into.keepText text) text) := by
  unfold pairparsevalue
  rw [hnul]
  simp only [ht, reduceCtorEq, if_false, keepText_type]

theorem returns_signed (ht : vp.type = .signed) (hvp : Valued env vp)
    (htype : into.type = vp.type) : Returns env vp into := by
  simp only [Valued, ht, typeLength] at hvp
  have htext : valueText env vp 0 = some (signedNumeral vp.signed) := by
    unfold valueText
    rw [ht]
  have hnul := cString_of_ne (signedNumeral_ne_zero vp.signed)
  have hparse := signed_parsed env (htype.trans ht) hnul
  rw [parseSigned_eq] at hparse
  have hcond : Restores env vp into := by
    simp only [Restores, ht]
  exact ⟨_, htext, fun _ => hcond, fun _ =>
    ⟨_, hparse, signed_same ht hvp htype⟩⟩

/-- What is printed of an IPv4 address. -/
def ipv4Text (v : UInt32) : List UInt8 :=
  joined 46 10 ((le32 v).map (·.toNat))

/-- The text does not end in the mark for the port. -/
theorem ipv4Text_last (v : UInt32) : (ipv4Text v).getLast? ≠ some 43 := by
  intro h
  have hmem := List.mem_of_getLast? h
  rcases ge_of_mem_joined (by omega) (by omega) hmem with h | h
  · exact absurd h (by decide)
  · exact absurd h.1 (by decide)

theorem returns_ipaddr (henv : ResolvesNumbers env)
    (ht : vp.type = .ipaddr) (hvp : Valued env vp)
    (htype : into.type = vp.type) : Returns env vp into := by
  simp only [Valued, ht, typeLength] at hvp
  have haddr : ((le32 vp.lvalue).length) = 4 := le32_length _
  have htext : valueText env vp 0 = some (ipv4Text vp.lvalue) := by
    have hpad : padTake 4 (le32 vp.lvalue) = le32 vp.lvalue := by
      rw [← haddr]
      exact padTake_self _
    simp [valueText, ht, inetNtop, hpad, ipv4Text]
  refine ⟨ipv4Text vp.lvalue, htext, ?_⟩
  have hnul : cString (ipv4Text vp.lvalue) = ipv4Text vp.lvalue :=
    cString_of_ne (joined_ne_zero (by omega) (by omega) (by decide))
  by_cases hop : into.op = .opRegEq ∨ into.op = .opRegNe
  · have hparse : pairparsevalue env into (ipv4Text vp.lvalue)
        = .ok (into.keepText (ipv4Text vp.lvalue)) := by
      unfold pairparsevalue
      rw [hnul]
      simp only [htype, ht, reduceCtorEq, if_false, keepText_type,
        keepText_op]
      rw [if_pos hop]
    -- the length is that of the text, which is longer than an address
    constructor
    · rintro ⟨r, hr, hsame⟩
      rw [hparse] at hr
      cases hr
      have hlen := hsame.2
      have hge := joined_length_ge 46 10 ((le32 vp.lvalue).map (·.toNat))
      rw [List.length_map, haddr] at hge
      have hkept : (into.keepText (ipv4Text vp.lvalue)).length
          = min 253 (ipv4Text vp.lvalue).length := List.length_take
      rw [hkept, hvp] at hlen
      unfold ipv4Text at hlen
      omega
    · intro hcond
      simp only [Restores, ht] at hcond
      rcases hop with hop | hop
      · exact absurd hop hcond.1
      · exact absurd hop hcond.2
  · have hparse : pairparsevalue env into (ipv4Text vp.lvalue)
        = .ok { into.keepText (ipv4Text vp.lvalue) with
            lvalue := vp.lvalue, length := 4 } := by
      have hhost := ipHton_numeric henv (numericHost_ntop4 haddr)
      unfold pairparsevalue
      rw [hnul]
      simp only [htype, ht, reduceCtorEq, if_false, keepText_type,
        keepText_op]
      rw [if_neg hop, parseIpaddr, if_neg (ipv4Text_last vp.lvalue)]
      simp only [ipv4Text] at hhost ⊢
      rw [hhost]
      simp only [ok_bind, ofLe32_le32]
    constructor
    · intro _
      simp only [Restores, ht]
      exact not_or.mp hop
    · intro _
      refine ⟨_, hparse, (word_same (htype ▸ rfl) (by simp [ht])).mpr ?_⟩
      exact ⟨rfl, hvp.symm⟩

theorem returns_ipv6Prefix (ht : vp.type = .ipv6Prefix)
    (htype : into.type = vp.type) : Returns env vp into := by
  obtain ⟨o, len, addr, hoct, haddr⟩ : ∃ o len addr,
      vp.octets 18 = o :: len :: addr ∧ addr.length = 16 := by
    have hlen : (vp.octets 18).length = 18 := padTake_length _ _
    match h : vp.octets 18 with
    | o :: len :: addr =>
        rw [h] at hlen
        exact ⟨o, len, addr, rfl, by simpa using hlen⟩
    | [] | [_] =>
        rw [h] at hlen
        simp at hlen
  have hlt := len.toNat_lt
  have htext : valueText env vp 0
      = some (prefixText addr len.toNat) := by
    have hpad : padTake 16 addr = addr := by
      rw [← haddr]
      exact padTake_self addr
    simp [valueText, ht, hoct, inetNtop, afInet, afInet6, hpad, prefixText]
  refine ⟨prefixText addr len.toNat, htext, ?_⟩
  have hparse := prefix_parsed env len (htype.trans ht) haddr
  have hread := prefixPair_octets into len haddr hlt
  have hrvalue : (prefixPair into (prefixText addr len.toNat) len).value
      = .bytes (0 :: len :: keptAddress (prefixText addr len.toNat)) := by
    rw [value_inString, ← hread]
    · rfl
    · rw [show (prefixPair into (prefixText addr len.toNat) len).type
        = .ipv6Prefix from htype.trans ht]
      simp [InString]
  have hvalue : vp.length = 18 → vp.value = .bytes (o :: len :: addr) := by
    intro h18
    rw [value_inString (by simp [InString, ht]), h18, hoct]
  rw [hparse]
  constructor
  · rintro ⟨r, hr, hval, hlen⟩
    split at hr
    · cases hr
    · next hle =>
        cases hr
        have h18 : vp.length = 18 := hlen.symm
        rw [hrvalue, hvalue h18] at hval
        simp only [PairValue.bytes.injEq, List.cons.injEq, true_and]
          at hval
        obtain ⟨d, hd, rfl⟩ := ownText_of_kept haddr hval.2
        simp only [Restores, ht]
        refine ⟨h18, d, hd, len, by omega, ?_⟩
        rw [hoct, ← hval.1]
  · intro hcond
    simp only [Restores, ht] at hcond
    obtain ⟨h18, d, hd, n, hn, hown⟩ := hcond
    rw [hoct] at hown
    simp only [List.cons.injEq] at hown
    obtain ⟨rfl, rfl, rfl⟩ := hown
    rw [if_neg (by omega)]
    refine ⟨_, rfl, ?_, h18.symm⟩
    rw [hrvalue, hvalue h18, keptAddress_ownText hd]

theorem returns_octets (ht : vp.type = .octets) (hvp : Valued env vp)
    (htype : into.type = vp.type) : Returns env vp into := by
  simp only [Valued, ht] at hvp
  have hlen : (vp.octets vp.length).length = vp.length :=
    padTake_length _ _
  have htext : valueText env vp 0
      = some (48 :: 120 :: frBin2hex (vp.octets vp.length)) := by
    simp [valueText, ht]
  apply returns_of_parsed htext _ rfl htype (by simp [InString, ht])
    (by simp [Restores, ht])
  apply octets_parsed (htype.trans ht)
  rw [hlen]
  exact hvp

theorem returns_ifid (ht : vp.type = .ifid) (hvp : Valued env vp)
    (htype : into.type = vp.type) : Returns env vp into := by
  simp only [Valued, ht, typeLength] at hvp
  have htext : valueText env vp 0 = some (ifidNtoa (vp.octets 8)) := by
    simp [valueText, ht]
  apply returns_of_parsed htext
    (ifid_parsed (htype.trans ht) (padTake_length _ _)) _ htype
    (by simp [InString, ht]) (by simp [Restores, ht])
  rw [hvp]

theorem returns_ethernet (ht : vp.type = .ethernet) (hvp : Valued env vp)
    (htype : into.type = vp.type) : Returns env vp into := by
  simp only [Valued, ht, typeLength] at hvp
  have htext : valueText env vp 0
      = some ([58].intercalate ((vp.octets 6).map hexByte)) := by
    simp [valueText, ht]
  apply returns_of_parsed htext
    (ethernet_parsed (htype.trans ht) (padTake_length _ _)) _ htype
    (by simp [InString, ht]) (by simp [Restores, ht])
  rw [hvp]

theorem returns_ipv6addr (henv : ResolvesNumbers env)
    (ht : vp.type = .ipv6addr) (hvp : Valued env vp)
    (htype : into.type = vp.type) : Returns env vp into := by
  simp only [Valued, ht, typeLength] at hvp
  have hlen : (vp.octets 16).length = 16 := padTake_length _ _
  have hpad : padTake 16 (vp.octets 16) = vp.octets 16 := by
    have hself := padTake_self (vp.octets 16)
    rwa [hlen] at hself
  have htext : valueText env vp 0
      = some (joined 58 16 (groups16 (vp.octets 16))) := by
    simp [valueText, ht, inetNtop, afInet, afInet6, hpad]
  apply returns_of_parsed htext (ipv6addr_parsed henv (htype.trans ht) hlen)
    _ htype (by simp [InString, ht]) (by simp [Restores, ht])
  rw [hvp]

/-- For every value of the ten types: the text printed of it is parsed as
the same value and length just where the condition holds. -/
theorem pairparsevalue_iff {outlen : Nat} (henv : ResolvesNumbers env)
    (hvp : Valued env vp) (hattr : into.attr = vp.attr)
    (htype : into.type = vp.type)
    (hroom : ∀ a, valueText env vp 0 = some a → a.length < outlen) :
    (∃ r, pairparsevalue env into (vpPrintsValue env outlen vp 0) = .ok r
      ∧ SameValue r vp) ↔ Restores env vp into := by
  have hreturns : Returns env vp into := by
    cases ht : vp.type with
    | octets => exact returns_octets ht hvp htype
    | ifid => exact returns_ifid ht hvp htype
    | ethernet => exact returns_ethernet ht hvp htype
    | byte => exact returns_byte ht hvp hattr htype
    | short => exact returns_short ht hvp hattr htype
    | integer => exact returns_integer ht hvp hattr htype
    | signed => exact returns_signed ht hvp htype
    | ipaddr => exact returns_ipaddr henv ht hvp htype
    | ipv6addr => exact returns_ipv6addr henv ht hvp htype
    | ipv6Prefix => exact returns_ipv6Prefix ht htype
    | string | abinary | date | comboIp | tlv =>
        simp only [Valued, ht] at hvp
  obtain ⟨a, ha, hiff⟩ := hreturns
  rw [vpPrintsValue_of_room ha (hroom a ha), pairparsevalue_cString]
  exact hiff

end types

-- ======== runs

/-- A resolver of numeric hosts, and no dictionary. -/
def numericEnv : TextEnv where
  dict := Dict.empty
  valbyname _ _ := none
  getaddrinfo text af := (numericHost text af).map fun addr => [(af, addr)]
  strftime _ := []
  gettime _ := none

theorem numericEnv_resolves : ResolvesNumbers numericEnv := by
  intro text af addr h
  refine ⟨[], ?_⟩
  show (numericHost text af).map (fun addr => [(af, addr)]) = _
  rw [h, Option.map_some]

/-- `Delegated-IPv6-Prefix = 2001:db8::/32`. -/
def delegatedPrefix : ValuePair where
  attr := 123
  type := .ipv6Prefix
  length := 18
  data := [0, 32, 0x20, 0x01, 0x0d, 0xb8]

/-- `Framed-Interface-Id = 0:0:0:1`. -/
def framedInterfaceId : ValuePair where
  attr := 96
  type := .ifid
  length := 8
  data := [0, 0, 0, 0, 0, 0, 0, 1]

theorem pairparsevalue_iff_ifid :
    ∃ r, pairparsevalue numericEnv { attr := 96, type := .ifid }
        (vpPrintsValue numericEnv 256 framedInterfaceId 0) = .ok r
      ∧ SameValue r framedInterfaceId := by
  have hroom : ∀ a, valueText numericEnv framedInterfaceId 0 = some a →
      a.length < 256 := by
    intro a ha
    have htext : valueText numericEnv framedInterfaceId 0
        = some (ascii "0:0:0:1") := by
      decide
    cases htext.symm.trans ha
    decide
  have hvalued : Valued numericEnv framedInterfaceId := by
    show framedInterfaceId.length = _
    rfl
  apply (pairparsevalue_iff numericEnv_resolves hvalued rfl rfl
    hroom).mpr
  trivial

/-- The prefix comes back with bytes of its text for an address. -/
theorem pairparsevalue_loses_prefix :
    vpPrintsValue numericEnv 256 delegatedPrefix 0
        = ascii "2001:db8:0:0:0:0:0:0/32"
      ∧ (pairparsevalue numericEnv { attr := 123, type := .ipv6Prefix }
          (vpPrintsValue numericEnv 256 delegatedPrefix 0)).toOption.map
            (fun r => r.octets 18)
        = some (0 :: 32 :: ascii "01:db8:0:0:0:0:0")
      ∧ ¬ ∃ r, pairparsevalue numericEnv { attr := 123, type := .ipv6Prefix }
          (vpPrintsValue numericEnv 256 delegatedPrefix 0) = .ok r
        ∧ SameValue r delegatedPrefix := by
  have hparse : (pairparsevalue numericEnv
      { attr := 123, type := .ipv6Prefix }
      (vpPrintsValue numericEnv 256 delegatedPrefix 0)).toOption.map
        (fun r => r.value)
      = some (.bytes (0 :: 32 :: ascii "01:db8:0:0:0:0:0")) := by
    decide +kernel
  refine ⟨by decide, by decide, ?_⟩
  rintro ⟨r, hr, hval, -⟩
  rw [hr] at hparse
  have hbytes := hval.symm.trans (Option.some.inj hparse)
  exact absurd hbytes (by decide)

end WinRadius
