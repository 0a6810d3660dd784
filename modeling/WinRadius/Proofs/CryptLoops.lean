/-
The block loops of radius.cpp, run in place, compute the chained blocks of
`hideBlocks` and `revealBlocks`.

`Hiding` and `Revealing` are the invariants: a buffer of which the first
blocks are done, and from which the chain over what is left leads to the
final buffer. One round is the same for every encoder (`Hiding.step`);
the encoders differ in how they come by its digest.
-/
import WinRadius.Model.CryptLoops
import WinRadius.Proofs.EncodeBody

namespace WinRadius

open Lib

variable {cfg : Config} {secret first key final passwd bs : List UInt8}
  {off blocks k n : Nat}

theorem slice_done {done rest : List UInt8} (h : done.length = n) :
    slice (done ++ rest) n k = rest.take k := by
  rw [slice, ← h, List.drop_left]

theorem slice_append_left {done rest : List UInt8}
    (h : n + k ≤ done.length) : slice (done ++ rest) n k = slice done n k := by
  rw [slice, slice, List.drop_append_of_le_length (by omega),
    List.take_append_of_le_length (by rw [List.length_drop]; omega)]

theorem fetchN_slice {i : Int} (hi : i = n) (h : n + k ≤ passwd.length) :
    fetchN passwd i k = .ok (slice passwd n k) := by
  rw [fetchN_eq_ok]
  exact ⟨by omega, by omega, by omega, by rw [hi]; rfl⟩

theorem fetchN_take (passwd : List UInt8) (h : k ≤ passwd.length) :
    fetchN passwd 0 k = .ok (passwd.take k) := by
  rw [fetchN_eq_ok]
  exact ⟨by omega, by omega, by omega, rfl⟩

theorem overlay_done {done rest : List UInt8} (h : done.length = n) :
    overlay (done ++ rest) n bs = done ++ (bs ++ rest.drop bs.length) := by
  subst h
  rw [overlay, List.take_left, List.append_assoc, ← List.drop_drop,
    List.drop_left]

-- ======== hiding

/-- `k` of `blocks` blocks are done, and the chain over the others leads
to `final`. The blocks start `off` bytes into the buffer. -/
def Hiding (cfg : Config) (secret first : List UInt8) (off blocks : Nat)
    (final : List UInt8) (k : Nat) (passwd : List UInt8) : Prop :=
  ∃ done key rest, passwd = done ++ rest ∧ done.length = off + 16 * k
    ∧ key = (if k = 0 then first else slice done (off + 16 * k - 16) 16)
    ∧ 16 * (blocks - k) ≤ rest.length
    ∧ final = done ++ (hideBlocks cfg.md5 secret (blocks - k) key rest
        ++ rest.drop (16 * (blocks - k)))

/-- What the digest of block `k` is keyed by. -/
def chainKey (first : List UInt8) (off k : Nat) (passwd : List UInt8) :
    List UInt8 :=
  if k = 0 then first else slice passwd (off + 16 * k - 16) 16

namespace Hiding

theorem start {front rest : List UInt8} (hfront : front.length = off)
    (hrest : 16 * blocks ≤ rest.length) :
    Hiding cfg secret first off blocks
      (front ++ (hideBlocks cfg.md5 secret blocks first rest
        ++ rest.drop (16 * blocks))) 0 (front ++ rest) :=
  ⟨front, first, rest, rfl, by omega, rfl, hrest, rfl⟩

theorem finish (h : Hiding cfg secret first off blocks final blocks passwd) :
    passwd = final := by
  obtain ⟨done, key, rest, hpw, -, -, -, hfinal⟩ := h
  rw [hfinal, Nat.sub_self, hideBlocks, List.nil_append, Nat.mul_zero,
    List.drop_zero, hpw]

theorem length (h : Hiding cfg secret first off blocks final k passwd) :
    off + 16 * k + 16 * (blocks - k) ≤ passwd.length := by
  obtain ⟨done, key, rest, hpw, hdone, -, hrest, -⟩ := h
  rw [hpw, List.length_append]
  omega

/-- One round: the digest of the secret and the key, XORed into the next
block. -/
theorem step (h : Hiding cfg secret first off blocks final k passwd)
    (hk : k < blocks) :
    ∃ passwd',
      xorInto (cfg.md5 (secret ++ chainKey first off k passwd)).bytes
        (off + 16 * k) (off + 16 * k) passwd = .ok passwd'
      ∧ (∀ n m, n + m ≤ off + 16 * k →
          slice passwd' n m = slice passwd n m)
      ∧ Hiding cfg secret first off blocks final (k + 1) passwd' := by
  have hroom := h.length
  obtain ⟨done, key, rest, hpw, hdone, hkey, hrest, hfinal⟩ := h
  have hchain : chainKey first off k passwd = key := by
    rw [hkey, chainKey]
    split
    · rfl
    · rw [hpw, slice_append_left (by omega)]
  have hds : (cfg.md5 (secret ++ key)).bytes.length = 16 := AuthVector.len _
  have hlen : rest.length = passwd.length - done.length := by
    rw [hpw, List.length_append]
    omega
  have hpad : padTake 16 rest = rest.take 16 :=
    padTake_of_le (by omega)
  have hblock : (xorBytes (rest.take 16)
      (cfg.md5 (secret ++ key)).bytes).length = 16 := by
    rw [xorBytes_length, hds, List.length_take]
    omega
  have hout : overlay passwd (off + 16 * k) (xorBytes (rest.take 16)
        (cfg.md5 (secret ++ key)).bytes)
      = done ++ (xorBytes (rest.take 16) (cfg.md5 (secret ++ key)).bytes
          ++ rest.drop 16) := by
    rw [hpw, overlay_done hdone, hblock]
  refine ⟨overlay passwd (off + 16 * k) (xorBytes (rest.take 16)
    (cfg.md5 (secret ++ key)).bytes), ?_, ?_, ?_⟩
  · rw [hchain, xorInto_eq_ok _ (Nat.le_refl _) (by omega), hds]
    nth_rewrite 2 [hpw]
    rw [slice_done hdone]
    rfl
  · intro n m hnm
    exact slice_overlay_of_disjoint (by omega) (Or.inl hnm)
  · obtain ⟨m, hm⟩ : ∃ m, blocks - k = m + 1 := ⟨blocks - k - 1, by omega⟩
    have hm' : blocks - (k + 1) = m := by omega
    rw [hm, hideBlocks, hpad] at hfinal
    refine ⟨done ++ xorBytes (rest.take 16)
      (cfg.md5 (secret ++ key)).bytes, _, rest.drop 16, ?_, ?_, rfl, ?_, ?_⟩
    · rw [hout, List.append_assoc]
    · rw [List.length_append, hblock]
      omega
    · rw [List.length_drop]
      omega
    · have hnew : slice (done ++ xorBytes (rest.take 16)
            (cfg.md5 (secret ++ key)).bytes) (off + 16 * (k + 1) - 16) 16
          = xorBytes (rest.take 16) (cfg.md5 (secret ++ key)).bytes := by
        rw [slice_done (by omega), List.take_of_length_le (by omega)]
      rw [hfinal, if_neg (by omega), hnew, hm', List.drop_drop,
        List.append_assoc, List.append_assoc,
        show 16 + 16 * m = 16 * (m + 1) by omega]

end Hiding

/-- The blocks a loop over `len` bytes runs through. -/
theorem blocks_eq {len m : Nat} (hle : len ≤ 16 * m)
    (hm : m = 0 ∨ 16 * (m - 1) < len) : m = (len + 15) / 16 := by
  omega

/-- Any loop whose rounds are those of `Hiding.step` computes the chain;
`Ready` is what else its state needs. -/
theorem forBlocks_hides {σ : Type} {body : Nat → σ → Mem (Option σ)}
    {len : Nat} (view : σ → List UInt8) (Ready : Nat → σ → Prop)
    (hbody : ∀ k s, 16 * k < len → Ready k s →
      off + 16 * k + 16 ≤ (view s).length → ∀ passwd',
      xorInto (cfg.md5 (secret ++ chainKey first off k (view s))).bytes
        (off + 16 * k) (off + 16 * k) (view s) = .ok passwd' →
      (∀ n m, n + m ≤ off + 16 * k →
        slice passwd' n m = slice (view s) n m) →
      ∃ s', body (16 * k) s = .ok (some s') ∧ view s' = passwd'
        ∧ Ready (k + 1) s')
    {s : σ} {front rest : List UInt8} (hview : view s = front ++ rest)
    (hfront : front.length = off) (hlen : 16 * ((len + 15) / 16) ≤ rest.length)
    (hready : Ready 0 s) :
    ∃ s', forBlocks 16 len body (len + 1) 0 s = .ok (some s')
      ∧ view s' = front ++ (hideBlocks cfg.md5 secret ((len + 15) / 16)
          first rest ++ rest.drop (16 * ((len + 15) / 16))) := by
  obtain ⟨s', m, hrun, ⟨hhide, -⟩, hle, hm⟩ := forBlocks_run
    (fun k s => Hiding cfg secret first off ((len + 15) / 16)
        (front ++ (hideBlocks cfg.md5 secret ((len + 15) / 16) first rest
          ++ rest.drop (16 * ((len + 15) / 16)))) k (view s) ∧ Ready k s)
    (show 0 < 16 by omega)
    (by
      intro k s hk ⟨hhide, hr⟩
      have hroom := hhide.length
      obtain ⟨passwd', hxor, hsame, hnext⟩ := hhide.step (by omega)
      obtain ⟨s', hs', hv, hr'⟩ :=
        hbody k s hk hr (by omega) passwd' hxor hsame
      exact ⟨s', hs', by rw [hv]; exact hnext, hr'⟩)
    (Nat.lt_succ_self len) ⟨by rw [hview]; exact .start hfront hlen, hready⟩
  refine ⟨s', hrun, ?_⟩
  rw [blocks_eq hle hm] at hhide
  exact hhide.finish

-- ======== encoders

/-- The rounds of `make_passwd` and `make_tunnel_passwd`. -/
theorem makeBlock_ok {c : Chain} {passwd' : List UInt8}
    (hready : k = 0 → c.context = secret ++ first)
    (hroom : off + 16 * k + 16 ≤ c.passwd.length)
    (hxor : xorInto (cfg.md5 (secret ++ chainKey first off k c.passwd)).bytes
      (off + 16 * k) (off + 16 * k) c.passwd = .ok passwd') :
    ∃ c', InPlace.makeBlock cfg secret off (16 * k) c = .ok (some c')
      ∧ c'.passwd = passwd' ∧ (k + 1 = 0 → c'.context = secret ++ first) := by
  have hnever : k + 1 = 0 → ∀ context : List UInt8,
      context = secret ++ first := fun h => absurd h (by omega)
  unfold InPlace.makeBlock
  by_cases hk : k = 0
  · rw [if_neg (by omega), pure_eq_ok, ok_bind, hready hk]
    rw [chainKey, if_pos hk] at hxor
    beta_reduce
    rw [hxor, ok_bind]
    exact ⟨_, rfl, rfl, fun h => hnever h _⟩
  · have hblock : fetchN c.passwd (off + ((16 * k : Nat) : Int) - 16) 16
        = .ok (slice c.passwd (off + 16 * k - 16) 16) :=
      fetchN_slice (k := 16) (by omega) (by omega)
    rw [chainKey, if_neg hk] at hxor
    rw [if_pos (by omega), hblock, ok_bind, pure_eq_ok, ok_bind]
    beta_reduce
    rw [hxor, ok_bind]
    exact ⟨_, rfl, rfl, fun h => hnever h _⟩

variable (cfg secret) in
/-- The loop of `make_passwd` and `make_tunnel_passwd`. -/
theorem makeBlock_loop (first : List UInt8) {front : List UInt8}
    (rest : List UInt8) (len : Nat)
    (hfront : front.length = off)
    (hlen : 16 * ((len + 15) / 16) ≤ rest.length) :
    ∃ c, forBlocks 16 len (InPlace.makeBlock cfg secret off) (len + 1) 0
        { context := secret ++ first, passwd := front ++ rest } = .ok (some c)
      ∧ c.passwd = front ++ (hideBlocks cfg.md5 secret ((len + 15) / 16)
          first rest ++ rest.drop (16 * ((len + 15) / 16))) := by
  refine forBlocks_hides Chain.passwd
    (fun k c => k = 0 → c.context = secret ++ first) ?_ rfl hfront hlen
    fun _ => rfl
  intro k c hk hready hroom passwd' hxor hsame
  exact makeBlock_ok hready hroom hxor

theorem drop_padTake {m : Nat} {bs : List UInt8} :
    (padTake (m + n) bs).drop m = padTake n (bs.drop m) := by
  simp only [padTake]
  rw [List.drop_append, List.drop_take, List.drop_replicate, List.length_take,
    List.length_drop, Nat.add_sub_cancel_left]
  congr 2
  omega

/-- Padding twice is padding to the shorter length. -/
theorem padTake_padTake {m : Nat} {bs : List UInt8} (h : m ≤ n) :
    padTake m (padTake n bs) = padTake m bs := by
  rw [padTake_of_le (by rw [padTake_length]; exact h), ← padTake_take h]

theorem padTake_cons {b : UInt8} {bs : List UInt8} :
    padTake (n + 1) (b :: bs) = b :: padTake n bs := by
  rw [padTake, padTake, List.take_succ_cons, List.length_cons,
    Nat.add_sub_add_right]
  rfl

/-- Only the blocks that are hidden count, and zeros behind them do
not. -/
theorem hideBlocks_congr {md5 : List UInt8 → AuthVector} {p q : List UInt8}
    (h : padTake (16 * n) p = padTake (16 * n) q) :
    hideBlocks md5 secret n key p = hideBlocks md5 secret n key q := by
  induction n generalizing key p q with
  | zero => rfl
  | succ n ih =>
      have hmul : 16 * (n + 1) = 16 + 16 * n := by omega
      rw [hmul] at h
      have hhead : padTake 16 p = padTake 16 q := by
        rw [padTake_take (show 16 ≤ 16 + 16 * n by omega), h,
          ← padTake_take (by omega)]
      have htail : padTake (16 * n) (p.drop 16)
          = padTake (16 * n) (q.drop 16) := by
        rw [← drop_padTake, h, drop_padTake]
      rw [hideBlocks, hideBlocks, hhead, ih htail]

/-- A value and the zeros behind it are the value padded. -/
theorem overlay_padded {room : Nat} {value : List UInt8}
    (hroom : passwd.length = room) (hv : value.length ≤ room) :
    overlay (overlay passwd 0 value) value.length
      (List.replicate (room - value.length) 0) = padTake room value := by
  have hover : overlay passwd 0 value = value ++ passwd.drop value.length := by
    rw [overlay, List.take_zero, List.nil_append, Nat.zero_add]
  rw [hover, overlay_done rfl, List.length_replicate, List.drop_drop,
    List.drop_of_length_le (by omega), List.append_nil, padTake,
    List.take_of_length_le hv]

theorem uninit_length (cfg : Config) (n : Nat) :
    (uninit cfg n).length = n := by
  rw [uninit, List.length_map, List.length_range]

theorem passwdLen_blocks (n : Nat) :
    16 * (passwdLen n / 16) = passwdLen n ∧ 16 ≤ passwdLen n
      ∧ passwdLen n ≤ 128 ∧ min n 128 ≤ passwdLen n := by
  have hmax : maxPassLen = 128 := rfl
  simp only [passwdLen]
  split_ifs <;> omega

theorem passwdLen_clip (n : Nat) : passwdLen (min n 128) = passwdLen n := by
  have hmax : maxPassLen = 128 := rfl
  rcases Nat.le_or_ge n 128 with hn | hn
  · rw [Nat.min_eq_left hn]
  · have hclip : (if maxPassLen < n then maxPassLen else n) = 128 := by
      rw [hmax]
      split <;> omega
    rw [Nat.min_eq_right hn]
    simp only [passwdLen, hclip]
    rfl

/-- `make_passwd` in place is the chain over the padded input. -/
theorem inPlace_makePasswd (cfg : Config) (input secret : List UInt8)
    (vector : AuthVector) :
    InPlace.makePasswd cfg input secret vector
      = .ok (makePasswd cfg input secret vector) := by
  have hmax : maxPassLen = 128 := rfl
  obtain ⟨hmul, h16, h128, hle⟩ := passwdLen_blocks input.length
  have hlen : (if maxPassLen < input.length then maxPassLen
      else input.length) = min input.length 128 := by
    rw [hmax]
    split <;> omega
  have hvalue : fetchN input 0 (min input.length 128 : Nat)
      = .ok (input.take 128) := by
    rw [fetchN_take _ (by omega)]
    congr 1
    rw [List.take_eq_take_iff]
    omega
  have hvlen : (input.take 128).length = min input.length 128 := by
    rw [List.length_take, Nat.min_comm]
  have huninit := uninit_length cfg 128
  have hpadded := overlay_padded huninit
    (show (input.take 128).length ≤ 128 by omega)
  have hover : (overlay (uninit cfg 128) 0 (input.take 128)).length = 128 := by
    rw [overlay_length (by omega), huninit]
  unfold InPlace.makePasswd
  dsimp only
  rw [hlen, hvalue, ok_bind, hmax, storeN_eq_ok (by omega), ok_bind,
    storeN_eq_ok (by rw [List.length_replicate]; omega), ok_bind, ← hvlen,
    hpadded, hvlen, passwdLen_clip]
  have hN : (passwdLen input.length + 15) / 16 = passwdLen input.length / 16 := by
    omega
  obtain ⟨c, hrun, hc⟩ := makeBlock_loop cfg secret vector.bytes
    (padTake 128 (input.take 128)) (passwdLen input.length)
    (show ([] : List UInt8).length = 0 from rfl) (by rw [padTake_length]; omega)
  rw [List.nil_append] at hrun hc
  have hcongr : hideBlocks cfg.md5 secret (passwdLen input.length / 16)
        vector.bytes (padTake 128 (input.take 128))
      = hideBlocks cfg.md5 secret (passwdLen input.length / 16) vector.bytes
          (input.take 128) := by
    apply hideBlocks_congr
    rw [hmul, padTake_padTake h128]
  rw [hN, hcongr] at hc
  have hhlen := hideBlocks_length cfg.md5 secret (passwdLen input.length / 16)
    vector.bytes (input.take 128)
  simp only [hrun, ok_bind]
  rw [fetchN_take _ (by rw [hc, List.length_append]; omega), hc,
    List.take_append_of_le_length (by omega),
    List.take_of_length_le (by omega), makePasswd, hmax]

/-- The rounds of `rad_pwencode`. -/
theorem pwencodeBlock_ok {vector : AuthVector} {c : Chain}
    {passwd' : List UInt8} (hready : k = 0 → c.context = secret)
    (hroom : 16 * k + 16 ≤ c.passwd.length)
    (hxor : xorInto
      (cfg.md5 (secret ++ chainKey vector.bytes 0 k c.passwd)).bytes
      (16 * k) (16 * k) c.passwd = .ok passwd') :
    ∃ c', InPlace.pwencodeBlock cfg secret vector (16 * k) c = .ok (some c')
      ∧ c'.passwd = passwd' ∧ (k + 1 = 0 → c'.context = secret) := by
  have hnever : k + 1 = 0 → ∀ context : List UInt8, context = secret :=
    fun h => absurd h (by omega)
  unfold InPlace.pwencodeBlock
  by_cases hk : k = 0
  · rw [if_pos (by omega), pure_eq_ok, ok_bind, hready hk]
    rw [chainKey, if_pos hk] at hxor
    beta_reduce
    rw [hxor, ok_bind]
    exact ⟨_, rfl, rfl, fun h => hnever h _⟩
  · have hblock : fetchN c.passwd (((16 * k : Nat) : Int) - 16) 16
        = .ok (slice c.passwd (0 + 16 * k - 16) 16) :=
      fetchN_slice (k := 16) (by omega) (by omega)
    rw [chainKey, if_neg hk] at hxor
    rw [if_neg (by omega), hblock, ok_bind, pure_eq_ok, ok_bind]
    beta_reduce
    rw [hxor, ok_bind]
    exact ⟨_, rfl, rfl, fun h => hnever h _⟩

variable (cfg secret) in
/-- The loop of `rad_pwencode`. -/
theorem pwencodeBlock_loop (vector : AuthVector) (rest : List UInt8)
    (len : Nat) (hlen : 16 * ((len + 15) / 16) ≤ rest.length) :
    ∃ c, forBlocks 16 len (InPlace.pwencodeBlock cfg secret vector) (len + 1)
        0 { context := secret, passwd := rest } = .ok (some c)
      ∧ c.passwd = hideBlocks cfg.md5 secret ((len + 15) / 16) vector.bytes
          rest ++ rest.drop (16 * ((len + 15) / 16)) := by
  refine forBlocks_hides Chain.passwd (fun k c => k = 0 → c.context = secret)
    ?_ (List.nil_append _).symm (show ([] : List UInt8).length = 0 from rfl)
    hlen fun _ => rfl
  intro k c hk hready hroom passwd' hxor hsame
  rw [Nat.zero_add] at hxor hroom
  exact pwencodeBlock_ok hready hroom hxor

/-- The zeros `rad_pwencode` puts behind the password. -/
theorem pwencode_fill {len : Nat} (hlen : len ≤ 128)
    (hroom : passwdLen len ≤ passwd.length) :
    InPlace.pwencodePad passwd len
      = .ok (padTake (passwdLen len) (passwd.take len)
          ++ passwd.drop (passwdLen len), passwdLen len) := by
  have hmax : maxPassLen = 128 := rfl
  have hclip : (if maxPassLen < len then maxPassLen else len) = len := by
    rw [if_neg (by omega)]
  obtain ⟨-, -, -, hle⟩ := passwdLen_blocks len
  have hover : ∀ m, len + m = passwdLen len →
      overlay passwd len (List.replicate m 0)
        = padTake (passwdLen len) (passwd.take len)
          ++ passwd.drop (passwdLen len) := by
    intro m hm
    rw [overlay, padTake, List.length_replicate, List.take_take,
      List.length_take, hm]
    congr 3 <;> omega
  unfold InPlace.pwencodePad
  by_cases h0 : len = 0
  · have hp : passwdLen len = 16 := by
      simp only [passwdLen, hclip, if_pos h0]
    have h16 := hover 16 (by omega)
    rw [hp] at h16 hroom ⊢
    rw [if_pos h0, storeN_eq_ok (by rw [List.length_replicate]; omega),
      ok_bind, ← h16, h0]
    rfl
  · rw [if_neg h0]
    by_cases hmod : len % 16 ≠ 0
    · have hp : passwdLen len = (len + 15) / 16 * 16 := by
        simp only [passwdLen, hclip, if_neg h0, if_pos hmod]
      have hfill := hover (16 - len % 16) (by omega)
      rw [if_pos hmod, storeN_eq_ok (by rw [List.length_replicate]; omega),
        ok_bind, hfill, show len + (16 - len % 16) = passwdLen len by omega]
      rfl
    · have hp : passwdLen len = len := by
        simp only [passwdLen, hclip, if_neg h0, if_neg hmod]
      rw [if_neg hmod, hp, padTake_of_le (by rw [List.length_take]; omega),
        List.take_take, Nat.min_self, List.take_append_drop]
      rfl

variable (cfg secret) in
/-- `rad_pwencode` in place: the ciphertext of `make_passwd`, in front of
what was behind it. -/
theorem inPlace_radPwencode {pwlen : Nat} (vector : AuthVector)
    (hpw : pwlen ≤ passwd.length)
    (hroom : passwdLen pwlen ≤ passwd.length) :
    InPlace.radPwencode cfg passwd pwlen secret vector
      = .ok (makePasswd cfg (passwd.take pwlen) secret vector
          ++ passwd.drop (passwdLen pwlen), passwdLen pwlen) := by
  have hmax : maxPassLen = 128 := rfl
  obtain ⟨hmul, h16, h128, hle⟩ := passwdLen_blocks pwlen
  have hclip : (if 128 < pwlen then 128 else pwlen) = min pwlen 128 := by
    split <;> omega
  have hfill : InPlace.pwencodePad passwd (min pwlen 128) = _ :=
    pwencode_fill (Nat.min_le_right _ _) (by rw [passwdLen_clip]; exact hroom)
  rw [passwdLen_clip] at hfill
  obtain ⟨filled, hfilled⟩ : ∃ f, f = padTake (passwdLen pwlen)
      (passwd.take (min pwlen 128)) ++ passwd.drop (passwdLen pwlen) := ⟨_, rfl⟩
  have hflen : filled.length = passwd.length := by
    rw [hfilled, List.length_append, padTake_length, List.length_drop]
    omega
  have hN : (passwdLen pwlen + 15) / 16 = passwdLen pwlen / 16 := by omega
  obtain ⟨c, hrun, hc⟩ := pwencodeBlock_loop cfg secret vector filled
    (passwdLen pwlen) (by omega)
  have hcongr : hideBlocks cfg.md5 secret (passwdLen pwlen / 16)
        vector.bytes filled
      = hideBlocks cfg.md5 secret (passwdLen pwlen / 16) vector.bytes
          ((passwd.take pwlen).take maxPassLen) := by
    apply hideBlocks_congr
    rw [hmul, hfilled, List.take_take, hmax, Nat.min_comm 128]
    rw [padTake_of_le (by rw [List.length_append, padTake_length]; omega),
      List.take_append_of_le_length (by rw [padTake_length]),
      List.take_of_length_le (by rw [padTake_length])]
  have hplen : (passwd.take pwlen).length = pwlen := by
    rw [List.length_take]
    omega
  rw [hN, hcongr, hmul] at hc
  unfold InPlace.radPwencode
  dsimp only
  rw [hclip, hfill, ok_bind, ← hfilled]
  simp only [hrun, ok_bind]
  rw [hc, makePasswd, hplen, hfilled, List.drop_left' (padTake_length _ _)]
  rfl

end WinRadius
