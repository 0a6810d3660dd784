/-
Tunnel-Password: what the two encoders hide, `rad_tunnel_pwdecode` gives
back, where it stays in its buffers.

In place, the decoder writes three bytes in front of where it reads, so
what it has still to read is as it came (`Shifting`). The array in which
`rad_tunnel_pwencode` puts its text together holds 255 bytes of secret,
and the 254 bytes of a value hold the blocks of at most 240 bytes behind
the salt.
-/
import WinRadius.Proofs.UserPassword

namespace WinRadius

open Lib

variable {cfg : Config} {secret key passwd : List UInt8} {len k n : Nat}

-- ======== decoding

/-- Where `rad_tunnel_pwdecode` stands before block `k`: the plain bytes
behind the length byte, then the buffer as it came. -/
def Shifting (cfg : Config) (secret first orig : List UInt8) (blocks : Nat)
    (k : Nat) (c : InPlace.TunnelChain) : Prop :=
  ∃ key done, c.context = secret ++ key
    ∧ c.passwd = done ++ orig.drop (16 * k - 1) ∧ done.length = 16 * k - 1
    ∧ (k = 0 → key = first)
    ∧ (0 < k → done ++ revealBlocks cfg.md5 secret (blocks - k) key
          (orig.drop (2 + 16 * k))
        = (revealBlocks cfg.md5 secret blocks first (orig.drop 2)).drop 1
      ∧ c.reallen = ((revealBlocks cfg.md5 secret blocks first
          (orig.drop 2)).getD 0 0).toNat ∧ c.reallen < 16 * blocks)

/-- The length byte of a Tunnel-Password under the key of its first
block. -/
def tunnelDataLen (cfg : Config) (secret first orig : List UInt8) : Nat :=
  (orig.getD 2 0 ^^^ (cfg.md5 (secret ++ first)).bytes.getD 0 0).toNat

variable (cfg secret) in
/-- The first block: the length byte, then fifteen bytes of password. -/
theorem revealBlocks_first (first : List UInt8) {orig : List UInt8}
    {blocks : Nat}
    (hb : 0 < blocks) (h : 18 ≤ orig.length) :
    revealBlocks cfg.md5 secret blocks first (orig.drop 2)
      = (orig.getD 2 0 ^^^ (cfg.md5 (secret ++ first)).bytes.getD 0 0)
        :: (xorBytes (slice orig 3 15)
            ((cfg.md5 (secret ++ first)).bytes.drop 1)
          ++ revealBlocks cfg.md5 secret (blocks - 1) (slice orig 2 16)
              (orig.drop 18)) := by
  obtain ⟨b, rfl⟩ : ∃ b, blocks = b + 1 := ⟨blocks - 1, by omega⟩
  have hd : (cfg.md5 (secret ++ first)).bytes.length = 16 := AuthVector.len _
  have hpad : padTake 16 (orig.drop 2) = slice orig 2 16 :=
    padTake_of_le (by rw [List.length_drop]; omega)
  have hdigest : (cfg.md5 (secret ++ first)).bytes
      = (cfg.md5 (secret ++ first)).bytes.getD 0 0
        :: (cfg.md5 (secret ++ first)).bytes.drop 1 := by
    cases hbytes : (cfg.md5 (secret ++ first)).bytes with
    | nil =>
        rw [hbytes] at hd
        cases hd
    | cons d ds => rfl
  have hget : orig.getD 2 0 = orig[2] := by
    rw [List.getD_eq_getElem?_getD, List.getElem?_eq_getElem (by omega)]
    rfl
  rw [revealBlocks, hpad, List.drop_drop, Nat.add_sub_cancel]
  nth_rewrite 1 [hdigest]
  rw [show (16 : Nat) = 15 + 1 from rfl, slice_cons (by omega), xorBytes,
    List.zipWith_cons_cons, hget]
  rfl

/-- The first round: the length byte is tested, and fifteen bytes move to
the front. -/
theorem tunnelPwdecodeBlock_first {first orig : List UInt8}
    {c : InPlace.TunnelChain} (hlen : 0 < len) (h : 18 ≤ orig.length)
    (hc : Shifting cfg secret first orig ((len + 15) / 16) 0 c) :
    (InPlace.tunnelPwdecodeBlock cfg secret len 0 c = .ok none
        ∧ len ≤ tunnelDataLen cfg secret first orig)
      ∨ ∃ c', InPlace.tunnelPwdecodeBlock cfg secret len 0 c = .ok (some c')
          ∧ tunnelDataLen cfg secret first orig < len
          ∧ Shifting cfg secret first orig ((len + 15) / 16) 1 c' := by
  obtain ⟨key, done, hctx, hpw, hdone, hkey, -⟩ := hc
  have hnil : done = [] := List.length_eq_zero_iff.mp hdone
  have horig : c.passwd = orig := by
    rw [hpw, hnil]
    rfl
  have hd : (cfg.md5 (secret ++ first)).bytes.length = 16 := AuthVector.len _
  have hget : fetch orig 2 = .ok (orig.getD 2 0) :=
    fetch_getD (n := 2) (by omega)
  unfold InPlace.tunnelPwdecodeBlock
  dsimp only
  rw [if_pos rfl, horig, hctx, hkey rfl, hget, ok_bind]
  by_cases hreal : len ≤ tunnelDataLen cfg secret first orig
  · refine Or.inl ⟨?_, hreal⟩
    rw [tunnelDataLen] at hreal
    rw [if_pos hreal]
    rfl
  · refine Or.inr ⟨⟨secret ++ slice orig 2 16, overlay orig 0
      (xorBytes (slice orig 3 15) ((cfg.md5 (secret ++ first)).bytes.drop 1)),
      tunnelDataLen cfg secret first orig⟩, ?_, by omega, ?_⟩
    · have hfetch : fetchN orig 2 16 = .ok (slice orig 2 16) :=
        fetchN_slice (n := 2) (k := 16) rfl (by omega)
      have hxor := xorInto_eq_ok
        ((cfg.md5 (secret ++ first)).bytes.drop 1) (show 0 ≤ 3 by omega)
        (show 3 + _ ≤ orig.length by rw [List.length_drop]; omega)
      rw [List.length_drop, hd] at hxor
      rw [tunnelDataLen] at hreal
      rw [if_neg hreal, hfetch, ok_bind, hxor, ok_bind]
      rfl
    · have hblock : (xorBytes (slice orig 3 15)
          ((cfg.md5 (secret ++ first)).bytes.drop 1)).length = 15 := by
        rw [xorBytes_length, slice_length (by omega), List.length_drop, hd]
        rfl
      have hfirst := revealBlocks_first cfg secret first
        (show 0 < (len + 15) / 16 by omega) h
      refine ⟨slice orig 2 16, _, rfl, ?_, hblock, fun h0 => absurd h0 (by omega),
        fun _ => ⟨?_, ?_, ?_⟩⟩
      · rw [overlay, List.take_zero, List.nil_append, hblock]
      · rw [hfirst]
        rfl
      · rw [hfirst]
        rfl
      · show tunnelDataLen cfg secret first orig < _
        omega

variable (len) in
/-- A later round. -/
theorem tunnelPwdecodeBlock_next {first orig : List UInt8}
    {c : InPlace.TunnelChain} {blocks : Nat} (hk : 0 < k) (hkb : k < blocks)
    (h : 2 + 16 * blocks ≤ orig.length)
    (hc : Shifting cfg secret first orig blocks k c) :
    ∃ c', InPlace.tunnelPwdecodeBlock cfg secret len (16 * k) c = .ok (some c')
      ∧ Shifting cfg secret first orig blocks (k + 1) c' := by
  obtain ⟨key, done, hctx, hpw, hdone, -, hrest⟩ := hc
  obtain ⟨hreveal, hreal, hsmall⟩ := hrest hk
  have hd : (cfg.md5 (secret ++ key)).bytes.length = 16 := AuthVector.len _
  have hplen : c.passwd.length = orig.length := by
    rw [hpw, List.length_append, List.length_drop]
    omega
  have hslice : slice c.passwd (16 * k + 2) 16 = slice orig (2 + 16 * k) 16 := by
    rw [slice, hpw, List.drop_append, List.drop_of_length_le (by omega),
      List.nil_append, List.drop_drop, slice]
    congr 2
    omega
  have hblock : (xorBytes (slice orig (2 + 16 * k) 16)
      (cfg.md5 (secret ++ key)).bytes).length = 16 := by
    rw [xorBytes_length, slice_length (by omega), hd]
    rfl
  have hfetch : fetchN c.passwd ((16 * k : Nat) + 2) 16
      = .ok (slice orig (2 + 16 * k) 16) := by
    rw [← hslice]
    exact fetchN_slice (k := 16) (by omega) (by omega)
  have hxor := xorInto_eq_ok (cfg.md5 (secret ++ key)).bytes
    (show 16 * k - 1 ≤ 16 * k + 2 by omega)
    (show _ ≤ c.passwd.length by omega)
  rw [hd, hslice] at hxor
  unfold InPlace.tunnelPwdecodeBlock
  dsimp only
  rw [if_neg (by omega), hfetch, ok_bind, hctx, hxor, ok_bind]
  refine ⟨_, rfl, slice orig (2 + 16 * k) 16,
    done ++ xorBytes (slice orig (2 + 16 * k) 16)
      (cfg.md5 (secret ++ key)).bytes, rfl, ?_, ?_, fun h0 => absurd h0 (by omega),
    fun _ => ⟨?_, hreal, hsmall⟩⟩
  · show overlay c.passwd _ _ = _
    rw [hpw, overlay_done hdone, ← xorBytes, hblock, List.drop_drop,
      List.append_assoc, show 16 * k - 1 + 16 = 16 * (k + 1) - 1 by omega]
  · rw [List.length_append, hblock]
    omega
  · obtain ⟨m, hm⟩ : ∃ m, blocks - k = m + 1 := ⟨blocks - k - 1, by omega⟩
    have hpad : padTake 16 (orig.drop (2 + 16 * k))
        = slice orig (2 + 16 * k) 16 :=
      padTake_of_le (by rw [List.length_drop]; omega)
    rw [hm, revealBlocks, hpad, List.drop_drop] at hreveal
    rw [← hreveal, List.append_assoc, show blocks - (k + 1) = m by omega,
      show 2 + 16 * (k + 1) = 2 + 16 * k + 16 by omega]

variable (cfg secret) in
/-- The loop of `rad_tunnel_pwdecode`: it returns out of the first block,
or leaves the plain bytes behind the length byte in front of what it did
not write to. -/
theorem tunnelPwdecode_loop (first : List UInt8) {orig : List UInt8}
    (hlen : 0 < len) (h : 2 + 16 * ((len + 15) / 16) ≤ orig.length) :
    (forBlocks 16 len (InPlace.tunnelPwdecodeBlock cfg secret len) (len + 1) 0
        ⟨secret ++ first, orig, 0⟩ = .ok none
        ∧ len ≤ tunnelDataLen cfg secret first orig)
      ∨ ∃ c, forBlocks 16 len (InPlace.tunnelPwdecodeBlock cfg secret len)
          (len + 1) 0 ⟨secret ++ first, orig, 0⟩ = .ok (some c)
        ∧ tunnelDataLen cfg secret first orig < len
        ∧ c.reallen = tunnelDataLen cfg secret first orig
        ∧ c.passwd = (revealBlocks cfg.md5 secret ((len + 15) / 16) first
            (orig.drop 2)).drop 1 ++ orig.drop (16 * ((len + 15) / 16) - 1) := by
  have hrun := forBlocks_cases
    (fun k c => Shifting cfg secret first orig ((len + 15) / 16) k c
      ∧ (0 < k → tunnelDataLen cfg secret first orig < len))
    (len ≤ tunnelDataLen cfg secret first orig) (show 0 < 16 by omega)
    (show ∀ k c, 16 * k < len → _ →
        (InPlace.tunnelPwdecodeBlock cfg secret len (16 * k) c = .ok none
            ∧ len ≤ tunnelDataLen cfg secret first orig) ∨ _ by
      intro k c hk ⟨hshift, hsmall⟩
      by_cases hk0 : k = 0
      · subst hk0
        obtain hearly | ⟨c', hc', hlt, hnext⟩ :=
          tunnelPwdecodeBlock_first hk (by omega) hshift
        · exact Or.inl hearly
        · exact Or.inr ⟨c', hc', hnext, fun _ => hlt⟩
      · obtain ⟨c', hc', hnext⟩ := tunnelPwdecodeBlock_next len
          (by omega) (by omega) (by omega) hshift
        exact Or.inr ⟨c', hc', hnext, fun _ => hsmall (by omega)⟩)
    (Nat.lt_succ_self (len + 0))
    (s := InPlace.TunnelChain.mk (secret ++ first) orig 0)
    ⟨⟨first, [], rfl, rfl, rfl, fun _ => rfl, fun h => absurd h (by omega)⟩,
      fun h => absurd h (by omega)⟩ (Or.inl rfl)
  obtain hearly | ⟨c, m, hc, ⟨hshift, hsmall⟩, hle, hm⟩ := hrun
  · exact Or.inl hearly
  · rw [blocks_eq hle hm] at hshift hsmall
    have hpos : 0 < (len + 15) / 16 := by omega
    obtain ⟨key, done, -, hpw, -, -, hrest⟩ := hshift
    obtain ⟨hreveal, hreal, -⟩ := hrest hpos
    rw [Nat.sub_self, revealBlocks, List.append_nil] at hreveal
    rw [revealBlocks_first cfg secret first hpos (by omega)] at hreal
    exact Or.inr ⟨c, hc, hsmall hpos, hreal, by rw [hpw, hreveal]⟩

/-- `rad_tunnel_pwdecode` in place is the chain over the buffer. -/
theorem inPlace_radTunnelPwdecode {pwlen : Nat} (vector : AuthVector)
    (h0 : 0 < passwd.length)
    (h : 3 < pwlen → 2 + 16 * ((pwlen - 2 + 15) / 16) ≤ passwd.length) :
    InPlace.radTunnelPwdecode cfg passwd pwlen secret vector
      = .ok (radTunnelPwdecode cfg passwd pwlen secret vector) := by
  unfold InPlace.radTunnelPwdecode radTunnelPwdecode
  by_cases h2 : pwlen < 2
  · rw [if_pos h2, if_pos h2]
    rfl
  · rw [if_neg h2, if_neg h2]
    by_cases h3 : pwlen ≤ 3
    · rw [if_pos h3, if_pos h3, store_eq_ok h0, ok_bind, overlay,
        List.take_zero]
      rfl
    · have hroom := h (by omega)
      have hsalt : fetchN passwd 0 2 = .ok (passwd.take 2) :=
        fetchN_take (k := 2) _ (by omega)
      rw [if_neg h3, if_neg h3]
      dsimp only
      rw [hsalt, ok_bind]
      obtain ⟨len, hlen⟩ : ∃ len, len = pwlen - 2 := ⟨_, rfl⟩
      obtain ⟨first, hfirst⟩ : ∃ f, f = vector.bytes ++ passwd.take 2 :=
        ⟨_, rfl⟩
      rw [← hlen] at hroom ⊢
      have hreal : ((revealBlocks cfg.md5 secret ((len + 15) / 16) first
          (passwd.drop 2)).getD 0 0).toNat
          = tunnelDataLen cfg secret first passwd := by
        rw [revealBlocks_first cfg secret first (by omega) (by omega)]
        rfl
      rw [List.append_assoc, ← hfirst, hreal]
      obtain ⟨hrun, hlong⟩ | ⟨c, hrun, hlt, hcreal, hcpw⟩ :=
        tunnelPwdecode_loop cfg secret first (show 0 < len by omega) hroom
      · rw [hrun, ok_bind, if_pos hlong]
        rfl
      · have hclen : c.passwd.length = passwd.length := by
          rw [hcpw, List.length_append, List.length_drop, List.length_drop,
            revealBlocks_length]
          omega
        rw [hrun, ok_bind, if_neg (by omega)]
        dsimp only
        rw [hcreal, store_eq_ok (by split <;> omega), ok_bind, hcpw, overlay,
          List.append_assoc]
        rfl

-- ======== encoding

/-- The two salt bytes. -/
theorem salt_length (r : Rand) : r.salt.1.length = 2 := rfl

/-- The blocks a length byte and `n` bytes take. -/
theorem tunnel_blocks (n : Nat) :
    (if (n + 1) % 16 ≠ 0 then (n + 1 + 15) / 16 * 16 else n + 1)
      = 16 * ((n + 16) / 16) := by
  split <;> omega

/-- With room for one block, the subtraction does not wrap. -/
theorem inPlace_tunnelRoom {room : Nat} (h : 18 ≤ room) :
    InPlace.tunnelRoom room = tunnelRoom room := by
  have hclip : ∀ m n, n ≤ m → m ≤ 253 → InPlace.sizeSub m n = m - n := by
    intro m n hn hm
    unfold InPlace.sizeSub
    omega
  unfold InPlace.tunnelRoom tunnelRoom
  dsimp only
  rw [hclip _ 2 (by split <;> omega) (by split <;> omega),
    hclip _ 1 (by split <;> omega) (by split <;> omega)]

/-- Salt, length byte and password, as `make_tunnel_passwd` lays them
out. -/
theorem tunnelLayout {n room : Nat} {salt value array : List UInt8}
    {b : UInt8} (hsalt : salt.length = 2) (hv : value.length = n)
    (harray : array.length = 3 + room) (hroom : n ≤ room) :
    overlay (overlay (overlay (overlay array 3 value) (3 + n)
        (List.replicate (room - n) 0)) 0 salt) 2 [b]
      = salt ++ b :: padTake room value := by
  subst hv
  obtain ⟨x, y, rfl⟩ := List.length_eq_two.mp hsalt
  obtain ⟨a, b', c, habc⟩ := List.length_eq_three.mp
    (show (array.take 3).length = 3 by rw [List.length_take]; omega)
  obtain ⟨rest, hrest⟩ : ∃ rest, rest = array.drop 3 := ⟨_, rfl⟩
  have hsplit : array = [a, b', c] ++ rest := by
    rw [← habc, hrest, List.take_append_drop]
  rw [hsplit, List.length_append] at harray
  have h1 : overlay array 3 value
      = ([a, b', c] ++ value) ++ rest.drop value.length := by
    rw [hsplit, overlay_done (n := 3) rfl, List.append_assoc]
  have h2 : overlay (([a, b', c] ++ value) ++ rest.drop value.length)
      (3 + value.length) (List.replicate (room - value.length) 0)
      = [a, b', c] ++ padTake room value := by
    rw [overlay_done (by rw [List.length_append]; rfl), List.length_replicate,
      List.drop_drop, List.drop_of_length_le, List.append_nil,
      List.append_assoc, padTake, List.take_of_length_le hroom]
    · rw [show ([a, b', c] : List UInt8).length = 3 from rfl] at harray
      omega
  rw [h1, h2]
  rfl

/-- `make_tunnel_passwd` in place, given room for one block. -/
theorem inPlace_makeTunnelPasswd (cfg : Config) (r : Rand)
    (input secret : List UInt8) {room : Nat} (vector : AuthVector)
    (h18 : 18 ≤ room) :
    InPlace.makeTunnelPasswd cfg r input room secret vector
      = .ok (makeTunnelPasswd cfg r input room secret vector) := by
  have hmax : maxStringLen = 254 := rfl
  have hroom239 : tunnelRoom room ≤ 239 := by
    unfold tunnelRoom
    dsimp only
    split <;> omega
  obtain ⟨n, hn⟩ : ∃ n, n = (if tunnelRoom room < input.length then
      tunnelRoom room else input.length) := ⟨_, rfl⟩
  have hn239 : n ≤ 239 := by
    rw [hn]
    split <;> omega
  have hnle : n ≤ input.length := by
    rw [hn]
    split <;> omega
  have hvalue : fetchN input 0 (n : Int) = .ok (input.take n) :=
    fetchN_take _ hnle
  have hvlen : (input.take n).length = n := by
    rw [List.length_take]
    omega
  have harray := uninit_length cfg (254 + 16)
  have hlen1 : (overlay (uninit cfg (254 + 16)) 3 (input.take n)).length
      = 254 + 16 := by
    rw [overlay_length (by omega), harray]
  have hlen2 : (overlay (overlay (uninit cfg (254 + 16)) 3 (input.take n))
      (3 + n) (List.replicate (267 - n) 0)).length = 254 + 16 := by
    rw [overlay_length (by rw [List.length_replicate]; omega), hlen1]
  have hlen3 : (overlay (overlay (overlay (uninit cfg (254 + 16)) 3
      (input.take n)) (3 + n) (List.replicate (267 - n) 0)) 0
      r.salt.1).length = 254 + 16 := by
    rw [overlay_length (by rw [salt_length]; omega), hlen2]
  have hlayout := tunnelLayout (b := UInt8.ofNat n) (salt_length r) hvlen
    (show (uninit cfg (254 + 16)).length = 3 + 267 from harray)
    (show n ≤ 267 by omega)
  have hpad : (UInt8.ofNat n :: padTake 267 (input.take n)).length = 268 := by
    rw [List.length_cons, padTake_length]
  have hsalt : fetchN (r.salt.1 ++ UInt8.ofNat n :: padTake 267 (input.take n))
      0 2 = .ok r.salt.1 := by
    have hfetch := fetchN_take (k := 2)
      (r.salt.1 ++ UInt8.ofNat n :: padTake 267 (input.take n))
      (by rw [List.length_append, salt_length]; omega)
    rw [List.take_left' (salt_length r)] at hfetch
    exact hfetch
  obtain ⟨c, hrun, hc⟩ := makeBlock_loop cfg secret
    (vector.bytes ++ r.salt.1) (UInt8.ofNat n :: padTake 267 (input.take n))
    (16 * ((n + 16) / 16)) (salt_length r) (by omega)
  rw [show (16 * ((n + 16) / 16) + 15) / 16 = (n + 16) / 16 by omega] at hc
  have hcongr : hideBlocks cfg.md5 secret ((n + 16) / 16)
        (vector.bytes ++ r.salt.1) (UInt8.ofNat n :: padTake 267 (input.take n))
      = hideBlocks cfg.md5 secret ((n + 16) / 16)
          (vector.bytes ++ r.salt.1) (UInt8.ofNat n :: input.take n) := by
    apply hideBlocks_congr
    rw [show 16 * ((n + 16) / 16) = 16 * ((n + 16) / 16) - 1 + 1 by omega,
      padTake_cons, padTake_cons, padTake_padTake (by omega)]
  have hout : fetchN c.passwd 0 ((16 * ((n + 16) / 16) : Nat) + 2)
      = .ok (r.salt.1 ++ hideBlocks cfg.md5 secret ((n + 16) / 16)
          (vector.bytes ++ r.salt.1) (UInt8.ofNat n :: input.take n)) := by
    rw [hcongr] at hc
    have hhlen := hideBlocks_length cfg.md5 secret ((n + 16) / 16)
      (vector.bytes ++ r.salt.1) (UInt8.ofNat n :: input.take n)
    have hfetch := fetchN_take (k := 16 * ((n + 16) / 16) + 2) c.passwd (by
        rw [hc, List.length_append, List.length_append, salt_length, hhlen]
        omega)
    rw [hc, ← List.append_assoc, List.take_left'] at hfetch
    · rw [hc, ← List.append_assoc]
      exact hfetch
    · rw [List.length_append, salt_length, hhlen]
      omega
  unfold InPlace.makeTunnelPasswd makeTunnelPasswd
  dsimp only
  rw [inPlace_tunnelRoom h18, ← hn, tunnel_blocks, hmax,
    show 254 + 16 - 3 - n = 267 - n by omega, hvalue, ok_bind,
    storeN_eq_ok (by omega), ok_bind,
    storeN_eq_ok (by rw [List.length_replicate]; omega), ok_bind,
    storeN_eq_ok (by rw [salt_length]; omega), ok_bind,
    store_eq_ok (by omega), ok_bind, hlayout, hsalt, ok_bind,
    List.append_assoc]
  simp only [hrun, ok_bind]
  rw [hout, ok_bind, Nat.mul_div_cancel_left _ (by omega)]
  rfl

-- ======== rad_tunnel_pwencode

theorem take_overlay {buf bs : List UInt8} (h : n + bs.length ≤ buf.length) :
    (overlay buf n bs).take (n + bs.length) = buf.take n ++ bs := by
  have hl : (buf.take n).length = n := by
    rw [List.length_take]
    omega
  rw [overlay, List.take_left']
  rw [List.length_append, hl]

theorem take_overlay_left {buf bs : List UInt8}
    (h : n + bs.length ≤ buf.length) :
    (overlay buf n bs).take n = buf.take n := by
  have hl : (buf.take n).length = n := by
    rw [List.length_take]
    omega
  rw [overlay, List.append_assoc, List.take_left' hl]

/-- What `rad_tunnel_pwencode` keeps of its array: the secret in front, and
before the first block the salt in the buffer. -/
structure Drafting (secret salt : List UInt8) (k : Nat) (d : InPlace.Draft) :
    Prop where
  size : d.buffer.length = 273
  secret : d.buffer.take secret.length = secret
  salt : k = 0 → slice d.passwd 0 2 = salt

/-- With a secret of at most 255 bytes the array holds the text. -/
theorem tunnelText_ok (vector : AuthVector) {salt : List UInt8}
    {d : InPlace.Draft} (hs : secret.length ≤ 255)
    (hsalt : salt.length = 2) (hd : Drafting secret salt k d)
    (hroom : 2 + 16 * k + 16 ≤ d.passwd.length) :
    ∃ buffer textlen,
      InPlace.tunnelText secret.length vector (16 * k) d
          = .ok (buffer, textlen)
        ∧ fetchN buffer 0 textlen = .ok (secret
            ++ chainKey (vector.bytes ++ salt) 2 k d.passwd)
        ∧ buffer.length = 273 ∧ buffer.take secret.length = secret := by
  have hsize := hd.size
  have hvec : vector.bytes.length = 16 := vector.len
  unfold InPlace.tunnelText
  by_cases hk : k = 0
  · have hfetch : fetchN d.passwd 0 2 = .ok salt := by
      rw [← hd.salt hk]
      exact fetchN_take (k := 2) d.passwd (by omega)
    have hl1 : (overlay d.buffer secret.length vector.bytes).length = 273 := by
      rw [overlay_length (by omega), hsize]
    have ht1 : (overlay d.buffer secret.length vector.bytes).take
        (secret.length + 16) = secret ++ vector.bytes := by
      rw [← hvec, take_overlay (by omega), hd.secret]
    have ht2 : (overlay (overlay d.buffer secret.length vector.bytes)
        (secret.length + 16) salt).take (secret.length + 16 + 2)
          = secret ++ vector.bytes ++ salt := by
      rw [← hsalt, take_overlay (by omega), ht1]
    rw [if_pos (by omega), storeN_eq_ok (by omega), ok_bind, hfetch, ok_bind,
      storeN_eq_ok (by omega), ok_bind]
    refine ⟨_, _, rfl, ?_, ?_, ?_⟩
    · have htext := fetchN_take (k := secret.length + 16 + 2)
        (overlay (overlay d.buffer secret.length vector.bytes)
          (secret.length + 16) salt) (by rw [overlay_length (by omega)]; omega)
      rw [htext, ht2, chainKey, if_pos hk, List.append_assoc]
    · rw [overlay_length (by omega), hl1]
    · have hprefix := congrArg (List.take secret.length) ht2
      rw [List.take_take, Nat.min_eq_left (by omega), List.append_assoc,
        List.take_left] at hprefix
      exact hprefix
  · have hblock : (slice d.passwd (2 + 16 * k - 16) 16).length = 16 :=
      slice_length (by omega)
    have hfetch : fetchN d.passwd (2 + (16 * k : Nat) - 16) 16
        = .ok (slice d.passwd (2 + 16 * k - 16) 16) :=
      fetchN_slice (k := 16) (by omega) (by omega)
    have ht : (overlay d.buffer secret.length
        (slice d.passwd (2 + 16 * k - 16) 16)).take (secret.length + 16)
          = secret ++ slice d.passwd (2 + 16 * k - 16) 16 := by
      have htake := take_overlay (n := secret.length)
        (show _ + (slice d.passwd (2 + 16 * k - 16) 16).length
          ≤ d.buffer.length by omega)
      rw [hblock, hd.secret] at htake
      exact htake
    rw [if_neg (by omega), hfetch, ok_bind, storeN_eq_ok (by omega), ok_bind]
    refine ⟨_, _, rfl, ?_, ?_, ?_⟩
    · rw [fetchN_take (k := secret.length + 16) _
          (by rw [overlay_length (by omega)]; omega), ht, chainKey, if_neg hk]
    · rw [overlay_length (by omega), hsize]
    · rw [take_overlay_left (by omega), hd.secret]

/-- With a longer one the vector or the salt is written behind it. -/
theorem tunnelText_fault {vector : AuthVector} {d : InPlace.Draft}
    (hs : 255 < secret.length) (hsize : d.buffer.length = 273)
    (hroom : 2 ≤ d.passwd.length) :
    InPlace.tunnelText secret.length vector 0 d = .error .overwrite := by
  have hvec : vector.bytes.length = 16 := vector.len
  unfold InPlace.tunnelText
  rw [if_pos rfl]
  by_cases hfirst : secret.length + 16 ≤ 273
  · obtain ⟨salt, hsalt⟩ : ∃ salt, salt = d.passwd.take 2 := ⟨_, rfl⟩
    have hfetch : fetchN d.passwd 0 2 = .ok salt := by
      rw [hsalt]
      exact fetchN_take (k := 2) _ (by omega)
    have hslen : salt.length = 2 := by
      rw [hsalt, List.length_take]
      omega
    rw [storeN_eq_ok (by omega), ok_bind, hfetch, ok_bind,
      storeN_eq_error (by rw [overlay_length (by omega)]; omega), error_bind]
  · rw [storeN_eq_error (by omega), error_bind]

variable (cfg secret) in
/-- The loop of `rad_tunnel_pwencode`, with a secret its array holds. -/
theorem tunnelPwencodeBlock_loop {salt buffer : List UInt8} (rest : List UInt8)
    (vector : AuthVector) (hsalt : salt.length = 2)
    (hlen : 16 * ((len + 15) / 16) ≤ rest.length)
    (hs : secret.length ≤ 255) (hsize : buffer.length = 273)
    (hsecret : buffer.take secret.length = secret) :
    ∃ d, forBlocks 16 len (InPlace.tunnelPwencodeBlock cfg secret.length vector)
        (len + 1) 0 { buffer := buffer, passwd := salt ++ rest } = .ok (some d)
      ∧ d.passwd = salt ++ (hideBlocks cfg.md5 secret ((len + 15) / 16)
          (vector.bytes ++ salt) rest
        ++ rest.drop (16 * ((len + 15) / 16))) := by
  refine forBlocks_hides InPlace.Draft.passwd (Drafting secret salt) ?_ rfl
    hsalt hlen ⟨hsize, hsecret, fun _ => ?_⟩
  · intro k d hk hd hroom passwd' hxor hsame
    obtain ⟨buffer', textlen, htext, hfetch, hsize', hsecret'⟩ :=
      tunnelText_ok vector hs hsalt hd hroom
    unfold InPlace.tunnelPwencodeBlock
    rw [htext, ok_bind]
    dsimp only
    rw [hfetch, ok_bind, hxor, ok_bind]
    exact ⟨_, rfl, rfl, hsize', hsecret', fun h => absurd h (by omega)⟩
  · show slice (salt ++ rest) 0 2 = salt
    rw [slice, List.drop_zero, List.take_left' hsalt]

/-- The buffer of `rad_tunnel_pwencode` before the loop: salt, length byte,
password and zeros, then what the shift left behind them. -/
theorem tunnelShift_layout {salt : List UInt8} (pw : List UInt8)
    (b : UInt8) {pad : Nat} (hpw : pw = passwd.take len)
    (hsalt : salt.length = 2) (h : 3 + len + pad < passwd.length)
    (hlen : len < passwd.length) :
    ∃ shifted tail, shiftRight 3 len passwd = .ok shifted
      ∧ shifted.length = passwd.length
      ∧ overlay (overlay (overlay shifted 2 [b]) 0 salt) (2 + (len + 1))
          (List.replicate pad 0)
        = salt ++ (b :: (pw ++ List.replicate pad 0) ++ tail)
      ∧ tail.length = passwd.length - (3 + len + pad) := by
  subst hpw
  have hslen : (slice passwd 0 (len + 1)).length = len + 1 :=
    slice_length (by omega)
  have hsize : (overlay passwd 3 (slice passwd 0 (len + 1))).length
      = passwd.length := overlay_length (by omega)
  obtain ⟨x, y, rfl⟩ := List.length_eq_two.mp hsalt
  obtain ⟨a, b', c, habc⟩ := List.length_eq_three.mp
    (show (passwd.take 3).length = 3 by rw [List.length_take]; omega)
  have hsplit : slice passwd 0 (len + 1) = passwd.take len ++ [passwd[len]] := by
    rw [slice, List.drop_zero, List.take_succ_eq_append_getElem hlen]
  refine ⟨_, ([passwd[len]] ++ passwd.drop (3 + (len + 1))).drop pad,
    shiftRight_eq_ok (by omega) (by omega), hsize, ?_, ?_⟩
  · have hshift : overlay passwd 3 (slice passwd 0 (len + 1))
        = [a, b', c] ++ (passwd.take len
          ++ ([passwd[len]] ++ passwd.drop (3 + (len + 1)))) := by
      rw [overlay, habc, hslen, hsplit]
      simp only [List.append_assoc]
    have hfront : overlay (overlay ([a, b', c] ++ (passwd.take len
          ++ ([passwd[len]] ++ passwd.drop (3 + (len + 1))))) 2 [b]) 0 [x, y]
        = ([x, y, b] ++ passwd.take len)
          ++ ([passwd[len]] ++ passwd.drop (3 + (len + 1))) := rfl
    rw [hshift, hfront, overlay_done, List.length_replicate]
    · simp only [List.append_assoc, List.cons_append, List.nil_append]
    · rw [List.length_append, List.length_take]
      simp only [List.length_cons, List.length_nil]
      omega
  · rw [List.length_drop, List.length_append, List.length_drop,
      List.length_singleton]
    omega

/-- The zeros that fill the last block. -/
theorem tunnel_pad (n : Nat) :
    n + 1 + (if (n + 1) % 16 ≠ 0 then 16 - (n + 1) % 16 else 0)
      = 16 * ((n + 16) / 16) := by
  split <;> omega

/-- The buffer that is encrypted: the salt, the padded value, and at least
one byte more. -/
theorem tunnelPwLayout_ok (r : Rand) {pwlen : Nat} (hpw : pwlen ≤ 127)
    (hroom : 16 * ((pwlen + 16) / 16) + 2 < passwd.length) :
    ∃ t more, InPlace.tunnelPwLayout r passwd pwlen
      = .ok (r.salt.1 ++ (padTake (16 * ((pwlen + 16) / 16))
          (UInt8.ofNat pwlen :: passwd.take pwlen) ++ t :: more),
        16 * ((pwlen + 16) / 16), r.salt.2) := by
  have hpad := tunnel_pad pwlen
  obtain ⟨pad, hpadEq⟩ : ∃ pad, pad = (if (pwlen + 1) % 16 ≠ 0 then
      16 - (pwlen + 1) % 16 else 0) := ⟨_, rfl⟩
  rw [← hpadEq] at hpad
  obtain ⟨shifted, tail, hshift, hsize, hlayout, htail⟩ :=
    tunnelShift_layout (passwd.take pwlen) (UInt8.ofNat pwlen) rfl
      (salt_length r) (show 3 + pwlen + pad < passwd.length by omega) (by omega)
  obtain ⟨t, more, rfl⟩ : ∃ t more, tail = t :: more :=
    List.exists_cons_of_length_pos (by omega)
  have hplen : (passwd.take pwlen).length = pwlen := by
    rw [List.length_take]
    omega
  have hvalue : UInt8.ofNat pwlen :: (passwd.take pwlen
      ++ List.replicate pad 0) = padTake (16 * ((pwlen + 16) / 16))
        (UInt8.ofNat pwlen :: passwd.take pwlen) := by
    have hfit : (UInt8.ofNat pwlen :: passwd.take pwlen).length
        ≤ 16 * ((pwlen + 16) / 16) := by
      rw [List.length_cons, hplen]
      omega
    rw [padTake, List.take_of_length_le hfit, List.length_cons, hplen,
      show 16 * ((pwlen + 16) / 16) - (pwlen + 1) = pad by omega,
      List.cons_append]
  rw [hvalue] at hlayout
  have hset : (overlay shifted 2 [UInt8.ofNat pwlen]).length
      = passwd.length := by
    rw [overlay_length (by rw [List.length_singleton]; omega), hsize]
  have hset2 : (overlay (overlay shifted 2 [UInt8.ofNat pwlen]) 0
      r.salt.1).length = passwd.length := by
    rw [overlay_length (by rw [salt_length]; omega), hset]
  refine ⟨t, more, ?_⟩
  unfold InPlace.tunnelPwLayout
  dsimp only
  rw [if_neg (by omega), hshift, ok_bind, store_eq_ok (by omega), ok_bind,
    storeN_eq_ok (by rw [salt_length]; omega), ok_bind, ← hpadEq,
    zeroFrom_eq_ok (by omega), ok_bind, hpad, hlayout]
  rfl

variable (cfg secret) in
/-- `rad_tunnel_pwencode` in place, with a secret its array holds: salt and
blocks, and a NUL behind them. -/
theorem inPlace_radTunnelPwencode (r : Rand) {pwlen : Nat}
    (vector : AuthVector) (hpw : pwlen ≤ 127)
    (hroom : 16 * ((pwlen + 16) / 16) + 2 < passwd.length)
    (hs : secret.length ≤ 255) :
    ∃ tail, InPlace.radTunnelPwencode cfg r passwd pwlen secret vector
      = .ok (r.salt.1 ++ (hideBlocks cfg.md5 secret ((pwlen + 16) / 16)
          (vector.bytes ++ r.salt.1) (UInt8.ofNat pwlen :: passwd.take pwlen)
          ++ 0 :: tail), 16 * ((pwlen + 16) / 16) + 2, r.salt.2) := by
  have hmax : maxStringLen = 254 := rfl
  obtain ⟨t, more, hlay⟩ := tunnelPwLayout_ok r hpw hroom
  obtain ⟨plain, hplain⟩ : ∃ p, p = UInt8.ofNat pwlen :: passwd.take pwlen :=
    ⟨_, rfl⟩
  obtain ⟨n, hn⟩ : ∃ n, n = (pwlen + 16) / 16 := ⟨_, rfl⟩
  rw [← hplain, ← hn] at hlay ⊢
  have hvlen := padTake_length (16 * n) plain
  have harray := uninit_length cfg (16 + 254 + 3)
  have hbuffer : (overlay (uninit cfg (16 + 254 + 3)) 0 secret).length
      = 273 := by
    rw [overlay_length (by omega), harray]
  have hsecret : (overlay (uninit cfg (16 + 254 + 3)) 0 secret).take
      secret.length = secret := by
    rw [overlay, List.take_zero, List.nil_append, List.take_left]
  obtain ⟨d, hrun, hd⟩ := tunnelPwencodeBlock_loop cfg secret
    (padTake (16 * n) plain ++ t :: more) vector (salt_length r)
    (show 16 * ((16 * n + 15) / 16) ≤ _ by
      rw [List.length_append, hvlen]
      omega) hs hbuffer hsecret
  have hcongr : hideBlocks cfg.md5 secret n (vector.bytes ++ r.salt.1)
        (padTake (16 * n) plain ++ t :: more)
      = hideBlocks cfg.md5 secret n (vector.bytes ++ r.salt.1) plain := by
    apply hideBlocks_congr
    have happend := padTake_append (padTake (16 * n) plain) (t :: more)
    rw [hvlen] at happend
    exact happend
  rw [show (16 * n + 15) / 16 = n by omega, hcongr, List.drop_left' hvlen,
    ← List.append_assoc] at hd
  have hhide := hideBlocks_length cfg.md5 secret n (vector.bytes ++ r.salt.1)
    plain
  have hfront : (r.salt.1 ++ hideBlocks cfg.md5 secret n
      (vector.bytes ++ r.salt.1) plain).length = 2 + 16 * n := by
    rw [List.length_append, salt_length, hhide]
  have hnul : store d.passwd (2 + 16 * n) 0
      = .ok (r.salt.1 ++ (hideBlocks cfg.md5 secret n
          (vector.bytes ++ r.salt.1) plain ++ 0 :: more)) := by
    rw [store_eq_ok (by
        rw [hd, List.length_append, hfront, List.length_cons]
        omega), hd, overlay_done hfront, List.append_assoc]
    rfl
  refine ⟨more, ?_⟩
  unfold InPlace.radTunnelPwencode
  rw [hlay, ok_bind]
  dsimp only
  rw [hmax, storeN_eq_ok (by omega), ok_bind]
  simp only [hrun, ok_bind]
  rw [hnul, ok_bind]
  rfl

/-- With a longer secret it writes behind its array. -/
theorem inPlace_radTunnelPwencode_fault {r : Rand} {pwlen : Nat}
    {vector : AuthVector} (hpw : pwlen ≤ 127)
    (hroom : 16 * ((pwlen + 16) / 16) + 2 < passwd.length)
    (hs : 255 < secret.length) :
    InPlace.radTunnelPwencode cfg r passwd pwlen secret vector
      = .error .overwrite := by
  have hmax : maxStringLen = 254 := rfl
  obtain ⟨t, more, hlay⟩ := tunnelPwLayout_ok r hpw hroom
  have harray := uninit_length cfg (16 + 254 + 3)
  unfold InPlace.radTunnelPwencode
  rw [hlay, ok_bind]
  dsimp only
  rw [hmax]
  by_cases hfit : secret.length ≤ 273
  · have hbuffer : (overlay (uninit cfg (16 + 254 + 3)) 0 secret).length
        = 273 := by
      rw [overlay_length (by omega), harray]
    rw [storeN_eq_ok (by omega), ok_bind, forBlocks, if_pos (by omega),
      InPlace.tunnelPwencodeBlock, tunnelText_fault hs hbuffer, error_bind,
      error_bind, error_bind]
    rw [List.length_append, salt_length]
    omega
  · rw [storeN_eq_error (by omega), error_bind]

-- ======== round trip

/-- A Tunnel-Password of `pw` as both encoders lay it out. -/
def hiddenTunnel (cfg : Config) (secret : List UInt8) (vector : AuthVector)
    (salt pw : List UInt8) : List UInt8 :=
  salt ++ hideBlocks cfg.md5 secret ((pw.length + 16) / 16)
    (vector.bytes ++ salt) (UInt8.ofNat pw.length :: pw)

variable (cfg secret) in
theorem hiddenTunnel_length (vector : AuthVector) {salt : List UInt8}
    (pw : List UInt8) (hsalt : salt.length = 2) :
    (hiddenTunnel cfg secret vector salt pw).length
      = 16 * ((pw.length + 16) / 16) + 2 := by
  rw [hiddenTunnel, List.length_append, hideBlocks_length, hsalt]
  omega

/-- The decoder in place gives back the length and the bytes. -/
theorem radTunnelPwdecode_hidden {vector : AuthVector} {salt pw : List UInt8}
    (tail : List UInt8) (hsalt : salt.length = 2) (hpw : pw.length ≤ 239) :
    ∃ out, InPlace.radTunnelPwdecode cfg
        (hiddenTunnel cfg secret vector salt pw ++ tail)
        (16 * ((pw.length + 16) / 16) + 2) secret vector
          = .ok (some (out, pw.length))
      ∧ out.take pw.length = pw := by
  obtain ⟨n, hn⟩ : ∃ n, n = (pw.length + 16) / 16 := ⟨_, rfl⟩
  have hlength := hiddenTunnel_length cfg secret vector pw hsalt
  rw [← hn] at hlength ⊢
  have hbuf : (hiddenTunnel cfg secret vector salt pw ++ tail).length
      = 16 * n + 2 + tail.length := by
    rw [List.length_append, hlength]
  rw [inPlace_radTunnelPwdecode vector (by omega) (fun _ => by omega),
    radTunnelPwdecode, if_neg (by omega), if_neg (by omega)]
  dsimp only
  have hreveal : revealBlocks cfg.md5 secret ((16 * n + 2 - 2 + 15) / 16)
        (vector.bytes ++ (hiddenTunnel cfg secret vector salt pw
          ++ tail).take 2) ((hiddenTunnel cfg secret vector salt pw
          ++ tail).drop 2)
      = UInt8.ofNat pw.length :: padTake (16 * n - 1) pw := by
    rw [show (16 * n + 2 - 2 + 15) / 16 = n by omega, hiddenTunnel, ← hn,
      List.append_assoc, List.take_left' hsalt, List.drop_left' hsalt,
      revealBlocks_hideBlocks, show 16 * n = 16 * n - 1 + 1 by omega,
      padTake_cons, Nat.add_sub_cancel]
  have hnat : (UInt8.ofNat pw.length).toNat = pw.length := by
    rw [UInt8.toNat_ofNat']
    omega
  rw [hreveal, List.getD_cons_zero, hnat, if_neg (by omega),
    if_neg (by omega)]
  refine ⟨_, rfl, ?_⟩
  have htake : ((UInt8.ofNat pw.length :: padTake (16 * n - 1) pw).drop 1
      ++ (hiddenTunnel cfg secret vector salt pw ++ tail).drop
        (16 * ((16 * n + 2 - 2 + 15) / 16) - 1)).take pw.length = pw := by
    rw [List.drop_one, List.tail_cons, List.take_append_of_le_length
      (by rw [padTake_length]; omega), ← padTake_take (by omega),
      padTake_self]
  rw [htake, List.take_left]

/-- `rad_tunnel_pwdecode` undoes `make_tunnel_passwd`: the form fits the
room, and in any buffer the decoder gives back length and bytes. -/
def WireUndone (cfg : Config) (r : Rand) (secret : List UInt8)
    (vector : AuthVector) (input : List UInt8) (room : Nat) : Prop :=
  ∃ output r', InPlace.makeTunnelPasswd cfg r input room secret vector
      = .ok (output, r')
    ∧ output.length ≤ room
    ∧ ∀ rest, ∃ out, InPlace.radTunnelPwdecode cfg (output ++ rest)
          output.length secret vector = .ok (some (out, input.length))
        ∧ out.take input.length = input

/-- `rad_tunnel_pwdecode` undoes `rad_tunnel_pwencode` on a buffer that
starts with the password. -/
def BufferUndone (cfg : Config) (r : Rand) (secret : List UInt8)
    (vector : AuthVector) (password rest : List UInt8) : Prop :=
  ∃ buf len r', InPlace.radTunnelPwencode cfg r (password ++ rest)
      password.length secret vector = .ok (buf, len, r')
    ∧ ∃ out, InPlace.radTunnelPwdecode cfg buf len secret vector
          = .ok (some (out, password.length))
        ∧ out.take password.length = password

/-- `make_tunnel_passwd` is undone whatever the secret. -/
theorem wireUndone {r : Rand} {vector : AuthVector} {input : List UInt8}
    {room : Nat} (hin : input.length ≤ 239)
    (hroom : 16 * ((input.length + 16) / 16) + 2 ≤ room) :
    WireUndone cfg r secret vector input room := by
  have hclip : ¬ tunnelRoom room < input.length := by
    unfold tunnelRoom
    dsimp only
    split <;> omega
  have hmake : (makeTunnelPasswd cfg r input room secret vector)
      = (hiddenTunnel cfg secret vector r.salt.1 input, r.salt.2) := by
    unfold makeTunnelPasswd
    dsimp only
    rw [if_neg hclip, tunnel_blocks, Nat.mul_div_cancel_left _ (by omega),
      List.take_length]
    rfl
  have hlength := hiddenTunnel_length cfg secret vector input (salt_length r)
  refine ⟨_, _, by rw [inPlace_makeTunnelPasswd cfg r input secret vector
    (by omega), hmake], by rw [hlength]; exact hroom, fun rest => ?_⟩
  rw [hlength]
  exact radTunnelPwdecode_hidden rest (salt_length r) hin

/-- `rad_tunnel_pwencode` is undone exactly when its array holds the
secret. -/
theorem bufferUndone_iff {r : Rand} {vector : AuthVector}
    {password rest : List UInt8} (hpw : password.length ≤ 127)
    (hroom : 16 * ((password.length + 16) / 16) + 2
      < (password ++ rest).length) :
    BufferUndone cfg r secret vector password rest ↔ secret.length ≤ 255 := by
  constructor
  · intro ⟨buf, len, r', henc, _⟩
    by_contra hlong
    rw [inPlace_radTunnelPwencode_fault hpw hroom (by omega)] at henc
    cases henc
  · intro hs
    obtain ⟨tail, henc⟩ := inPlace_radTunnelPwencode cfg secret r vector hpw
      hroom hs
    rw [List.take_left, ← List.append_assoc] at henc
    refine ⟨_, _, _, henc, ?_⟩
    exact radTunnelPwdecode_hidden (0 :: tail) (salt_length r) (by omega)

/-- Both encoders are undone exactly when the secret has at most 255
bytes. -/
theorem tunnelPassword_undone_iff {r : Rand} {vector : AuthVector}
    {input password rest : List UInt8} {room : Nat}
    (hin : input.length ≤ 239)
    (hroom : 16 * ((input.length + 16) / 16) + 2 ≤ room)
    (hpw : password.length ≤ 127)
    (hrest : 16 * ((password.length + 16) / 16) + 2
      < (password ++ rest).length) :
    (WireUndone cfg r secret vector input room
      ∧ BufferUndone cfg r secret vector password rest)
      ↔ secret.length ≤ 255 := by
  rw [bufferUndone_iff hpw hrest]
  exact ⟨fun h => h.2, fun h => ⟨wireUndone hin hroom, h⟩⟩

/-- A password of three bytes under a secret of one. -/
theorem tunnelPassword_undone_three :
    (WireUndone bareConfig ⟨fun _ => 5, 0, 0⟩ [7] .zero [1, 2, 3] 253
      ∧ BufferUndone bareConfig ⟨fun _ => 5, 0, 0⟩ [7] .zero [1, 2, 3]
          (List.replicate 251 0))
      ↔ [(7 : UInt8)].length ≤ 255 :=
  tunnelPassword_undone_iff (by decide) (by decide) (by decide)
    (by rw [List.length_append, List.length_replicate]; decide)

/-- The same password under a secret of 256 bytes. -/
theorem tunnelPassword_long_secret :
    ¬ BufferUndone bareConfig ⟨fun _ => 5, 0, 0⟩ (List.replicate 256 7) .zero
        [1, 2, 3] (List.replicate 251 0) := by
  rw [bufferUndone_iff (by decide)
    (by rw [List.length_append, List.length_replicate]; decide),
    List.length_replicate]
  decide

-- ======== value buffers

/-- A round that stays in the buffer, whatever is in it. -/
theorem tunnelPwdecodeBlock_inside {c : InPlace.TunnelChain} (hk : 0 < k)
    (hroom : 16 * k + 18 ≤ c.passwd.length) :
    ∃ c', InPlace.tunnelPwdecodeBlock cfg secret len (16 * k) c = .ok (some c')
      ∧ c'.passwd.length = c.passwd.length := by
  have hd : (cfg.md5 c.context).bytes.length = 16 := AuthVector.len _
  have hfetch : fetchN c.passwd ((16 * k : Nat) + 2) 16
      = .ok (slice c.passwd (16 * k + 2) 16) :=
    fetchN_slice (k := 16) (by omega) (by omega)
  have hxor := xorInto_eq_ok (cfg.md5 c.context).bytes
    (show 16 * k - 1 ≤ 16 * k + 2 by omega)
    (show _ ≤ c.passwd.length by omega)
  unfold InPlace.tunnelPwdecodeBlock
  dsimp only
  rw [if_neg (by omega), hfetch, ok_bind, hxor, ok_bind]
  refine ⟨_, rfl, overlay_length ?_⟩
  rw [List.length_zipWith, slice_length (by omega)]
  omega

variable (cfg secret) in
/-- The first round of a buffer as it came: the loop is left when the length
byte is not below the length. -/
theorem tunnelPwdecodeBlock_enter (first : List UInt8) (hlen : 0 < len)
    (h : 18 ≤ passwd.length) :
    (InPlace.tunnelPwdecodeBlock cfg secret len 0 ⟨secret ++ first, passwd, 0⟩
        = .ok none ∧ len ≤ tunnelDataLen cfg secret first passwd)
      ∨ ∃ c', InPlace.tunnelPwdecodeBlock cfg secret len 0
          ⟨secret ++ first, passwd, 0⟩ = .ok (some c')
        ∧ tunnelDataLen cfg secret first passwd < len
        ∧ c'.passwd.length = passwd.length := by
  have hstart : Shifting cfg secret first passwd ((len + 15) / 16) 0
      ⟨secret ++ first, passwd, 0⟩ :=
    ⟨first, [], rfl, rfl, rfl, fun _ => rfl, fun h => absurd h (by omega)⟩
  rcases tunnelPwdecodeBlock_first hlen h hstart with hleft | ⟨c', hc', hlt, hs⟩
  · exact Or.inl hleft
  · refine Or.inr ⟨c', hc', hlt, ?_⟩
    obtain ⟨_, done, -, hpw, hdone, -⟩ := hs
    rw [hpw, List.length_append, hdone, List.length_drop]
    omega

/-- In the 254 bytes of a value, more than 240 bytes behind the salt make a
loop that goes on reach the block at 240, which is read up to byte 257. -/
theorem tunnelPwdecode_loop_fault {first : List UInt8}
    (hsize : passwd.length = 254) (hlen : 240 < len)
    (hdata : tunnelDataLen cfg secret first passwd < len) :
    forBlocks 16 len (InPlace.tunnelPwdecodeBlock cfg secret len)
      (len + 1) 0 ⟨secret ++ first, passwd, 0⟩ = .error .overread := by
  refine forBlocks_fault (k := 0)
    (fun k c => c.passwd.length = 254
      ∧ (k = 0 → c = ⟨secret ++ first, passwd, 0⟩)) ?_ ?_
    (show 16 * 15 < len by omega) (by omega) ⟨hsize, fun _ => rfl⟩ (by omega)
  · intro k c hk ⟨hc, hfirst⟩
    by_cases hk0 : k = 0
    · subst hk0
      rw [hfirst rfl]
      obtain ⟨-, hleft⟩ | ⟨c', hc', -, hlen'⟩ := tunnelPwdecodeBlock_enter
        cfg secret first (show 0 < len by omega)
        (show 18 ≤ passwd.length by omega)
      · omega
      · exact ⟨c', hc', by omega, fun h => absurd h (by omega)⟩
    · obtain ⟨c', hc', hlen'⟩ := tunnelPwdecodeBlock_inside (show 0 < k by omega)
        (show 16 * k + 18 ≤ c.passwd.length by omega)
      exact ⟨c', hc', by omega, fun h => absurd h (by omega)⟩
  · intro c ⟨hc, _⟩
    have hfetch : fetchN c.passwd ((16 * 15 : Nat) + 2) 16
        = .error .overread := by
      rw [fetchN_eq_error]
      exact ⟨rfl, by omega⟩
    unfold InPlace.tunnelPwdecodeBlock
    dsimp only
    rw [if_neg (by omega), hfetch, error_bind]

/-- A value of at most 253 bytes is decoded inside its 254 exactly when it
has at most 242, or the loop is left in its first block. -/
theorem radTunnelPwdecode_within_iff {vector : AuthVector} {pwlen : Nat}
    (hsize : passwd.length = 254) (hmax : pwlen ≤ 253) :
    (∃ res, InPlace.radTunnelPwdecode cfg passwd pwlen secret vector
        = .ok res)
      ↔ pwlen ≤ 242 ∨ pwlen - 2
        ≤ tunnelDataLen cfg secret (vector.bytes ++ passwd.take 2) passwd := by
  by_cases hshort : pwlen ≤ 242
  · exact iff_of_true
      ⟨_, inPlace_radTunnelPwdecode vector (by omega) fun _ => by omega⟩
      (Or.inl hshort)
  have hsalt : fetchN passwd 0 2 = .ok (passwd.take 2) :=
    fetchN_take (k := 2) passwd (by omega)
  unfold InPlace.radTunnelPwdecode
  rw [if_neg (by omega), if_neg (by omega)]
  dsimp only
  rw [hsalt, ok_bind, List.append_assoc]
  by_cases hleft : pwlen - 2
      ≤ tunnelDataLen cfg secret (vector.bytes ++ passwd.take 2) passwd
  · -- the length byte is too big for the value
    obtain ⟨hblock, -⟩ | ⟨-, -, hlt, -⟩ := tunnelPwdecodeBlock_enter
      cfg secret (vector.bytes ++ passwd.take 2)
      (show 0 < pwlen - 2 by omega) (show 18 ≤ passwd.length by omega)
    · refine iff_of_true ⟨none, ?_⟩ (Or.inr hleft)
      rw [forBlocks, if_pos (by omega), hblock]
      rfl
    · omega
  · rw [tunnelPwdecode_loop_fault hsize (by omega) (by omega), error_bind]
    refine iff_of_false ?_ (not_or.mpr ⟨hshort, hleft⟩)
    rintro ⟨res, hres⟩
    cases hres

/-- `data2vp` keeps the decoder inside the value exactly when at most 242
bytes are left of the attribute without its tag, or the first of them that
is decrypted is not below their number without the salt. -/
theorem tunnelData2vp_within_iff (ctx : DecCtx) {original : RadiusPacket}
    {length data offset : Int} {buf value : List UInt8} {vp vp' : ValuePair}
    (htag : vpTag buf data { vp with op := .opEq } = .ok (vp', offset))
    (hvalue : fetchN buf (data + offset) (clipLength length - offset)
      = .ok value) :
    (∃ res, tunnelData2vp ctx secret original length buf data vp = .ok res)
      ↔ value.length ≤ 242 ∨ value.length - 2 ≤ tunnelDataLen ctx.cfg secret
          (original.vector.bytes ++ value.take 2) value := by
  have hoffset : 0 ≤ offset := by
    unfold vpTag at htag
    split at htag
    · obtain ⟨first, -, hrest⟩ := bind_eq_ok.mp htag
      split at hrest
      · split at hrest <;> · cases hrest; decide
      · cases hrest
        decide
    · cases htag
      decide
  have hclip : clipLength length ≤ 253 := by
    unfold clipLength
    split <;> omega
  have hvlen := fetchN_length hvalue
  obtain ⟨passwd, hpasswd⟩ : ∃ p, p = (vp'.setOctets value).octets maxStringLen :=
    ⟨_, rfl⟩
  have hcall : tunnelData2vp ctx secret original length buf data vp
      = InPlace.radTunnelPwdecode ctx.cfg passwd value.length secret
          original.vector := by
    unfold tunnelData2vp
    dsimp only
    rw [htag, ok_bind, hvalue, ok_bind, hpasswd]
  have hsize : passwd.length = 254 := by
    rw [hpasswd]
    exact padTake_length _ _
  rw [hcall, radTunnelPwdecode_within_iff hsize (by omega)]
  by_cases hshort : value.length ≤ 242
  · exact iff_of_true (Or.inl hshort) (Or.inl hshort)
  · -- the value stands at the start of its buffer
    obtain ⟨rest, hfront⟩ : ∃ rest, passwd = value ++ rest := by
      refine ⟨passwd.drop value.length, ?_⟩
      rw [hpasswd, ValuePair.octets, ValuePair.setOctets, padTake,
        List.take_append, List.take_of_length_le (show _ ≤ maxStringLen by
          unfold maxStringLen; omega), List.append_assoc, List.drop_left]
    have htake : passwd.take 2 = value.take 2 := by
      rw [hfront, List.take_append_of_le_length (by omega)]
    have hget : passwd.getD 2 0 = value.getD 2 0 := by
      rw [hfront, List.getD_eq_getElem?_getD, List.getD_eq_getElem?_getD,
        List.getElem?_append_left (by omega)]
    rw [htake, tunnelDataLen, tunnelDataLen, hget]

/-- The pair `data2vp` is given for a Tunnel-Password. -/
def tunnelPasswordPair : ValuePair :=
  { attr := 69, type := .string
    flags := { hasTag := true, encrypt := .tunnelPassword } }

/-- A Tunnel-Password as long as an attribute can be, with the byte of its
length. -/
def longTunnelPassword (b : UInt8) : List UInt8 :=
  [2, 1, 1, 19] ++ List.replicate 16 0
    ++ ([69, 255, 1, 1, 1, b] ++ List.replicate 249 1)

/-- The tag of an attribute is its first byte. -/
theorem vpTag_tunnelPasswordPair {buf : List UInt8} {data : Int}
    (h : fetch buf data = .ok 1) :
    vpTag buf data { tunnelPasswordPair with op := .opEq }
      = .ok ({ tunnelPasswordPair with
          flags := { hasTag := true, encrypt := .tunnelPassword, tag := 1 } },
        1) := by
  unfold vpTag
  rw [if_pos (show (tunnelPasswordPair.flags.hasTag = true) from rfl), h,
    ok_bind]
  rfl

/-- What is behind the tag of the long one. -/
theorem longTunnelPassword_value (b : UInt8) :
    fetch (longTunnelPassword b) 22 = .ok 1
      ∧ fetchN (longTunnelPassword b) (22 + 1) (clipLength 253 - 1)
        = .ok ([1, 1, b] ++ List.replicate 249 1) := by
  have hall : ∀ n < 256, fetch (longTunnelPassword (UInt8.ofNat n)) 22 = .ok 1
      ∧ fetchN (longTunnelPassword (UInt8.ofNat n)) (22 + 1)
          (clipLength 253 - 1)
        = .ok ([1, 1, UInt8.ofNat n] ++ List.replicate 249 1) := by
    decide +kernel
  have hb := hall b.toNat b.toNat_lt
  rwa [UInt8.ofNat_toNat] at hb

/-- A tag and four bytes are decoded; so are 252 bytes behind a tag, where
the length byte says 255. -/
theorem tunnelData2vp_within_short :
    (∃ res, tunnelData2vp ⟨bareConfig, .zero, none, some [7]⟩ [7] {} 5
        [1, 2, 3, 4, 5] 0 tunnelPasswordPair = .ok res)
      ∧ ∃ res, tunnelData2vp ⟨bareConfig, .zero, none, some [7]⟩ [7] {} 253
        (longTunnelPassword 255) 22 tunnelPasswordPair = .ok res := by
  obtain ⟨htag, hvalue⟩ := longTunnelPassword_value 255
  exact ⟨(tunnelData2vp_within_iff _ (vpTag_tunnelPasswordPair rfl)
      (show fetchN [1, 2, 3, 4, 5] (0 + 1) (clipLength 5 - 1)
        = .ok [2, 3, 4, 5] by decide)).mpr (Or.inl (by decide)),
    (tunnelData2vp_within_iff _ (vpTag_tunnelPasswordPair htag)
      hvalue).mpr (Or.inr (by decide +kernel))⟩

/-- Whatever the digests are, `rad_packet_ok` accepts an attribute with 252
bytes behind its tag that the decoder goes on with past its buffer. -/
theorem tunnelData2vp_longest : ¬ ∃ md5 : List UInt8 → AuthVector,
    ∀ b : UInt8,
      (radPacketOk bareConfig { data := longTunnelPassword b } false).2
        = none →
      ∃ res, tunnelData2vp
        ⟨{ bareConfig with md5 := md5 }, .zero, none, some [7]⟩ [7] {} 253
        (longTunnelPassword b) 22 tunnelPasswordPair = .ok res := by
  intro ⟨md5, hall⟩
  obtain ⟨b, hb⟩ : ∃ b, b = (md5 ([7] ++ (AuthVector.zero.bytes ++ [1, 1]))
    ).bytes.getD 0 0 := ⟨_, rfl⟩
  have hok : ∀ n < 256, (radPacketOk bareConfig
      { data := longTunnelPassword (UInt8.ofNat n) } false).2 = none := by
    decide +kernel
  have hok' := hok b.toNat b.toNat_lt
  rw [UInt8.ofNat_toNat] at hok'
  have h := hall b hok'
  obtain ⟨htag, hvalue⟩ := longTunnelPassword_value b
  have hdata : tunnelDataLen { bareConfig with md5 := md5 } [7]
      (AuthVector.zero.bytes ++ [1, 1]) ([1, 1, b] ++ List.replicate 249 1)
      = 0 := by
    unfold tunnelDataLen
    rw [← hb]
    show (b ^^^ b).toNat = 0
    rw [UInt8.xor_self]
    rfl
  have hlen : ([1, 1, b] ++ List.replicate 249 (1 : UInt8)).length = 252 := by
    rw [List.length_append, List.length_replicate]
    rfl
  rcases (tunnelData2vp_within_iff _ (vpTag_tunnelPasswordPair htag)
    hvalue).mp h with hshort | hleft
  · omega
  · have hzero : ([1, 1, b] ++ List.replicate 249 (1 : UInt8)).length - 2 ≤ 0 :=
      hleft.trans_eq hdata
    omega

end WinRadius
