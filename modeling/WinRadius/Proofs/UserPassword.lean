/-
User-Password: what `rad_pwencode` hides, `rad_pwdecode` gives back.

`rad_pwdecode` takes the digest of the next block before it overwrites the
block it stands on (`Revealing`), so in place it is the chain of
`revealBlocks`, which undoes that of `hideBlocks`.
-/
import WinRadius.Proofs.CryptLoops

namespace WinRadius

open Lib

variable {cfg : Config} {secret key final passwd : List UInt8}
  {blocks k : Nat}

-- ======== chains

theorem revealBlocks_length (md5 : List UInt8 → AuthVector)
    (secret : List UInt8) (n : Nat) (key hidden : List UInt8) :
    (revealBlocks md5 secret n key hidden).length = 16 * n := by
  induction n generalizing key hidden with
  | zero => rfl
  | succ n ih =>
      simp only [revealBlocks, List.length_append, xorBytes_length,
        padTake_length, AuthVector.len, ih]
      omega

/-- The same digest twice is no change. -/
theorem xorBytes_cancel {a d : List UInt8} (h : a.length ≤ d.length) :
    xorBytes (xorBytes a d) d = a := by
  induction a generalizing d with
  | nil => rfl
  | cons x a ih =>
      cases d with
      | nil =>
          rw [List.length_cons, List.length_nil] at h
          omega
      | cons y d =>
          rw [List.length_cons, List.length_cons] at h
          have htail := ih (d := d) (by omega)
          simp only [xorBytes, List.zipWith_cons_cons, List.cons.injEq] at htail ⊢
          refine ⟨?_, htail⟩
          rw [UInt8.xor_assoc, UInt8.xor_self, UInt8.xor_zero]

/-- The chain back undoes the chain. -/
theorem revealBlocks_hideBlocks (md5 : List UInt8 → AuthVector)
    (secret : List UInt8) (n : Nat) (key plain rest : List UInt8) :
    revealBlocks md5 secret n key
        (hideBlocks md5 secret n key plain ++ rest)
      = padTake (16 * n) plain := by
  induction n generalizing key plain with
  | zero => simp [revealBlocks, padTake]
  | succ n ih =>
      have hd : (md5 (secret ++ key)).bytes.length = 16 := AuthVector.len _
      obtain ⟨block, hblock⟩ : ∃ b, b = xorBytes (padTake 16 plain)
          (md5 (secret ++ key)).bytes := ⟨_, rfl⟩
      have hlen : block.length = 16 := by
        rw [hblock, xorBytes_length, padTake_length, hd]
        rfl
      rw [hideBlocks, ← hblock, revealBlocks, List.append_assoc,
        padTake_of_le (by rw [List.length_append]; omega),
        List.take_left' hlen, List.drop_left' hlen, ih, hblock,
        xorBytes_cancel (by rw [padTake_length, hd]),
        show 16 * (n + 1) = 16 + 16 * n by omega, ← drop_padTake,
        padTake_take (show 16 ≤ 16 + 16 * n by omega),
        List.take_append_drop]

-- ======== revealing

/-- `k` of `blocks` blocks are plain, and the chain over the others leads
to `final`. -/
def Revealing (cfg : Config) (secret : List UInt8) (blocks : Nat)
    (final : List UInt8) (k : Nat) (key passwd : List UInt8) : Prop :=
  ∃ done rest, passwd = done ++ rest ∧ done.length = 16 * k
    ∧ 16 * (blocks - k) ≤ rest.length
    ∧ final = done ++ (revealBlocks cfg.md5 secret (blocks - k) key rest
        ++ rest.drop (16 * (blocks - k)))

namespace Revealing

theorem start (h : 16 * blocks ≤ passwd.length) :
    Revealing cfg secret blocks
      (revealBlocks cfg.md5 secret blocks key passwd
        ++ passwd.drop (16 * blocks)) 0 key passwd :=
  ⟨[], passwd, rfl, rfl, h, rfl⟩

theorem finish (h : Revealing cfg secret blocks final blocks key passwd) :
    passwd = final := by
  obtain ⟨done, rest, hpw, -, -, hfinal⟩ := h
  rw [hfinal, Nat.sub_self, revealBlocks, List.nil_append, Nat.mul_zero,
    List.drop_zero, hpw]

/-- One round: the block is kept as the next key and XORed. -/
theorem step (h : Revealing cfg secret blocks final k key passwd)
    (hk : k < blocks) :
    ∃ passwd', xorInto (cfg.md5 (secret ++ key)).bytes (16 * k) (16 * k)
        passwd = .ok passwd'
      ∧ fetchN passwd (16 * k : Nat) 16 = .ok (slice passwd (16 * k) 16)
      ∧ Revealing cfg secret blocks final (k + 1)
          (slice passwd (16 * k) 16) passwd' := by
  obtain ⟨done, rest, hpw, hdone, hrest, hfinal⟩ := h
  have hds : (cfg.md5 (secret ++ key)).bytes.length = 16 := AuthVector.len _
  have hlen : rest.length = passwd.length - done.length := by
    rw [hpw, List.length_append]
    omega
  have hpad : padTake 16 rest = rest.take 16 := padTake_of_le (by omega)
  have hslice : slice passwd (16 * k) 16 = rest.take 16 := by
    rw [hpw, slice_done hdone]
  have hblock : (xorBytes (rest.take 16)
      (cfg.md5 (secret ++ key)).bytes).length = 16 := by
    rw [xorBytes_length, hds, List.length_take]
    omega
  refine ⟨overlay passwd (16 * k) (xorBytes (rest.take 16)
    (cfg.md5 (secret ++ key)).bytes), ?_, ?_, ?_⟩
  · rw [xorInto_eq_ok _ (Nat.le_refl _) (by omega), hds, hslice]
    rfl
  · exact fetchN_slice (k := 16) rfl (by omega)
  · obtain ⟨m, hm⟩ : ∃ m, blocks - k = m + 1 := ⟨blocks - k - 1, by omega⟩
    have hm' : blocks - (k + 1) = m := by omega
    rw [hm, revealBlocks, hpad] at hfinal
    refine ⟨done ++ xorBytes (rest.take 16)
      (cfg.md5 (secret ++ key)).bytes, rest.drop 16, ?_, ?_, ?_, ?_⟩
    · rw [hpw, overlay_done hdone, hblock, List.append_assoc]
    · rw [List.length_append, hblock]
      omega
    · rw [List.length_drop]
      omega
    · rw [hfinal, hm', hslice, List.drop_drop, List.append_assoc,
        List.append_assoc, show 16 + 16 * m = 16 * (m + 1) by omega]

end Revealing

/-- The rounds of `rad_pwdecode`: the context holds the secret and the
key, but for the vector in the first round. -/
theorem pwdecodeBlock_ok {vector : AuthVector} {pwlen : Nat} {c : Chain}
    (hlen : 16 * k < pwlen) (hblocks : blocks = (pwlen + 15) / 16)
    (hkey : (if 16 * k = 0 then c.context ++ vector.bytes else c.context)
      = secret ++ key)
    (h : Revealing cfg secret blocks final k key c.passwd) :
    ∃ c' key', InPlace.pwdecodeBlock cfg secret vector pwlen (16 * k) c
        = .ok (some c')
      ∧ (k + 1 < blocks → c'.context = secret ++ key')
      ∧ Revealing cfg secret blocks final (k + 1) key' c'.passwd := by
  obtain ⟨passwd', hxor, hfetch, hnext⟩ := h.step (by omega)
  unfold InPlace.pwdecodeBlock
  dsimp only
  rw [hkey]
  by_cases hmore : 16 * k + 16 < pwlen
  · rw [if_pos hmore, hfetch, ok_bind, pure_eq_ok, ok_bind, hxor, ok_bind]
    exact ⟨_, _, rfl, fun _ => rfl, hnext⟩
  · rw [if_neg hmore, pure_eq_ok, ok_bind, hxor, ok_bind]
    exact ⟨_, _, rfl, fun h => absurd h (by omega), hnext⟩

/-- `rad_pwdecode` in place is the chain over the buffer. -/
theorem inPlace_radPwdecode {pwlen : Nat} (vector : AuthVector)
    (hblocks : 16 * ((min pwlen 128 + 15) / 16) ≤ passwd.length)
    (hend : min pwlen 128 < passwd.length) :
    InPlace.radPwdecode cfg passwd pwlen secret vector
      = .ok (radPwdecode cfg passwd pwlen secret vector,
          (cString (radPwdecode cfg passwd pwlen secret vector)).length) := by
  have hclip : (if 128 < pwlen then 128 else pwlen) = min pwlen 128 := by
    split <;> omega
  obtain ⟨len, hlen⟩ : ∃ len, len = min pwlen 128 := ⟨_, rfl⟩
  rw [← hlen] at hblocks hend hclip
  obtain ⟨c, m, hrun, ⟨key, -, hreveal⟩, hle, hm⟩ := forBlocks_run
    (fun k (c : Chain) => ∃ key,
      (k < (len + 15) / 16 →
        (if 16 * k = 0 then c.context ++ vector.bytes else c.context)
          = secret ++ key)
      ∧ Revealing cfg secret ((len + 15) / 16)
          (revealBlocks cfg.md5 secret ((len + 15) / 16) vector.bytes passwd
            ++ passwd.drop (16 * ((len + 15) / 16))) k key c.passwd)
    (show 0 < 16 by omega)
    (by
      intro k c hk ⟨key, hkey, hreveal⟩
      obtain ⟨c', key', hbody, hready, hnext⟩ :=
        pwdecodeBlock_ok hk rfl (hkey (by omega)) hreveal
      refine ⟨c', hbody, key', ?_, hnext⟩
      intro hlt
      rw [if_neg (by omega)]
      exact hready hlt)
    (Nat.lt_succ_self len) (s := Chain.mk secret passwd)
    ⟨vector.bytes, fun _ => rfl, .start hblocks⟩
  rw [blocks_eq hle hm] at hreveal
  have hpw := hreveal.finish
  have hclen : c.passwd.length = passwd.length := by
    obtain ⟨done, rest, hc, -⟩ := hreveal
    rw [hpw, List.length_append, List.length_drop, revealBlocks_length]
    omega
  unfold InPlace.radPwdecode
  dsimp only
  rw [hclip, hrun, ok_bind]
  simp only [Option.map_some, Option.getD_some]
  rw [store_eq_ok (by omega), ok_bind, hpw]
  have hval : overlay (revealBlocks cfg.md5 secret ((len + 15) / 16)
        vector.bytes passwd ++ passwd.drop (16 * ((len + 15) / 16))) len [0]
      = radPwdecode cfg passwd pwlen secret vector := by
    rw [radPwdecode, hclip, overlay, List.length_singleton,
      List.append_assoc]
    rfl
  rw [hval]
  rfl

-- ======== round trip

/-- A string ends at its first NUL. -/
theorem cString_append_nul (bs more : List UInt8) :
    cString (bs ++ 0 :: more) = cString bs := by
  induction bs with
  | nil => rfl
  | cons b bs ih =>
      unfold cString at ih ⊢
      rw [List.cons_append, List.takeWhile_cons, List.takeWhile_cons, ih]

theorem cString_padTake {n : Nat} {bs more : List UInt8}
    (h : bs.length ≤ n) :
    cString (padTake n bs ++ 0 :: more) = cString bs := by
  rw [padTake, List.take_of_length_le h, List.append_assoc]
  cases n - bs.length with
  | zero => exact cString_append_nul bs more
  | succ m =>
      rw [List.replicate_succ]
      exact cString_append_nul bs _

variable (cfg secret) in
/-- Decoding whole hidden blocks: the value padded, and a NUL over the
byte behind. -/
theorem radPwdecode_hideBlocks {n : Nat} (hn : n ≤ 8) (vector : AuthVector)
    (plain tail : List UInt8) :
    radPwdecode cfg (hideBlocks cfg.md5 secret n vector.bytes plain ++ tail)
        (16 * n) secret vector
      = padTake (16 * n) plain ++ 0 :: tail.drop 1 := by
  unfold radPwdecode
  dsimp only
  rw [if_neg (by omega), show (16 * n + 15) / 16 = n by omega,
    revealBlocks_hideBlocks, List.drop_left' (hideBlocks_length ..),
    List.take_left' (padTake_length _ _), ← List.drop_drop,
    List.drop_left' (padTake_length _ _)]

/-- `rad_pwdecode` of what `rad_pwencode` made of a password of at most
128 bytes: the password, padded with NULs to whole blocks, a NUL behind
them, and the length of the string that is. -/
theorem radPwdecode_radPwencode {password rest buf : List UInt8} {len : Nat}
    (vector : AuthVector) (hmax : password.length ≤ 128)
    (hroom : 129 ≤ (password ++ rest).length)
    (henc : InPlace.radPwencode cfg (password ++ rest) password.length secret
      vector = .ok (buf, len)) :
    ∃ out, InPlace.radPwdecode cfg buf len secret vector
        = .ok (out, (cString password).length)
      ∧ len = passwdLen password.length
      ∧ out.take len = padTake len password ∧ out[len]? = some 0 := by
  have h128 : maxPassLen = 128 := rfl
  obtain ⟨hmul, h16, hlen128, hle⟩ := passwdLen_blocks password.length
  rw [inPlace_radPwencode cfg secret vector
      (by rw [List.length_append]; omega) (by omega), List.take_left, makePasswd, List.take_of_length_le (by omega),
    Except.ok.injEq, Prod.mk.injEq] at henc
  obtain ⟨hbuf, rfl⟩ := henc
  have hblen : buf.length = (password ++ rest).length := by
    rw [← hbuf, List.length_append, hideBlocks_length, List.length_drop]
    omega
  have hplain := radPwdecode_hideBlocks cfg secret
    (show passwdLen password.length / 16 ≤ 8 by omega) vector password
    ((password ++ rest).drop (passwdLen password.length))
  rw [hbuf, hmul] at hplain
  refine ⟨radPwdecode cfg buf (passwdLen password.length) secret vector,
    ?_, rfl, ?_, ?_⟩
  · rw [inPlace_radPwdecode vector (by omega) (by omega), hplain,
      cString_padTake (by omega)]
  · rw [hplain, List.take_left' (padTake_length _ _)]
  · rw [hplain, List.getElem?_append_right (by rw [padTake_length]),
      padTake_length, Nat.sub_self]
    rfl

/-- The round trip, and the ciphertext of the encoder: `make_passwd` gives
what `rad_pwencode` leaves in the buffer, for any input. -/
theorem userPassword_codecs (cfg : Config) (secret : List UInt8)
    (vector : AuthVector) :
    (∀ password rest : List UInt8, password.length ≤ 128 →
      129 ≤ (password ++ rest).length →
      ∃ buf len out,
        InPlace.radPwencode cfg (password ++ rest) password.length secret
            vector = .ok (buf, len)
          ∧ InPlace.radPwdecode cfg buf len secret vector
              = .ok (out, (cString password).length)
          ∧ len = passwdLen password.length
          ∧ out.take len = padTake len password ∧ out[len]? = some 0)
    ∧ ∀ input rest : List UInt8, 129 ≤ (input ++ rest).length →
      ∃ buf len,
        InPlace.radPwencode cfg (input ++ rest) input.length secret vector
            = .ok (buf, len)
          ∧ InPlace.makePasswd cfg input secret vector
              = .ok (buf.take len) := by
  constructor
  · intro password rest hmax hroom
    obtain ⟨-, -, hlen128, -⟩ := passwdLen_blocks password.length
    have henc := inPlace_radPwencode cfg secret vector
      (show password.length ≤ (password ++ rest).length by
        rw [List.length_append]; omega)
      (by omega)
    obtain ⟨out, hout⟩ := radPwdecode_radPwencode vector hmax hroom henc
    exact ⟨_, _, out, henc, hout⟩
  · intro input rest hroom
    obtain ⟨hmul, -, hlen128, -⟩ := passwdLen_blocks input.length
    have henc := inPlace_radPwencode cfg secret vector
      (show input.length ≤ (input ++ rest).length by
        rw [List.length_append]; omega)
      (by omega)
    refine ⟨_, _, henc, ?_⟩
    rw [inPlace_makePasswd, List.take_left, List.take_left' (by
      rw [makePasswd, hideBlocks_length, hmul])]

/-- A password of three bytes in the buffer of a value, and an input longer
than any password. -/
theorem userPassword_codecs_runs :
    (∃ buf len out,
        InPlace.radPwencode bareConfig ([1, 2, 3] ++ List.replicate 251 0) 3
            [7] .zero = .ok (buf, len)
          ∧ InPlace.radPwdecode bareConfig buf len [7] .zero = .ok (out, 3)
          ∧ len = 16 ∧ out.take len = padTake len [1, 2, 3]
          ∧ out[len]? = some 0)
    ∧ ∃ buf len,
        InPlace.radPwencode bareConfig (List.replicate 200 9 ++ []) 200 [7]
            .zero = .ok (buf, len)
          ∧ InPlace.makePasswd bareConfig (List.replicate 200 9) [7] .zero
              = .ok (buf.take len) :=
  ⟨(userPassword_codecs bareConfig [7] .zero).1 [1, 2, 3]
      (List.replicate 251 0) (by decide)
      (by rw [List.length_append, List.length_replicate]; decide),
    (userPassword_codecs bareConfig [7] .zero).2 (List.replicate 200 9) []
      (by rw [List.length_append, List.length_replicate]; decide)⟩

end WinRadius
