/-
The three ways radius.cpp hides an attribute value: User-Password
(RFC 2865), Tunnel-Password (RFC 2868) and the Ascend secret.

All three XOR the value with MD5 digests keyed by the shared secret. The
first two chain 16-byte blocks, each keyed by the ciphertext block before
it (`hideBlocks`, and `revealBlocks` for the way back); they differ in
what keys the first block and in what is laid out before encryption. A
`FR_MD5_CTX` is the bytes fed to it so far, so the saved context `old` is
the secret alone.
-/
import WinRadius.Model.Dict

namespace WinRadius

open Lib

-- ======== random

/-- `fr_rand` and the salt counter: an arbitrary stream of 32-bit
numbers, the number of draws so far, and the static `salt_offset`. -/
structure Rand where
  stream : Nat → UInt32
  drawn : Nat := 0
  saltOffset : Nat := 0

/-- `fr_rand()`. -/
def Rand.next (r : Rand) : UInt32 × Rand :=
  (r.stream r.drawn, { r with drawn := r.drawn + 1 })

/-- The two salt bytes `make_tunnel_passwd` generates. -/
def Rand.salt (r : Rand) : List UInt8 × Rand :=
  let (n0, r0) := r.next
  let (n1, r1) := r0.next
  ([(0x80 : UInt8) ||| UInt8.ofNat ((r.saltOffset % 16) <<< 3)
      ||| UInt8.ofNat (n0.toNat % 8), UInt8.ofNat n1.toNat],
    { r1 with saltOffset := r.saltOffset + 1 })

-- ======== blocks

/-- Bytewise exclusive or. -/
def xorBytes (a b : List UInt8) : List UInt8 :=
  List.zipWith (fun x y => x ^^^ y) a b

/-- `n` chained blocks: each is the plaintext XORed with the digest of
the secret and the ciphertext block before it (at first, `key`). -/
def hideBlocks (md5 : List UInt8 → AuthVector) (secret : List UInt8) :
    Nat → List UInt8 → List UInt8 → List UInt8
  | 0, _, _ => []
  | n + 1, key, plain =>
      let block := xorBytes (padTake 16 plain) (md5 (secret ++ key)).bytes
      block ++ hideBlocks md5 secret n block (plain.drop 16)

/-- The inverse chain: the key of each block is the ciphertext before
it. -/
def revealBlocks (md5 : List UInt8 → AuthVector) (secret : List UInt8) :
    Nat → List UInt8 → List UInt8 → List UInt8
  | 0, _, _ => []
  | n + 1, key, hidden =>
      let block := padTake 16 hidden
      xorBytes block (md5 (secret ++ key)).bytes
        ++ revealBlocks md5 secret n block (hidden.drop 16)

@[simp] theorem xorBytes_length (a b : List UInt8) :
    (xorBytes a b).length = min a.length b.length := by
  simp [xorBytes]

theorem hideBlocks_length (md5 : List UInt8 → AuthVector)
    (secret : List UInt8) (n : Nat) (key plain : List UInt8) :
    (hideBlocks md5 secret n key plain).length = 16 * n := by
  induction n generalizing key plain with
  | zero => rfl
  | succ n ih =>
      simp only [hideBlocks, List.length_append, xorBytes_length,
        padTake_length, AuthVector.len, ih]
      omega

-- ======== encoding

/-- `make_secret`: 16 bytes of `value` under one digest of vector and
secret. -/
def makeSecret (cfg : Config) (vector : AuthVector)
    (secret value : List UInt8) : List UInt8 :=
  xorBytes (cfg.md5 (vector.bytes ++ secret)).bytes (padTake 16 value)

/-- The length `make_passwd` rounds an input of `len` bytes to. -/
def passwdLen (len : Nat) : Nat :=
  let len := if maxPassLen < len then maxPassLen else len
  if len = 0 then 16
  else if len % 16 ≠ 0 then (len + 15) / 16 * 16
  else len

/-- `make_passwd`: at most 128 bytes, zero-padded to whole blocks. -/
def makePasswd (cfg : Config) (input secret : List UInt8)
    (vector : AuthVector) : List UInt8 :=
  hideBlocks cfg.md5 secret (passwdLen input.length / 16) vector.bytes
    (input.take maxPassLen)

/-- The bytes `make_tunnel_passwd` lets into the block part: the room
less the salt, in whole blocks, less the length byte. -/
def tunnelRoom (room : Nat) : Nat :=
  let room := if 253 < room then 253 else room
  let room := room - 2
  room - room % 16 - 1

/-- `make_tunnel_passwd`: salt, then the length byte and the password in
whole blocks, the first keyed by vector and salt. -/
def makeTunnelPasswd (cfg : Config) (r : Rand) (input : List UInt8)
    (room : Nat) (secret : List UInt8) (vector : AuthVector) :
    List UInt8 × Rand :=
  let inlen := if tunnelRoom room < input.length then tunnelRoom room
    else input.length
  let len := inlen + 1
  let len := if len % 16 ≠ 0 then (len + 15) / 16 * 16 else len
  let (salt, r') := r.salt
  (salt ++ hideBlocks cfg.md5 secret (len / 16) (vector.bytes ++ salt)
      (UInt8.ofNat inlen :: input.take inlen), r')

-- ======== decoding

/-- `rad_pwdecode` in place: the revealed blocks replace the front of the
buffer, and the byte at the (clipped) length is set to NUL. -/
def radPwdecode (cfg : Config) (passwd : List UInt8) (pwlen : Nat)
    (secret : List UInt8) (vector : AuthVector) : List UInt8 :=
  let pwlen := if 128 < pwlen then 128 else pwlen
  let n := (pwlen + 15) / 16
  let plain := revealBlocks cfg.md5 secret n vector.bytes passwd
    ++ passwd.drop (16 * n)
  plain.take pwlen ++ 0 :: plain.drop (pwlen + 1)

/-- `rad_tunnel_pwdecode` in place: the new buffer and length, `none`
when it returns -1. -/
def radTunnelPwdecode (cfg : Config) (passwd : List UInt8) (pwlen : Nat)
    (secret : List UInt8) (vector : AuthVector) :
    Option (List UInt8 × Nat) :=
  if pwlen < 2 then none
  else if pwlen ≤ 3 then some (0 :: passwd.drop 1, 0)
  else
    let len := pwlen - 2
    let n := (len + 15) / 16
    let plain := revealBlocks cfg.md5 secret n
      (vector.bytes ++ passwd.take 2) (passwd.drop 2)
    let reallen := (plain.getD 0 0).toNat
    if len ≤ reallen then none
    else
      let reallen := if 239 < reallen then 239 else reallen
      let buffer := plain.drop 1 ++ passwd.drop (16 * n - 1)
      some (buffer.take reallen ++ 0 :: buffer.drop (reallen + 1), reallen)

end WinRadius
