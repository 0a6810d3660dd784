/-
The block loops of radius.cpp as they run: buffers that are written in
place, a digest context that is saved and restored, and an index that
moves by sixteen.

A `FR_MD5_CTX` is the bytes fed to it (`context`), so `context = old` is
an assignment of lists and `fr_MD5Final` an application of the digest.
Every access is checked against the array it falls in; what is left in an
array before it is written is `cfg.heap`. Lengths are those of arrays, so
they fit in the `int` they are kept in.
-/
import WinRadius.Model.Decode
import WinRadius.Lib.Blocks

namespace WinRadius

open Lib

/-- An array before anything is written to it. -/
def uninit (cfg : Config) (n : Nat) : List UInt8 :=
  (List.range n).map cfg.heap

/-- The digest context and the buffer a loop works on. -/
structure Chain where
  context : List UInt8
  passwd : List UInt8

namespace InPlace

-- ======== user password

/-- The loop body of `make_passwd` and, two bytes into the buffer, of
`make_tunnel_passwd`: the context of the first block is ready, that of a
later one is the secret and the block before. -/
def makeBlock (cfg : Config) (old : List UInt8) (off n : Nat) (c : Chain) :
    Mem (Option Chain) := do
  let context ←
    if 0 < n then do
      let block ← fetchN c.passwd (off + n - 16 : Int) 16
      pure (old ++ block)
    else pure c.context
  let passwd ← xorInto (cfg.md5 context).bytes (off + n) (off + n) c.passwd
  pure (some { context := context, passwd := passwd })

/-- `make_passwd`: what it copies to `output`. -/
def makePasswd (cfg : Config) (input secret : List UInt8)
    (vector : AuthVector) : Mem (List UInt8) := do
  let len := if maxPassLen < input.length then maxPassLen else input.length
  let value ← fetchN input 0 len
  let passwd ← storeN (uninit cfg maxPassLen) 0 value
  let passwd ← storeN passwd len (List.replicate (maxPassLen - len) 0)
  let len := passwdLen len
  let old := secret
  match ← forBlocks 16 len (makeBlock cfg old 0) (len + 1) 0
      { context := old ++ vector.bytes, passwd := passwd } with
  | some c => fetchN c.passwd 0 len
  | none => pure []

/-- The loop body of `rad_pwencode`: the vector is fed in the first
round. -/
def pwencodeBlock (cfg : Config) (old : List UInt8) (vector : AuthVector)
    (n : Nat) (c : Chain) : Mem (Option Chain) := do
  let context ←
    if n = 0 then pure (c.context ++ vector.bytes)
    else do
      let block ← fetchN c.passwd (n - 16 : Int) 16
      pure (old ++ block)
  let passwd ← xorInto (cfg.md5 context).bytes n n c.passwd
  pure (some { context := context, passwd := passwd })

/-- The zeros `rad_pwencode` puts behind the password, and the length with
them. -/
def pwencodePad (passwd : List UInt8) (len : Nat) :
    Mem (List UInt8 × Nat) :=
  if len = 0 then do
    let passwd ← storeN passwd 0 (List.replicate 16 0)
    pure (passwd, 16)
  else if len % 16 ≠ 0 then do
    let passwd ← storeN passwd len (List.replicate (16 - len % 16) 0)
    pure (passwd, len + (16 - len % 16))
  else pure (passwd, len)

/-- `rad_pwencode(passwd, &pwlen, secret, vector)`: the buffer and the new
length. -/
def radPwencode (cfg : Config) (passwd : List UInt8) (pwlen : Nat)
    (secret : List UInt8) (vector : AuthVector) :
    Mem (List UInt8 × Nat) := do
  let len := if 128 < pwlen then 128 else pwlen
  let (passwd, len) ← pwencodePad passwd len
  let old := secret
  match ← forBlocks 16 len (pwencodeBlock cfg old vector) (len + 1) 0
      { context := old, passwd := passwd } with
  | some c => pure (c.passwd, len)
  | none => pure (passwd, len)

/-- The loop body of `rad_pwdecode`: the context of the next block is made
before the block is overwritten. -/
def pwdecodeBlock (cfg : Config) (old : List UInt8) (vector : AuthVector)
    (pwlen n : Nat) (c : Chain) : Mem (Option Chain) := do
  let text := if n = 0 then c.context ++ vector.bytes else c.context
  let context ←
    if n + 16 < pwlen then do
      let block ← fetchN c.passwd n 16
      pure (old ++ block)
    else pure old
  let passwd ← xorInto (cfg.md5 text).bytes n n c.passwd
  pure (some { context := context, passwd := passwd })

/-- `rad_pwdecode(passwd, pwlen, secret, vector)`: the buffer and the
length of the string in it. -/
def radPwdecode (cfg : Config) (passwd : List UInt8) (pwlen : Nat)
    (secret : List UInt8) (vector : AuthVector) :
    Mem (List UInt8 × Nat) := do
  let pwlen := if 128 < pwlen then 128 else pwlen
  let old := secret
  let c ← forBlocks 16 pwlen (pwdecodeBlock cfg old vector pwlen)
    (pwlen + 1) 0 { context := old, passwd := passwd }
  let passwd := (c.map (·.passwd)).getD passwd
  let passwd ← store passwd pwlen 0
  pure (passwd, (cString passwd).length)

-- ======== tunnel password

/-- A subtraction of `size_t`. -/
def sizeSub (a b : Nat) : Nat := (a + 4294967296 - b) % 4294967296

/-- The bytes `make_tunnel_passwd` finds room for. -/
def tunnelRoom (room : Nat) : Nat :=
  let room := if 253 < room then 253 else room
  let room := sizeSub room 2
  let room := room - room % 16
  sizeSub room 1

/-- `make_tunnel_passwd`: what it copies to `output`. -/
def makeTunnelPasswd (cfg : Config) (r : Rand) (input : List UInt8)
    (room : Nat) (secret : List UInt8) (vector : AuthVector) :
    Mem (List UInt8 × Rand) := do
  let room := tunnelRoom room
  let inlen := if room < input.length then room else input.length
  let len := inlen + 1
  let len := if len % 16 ≠ 0 then (len + 15) / 16 * 16 else len
  let value ← fetchN input 0 inlen
  let passwd ← storeN (uninit cfg (maxStringLen + 16)) 3 value
  let passwd ← storeN passwd (3 + inlen)
    (List.replicate (maxStringLen + 16 - 3 - inlen) 0)
  let (salt, r) := r.salt
  let passwd ← storeN passwd 0 salt
  let passwd ← store passwd 2 (UInt8.ofNat inlen)
  let old := secret
  let salt ← fetchN passwd 0 2
  match ← forBlocks 16 len (makeBlock cfg old 2) (len + 1) 0
      { context := old ++ vector.bytes ++ salt, passwd := passwd } with
  | some c => do
      let output ← fetchN c.passwd 0 (len + 2)
      pure (output, r)
  | none => pure ([], r)

/-- The text `rad_tunnel_pwencode` digests, in its array, and the buffer
it encrypts. -/
structure Draft where
  buffer : List UInt8
  passwd : List UInt8

/-- What goes behind the secret in the array, and the length of the text
with it. -/
def tunnelText (secretlen : Nat) (vector : AuthVector) (n : Nat)
    (d : Draft) : Mem (List UInt8 × Nat) :=
  if n = 0 then do
    let buffer ← storeN d.buffer secretlen vector.bytes
    let salt ← fetchN d.passwd 0 2
    let buffer ← storeN buffer (secretlen + 16) salt
    pure (buffer, secretlen + 16 + 2)
  else do
    let block ← fetchN d.passwd (2 + n - 16 : Int) 16
    let buffer ← storeN d.buffer secretlen block
    pure (buffer, secretlen + 16)

/-- The loop body of `rad_tunnel_pwencode`; `passwd` starts at the
salt. -/
def tunnelPwencodeBlock (cfg : Config) (secretlen : Nat)
    (vector : AuthVector) (n : Nat) (d : Draft) : Mem (Option Draft) := do
  let (buffer, textlen) ← tunnelText secretlen vector n d
  let text ← fetchN buffer 0 textlen
  let passwd ← xorInto (cfg.md5 text).bytes (2 + n) (2 + n) d.passwd
  pure (some { buffer := buffer, passwd := passwd })

/-- The buffer `rad_tunnel_pwencode` encrypts, with the length of its
blocks: the password three bytes to the right, at most 127 bytes of it,
behind the salt and the length, and zeros to the end of the last block. -/
def tunnelPwLayout (r : Rand) (passwd : List UInt8) (pwlen : Nat) :
    Mem (List UInt8 × Nat × Rand) := do
  let len := if 127 < pwlen then 127 else pwlen
  let passwd ← shiftRight 3 len passwd
  let passwd ← store passwd 2 (UInt8.ofNat len)
  let len := len + 1
  let (salt, r) := r.salt
  let passwd ← storeN passwd 0 salt
  let pad := if len % 16 ≠ 0 then 16 - len % 16 else 0
  let passwd ← zeroFrom pad (2 + len) passwd
  pure (passwd, len + pad, r)

/-- `rad_tunnel_pwencode(passwd, &pwlen, secret, vector)`: the buffer and
the new length. -/
def radTunnelPwencode (cfg : Config) (r : Rand) (passwd : List UInt8)
    (pwlen : Nat) (secret : List UInt8) (vector : AuthVector) :
    Mem (List UInt8 × Nat × Rand) := do
  let (passwd, len, r) ← tunnelPwLayout r passwd pwlen
  -- no test that the secret leaves room for the vector and the salt
  let buffer ← storeN (uninit cfg (16 + maxStringLen + 3)) 0 secret
  match ← forBlocks 16 len (tunnelPwencodeBlock cfg secret.length vector)
      (len + 1) 0 { buffer := buffer, passwd := passwd } with
  | some d => do
      let passwd ← store d.passwd (2 + len) 0
      pure (passwd, len + 2, r)
  | none => pure (passwd, len + 2, r)

/-- The locals of `rad_tunnel_pwdecode` that live across blocks. -/
structure TunnelChain where
  context : List UInt8
  passwd : List UInt8
  reallen : Nat := 0

/-- The loop body of `rad_tunnel_pwdecode`: what is decrypted moves three
bytes to the front. -/
def tunnelPwdecodeBlock (cfg : Config) (old : List UInt8) (len n : Nat)
    (c : TunnelChain) : Mem (Option TunnelChain) := do
  let digest := (cfg.md5 c.context).bytes
  if n = 0 then do
    let first ← fetch c.passwd 2
    let reallen := (first ^^^ digest.getD 0 0).toNat
    if len ≤ reallen then pure none
    else do
      let block ← fetchN c.passwd 2 16
      let passwd ← xorInto (digest.drop 1) 0 3 c.passwd
      pure (some { context := old ++ block, passwd := passwd,
                   reallen := reallen })
  else do
    let block ← fetchN c.passwd (n + 2) 16
    let passwd ← xorInto digest (n - 1) (n + 2) c.passwd
    pure (some { c with context := old ++ block, passwd := passwd })

/-- `rad_tunnel_pwdecode(passwd, &pwlen, secret, vector)`: the buffer and
the length, `none` when it returns -1. -/
def radTunnelPwdecode (cfg : Config) (passwd : List UInt8) (pwlen : Nat)
    (secret : List UInt8) (vector : AuthVector) :
    Mem (Option (List UInt8 × Nat)) := do
  if pwlen < 2 then pure none
  else if pwlen ≤ 3 then do
    let passwd ← store passwd 0 0
    pure (some (passwd, 0))
  else do
    let len := pwlen - 2
    let old := secret
    let salt ← fetchN passwd 0 2
    match ← forBlocks 16 len (tunnelPwdecodeBlock cfg old len) (len + 1) 0
        { context := old ++ vector.bytes ++ salt, passwd := passwd } with
    | none => pure none
    | some c => do
        let reallen := if 239 < c.reallen then 239 else c.reallen
        let passwd ← store c.passwd reallen 0
        pure (some (passwd, reallen))

end InPlace

/-- `data2vp` up to the call of `rad_tunnel_pwdecode`, and that call, on
the 254 bytes of the value. -/
def tunnelData2vp (ctx : DecCtx) (secret : List UInt8)
    (original : RadiusPacket) (length : Int) (buf : List UInt8)
    (data : Int) (vp : ValuePair) : Mem (Option (List UInt8 × Nat)) := do
  let length := clipLength length
  let (vp, offset) ← vpTag buf data { vp with op := .opEq }
  let value ← fetchN buf (data + offset) (length - offset)
  let vp := vp.setOctets value
  InPlace.radTunnelPwdecode ctx.cfg (vp.octets maxStringLen) value.length
    secret original.vector

end WinRadius
