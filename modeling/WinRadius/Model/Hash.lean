/-
The hash table of hash.cpp: a split-ordered table whose buckets are
filled lazily, and the FNV-1 hash it is used with.

# Chains

A chain is a linked list that ends at the table's `null` node, so a
bucket is `none` while its pointer is `NULL` and a list of entries
afterwards. `fr_hash_table_fixup` cuts a chain at the entries that belong
elsewhere and hands the rest over; no two buckets share an entry, and the
cutting is a function of the list.

The data are the caller's pointers. The table only reads what `hash` and
`cmp` see of them, so a type of keys with a reference beside it stands
for a pointer to a record that the caller goes on writing to.
-/
import WinRadius.Lib.Bytes

namespace WinRadius

open Lib

-- ======== bit tables

/-- `reversed_byte`. -/
def reversedByte : List Nat := [
    0, 128, 64, 192, 32, 160, 96, 224, 16, 144, 80, 208, 48, 176, 112,
    240, 8, 136, 72, 200, 40, 168, 104, 232, 24, 152, 88, 216, 56, 184,
    120, 248, 4, 132, 68, 196, 36, 164, 100, 228, 20, 148, 84, 212, 52,
    180, 116, 244, 12, 140, 76, 204, 44, 172, 108, 236, 28, 156, 92, 220,
    60, 188, 124, 252, 2, 130, 66, 194, 34, 162, 98, 226, 18, 146, 82,
    210, 50, 178, 114, 242, 10, 138, 74, 202, 42, 170, 106, 234, 26, 154,
    90, 218, 58, 186, 122, 250, 6, 134, 70, 198, 38, 166, 102, 230, 22,
    150, 86, 214, 54, 182, 118, 246, 14, 142, 78, 206, 46, 174, 110, 238,
    30, 158, 94, 222, 62, 190, 126, 254, 1, 129, 65, 193, 33, 161, 97,
    225, 17, 145, 81, 209, 49, 177, 113, 241, 9, 137, 73, 201, 41, 169,
    105, 233, 25, 153, 89, 217, 57, 185, 121, 249, 5, 133, 69, 197, 37,
    165, 101, 229, 21, 149, 85, 213, 53, 181, 117, 245, 13, 141, 77, 205,
    45, 173, 109, 237, 29, 157, 93, 221, 61, 189, 125, 253, 3, 131, 67,
    195, 35, 163, 99, 227, 19, 147, 83, 211, 51, 179, 115, 243, 11, 139,
    75, 203, 43, 171, 107, 235, 27, 155, 91, 219, 59, 187, 123, 251, 7,
    135, 71, 199, 39, 167, 103, 231, 23, 151, 87, 215, 55, 183, 119, 247,
    15, 143, 79, 207, 47, 175, 111, 239, 31, 159, 95, 223, 63, 191, 127,
    255]

/-- `parent_byte`. -/
def parentByte : List Nat := [
    0, 0, 0, 1, 0, 1, 2, 3, 0, 1, 2, 3, 4, 5, 6, 7, 0, 1, 2, 3, 4, 5, 6,
    7, 8, 9, 10, 11, 12, 13, 14, 15, 0, 1, 2, 3, 4, 5, 6, 7, 8, 9, 10,
    11, 12, 13, 14, 15, 16, 17, 18, 19, 20, 21, 22, 23, 24, 25, 26, 27,
    28, 29, 30, 31, 0, 1, 2, 3, 4, 5, 6, 7, 8, 9, 10, 11, 12, 13, 14, 15,
    16, 17, 18, 19, 20, 21, 22, 23, 24, 25, 26, 27, 28, 29, 30, 31, 32,
    33, 34, 35, 36, 37, 38, 39, 40, 41, 42, 43, 44, 45, 46, 47, 48, 49,
    50, 51, 52, 53, 54, 55, 56, 57, 58, 59, 60, 61, 62, 63, 0, 1, 2, 3,
    4, 5, 6, 7, 8, 9, 10, 11, 12, 13, 14, 15, 16, 17, 18, 19, 20, 21, 22,
    23, 24, 25, 26, 27, 28, 29, 30, 31, 32, 33, 34, 35, 36, 37, 38, 39,
    40, 41, 42, 43, 44, 45, 46, 47, 48, 49, 50, 51, 52, 53, 54, 55, 56,
    57, 58, 59, 60, 61, 62, 63, 64, 65, 66, 67, 68, 69, 70, 71, 72, 73,
    74, 75, 76, 77, 78, 79, 80, 81, 82, 83, 84, 85, 86, 87, 88, 89, 90,
    91, 92, 93, 94, 95, 96, 97, 98, 99, 100, 101, 102, 103, 104, 105,
    106, 107, 108, 109, 110, 111, 112, 113, 114, 115, 116, 117, 118, 119,
    120, 121, 122, 123, 124, 125, 126, 127]

/-- `reverse`: the bits of a key in reverse order. -/
def reverse (key : UInt32) : Nat :=
  (reversedByte.getD (key.toNat % 256) 0 <<< 24)
    ||| (reversedByte.getD (key.toNat / 256 % 256) 0 <<< 16)
    ||| (reversedByte.getD (key.toNat / 65536 % 256) 0 <<< 8)
    ||| reversedByte.getD (key.toNat / 16777216 % 256) 0

/-- `parent_of`: the highest bit that is set is discarded. -/
def parentOf (key : Nat) : Nat :=
  if 0x00ffffff < key then
    key % 16777216 ||| (parentByte.getD (key / 16777216) 0 <<< 24)
  else if 0x0000ffff < key then
    key % 65536 ||| (parentByte.getD (key / 65536) 0 <<< 16)
  else if 0x000000ff < key then
    key % 256 ||| (parentByte.getD (key / 256) 0 <<< 8)
  else parentByte.getD key 0

-- ======== chains

/-- `fr_hash_entry_t`. -/
structure HashEntry (α : Type) where
  reversed : Nat
  key : UInt32
  data : α

/-- The functions a table is created with; `cmp` may be `NULL`. -/
structure HashOps (α : Type) where
  hash : α → UInt32
  cmp : Option (α → α → Int)

section chains

variable {α : Type} (ops : HashOps α)

/-- How a walk over a chain treats an entry with the hash it looks
for. -/
inductive Match where
  | before
  | same
  | after
deriving DecidableEq

/-- `ht->cmp(data, cur->data)`; without a comparison all are equal. -/
def HashOps.matches (data cur : α) : Match :=
  match ops.cmp with
  | none => .same
  | some cmp =>
      if 0 < cmp data cur then .before
      else if cmp data cur < 0 then .after
      else .same

/-- `list_find`. It breaks off at the first entry of the same hash that
compares smaller. -/
def listFind (reversed : Nat) (data : α) :
    List (HashEntry α) → Option (HashEntry α)
  | [] => none
  | cur :: next =>
      if cur.reversed = reversed then
        match ops.matches data cur.data with
        | .before => none
        | .after => listFind reversed data next
        | .same => some cur
      else if reversed < cur.reversed then none
      else listFind reversed data next

/-- Where `list_find` stops: a pointer to a node of a chain is its
position there. -/
def listFindAt (reversed : Nat) (data : α) :
    List (HashEntry α) → Option Nat
  | [] => none
  | cur :: next =>
      if cur.reversed = reversed then
        match ops.matches data cur.data with
        | .before => none
        | .after => (listFindAt reversed data next).map (· + 1)
        | .same => some 0
      else if reversed < cur.reversed then none
      else (listFindAt reversed data next).map (· + 1)

/-- `list_insert`; `none` when an equal entry is there. A smaller entry of
the same hash stays in front of the new one. -/
def listInsert (node : HashEntry α) :
    List (HashEntry α) → Option (List (HashEntry α))
  | [] => some [node]
  | cur :: next =>
      if node.reversed < cur.reversed then some (node :: cur :: next)
      else if cur.reversed = node.reversed then
        match ops.matches node.data cur.data with
        | .before => some (cur :: node :: next)
        | .after => (listInsert node next).map (cur :: ·)
        | .same => none
      else (listInsert node next).map (cur :: ·)

end chains

/-- `list_delete` of the node at a position. -/
def listDelete {α : Type} (chain : List (HashEntry α)) (node : Nat) :
    List (HashEntry α) :=
  chain.eraseIdx node

-- ======== table

/-- `fr_hash_table_t`. -/
structure HashTable (α : Type) where
  numElements : Nat := 0
  numBuckets : Nat := 64
  nextGrow : Nat := 160
  mask : Nat := 63
  buckets : List (Option (List (HashEntry α)))

/-- `fr_hash_table_create`. -/
def hashTableCreate (α : Type) : HashTable α :=
  { buckets := some [] :: List.replicate 63 none }

namespace HashTable

variable {α : Type}

/-- `ht->buckets[entry]`. -/
def bucket (ht : HashTable α) (entry : Nat) :
    Option (List (HashEntry α)) :=
  ht.buckets.getD entry none

/-- `ht->buckets[entry] = chain`. -/
def setBucket (ht : HashTable α) (entry : Nat)
    (chain : List (HashEntry α)) : HashTable α :=
  { ht with buckets := ht.buckets.set entry (some chain) }

/-- `key & ht->mask`. -/
def entryOf (ht : HashTable α) (key : UInt32) : Nat := key.toNat &&& ht.mask

/-- The walk of `fr_hash_table_fixup` down a chain whose entries so far
belong to `self`: what stays there, and the pieces that are handed to
other buckets, in order. -/
def splitChain (mask self : Nat) :
    List (HashEntry α) →
      List (HashEntry α) × List (Nat × List (HashEntry α))
  | [] => ([], [])
  | cur :: next =>
      let real := cur.key.toNat &&& mask
      if real ≠ self then
        let (piece, others) := splitChain mask real next
        ([], (real, cur :: piece) :: others)
      else
        let (piece, others) := splitChain mask self next
        (cur :: piece, others)

/-- The part of `fr_hash_table_fixup` behind the parent's own fixup. -/
def splitParent (ht : HashTable α) (entry : Nat) : HashTable α :=
  let parent := parentOf entry
  let (kept, others) :=
    splitChain ht.mask parent ((ht.bucket parent).getD [])
  let ht := others.foldl (fun ht p => ht.setBucket p.1 p.2)
    (ht.setBucket parent kept)
  if (ht.bucket entry).isNone then ht.setBucket entry [] else ht

/-- `fr_hash_table_fixup`. Each call discards a bit of `entry`, so the
number of bits bounds the recursion. -/
def fixup : Nat → HashTable α → Nat → HashTable α
  | 0, ht, _ => ht
  | fuel + 1, ht, entry =>
      let ht :=
        if (ht.bucket (parentOf entry)).isNone then
          fixup fuel ht (parentOf entry)
        else ht
      ht.splitParent entry

/-- `if (!ht->buckets[entry]) fr_hash_table_fixup(ht, entry)`. -/
def fixed (ht : HashTable α) (entry : Nat) : HashTable α :=
  if (ht.bucket entry).isNone then fixup 33 ht entry else ht

/-- `fr_hash_table_grow`. -/
def grow (ht : HashTable α) : HashTable α :=
  { ht with
    numBuckets := ht.numBuckets * 2
    nextGrow := ht.nextGrow * 2
    mask := ht.numBuckets * 2 - 1
    buckets := ht.buckets ++ List.replicate ht.numBuckets none }

/-- `fr_hash_table_insert`: the table and the return. On a return of 0 it
only had its bucket filled. -/
def insert (ops : HashOps α) (ht : HashTable α) (data : α) :
    HashTable α × Bool :=
  let key := ops.hash data
  let entry := ht.entryOf key
  let ht := ht.fixed entry
  let node : HashEntry α :=
    { reversed := reverse key, key := key, data := data }
  match listInsert ops node ((ht.bucket entry).getD []) with
  | none => (ht, false)
  | some chain =>
      let ht := ht.setBucket entry chain
      let ht := { ht with numElements := ht.numElements + 1 }
      (if ht.nextGrow ≤ ht.numElements then ht.grow else ht, true)

/-- `fr_hash_table_finddata`: filling a bucket is all it changes. -/
def finddata (ops : HashOps α) (ht : HashTable α) (data : α) :
    HashTable α × Option α :=
  let key := ops.hash data
  let entry := ht.entryOf key
  let ht := ht.fixed entry
  (ht, (listFind ops (reverse key) data
    ((ht.bucket entry).getD [])).map (·.data))

/-- `fr_hash_table_replace`: the table, the datum that is freed and the
return. -/
def replace (ops : HashOps α) (ht : HashTable α) (data : α) :
    HashTable α × Option α × Bool :=
  let key := ops.hash data
  let entry := ht.entryOf key
  let ht := ht.fixed entry
  let chain := (ht.bucket entry).getD []
  match listFindAt ops (reverse key) data chain with
  | none =>
      let (ht, rcode) := insert ops ht data
      (ht, none, rcode)
  | some node =>
      (ht.setBucket entry
          (chain.modify node fun cur => { cur with data := data }),
        (chain[node]?).map (·.data), true)

/-- `fr_hash_table_yank`: the table and the datum that is taken out. -/
def yank (ops : HashOps α) (ht : HashTable α) (data : α) :
    HashTable α × Option α :=
  let key := ops.hash data
  let entry := ht.entryOf key
  let ht := ht.fixed entry
  let chain := (ht.bucket entry).getD []
  match listFindAt ops (reverse key) data chain with
  | none => (ht, none)
  | some node =>
      let ht := ht.setBucket entry (listDelete chain node)
      ({ ht with numElements := ht.numElements - 1 },
        (chain[node]?).map (·.data))

/-- `fr_hash_table_delete`: the datum taken out is freed. -/
def delete (ops : HashOps α) (ht : HashTable α) (data : α) :
    HashTable α × Bool :=
  let (ht, old) := yank ops ht data
  (ht, old.isSome)

section walk

variable {σ : Type} (callback : σ → α → σ × Int)

/-- The inner loop of `fr_hash_table_walk`: the context and the return of
the callback that stopped it, 0 if none did. -/
def walkChain : σ → List (HashEntry α) → σ × Int
  | context, [] => (context, 0)
  | context, node :: next =>
      let (context, rcode) := callback context node.data
      if rcode ≠ 0 then (context, rcode) else walkChain context next

/-- Its outer loop, over the buckets below `i`, the highest first. -/
def walkFrom : Nat → HashTable α → σ → HashTable α × σ × Int
  | 0, ht, context => (ht, context, 0)
  | i + 1, ht, context =>
      let ht := ht.fixed i
      let (context, rcode) :=
        walkChain callback context ((ht.bucket i).getD [])
      if rcode ≠ 0 then (ht, context, rcode) else walkFrom i ht context

/-- `fr_hash_table_walk`, with a callback that leaves the table alone. -/
def walk (ht : HashTable α) (context : σ) : HashTable α × σ × Int :=
  walkFrom callback ht.numBuckets ht context

end walk

end HashTable

-- ======== FNV-1

/-- `fr_hash_update`. -/
def frHashUpdate (data : List UInt8) (hash : UInt32) : UInt32 :=
  data.foldl (fun h b => (h * 0x01000193) ^^^ UInt32.ofNat b.toNat) hash

/-- `fr_hash`. -/
def frHash (data : List UInt8) : UInt32 := frHashUpdate data 0x811c9dc5

end WinRadius
